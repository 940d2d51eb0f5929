import Xv6.Vm.ExecRules
import Xv6.Vm.System

/-!
# Who owns the pages

Every call keeps the map from pages to places, and loses pages if and only if its plan has a request
for a page table that is refused.
-/

namespace Xv6.Vm

open Lib Exec
open Function (update update_self update_of_ne update_eq_self)

/-- The owners of single pages. -/
inductive Solo where
  | kstack (h : ℕ)
  | pipe (p : ℕ)
  deriving DecidableEq

/-- What the kernel's variables point to. The address space without a number is the one that `exec`
builds. -/
def Kern.roots (k : Kern) : Roots (Option ℕ) Solo where
  dir := fun
    | none => none
    | some h => (k.space h).map Space.pgdir
  solo := fun
    | .kstack h => k.kstack h
    | .pipe p => (k.pipe p).map Pipe.page
  hand := ∅

/-- The page is on the free list, or something of the kernel leads to it. -/
def Kern.Placed (k : Kern) (x : ℕ) : Prop := ∃ a, At k.phys k.roots x a

structure KInv (K : Image) (k : Kern) (ω : ℕ → Option (Place (Option ℕ) Solo)) : Prop where
  inv : Inv K k.phys k.roots ω
  size : ∀ h sp, k.space h = some sp → sp.sz ≤ KERNBASE

/-! ## Plans of calls -/

/-- The plan before a call, for the address space with the directory `r`. -/
def Kern.plan (k : Kern) (r : ℕ) : Plan := ⟨k.phys.answers, k.phys.entry r, 0⟩

/-- The plan before a call that makes an address space. -/
def Kern.blank (k : Kern) : Plan := ⟨k.phys.answers, fun _ => none, 0⟩

/-- What becomes of the requests of a call. -/
def Op.plan (K : Image) (k : Kern) : Op → Plan
  | .userinit _ _ =>
    let P := (k.blank.next.setup K).2
    (P.next.map 0 (pte ((P.ask 0).getD 0) (PTE_W ||| PTE_U))).2
  | .setupkvm h => if k.Unused h then (k.blank.setup K).2 else k.blank
  | .allocuvm h newsz =>
    match k.space h with
    | none => k.blank
    | some sp => ((k.plan sp.pgdir).alloc sp.sz newsz).2
  | .copyuvm h h' =>
    match k.space h with
    | none => k.blank
    | some sp => if k.Unused h' then (k.blank.clone K (k.phys.entry sp.pgdir) sp.sz).2 else k.blank
  | .fork h q =>
    match k.space h with
    | none => k.blank
    | some sp =>
      if k.Unused q ∧ k.phys.answers 0 ≠ none then
        (k.blank.next.clone K (k.phys.entry sp.pgdir) sp.sz).2
      else k.blank
  | .growproc h n =>
    match k.space h with
    | none => k.blank
    | some sp => if n > 0 then ((k.plan sp.pgdir).alloc sp.sz (addInt sp.sz n)).2 else k.blank
  | .exec h file _ _ =>
    match k.space h with
    | none => k.blank
    | some _ => (k.blank.exec K file).last
  | _ => k.blank

/-- The state `k'` after a call in state `k`: no page has been lost, unless requests for page tables have
been, and then one of those handed out during the call. -/
def Ends (K : Image) (k : Kern) (ω : ℕ → Option (Place (Option ℕ) Solo)) (P : Plan) (k' : Kern) : Prop :=
  ∃ ω', KInv K k' ω' ∧ (P.lost = 0 ∧ Kept ω ω' ∨ 0 < P.lost ∧ Loses k.blank.supply ω ω')

section

variable {K : Image} {E : Fault → Prop} {k : Kern} {ω : ℕ → Option (Place (Option ℕ) Solo)} {h p q r newsz : ℕ}
  {s' : Phys} {ω' : ℕ → Option (Place (Option ℕ) Solo)} {P : Plan} {sp : Space} {k' : Kern}

/-! ## Changing variables -/

theorem roots_setSpace {sp : Option Space} :
    Kern.roots { k with space := update k.space h sp } =
      { k.roots with dir := update k.roots.dir (some h) (sp.map Space.pgdir) } := by
  simp only [Kern.roots, Roots.mk.injEq, and_true]
  funext g
  cases g with
  | none => rfl
  | some h' =>
    rcases eq_or_ne h' h with rfl | hh
    · simp
    · simp [hh]

theorem roots_setKstack {x : Option ℕ} :
    Kern.roots { k with kstack := update k.kstack h x } =
      { k.roots with solo := update k.roots.solo (.kstack h) x } := by
  simp only [Kern.roots, Roots.mk.injEq, and_true, true_and]
  funext g
  cases g with
  | kstack h' =>
    rcases eq_or_ne h' h with rfl | hh
    · simp
    · simp [hh]
  | pipe p => rfl

theorem roots_setPipe {pi : Option Pipe} :
    Kern.roots { k with pipe := update k.pipe p pi } =
      { k.roots with solo := update k.roots.solo (.pipe p) (pi.map Pipe.page) } := by
  simp only [Kern.roots, Roots.mk.injEq, and_true, true_and]
  funext g
  cases g with
  | kstack h => rfl
  | pipe p' =>
    rcases eq_or_ne p' p with rfl | hh
    · simp
    · simp [hh]

theorem KInv.dir (_ : KInv K k ω) (hsp : k.space h = some sp) :
    k.roots.dir (some h) = some sp.pgdir := by simp [Kern.roots, hsp]

theorem size_update {f : ℕ → Option Space} {v : Option Space}
    (hf : ∀ h sp, f h = some sp → sp.sz ≤ KERNBASE) (hv : ∀ sp, v = some sp → sp.sz ≤ KERNBASE)
    (h' : ℕ) (sp : Space) (hsp : update f h v h' = some sp) : sp.sz ≤ KERNBASE := by
  rcases eq_or_ne h' h with rfl | hh
  · rw [update_self] at hsp
    exact hv sp hsp
  · rw [update_of_ne hh] at hsp
    exact hf h' sp hsp

theorem KInv.setSpace {v : Option Space}
    (hk : KInv K k ω)
    (hinv : Inv K s' { k.roots with dir := update k.roots.dir (some h) (v.map Space.pgdir) } ω')
    (hv : ∀ sp, v = some sp → sp.sz ≤ KERNBASE) :
    KInv K { k with phys := s', space := update k.space h v } ω' := by
  refine ⟨?_, size_update hk.size hv⟩
  rw [← roots_setSpace] at hinv
  exact hinv

/-- The directory of an address space stays the same when its size changes. -/
theorem KInv.setSize {sz : ℕ}
    (hk : KInv K k ω) (hinv : Inv K s' k.roots ω') (hsp : k.space h = some sp) (hsz : sz ≤ KERNBASE) :
    KInv K { k with phys := s', space := update k.space h (some { sp with sz }) } ω' := by
  refine hk.setSpace ?_ (by rintro _ ⟨⟩; exact hsz)
  rw [Option.map_some, ← hk.dir hsp, update_eq_self]
  exact hinv

theorem KInv.setPhys (hk : KInv K k ω)
    (hinv : Inv K s' k.roots ω') : KInv K { k with phys := s' } ω' := ⟨hinv, hk.size⟩

theorem KInv.setKstack {x : Option ℕ}
    (hk : KInv K k ω)
    (hinv : Inv K s' { k.roots with solo := update k.roots.solo (.kstack q) x } ω') :
    KInv K { k with phys := s', kstack := update k.kstack q x } ω' := by
  refine ⟨?_, hk.size⟩
  rw [← roots_setKstack] at hinv
  exact hinv

theorem KInv.setPipe {v : Option Pipe}
    (hk : KInv K k ω)
    (hinv : Inv K s' { k.roots with
      solo := update k.roots.solo (.pipe p) (v.map Pipe.page) } ω') :
    KInv K { k with phys := s', pipe := update k.pipe p v } ω' := by
  refine ⟨?_, hk.size⟩
  rw [← roots_setPipe] at hinv
  exact hinv

theorem Ends.refl (h : KInv K k' ω) (hP : P.lost = 0) : Ends K k ω P k' :=
  ⟨ω, h, .inl ⟨hP, .refl ω⟩⟩

theorem Ends.of_track {P' : Plan}
    (hk : KInv K k' ω') (ht : Track P ω P' ω') (hl : k.blank.Later P) (hP : P.lost = 0) :
    Ends K k ω P' k' := by
  refine ⟨ω', hk, ht.pages.imp (fun h => ?_) fun h => ?_⟩
  · rwa [hP] at h
  · rw [hP] at h
    exact ⟨h.1, h.2.mono hl.supply⟩

theorem Ends.of_kept
    (hk : KInv K k' ω') (h : Kept ω ω') (hP : P.lost = 0) : Ends K k ω P k' := ⟨ω', hk, .inl ⟨hP, h⟩⟩

theorem later_plan : k.blank.Later (k.plan r) := ⟨0, fun _ => rfl⟩

theorem sees_plan : Sees k.phys r (k.plan r) := ⟨rfl, fun _ _ => rfl⟩

theorem wp_callBy {f : Space → KM ℤ} {Q : ℤ → Kern → Prop} (hnone : k.space h = none → Q (-1) k)
    (hsome : ∀ sp, k.space h = some sp → wp E (f sp) Q k) : wp E (callBy h f) Q k := by
  unfold callBy
  simp only [wp_bind, wp_get]
  cases hsp : k.space h with
  | none => exact hnone hsp
  | some sp => exact hsome sp hsp

/-- Code that works on memory only. -/
theorem wp_vm {α : Type} {x : VM α} {Q : α → Kern → Prop} :
    wp E (vm x) Q k ↔ wp E x (fun a s => Q a { k with phys := s }) k.phys := wp_lift

/-! ## `vm.c` -/

theorem Plan.alloc_le {P' : Plan} {oldsz res : ℕ} (heq : P.alloc oldsz newsz = (res, P'))
    (hold : oldsz ≤ KERNBASE) : res ≤ KERNBASE := by
  unfold Plan.alloc at heq
  split_ifs at heq
  · rw [← (Prod.mk.inj heq).1]
    exact Nat.zero_le _
  · rwa [← (Prod.mk.inj heq).1]
  · rw [← (Prod.mk.inj heq).1]
    split_ifs <;> omega

theorem wp_allocuvmFor (hE : Loud E) (hk : KInv K k ω) :
    wp E (allocuvmFor K h newsz) (fun _ => Ends K k ω ((Op.allocuvm h newsz).plan K k)) k := by
  refine wp_callBy (fun hnone => .refl hk (by simp [Op.plan, hnone, Kern.blank])) fun sp hsp => ?_
  have hplan : (Op.allocuvm h newsz).plan K k = ((k.plan sp.pgdir).alloc sp.sz newsz).2 := by
    simp [Op.plan, hsp]
  rw [hplan]
  refine wp_bind.mpr (wp_vm.mpr (wp_allocuvm hk.inv (hk.dir hsp) sees_plan (hk.size h sp hsp)
    (.inl (hE _ nofun)) fun res s' ω' P' heq h' _ => ?_))
  rw [heq]
  split_ifs
  · exact .of_track (hk.setPhys h'.inv) h'.track later_plan rfl
  · exact .of_track (hk.setSize h'.inv hsp (Plan.alloc_le heq (hk.size h sp hsp))) h'.track later_plan rfl

theorem wp_deallocuvmFor (hk : KInv K k ω) : wp E (deallocuvmFor K h newsz) (fun _ => Ends K k ω k.blank) k := by
  refine wp_callBy (fun _ => .refl hk rfl) fun sp hsp => ?_
  have hsz := hk.size h sp hsp
  refine wp_bind.mpr (wp_vm.mpr (wp_deallocuvm hk.inv (hk.dir hsp) hsz fun s' ω' h' hu => ?_))
  refine .of_kept (hk.setSize h' hsp ?_) hu.kept rfl
  split_ifs <;> omega

theorem Unused.dir (hu : k.Unused h) : k.roots.dir (some h) = none := by
  simp [Kern.roots, hu.1]

theorem wp_setupkvmFor (hk : KInv K k ω) :
    wp E (setupkvmFor K h) (fun res k' => Ends K k ω ((Op.setupkvm h).plan K k) k' ∧
      (res = if k.Unused h ∧ (k.blank.setup K).1 then 0 else -1) ∧
      (res = 0 → k'.phys.answers = (k.blank.setup K).2.ask ∧ ∃ sp, k'.space h = some sp)) k := by
  unfold setupkvmFor
  simp only [wp_bind, wp_get, Op.plan]
  by_cases hu : k.Unused h
  · simp only [hu, if_true, true_and]
    refine wp_bind.mpr (wp_vm.mpr (wp_setupkvm (P := k.blank) hk.inv (Unused.dir hu) rfl
      (fun s' ω' P' heq h' => ?_) fun r s' ω' P' heq _ h' hlater hcount _ => ?_)) <;> rw [heq]
    · exact ⟨.of_track (hk.setPhys h'.inv) h'.track .refl rfl, rfl, by simp⟩
    · refine ⟨.of_track (hk.setSpace h'.inv ?_) (h'.changed hlater hcount).track .refl rfl, rfl, fun _ => ?_⟩
      · rintro _ ⟨⟩
        exact Nat.zero_le _
      · exact ⟨h'.sees.ask.symm, _, update_self ..⟩
  · simp only [hu, if_false, false_and]
    exact ⟨.refl hk rfl, rfl, by simp⟩

theorem wp_copyuvmFor {h' : ℕ} (hE : Loud E) (hk : KInv K k ω) :
    wp E (copyuvmFor K h h') (fun _ => Ends K k ω ((Op.copyuvm h h').plan K k)) k := by
  refine wp_callBy (fun hnone => .refl hk (by simp [Op.plan, hnone, Kern.blank])) fun sp hsp => ?_
  simp only [wp_bind, wp_get, Op.plan, hsp]
  split_ifs with hu
  · refine wp_bind.mpr (wp_vm.mpr (wp_copyuvm (P := k.blank) hk.inv (Unused.dir hu) (hk.dir hsp) rfl
      (hk.size h sp hsp) (.inl fun _ => hE _ (by simp)) (fun s' ω' P' heq h' => ?_)
      fun d s' ω' P' heq h' _ _ _ => ?_))
    · rw [heq]
      exact .of_track (hk.setPhys h'.inv) h'.track .refl rfl
    · rw [heq]
      exact .of_track (hk.setSpace h'.inv (by rintro _ ⟨⟩; exact hk.size h sp hsp)) h'.track .refl rfl
  · exact .refl hk rfl

theorem wp_clearpteuFor {uva : ℕ} (hE : Loud E) (hk : KInv K k ω) :
    wp E (clearpteuFor h uva) (fun _ => Ends K k ω k.blank) k := by
  refine wp_callBy (fun _ => .refl hk rfl) fun sp hsp => ?_
  refine wp_bind.mpr (wp_vm.mpr (wp_clearpteu hk.inv (hk.dir hsp) sees_plan uint_lt
    (fun _ => hE _ nofun) fun s' _ h' => ?_))
  exact .of_kept (hk.setPhys h'.inv) h'.kept rfl

theorem wp_freevmFor (hk : KInv K k ω) : wp E (freevmFor K h) (fun _ => Ends K k ω k.blank) k := by
  refine wp_callBy (fun _ => .refl hk rfl) fun sp hsp => ?_
  refine wp_bind.mpr (wp_vm.mpr (wp_freevm hk.inv (hk.dir hsp) fun s' ω' h' hkept _ _ => ?_))
  exact .of_kept (hk.setSpace h' nofun) hkept rfl

/-! ## Kernel stacks and pipes -/

/-- A page that `kalloc` has handed out becomes a kernel stack or a pipe. -/
theorem Inv.keep {c : Solo} {x : ℕ} (hk : KInv K k ω) (hc : k.roots.solo c = none)
    (hx : ω x = some .free)
    (h' : Inv K s' { k.roots with hand := insert x k.roots.hand } (update ω x (some .hand))) :
    ∃ ω', Inv K s' { k.roots with solo := update k.roots.solo c (some x) } ω' ∧ Kept ω ω' := by
  have hnot : x ∉ k.roots.hand := hk.inv.notMem_hand hx nofun
  have hsolo := h'.setSolo hc (.inl rfl)
  simp only [Set.insert_sdiff_self_of_notMem hnot] at hsolo
  exact ⟨_, hsolo, (kept_update (by simp [hx])).trans (kept_update (by simp))⟩

/-- `kfree` of a kernel stack or a pipe. -/
theorem wp_kfree_solo {c : Solo} {x : ℕ} {Q : PUnit → Phys → Prop} (hk : KInv K k ω)
    (hc : k.roots.solo c = some x)
    (hQ : ∀ (s' : Phys) (ω' : ℕ → Option (Place (Option ℕ) Solo)),
      Inv K s' { k.roots with solo := update k.roots.solo c none } ω' → Kept ω ω' → Q ⟨⟩ s') :
    wp E (kfree K x) Q k.phys := by
  have hx : ω x = some (.solo c) := (hk.inv.place x (.solo c)).mp hc
  have hnot : x ∉ k.roots.hand := hk.inv.notMem_hand hx nofun
  refine wp_kfree (hk.inv.takeSolo hc) (.inl rfl) fun s' h' _ _ => ?_
  simp only [Set.insert_sdiff_self_of_notMem hnot] at h'
  exact hQ s' _ h' ((kept_update (by simp [hx])).trans (kept_update (by simp)))

theorem wp_allocproc {Q : Bool → Kern → Prop} (hk : KInv K k ω)
    (hfalse : ∀ k' : Kern, ¬(k.Unused q ∧ k.phys.answers 0 ≠ none) → KInv K k' ω → Q false k')
    (htrue : ∀ (x : ℕ) (s' : Phys) (ω' : ℕ → Option (Place (Option ℕ) Solo)), k.Unused q →
      k.phys.answers 0 ≠ none → Asked k.phys s' →
      KInv K { k with phys := s', kstack := update k.kstack q (some x) } ω' → Kept ω ω' →
      Q true { k with phys := s', kstack := update k.kstack q (some x) }) :
    wp E (allocproc q) Q k := by
  unfold allocproc
  simp only [wp_bind, wp_get]
  split_ifs with hu
  · refine wp_bind.mpr (wp_vm.mpr (wp_kalloc hk.inv (fun s' hans h' _ => ?_) fun x s' hans hx h' ha => ?_))
    · exact hfalse _ (fun hne => hne.2 hans) (hk.setPhys h')
    · obtain ⟨ω', hinv, hkept⟩ := Inv.keep (c := .kstack q) hk (by simp [Kern.roots, hu.2]) hx h'
      exact htrue x s' ω' hu (by simp [hans]) ha (hk.setKstack hinv) hkept
  · exact hfalse k (fun hne => hu hne.1) hk

theorem Ends.kept_left {ω₁ : ℕ → Option (Place (Option ℕ) Solo)} (h : Kept ω ω₁)
    (he : Ends K k ω₁ P k') : Ends K k ω P k' := by
  obtain ⟨ω', hk', ⟨hP, hkept⟩ | ⟨hP, hlost⟩⟩ := he
  · exact ⟨ω', hk', .inl ⟨hP, h.trans hkept⟩⟩
  · exact ⟨ω', hk', .inr ⟨hP, h.loses hlost⟩⟩

theorem wp_fork (hE : Loud E) (hk : KInv K k ω) :
    wp E (fork K h q) (fun _ => Ends K k ω ((Op.fork h q).plan K k)) k := by
  refine wp_callBy (fun hnone => .refl hk (by simp [Op.plan, hnone, Kern.blank])) fun sp hsp => ?_
  refine wp_bind.mpr (wp_allocproc hk (fun k' hne hk' => ?_) fun x s₁ ω₁ hu hans ha hk₁ hkept => ?_)
  · have hplan : (Op.fork h q).plan K k = k.blank := by
      simp only [Op.plan, hsp]
      exact if_neg hne
    rw [hplan]
    exact .refl hk' rfl
  · have hplan : (Op.fork h q).plan K k =
        (k.blank.next.clone K (k.phys.entry sp.pgdir) sp.sz).2 := by
      simp only [Op.plan, hsp]
      exact if_pos ⟨hu, hans⟩
    rw [hplan]
    set k₁ : Kern := { k with phys := s₁, kstack := update k.kstack q (some x) }
    have hsp₁ : k₁.space h = some sp := hsp
    have hentry : k₁.phys.entry sp.pgdir = k.phys.entry sp.pgdir := funext fun i => entry_of_mem ha.mem
    have hask : k.blank.next.ask = k₁.phys.answers := ha.answers.symm
    have hdir : k₁.roots.dir (some q) = none := by simp [Kern.roots, k₁, hu.1]
    refine wp_bind.mpr (wp_vm.mpr (wp_copyuvm hk₁.inv hdir (hk₁.dir hsp₁) hask (hk₁.size h sp hsp₁)
      (.inl fun _ => hE _ nofun) (fun s₂ ω₂ P₂ heq h₂ => ?_) fun d s₂ ω₂ P₂ heq h₂ _ _ _ => ?_))
    · rw [hentry] at heq
      rw [heq]
      simp only [wp_bind, wp_get]
      have hstack : k₁.kstack q = some x := update_self ..
      have hk₂ := hk₁.setPhys h₂.inv
      rw [hstack]
      refine wp_bind.mpr (wp_vm.mpr (wp_kfree_solo (c := .kstack q) hk₂ hstack fun s₃ ω₃ h₃ hkept₃ => ?_))
      exact .kept_left hkept (.of_track (hk₂.setKstack h₃) (h₂.track.trans (hkept₃.track .refl rfl))
        Plan.later_next rfl)
    · rw [hentry] at heq
      rw [heq]
      refine .kept_left hkept (.of_track (hk₁.setSpace h₂.inv ?_) h₂.track Plan.later_next rfl)
      rintro _ ⟨⟩
      exact hk.size h sp hsp

theorem wp_wait (hk : KInv K k ω) : wp E (wait K q) (fun _ => Ends K k ω k.blank) k := by
  refine wp_callBy (fun _ => .refl hk rfl) fun sp hsp => ?_
  simp only [wp_bind, wp_get]
  cases hstack : k.kstack q with
  | none => exact .refl hk rfl
  | some x =>
    refine wp_bind.mpr (wp_vm.mpr (wp_kfree_solo (c := .kstack q) hk hstack fun s₁ ω₁ h₁ hkept₁ => ?_))
    have hk₁ := hk.setKstack h₁
    simp only [setKstack, wp_bind, wp_modify]
    refine wp_vm.mpr (wp_freevm hk₁.inv (hk₁.dir hsp) fun s₂ ω₂ h₂ hkept₂ _ _ => ?_)
    exact .of_kept (hk₁.setSpace h₂ (by simp)) (hkept₁.trans hkept₂) rfl

theorem wp_pipealloc {files : Bool} (hk : KInv K k ω) :
    wp E (pipealloc p files) (fun _ => Ends K k ω k.blank) k := by
  unfold pipealloc
  simp only [wp_bind, wp_get]
  split_ifs with hfree
  · rw [Bool.and_eq_true, Option.isNone_iff_eq_none] at hfree
    refine wp_bind.mpr (wp_vm.mpr (wp_kalloc hk.inv (fun s' _ h' _ => ?_) fun x s' _ hx h' _ => ?_))
    · exact .refl (hk.setPhys h') rfl
    · obtain ⟨ω', hinv, hkept⟩ := Inv.keep (c := .pipe p) hk (by simp [Kern.roots, hfree.2]) hx h'
      exact .of_kept (hk.setPipe hinv) hkept rfl
  · exact .refl hk rfl

theorem wp_pipeclose {writable : Bool} (hk : KInv K k ω) :
    wp E (pipeclose K p writable) (fun _ => Ends K k ω k.blank) k := by
  unfold pipeclose
  simp only [wp_bind, wp_get]
  cases hp : k.pipe p with
  | none => exact .refl hk rfl
  | some pi =>
    dsimp only
    have hpage : ∀ b : Bool, (if b then { pi with writeopen := false } else { pi with readopen := false }).page =
        pi.page := by
      intro b
      cases b <;> rfl
    have hsolo : k.roots.solo (.pipe p) = some pi.page := by simp [Kern.roots, hp]
    generalize hpi : (if writable then { pi with writeopen := false } else { pi with readopen := false }) = pi'
    have hpage' : pi'.page = pi.page := by
      rw [← hpi]
      exact hpage writable
    split_ifs
    · rw [hpage']
      refine wp_bind.mpr (wp_vm.mpr (wp_kfree_solo (c := .pipe p) hk hsolo fun s₁ ω₁ h₁ hkept₁ => ?_))
      exact .of_kept (hk.setPipe (v := none) h₁) hkept₁ rfl
    · refine .of_kept (hk.setPipe (v := some pi') ?_) (.refl ω) rfl
      rw [Option.map_some, hpage', ← hsolo, update_eq_self]
      exact hk.inv

/-! ## The other calls -/

theorem wp_growproc {n : ℤ} (hE : Loud E) (hk : KInv K k ω) :
    wp E (growproc K h n) (fun _ => Ends K k ω ((Op.growproc h n).plan K k)) k := by
  refine wp_callBy (fun hnone => .refl hk (by simp [Op.plan, hnone, Kern.blank])) fun sp hsp => ?_
  have hold := hk.size h sp hsp
  simp only [Op.plan, hsp]
  rw [wp_bind, wp_vm]
  by_cases hpos : n > 0
  · rw [if_pos hpos, if_pos hpos]
    refine wp_allocuvm hk.inv (hk.dir hsp) sees_plan hold (.inl (hE _ nofun)) fun res s' ω' P' heq h' _ => ?_
    rw [heq]
    split_ifs
    · exact .of_track (hk.setPhys h'.inv) h'.track later_plan rfl
    · exact .of_track (hk.setSize h'.inv hsp (Plan.alloc_le heq hold)) h'.track later_plan rfl
  · rw [if_neg hpos, if_neg hpos]
    by_cases hneg : n < 0
    · rw [if_pos hneg]
      refine wp_deallocuvm hk.inv (hk.dir hsp) hold fun s' ω' h' hu => ?_
      generalize hres : (if addInt sp.sz n ≥ sp.sz then sp.sz else addInt sp.sz n) = res
      have hle : res ≤ KERNBASE := by
        split_ifs at hres <;> omega
      split_ifs
      · exact .of_kept (hk.setPhys h') hu.kept rfl
      · exact .of_kept (hk.setSize h' hsp hle) hu.kept rfl
    · rw [if_neg hneg]
      obtain rfl : n = 0 := by omega
      simp only [wp_pure]
      split_ifs
      · exact .refl hk rfl
      · exact .refl (hk.setSize hk.inv hsp hold) rfl

/-- The address space that `exec` has built becomes that of the process. -/
theorem Inv.commit
    (hinv : Inv K s' { k.roots with
      dir := update (update k.roots.dir none (some r)) (some h) none } ω') :
    ∃ ω'', Inv K s' { k.roots with dir := update k.roots.dir (some h) (some r) } ω'' ∧
      Kept ω' ω'' := by
  have hdir : (fun g => update (update k.roots.dir none (some r)) (some h) none
      ((Equiv.swap none (some h)).symm g)) = update k.roots.dir (some h) (some r) := by
    funext g
    rw [Equiv.symm_swap]
    by_cases hg : g = some h
    · subst hg
      simp
    · rcases eq_or_ne g none with rfl | hg'
      · simp [Kern.roots]
      · rw [Equiv.swap_apply_of_ne_of_ne hg' hg, update_of_ne hg, update_of_ne hg,
          update_of_ne hg']
  have hren := hinv.rename (Equiv.swap none (some h))
  dsimp only at hren
  rw [hdir] at hren
  exact ⟨_, hren, kept_map⟩

theorem wp_execBy {file : Option (List UInt8)} {path : List UInt8} {argv : List (List UInt8)}
    {Q : ℤ → Kern → Prop} (hk : KInv K k ω) (hsp : k.space h = some sp)
    (hE : ¬(k.blank.exec K file).Fits (file.getD []) argv → Loud E)
    (hfail : ∀ k' : Kern, (k.blank.exec K file).Fits (file.getD []) argv → k'.space = k.space →
      (∀ i < 2 ^ 20, k'.phys.entry sp.pgdir i = k.phys.entry sp.pgdir i) →
      Ends K k ω (k.blank.exec K file).last k' → Q (-1) k')
    (hdone : ∀ (r sz esp : ℕ) (k' : Kern), (k.blank.exec K file).Fits (file.getD []) argv →
      k.phys.answers 0 = some r →
      k'.space = update k.space h (some ⟨r, sz, startOf file, esp, progName path⟩) →
      Ends K k ω (k.blank.exec K file).last k' → Q 0 k') :
    wp E (execBy K h file path argv) Q k := by
  refine wp_callBy (fun hnone => by simp [hsp] at hnone) fun sp' hsp' => ?_
  obtain rfl : sp = sp' := Option.some.inj (hsp.symm.trans hsp')
  rw [wp_bind, wp_vm]
  refine wp_exec (g := none) (P := k.blank) hk.inv rfl (hk.dir hsp) rfl hE (fun s' ω' hfit h' _ => ?_)
    fun r sz esp s' ω' hfit hans hle h' ht _ => ?_
  · have hsame : update k.space h (some sp) = k.space := by
      rw [← hsp, update_eq_self]
    simp only [setSpace, wp_bind, wp_modify, wp_pure, hsame]
    refine hfail _ hfit rfl (fun i hi => ?_) (.of_track (hk.setPhys h'.inv) h'.track .refl rfl)
    exact h'.others (some h) sp.pgdir i (hk.dir hsp) hi (by simp)
  · obtain ⟨ω'', hinv, hkept⟩ := Inv.commit h'
    refine hdone r sz esp _ hfit hans rfl
      (.of_track (hk.setSpace hinv ?_) (ht.trans (hkept.track .refl rfl)) .refl rfl)
    rintro _ ⟨⟩
    exact hle

theorem wp_inituvm {ι κ : Type} {s : Phys} {ρ : Roots ι κ} {ω : ℕ → Option (Place ι κ)} {g : ι}
    {init : List UInt8} {Q : PUnit → Phys → Prop} (hE : Loud E) (h : Inv K s ρ ω)
    (hr : ρ.dir g = some r) (hP : Sees s r P)
    (hQ : ∀ (s' : Phys) (ω' : ℕ → Option (Place ι κ)), Inv K s' ρ ω' →
      Track P ω (P.next.map 0 (pte ((P.ask 0).getD 0) (PTE_W ||| PTE_U))).2 ω' → Q ⟨⟩ s') :
    wp E (inituvm r init) Q s := by
  unfold inituvm
  split_ifs
  · exact hE _ (by simp)
  · refine wp_bind.mpr (wp_kalloc h (fun s₁ _ _ _ => hE _ (by simp)) fun x s₁ hans hx h₁ ha => ?_)
    have hnot : x ∉ ρ.hand := h.notMem_hand hx (by simp)
    have hsame := h₁.setPage_hand (x := x) (.inl rfl) fun _ => 0
    have hsees : Sees (s₁.setPage x fun _ => 0) r P.next :=
      SameSpaces.sees (ρ := { ρ with hand := insert x ρ.hand }) hsame hr rfl (hP.asked ha)
    have hkept : Kept ω (update ω x (some .hand)) := kept_update (by simp [hx])
    have hcount := Plan.map_lost (P := P.next) (i := 0) (w := pte x (PTE_W ||| PTE_U))
    have hlater : P.Later (P.next.map 0 (pte x (PTE_W ||| PTE_U))).2 :=
      Plan.later_next.trans Plan.map_later
    have hx' : (P.ask 0).getD 0 = x := by simp [hP.ask, hans]
    rw [hx'] at hQ
    simp only [memset, wp_bind, wp_modify]
    refine wp_mappages (h₁.same hsame rfl) hr hsees (by decide) (.inl rfl) (by decide)
      (.inl (hE _ (by simp))) (fun s₂ P₂ hmap h₂ => ?_) fun s₂ ω₂ P₂ hmap h₂ _ => ?_
    · rw [hmap] at hQ hcount hlater
      have hsame₂ := h₂.inv.setPage_hand (x := x) (.inl rfl) ((s₂.mem x).write 0 init)
      obtain ⟨ω₃, h₃, hlost, -⟩ := (h₂.inv.same hsame₂ rfl).drop hnot
      exact hQ _ ω₃ h₃ ((hkept.loses (hlost.mono (hP.supply hans))).track hlater hcount)
    · rw [hmap] at hQ hcount hlater
      have h₂' : Inv K s₂ ρ ω₂ := restore_hand hnot ▸ h₂.inv
      obtain ⟨-, hp, hframe, -⟩ := pte_word (managed_lt (h.managed x _ hx))
        (show PTE_W ||| PTE_U < 4096 by decide)
      have hwrite := h₂'.write hr h₂.sees (by decide) (Plan.entry_of_map hmap) hp ((s₂.mem x).write 0 init)
      rw [hframe] at hwrite
      exact hQ _ ω₂ hwrite.inv ((hkept.trans h₂.kept).track hlater hcount)

theorem wp_userinit {initcode : List UInt8} (hE : Loud E) (hk : KInv K k ω) :
    wp E (userinit K q initcode) (fun _ => Ends K k ω ((Op.userinit q initcode).plan K k)) k := by
  unfold userinit
  refine wp_bind.mpr (wp_allocproc hk (fun k' _ _ => hE _ (by simp)) fun x s₁ ω₁ hu _ ha hk₁ hkept => ?_)
  set k₁ : Kern := { k with phys := s₁, kstack := update k.kstack q (some x) }
  have hask : k.blank.next.ask = k₁.phys.answers := ha.answers.symm
  have hdir : k₁.roots.dir (some q) = none := by simp [Kern.roots, k₁, hu.1]
  simp only [if_true]
  refine wp_bind.mpr (wp_vm.mpr (wp_setupkvm hk₁.inv hdir hask (fun _ _ _ _ _ => hE _ (by simp))
    fun r s₂ ω₂ P₂ heq _ h₂ hlater hcount _ => ?_))
  have hr : update k₁.roots.dir (some q) (some r) (some q) = some r := update_self ..
  refine wp_bind.mpr (wp_vm.mpr (wp_inituvm hE h₂.inv hr h₂.sees fun s₃ ω₃ h₃ ht => ?_))
  refine .kept_left hkept (.of_track (P := k.blank.next) (hk₁.setSpace h₃ ?_) ?_ Plan.later_next rfl)
  · rintro _ ⟨⟩
    show PGSIZE ≤ KERNBASE
    decide
  · simp only [Op.plan, heq]
    exact (h₂.changed hlater hcount).track.trans ht

/-! ## All calls -/

theorem wp_run (op : Op) (hE : Loud E) (hk : KInv K k ω) :
    wp E (op.run K) (fun _ => Ends K k ω (op.plan K k)) k := by
  cases op with
  | userinit q initcode => exact wp_userinit hE hk
  | setupkvm h => exact wp_mono (wp_setupkvmFor hk) fun _ _ hend => hend.1
  | allocuvm h newsz => exact wp_allocuvmFor hE hk
  | deallocuvm h newsz => exact wp_deallocuvmFor hk
  | copyuvm h h' => exact wp_copyuvmFor hE hk
  | clearpteu h uva => exact wp_clearpteuFor hE hk
  | freevm h => exact wp_freevmFor hk
  | fork h q => exact wp_fork hE hk
  | wait q => exact wp_wait hk
  | growproc h n => exact wp_growproc hE hk
  | exec h file path argv =>
    cases hsp : k.space h with
    | none =>
      refine wp_callBy (fun _ => .refl hk (by simp [Op.plan, hsp, Kern.blank])) fun sp hsp' => ?_
      rw [hsp] at hsp'
      cases hsp'
    | some sp =>
      simp only [Op.plan, hsp]
      exact wp_execBy hk hsp (fun _ => hE) (fun k' _ _ _ he => he) fun _ _ _ k' _ _ _ he => he
  | pipealloc p files => exact wp_pipealloc hk
  | pipeclose p writable => exact wp_pipeclose hk

end

end Xv6.Vm
