import Xv6.Vm.Copyout

/-!
# Rules for `exec`

`exec` does with memory what its outline says, and it stops with an error if and only if the outline
does not fit.
-/

namespace Xv6.Vm

open Lib Exec

/-- All errors but a page freed twice are admitted. -/
def Loud (E : Fault → Prop) : Prop := ∀ e, e ≠ .doubleFree → E e

section

variable {ι κ : Type} {K : Image} {E : Fault → Prop} {s s' : Phys} {ρ : Roots ι κ}
  {ω : ℕ → Option (Place ι κ)} {g : ι} {r : ℕ} {P : Plan} {file : List UInt8} {ph : Proghdr} {x sz : ℕ}
  {Q : Option ℕ → Phys → Prop} {elf : Elfhdr} {argv : List (List UInt8)}

/-! ## `loaduvm` -/

theorem Sees.given_iff (hP : Sees s r P) : s.Given r x ↔ P.Given x := by
  refine exists_congr fun j => and_congr_right fun hj => ?_
  rw [hP.entry j (by omega)]

theorem maps_iff {e : Option ℕ} :
    maps e x = true ↔ ∃ w, e = some w ∧ present w = true ∧ user w = true ∧ frame w = x := by
  cases e with
  | none => simp [maps]
  | some w => simp [maps, and_assoc]

theorem wp_storeBytes {bs : List UInt8} {Q : PUnit → Phys → Prop} (h : Inv K s ρ ω)
    (hr : ρ.dir g = some r) (hP : Sees s r P) (hE : bs ≠ [] → ¬P.Given x → E .stray)
    (hQ : ∀ s' : Phys, (bs ≠ [] → P.Given x) → Wrote K ρ g r s ω s' P → Q ⟨⟩ s') :
    wp E (storeBytes r x bs) Q s := by
  unfold storeBytes
  simp only [wp_bind, wp_get]
  by_cases hbs : bs = []
  · subst hbs
    rw [if_neg (by simp)]
    have hwrite : (s.mem x).write 0 [] = s.mem x := by
      funext o
      exact Bytes.write_of_not_mem (.inr (Nat.zero_le o))
    have hset : s.setPage x ((s.mem x).write 0 []) = s := by
      rw [hwrite, Phys.setPage, Function.update_eq_self]
    simp only [wp_modify, hset]
    exact hQ s (fun hne => absurd rfl hne) (.refl h hP)
  · by_cases hgiven : P.Given x
    · rw [if_neg (by simp [hP.given_iff, hgiven])]
      obtain ⟨j, hj, hmaps⟩ := hgiven
      obtain ⟨w, hw, hp, hu, rfl⟩ := maps_iff.mp hmaps
      exact hQ _ (fun _ => ⟨j, hj, hmaps⟩) (h.write hr hP hj hw hp _)
    · rw [if_pos ⟨hbs, fun hg => hgiven (hP.given_iff.mp hg)⟩]
      exact hE hbs hgiven

theorem wp_loaduvmFrom {Q : Bool → Phys → Prop} (hr : ρ.dir g = some r)
    (hE : ∀ j, j * PGSIZE < ph.filesz → (∀ j' < j, ph.full file j' = true) → ¬P.PageOk file ph j →
      Loud E) (fuel : ℕ) {j : ℕ} (h : Inv K s ρ ω) (hP : Sees s r P)
    (hfull : ∀ j' < j, ph.full file j' = true) (hfuel : pages ph.filesz ≤ j + fuel)
    (hQ : ∀ (b : Bool) (s' : Phys), (b = true ↔ ph.Complete file) →
      (∀ i, j ≤ i → i * PGSIZE < ph.filesz → (∀ j' < i, ph.full file j' = true) →
        P.PageOk file ph i) →
      Wrote K ρ g r s ω s' P → Q b s') :
    wp E (loaduvmFrom file r ph fuel j) Q s := by
  have hend : ∀ {j}, pages ph.filesz ≤ j → (∀ j' < j, ph.full file j' = true) →
      (true = true ↔ ph.Complete file) ∧ ∀ i, j ≤ i → i * PGSIZE < ph.filesz →
        (∀ j' < i, ph.full file j' = true) → P.PageOk file ph i := by
    intro j hj hfull
    refine ⟨iff_of_true rfl fun i hi => hfull i (by omega), fun i hi hlt => absurd hlt ?_⟩
    simp only [pages, PGSIZE] at hj ⊢
    omega
  induction fuel generalizing j s with
  | zero =>
    obtain ⟨hall, hok⟩ := hend (by omega) hfull
    exact hQ true s hall hok (.refl h hP)
  | succ fuel ih =>
    rw [loaduvmFrom]
    by_cases hlt : j * PGSIZE < ph.filesz
    · rw [if_pos hlt]
      have hva : uint (ph.vaddr + j * PGSIZE) < 2 ^ 32 := uint_lt
      have hpages : j < pages ph.filesz := by
        simp only [pages, PGSIZE] at hlt ⊢
        omega
      have hbad : ¬P.PageOk file ph j → Loud E := hE j hlt hfull
      have hnot : ph.full file j = false → ¬ph.Complete file := by
        intro hf hc
        rw [hc j hpages] at hf
        cases hf
      -- what is left if this page is the last one that is reached
      have hlast : P.PageOk file ph j → ph.full file j = false → ∀ i, j ≤ i →
          i * PGSIZE < ph.filesz → (∀ j' < i, ph.full file j' = true) → P.PageOk file ph i := by
        intro hok hf i hi _ hall
        rcases Nat.eq_or_lt_of_le hi with rfl | hji
        · exact hok
        · rw [hall j hji] at hf
          cases hf
      refine wp_bind.mpr (wp_walkpgdir_find hva ?_)
      have hentry : P.entry (uint (ph.vaddr + j * PGSIZE) / PGSIZE) =
          s.entry r (uint (ph.vaddr + j * PGSIZE) / 4096) := hP.entry _ (div_page_lt hva)
      cases ht : s.table r (uint (ph.vaddr + j * PGSIZE) / 4096 / 1024) with
      | none =>
        refine hbad ?_ _ (by simp)
        rintro ⟨w, hw, -⟩
        rw [hentry, Phys.entry, ht] at hw
        cases hw
      | some t =>
        rw [Phys.entry, ht] at hentry
        simp only [Option.map_some, load, wp_bind, wp_get, wp_pure] at hentry ⊢
        generalize (s.mem t).word 4 (4 * (uint (ph.vaddr + j * PGSIZE) / 4096 % 1024)) = w at hentry ⊢
        cases hchunk : ph.chunk file j with
        | none =>
          have hf : ph.full file j = false := by simp [Proghdr.full, hchunk]
          have hok : P.PageOk file ph j := ⟨w, hentry, by simp [hchunk]⟩
          exact hQ false s (iff_of_false (by simp) (hnot hf)) (hlast hok hf) (.refl h hP)
        | some bs =>
          refine wp_bind.mpr (wp_storeBytes h hr hP (fun hne hgiven => hbad ?_ _ (by simp))
            fun s₁ hgiven h₁ => ?_)
          · rintro ⟨w', hw', hok⟩
            obtain rfl := Option.some.inj (hentry.symm.trans hw')
            exact hgiven (hok bs hchunk hne)
          · have hok : P.PageOk file ph j := by
              refine ⟨w, hentry, fun bs' hbs' hne => ?_⟩
              obtain rfl := Option.some.inj (hchunk.symm.trans hbs')
              exact hgiven hne
            by_cases hlen : bs.length = ph.need j
            · have hf : ph.full file j = true := by simp [Proghdr.full, hchunk, hlen]
              rw [if_neg (by simp [hlen])]
              refine ih h₁.inv h₁.sees (fun j' hj' => ?_) (by omega) fun b s' hb hrest h' =>
                hQ b s' hb (fun i hi hlt' hall => ?_) (h₁.trans h')
              · rcases Nat.eq_or_lt_of_le (Nat.le_of_lt_succ hj') with rfl | hj'
                · exact hf
                · exact hfull j' hj'
              · rcases Nat.eq_or_lt_of_le hi with rfl | hi
                · exact hok
                · exact hrest i hi hlt' hall
            · have hf : ph.full file j = false := by simp [Proghdr.full, hchunk, hlen]
              rw [if_pos hlen]
              exact hQ false s₁ (iff_of_false (by simp) (hnot hf)) (hlast hok hf) h₁
    · rw [if_neg hlt]
      have hj : pages ph.filesz ≤ j := by
        simp only [pages, PGSIZE] at hlt ⊢
        omega
      obtain ⟨hall, hok⟩ := hend hj hfull
      exact hQ true s hall hok (.refl h hP)

theorem wp_loaduvm {Q : Bool → Phys → Prop} (h : Inv K s ρ ω) (hr : ρ.dir g = some r)
    (hP : Sees s r P) (hE : ¬P.Loads file ph → Loud E)
    (hQ : ∀ (b : Bool) (s' : Phys), (b = true ↔ ph.Complete file) → P.Loads file ph →
      Wrote K ρ g r s ω s' P → Q b s') : wp E (loaduvm file r ph) Q s := by
  unfold loaduvm
  by_cases hal : ph.vaddr % PGSIZE = 0
  · rw [if_neg (not_not.mpr hal)]
    refine wp_loaduvmFrom hr (fun j hlt hfull hbad => hE fun hl => hbad (hl.page j hlt hfull)) _ h hP
      (by simp) ?_ fun b s' hb hok h' => hQ b s' hb ⟨hal, fun j => hok j (Nat.zero_le j)⟩ h'
    simp only [pages, PGSIZE]
    omega
  · rw [if_pos hal]
    exact hE (fun hl => hal hl.aligned) _ (by simp)

/-! ## The segments -/

/-- No page is mapped beyond the given size. -/
structure Plan.Within (P : Plan) (sz : ℕ) : Prop where
  le : sz ≤ KERNBASE
  blank : ∀ i, pages sz ≤ i → i < 2 ^ 19 → P.Blank i

theorem Plan.Within.alloc {oldsz newsz res : ℕ} {P' : Plan} (h : P.Within oldsz)
    (heq : P.alloc oldsz newsz = (res, P')) (hres : res ≠ 0) : P'.Within res := by
  unfold Plan.alloc at heq
  split_ifs at heq with hbig hsmall
  · exact absurd (Prod.mk.inj heq).1.symm hres
  · obtain ⟨rfl, rfl⟩ := Prod.mk.inj heq
    exact h
  · obtain ⟨hr, rfl⟩ := Prod.mk.inj heq
    split_ifs at hr
    · subst hr
      refine ⟨by omega, fun i hi hi' => (h.blank i ?_ hi').grow (.inr ?_)⟩ <;>
      · simp only [pages] at hi ⊢
        omega
    · exact absurd hr.symm hres

theorem wp_execSegments (hr : ρ.dir g = some r) (n : ℕ) {off : ℕ}
    {ω : ℕ → Option (Place ι κ)} (h : Inv K s ρ ω) (hP : Sees s r P)
    (hsz : P.Within sz) (hE : ∀ l ∈ (P.segments file n off sz).1, ¬l.2.Loads file l.1 → Loud E)
    (hQ : ∀ (res : Option ℕ) (s' : Phys) (ω' : ℕ → Option (Place ι κ)) (P' : Plan),
      (P.segments file n off sz).2 = (res, P') →
      (∀ l ∈ (P.segments file n off sz).1, l.2.Loads file l.1) → Changed K ρ g s ω P s' ω' P' →
      (∀ sz', res = some sz' → Sees s' r P' ∧ P'.Within sz') → Q res s') :
    wp E (execSegments K file r n off sz) Q s := by
  induction n generalizing off sz s ω P with
  | zero =>
    refine hQ (some sz) s ω P rfl nofun (.refl h) fun sz' heq => ?_
    obtain rfl := Option.some.inj heq
    exact ⟨hP, hsz⟩
  | succ n ih =>
    rw [execSegments]
    rw [Plan.segments] at hE hQ
    cases hread : readProg file off with
    | none =>
      simp only [hread] at hE hQ ⊢
      exact hQ none s ω P rfl nofun (.refl h) nofun
    | some ph =>
      simp only [hread] at hE hQ ⊢
      by_cases htype : ph.type = ELF_PROG_LOAD
      · rw [if_neg (not_not.mpr htype)] at hE hQ ⊢
        by_cases hmem : ph.memsz < ph.filesz
        · rw [if_pos hmem] at hE hQ ⊢
          exact hQ none s ω P rfl nofun (.refl h) nofun
        · rw [if_neg hmem] at hE hQ ⊢
          refine wp_bind.mpr (wp_allocuvm h hr hP hsz.le (.inr hsz.blank) fun res s₁ ω₁ P₁ heq h₁ hP₁ => ?_)
          simp only [heq] at hE hQ
          by_cases hres : res = 0
          · rw [if_pos hres] at hE hQ ⊢
            exact hQ none s₁ ω₁ P₁ rfl nofun h₁ nofun
          · rw [if_neg hres] at hE hQ ⊢
            have hload : ¬P₁.Loads file ph → Loud E := by
              split_ifs at hE
              · exact hE (ph, P₁) List.mem_cons_self
              · exact hE (ph, P₁) List.mem_cons_self
            refine wp_bind.mpr (wp_loaduvm h₁.inv hr (hP₁ hres) hload fun b s₂ hb hloads h₂ => ?_)
            have hchanged : Changed K ρ g s ω P s₂ ω₁ P₁ := h₁.trans h₂.changed fun _ _ => rfl
            by_cases hc : ph.Complete file
            · obtain rfl : b = true := hb.mpr hc
              rw [if_pos hc] at hE hQ
              refine ih h₂.inv h₂.sees (hsz.alloc heq hres)
                (fun l hl => hE l (List.mem_cons_of_mem _ hl))
                fun res' s' ω' P' heq' hall h' hsome => hQ res' s' ω' P' heq' (fun l hl => ?_)
                  (hchanged.trans h' fun _ _ => rfl) hsome
              rcases List.mem_cons.mp hl with rfl | hl
              · exact hloads
              · exact hall l hl
            · obtain rfl : b = false := Bool.eq_false_iff.mpr fun hb' => hc (hb.mp hb')
              rw [if_neg hc] at hE hQ
              refine hQ none s₂ ω₁ P₁ rfl (fun l hl => ?_) hchanged nofun
              rw [List.mem_singleton.mp hl]
              exact hloads
      · rw [if_pos htype] at hE hQ ⊢
        exact ih h hP hsz hE hQ

/-! ## The stack -/

theorem length_words (ws : List ℕ) : (ws.flatMap (Bytes.le 4)).length = ws.length * 4 := by
  induction ws with
  | nil => rfl
  | cons w ws ih => rw [List.flatMap_cons, List.length_append, ih, Bytes.length_le, List.length_cons]; omega

theorem length_ustack {argc sp : ℕ} {ptrs : List ℕ} (h : ptrs.length = argc) :
    (ustack argc sp ptrs).length = (3 + argc + 1) * 4 := by
  rw [ustack, length_words]
  simp only [List.length_append, List.length_cons, List.length_nil, h]
  omega

/-- All bytes have been copied, and the address space is as before. -/
structure Puts (s s' : Phys) (r va : ℕ) (bs : List UInt8) : Prop where
  copied : Copied s s' r va bs bs.length
  bound : va + bs.length ≤ 2 ^ 32
  entry : ∀ i < 2 ^ 20, s'.entry r i = s.entry r i

theorem Wrote.puts {va : ℕ} {bs : List UInt8} (h : Wrote K ρ g r s ω s' P) (hP : Sees s r P)
    (hends : CopyEnds s s' r va bs true) : Puts s s' r va bs :=
  ⟨hends.1, hends.2, fun i hi => (h.sees.entry i hi).symm.trans (hP.entry i hi)⟩

/-- The arguments have been copied to the stack, and then `ustack`. -/
def Pushes (r top : ℕ) : List (List UInt8) → ℕ → ℕ → List ℕ → Phys → Phys → Prop
  | [], argc, sp, ptrs, s, s' =>
    top = uint (sp + 2 ^ 32 - (3 + argc + 1) * 4) ∧ Puts s s' r top (ustack argc sp ptrs)
  | arg :: args, argc, sp, ptrs, s, s' =>
    ∃ s₁, Puts s s₁ r (pushed sp arg) (arg ++ [0]) ∧
      Pushes r top args (argc + 1) (pushed sp arg) (ptrs ++ [pushed sp arg]) s₁ s'

theorem wp_execArgs (hr : ρ.dir g = some r) (argv : List (List UInt8))
    {argc sp : ℕ} {ptrs : List ℕ} (h : Inv K s ρ ω) (hP : Sees s r P)
    (hptrs : ptrs.length = argc) (hE : P.args argv argc sp = none → E .null)
    (hQ : ∀ (res : Option ℕ) (s' : Phys), P.args argv argc sp = some res →
      Wrote K ρ g r s ω s' P → (∀ top, res = some top → Pushes r top argv argc sp ptrs s s') → Q res s') :
    wp E (execArgs r argv argc sp ptrs) Q s := by
  induction argv generalizing argc sp ptrs s with
  | nil =>
    rw [execArgs]
    simp only [Plan.args] at hE hQ
    refine wp_bind.mpr (wp_copyoutFrom hr _ h hP uint_lt le_rfl (fun hnone => hE ?_)
      fun b s' heq h' hends => ?_)
    · rw [length_ustack hptrs] at hnone
      rw [hnone]
      rfl
    · rw [length_ustack hptrs] at heq
      simp only [heq, Option.map_some, Option.some.injEq] at hQ
      cases b
      · exact hQ none s' rfl h' nofun
      · refine hQ (some _) s' rfl h' ?_
        rintro _ ⟨⟩
        exact ⟨rfl, h'.puts hP hends⟩
  | cons arg argv ih =>
    rw [execArgs]
    rw [Plan.args] at hE hQ
    by_cases hmax : argc ≥ MAXARG
    · rw [if_pos hmax] at hE hQ ⊢
      exact hQ none s rfl (.refl h hP) nofun
    · rw [if_neg hmax] at hE hQ ⊢
      have hsp : pushed sp arg < 2 ^ 32 := by
        have := @uint_lt (sp + 2 ^ 32 - uint (arg.length + 1))
        unfold pushed
        omega
      have hlen : (arg ++ [0]).length = arg.length + 1 := by simp
      refine wp_bind.mpr (wp_copyoutFrom hr _ h hP hsp le_rfl (fun hnone => hE ?_)
        fun b s' heq h' hends => ?_)
      · rw [hlen] at hnone
        rw [hnone]
      · rw [hlen] at heq
        simp only [heq] at hE hQ
        cases b
        · exact hQ none s' rfl h' nofun
        · exact ih h'.inv h'.sees (by simp [hptrs]) hE fun res s'' heq' h'' hpushes =>
            hQ res s'' heq' (h'.trans h'') fun top htop => ⟨s', h'.puts hP hends, hpushes top htop⟩

/-! ## `exec` -/

theorem image_loaded : (P.image file elf).loaded = (P.segments file elf.phnum elf.phoff 0).1 := by
  simp only [Plan.image]
  split <;> rfl

theorem Plan.alloc_eq {oldsz newsz res : ℕ} {P' : Plan} (heq : P.alloc oldsz newsz = (res, P'))
    (hres : res ≠ 0) (hle : oldsz ≤ newsz) : res = newsz ∧ newsz < KERNBASE := by
  unfold Plan.alloc at heq
  split_ifs at heq with hbig hsmall
  · exact absurd (Prod.mk.inj heq).1.symm hres
  · omega
  · have hr := (Prod.mk.inj heq).1
    split_ifs at hr
    · exact ⟨hr.symm, by omega⟩
    · exact absurd hr.symm hres

/-- The size may be rounded up. -/
theorem Plan.Within.round (h : P.Within sz) : P.Within (PGROUNDUP sz) := by
  have hle := h.le
  rw [PGROUNDUP_eq h.le]
  refine ⟨?_, fun i hi => h.blank i ?_⟩ <;>
  · simp only [pages, PGSIZE, KERNBASE] at *
    omega

theorem PGROUNDUP_mod : PGROUNDUP sz % PGSIZE = 0 := Nat.mul_mod_left _ _

/-- The part of `execStack` that comes before the arguments. -/
def stackRoom (K : Image) (r sz : ℕ) : VM (Option ℕ) := do
  let sz := PGROUNDUP sz
  let sz ← allocuvm K r sz (uint (sz + 2 * PGSIZE))
  if sz = 0 then pure none
  else do
    clearpteu r (uint (sz + 2 ^ 32 - 2 * PGSIZE))
    pure (some sz)

/-- The rest of `execStack`. -/
def pushArgs (argv : List (List UInt8)) (r : ℕ) : Option ℕ → VM (Option (ℕ × ℕ))
  | none => pure none
  | some sz => do
    match ← execArgs r argv 0 sz [] with
    | none => pure none
    | some sp => pure (some (sz, sp))

/-- The part of `execImage` that comes before the arguments. -/
def execLoad (K : Image) (file : List UInt8) (elf : Elfhdr) (r : ℕ) : VM (Option ℕ) := do
  match ← execSegments K file r elf.phnum elf.phoff 0 with
  | none => pure none
  | some sz => stackRoom K r sz

theorem execStack_eq : execStack K argv r sz = stackRoom K r sz >>= pushArgs argv r := by
  unfold execStack stackRoom
  simp only [bind_assoc]
  refine bind_congr fun sz => ?_
  split_ifs
  · rfl
  · rw [bind_assoc]
    rfl

theorem execImage_eq : execImage K file elf argv r = execLoad K file elf r >>= pushArgs argv r := by
  unfold execImage execLoad
  rw [bind_assoc]
  refine bind_congr fun res => ?_
  cases res with
  | none => rfl
  | some sz => exact execStack_eq

/-- An image of size `sz` with a stack but without arguments, as the plan has it. -/
structure Furnished (s : Phys) (r sz : ℕ) (P : Plan) : Prop where
  aligned : sz % PGSIZE = 0
  two : 2 * PGSIZE ≤ sz
  lt : sz < KERNBASE
  guard : P.entry (sz / PGSIZE - 2) ≠ none
  sees : Sees s r (P.clear (sz / PGSIZE - 2))

theorem wp_stackRoom
    (h : Inv K s ρ ω) (hr : ρ.dir g = some r) (hP : Sees s r P) (hsz : P.Within sz)
    (hE : (P.stack sz).1 ≠ 0 → (P.stack sz).2.entry ((P.stack sz).1 / PGSIZE - 2) = none → Loud E)
    (hnone : ∀ (s' : Phys) (ω' : ℕ → Option (Place ι κ)), (P.stack sz).1 = 0 →
      Changed K ρ g s ω P s' ω' (P.stack sz).2 → Q none s')
    (hsome : ∀ (s' : Phys) (ω' : ℕ → Option (Place ι κ)), (P.stack sz).1 ≠ 0 →
      Changed K ρ g s ω P s' ω' (P.stack sz).2 → Furnished s' r (P.stack sz).1 (P.stack sz).2 →
      Q (some (P.stack sz).1) s') : wp E (stackRoom K r sz) Q s := by
  have hwithin := hsz.round
  have hbase := @PGROUNDUP_mod sz
  unfold stackRoom
  unfold Plan.stack at hE hnone hsome
  generalize PGROUNDUP sz = base at hwithin hbase hE hnone hsome ⊢
  have hle := hwithin.le
  have hnew : uint (base + 2 * PGSIZE) = base + 2 * PGSIZE := by
    simp only [uint, PGSIZE, KERNBASE] at hle ⊢
    omega
  simp only [hnew] at hE hnone hsome ⊢
  generalize htop : base + 2 * PGSIZE = newsz at hE hnone hsome ⊢
  refine wp_bind.mpr (wp_allocuvm h hr hP hle (.inr hwithin.blank) fun top s₁ ω₁ P₁ heq h₁ hP₁ => ?_)
  simp only [heq] at hE hnone hsome
  by_cases hne : top = 0
  · rw [if_pos hne]
    exact hnone s₁ ω₁ hne h₁
  · rw [if_neg hne]
    obtain ⟨rfl, hlt⟩ := P.alloc_eq heq hne (by omega)
    have hguard : uint (top + 2 ^ 32 - 2 * PGSIZE) / 4096 = top / PGSIZE - 2 := by
      simp only [uint, PGSIZE, KERNBASE] at hlt hbase htop ⊢
      omega
    refine wp_bind.mpr (wp_clearpteu h₁.inv hr (hP₁ hne) uint_lt (fun hmiss => hE hne ?_ _ (by simp))
      fun s₂ hentry h₂ => ?_)
    · rwa [hguard] at hmiss
    · rw [hguard] at hentry h₂
      refine hsome s₂ ω₁ hne (h₁.trans ⟨h₂.inv, .refl, h₂.others, h₂.steady.mono fun _ _ => trivial⟩ fun _ _ => rfl)
        ⟨?_, by omega, hlt, hentry, h₂.sees⟩
      simp only [PGSIZE] at hbase htop ⊢
      omega

theorem wp_execLoad (h : Inv K s ρ ω) (hr : ρ.dir g = some r)
    (hP : Sees s r P) (hsz : P.Within 0)
    (hload : ∀ l ∈ (P.image file elf).loaded, ¬l.2.Loads file l.1 → Loud E)
    (hguard : ∀ sz P', (P.image file elf).stack = some (sz, P') → P'.entry (sz / PGSIZE - 2) = none → Loud E)
    (hnone : ∀ (s' : Phys) (ω' : ℕ → Option (Place ι κ)),
      (∀ l ∈ (P.image file elf).loaded, l.2.Loads file l.1) → (P.image file elf).stack = none →
      Changed K ρ g s ω P s' ω' (P.image file elf).last → Q none s')
    (hsome : ∀ (sz : ℕ) (P' : Plan) (s' : Phys) (ω' : ℕ → Option (Place ι κ)),
      (∀ l ∈ (P.image file elf).loaded, l.2.Loads file l.1) → (P.image file elf).stack = some (sz, P') →
      Changed K ρ g s ω P s' ω' (P.image file elf).last → Furnished s' r sz P' → Q (some sz) s') :
    wp E (execLoad K file elf r) Q s := by
  unfold execLoad
  rw [image_loaded] at hload hnone hsome
  refine wp_bind.mpr (wp_execSegments hr _ h hP hsz hload fun res s₁ ω₁ P₁ heq hall h₁ hres => ?_)
  cases res with
  | none =>
    have himage : P.image file elf = ⟨(P.segments file elf.phnum elf.phoff 0).1, none, P₁⟩ := by
      simp [Plan.image, heq]
    rw [himage] at hnone
    exact hnone s₁ ω₁ hall rfl h₁
  | some sz =>
    have himage : P.image file elf = ⟨(P.segments file elf.phnum elf.phoff 0).1,
        if (P₁.stack sz).1 = 0 then none else some (P₁.stack sz), (P₁.stack sz).2⟩ := by
      simp [Plan.image, heq]
    rw [himage] at hguard hnone hsome
    refine wp_stackRoom h₁.inv hr (hres sz rfl).1 (hres sz rfl).2 (fun hne => hguard _ _ (if_neg hne))
      (fun s' ω' hzero h' => hnone s' ω' hall (if_pos hzero) (h₁.trans h' fun _ _ => rfl))
      fun s' ω' hne h' hfur => hsome _ _ s' ω' hall (if_neg hne) (h₁.trans h' fun _ _ => rfl) hfur

/-- The image in `s'` comes from the one in `s₁` by pushing the arguments. -/
structure Laid (K : Image) (ρ : Roots ι κ) (ω : ℕ → Option (Place ι κ)) (g : ι) (argv : List (List UInt8))
    (r sz sp : ℕ) (s₁ s' : Phys) : Prop where
  inv : Inv K s₁ ρ ω
  furnished : ∃ P, Furnished s₁ r sz P ∧ Wrote K ρ g r s₁ ω s' (P.clear (sz / PGSIZE - 2))
  pushes : Pushes r sp argv 0 sz [] s₁ s'

theorem wp_execImage {Q : Option (ℕ × ℕ) → Phys → Prop}
    (h : Inv K s ρ ω) (hr : ρ.dir g = some r) (hP : Sees s r P) (hsz : P.Within 0)
    (hE : ¬(P.image file elf).Fits file argv → Loud E)
    (hQ : ∀ (res : Option (ℕ × ℕ)) (s' : Phys) (ω' : ℕ → Option (Place ι κ)),
      (P.image file elf).Fits file argv → Changed K ρ g s ω P s' ω' (P.image file elf).last →
      (res = none → (P.image file elf).Rejects argv) → (∀ sz sp, res = some (sz, sp) → ∃ s₁, execLoad K file elf r s = .ok (some sz) s₁ ∧
        Laid K ρ ω' g argv r sz sp s₁ s') → Q res s') :
    wp E (execImage K file elf argv r) Q s := by
  rw [execImage_eq]
  refine wp_bind_self (wp_execLoad h hr hP hsz (fun l hl hbad => hE fun hfit => hbad (hfit.loads l hl))
    (fun sz P' heq hmiss => hE fun hfit => (hfit.stack sz P' heq).guard hmiss)
    (fun s₁ ω₁ hall hstack h₁ _ => hQ none s₁ ω₁ ⟨hall, by rw [hstack]; nofun⟩ h₁
      (fun _ sz P' heq => by rw [hstack] at heq; cases heq) nofun)
    fun sz P' s₁ ω₁ hall hstack h₁ hfur hrun => ?_)
  refine wp_bind.mpr (wp_execArgs hr argv h₁.inv hfur.sees rfl
    (fun hmiss => hE (fun hfit => (hfit.stack sz P' hstack).args hmiss) _ nofun)
    fun res s₂ hargs h₂ hpushes => ?_)
  have honly : ∀ {sz₁ P₁}, (P.image file elf).stack = some (sz₁, P₁) → sz = sz₁ ∧ P' = P₁ :=
    fun heq => Prod.mk.inj (Option.some.inj (hstack.symm.trans heq))
  have hfit : (P.image file elf).Fits file argv := by
    refine ⟨hall, fun sz₁ P₁ heq => ?_⟩
    obtain ⟨rfl, rfl⟩ := honly heq
    exact ⟨hfur.guard, by rw [hargs]; nofun⟩
  have hchanged : Changed K ρ g s ω P s₂ ω₁ (P.image file elf).last :=
    h₁.trans ⟨h₂.inv, .refl, h₂.others, h₂.steady⟩ fun _ _ => rfl
  cases res with
  | none =>
    refine hQ none s₂ ω₁ hfit hchanged (fun _ sz₁ P₁ heq => ?_) nofun
    obtain ⟨rfl, rfl⟩ := honly heq
    exact hargs
  | some sp =>
    refine hQ (some (sz, sp)) s₂ ω₁ hfit hchanged nofun ?_
    rintro _ _ ⟨⟩
    exact ⟨s₁, hrun, h₁.inv, ⟨P', hfur, h₂⟩, hpushes sp rfl⟩

/-- The image that `exec` makes of the file, before the arguments are pushed: its directory and its
size. -/
def loadImage (K : Image) (file : Option (List UInt8)) : VM (Option (ℕ × ℕ)) := do
  match file with
  | none => pure none
  | some file =>
    match readElf file with
    | none => pure none
    | some elf =>
      if elf.magic ≠ ELF_MAGIC then pure none
      else
        match ← setupkvm K with
        | none => pure none
        | some r =>
          match ← execLoad K file elf r with
          | none => pure none
          | some sz => pure (some (r, sz))

theorem fits_trivial : Outline.Fits ⟨[], none, P⟩ file argv := ⟨nofun, nofun⟩

/-- Where the program in the file starts. -/
def startOf (file : Option (List UInt8)) : ℕ := ((file.bind readElf).map Elfhdr.entry).getD 0

variable [DecidableEq ι]

theorem wp_exec {file : Option (List UInt8)} {path : List UInt8} {self : Space}
    {g₀ : ι} {Q : ℤ × Space → Phys → Prop} (h : Inv K s ρ ω) (hg : ρ.dir g = none)
    (hself : ρ.dir g₀ = some self.pgdir) (hask : P.ask = s.answers)
    (hE : ¬(P.exec K file).Fits (file.getD []) argv → Loud E)
    (hfail : ∀ (s' : Phys) (ω' : ℕ → Option (Place ι κ)), (P.exec K file).Fits (file.getD []) argv →
      Changed K ρ g s ω P s' ω' (P.exec K file).last → (P.exec K file).Rejects argv → Q (-1, self) s')
    (hdone : ∀ (r sz sp : ℕ) (s' : Phys) (ω' : ℕ → Option (Place ι κ)),
      (P.exec K file).Fits (file.getD []) argv → s.answers 0 = some r → sz ≤ KERNBASE →
      Inv K s' { ρ with dir := Function.update (Function.update ρ.dir g (some r)) g₀ none } ω' →
      Track P ω (P.exec K file).last ω' →
      (∃ s₁ s₂ ω₂, loadImage K file s = .ok (some (r, sz)) s₁ ∧
        Laid K { ρ with dir := Function.update ρ.dir g (some r) } ω₂ g argv r sz sp s₁ s₂ ∧
        Others s₂ s' { ρ with dir := Function.update ρ.dir g (some r) } g₀ ∧ Steady (· ≠ g₀) s₂ s' ω₂ ω') →
      Q (0, ⟨r, sz, startOf file, sp, progName path⟩) s') :
    wp E (exec K file path argv self) Q s := by
  have htrivial : P.exec K file = ⟨[], none, P⟩ → Q (-1, self) s := by
    intro heq
    rw [heq] at hfail
    exact hfail s ω fits_trivial (.refl h) nofun
  unfold exec
  cases file with
  | none => exact htrivial rfl
  | some file =>
    dsimp only
    cases helf : readElf file with
    | none => exact htrivial (by simp [Plan.exec, helf])
    | some elf =>
      dsimp only
      by_cases hmagic : elf.magic = ELF_MAGIC
      · rw [if_neg (not_not.mpr hmagic)]
        have hstart : startOf (some file) = elf.entry := by simp [startOf, helf]
        refine wp_bind_self (wp_setupkvm h hg hask (fun s' ω' P' heq h' _ => ?_)
          fun r s₁ ω₁ P₁ heq hans h₁ hlater hcount hlow hrun => ?_)
        · have hexec : P.exec K (some file) = ⟨[], none, P'⟩ := by simp [Plan.exec, helf, hmagic, heq]
          rw [hexec] at hfail
          exact hfail s' ω' fits_trivial h' nofun
        · have hexec : P.exec K (some file) = P₁.image file elf := by simp [Plan.exec, helf, hmagic, heq]
          rw [hexec] at hE hfail hdone
          have hr : Function.update ρ.dir g (some r) g = some r := Function.update_self ..
          have hwithin : P₁.Within 0 :=
            ⟨Nat.zero_le _, fun i _ hi w hw => by rw [hlow i hi] at hw; cases hw⟩
          have hchanged := h₁.changed hlater hcount
          refine wp_bind.mpr (wp_execImage h₁.inv hr h₁.sees hwithin hE
            fun res s₂ ω₂ hfit h₂ hrej hlaid => ?_)
          have hchanged₂ := hchanged.trans h₂ fun _ _ => rfl
          cases res with
          | none =>
            refine wp_bind.mpr (wp_freevm h₂.inv hr fun s₃ ω₃ h₃ hk₃ ho₃ hst₃ =>
              hfail s₃ ω₃ hfit ?_ (hrej rfl))
            simp only [Function.update_idem, update_none hg] at h₃
            refine ⟨h₃, hchanged₂.track.trans (hk₃.track .refl rfl), ?_, hchanged₂.steady.trans hst₃⟩
            exact (hchanged₂.others.trans ho₃).congr fun g' hne => (Function.update_of_ne hne _ _).symm
          | some res =>
            have hne : g₀ ≠ g := by
              rintro rfl
              rw [hg] at hself
              cases hself
            have hr₀ : Function.update ρ.dir g (some r) g₀ = some self.pgdir :=
              (Function.update_of_ne hne _ _).trans hself
            obtain ⟨sz, sp⟩ := res
            obtain ⟨s', hload, hlaid⟩ := hlaid sz sp rfl
            have hrun' : loadImage K (some file) s = .ok (some (r, sz)) s' := by
              simp [loadImage, helf, hmagic, bind, EStateM.bind, hrun, hload, pure, EStateM.pure]
            refine wp_bind.mpr (wp_freevm h₂.inv hr₀ fun s₃ ω₃ h₃ hk₃ ho₃ hst₃ => ?_)
            have := hdone r sz sp s₃ ω₃ hfit hans (hlaid.furnished.elim fun _ h => h.1.lt.le) h₃
              (hchanged₂.track.trans (hk₃.track .refl rfl)) ⟨s', s₂, ω₂, hrun', hlaid, ho₃, hst₃⟩
            rwa [hstart] at this
      · rw [if_pos hmagic]
        exact htrivial (by simp [Plan.exec, helf, hmagic])

end

end Xv6.Vm
