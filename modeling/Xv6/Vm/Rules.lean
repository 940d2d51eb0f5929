import Xv6.Vm.Plan

/-!
# Rules for the functions of `vm.c`

One rule for each function. The rules say that the code does to an address space what the plan says
(`Sees`), where the pages are afterwards, and whether pages have been lost: a function loses a page if
and only if it finds no page for a page table (`Track`). The errors a rule admits are a parameter.
-/

namespace Xv6.Vm

open Lib Exec
open Function (update update_self update_of_ne update_idem update_eq_self)

/-! ## Lost pages -/

section

variable {α : Type} {ω ω' ω'' : ℕ → Option α}

/-- No page has been lost, or found. -/
def Kept (ω ω' : ℕ → Option α) : Prop := ∀ x, ω' x = none ↔ ω x = none

theorem Kept.refl (ω : ℕ → Option α) : Kept ω ω := fun _ => Iff.rfl

theorem Kept.trans (h : Kept ω ω') (h' : Kept ω' ω'') : Kept ω ω'' := fun x => (h' x).trans (h x)

theorem kept_update {x : ℕ} {b : α} (hx : ω x ≠ none) : Kept ω (update ω x (some b)) := by
  intro y
  rcases eq_or_ne y x with rfl | hy
  · simp [hx]
  · rw [update_of_ne hy]

theorem kept_map {f : α → α} : Kept ω fun x => (ω x).map f := fun x => by simp

/-- Pages have been lost, one of `F` among them. -/
structure Loses (F : Set ℕ) (ω ω' : ℕ → Option α) : Prop where
  found : ∀ x, ω x = none → ω' x = none
  lost : ∃ x ∈ F, ω x ≠ none ∧ ω' x = none

variable {F F' : Set ℕ}

theorem Loses.mono (h : Loses F ω ω') (hF : F ⊆ F') : Loses F' ω ω' where
  found := h.found
  lost := by
    obtain ⟨x, hF', hx⟩ := h.lost
    exact ⟨x, hF hF', hx⟩

theorem Kept.loses (h : Kept ω ω') (h' : Loses F ω' ω'') : Loses F ω ω'' where
  found x hx := h'.found x ((h x).mpr hx)
  lost := by
    obtain ⟨x, hF, hx, hx'⟩ := h'.lost
    exact ⟨x, hF, fun hn => hx ((h x).mpr hn), hx'⟩

theorem Loses.kept (h : Loses F ω ω') (h' : Kept ω' ω'') : Loses F ω ω'' where
  found x hx := (h' x).mpr (h.found x hx)
  lost := by
    obtain ⟨x, hF, hx, hx'⟩ := h.lost
    exact ⟨x, hF, hx, (h' x).mpr hx'⟩

theorem Loses.trans (h : Loses F ω ω') (h' : Loses F' ω' ω'') : Loses F ω ω'' where
  found x hx := h'.found x (h.found x hx)
  lost := by
    obtain ⟨x, hF, hx, hx'⟩ := h.lost
    exact ⟨x, hF, hx, h'.found x hx'⟩

/-- The pages that are going to be handed out. -/
def Plan.supply (P : Plan) : Set ℕ := { x | ∃ i, P.ask i = some x }

variable {P P' P'' : Plan}

theorem Plan.Later.supply (h : P.Later P') : P'.supply ⊆ P.supply := by
  obtain ⟨c, hc⟩ := h
  rintro x ⟨i, hi⟩
  exact ⟨i + c, (hc i).symm.trans hi⟩

/-- Of the pages handed out some have been lost if and only if there was no page for a page table. -/
structure Track (P : Plan) (ω : ℕ → Option α) (P' : Plan) (ω' : ℕ → Option α) : Prop where
  later : P.Later P'
  pages : P'.lost = P.lost ∧ Kept ω ω' ∨ P.lost < P'.lost ∧ Loses P.supply ω ω'

theorem Track.refl : Track P ω P ω := ⟨.refl, .inl ⟨rfl, .refl ω⟩⟩

theorem Track.trans (h : Track P ω P' ω') (h' : Track P' ω' P'' ω'') : Track P ω P'' ω'' := by
  refine ⟨h.later.trans h'.later, ?_⟩
  rcases h.pages with ⟨hn, hk⟩ | ⟨hn, hl⟩ <;> rcases h'.pages with ⟨hn', hk'⟩ | ⟨hn', hl'⟩
  · exact .inl ⟨hn'.trans hn, hk.trans hk'⟩
  · exact .inr ⟨hn ▸ hn', hk.loses (hl'.mono h.later.supply)⟩
  · exact .inr ⟨hn' ▸ hn, hl.kept hk'⟩
  · exact .inr ⟨hn.trans hn', hl.trans hl'⟩

theorem Kept.track (h : Kept ω ω') (hl : P.Later P') (hP : P'.lost = P.lost) : Track P ω P' ω' :=
  ⟨hl, .inl ⟨hP, h⟩⟩

theorem Loses.track (h : Loses P.supply ω ω') (hl : P.Later P') (hP : P'.lost = P.lost + 1) :
    Track P ω P' ω' := ⟨hl, .inr ⟨by omega, h⟩⟩

end

/-! ## What the code sees -/

/-- The plan describes the address space with the directory `r`. -/
structure Sees (s : Phys) (r : ℕ) (P : Plan) : Prop where
  ask : P.ask = s.answers
  entry : ∀ i < 2 ^ 20, P.entry i = s.entry r i

theorem entry_of_mem {s s' : Phys} {r i : ℕ} (h : s'.mem = s.mem) : s'.entry r i = s.entry r i := by
  simp [Phys.entry, Phys.table, h]

theorem Sees.asked {s s' : Phys} {r : ℕ} {P : Plan} (h : Sees s r P) (ha : Asked s s') :
    Sees s' r P.next where
  ask := by
    rw [ha.answers, Plan.next, h.ask]
  entry i hi := (h.entry i hi).trans (entry_of_mem ha.mem).symm

theorem Sees.supply {s : Phys} {r x : ℕ} {P : Plan} (h : Sees s r P) (hx : s.answers 0 = some x) :
    {x} ⊆ P.supply := by
  rintro _ rfl
  exact ⟨0, h.ask ▸ hx⟩

section

variable {ι κ : Type} {K : Image} {E : Fault → Prop} {s s' s'' : Phys} {ρ : Roots ι κ}
  {ω ω' : ℕ → Option (Place ι κ)} {g : ι} {r : ℕ} {P P' : Plan}

/-- The entries of the other address spaces are the same as before. -/
def Others (s s' : Phys) (ρ : Roots ι κ) (g : ι) : Prop :=
  ∀ g' r' i, ρ.dir g' = some r' → i < 2 ^ 20 → g' ≠ g → s'.entry r' i = s.entry r' i

theorem Others.refl : Others s s ρ g := fun _ _ _ _ _ _ => rfl

/-- Only the other directories count. -/
theorem Others.congr {ρ' : Roots ι κ} (h : Others s s' ρ g) (hρ : ∀ g', g' ≠ g → ρ'.dir g' = ρ.dir g') :
    Others s s' ρ' g := fun g' r' i hr' hi hne => h g' r' i ((hρ g' hne).symm.trans hr') hi hne

theorem others_of_mem (h : s'.mem = s.mem) : Others s s' ρ g := fun _ _ _ _ _ _ => entry_of_mem h

theorem Others.trans (h : Others s s' ρ g) (h' : Others s' s'' ρ g) : Others s s'' ρ g :=
  fun g' r' i hr' hi hne => (h' g' r' i hr' hi hne).trans (h g' r' i hr' hi hne)

theorem SameSpaces.others (h : SameSpaces s s' ρ) : Others s s' ρ g :=
  fun g' r' i hr' hi _ => h.entry g' r' i hr' hi

theorem SameSpaces.sees (h : SameSpaces s s' ρ) (hr : ρ.dir g = some r) (hans : s'.answers = s.answers)
    (hP : Sees s r P) : Sees s' r P where
  ask := hP.ask.trans hans.symm
  entry i hi := (hP.entry i hi).trans (h.entry g r i hr hi).symm

/-- The user pages of the address spaces `A` are where they were, and hold what they held. -/
def Steady (A : ι → Prop) (s s' : Phys) (ω ω' : ℕ → Option (Place ι κ)) : Prop :=
  ∀ x g' i, A g' → ω x = some (.page g' i) → ω' x = some (.page g' i) ∧ s'.mem x = s.mem x

variable {A B : ι → Prop}

theorem Steady.refl : Steady A s s ω ω := fun _ _ _ _ hx => ⟨hx, rfl⟩

theorem Steady.mono (h : Steady A s s' ω ω') (hB : ∀ g', B g' → A g') : Steady B s s' ω ω' :=
  fun x g' i hg' hx => h x g' i (hB g' hg') hx

theorem Steady.trans {ω'' : ℕ → Option (Place ι κ)} (h : Steady A s s' ω ω')
    (h' : Steady A s' s'' ω' ω'') : Steady A s s'' ω ω'' := by
  intro x g' i hg' hx
  obtain ⟨hx', hmem⟩ := h x g' i hg' hx
  obtain ⟨hx'', hmem'⟩ := h' x g' i hg' hx'
  exact ⟨hx'', hmem'.trans hmem⟩

/-- Only the page `y` is concerned, which is no user page. -/
theorem steady_of_ne {y : ℕ} (hy : ∀ g' i, A g' → ω y ≠ some (.page g' i))
    (hω : ∀ x, x ≠ y → ω' x = ω x) (hmem : ∀ x, x ≠ y → s'.mem x = s.mem x) : Steady A s s' ω ω' := by
  intro x g' i hg' hx
  have hne : x ≠ y := by
    rintro rfl
    exact hy g' i hg' hx
  exact ⟨(hω x hne).trans hx, hmem x hne⟩

theorem steady_update {y : ℕ} {b : Option (Place ι κ)} (hy : ∀ g' i, A g' → ω y ≠ some (.page g' i))
    (hmem : ∀ x, x ≠ y → s'.mem x = s.mem x) : Steady A s s' ω (update ω y b) :=
  steady_of_ne hy (fun _ hx => update_of_ne hx _ _) hmem

theorem steady_setPage {y : ℕ} {bs : Bytes} (hy : ∀ g' i, A g' → ω y ≠ some (.page g' i)) :
    Steady A s (s.setPage y bs) ω ω :=
  steady_of_ne hy (fun _ _ => rfl) fun _ hx => update_of_ne hx _ _

/-- The state `s'` after code that has changed the address space of `g` only, without losing a page. -/
structure After (K : Image) (ρ : Roots ι κ) (g : ι) (r : ℕ) (s : Phys) (ω : ℕ → Option (Place ι κ))
    (s' : Phys) (ω' : ℕ → Option (Place ι κ)) (P' : Plan) : Prop where
  inv : Inv K s' ρ ω'
  kept : Kept ω ω'
  others : Others s s' ρ g
  steady : Steady (fun _ => True) s s' ω ω'
  sees : Sees s' r P'

/-- The same, when pages may have been lost. -/
structure Changed (K : Image) (ρ : Roots ι κ) (g : ι) (s : Phys) (ω : ℕ → Option (Place ι κ)) (P : Plan)
    (s' : Phys) (ω' : ℕ → Option (Place ι κ)) (P' : Plan) : Prop where
  inv : Inv K s' ρ ω'
  track : Track P ω P' ω'
  others : Others s s' ρ g
  steady : Steady (· ≠ g) s s' ω ω'

theorem After.refl (h : Inv K s ρ ω) (hP : Sees s r P) : After K ρ g r s ω s ω P :=
  ⟨h, .refl ω, .refl, .refl, hP⟩

theorem Changed.refl (h : Inv K s ρ ω) : Changed K ρ g s ω P s ω P := ⟨h, .refl, .refl, .refl⟩

theorem Changed.trans {s₁ : Phys} {ω₁ : ℕ → Option (Place ι κ)} {P₁ : Plan} {ρ' : Roots ι κ}
    (h : Changed K ρ g s ω P s₁ ω₁ P₁) (h' : Changed K ρ' g s₁ ω₁ P₁ s' ω' P')
    (hρ : ∀ g', g' ≠ g → ρ'.dir g' = ρ.dir g') : Changed K ρ' g s ω P s' ω' P' :=
  ⟨h'.inv, h.track.trans h'.track, (h.others.congr hρ).trans h'.others, h.steady.trans h'.steady⟩

theorem After.changed (h : After K ρ g r s ω s' ω' P') (hl : P.Later P') (hP : P'.lost = P.lost) :
    Changed K ρ g s ω P s' ω' P' :=
  ⟨h.inv, h.kept.track hl hP, h.others, h.steady.mono fun _ _ => trivial⟩

theorem After.trans {ω'' : ℕ → Option (Place ι κ)} {P'' : Plan} (h : After K ρ g r s ω s' ω' P')
    (h' : After K ρ g r s' ω' s'' ω'' P'') : After K ρ g r s ω s'' ω'' P'' :=
  ⟨h'.inv, h.kept.trans h'.kept, h.others.trans h'.others, h.steady.trans h'.steady, h'.sees⟩

/-! ## `kalloc` and `kfree` -/

theorem wp_kalloc {Q : Option ℕ → Phys → Prop} (h : Inv K s ρ ω)
    (hnone : ∀ s' : Phys, s.answers 0 = none → Inv K s' ρ ω → Asked s s' → Q none s')
    (hsome : ∀ (x : ℕ) (s' : Phys), s.answers 0 = some x → ω x = some .free →
      Inv K s' { ρ with hand := insert x ρ.hand } (update ω x (some .hand)) → Asked s s' →
      Q (some x) s') : wp E kalloc Q s := by
  unfold kalloc
  simp only [wp_bind, wp_get, wp_modify]
  cases hfree : s.free with
  | nil =>
    exact hnone _ (by simp [Phys.answers, hfree]) (h.same (sameSpaces_of_mem rfl) hfree.symm)
      (asked_refused (.inl hfree) rfl hfree.symm rfl)
  | cons x rest =>
    have hx : ω x = some .free := (h.place x .free).mp (by simp [At, hfree])
    simp only
    split_ifs with hg
    · exact hsome x _ (by simp [Phys.answers, hfree, hg]) hx (h.take hfree rfl rfl)
        (asked_granted hfree hg rfl rfl rfl)
    · exact hnone _ (by simp [Phys.answers, hg]) (h.same (sameSpaces_of_mem rfl) hfree.symm)
        (asked_refused (.inr (by simpa using hg)) rfl hfree.symm rfl)

theorem Inv.notMem_free (h : Inv K s ρ ω) {x : ℕ} (hx : x ∈ ρ.hand) : x ∉ s.free := by
  intro hmem
  have := ((h.place x .hand).mp hx).symm.trans ((h.place x .free).mp hmem)
  cases this

theorem wp_kfree {x : ℕ} {Q : PUnit → Phys → Prop} (h : Inv K s ρ ω) (hx : x ∈ ρ.hand)
    (hQ : ∀ s' : Phys, Inv K s' { ρ with hand := ρ.hand \ {x} } (update ω x (some .free)) →
      SameSpaces s s' ρ → (∀ y, y ≠ x → s'.mem y = s.mem y) → Q ⟨⟩ s') :
    wp E (kfree K x) Q s := by
  have hplace := (h.place x .hand).mp hx
  unfold kfree
  rw [if_neg (not_not.mpr (h.managed x _ hplace))]
  simp only [wp_bind, wp_get]
  rw [if_neg (h.notMem_free hx)]
  simp only [memset, wp_bind, wp_modify]
  have hs : SameSpaces s (s.setPage x fun _ => 1) ρ := h.setPage_hand hx _
  refine hQ _ (h.give hx ⟨hs.table, hs.entry⟩ rfl) ⟨hs.table, hs.entry⟩ fun y hy => ?_
  simp [update_of_ne hy]

/-! ## `walkpgdir` -/

section

variable {i : ℕ} {va x w perm : ℕ} {Q : Bool → Phys → Prop}

theorem PDX_eq (hva : va < 2 ^ 32) : PDX va = va / 4096 / 1024 := by
  unfold PDX
  omega

theorem PTX_eq : PTX va = va / 4096 % 1024 := rfl

theorem PDX_page (hi : i < 2 ^ 20) : PDX (i * PGSIZE) = i / 1024 := by
  have hpage : i * PGSIZE / 4096 = i := Nat.mul_div_cancel i (by decide)
  rw [PDX_eq (by simp only [PGSIZE]; omega), hpage]

theorem PTX_page : PTX (i * PGSIZE) = i % 1024 := by
  have hpage : i * PGSIZE / 4096 = i := Nat.mul_div_cancel i (by decide)
  rw [PTX_eq, hpage]

theorem wp_walkpgdir_find {Q : Option (ℕ × ℕ) → Phys → Prop} (hva : va < 2 ^ 32)
    (hQ : Q ((s.table r (va / 4096 / 1024)).map fun t => (t, 4 * (va / 4096 % 1024))) s) :
    wp E (walkpgdir r va false) Q s := by
  unfold walkpgdir
  simp only [load, wp_bind, wp_get, wp_pure, PDX_eq hva]
  simp only [Phys.table] at hQ
  by_cases hp : present ((s.mem r).word 4 (4 * (va / 4096 / 1024))) = true
  · rw [if_pos hp] at hQ ⊢
    exact hQ
  · rw [if_neg hp] at hQ ⊢
    exact hQ

theorem restore_hand (hx : x ∉ ρ.hand) : { ρ with hand := insert x ρ.hand \ {x} } = ρ := by
  rw [Set.insert_sdiff_self_of_notMem hx]

theorem Inv.notMem_hand (h : Inv K s ρ ω) {a : Place ι κ} (hx : ω x = some a) (ha : a ≠ .hand) : x ∉ ρ.hand := by
  intro hmem
  rw [(h.place x .hand).mp hmem] at hx
  exact ha (Option.some.inj hx).symm

/-- A new page table, as the plan has it. -/
theorem Walked.sees (hw : Walked s s' ρ g (i / 1024)) (hr : ρ.dir g = some r) (hP : Sees s r P)
    (hans : s'.answers = s.answers) :
    Sees s' r { P with entry := fun j => if j / 1024 = i / 1024 then some 0 else P.entry j } where
  ask := hP.ask.trans hans.symm
  entry j hj := by
    by_cases hd : j / 1024 = i / 1024
    · simp only [if_pos hd]
      exact (hw.fresh r j hr hd).symm
    · simp only [if_neg hd]
      exact (hP.entry j hj).trans (hw.other g r j hr hj (.inr hd)).symm

theorem wp_walkpgdir {Q : Option (ℕ × ℕ) → Phys → Prop} (h : Inv K s ρ ω) (hr : ρ.dir g = some r)
    (hP : Sees s r P) (hi : i < 2 ^ 20)
    (hnone : ∀ (s' : Phys) (P' : Plan), P.walk i = (false, P') → After K ρ g r s ω s' ω P' → Q none s')
    (hsome : ∀ (t : ℕ) (s' : Phys) (ω' : ℕ → Option (Place ι κ)) (P' : Plan), P.walk i = (true, P') →
      After K ρ g r s ω s' ω' P' → s'.table r (i / 1024) = some t →
      (∀ y ∈ ρ.hand, s'.mem y = s.mem y) → Q (some (t, 4 * (i % 1024))) s') :
    wp E (walkpgdir r (i * PGSIZE) true) Q s := by
  have hd : i / 1024 < 1024 := by omega
  unfold walkpgdir
  simp only [load, wp_bind, wp_get, wp_pure, PDX_page hi, PTX_page]
  by_cases hp : present ((s.mem r).word 4 (4 * (i / 1024))) = true
  · have htable : s.table r (i / 1024) = some (frame ((s.mem r).word 4 (4 * (i / 1024)))) := if_pos hp
    have hwalk : P.walk i = (true, P) := by
      have hentry := hP.entry i hi
      rw [Phys.entry, htable] at hentry
      simp [Plan.walk, hentry]
    rw [if_pos hp]
    exact hsome _ s ω P hwalk (.refl h hP) htable fun _ _ => rfl
  · have htable : s.table r (i / 1024) = none := if_neg hp
    have hentry : P.entry i = none := by
      rw [hP.entry i hi, Phys.entry, htable]
      rfl
    rw [if_neg hp, if_neg (by simp)]
    refine wp_bind.mpr (wp_kalloc h (fun s' hans h' ha => ?_) fun x s' hans hx h' ha => ?_)
    · rw [← hP.ask] at hans
      refine hnone s' { P.next with lost := P.lost + 1 } (by simp [Plan.walk, hentry, hans])
        ⟨h', .refl ω, others_of_mem ha.mem, fun y g' i' _ hy => ⟨hy, congrFun ha.mem y⟩, ?_⟩
      exact ⟨(hP.asked ha).ask, (hP.asked ha).entry⟩
    · rw [← hP.ask] at hans
      obtain ⟨hw, hpw, hfw⟩ := pde_word (managed_lt (h.managed x _ hx))
      have hnot : x ∉ ρ.hand := h.notMem_hand hx (by simp)
      -- the new page is filled with zeros
      have hsame := h'.setPage_hand (.inl rfl) fun _ => 0
      have hzero := h'.same hsame rfl
      have hold : SameSpaces s (s'.setPage x fun _ => 0) ρ :=
        (sameSpaces_of_mem ha.mem).trans ⟨hsame.table, hsame.entry⟩
      -- and becomes a page table
      obtain ⟨h'', hwalked, ht⟩ := hzero.attach hr hd ((hold.table g r _ hr hd).trans htable)
        (by rw [hfw]; exact .inl rfl) (by rw [hfw]; simp) hw hpw
      rw [hfw] at h'' ht
      simp only [memset, store, wp_bind, wp_modify, wp_pure]
      have hsees : Sees (s'.setPage x fun _ => 0) r P.next :=
        SameSpaces.sees (ρ := { ρ with hand := insert x ρ.hand }) hsame hr rfl (hP.asked ha)
      have hwalk : P.walk i = (true, { P.next with
          entry := fun j => if j / 1024 = i / 1024 then some 0 else P.entry j }) := by
        simp [Plan.walk, hentry, hans]
      -- only the new table and the directory have been written to
      have hmem : ∀ y, y ≠ x → (s'.setPage x fun _ => 0).mem y = s.mem y := fun y hy =>
        (update_of_ne hy _ _).trans (congrFun ha.mem y)
      have hdir := h.dir_place hr
      have hrx : r ≠ x := by
        rintro rfl
        rw [hdir] at hx
        cases hx
      refine hsome x _ _ _ hwalk ⟨restore_hand hnot ▸ h'', ?_, ?_, ?_, ?_⟩ ht fun y hy => ?_
      · exact (kept_update (by simp [hx])).trans (kept_update (by simp))
      · exact hold.others.trans fun g' r' j hr' hj hne => hwalked.other g' r' j hr' hj (.inl hne)
      · refine Steady.trans (steady_update (by simp [hx]) hmem) (Steady.trans (steady_setPage ?_)
          (steady_update (by simp) fun _ _ => rfl))
        simp [update_of_ne hrx, hdir]
      · exact hwalked.sees hr hsees rfl
      · have hyr : y ≠ r := by
          rintro rfl
          exact h.notMem_hand hdir (by simp) hy
        have hyx : y ≠ x := by
          rintro rfl
          exact hnot hy
        exact (update_of_ne hyr _ _).trans (hmem y hyx)

/-! ## `mappages` -/

/-- Page tables are no user pages. -/
theorem Inv.steady_setEntry {t o : ℕ} (h : Inv K s ρ ω) (hr : ρ.dir g = some r) (hi : i < 2 ^ 20)
    (ht : s.table r (i / 1024) = some t) : Steady A s (s.setEntry t o w) ω ω := by
  have hplace := h.table_place hr (by omega) ht
  exact steady_setPage (by simp [hplace])

/-- The entry for page `i` is stored. -/
theorem After.store {s₁ : Phys} {ω₁ ω₂ : ℕ → Option (Place ι κ)} {t : ℕ} {ρ' : Roots ι κ}
    (h : After K ρ g r s ω s₁ ω₁ P) (hρ : ρ'.dir = ρ.dir) (hr : ρ.dir g = some r) (hi : i < 2 ^ 20)
    (ht : s₁.table r (i / 1024) = some t) (hw : w < 2 ^ 32)
    (hinv : Inv K (s₁.setEntry t (4 * (i % 1024)) w) ρ' ω₂) (hkept : Kept ω₁ ω₂)
    (hpage : ∀ y g' j, ω₁ y = some (.page g' j) → ω₂ y = some (.page g' j)) :
    After K ρ' g r s ω (s₁.setEntry t (4 * (i % 1024)) w) ω₂ (P.set i w) where
  inv := hinv
  kept := h.kept.trans hkept
  steady := by
    have hset : Steady (fun _ => True) s₁ (s₁.setEntry t (4 * (i % 1024)) w) ω₁ ω₁ :=
      h.inv.steady_setEntry hr hi ht
    exact h.steady.trans fun y g' j hg' hy => ⟨hpage y g' j hy, (hset y g' j hg' hy).2⟩
  others g' r' j hr' hj hne := by
    rw [hρ] at hr'
    rw [h.inv.entry_setEntry_ne hr hi ht hr' hj (.inl hne)]
    exact h.others g' r' j hr' hj hne
  sees := by
    refine ⟨h.sees.ask, fun j hj => ?_⟩
    rcases eq_or_ne j i with rfl | hji
    · exact (update_self ..).trans (h.inv.entry_setEntry_self hr hj ht hw).symm
    · rw [h.inv.entry_setEntry_ne hr hi ht hr hj (.inr hji)]
      exact (update_of_ne hji _ _).trans (h.sees.entry j hj)

/-- One round of the loop of `mappages`. -/
theorem wp_mapStep {rest : VM Bool} (h : Inv K s ρ ω)
    (hr : ρ.dir g = some r) (hP : Sees s r P) (hi : i < 2 ^ 20) (hE : E (.panic "remap") ∨ P.Blank i)
    (hnone : ∀ (s' : Phys) (P' : Plan), P.walk i = (false, P') → After K ρ g r s ω s' ω P' → Q false s')
    (hsome : ∀ (t : ℕ) (s' : Phys) (ω' : ℕ → Option (Place ι κ)) (P' : Plan), P.walk i = (true, P') →
      After K ρ g r s ω s' ω' P' → s'.table r (i / 1024) = some t → s'.mapped r i = none →
      (∀ y ∈ ρ.hand, s'.mem y = s.mem y) → wp E rest Q (s'.setEntry t (4 * (i % 1024)) w)) :
    wp E (do
      match ← walkpgdir r (i * PGSIZE) true with
      | none => pure false
      | some pte =>
        if present (← load pte) then throw (.panic "remap")
        else do
          store pte w
          rest) Q s := by
  refine wp_bind.mpr (wp_walkpgdir h hr hP hi hnone fun t s' ω' P' hwalk h' ht hhand => ?_)
  have hentry : s'.entry r i = some ((s'.mem t).word 4 (4 * (i % 1024))) := by
    rw [Phys.entry, ht]
    rfl
  simp only [load, wp_bind, wp_get, wp_pure]
  by_cases hp : present ((s'.mem t).word 4 (4 * (i % 1024))) = true
  · rw [if_pos hp]
    refine hE.resolve_right fun hblank => ?_
    have hblank' : P'.Blank i := by
      have := hblank.walk (i := i)
      rwa [hwalk] at this
    have := hblank' _ ((h'.sees.entry i hi).trans hentry)
    simp [hp] at this
  · rw [if_neg hp]
    simp only [store, wp_bind, wp_modify]
    refine hsome t s' ω' P' hwalk h' ht ?_ hhand
    rw [Phys.mapped, hentry]
    simp [hp]

theorem pte_eq : pte x perm = x * PGSIZE ||| (perm ||| PTE_P) := Nat.or_assoc _ _ _

theorem perm_lt (hperm : perm < 4096) : perm ||| PTE_P < 4096 :=
  Nat.or_lt_two_pow (n := 12) hperm (by decide)

theorem frame_pte (hperm : perm < 4096) : frame (pte x perm) = x := by
  rw [pte_eq, frame_entry (perm_lt hperm)]

theorem flags_pte (hperm : perm < 4096) : flags (pte x perm) = perm ||| PTE_P := by
  have hx : x * PGSIZE % 2 ^ 12 = 0 := Nat.mul_mod_left x _
  rw [pte_eq, flags, Nat.or_mod_two_pow, hx, Nat.zero_or, Nat.mod_eq_of_lt (perm_lt hperm)]

theorem testBit_pte (hi : i < 12) : (pte x perm).testBit i = (perm ||| PTE_P).testBit i := by
  rw [pte_eq, testBit_entry hi]

theorem present_pte : present (pte x perm) = true := by
  rw [present, testBit_pte (by decide), Nat.testBit_or]
  simp

theorem pte_word (hx : x < 2 ^ 20) (hperm : perm < 4096) :
    pte x perm < 2 ^ 32 ∧ present (pte x perm) = true ∧ frame (pte x perm) = x ∧
      user (pte x perm) = perm.testBit 2 := by
  refine ⟨?_, present_pte, frame_pte hperm, ?_⟩
  · rw [pte_eq]
    exact entry_lt hx (perm_lt hperm)
  · rw [user, testBit_pte (by decide), Nat.testBit_or]
    exact Bool.or_false _

/-- `mappages` for one page runs its loop once. -/
theorem mappages_page (hi : i < 2 ^ 20) :
    mappages r (i * PGSIZE) PGSIZE (x * PGSIZE) perm = (do
      match ← walkpgdir r (i * PGSIZE) true with
      | none => pure false
      | some p =>
        if present (← load p) then throw (.panic "remap")
        else do
          store p (pte x perm)
          pure true) := by
  have hlast : PGROUNDDOWN (uint (i * PGSIZE + PGSIZE + 2 ^ 32 - 1)) = i * PGSIZE := by
    simp only [PGROUNDDOWN, uint, PGSIZE]
    omega
  have hfirst : PGROUNDDOWN (i * PGSIZE) = i * PGSIZE := by
    simp only [PGROUNDDOWN, PGSIZE]
    omega
  have hfuel : 2 ^ 20 = 1048575 + 1 := by decide
  unfold mappages
  rw [hlast, hfirst, hfuel, mappagesFrom]
  simp only [if_true]
  rfl

theorem wp_mappages (h : Inv K s ρ ω) (hr : ρ.dir g = some r)
    (hP : Sees s r P) (hi : i < 2 ^ 19) (hx : x ∈ ρ.hand) (hperm : perm < 4096)
    (hE : E (.panic "remap") ∨ P.Blank i)
    (hnone : ∀ (s' : Phys) (P' : Plan), P.map i (pte x perm) = (false, P') →
      After K ρ g r s ω s' ω P' → Q false s')
    (hsome : ∀ (s' : Phys) (ω' : ℕ → Option (Place ι κ)) (P' : Plan), P.map i (pte x perm) = (true, P') →
      After K { ρ with hand := ρ.hand \ {x} } g r s ω s' ω' P' → s'.mem x = s.mem x → Q true s') :
    wp E (mappages r (i * PGSIZE) PGSIZE (x * PGSIZE) perm) Q s := by
  obtain ⟨hw, hp, hframe, -⟩ :=
    pte_word (managed_lt (h.managed x _ ((h.place x .hand).mp hx))) hperm
  have hi' : i < 2 ^ 20 := by omega
  rw [mappages_page hi']
  refine wp_mapStep h hr hP hi' hE (fun s' P' hwalk h' => hnone s' P' ?_ h')
    fun t s' ω' P' hwalk h' ht hfree hhand => ?_
  · simp [Plan.map, hwalk]
  · have hmap := h'.inv.map hr hi ht hfree (by rwa [hframe]) hw hp
    rw [hframe] at hmap
    have hx' : ω' x = some .hand := (h'.inv.place x .hand).mp hx
    have hxt : x ≠ t := by
      rintro rfl
      rw [h'.inv.table_place hr (by omega) ht] at hx'
      cases hx'
    refine hsome _ _ (P'.set i (pte x perm)) (by simp [Plan.map, hwalk])
      (h'.store rfl hr hi' ht hw hmap (kept_update (by simp [hx'])) fun y g' j hy => ?_) ?_
    · have hyx : y ≠ x := by
        rintro rfl
        rw [hx'] at hy
        cases hy
      rwa [update_of_ne hyx]
    · exact (update_of_ne hxt _ _).trans (hhand x hx)

/-! ## `setupkvm` -/

/-- `mappages` for a range of the kernel's part that is not mapped yet. -/
theorem wp_mappagesFrom {last : ℕ} (hr : ρ.dir g = some r)
    (hperm : perm < 4096) (hu : perm.testBit 2 = false) (fuel : ℕ) {n p : ℕ}
    {P : Plan} (h : Inv K s ρ ω) (hP : Sees s r P)
    (hlast : last = (i + n) * PGSIZE) (hi : 2 ^ 19 ≤ i) (hj : i + n < 2 ^ 20) (hp : p + n < 2 ^ 20)
    (hfuel : n < fuel) (hfree : ∀ j, i ≤ j → j ≤ i + n → P.Blank j)
    (hnone : ∀ (s' : Phys) (ω' : ℕ → Option (Place ι κ)) (P' : Plan),
      P.mapRange perm (n + 1) i p = (false, P') → After K ρ g r s ω s' ω' P' → Q false s')
    (hsome : ∀ (s' : Phys) (ω' : ℕ → Option (Place ι κ)) (P' : Plan),
      P.mapRange perm (n + 1) i p = (true, P') → After K ρ g r s ω s' ω' P' → Q true s') :
    wp E (mappagesFrom r last perm fuel (i * PGSIZE) (p * PGSIZE)) Q s := by
  induction fuel generalizing n i p s ω P with
  | zero => omega
  | succ fuel ih =>
    have hi' : i < 2 ^ 20 := by omega
    obtain ⟨hw, -, -, huser⟩ := pte_word (x := p) (by omega) hperm
    rw [mappagesFrom]
    refine wp_mapStep h hr hP hi' (.inr (hfree i le_rfl (by omega)))
      (fun s' P' hwalk h' => hnone s' ω P' ?_ h') fun t s' ω' P' hwalk h' ht hnomap _ => ?_
    · simp [Plan.mapRange, Plan.map, hwalk]
    · have hmap : P.map i (pte p perm) = (true, P'.set i (pte p perm)) := by simp [Plan.map, hwalk]
      have hstep := h'.store rfl hr hi' ht hw
        (h'.inv.reflag hr hi' ht hw (fun _ => huser.trans hu) fun hlt => absurd hlt (by omega)) (.refl ω')
        fun _ _ _ hy => hy
      cases n with
      | zero =>
        rw [if_pos (by simp [hlast])]
        exact hsome _ ω' (P'.set i (pte p perm)) (by simp [Plan.mapRange, hmap]) hstep
      | succ n =>
        have hnext : uint (i * PGSIZE + PGSIZE) = (i + 1) * PGSIZE := by
          simp only [uint, PGSIZE]
          omega
        have hnext' : uint (p * PGSIZE + PGSIZE) = (p + 1) * PGSIZE := by
          simp only [uint, PGSIZE]
          omega
        have hrange : P.mapRange perm (n + 1 + 1) i p =
            (P'.set i (pte p perm)).mapRange perm (n + 1) (i + 1) (p + 1) := by
          rw [Plan.mapRange, hmap, Plan.andThen_true]
        have hmore : i * PGSIZE ≠ last := by
          intro heq
          have := Nat.eq_of_mul_eq_mul_right (by decide) (heq.trans hlast)
          omega
        rw [if_neg hmore, hnext, hnext']
        rw [hrange] at hnone hsome
        refine ih hstep.inv hstep.sees (by rw [hlast, Nat.add_right_comm, Nat.add_assoc])
          (by omega) (by omega) (by omega) (by omega) (fun j hlo hhi => ?_) (fun s'' ω'' P'' heq h'' => hnone s'' ω'' P'' heq ?_)
          fun s'' ω'' P'' heq h'' => hsome s'' ω'' P'' heq ?_
        · have := (hfree j (by omega) (by omega)).map (i := i) (w := pte p perm) (by omega)
          rwa [hmap] at this
        · exact hstep.trans h''
        · exact hstep.trans h''

/-- A mapping of whole pages of the kernel's part, from page `b` on, and not for users. -/
structure Kmap.Good (b : ℕ) (k : Kmap) : Prop where
  virt : k.virt = k.first * PGSIZE
  size : uint (k.physEnd + 2 ^ 32 - k.physStart) = k.pages * PGSIZE
  phys : k.physStart = k.physStart / PGSIZE * PGSIZE
  le : b ≤ k.first
  pos : 0 < k.pages
  fits : k.first + k.pages ≤ 2 ^ 20
  phys_fits : k.physStart / PGSIZE + k.pages ≤ 2 ^ 20
  perm : k.perm < 4096
  user : k.perm.testBit 2 = false

/-- Each mapping lies behind the one before. -/
def Ascending : ℕ → List Kmap → Prop
  | _, [] => True
  | b, k :: ks => k.Good b ∧ Ascending (k.first + k.pages) ks

theorem wp_mapKernel {Q : Option ℕ → Phys → Prop} (hr : ρ.dir g = some r) (ks : List Kmap) {b : ℕ}
    {ω : ℕ → Option (Place ι κ)} (h : Inv K s ρ ω) (hP : Sees s r P)
    (hks : Ascending b ks) (hb : 2 ^ 19 ≤ b) (hfree : ∀ i, b ≤ i → i < 2 ^ 20 → P.Blank i)
    (hnone : ∀ (s' : Phys) (ω' : ℕ → Option (Place ι κ)) (P' : Plan), P.mapKernel ks = (false, P') →
      After K ρ g r s ω s' ω' P' → (∀ i < 2 ^ 19, P'.entry i = P.entry i) → Q none s')
    (hsome : ∀ (s' : Phys) (ω' : ℕ → Option (Place ι κ)) (P' : Plan), P.mapKernel ks = (true, P') →
      After K ρ g r s ω s' ω' P' → (∀ i < 2 ^ 19, P'.entry i = P.entry i) → Q (some r) s') :
    wp E (mapKernel r ks) Q s := by
  induction ks generalizing b s ω P with
  | nil => exact hsome s ω P rfl (.refl h hP) fun _ _ => rfl
  | cons k ks ih =>
    obtain ⟨hk, hks⟩ := hks
    have hfits := hk.fits
    have hphys := hk.phys_fits
    have hle := hk.le
    obtain ⟨n, hn⟩ : ∃ n, k.pages = n + 1 := ⟨k.pages - 1, by have := hk.pos; omega⟩
    have hfirst : PGROUNDDOWN (k.first * PGSIZE) = k.first * PGSIZE := by
      simp only [PGROUNDDOWN, PGSIZE]
      omega
    have hlast : PGROUNDDOWN (uint (k.first * PGSIZE + k.pages * PGSIZE + 2 ^ 32 - 1)) =
        (k.first + n) * PGSIZE := by
      rw [hn] at hfits ⊢
      simp only [PGROUNDDOWN, uint, PGSIZE]
      omega
    have hlow : ∀ {b P'}, P.mapRange k.perm (n + 1) k.first (k.physStart / PGSIZE) = (b, P') →
        ∀ i < 2 ^ 19, P'.entry i = P.entry i := by
      intro b P' heq i hi
      have := @Plan.mapRange_low P k.first i k.perm (n + 1) (k.physStart / PGSIZE) (hb.trans hle) hi
      rwa [heq] at this
    rw [mapKernel, mappages, hk.size, hk.virt, hfirst, hlast, hk.phys]
    rw [Plan.mapKernel, hn] at hnone hsome
    refine wp_bind.mpr (wp_mappagesFrom hr hk.perm hk.user _ h hP rfl (by omega) (by omega) (by omega)
      (by omega) (fun j hlo hhi => hfree j (by omega) (by omega)) (fun s' ω' P' heq h' => ?_)
      fun s' ω' P' heq h' => ?_)
    · rw [heq, Plan.andThen_false] at hnone
      exact hnone s' ω' P' rfl h' (hlow heq)
    · rw [heq, Plan.andThen_true] at hnone hsome
      refine ih h'.inv h'.sees hks (by omega) (fun i hi hi' => ?_)
        (fun s'' ω'' P'' heq' h'' hlow' => hnone s'' ω'' P'' heq' (h'.trans h'') fun i hi => ?_)
        fun s'' ω'' P'' heq' h'' hlow' => hsome s'' ω'' P'' heq' (h'.trans h'') fun i hi => ?_
      · have := @Plan.Blank.mapRange P k.first i k.perm (n + 1) (k.physStart / PGSIZE)
          (hfree i (by omega) hi') (.inr (by omega))
        rwa [heq] at this
      · exact (hlow' i hi).trans (hlow heq i hi)
      · exact (hlow' i hi).trans (hlow heq i hi)

theorem ascending_kmap : Ascending (2 ^ 19) (kmap K) := by
  have haligned := K.data_aligned
  have hlt := K.lt_data
  have hle := K.data_le
  have htop := K.top_lt
  simp only [PGSIZE, EXTMEM, PHYSTOP] at haligned hlt htop
  have hgood : ∀ b k, (k : Kmap).virt % 4096 = 0 → k.physStart % 4096 = 0 →
      uint (k.physEnd + 2 ^ 32 - k.physStart) % 4096 = 0 →
      0 < uint (k.physEnd + 2 ^ 32 - k.physStart) → b ≤ k.virt / PGSIZE →
      k.virt + uint (k.physEnd + 2 ^ 32 - k.physStart) ≤ 2 ^ 32 →
      k.physStart + uint (k.physEnd + 2 ^ 32 - k.physStart) ≤ 2 ^ 32 →
      k.perm = 0 ∨ k.perm = 2 → k.Good b := by
    intro b k hv hps hsz hpos hle' hfits hpf hperm
    refine ⟨?_, ?_, ?_, hle', ?_, ?_, ?_, ?_, ?_⟩
    · simp only [Kmap.first, PGSIZE]
      omega
    · simp only [Kmap.pages, PGSIZE]
      omega
    · simp only [PGSIZE]
      omega
    · simp only [Kmap.pages, PGSIZE]
      omega
    · simp only [Kmap.first, Kmap.pages, PGSIZE]
      omega
    · simp only [Kmap.pages, PGSIZE]
      omega
    · omega
    · rcases hperm with hp | hp <;> rw [hp] <;> rfl
  simp only [kmap, Ascending, and_true]
  refine ⟨hgood _ _ ?_ ?_ ?_ ?_ ?_ ?_ ?_ (.inr rfl), hgood _ _ ?_ ?_ ?_ ?_ ?_ ?_ ?_ (.inl rfl),
    hgood _ _ ?_ ?_ ?_ ?_ ?_ ?_ ?_ (.inr rfl), hgood _ _ ?_ ?_ ?_ ?_ ?_ ?_ ?_ (.inr rfl)⟩ <;>
    simp only [Kmap.first, Kmap.pages, uint, PGSIZE, EXTMEM, PHYSTOP, KERNBASE, KERNLINK, DEVSPACE] <;> omega

section

variable [DecidableEq ι]

open Classical in
/-- A directory is left behind, with its tables. -/
theorem Inv.abandon (h : Inv K s ρ ω) (hr : ρ.dir g = some r)
    (hfree : ∀ i < 2 ^ 19, s.mapped r i = none) :
    ∃ ω', Inv K s { ρ with dir := update ρ.dir g none } ω' ∧ Loses {r} ω ω' ∧
      Steady A s s ω ω' := by
  have hloose := h.dismantle hr hfree
  have hforget := hloose.forget (D := insert r (s.tables r)) fun x hx =>
    hx.imp_right fun hx => .inl hx
  -- what is left are the pages that were in variables before
  have hhand : insert r (s.tables r ∪ ρ.hand) \ insert r (s.tables r) = ρ.hand := by
    ext x
    simp only [Set.mem_sdiff, Set.mem_insert_iff, Set.mem_union]
    constructor
    · tauto
    · intro hx
      refine ⟨.inr (.inr hx), ?_⟩
      have hplace := (h.place x .hand).mp hx
      rintro (rfl | ⟨d, hd, ht⟩)
      · rw [h.dir_place hr] at hplace
        cases hplace
      · rw [h.table_place hr hd ht] at hplace
        cases hplace
  rw [hhand] at hforget
  refine ⟨_, hforget, ⟨fun x hx => ?_, r, rfl, ?_, ?_⟩, fun x g' i _ hx => ⟨?_, rfl⟩⟩
  · simp [hx]
  · simp [h.dir_place hr]
  · simp
  · -- user pages are neither directories nor tables
    have hnot : x ∉ insert r (s.tables r) := by
      rintro (rfl | ⟨d, hd, ht⟩)
      · rw [h.dir_place hr] at hx
        cases hx
      · rw [h.table_place hr hd ht] at hx
        cases hx
    simp [hnot, hx, Place.loosen]

theorem update_none {f : ι → Option ℕ} (hg : f g = none) : update f g none = f :=
  hg ▸ update_eq_self g f

theorem wp_setupkvm {Q : Option ℕ → Phys → Prop} (h : Inv K s ρ ω) (hg : ρ.dir g = none)
    (hask : P.ask = s.answers)
    (hnone : ∀ (s' : Phys) (ω' : ℕ → Option (Place ι κ)) (P' : Plan), P.setup K = (false, P') →
      Changed K ρ g s ω P s' ω' P' → Q none s')
    (hsome : ∀ (r : ℕ) (s' : Phys) (ω' : ℕ → Option (Place ι κ)) (P' : Plan), P.setup K = (true, P') →
      s.answers 0 = some r → After K { ρ with dir := update ρ.dir g (some r) } g r s ω s' ω' P' →
      P.Later P' → P'.lost = P.lost → (∀ i < 2 ^ 19, P'.entry i = none) → Q (some r) s') :
    wp E (setupkvm K) Q s := by
  unfold setupkvm
  refine wp_bind.mpr (wp_kalloc h (fun s' hans h' ha => ?_) fun r s' hans hx h' ha => ?_)
  · rw [← hask] at hans
    exact hnone s' ω P.next (by simp [Plan.setup, hans])
      ⟨h', (Kept.refl ω).track Plan.later_next rfl, others_of_mem ha.mem,
        fun y g' i _ hy => ⟨hy, congrFun ha.mem y⟩⟩
  · have hans' : P.ask 0 = some r := hask ▸ hans
    -- the new page becomes a page directory
    have hsame := h'.setPage_hand (x := r) (.inl rfl) fun _ => 0
    have hzero : (s'.setPage r fun _ => 0).mem r = fun _ => 0 := by simp
    have hdir := (h'.same hsame rfl).newDir hg (.inl rfl) hzero
    have hnot : r ∉ ρ.hand := h.notMem_hand hx (by simp)
    simp only [Set.insert_sdiff_self_of_notMem hnot] at hdir
    have hkept : Kept ω (update (update ω r (some .hand)) r (some (.dir g))) :=
      (kept_update (by simp [hx])).trans (kept_update (by simp))
    have hself : update ρ.dir g (some r) g = some r := update_self ..
    have hothers : Others s (s'.setPage r fun _ => 0)
        { ρ with dir := update ρ.dir g (some r) } g := by
      intro g' r' i hr' hi hne
      have hr'' : ρ.dir g' = some r' := (update_of_ne hne _ _).symm.trans hr'
      rw [hsame.entry g' r' i hr'' hi]
      exact entry_of_mem ha.mem
    have hsteady : Steady (fun _ => True) s (s'.setPage r fun _ => 0) ω
        (update (update ω r (some .hand)) r (some (.dir g))) := by
      rw [update_idem]
      exact steady_update (by simp [hx]) fun y hy =>
        (update_of_ne hy _ _).trans (congrFun ha.mem y)
    simp only [memset, wp_bind, wp_modify]
    rw [if_neg (by decide)]
    have hsees : Sees (s'.setPage r fun _ => 0) r { P.next with entry := fun _ => none } := by
      refine ⟨?_, fun i _ => (entry_zero hzero).symm⟩
      exact (congrArg (fun a : ℕ → Option ℕ => fun i => a (i + 1)) hask).trans ha.answers.symm
    have hcount := @Plan.mapKernel_lost { P.next with entry := fun _ => none } (kmap K)
    have hlater : P.Later (Plan.mapKernel (kmap K) { P.next with entry := fun _ => none }).2 :=
      Plan.later_next.trans Plan.mapKernel_later
    have hsupply : {r} ⊆ P.supply := by
      rintro _ rfl
      exact ⟨0, hans'⟩
    refine wp_mapKernel (g := g) hself (kmap K) hdir hsees ascending_kmap le_rfl
      (fun i _ _ _ h => by cases h) (fun s₂ ω₂ P₂ heq h₂ hlow => ?_) fun s₂ ω₂ P₂ heq h₂ hlow => ?_
    · obtain ⟨ω₃, h₃, hlost, hsteady'⟩ := h₂.inv.abandon (A := fun _ => True) hself fun i hi => by
        rw [Phys.mapped, ← h₂.sees.entry i (by omega), hlow i hi]
        rfl
      simp only [update_idem, update_none hg] at h₃
      refine hnone s₂ ω₃ P₂ (by simp [Plan.setup, hans', heq]) ⟨h₃, ?_, ?_, ?_⟩
      · rw [heq] at hcount hlater
        exact ((hkept.trans h₂.kept).loses (hlost.mono hsupply)).track hlater hcount
      · exact (hothers.trans h₂.others).congr fun g' hne => (update_of_ne hne _ _).symm
      · exact ((hsteady.trans h₂.steady).trans hsteady').mono fun _ _ => trivial
    · refine hsome r s₂ ω₂ P₂ (by simp [Plan.setup, hans', heq]) hans
        ⟨h₂.inv, hkept.trans h₂.kept, hothers.trans h₂.others, hsteady.trans h₂.steady, h₂.sees⟩ ?_ ?_ hlow
      · rwa [heq] at hlater
      · rwa [heq] at hcount

end

end

end

end Xv6.Vm
