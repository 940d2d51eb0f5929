import Xv6.Vm.Rules

/-!
# Rules for the user part of an address space

`deallocuvm`, `freevm`, `allocuvm`, `copyuvm` and `clearpteu`.
-/

namespace Xv6.Vm

open Lib Exec
open Function (update update_self update_of_ne update_idem update_comm)

section

variable {ι κ : Type} {K : Image} {E : Fault → Prop} {s : Phys} {ρ : Roots ι κ}
  {ω : ℕ → Option (Place ι κ)} {g : ι} {r : ℕ} {P : Plan} {i w j oldsz newsz d : ℕ} {Q : PUnit → Phys → Prop}

/-! ## `deallocuvm` -/

/-- The pages `V` of `g` have been unmapped and freed, and all else is as it was. -/
structure Unmaps (V : ℕ → Prop) (s s' : Phys) (ω ω' : ℕ → Option (Place ι κ)) (ρ : Roots ι κ) (g : ι) :
    Prop where
  gone : ∀ r i, ρ.dir g = some r → i < 2 ^ 20 → V i → s'.mapped r i = none
  entry : ∀ r i, ρ.dir g = some r → i < 2 ^ 20 → ¬V i → s'.entry r i = s.entry r i
  table : ∀ g' r d, ρ.dir g' = some r → d < 1024 → s'.table r d = s.table r d
  others : Others s s' ρ g
  freed : ∀ x i, ω x = some (.page g i) → V i → ω' x = some .free
  place : ∀ x, (∀ i, ω x = some (.page g i) → ¬V i) → ω' x = ω x
  mem : ∀ x g' i, ω x = some (.page g' i) → (g' = g → ¬V i) → s'.mem x = s.mem x

section

variable {V V' : ℕ → Prop} {s' s'' : Phys} {ω' ω'' : ℕ → Option (Place ι κ)}

theorem unmaps_nothing (hV : ∀ i, ¬V i) : Unmaps V s s ω ω ρ g where
  gone _ i _ _ hi := absurd hi (hV i)
  entry _ _ _ _ _ := rfl
  table _ _ _ _ _ := rfl
  others := .refl
  freed _ i _ hi := absurd hi (hV i)
  place _ _ := rfl
  mem _ _ _ _ _ := rfl

/-- A page that stays is where it was. -/
theorem Unmaps.page (h : Unmaps V s s' ω ω' ρ g) {x : ℕ} {g' : ι} (hx : ω x = some (.page g' i))
    (hi : g' = g → ¬V i) : ω' x = some (.page g' i) := by
  refine (h.place x fun j hj => ?_).trans hx
  obtain ⟨rfl, rfl⟩ := Place.page.inj (Option.some.inj (hx.symm.trans hj))
  exact hi rfl

theorem Unmaps.trans (h : Unmaps V s s' ω ω' ρ g) (h' : Unmaps V' s' s'' ω' ω'' ρ g) :
    Unmaps (fun i => V i ∨ V' i) s s'' ω ω'' ρ g where
  gone r i hr hi hor := by
    by_cases hV' : V' i
    · exact h'.gone r i hr hi hV'
    · rw [Phys.mapped, h'.entry r i hr hi hV']
      exact h.gone r i hr hi (hor.resolve_right hV')
  entry r i hr hi hnot := by
    rw [not_or] at hnot
    rw [h'.entry r i hr hi hnot.2, h.entry r i hr hi hnot.1]
  table g' r d hr hd := (h'.table g' r d hr hd).trans (h.table g' r d hr hd)
  others := h.others.trans h'.others
  freed x i hx hor := by
    by_cases hV : V i
    · -- a page that is free stays free
      have hfree := h.freed x i hx hV
      exact (h'.place x fun j hj => absurd (hfree.symm.trans hj) (by simp)).trans hfree
    · exact h'.freed x i (h.page hx fun _ => hV) (hor.resolve_left hV)
  place x hx := by
    have hx' := h.place x fun i hi hV => hx i hi (.inl hV)
    exact (h'.place x fun i hi hV => hx i (hx' ▸ hi) (.inr hV)).trans hx'
  mem x g' i hx hi := by
    have hV : g' = g → ¬V i := fun hg hV => hi hg (.inl hV)
    exact (h'.mem x g' i (h.page hx hV) fun hg hV' => hi hg (.inr hV')).trans (h.mem x g' i hx hV)

/-- Pages that were not mapped count as unmapped. -/
theorem Unmaps.extend (h : Unmaps V s s' ω ω' ρ g) (hinv : Inv K s ρ ω) (hr : ρ.dir g = some r)
    (hsub : ∀ i, V i → V' i) (hnone : ∀ i < 2 ^ 20, V' i → ¬V i → s.mapped r i = none) :
    Unmaps V' s s' ω ω' ρ g where
  gone r' i hr' hi hV' := by
    obtain rfl := Option.some.inj (hr.symm.trans hr')
    by_cases hV : V i
    · exact h.gone r i hr hi hV
    · rw [Phys.mapped, h.entry r i hr hi hV]
      exact hnone i hi hV' hV
  entry r' i hr' hi hnot := h.entry r' i hr' hi fun hV => hnot (hsub i hV)
  table := h.table
  others := h.others
  freed x i hx hV' := by
    refine h.freed x i hx (by_contra fun hV => ?_)
    obtain ⟨hi, r', hr', hx⟩ := (hinv.place x (.page g i)).mpr hx
    obtain rfl := Option.some.inj (hr.symm.trans hr')
    rw [hnone i (by omega) hV' hV] at hx
    cases hx
  place x hx := h.place x fun i hi hV => hx i hi (hsub i hV)
  mem x g' i hx hi := h.mem x g' i hx fun hg hV => hi hg (hsub i hV)

theorem Unmaps.kept (h : Unmaps V s s' ω ω' ρ g) : Kept ω ω' := by
  intro x
  by_cases hx : ∃ i, ω x = some (.page g i) ∧ V i
  · obtain ⟨i, hx, hV⟩ := hx
    simp [h.freed x i hx hV, hx]
  · rw [h.place x fun i hi hV => hx ⟨i, hi, hV⟩]

theorem Unmaps.steady (h : Unmaps V s s' ω ω' ρ g) : Steady (· ≠ g) s s' ω ω' := fun x g' i hg' hx =>
  ⟨h.page hx fun hg => absurd hg hg', h.mem x g' i hx fun hg => absurd hg hg'⟩

end

/-- `kfree` of a mapped page, and then `*pte = 0`. -/
theorem wp_unmap {t : ℕ} {rest : VM PUnit} (h : Inv K s ρ ω)
    (hr : ρ.dir g = some r) (hi : i < 2 ^ 19) (ht : s.table r (i / 1024) = some t)
    (hmap : s.mapped r i = some w)
    (hQ : ∀ (s' : Phys) (ω' : ℕ → Option (Place ι κ)), Inv K s' ρ ω' →
      Unmaps (· = i) s s' ω ω' ρ g → wp E rest Q s') :
    wp E (do
      kfree K (frame w)
      store (t, 4 * (i % 1024)) 0
      rest) Q s := by
  have hi' : i < 2 ^ 20 := by omega
  have hx : ω (frame w) = some (.page g i) :=
    (h.place _ (.page g i)).mp ((at_page_iff hr hi).mpr (by rw [hmap]; rfl))
  have hfree : frame w ∉ s.free := by
    intro hmem
    rw [(h.place _ .free).mp hmem] at hx
    cases hx
  have hxt : frame w ≠ t := by
    rintro hxt
    rw [hxt, h.table_place hr (by omega) ht] at hx
    cases hx
  unfold kfree
  rw [if_neg (not_not.mpr (h.managed _ _ hx))]
  simp only [wp_bind, wp_get]
  rw [if_neg hfree]
  simp only [memset, store, wp_bind, wp_modify]
  -- the two writes are to different pages; the entry might as well be cleared first
  have hunmap := h.unmap hr hi ht hmap
  have hnot : frame w ∉ ρ.hand := h.notMem_hand hx (by simp)
  have hsame := hunmap.setPage_hand (x := frame w) (.inl rfl) fun _ => 1
  set s' : Phys := Phys.setPage
    { s.setPage (frame w) fun _ => 1 with free := frame w :: s.free } t
      ((Phys.mem { s.setPage (frame w) fun _ => 1 with free := frame w :: s.free } t).setWord 4
        (4 * (i % 1024)) 0) with hs'
  have hmem : s'.mem = ((s.setEntry t (4 * (i % 1024)) 0).setPage (frame w) fun _ => 1).mem := by
    simp only [hs', Phys.setEntry, Phys.setPage_mem, update_of_ne hxt.symm]
    exact update_comm hxt _ _ _
  have hs : SameSpaces (s.setEntry t (4 * (i % 1024)) 0) s' ρ :=
    SameSpaces.trans ⟨hsame.table, hsame.entry⟩ (sameSpaces_of_mem hmem)
  have hgive := hunmap.give (.inl rfl) ⟨hs.table, hs.entry⟩ (rfl : s'.free = frame w :: s.free)
  have hself : s'.entry r i = some 0 := by
    rw [hs.entry g r i hr hi', h.entry_setEntry_self hr hi' ht (by omega)]
  have hmem' : ∀ y, y ≠ t → y ≠ frame w → s'.mem y = s.mem y := by
    intro y hyt hyw
    rw [hmem]
    exact (update_of_ne hyw _ _).trans (update_of_ne hyt _ _)
  refine hQ s' _ (restore_hand hnot ▸ hgive) ⟨fun r' j hr' hj hji => ?_, fun r' j hr' hj hji => ?_,
    fun g' r' d hr' hd => ?_, fun g' r' j hr' hj hne => ?_, fun x j hx' hji => ?_, fun x hx' => ?_,
    fun x g' j hx' hji => hmem' x ?_ ?_⟩
  · obtain rfl := Option.some.inj (hr.symm.trans hr')
    rw [hji, Phys.mapped, hself]
    rfl
  · rw [hs.entry g r' j hr' hj, h.entry_setEntry_ne hr hi' ht hr' hj (.inr hji)]
  · rw [hs.table g' r' d hr' hd, h.table_setEntry hr (by omega) ht hr']
  · rw [hs.entry g' r' j hr' hj, h.entry_setEntry_ne hr hi' ht hr' hj (.inl hne)]
  · subst hji
    -- only the page that was mapped there is meant
    have hat := (at_page_iff hr hi).mp ((h.place x _).mpr hx')
    rw [hmap] at hat
    rw [← Option.some.inj hat, update_self]
  · have hne : x ≠ frame w := by
      rintro rfl
      exact hx' i hx rfl
    simp [update_of_ne hne]
  · rintro rfl
    rw [h.table_place hr (by omega) ht] at hx'
    cases hx'
  · rintro rfl
    obtain ⟨rfl, rfl⟩ := Place.page.inj (Option.some.inj (hx.symm.trans hx'))
    exact hji rfl rfl

/-- The loop of `deallocuvm` starts at page `j`. As long as it finds no table it goes on with the same
page of the next table, and then it has jumped over the pages before. -/
def Phys.Skips (s : Phys) (r j i : ℕ) : Prop :=
  j / 1024 < i / 1024 ∧ i % 1024 < j % 1024 ∧ ∀ d, j / 1024 ≤ d → d < i / 1024 → s.table r d = none

/-- The pages from page `j` on that the loop of `deallocuvm` does not jump over. -/
def Phys.Visits (s : Phys) (r oldsz j i : ℕ) : Prop := j ≤ i ∧ i * PGSIZE < oldsz ∧ ¬s.Skips r j i

/-- It jumps over nothing if it begins at the first page of a table, or in a table that exists. -/
theorem not_skips (h : j % 1024 = 0 ∨ s.table r (j / 1024) ≠ none) : ¬s.Skips r j i := by
  rintro ⟨hlt, hmod, hnone⟩
  rcases h with h | h
  · omega
  · exact h (hnone _ le_rfl hlt)

theorem visits_iff (h : j % 1024 = 0 ∨ s.table r (j / 1024) ≠ none) :
    s.Visits r oldsz j i ↔ j ≤ i ∧ i * PGSIZE < oldsz := by
  simp only [Phys.Visits, not_skips h, not_false_eq_true, and_true]

theorem visits_congr {s' : Phys} (hold : oldsz ≤ KERNBASE)
    (h : ∀ d < 1024, s'.table r d = s.table r d) : s'.Visits r oldsz j i ↔ s.Visits r oldsz j i := by
  refine and_congr_right fun _ => and_congr_right fun hi => not_congr ?_
  have hlt : i / 1024 < 1024 := by
    simp only [PGSIZE, KERNBASE] at hi hold
    omega
  refine and_congr_right fun _ => and_congr_right fun _ => forall_congr' fun d => ?_
  exact imp_congr_right fun _ => imp_congr_right fun hd => by rw [h d (by omega)]

/-- What the loop does not jump over, when the table of the first page does not exist. -/
theorem visits_step (ht : s.table r (j / 1024) = none) :
    (s.Visits r oldsz (j + 1024) i → s.Visits r oldsz j i) ∧
      (s.Visits r oldsz j i → ¬s.Visits r oldsz (j + 1024) i → s.table r (i / 1024) = none) := by
  have hskip : j / 1024 + 1 < i / 1024 → (s.Skips r (j + 1024) i ↔ s.Skips r j i) := by
    intro hlt
    unfold Phys.Skips
    rw [Nat.add_mod_right, Nat.add_div_right j (by decide)]
    refine and_congr (by omega) (and_congr_right fun _ => ⟨fun h d hd hdi => ?_, fun h d hd => h d (by omega)⟩)
    by_cases hdj : d = j / 1024
    · rw [hdj, ht]
    · exact h d (by omega) hdi
  constructor
  · rintro ⟨hji, hi, hnot⟩
    refine ⟨by omega, hi, fun hs => ?_⟩
    have := hs.2.1
    exact hnot ((hskip (by omega)).mpr hs)
  · rintro ⟨hji, hi, hnot⟩ hvisit
    by_contra htable
    by_cases hij : j + 1024 ≤ i
    · refine hvisit ⟨hij, hi, fun hs => hnot ((hskip ?_).mp hs)⟩
      have := hs.1
      omega
    · by_cases hsame : i / 1024 = j / 1024
      · exact htable (hsame ▸ ht)
      · refine hnot ⟨by omega, by omega, fun d hd hdi => ?_⟩
        rw [show d = j / 1024 by omega, ht]

/-- The loop of `deallocuvm`. -/
theorem wp_deallocuvmFrom (hr : ρ.dir g = some r)
    (hold : oldsz ≤ KERNBASE) (fuel : ℕ)
    (h : Inv K s ρ ω) (hfuel : oldsz ≤ 4096 * (j + fuel))
    (hQ : ∀ (s' : Phys) (ω' : ℕ → Option (Place ι κ)), Inv K s' ρ ω' →
      Unmaps (s.Visits r oldsz j) s s' ω ω' ρ g → Q ⟨⟩ s') :
    wp E (deallocuvmFrom K r oldsz fuel (j * PGSIZE)) Q s := by
  have hend : ∀ {s : Phys} {ω : ℕ → Option (Place ι κ)} {j}, ¬j * PGSIZE < oldsz →
      Unmaps (s.Visits r oldsz j) s s ω ω ρ g := fun {s ω j} hlt => by
    refine unmaps_nothing fun i hi => hlt ?_
    exact lt_of_le_of_lt (Nat.mul_le_mul_right _ hi.1) hi.2.1
  induction fuel generalizing j s ω with
  | zero => exact hQ s ω h (hend (by simp only [PGSIZE]; omega))
  | succ fuel ih =>
    rw [deallocuvmFrom]
    by_cases hlt : j * PGSIZE < oldsz
    · rw [if_pos hlt]
      have hpage : j * PGSIZE / 4096 = j := Nat.mul_div_cancel j (by decide)
      have hj : j < 2 ^ 19 := by
        simp only [PGSIZE, KERNBASE] at hlt hold
        omega
      have hnext : uint (j * PGSIZE + PGSIZE) = (j + 1) * PGSIZE := by
        simp only [uint, PGSIZE]
        omega
      refine wp_bind.mpr (wp_walkpgdir_find (by simp only [PGSIZE]; omega) ?_)
      rw [hpage]
      cases ht : s.table r (j / 1024) with
      | none =>
        have hskip : uint (uint (j * PGSIZE + (NPTENTRIES - 1) * PGSIZE) + PGSIZE) = (j + 1024) * PGSIZE := by
          simp only [uint, PGSIZE, NPTENTRIES]
          omega
        simp only [Option.map_none, hskip]
        refine ih (j := j + 1024) h (by omega) fun s' ω' h' hu => hQ s' ω' h' ?_
        refine hu.extend h hr (fun i => (visits_step ht).1) fun i hi hV hnot => ?_
        rw [Phys.mapped, Phys.entry, (visits_step ht).2 hV hnot]
        rfl
      | some t =>
        have hentry : s.entry r j = some ((s.mem t).word 4 (4 * (j % 1024))) := by
          rw [Phys.entry, ht]
          rfl
        -- the table exists, so that no page is left out from here on
        have hfirst : ∀ i, s.Visits r oldsz j i ↔ i = j ∨ s.Visits r oldsz (j + 1) i := by
          intro i
          have hsucc : (j + 1) % 1024 = 0 ∨ s.table r ((j + 1) / 1024) ≠ none := by
            by_cases hj0 : (j + 1) % 1024 = 0
            · exact .inl hj0
            · right
              rw [show (j + 1) / 1024 = j / 1024 by omega, ht]
              simp
          rw [visits_iff (.inr (by simp [ht])), visits_iff hsucc]
          constructor
          · rintro ⟨hji, hi⟩
            by_cases hij : i = j
            · exact .inl hij
            · exact .inr ⟨by omega, hi⟩
          · rintro (rfl | ⟨hji, hi⟩)
            · exact ⟨le_rfl, hlt⟩
            · exact ⟨by omega, hi⟩
        simp only [Option.map_some, load, wp_bind, wp_get, wp_pure, hnext]
        by_cases hp : present ((s.mem t).word 4 (4 * (j % 1024))) = true
        · have hmap : s.mapped r j = some ((s.mem t).word 4 (4 * (j % 1024))) := by
            rw [Phys.mapped, hentry]
            simp [hp]
          have hx : ω (frame ((s.mem t).word 4 (4 * (j % 1024)))) = some (.page g j) :=
            (h.place _ (.page g j)).mp ((at_page_iff hr hj).mpr (by rw [hmap]; rfl))
          rw [if_pos hp, if_neg (managed_ne_zero (h.managed _ _ hx))]
          refine wp_unmap h hr hj ht hmap fun s' ω' h' hu => ?_
          refine ih (j := j + 1) h' (by omega) fun s'' ω'' h'' hu' => hQ s'' ω'' h'' ?_
          refine (hu.trans hu').extend h hr (fun i hi => ?_) fun i hi hV hnot => absurd hV ?_
          all_goals
            rw [visits_congr hold fun d hd => hu.table g r d hr hd] at *
            rw [hfirst]
          · exact hi
          · exact hnot
        · rw [if_neg hp]
          refine ih (j := j + 1) h (by omega) fun s' ω' h' hu => hQ s' ω' h' ?_
          refine hu.extend h hr (fun i hi => (hfirst i).mpr (.inr hi)) fun i hi hV hnot => ?_
          obtain rfl := ((hfirst i).mp hV).resolve_right hnot
          rw [Phys.mapped, hentry]
          simp [hp]
    · rw [if_neg hlt]
      exact hQ s ω h (hend hlt)

theorem PGROUNDUP_eq {a : ℕ} (ha : a ≤ KERNBASE) : PGROUNDUP a = pages a * PGSIZE := by
  simp only [KERNBASE] at ha
  simp only [PGROUNDUP, uint, pages, PGSIZE]
  omega

theorem wp_deallocuvm {Q : ℕ → Phys → Prop} (h : Inv K s ρ ω) (hr : ρ.dir g = some r)
    (hold : oldsz ≤ KERNBASE)
    (hQ : ∀ (s' : Phys) (ω' : ℕ → Option (Place ι κ)), Inv K s' ρ ω' →
      Unmaps (s.Visits r oldsz (pages newsz)) s s' ω ω' ρ g →
      Q (if newsz ≥ oldsz then oldsz else newsz) s') :
    wp E (deallocuvm K r oldsz newsz) Q s := by
  unfold deallocuvm
  by_cases hle : newsz ≥ oldsz
  · rw [if_pos hle] at hQ ⊢
    refine hQ s ω h (unmaps_nothing fun i hi => ?_)
    have hpages := hi.1
    have hlt := hi.2.1
    simp only [pages, PGSIZE] at hpages hlt
    omega
  · rw [if_neg hle] at hQ
    rw [if_neg hle, PGROUNDUP_eq (le_trans (le_of_not_ge hle) hold)]
    refine wp_bind.mpr (wp_deallocuvmFrom hr hold _ h ?_ hQ)
    simp only [pages, PGSIZE]
    omega

/-! ## `allocuvm` -/

theorem Inv.drop {x : ℕ} (h : Inv K s { ρ with hand := insert x ρ.hand } ω) (hx : x ∉ ρ.hand) :
    ∃ ω', Inv K s ρ ω' ∧ Loses {x} ω ω' ∧ ∀ y, y ≠ x → ω' y = ω y := by
  have hforget := h.forget (D := {x}) (by simp)
  simp only [Set.insert_sdiff_self_of_notMem hx] at hforget
  refine ⟨_, hforget, ⟨fun y hy => ?_, x, rfl, ?_, by simp⟩, fun y hy => by simp [hy]⟩
  · simp [hy]
  · rw [(h.place x .hand).mp (.inl rfl)]
    nofun

/-- The address space of `g` may have got new pages at `V`. What was mapped elsewhere still is, and all
pages hold what they held. -/
structure Grows (V : ℕ → Prop) (K : Image) (ρ : Roots ι κ) (g : ι) (r : ℕ) (s : Phys)
    (ω : ℕ → Option (Place ι κ)) (P : Plan) (s' : Phys) (ω' : ℕ → Option (Place ι κ)) (P' : Plan) : Prop
    extends Changed K ρ g s ω P s' ω' P' where
  sees : Sees s' r P'
  held : Steady (fun _ => True) s s' ω ω'
  same : ∀ i < 2 ^ 20, ¬V i → s'.mapped r i = s.mapped r i
  table : ∀ d < 1024, s.table r d ≠ none → s'.table r d ≠ none

section

variable {V V' : ℕ → Prop} {s' s'' : Phys} {ω' ω'' : ℕ → Option (Place ι κ)} {P' P'' : Plan}

theorem Grows.refl (h : Inv K s ρ ω) (hP : Sees s r P) : Grows V K ρ g r s ω P s ω P where
  toChanged := .refl h
  sees := hP
  held := .refl
  same _ _ _ := rfl
  table _ _ ht := ht

theorem Grows.trans (h : Grows V K ρ g r s ω P s' ω' P') (h' : Grows V' K ρ g r s' ω' P' s'' ω'' P'') :
    Grows (fun i => V i ∨ V' i) K ρ g r s ω P s'' ω'' P'' where
  toChanged := h.toChanged.trans h'.toChanged fun _ _ => rfl
  sees := h'.sees
  held := h.held.trans h'.held
  same i hi hnot := by
    rw [not_or] at hnot
    rw [h'.same i hi hnot.2, h.same i hi hnot.1]
  table d hd ht := h'.table d hd (h.table d hd ht)

theorem Grows.mono (h : Grows V K ρ g r s ω P s' ω' P') (hV : ∀ i, V i → V' i) : Grows V' K ρ g r s ω P s' ω' P' :=
  { h with same := fun i hi hnot => h.same i hi fun hi' => hnot (hV i hi') }

end

theorem Sees.mapped (hP : Sees s r P) (hi : i < 2 ^ 20) : s.mapped r i = (P.entry i).filter present := by
  rw [Phys.mapped, hP.entry i hi]

theorem table_ne_none : s.table r d ≠ none ↔ s.entry r (1024 * d) ≠ none := by
  rw [Phys.entry, Nat.mul_div_cancel_left d (by decide)]
  simp

/-- A new table maps nothing. -/
theorem Sees.mapped_map {s' : Phys} (hP : Sees s r P) (hP' : Sees s' r (P.map j w).2)
    (hi : i < 2 ^ 20) (hj : j < 2 ^ 20) (hij : i ≠ j) : s'.mapped r i = s.mapped r i := by
  rw [hP'.mapped hi, hP.mapped hi]
  refine Plan.andThen_keeps (C := fun Q => (Q.entry i).filter present = (P.entry i).filter present) ?_
    fun Q hQ => ?_
  · unfold Plan.walk
    split
    · rfl
    · rename_i hnone _
      by_cases hd : i / 1024 = j / 1024
      · have hentry : P.entry i = none := by
          rw [hP.entry j hj, Phys.entry, Option.map_eq_none_iff] at hnone
          rw [hP.entry i hi, Phys.entry, hd, hnone]
          rfl
        simp [hd, hentry, present]
      · simp [hd]
    · rfl
  · simpa [Plan.set, update_of_ne hij] using hQ

theorem Sees.table_map {s' : Phys} (hP : Sees s r P) (hP' : Sees s' r (P.map j w).2)
    (hd : d < 1024) (ht : s.table r d ≠ none) : s'.table r d ≠ none := by
  rw [table_ne_none, ← hP.entry _ (by omega)] at ht
  rw [table_ne_none, ← hP'.entry _ (by omega)]
  exact Plan.map_entry ht

/-- A page that `kalloc` has handed out is filled and mapped. If there is no page for a table it is
lost. -/
theorem wp_mappages_new {x perm : ℕ} {c : Bytes} {s₁ : Phys} {Q : Bool → Phys → Prop} (h : Inv K s ρ ω)
    (hr : ρ.dir g = some r) (hP : Sees s r P) (hans : s.answers 0 = some x) (hx : ω x = some .free)
    (h₁ : Inv K s₁ { ρ with hand := insert x ρ.hand } (update ω x (some .hand)))
    (ha : Asked s s₁) (hj : j < 2 ^ 19) (hperm : perm < 4096) (hE : E (.panic "remap") ∨ P.Blank j)
    (hlost : ∀ (s' : Phys) (ω' : ℕ → Option (Place ι κ)) (P' : Plan),
      P.next.map j (pte x perm) = (false, P') → P'.lost = P.lost + 1 → s'.mapped r j = none →
      Grows (· = j) K ρ g r s ω P s' ω' P' → Q false s')
    (hdone : ∀ (s' : Phys) (ω' : ℕ → Option (Place ι κ)) (P' : Plan),
      P.next.map j (pte x perm) = (true, P') → s'.mapped r j = some (pte x perm) → s'.mem x = c →
      Grows (· = j) K ρ g r s ω P s' ω' P' → Q true s') :
    wp E (mappages r (j * PGSIZE) PGSIZE (x * PGSIZE) perm) Q (s₁.setPage x c) := by
  have hnot : x ∉ ρ.hand := h.notMem_hand hx nofun
  have hsame := h₁.setPage_hand (x := x) (.inl rfl) c
  have hsees : Sees (s₁.setPage x c) r P.next :=
    SameSpaces.sees (ρ := { ρ with hand := insert x ρ.hand }) hsame hr rfl (hP.asked ha)
  have hothers : Others s (s₁.setPage x c) ρ g :=
    (others_of_mem ha.mem).trans fun g' r' i hr' hi _ => hsame.entry g' r' i hr' hi
  have hkept : Kept ω (update ω x (some .hand)) := kept_update (by simp [hx])
  have hsteady : Steady (fun _ => True) s (s₁.setPage x c) ω (update ω x (some .hand)) :=
    steady_update (by simp [hx]) fun y hy => (update_of_ne hy _ _).trans (congrFun ha.mem y)
  have hcount := Plan.map_lost (P := P.next) (i := j) (w := pte x perm)
  have hlater : P.Later (P.next.map j (pte x perm)).2 := Plan.later_next.trans Plan.map_later
  -- what is mapped at the other pages, and the tables
  have hmapped : ∀ s' : Phys, Sees s' r (P.next.map j (pte x perm)).2 →
      (∀ i < 2 ^ 20, i ≠ j → s'.mapped r i = s.mapped r i) ∧
        ∀ d < 1024, s.table r d ≠ none → s'.table r d ≠ none := by
    intro s' hs'
    have hsame' : ∀ i < 2 ^ 20, (s₁.setPage x c).entry r i = s.entry r i := fun i hi =>
      (hsame.entry g r i hr hi).trans (entry_of_mem ha.mem)
    refine ⟨fun i hi hij => ?_, fun d hd ht => hsees.table_map hs' hd ?_⟩
    · rw [hsees.mapped_map hs' hi (by omega) hij, Phys.mapped, hsame' i hi, Phys.mapped]
    · rwa [table_ne_none, hsame' _ (by omega), ← table_ne_none]
  refine wp_mappages (h₁.same hsame rfl) hr hsees hj (.inl rfl) hperm (hE.imp_right Plan.Blank.next)
    (fun s₂ P₂ hmap h₂ => ?_) fun s₂ ω₂ P₂ hmap h₂ hmem => ?_
  · obtain ⟨ω₃, h₃, hloses, hω₃⟩ := h₂.inv.drop hnot
    rw [hmap] at hcount hlater hmapped
    have hheld : Steady (fun _ => True) s s₂ ω ω₃ := (hsteady.trans h₂.steady).trans
      (steady_of_ne (y := x) (by simp) hω₃ fun _ _ => rfl)
    refine hlost s₂ ω₃ P₂ hmap hcount ?_ ⟨⟨h₃, ?_, hothers.trans h₂.others, hheld.mono fun _ _ => trivial⟩,
      h₂.sees, hheld, (hmapped s₂ h₂.sees).1, (hmapped s₂ h₂.sees).2⟩
    · rw [h₂.sees.mapped (by omega), Plan.entry_of_map_false hmap]
      rfl
    · exact (hkept.loses (hloses.mono (hP.supply hans))).track hlater hcount
  · rw [hmap] at hcount hlater hmapped
    have hheld := hsteady.trans h₂.steady
    have hself : s₂.mapped r j = some (pte x perm) := by
      rw [h₂.sees.mapped (by omega), Plan.entry_of_map hmap]
      simp [present_pte]
    refine hdone s₂ ω₂ P₂ hmap hself (hmem.trans (update_self ..))
      ⟨⟨restore_hand hnot ▸ h₂.inv, (hkept.trans h₂.kept).track hlater hcount, hothers.trans h₂.others,
        hheld.mono fun _ _ => trivial⟩,
        h₂.sees, hheld, (hmapped s₂ h₂.sees).1, (hmapped s₂ h₂.sees).2⟩

/-- After a failed `allocuvm`, what is mapped outside of the range is the same. In the range nothing is
mapped, if `deallocuvm` does not begin in the middle of a table that does not exist. -/
structure Undone (s s' : Phys) (r oldsz newsz : ℕ) : Prop where
  same : ∀ i < 2 ^ 20, i < pages oldsz ∨ newsz ≤ i * PGSIZE → s'.mapped r i = s.mapped r i
  gone : pages oldsz % 1024 = 0 ∨ s.table r (pages oldsz / 1024) ≠ none →
    ∀ i, pages oldsz ≤ i → i * PGSIZE < newsz → s'.mapped r i = none

/-- The pages from page `j` on are mapped for the user, and are zero. -/
def Zeroed (s : Phys) (r j n : ℕ) : Prop :=
  ∀ i, j ≤ i → i < j + n → ∃ x, s.mapped r i = some (pte x (PTE_W ||| PTE_U)) ∧ s.mem x = fun _ => 0

theorem wp_allocuvmFrom {Q : ℕ → Phys → Prop} (hr : ρ.dir g = some r)
    (hnew : newsz < KERNBASE) (fuel : ℕ) {n : ℕ}
    (h : Inv K s ρ ω) (hP : Sees s r P) (hn : n = pages newsz - j) (hfuel : n ≤ fuel)
    (hold : pages oldsz ≤ j) (hE : E (.panic "remap") ∨ ∀ i, j ≤ i → i < 2 ^ 19 → P.Blank i)
    (hzero : ∀ (s' : Phys) (ω' : ℕ → Option (Place ι κ)) (P' : Plan), P.grow n j = (false, P') →
      Changed K ρ g s ω P s' ω' P' → Undone s s' r oldsz newsz → Q 0 s')
    (hdone : ∀ (s' : Phys) (ω' : ℕ → Option (Place ι κ)) (P' : Plan), P.grow n j = (true, P') →
      Grows (fun i => j ≤ i ∧ i < j + n) K ρ g r s ω P s' ω' P' →
      (P'.lost = P.lost ∧ Zeroed s' r j n ∨
        P'.lost ≠ P.lost ∧ ∃ i, j ≤ i ∧ i < j + n ∧ s'.mapped r i = none) → Q newsz s') :
    wp E (allocuvmFrom K r oldsz newsz fuel (j * PGSIZE)) Q s := by
  induction fuel generalizing n j s ω P with
  | zero =>
    obtain rfl : n = 0 := by omega
    exact hdone s ω P rfl (.refl h hP) (.inl ⟨rfl, fun i hi hi' => absurd hi' (by omega)⟩)
  | succ fuel ih =>
    simp only [KERNBASE, pages] at hnew hn
    rw [allocuvmFrom]
    cases n with
    | zero =>
      rw [if_neg (by simp only [PGSIZE]; omega)]
      exact hdone s ω P rfl (.refl h hP) (.inl ⟨rfl, fun i hi hi' => absurd hi' (by omega)⟩)
    | succ n =>
      have hj : j < 2 ^ 19 := by omega
      have hnext : uint (j * PGSIZE + PGSIZE) = (j + 1) * PGSIZE := by
        simp only [uint, PGSIZE]
        omega
      rw [if_pos (by simp only [PGSIZE]; omega), hnext]
      refine wp_bind.mpr (wp_kalloc h (fun s₁ hans h₁ ha => ?_) fun x s₁ hans hx h₁ ha => ?_)
      · -- out of memory
        have hgrow : P.grow (n + 1) j = (false, P.next) := by
          rw [Plan.grow, hP.ask, hans]
        refine wp_bind.mpr (wp_deallocuvm h₁ hr (by simp only [KERNBASE]; omega) fun s₂ ω₂ h₂ hu => ?_)
        have hmem : ∀ i, s₁.mapped r i = s.mapped r i := fun i => by
          rw [Phys.mapped, entry_of_mem ha.mem, Phys.mapped]
        refine hzero s₂ ω₂ P.next hgrow ⟨h₂, hu.kept.track Plan.later_next rfl,
          (others_of_mem ha.mem).trans hu.others, fun y g' i hg' hy => ?_⟩ ⟨fun i hi hor => ?_, fun ht i hji hi => ?_⟩
        · exact (hu.steady y g' i hg' hy).imp_right fun hm => hm.trans (congrFun ha.mem y)
        · rw [← hmem i, Phys.mapped, Phys.mapped, hu.entry r i hr hi]
          rintro ⟨hlo, hhi, -⟩
          omega
        · refine hu.gone r i hr (by simp only [PGSIZE] at hi; omega) ((visits_iff ?_).mpr ⟨hji, hi⟩)
          rwa [Phys.table, ha.mem]
      · simp only [memset, wp_bind, wp_modify]
        have hgrow : P.grow (n + 1) j =
            (P.next.map j (pte x (PTE_W ||| PTE_U))).2.grow n (j + 1) := by
          rw [Plan.grow, hP.ask, hans]
        have hblank : E (.panic "remap") ∨
            ∀ i, j + 1 ≤ i → i < 2 ^ 19 → (P.next.map j (pte x (PTE_W ||| PTE_U))).2.Blank i :=
          hE.imp_right fun hfree i hi hi' => (hfree i (by omega) hi').next.map (by omega)
        rw [hgrow] at hzero hdone
        -- the rest of the loop, from a state where page `j` has been dealt with
        have hrest : ∀ (s₂ : Phys) (ω₂ : ℕ → Option (Place ι κ)) (P₂ : Plan),
            (P.next.map j (pte x (PTE_W ||| PTE_U))).2 = P₂ → Grows (· = j) K ρ g r s ω P s₂ ω₂ P₂ →
            (P₂.lost = P.lost ∧ s₂.mapped r j = some (pte x (PTE_W ||| PTE_U)) ∧ s₂.mem x = (fun _ => 0) ∨
              P₂.lost = P.lost + 1 ∧ s₂.mapped r j = none) →
            wp E (allocuvmFrom K r oldsz newsz fuel ((j + 1) * PGSIZE)) Q s₂ := by
          intro s₂ ω₂ P₂ hmap h₂ hself
          rw [hmap] at hzero hdone hblank
          refine ih h₂.inv h₂.sees (by simp only [pages]; omega) (by omega) (by omega) hblank
            (fun s' ω' P' heq h' hundone => hzero s' ω' P' heq (h₂.toChanged.trans h' fun _ _ => rfl)
              ⟨fun i hi hor => ?_, fun ht => hundone.gone (ht.imp_right (h₂.table _ ?_))⟩)
            fun s' ω' P' heq h' hz => hdone s' ω' P' heq ((h₂.trans h').mono ?_) ?_
          · rw [hundone.same i hi hor]
            refine h₂.same i hi ?_
            rintro rfl
            simp only [PGSIZE] at hor
            omega
          · omega
          · rintro i (rfl | hi) <;> omega
          · have hj' : s'.mapped r j = s₂.mapped r j := h'.same j (by omega) (by omega)
            rcases hself with ⟨hcount, hmapped, hmem⟩ | ⟨hcount, hmapped⟩
            · rcases hz with ⟨hcount', hz⟩ | ⟨hcount', i, hi, hi', hnone⟩
              · refine .inl ⟨hcount'.trans hcount, fun i hji hi => ?_⟩
                rcases eq_or_ne i j with rfl | hij
                · have hplace : ω₂ x = some (.page g i) := by
                    refine (h₂.inv.place x _).mp ((at_page_iff hr hj).mpr ?_)
                    rw [hmapped, Option.map_some, frame_pte (by decide)]
                  exact ⟨x, hj'.trans hmapped, (h'.held x g i trivial hplace).2.trans hmem⟩
                · exact hz i (by omega) (by omega)
              · exact .inr ⟨hcount ▸ hcount', i, by omega, by omega, hnone⟩
            · refine .inr ⟨?_, j, le_rfl, by omega, hj'.trans hmapped⟩
              rcases h'.track.pages with ⟨hcount', -⟩ | ⟨hcount', -⟩ <;> omega
        refine wp_mappages_new h hr hP hans hx h₁ ha hj (by decide)
          (hE.imp_right fun hfree => hfree j le_rfl hj) (fun s₂ ω₂ P₂ hmap hcount hself h₂ => ?_)
          fun s₂ ω₂ P₂ hmap hself hmem h₂ => ?_
        · exact hrest s₂ ω₂ P₂ (by rw [hmap]) h₂ (.inr ⟨hcount, hself⟩)
        · have hcount := Plan.map_lost (P := P.next) (i := j) (w := pte x (PTE_W ||| PTE_U))
          rw [hmap] at hcount
          exact hrest s₂ ω₂ P₂ (by rw [hmap]) h₂ (.inl ⟨hcount, hself, hmem⟩)

theorem wp_allocuvm {Q : ℕ → Phys → Prop} (h : Inv K s ρ ω) (hr : ρ.dir g = some r)
    (hP : Sees s r P) (hold : oldsz ≤ KERNBASE)
    (hE : E (.panic "remap") ∨ ∀ i, pages oldsz ≤ i → i < 2 ^ 19 → P.Blank i)
    (hQ : ∀ (res : ℕ) (s' : Phys) (ω' : ℕ → Option (Place ι κ)) (P' : Plan),
      P.alloc oldsz newsz = (res, P') → Changed K ρ g s ω P s' ω' P' → (res ≠ 0 → Sees s' r P') →
      Q res s') : wp E (allocuvm K r oldsz newsz) Q s := by
  unfold allocuvm
  unfold Plan.alloc at hQ
  split_ifs at hQ ⊢ with hbig hsmall
  · exact hQ 0 s ω P rfl (.refl h) fun hne => absurd rfl hne
  · exact hQ oldsz s ω P rfl (.refl h) fun _ => hP
  · rw [PGROUNDUP_eq hold]
    refine wp_allocuvmFrom hr (by omega) _ h hP rfl ?_ le_rfl hE (fun s' ω' P' heq h' _ => ?_)
      fun s' ω' P' heq h' _ => ?_
    · simp only [pages, PGSIZE]
      omega
    · rw [heq] at hQ
      exact hQ 0 s' ω' P' rfl h' fun hne => absurd rfl hne
    · rw [heq] at hQ
      exact hQ newsz s' ω' P' rfl h'.toChanged fun _ => h'.sees

/-! ## `freevm` -/

/-- The loop of `freevm`, when the directory and its tables belong to nobody any more. -/
theorem wp_freeTables (ds : List ℕ) (hnodup : ds.Nodup)
    {ω : ℕ → Option (Place ι κ)} (h : Inv K s ρ ω)
    (hhand : ∀ d ∈ ds, ∀ t, s.table r d = some t → t ∈ ρ.hand ∧ t ≠ r)
    (hinj : ∀ d ∈ ds, ∀ d' ∈ ds, ∀ t, s.table r d = some t → s.table r d' = some t → d = d')
    (hQ : ∀ (s' : Phys) (ω' : ℕ → Option (Place ι κ)),
      Inv K s' { ρ with hand := ρ.hand \ { t | ∃ d ∈ ds, s.table r d = some t } } ω' → Kept ω ω' →
      SameSpaces s s' ρ → Steady (fun _ => True) s s' ω ω' → Q ⟨⟩ s') :
    wp E (freeTables K r ds) Q s := by
  induction ds generalizing s ρ ω with
  | nil => exact hQ s ω (by simpa using h) (.refl ω) (sameSpaces_of_mem rfl) .refl
  | cons d ds ih =>
    obtain ⟨hd, hnodup⟩ := List.nodup_cons.mp hnodup
    simp only [freeTables, load, wp_bind, wp_get, wp_pure]
    have htable : s.table r d = if present ((s.mem r).word 4 (4 * d)) then
      some (frame ((s.mem r).word 4 (4 * d))) else none := rfl
    by_cases hp : present ((s.mem r).word 4 (4 * d)) = true
    · rw [if_pos hp] at htable ⊢
      obtain ⟨hx, hxr⟩ := hhand d List.mem_cons_self _ htable
      refine wp_bind.mpr (wp_kfree h hx fun s' h' hsame hmem => ?_)
      have hr' : ∀ d', s'.table r d' = s.table r d' := fun d' => by
        simp only [Phys.table, hmem r (Ne.symm hxr)]
      refine ih hnodup h' (fun d' hd' t ht => ?_) (fun d₁ h₁ d₂ h₂ t ht₁ ht₂ => ?_)
        fun s'' ω'' h'' hk hsame' hst => hQ s'' ω'' ?_ ?_ (hsame.trans ⟨hsame'.table, hsame'.entry⟩)
          (Steady.trans (steady_update ?_ hmem) hst)
      · rw [hr'] at ht
        obtain ⟨hth, htr⟩ := hhand d' (List.mem_cons_of_mem _ hd') t ht
        refine ⟨⟨hth, ?_⟩, htr⟩
        rintro rfl
        exact hd (hinj d List.mem_cons_self d' (List.mem_cons_of_mem _ hd') _ htable ht ▸ hd')
      · rw [hr'] at ht₁ ht₂
        exact hinj d₁ (List.mem_cons_of_mem _ h₁) d₂ (List.mem_cons_of_mem _ h₂) t ht₁ ht₂
      · have hset : (ρ.hand \ {frame ((s.mem r).word 4 (4 * d))}) \ { t | ∃ d ∈ ds, s'.table r d = some t } =
            ρ.hand \ { t | ∃ d' ∈ d :: ds, s.table r d' = some t } := by
          ext x
          simp only [hr', Set.mem_sdiff, Set.mem_singleton_iff, Set.mem_ofPred_eq,
            List.exists_mem_cons_iff, htable, Option.some.injEq, not_or, and_assoc, eq_comm]
        rw [← hset]
        exact h''
      · exact (kept_update (by rw [(h.place _ .hand).mp hx]; simp)).trans hk
      · rw [(h.place _ .hand).mp hx]
        simp
    · rw [if_neg hp] at htable ⊢
      refine ih hnodup h (fun d' hd' => hhand d' (List.mem_cons_of_mem _ hd'))
        (fun d₁ h₁ d₂ h₂ => hinj d₁ (List.mem_cons_of_mem _ h₁) d₂ (List.mem_cons_of_mem _ h₂))
        fun s'' ω'' h'' hk hsame hst => hQ s'' ω'' ?_ hk hsame hst
      have hset : { t | ∃ d' ∈ d :: ds, s.table r d' = some t } = { t | ∃ d ∈ ds, s.table r d = some t } := by
        ext x
        simp [htable]
      rw [hset]
      exact h''

variable [DecidableEq ι]

theorem wp_freevm (h : Inv K s ρ ω) (hr : ρ.dir g = some r)
    (hQ : ∀ (s' : Phys) (ω' : ℕ → Option (Place ι κ)),
      Inv K s' { ρ with dir := update ρ.dir g none } ω' → Kept ω ω' →
      Others s s' ρ g → Steady (· ≠ g) s s' ω ω' → Q ⟨⟩ s') : wp E (freevm K (some r)) Q s := by
  unfold freevm
  refine wp_bind.mpr (wp_deallocuvm h hr le_rfl fun s₁ ω₁ h₁ hu => ?_)
  have hunmapped : ∀ i < 2 ^ 19, s₁.mapped r i = none := fun i hi =>
    hu.gone r i hr (by omega) ((visits_iff (.inl rfl)).mpr ⟨Nat.zero_le i, by simp only [PGSIZE, KERNBASE]; omega⟩)
  have hloose := h₁.dismantle hr hunmapped
  have hnodup : (List.range NPDENTRIES).Nodup := List.nodup_range
  have hrange : ∀ d, d ∈ List.range NPDENTRIES ↔ d < 1024 := fun d => List.mem_range
  generalize List.range NPDENTRIES = ds at hnodup hrange ⊢
  refine wp_bind.mpr (wp_freeTables ds hnodup hloose
    (fun d hd t ht => ⟨?_, ?_⟩) (fun d hd d' hd' t ht ht' => ?_) fun s₂ ω₂ h₂ hk₂ hsame₂ hst₂ => ?_)
  · exact .inr (.inl ⟨d, (hrange d).mp hd, ht⟩)
  · exact h₁.dir_ne_table hr hr ((hrange d).mp hd) ht
  · have hpl := (h₁.table_place hr ((hrange d).mp hd) ht).symm.trans
      (h₁.table_place hr ((hrange d').mp hd') ht')
    exact (Place.table.inj (Option.some.inj hpl)).2
  · have hne : r ∉ { t | ∃ d ∈ ds, s₁.table r d = some t } := by
      rintro ⟨d, hd, ht⟩
      exact h₁.dir_ne_table hr hr ((hrange d).mp hd) ht rfl
    have hplace₂ : ω₂ r = some .hand := (h₂.place r .hand).mp ⟨.inl rfl, hne⟩
    refine wp_kfree h₂ ⟨.inl rfl, hne⟩ fun s₃ h₃ hsame₃ hmem₃ =>
      hQ s₃ (update ω₂ r (some .free)) ?_ ?_ ?_ ?_
    · -- what is left in variables is what was there before
      have hset : (insert r (s₁.tables r ∪ ρ.hand) \
          { t | ∃ d ∈ ds, s₁.table r d = some t }) \ {r} = ρ.hand := by
        ext x
        simp only [Phys.tables, Set.mem_sdiff, Set.mem_insert_iff, Set.mem_union, Set.mem_ofPred_eq,
          Set.mem_singleton_iff, hrange]
        constructor
        · rintro ⟨⟨hx | ⟨d, hd, ht⟩ | hx, hnot⟩, hxr⟩
          · exact absurd hx hxr
          · exact absurd ⟨d, hd, ht⟩ hnot
          · exact hx
        · intro hx
          have hplace := (h₁.place x .hand).mp hx
          refine ⟨⟨.inr (.inr hx), ?_⟩, ?_⟩
          · rintro ⟨d, hd, ht⟩
            rw [h₁.table_place hr hd ht] at hplace
            cases hplace
          · rintro rfl
            rw [h₁.dir_place hr] at hplace
            cases hplace
      rw [← hset]
      exact h₃
    · exact hu.kept.trans (kept_map.trans (hk₂.trans (kept_update (by simp [hplace₂]))))
    · intro g' r' i hr' hi hg
      have hr'' : update ρ.dir g none g' = some r' := (update_of_ne hg _ _).trans hr'
      rw [hsame₃.entry g' r' i hr'' hi, hsame₂.entry g' r' i hr'' hi]
      exact hu.others g' r' i hr' hi hg
    · have hloosen : Steady (· ≠ g) s₁ s₁ ω₁ fun x => (ω₁ x).map (.loosen g) := fun x g' i _ hx =>
        ⟨congrArg (Option.map (Place.loosen g)) hx, rfl⟩
      have hlast : Steady (· ≠ g) s₂ s₃ ω₂ (update ω₂ r (some .free)) :=
        steady_update (by simp [hplace₂]) hmem₃
      exact ((hu.steady.trans hloosen).trans (hst₂.mono fun _ _ => trivial)).trans hlast

/-! ## `copyuvm` -/

theorem flags_lt : flags w < 4096 := Nat.mod_lt _ (by decide)

/-- The pages from page `j` on are copies of the pages with the entries `src`, with the same flags. -/
def Copies (s s' : Phys) (src : ℕ → Option ℕ) (d j n : ℕ) : Prop :=
  ∀ i, j ≤ i → i < j + n → ∃ x w, src i = some w ∧ present w = true ∧
    s'.mapped d i = some (pte x (flags w)) ∧ s'.mem x = s.mem (frame w)

/-- The loop of `copyuvm`. It may find that a page of the parent is missing. -/
theorem wp_copyuvmFrom {sz : ℕ} {g' : ι} {src : ℕ → Option ℕ} {Q : Option ℕ → Phys → Prop}
    (hd : ρ.dir g = some d) (hr : ρ.dir g' = some r) (hne : g' ≠ g) (hsz : sz ≤ KERNBASE) (fuel : ℕ)
    {n : ℕ} (h : Inv K s ρ ω) (hP : Sees s d P)
    (hsrc : ∀ i < 2 ^ 20, s.entry r i = src i) (hn : n = pages sz - j) (hfuel : n ≤ fuel)
    (hE : (∀ msg, E (.panic msg)) ∨
      ∀ i, j ≤ i → i < j + n → (∃ w, src i = some w ∧ present w = true) ∧ P.Blank i)
    (hnone : ∀ (s' : Phys) (ω' : ℕ → Option (Place ι κ)) (P' : Plan), P.copy src n j = (false, P') →
      Changed K { ρ with dir := update ρ.dir g none } g s ω P s' ω' P' → Q none s')
    (hsome : ∀ (s' : Phys) (ω' : ℕ → Option (Place ι κ)) (P' : Plan), P.copy src n j = (true, P') →
      Grows (fun i => j ≤ i ∧ i < j + n) K ρ g d s ω P s' ω' P' → Copies s s' src d j n → Q (some d) s') :
    wp E (copyuvmFrom K r d sz fuel (j * PGSIZE)) Q s := by
  have hloose : ∀ g', g' ≠ g → update ρ.dir g none g' = ρ.dir g' := fun g' hne =>
    update_of_ne hne _ _
  induction fuel generalizing n j s ω P with
  | zero =>
    obtain rfl : n = 0 := by omega
    exact hsome s ω P rfl (.refl h hP) fun i hi hi' => absurd hi' (by omega)
  | succ fuel ih =>
    simp only [KERNBASE, pages] at hsz hn
    rw [copyuvmFrom]
    cases n with
    | zero =>
      rw [if_neg (by simp only [PGSIZE]; omega)]
      exact hsome s ω P rfl (.refl h hP) fun i hi hi' => absurd hi' (by omega)
    | succ n =>
      have hpage : j * PGSIZE / 4096 = j := Nat.mul_div_cancel j (by decide)
      have hj : j < 2 ^ 19 := by omega
      have hnext : uint (j * PGSIZE + PGSIZE) = (j + 1) * PGSIZE := by
        simp only [uint, PGSIZE]
        omega
      rw [if_pos (by simp only [PGSIZE]; omega), hnext]
      refine wp_bind.mpr (wp_walkpgdir_find (by simp only [PGSIZE]; omega) ?_)
      rw [hpage]
      cases ht : s.table r (j / 1024) with
      | none =>
        refine hE.elim (fun hE => hE _) fun hall => ?_
        obtain ⟨w, hw, -⟩ := (hall j le_rfl (by omega)).1
        rw [← hsrc j (by omega), Phys.entry, ht] at hw
        cases hw
      | some t =>
        have hentry : s.entry r j = some ((s.mem t).word 4 (4 * (j % 1024))) := by
          rw [Phys.entry, ht]
          rfl
        have hw : src j = some ((s.mem t).word 4 (4 * (j % 1024))) := by
          rw [← hsrc j (by omega), hentry]
        simp only [Option.map_some, load, wp_bind, wp_get, wp_pure]
        generalize (s.mem t).word 4 (4 * (j % 1024)) = w at hw hentry ⊢
        by_cases hp : present w = true
        · rw [if_neg (by simp [hp])]
          refine wp_bind.mpr (wp_kalloc h (fun s₁ hans h₁ ha => ?_) fun x s₁ hans hx h₁ ha => ?_)
          · have hcopy : P.copy src (n + 1) j = (false, P.next) := by
              rw [Plan.copy, hP.ask, hans]
            refine wp_bind.mpr (wp_freevm h₁ hd fun s₂ ω₂ h₂ hk₂ ho hst => ?_)
            refine hnone s₂ ω₂ P.next hcopy ⟨h₂, hk₂.track Plan.later_next rfl,
              ((others_of_mem ha.mem).trans ho).congr hloose, fun y g₁ i hg₁ hy => ?_⟩
            exact (hst y g₁ i hg₁ hy).imp_right fun hm => hm.trans (congrFun ha.mem y)
          · have hcopy : P.copy src (n + 1) j =
                Plan.andThen (P.next.map j (pte x (flags w))) (Plan.copy src n (j + 1)) := by
              rw [Plan.copy, hP.ask, hans, hw]
              rfl
            rw [hcopy] at hnone hsome
            simp only [memmove, wp_bind, wp_modify]
            refine wp_mappages_new h hd hP hans hx h₁ ha hj flags_lt
              (hE.imp (fun hE => hE _) fun hall => (hall j le_rfl (by omega)).2)
              (fun s₂ ω₂ P₂ hmap _ _ h₂ => ?_) fun s₂ ω₂ P₂ hmap hself hmem h₂ => ?_
            · rw [hmap] at hnone
              refine wp_bind.mpr (wp_freevm h₂.inv hd fun s₃ ω₃ h₃ hk₃ ho hst => hnone s₃ ω₃ P₂ rfl ?_)
              exact ⟨h₃, h₂.track.trans (hk₃.track .refl rfl), (h₂.others.trans ho).congr hloose,
                h₂.steady.trans hst⟩
            · have hblank : (∀ msg, E (.panic msg)) ∨
                  ∀ i, j + 1 ≤ i → i < j + 1 + n → (∃ w, src i = some w ∧ present w = true) ∧ P₂.Blank i := by
                refine hE.imp_right fun hall i hi hi' => (hall i (by omega) (by omega)).imp_right fun hb => ?_
                have := hb.next.map (i := j) (w := pte x (flags w)) (by omega)
                rwa [hmap] at this
              rw [hmap] at hnone hsome
              have hentries : ∀ i < 2 ^ 20, s₂.entry r i = src i := fun i hi =>
                (h₂.others g' r i hr hi hne).trans (hsrc i hi)
              refine ih h₂.inv h₂.sees hentries (by simp only [pages]; omega) (by omega) hblank
                (fun s' ω' P' heq h' => hnone s' ω' P' heq (h₂.toChanged.trans h' hloose))
                fun s' ω' P' heq h' hcopies => hsome s' ω' P' heq ((h₂.trans h').mono ?_) fun i hji hi => ?_
              · rintro i (rfl | hi) <;> omega
              · rcases eq_or_ne i j with rfl | hij
                · have hplace : ω₂ x = some (.page g i) := by
                    refine (h₂.inv.place x _).mp ((at_page_iff hd hj).mpr ?_)
                    rw [hself, Option.map_some, frame_pte flags_lt]
                  refine ⟨x, w, hw, hp, ?_, ?_⟩
                  · rw [h'.same i (by omega) (by omega), hself]
                  · rw [(h'.held x g i trivial hplace).2, hmem, ha.mem]
                · -- what is copied later has not changed so far
                  obtain ⟨y, v, hv, hpv, hmapped, hmem'⟩ := hcopies i (by omega) (by omega)
                  refine ⟨y, v, hv, hpv, hmapped, hmem'.trans ?_⟩
                  refine (h₂.held (frame v) g' i trivial ((h.place _ _).mp ((at_page_iff hr ?_).mpr ?_))).2
                  · omega
                  · rw [Phys.mapped, hsrc i (by omega), hv]
                    simp [hpv]
        · rw [if_pos (by simp [hp])]
          refine hE.elim (fun hE => hE _) fun hall => ?_
          obtain ⟨v, hv, hpv⟩ := (hall j le_rfl (by omega)).1
          obtain rfl := Option.some.inj (hw.symm.trans hv)
          exact absurd hpv hp

theorem wp_copyuvm {sz : ℕ} {g' : ι} {Q : Option ℕ → Phys → Prop}
    (h : Inv K s ρ ω) (hg : ρ.dir g = none) (hr : ρ.dir g' = some r) (hask : P.ask = s.answers)
    (hsz : sz ≤ KERNBASE)
    (hE : (∀ msg, E (.panic msg)) ∨ ∀ i < pages sz, ∃ w, s.entry r i = some w ∧ present w = true)
    (hnone : ∀ (s' : Phys) (ω' : ℕ → Option (Place ι κ)) (P' : Plan),
      P.clone K (s.entry r) sz = (false, P') → Changed K ρ g s ω P s' ω' P' → Q none s')
    (hsome : ∀ (d : ℕ) (s' : Phys) (ω' : ℕ → Option (Place ι κ)) (P' : Plan),
      P.clone K (s.entry r) sz = (true, P') →
      Changed K { ρ with dir := update ρ.dir g (some d) } g s ω P s' ω' P' →
      Steady (fun _ => True) s s' ω ω' → Copies s s' (s.entry r) d 0 (pages sz) →
      (∀ i < 2 ^ 19, pages sz ≤ i → s'.mapped d i = none) → Q (some d) s') :
    wp E (copyuvm K r sz) Q s := by
  unfold copyuvm
  unfold Plan.clone at hnone hsome
  refine wp_bind.mpr (wp_setupkvm h hg hask (fun s' ω' P' heq h' => ?_)
    fun d s₁ ω₁ P₁ heq _ h₁ hlater hcount hlow => ?_)
  · rw [heq] at hnone
    exact hnone s' ω' P' rfl h'
  · rw [heq] at hnone hsome
    have hne : g' ≠ g := by
      rintro rfl
      rw [hg] at hr
      cases hr
    have hr' : update ρ.dir g (some d) g' = some r := (update_of_ne hne _ _).trans hr
    have hchanged := h₁.changed hlater hcount
    have hpages : pages sz ≤ 2 ^ 19 := by
      simp only [pages, KERNBASE] at hsz ⊢
      omega
    have hstart := wp_copyuvmFrom (E := E) (j := 0) (Q := Q) (update_self g (some d) ρ.dir)
      hr' hne hsz (sz / PGSIZE + 1) h₁.inv h₁.sees (fun i hi => h₁.others g' r i hr' hi hne) rfl ?_
      (hE.imp_right fun hall i _ hi => ⟨hall i (by omega), fun w hw => ?_⟩)
      (fun s' ω' P' heq' h' => hnone s' ω' P' heq' ?_)
      fun s' ω' P' heq' h' hcopies => hsome d s' ω' P' heq' (hchanged.trans h'.toChanged fun _ _ => rfl)
        (h₁.steady.trans h'.held) (fun i hi hi' => ?_) fun i hi hge => ?_
    · rwa [Nat.zero_mul] at hstart
    · simp only [pages, PGSIZE]
      omega
    · rw [hlow i (by omega)] at hw
      cases hw
    · simp only [update_idem, update_none hg] at h'
      exact hchanged.trans h' fun g'' hne' => (update_of_ne hne' _ _).symm
    · obtain ⟨x, w, hw, hp, hmapped, hmem⟩ := hcopies i hi (by omega)
      refine ⟨x, w, hw, hp, hmapped, hmem.trans ?_⟩
      refine (h₁.steady (frame w) g' i trivial ((h.place _ _).mp ((at_page_iff hr ?_).mpr ?_))).2
      · omega
      · rw [Phys.mapped, hw]
        simp [hp]
    · rw [h'.same i (by omega) (by omega), h₁.sees.mapped (by omega), hlow i hi]
      rfl

/-! ## `clearpteu` -/

omit [DecidableEq ι]

theorem clear_word (hw : w < 2 ^ 32) :
    w &&& 0xFFFFFFFB < 2 ^ 32 ∧ present (w &&& 0xFFFFFFFB) = present w ∧
      frame (w &&& 0xFFFFFFFB) = frame w ∧ user (w &&& 0xFFFFFFFB) = false := by
  refine ⟨lt_of_le_of_lt Nat.and_le_left hw, ?_, ?_, ?_⟩
  · rw [present, Nat.testBit_and, present]
    simp
  · have hmask : (0xFFFFFFFB : ℕ) >>> 12 = 2 ^ 20 - 1 := by decide
    rw [frame, frame, ← Nat.shiftRight_eq_div_pow, Nat.shiftRight_and_distrib, hmask,
      Nat.and_two_pow_sub_one_of_lt_two_pow, Nat.shiftRight_eq_div_pow]
    rw [Nat.shiftRight_eq_div_pow]
    omega
  · have hmask : Nat.testBit 0xFFFFFFFB 2 = false := by decide
    rw [user, Nat.testBit_and, hmask, Bool.and_false]

theorem wp_clearpteu {va : ℕ} (h : Inv K s ρ ω) (hr : ρ.dir g = some r)
    (hP : Sees s r P) (hva : va < 2 ^ 32) (hE : P.entry (va / 4096) = none → E (.panic "clearpteu"))
    (hQ : ∀ s' : Phys, P.entry (va / 4096) ≠ none →
      After K ρ g r s ω s' ω (P.clear (va / 4096)) → Q ⟨⟩ s') : wp E (clearpteu r va) Q s := by
  have hi : va / 4096 < 2 ^ 20 := by omega
  unfold clearpteu
  refine wp_bind.mpr (wp_walkpgdir_find hva ?_)
  generalize va / 4096 = i at hi hE hQ ⊢
  cases ht : s.table r (i / 1024) with
  | none =>
    refine hE ?_
    rw [hP.entry i hi, Phys.entry, ht]
    rfl
  | some t =>
    have hentry : s.entry r i = some ((s.mem t).word 4 (4 * (i % 1024))) := by
      rw [Phys.entry, ht]
      rfl
    simp only [Option.map_some, load, store, wp_bind, wp_get, wp_pure, wp_modify]
    have hlt : (s.mem t).word 4 (4 * (i % 1024)) < 2 ^ 32 := Bytes.word_lt
    generalize (s.mem t).word 4 (4 * (i % 1024)) = w at hentry hlt ⊢
    obtain ⟨hlt', hp, hf, hu⟩ := clear_word hlt
    have hPi : P.entry i = some w := (hP.entry i hi).trans hentry
    refine hQ (s.setEntry t (4 * (i % 1024)) (w &&& 0xFFFFFFFB)) (by simp [hPi])
      ⟨h.reflag hr hi ht hlt' (fun _ => hu) fun _ => ?_, .refl ω, ?_, h.steady_setEntry hr hi ht,
        ⟨hP.ask, fun j hj => ?_⟩⟩
    · rw [Phys.mapped, hentry]
      cases hpw : present w <;> simp [hp, hpw, hf, Option.filter]
    · exact fun g' r' j hr' hj hne => h.entry_setEntry_ne hr hi ht hr' hj (.inl hne)
    · rcases eq_or_ne j i with rfl | hji
      · rw [h.entry_setEntry_self hr hi ht hlt']
        exact (update_self ..).trans (by rw [hPi]; rfl)
      · rw [h.entry_setEntry_ne hr hi ht hr hj (.inr hji)]
        exact (update_of_ne hji _ _).trans (hP.entry j hj)

end

end Xv6.Vm
