import Xv6.Vm.Rules

/-!
# What `mappages` maps

`Xv6.Vm.Rules` follows the pages that `mappages` uses in a system whose invariant holds. Here it runs on
page directories of which nothing is known but that they share no page table, and the result says what
every address translates to.
-/

namespace Xv6.Vm

open Lib Exec

/-- The directories `R` share no page with each other or with the free list. -/
structure Forest (s : Phys) (R : Set ℕ) : Prop where
  table : ∀ r ∈ R, ∀ r' ∈ R, ∀ d < 1024, ∀ d' < 1024, ∀ t, s.table r d = some t → s.table r' d' = some t →
    r = r' ∧ d = d'
  dir : ∀ r ∈ R, ∀ r' ∈ R, ∀ d < 1024, s.table r d ≠ some r'
  free : ∀ x ∈ s.free, x < 2 ^ 20 ∧ x ∉ R ∧ ∀ r ∈ R, ∀ d < 1024, s.table r d ≠ some x
  nodup : s.free.Nodup

/-- The translations of these directories are the same. -/
def SameMaps (s s' : Phys) (R : Set ℕ) : Prop := ∀ r ∈ R, ∀ j < 2 ^ 20, s'.mapped r j = s.mapped r j

section

variable {s s' : Phys} {R : Set ℕ} {E : Fault → Prop} {r t i w : ℕ} {pa perm : ℕ}

/-- The kernel's page directories share no page. -/
theorem Inv.forest {ι κ : Type} {K : Image} {ρ : Roots ι κ} {ω : ℕ → Option (Place ι κ)} (h : Inv K s ρ ω) :
    Forest s { r | ∃ g, ρ.dir g = some r } where
  table := by
    rintro r ⟨g, hr⟩ r' ⟨g', hr'⟩ d hd d' hd' t ht ht'
    obtain ⟨rfl, hdd⟩ := Place.table.inj (Option.some.inj ((h.table_place hr hd ht).symm.trans
      (h.table_place hr' hd' ht')))
    exact ⟨Option.some.inj (hr.symm.trans hr'), hdd⟩
  dir := by
    rintro r ⟨g, hr⟩ r' ⟨g', hr'⟩ d hd ht
    exact h.dir_ne_table hr hr' hd ht rfl
  free x hx := by
    have hplace := (h.place x .free).mp hx
    refine ⟨managed_lt (h.managed x _ hplace), ?_, ?_⟩
    · rintro ⟨g, hg⟩
      cases hplace.symm.trans (h.dir_place hg)
    · rintro r ⟨g, hr⟩ d hd ht
      cases hplace.symm.trans (h.table_place hr hd ht)
  nodup := h.nodup

/-! ## Writing an entry -/

theorem Forest.table_setEntry (h : Forest s R) (hr : r ∈ R) (hi : i < 2 ^ 20) (ht : s.table r (i / 1024) = some t)
    {r' : ℕ} (hr' : r' ∈ R) (o d : ℕ) : (s.setEntry t o w).table r' d = s.table r' d :=
  table_setPage fun heq => h.dir r hr r' hr' _ (by omega) (heq ▸ ht)

theorem Forest.setEntry (h : Forest s R) (hr : r ∈ R) (hi : i < 2 ^ 20) (ht : s.table r (i / 1024) = some t)
    (o : ℕ) : Forest (s.setEntry t o w) R := by
  have htable {r' : ℕ} (hr' : r' ∈ R) (d : ℕ) : (s.setEntry t o w).table r' d = s.table r' d :=
    h.table_setEntry hr hi ht hr' o d
  refine ⟨fun a ha b hb d hd e he u => ?_, fun a ha b hb d hd => ?_, fun x hx => ?_, h.nodup⟩
  · rw [htable ha, htable hb]
    exact h.table a ha b hb d hd e he u
  · rw [htable ha]
    exact h.dir a ha b hb d hd
  · obtain ⟨hlt, hnot, hnone⟩ := h.free x hx
    exact ⟨hlt, hnot, fun a ha d hd => by rw [htable ha]; exact hnone a ha d hd⟩

/-- Only the translation of this page changes. -/
theorem Forest.mapped_setEntry (h : Forest s R) (hr : r ∈ R) (hi : i < 2 ^ 20)
    (ht : s.table r (i / 1024) = some t) (hw : w < 2 ^ 32) (hp : present w = true) {r' j : ℕ} (hr' : r' ∈ R)
    (hj : j < 2 ^ 20) :
    (s.setEntry t (4 * (i % 1024)) w).mapped r' j = if r' = r ∧ j = i then some w else s.mapped r' j := by
  rw [Phys.mapped, Phys.entry, h.table_setEntry hr hi ht hr', Phys.mapped, Phys.entry]
  cases ht' : s.table r' (j / 1024) with
  | none =>
    have hne : ¬ (r' = r ∧ j = i) := by
      rintro ⟨rfl, rfl⟩
      rw [ht] at ht'
      cases ht'
    rw [if_neg hne]
    rfl
  | some t' =>
    rcases eq_or_ne t' t with rfl | htt
    · obtain ⟨rfl, hd⟩ := h.table r' hr' r hr _ (by omega) _ (by omega) t' ht' ht
      rcases eq_or_ne j i with rfl | hji
      · have hword := @Bytes.word_setWord_self (s.mem t') (4 * (j % 1024)) 4 w
        rw [Nat.mod_eq_of_lt (show w < 256 ^ 4 by omega)] at hword
        simp [Phys.setEntry, hword, hp]
      · have hword : (Bytes.setWord 4 (s.mem t') (4 * (i % 1024)) w).word 4 (4 * (j % 1024))
            = (s.mem t').word 4 (4 * (j % 1024)) := Bytes.word_setWord_of_disjoint (by omega)
        simp [Phys.setEntry, hword, hji]
    · have hne : ¬ (r' = r ∧ j = i) := by
        rintro ⟨rfl, rfl⟩
        exact htt (Option.some.inj (ht'.symm.trans ht))
      simp [Phys.setEntry, Function.update_of_ne htt, if_neg hne]

/-! ## A new page table -/

/-- The page `x` was free and becomes a table. It has no entries, so nothing translates differently. -/
theorem Forest.attach {x d : ℕ} {rest : List ℕ} (h : Forest s R) (hr : r ∈ R) (hnone : s.table r d = none)
    (hfree : s.free = x :: rest) (hmem : s'.mem = s.mem) (hrest : s'.free = rest) (hw : w < 2 ^ 32)
    (hp : present w = true) (hframe : frame w = x) :
    let s'' := (s'.setPage x fun _ => 0).setEntry r (4 * d) w
    Forest s'' R ∧ SameMaps s s'' R ∧ s''.table r d = some x := by
  intro s''
  obtain ⟨-, hxR, hxt⟩ := h.free x (by simp [hfree])
  have hxr {r' : ℕ} (hr' : r' ∈ R) : x ≠ r' := fun heq => hxR (heq ▸ hr')
  have hnodup := h.nodup
  rw [hfree, List.nodup_cons] at hnodup
  have htable {r' : ℕ} (hr' : r' ∈ R) (e : ℕ) :
      s''.table r' e = if r' = r ∧ e = d then some x else s.table r' e := by
    have hold : (s'.setPage x fun _ => 0).table r' e = s.table r' e := by
      rw [table_setPage (hxr hr')]
      simp [Phys.table, hmem]
    rcases eq_or_ne r' r with rfl | hrr
    · rcases eq_or_ne e d with rfl | hed
      · rw [if_pos ⟨rfl, rfl⟩, ← hframe]
        exact table_setEntry_self hw hp
      · rw [if_neg (by simp [hed]), ← hold]
        exact table_setEntry_ne hed
    · rw [if_neg (by simp [hrr]), ← hold]
      exact table_setPage (Ne.symm hrr)
  refine ⟨⟨?_, ?_, ?_, ?_⟩, ?_, by rw [htable hr, if_pos ⟨rfl, rfl⟩]⟩
  · intro a ha b hb e he e' he' t
    rw [htable ha, htable hb]
    split_ifs with h₁ h₂ h₂
    · exact fun _ _ => ⟨h₁.1.trans h₂.1.symm, h₁.2.trans h₂.2.symm⟩
    · rintro ⟨⟩ ht
      exact absurd ht (hxt b hb e' he')
    · rintro ht ⟨⟩
      exact absurd ht (hxt a ha e he)
    · exact h.table a ha b hb e he e' he' t
  · intro a ha b hb e he
    rw [htable ha]
    split_ifs
    · exact fun heq => hxr hb (Option.some.inj heq)
    · exact h.dir a ha b hb e he
  · intro y hy
    have hy : y ∈ rest := hrest ▸ hy
    obtain ⟨hlt, hyR, hyt⟩ := h.free y (by simp [hfree, hy])
    refine ⟨hlt, hyR, fun a ha e he => ?_⟩
    rw [htable ha]
    split_ifs
    · exact fun heq => hnodup.1 (Option.some.inj heq ▸ hy)
    · exact hyt a ha e he
  · exact hrest ▸ hnodup.2
  · intro a ha j hj
    rw [Phys.mapped, Phys.entry, htable ha, Phys.mapped, Phys.entry]
    split_ifs with h₁
    · -- the entry was missing, and is zero now
      have hzero : s''.mem x = fun _ => 0 := by
        simp [s'', Phys.setEntry, Function.update_of_ne (hxr hr)]
      rw [h₁.1, h₁.2, hnone]
      simp only [Option.map_some, hzero, word_zero]
      rfl
    · cases ht : s.table a (j / 1024) with
      | none => rfl
      | some t =>
        have htr : t ≠ r := fun heq => h.dir a ha r hr _ (by omega) (heq ▸ ht)
        have htx : t ≠ x := fun heq => hxt a ha _ (by omega) (heq ▸ ht)
        have hsame : s''.mem t = s.mem t := by
          simp [s'', Phys.setEntry, Function.update_of_ne htr, Function.update_of_ne htx, hmem]
        rw [Option.map_some, hsame, Option.map_some]

theorem Forest.of_mem (h : Forest s R) (hmem : s'.mem = s.mem) (hfree : s'.free = s.free) : Forest s' R := by
  have htable (r d : ℕ) : s'.table r d = s.table r d := by simp [Phys.table, hmem]
  refine ⟨?_, ?_, ?_, hfree ▸ h.nodup⟩
  · simpa only [htable] using h.table
  · simpa only [htable] using h.dir
  · simpa only [htable, hfree] using h.free

theorem sameMaps_of_mem (hmem : s'.mem = s.mem) : SameMaps s s' R := fun r _ j _ => by
  simp [Phys.mapped, Phys.entry, Phys.table, hmem]

/-! ## The code -/

/-- `walkpgdir` finds or makes a page table, and changes no translation. -/
theorem Forest.wp_walkpgdir {Q : Option (ℕ × ℕ) → Phys → Prop} (h : Forest s R) (hr : r ∈ R) (hi : i < 2 ^ 20)
    (hnone : ∀ s', Forest s' R → SameMaps s s' R → Q none s')
    (hsome : ∀ t s', Forest s' R → SameMaps s s' R → s'.table r (i / 1024) = some t →
      Q (some (t, 4 * (i % 1024))) s') : wp E (walkpgdir r (i * PGSIZE) true) Q s := by
  unfold walkpgdir
  simp only [load, wp_bind, wp_get, wp_pure, PDX_page hi, PTX_page]
  by_cases hp : present ((s.mem r).word 4 (4 * (i / 1024))) = true
  · rw [if_pos hp]
    exact hsome _ s h (sameMaps_of_mem rfl) (if_pos hp)
  · rw [if_neg hp, if_neg (by simp)]
    unfold kalloc
    simp only [wp_bind, wp_get, wp_modify]
    cases hfree : s.free with
    | nil => exact hnone _ (h.of_mem rfl hfree.symm) (sameMaps_of_mem rfl)
    | cons x rest =>
      simp only
      split_ifs with hg
      · obtain ⟨hw, hpw, hframe⟩ := pde_word (h.free x (by simp [hfree])).1
        have hmem : ({ s with grant := fun i => s.grant (i + 1), free := rest } : Phys).mem = s.mem := rfl
        obtain ⟨h', hsame, ht⟩ := h.attach hr (if_neg hp) hfree hmem rfl hw hpw hframe
        exact hsome x _ h' hsame ht
      · exact hnone _ (h.of_mem rfl hfree.symm) (sameMaps_of_mem rfl)

/-- The translations after `k` pages from `i` on have been mapped to the addresses from `pa` on. -/
def Maps (s s' : Phys) (R : Set ℕ) (r i k pa perm : ℕ) : Prop := ∀ r' ∈ R, ∀ j < 2 ^ 20, s'.mapped r' j
  = if r' = r ∧ i ≤ j ∧ j < i + k then some (uint (pa + (j - i) * PGSIZE) ||| perm ||| PTE_P) else s.mapped r' j

theorem SameMaps.maps_zero (h : SameMaps s s' R) : Maps s s' R r i 0 pa perm := fun r' hr' j hj => by
  rw [if_neg (by omega)]
  exact h r' hr' j hj

theorem entry_word_lt (hpa : pa < 2 ^ 32) (hperm : perm < 2 ^ 32) : pa ||| perm ||| PTE_P < 2 ^ 32 :=
  Nat.or_lt_two_pow (Nat.or_lt_two_pow hpa hperm) (by decide)

theorem present_entry_word : present (pa ||| perm ||| PTE_P) = true := by
  simp [present]

/-- One round of the loop: without a page for a table nothing is mapped, otherwise one page is. -/
theorem Forest.wp_round {rest : VM Bool} {Q : Bool → Phys → Prop} (h : Forest s R) (hr : r ∈ R)
    (hi : i < 2 ^ 20) (hpa : pa < 2 ^ 32) (hperm : perm < 2 ^ 32) (hblank : s.mapped r i = none)
    (hnone : ∀ s', Forest s' R → SameMaps s s' R → Q false s')
    (hsome : ∀ s', Forest s' R → Maps s s' R r i 1 pa perm → wp E rest Q s') :
    wp E (do
      match ← walkpgdir r (i * PGSIZE) true with
      | none => pure false
      | some pte =>
        if present (← load pte) then throw (.panic "remap")
        else do
          store pte (pa ||| perm ||| PTE_P)
          rest) Q s := by
  refine wp_bind.mpr (h.wp_walkpgdir hr hi hnone fun t s' h' hsame ht => ?_)
  simp only [load, wp_bind, wp_get, wp_pure]
  have hload : ¬ present ((s'.mem t).word 4 (4 * (i % 1024))) = true := by
    have hmapped := (hsame r hr i hi).trans hblank
    rw [Phys.mapped, Phys.entry, ht] at hmapped
    simpa using hmapped
  rw [if_neg hload]
  refine hsome _ (h'.setEntry hr hi ht _) fun r' hr' j hj => ?_
  have hmapped := h'.mapped_setEntry hr hi ht (entry_word_lt hpa hperm) present_entry_word hr' hj
  refine hmapped.trans ?_
  rw [hsame r' hr' j hj]
  by_cases hji : r' = r ∧ j = i
  · obtain ⟨rfl, rfl⟩ := hji
    rw [if_pos ⟨rfl, rfl⟩, if_pos (by omega), Nat.sub_self, Nat.zero_mul, Nat.add_zero, uint, Nat.mod_eq_of_lt hpa]
  · rw [if_neg hji, if_neg (by omega)]

/-- The loop of `mappages` on the pages from `i` to `i + n`. -/
theorem Forest.wp_mappagesFrom {last : ℕ} (hr : r ∈ R) (hperm : perm < 2 ^ 32) {fuel n : ℕ}
    (h : Forest s R) (hlast : last = (i + n) * PGSIZE) (hn : i + n < 2 ^ 20) (hpa : pa < 2 ^ 32)
    (hfuel : n < fuel) (hblank : ∀ j, i ≤ j → j ≤ i + n → s.mapped r j = none) :
    wp (fun _ => False) (mappagesFrom r last perm fuel (i * PGSIZE) pa) (fun ok s' => Forest s' R ∧
      ∃ k ≤ n + 1, (ok = true ↔ k = n + 1) ∧ Maps s s' R r i k pa perm) s := by
  induction fuel generalizing n i pa s with
  | zero => omega
  | succ fuel ih =>
    rw [mappagesFrom]
    refine h.wp_round hr (by omega) hpa hperm (hblank i le_rfl (by omega)) (fun s' h' hsame => ?_) fun s' h' hmap => ?_
    · exact ⟨h', 0, by omega, by simp, hsame.maps_zero⟩
    · cases n with
      | zero =>
        rw [if_pos (by simp [hlast])]
        exact ⟨h', 1, le_rfl, by simp, hmap⟩
      | succ n =>
        have hne : i * PGSIZE ≠ last := by
          simp only [hlast, PGSIZE]
          omega
        have hnext : uint (i * PGSIZE + PGSIZE) = (i + 1) * PGSIZE := by
          simp only [uint, PGSIZE]
          omega
        rw [if_neg hne, hnext]
        have hblank' (j : ℕ) (hj : i + 1 ≤ j) (hj' : j ≤ i + 1 + n) : s'.mapped r j = none := by
          rw [hmap r hr j (by omega), if_neg (by omega)]
          exact hblank j (by omega) (by omega)
        have hpa' : uint (pa + PGSIZE) < 2 ^ 32 := Nat.mod_lt _ (Nat.two_pow_pos 32)
        refine wp_mono (ih h' (by rw [hlast, Nat.add_right_comm, Nat.add_assoc]) (by omega) hpa' (by omega) hblank') ?_
        rintro ok s'' ⟨h'', k, hk, hok, hmap'⟩
        refine ⟨h'', k + 1, by omega, by rw [hok]; omega, fun r' hr' j hj => ?_⟩
        rw [hmap' r' hr' j hj, hmap r' hr' j hj]
        by_cases hin : r' = r ∧ i + 1 ≤ j ∧ j < i + 1 + k
        · have haddr : uint (uint (pa + PGSIZE) + (j - (i + 1)) * PGSIZE) = uint (pa + (j - i) * PGSIZE) := by
            simp only [uint, PGSIZE]
            omega
          rw [if_pos hin, if_pos (by omega), haddr]
        · rw [if_neg hin]
          by_cases hfirst : r' = r ∧ i ≤ j ∧ j < i + 1
          · rw [if_pos hfirst, if_pos (by omega)]
          · rw [if_neg hfirst, if_neg (by omega)]

/-- `mappages` maps the pages of the range one after the other, each to the page at its place behind `pa`
and with the permissions `perm`. If it fails it has mapped an initial part of them. All other translations
of all directories are as before. -/
theorem mappages_exact {va size pa perm : ℕ} (h : Forest s R) (hr : r ∈ R) (hsize : 0 < size)
    (hrange : va + size ≤ 2 ^ 32) (hva : va % PGSIZE = 0) (hpa : pa % PGSIZE = 0) (hpa' : pa < 2 ^ 32)
    (hperm : perm < PGSIZE)
    (hblank : ∀ j, va / PGSIZE ≤ j → j ≤ (va + size - 1) / PGSIZE → s.mapped r j = none) :
    ∃ ok s' k, mappages r va size pa perm s = .ok ok s' ∧ Forest s' R ∧
      k ≤ (va + size - 1) / PGSIZE - va / PGSIZE + 1 ∧
      (ok = true ↔ k = (va + size - 1) / PGSIZE - va / PGSIZE + 1) ∧
      ∀ r' ∈ R, ∀ j < 2 ^ 20,
        if r' = r ∧ va / PGSIZE ≤ j ∧ j < va / PGSIZE + k then
          ∃ w, s'.mapped r' j = some w ∧ frame w * PGSIZE = uint (pa + (j * PGSIZE - va)) ∧ flags w = perm ||| PTE_P
        else s'.mapped r' j = s.mapped r' j := by
  simp only [PGSIZE] at hva hpa hperm hblank ⊢
  generalize hi : va / 4096 = i at *
  generalize hn : (va + size - 1) / 4096 - i = n at *
  have hend : (va + size - 1) / 4096 = i + n := by omega
  have hfirst : PGROUNDDOWN va = i * PGSIZE := by rw [PGROUNDDOWN, ← hi]
  have hlast : PGROUNDDOWN (uint (va + size + 2 ^ 32 - 1)) = (i + n) * PGSIZE := by
    simp only [PGROUNDDOWN, uint, PGSIZE]
    omega
  have hwp : wp (fun _ => False) (mappages r va size pa perm)
      (fun ok s' => Forest s' R ∧ ∃ k ≤ n + 1, (ok = true ↔ k = n + 1) ∧ Maps s s' R r i k pa perm) s := by
    rw [mappages, hfirst]
    exact h.wp_mappagesFrom hr (lt_trans hperm (by decide)) hlast (by omega) hpa' (by omega)
      fun j hj hj' => hblank j hj (by omega)
  obtain ⟨ok, s', hrun, h', k, hk, hok, hmaps⟩ := wp_returns hwp
  refine ⟨ok, s', k, hrun, h', hk, hok, fun r' hr' j hj => ?_⟩
  rw [hmaps r' hr' j hj]
  split_ifs with hin
  · obtain ⟨x, hx⟩ : ∃ x, uint (pa + (j - i) * PGSIZE) = x * PGSIZE :=
      ⟨uint (pa + (j - i) * PGSIZE) / 4096, by simp only [uint, PGSIZE]; omega⟩
    have haddr : pa + (j * 4096 - va) = pa + (j - i) * PGSIZE := by
      simp only [PGSIZE]
      omega
    rw [haddr, hx]
    exact ⟨pte x perm, rfl, by rw [frame_pte hperm], flags_pte hperm⟩
  · rfl

/-- The kernel's last mapping, which ends at `2 ^ 32`, in an empty directory and with one free page. -/
theorem mappages_exact_devices :
    let s : Phys := { mem := fun _ _ => 0, free := [1], grant := fun _ => true }
    Forest s {0} ∧ ∃ ok s', mappages 0 DEVSPACE 0x2000000 DEVSPACE PTE_W s = .ok ok s' ∧ Forest s' {0} := by
  intro s
  have htable (r d : ℕ) : s.table r d = none := by simp [Phys.table, s, word_zero, present]
  have hs : Forest s {0} := by
    refine ⟨by simp [htable], by simp [htable], fun x hx => ?_, by simp [s]⟩
    obtain rfl : x = 1 := by simpa [s] using hx
    simp [htable]
  obtain ⟨ok, s', -, hrun, h', -⟩ := @mappages_exact s {0} 0 DEVSPACE 0x2000000 DEVSPACE PTE_W hs rfl (by decide)
    (by decide) (by decide) (by decide) (by decide) (by decide) fun j _ _ => by simp [Phys.mapped, Phys.entry, htable]
  exact ⟨hs, ok, s', hrun, h'⟩

end

end Xv6.Vm
