import Xv6.Vm.Resize

/-!
# Copies of memory

`copyuvm` gives the child an address space that looks the same and shares no page with the parent's.
`copyout` writes to pages the user reaches, and to no others, as long as there is a page table for every
address it comes to.
-/

namespace Xv6.Vm

open Lib Exec

/-! ## `copyuvm` -/

theorem flags_pte_flags {x w : ℕ} (hp : present w = true) : flags (pte x (flags w)) = flags w := by
  have hbit : (flags w).testBit 0 = true := by
    rw [flags, Nat.testBit_mod_two_pow]
    simpa [present] using hp
  rw [flags_pte flags_lt]
  refine Nat.eq_of_testBit_eq fun i => ?_
  rw [Nat.testBit_or]
  cases i with
  | zero => simp [hbit]
  | succ i =>
    have hone : Nat.testBit PTE_P (i + 1) = false := by simp [PTE_P, Nat.testBit_succ]
    rw [hone, Bool.or_false]

/-- The address space `d` in `s'` is a copy of the address space `r` in `s`: the same pages with the same
flags and the same contents, and no others. The pages are new, and the original is as it was. -/
structure IsCopy (s s' : Phys) (r d sz : ℕ) : Prop where
  copied : ∀ i, i * PGSIZE < PGROUNDUP sz → ∃ v w, s.mapped r i = some v ∧ s'.mapped d i = some w ∧
    flags w = flags v ∧ s'.mem (frame w) = s.mem (frame v)
  only : ∀ i < 2 ^ 19, PGROUNDUP sz ≤ i * PGSIZE → s'.mapped d i = none
  distinct : ∀ i j v w, i < 2 ^ 19 → j < 2 ^ 19 → s'.mapped d i = some v → s'.mapped d j = some w →
    frame v = frame w → i = j
  fresh : ∀ i j v w, i < 2 ^ 19 → j < 2 ^ 19 → s'.mapped d i = some v → s.mapped r j = some w →
    frame v ≠ frame w
  source : ∀ i < 2 ^ 20, s'.entry r i = s.entry r i
  memory : ∀ i < 2 ^ 19, ∀ w, s.mapped r i = some w → s'.mem (frame w) = s.mem (frame w)

section

variable {ι κ : Type} {K : Image} {s s' : Phys} {ρ : Roots ι κ} {ω ω' : ℕ → Option (Place ι κ)} {g g' : ι}
  {r sz : ℕ}

theorem Inv.mapped_place (h : Inv K s ρ ω) (hr : ρ.dir g = some r) {i w : ℕ} (hi : i < 2 ^ 19)
    (hw : s.mapped r i = some w) : ω (frame w) = some (.page g i) :=
  (h.place _ _).mp ((at_page_iff hr hi).mpr (by rw [hw]; rfl))

/-- What the rule for `copyuvm` says, in terms of memory. -/
theorem isCopy_of_copies {d : ℕ} (h : Inv K s ρ ω) (hr : ρ.dir g' = some r) {ρ' : Roots ι κ}
    (h' : Inv K s' ρ' ω') (hd : ρ'.dir g = some d) (hr' : ρ'.dir g' = some r) (hne : g' ≠ g)
    (hsz : sz ≤ KERNBASE) (hothers : Others s s' ρ' g) (hsteady : Steady (fun _ => True) s s' ω ω')
    (hcopies : Copies s s' (s.entry r) d 0 (pages sz))
    (honly : ∀ i < 2 ^ 19, pages sz ≤ i → s'.mapped d i = none) : IsCopy s s' r d sz := by
  have hsource : ∀ i < 2 ^ 20, s'.entry r i = s.entry r i := fun i hi => hothers g' r i hr' hi hne
  refine ⟨fun i hi => ?_, fun i hi hge => honly i hi ?_, fun i j v w hi hj => h'.mapped_inj hd hi hj,
    fun i j v w hi hj hv hw heq => ?_, hsource, fun i hi w hw => ?_⟩
  · rw [PGROUNDUP_eq hsz] at hi
    obtain ⟨x, w, hw, hp, hmapped, hmem⟩ :=
      hcopies i (Nat.zero_le i) (by rw [Nat.zero_add]; exact Nat.lt_of_mul_lt_mul_right hi)
    refine ⟨w, pte x (flags w), ?_, hmapped, flags_pte_flags hp, ?_⟩
    · rw [Phys.mapped, hw]
      simp [hp]
    · rw [frame_pte flags_lt, hmem]
  · rw [PGROUNDUP_eq hsz] at hge
    exact Nat.le_of_mul_le_mul_right hge (by decide)
  · -- a page is in one address space only
    have hw' : s'.mapped r j = some w := by
      rw [Phys.mapped, hsource j (by omega), ← Phys.mapped, hw]
    have hpl := h'.mapped_place hr' hj hw'
    rw [← heq, h'.mapped_place hd hi hv] at hpl
    exact hne (Place.page.inj (Option.some.inj hpl)).1.symm
  · exact (hsteady _ g' i trivial (h.mapped_place hr hi hw)).2

/-- If all pages below `sz` are present, `copyuvm` returns, and the directory it returns is that of a
copy. -/
theorem copyuvm_copies (h : Inv K s ρ ω) (hr : ρ.dir g = some r) (hsz : sz < KERNBASE)
    (hp : ∀ i, i * PGSIZE < sz → s.mapped r i ≠ none) :
    ∃ res s', copyuvm K r sz s = .ok res s' ∧ ∀ d, res = some d → IsCopy s s' r d sz := by
  classical
  -- the new address space gets a name of its own
  have hinj := h.inject
  have hr' : ρ.inject.dir (some g) = some r := hr
  have hpresent : ∀ i < pages sz, ∃ w, s.entry r i = some w ∧ present w = true := by
    intro i hi
    obtain ⟨w, hw⟩ := Option.ne_none_iff_exists'.mp (hp i (by simp only [pages, PGSIZE] at hi ⊢; omega))
    exact ⟨w, Option.filter_eq_some_iff.mp hw⟩
  refine wp_returns (wp_copyuvm (g := none) (P := ⟨s.answers, fun _ => none, 0⟩) hinj rfl hr' rfl hsz.le
    (.inr hpresent) (fun s' ω' P' _ _ => (by simp)) fun d s' ω' P' _ hch hsteady hcopies honly => ?_)
  rintro _ ⟨⟩
  exact isCopy_of_copies hinj hr' hch.inv (Function.update_self ..)
    ((Function.update_of_ne (Option.some_ne_none g) (some d) _).trans hr') (Option.some_ne_none g) hsz.le
    hch.others hsteady hcopies honly

end

/-- With enough pages, a single page is copied. -/
theorem Plan.clone_one {P : Plan} {K : Image} {src : ℕ → Option ℕ} (h : P.Enough 67) :
    (P.clone K src PGSIZE).1 = true := by
  obtain ⟨P', hsetup, h'⟩ := Plan.setup_enough (K := K) (c := 2) h
  obtain ⟨x, hx⟩ := Option.ne_none_iff_exists'.mp (h' 0 (by decide))
  obtain ⟨y, hy⟩ := Option.ne_none_iff_exists'.mp (h' 1 (by decide))
  have hpages : pages PGSIZE = 1 := by decide
  have hmap : ∀ w, (P'.next.map 0 w).1 = true := by
    intro w
    have hy' : P'.next.ask 0 = some y := hy
    cases he : P'.next.entry 0 <;> simp [Plan.map, Plan.walk, he, hy']
  rw [Plan.clone, hsetup, Plan.andThen_true, hpages, Plan.copy, hx]
  simp [Plan.andThen, hmap, Plan.copy]

theorem copyuvm_copies_single : ∃ (s s' : Phys) (d w : ℕ), s.mapped 1024 0 = some w ∧
    copyuvm .sample 1024 PGSIZE s = .ok (some d) s' ∧ IsCopy s s' 1024 d PGSIZE := by
  obtain ⟨s, hs⟩ := exists_single (κ := Unit) (g := true) (j := 0) (by decide)
  obtain ⟨ω, h⟩ := hs.inv
  obtain ⟨w, hw⟩ := hs.self
  obtain ⟨res, s', hrun, hcopy⟩ := copyuvm_copies h dir_only (show PGSIZE < KERNBASE by decide) fun i hi => by
    obtain rfl : i = 0 := by simp only [PGSIZE] at hi; omega
    simp [hw]
  -- the machine has pages for the copy
  have hclone : (Plan.clone .sample (s.entry 1024) PGSIZE ⟨s.answers, fun _ => none, 0⟩).1 = true :=
    Plan.clone_one fun m hm => hs.spare m (by omega)
  have hres : ∃ d, res = some d := wp_ok (wp_copyuvm (E := fun _ => True) (g := false)
    (Q := fun res _ => ∃ d, res = some d) h rfl dir_only rfl (by decide) (.inl fun _ => trivial)
    (fun s' ω' P' heq _ => by rw [heq] at hclone; cases hclone) fun d _ _ _ _ _ _ _ _ => ⟨d, rfl⟩) hrun
  obtain ⟨d, rfl⟩ := hres
  exact ⟨s, s', d, w, hw, hrun, hcopy d rfl⟩

/-! ## `copyout` -/

/-- Page `i` is one of those on which the `n` bytes from `va` on lie. -/
def Touches (va n i : ℕ) : Prop := ∃ k < n, (va + k) / PGSIZE = i

/-- If the code runs into a page without a page table, the user reaches all pages before. -/
theorem Plan.copyout_none {P : Plan} (fuel : ℕ) {va n : ℕ} (hva : va + n ≤ 2 ^ 32)
    (h : P.copyout fuel va n = none) :
    ∃ i, Touches va n i ∧ P.entry i = none ∧ ∀ j, Touches va n j → j < i → reached (P.entry j) ≠ none := by
  induction fuel generalizing va n with
  | zero => cases n <;> cases h
  | succ fuel ih =>
    cases n with
    | zero => cases h
    | succ n =>
      rw [Plan.copyout] at h
      cases he : P.entry (va / PGSIZE) with
      | none =>
        refine ⟨va / PGSIZE, ⟨0, Nat.succ_pos n, rfl⟩, he, ?_⟩
        rintro _ ⟨k, -, rfl⟩ hlt
        exact absurd hlt (Nat.not_lt.mpr (Nat.div_le_div_right (Nat.le_add_right va k)))
      | some w =>
        simp only [he] at h
        split_ifs at h with hok
        have hmore : PGSIZE - va % PGSIZE < n + 1 := by
          by_contra hle
          rw [Nat.sub_eq_zero_of_le (not_lt.mp hle)] at h
          cases fuel <;> cases h
        have hnext : uint (PGROUNDDOWN va + PGSIZE) = va + (PGSIZE - va % PGSIZE) := by
          simp only [uint, PGROUNDDOWN, PGSIZE] at hmore ⊢
          omega
        rw [hnext] at h
        obtain ⟨i, ⟨k, hk, hik⟩, hnone, hbefore⟩ := ih (by omega) h
        refine ⟨i, ⟨PGSIZE - va % PGSIZE + k, by omega, by rw [← hik, Nat.add_assoc]⟩, hnone, ?_⟩
        rintro j ⟨k', hk', hjk⟩ hji
        by_cases hfirst : k' < PGSIZE - va % PGSIZE
        · -- a byte of the first page
          have hj : j = va / PGSIZE := by
            rw [← hjk]
            simp only [PGSIZE] at hfirst ⊢
            omega
          rw [hj, he]
          simp [reached, Option.filter, hok]
        · have hrest : va + (PGSIZE - va % PGSIZE) + (k' - (PGSIZE - va % PGSIZE)) = va + k' := by omega
          exact hbefore j ⟨k' - (PGSIZE - va % PGSIZE), by omega, by rw [hrest, hjk]⟩ hji

/-- `copyout` returns. It succeeds if and only if the user reaches every page of the range, and then the
bytes have been copied and nothing else has changed. Otherwise only bytes of the range have changed, on
pages the user reaches. -/
def CopyoutRight (s : Phys) (r va : ℕ) (bs : List UInt8) : Prop :=
  ∃ b s', copyout r va bs s = .ok b s' ∧
    (b = true ↔ ∀ i, Touches va bs.length i → s.reach r i ≠ none) ∧
    (b = true → Copied s s' r va bs bs.length) ∧
    (b = false → s'.free = s.free ∧ s'.grant = s.grant ∧ ∀ x o, s'.mem x o ≠ s.mem x o →
      ∃ k < bs.length, s.reach r ((va + k) / PGSIZE) = some x ∧ (va + k) % PGSIZE = o)

section

variable {ι κ : Type} {K : Image} {s s' : Phys} {ρ : Roots ι κ} {ω : ℕ → Option (Place ι κ)} {g : ι}
  {r va : ℕ} {bs : List UInt8} {b : Bool}

theorem Copied.touches {n : ℕ} (hc : Copied s s' r va bs n) {i : ℕ} (hi : Touches va n i) : s.reach r i ≠ none := by
  obtain ⟨k, hk, rfl⟩ := hi
  obtain ⟨x, hx, -⟩ := hc.dest k hk
  simp [hx]

theorem CopyEnds.right (hends : CopyEnds s s' r va bs b) (hrun : copyout r va bs s = .ok b s') :
    CopyoutRight s r va bs := by
  refine ⟨b, s', hrun, ?_⟩
  cases b with
  | true => exact ⟨iff_of_true rfl fun i => hends.1.touches, fun _ => hends.1, nofun⟩
  | false =>
    obtain ⟨n, hn, hc, -, -, hnone⟩ := hends
    refine ⟨iff_of_false nofun fun hall => hall _ ⟨n, hn, rfl⟩ hnone, nofun, fun _ => ⟨hc.free, hc.grant, ?_⟩⟩
    intro x o hne
    by_contra hcon
    refine hne (hc.rest x o fun k hk hx ho => hcon ⟨k, by omega, hx, ho⟩)

/-- `copyout` does right if and only if there is a page table for every page of the range to which it
comes: for each one such that the user reaches all pages of the range before it. -/
theorem copyout_right_iff (h : Inv K s ρ ω) (hr : ρ.dir g = some r) (hva : va < 2 ^ 32)
    (hle : va + bs.length ≤ 2 ^ 32) :
    CopyoutRight s r va bs ↔ ∀ i, Touches va bs.length i →
      (∀ j, Touches va bs.length j → j < i → s.reach r j ≠ none) → s.table r (i / 1024) ≠ none := by
  have hlt : ∀ i, Touches va bs.length i → i < 2 ^ 20 := by
    rintro _ ⟨k, hk, rfl⟩
    simp only [PGSIZE]
    omega
  have hnone : ∀ i, s.table r (i / 1024) = none → s.reach r i = none := by
    intro i ht
    rw [Phys.reach, Phys.entry, ht]
    rfl
  have hsees : Sees s r (s.plan r) := ⟨rfl, fun _ _ => rfl⟩
  constructor
  · rintro ⟨b, s', hrun, -⟩ i hi hbefore ht
    have hends : CopyEnds s s' r va bs b := wp_ok (wp_copyoutFrom (E := fun _ => True)
      (Q := fun b s' => CopyEnds s s' r va bs b) hr _ h hsees hva le_rfl (fun _ => trivial)
      fun _ _ _ _ hends => hends) hrun
    cases b with
    | true => exact hends.1.touches hi (hnone i ht)
    | false =>
      obtain ⟨n, hn, hc, -, ht', hr'⟩ := hends
      rcases lt_trichotomy ((va + n) / PGSIZE) i with hlt' | heq | hgt
      · exact hbefore _ ⟨n, hn, rfl⟩ hlt' hr'
      · exact ht' (heq ▸ ht)
      · obtain ⟨k, hk, rfl⟩ := hi
        refine hc.touches ⟨k, ?_, rfl⟩ (hnone _ ht)
        by_contra hkn
        exact absurd (Nat.div_le_div_right (c := PGSIZE) (show va + n ≤ va + k by omega)) (not_le.mpr hgt)
  · intro hcond
    have hwp : wp (fun _ => False) (copyout r va bs) (fun b s' => CopyEnds s s' r va bs b) s := by
      refine wp_copyoutFrom hr _ h hsees hva le_rfl (fun hbad => ?_) fun _ _ _ _ hends => hends
      obtain ⟨i, hi, he, hbefore⟩ := Plan.copyout_none _ hle hbad
      exact hcond i hi hbefore (Option.map_eq_none_iff.mp he)
    obtain ⟨b, s', hrun, hends⟩ := wp_returns hwp
    exact hends.right hrun

end

/-- There is no page table at all: `copyout` follows a null pointer. -/
theorem copyout_null : ∃ ω : ℕ → Option (Place Unit Unit),
    Inv .sample (.bare 0 fun _ => true) (Roots.only ()) ω ∧
      ¬CopyoutRight (.bare 0 fun _ => true) 1024 0 [0] := by
  refine ⟨_, inv_bare (by decide) _, ?_⟩
  rintro ⟨b, s', hrun, -⟩
  have herror : copyout 1024 0 [0] (.bare 0 fun _ => true) = .error .null (.bare 0 fun _ => true) := rfl
  rw [herror] at hrun
  cases hrun

theorem copyout_right_iff_single : ∃ (s : Phys) (w : ℕ), s.mapped 1024 0 = some w ∧
    CopyoutRight s 1024 0 [0] := by
  obtain ⟨s, hs⟩ := exists_single (κ := Unit) (g := ()) (j := 0) (by decide)
  obtain ⟨ω, h⟩ := hs.inv
  obtain ⟨w, hw⟩ := hs.self
  refine ⟨s, w, hw, (copyout_right_iff h dir_only (by decide) (by decide)).mpr ?_⟩
  rintro _ ⟨k, hk, rfl⟩ - ht
  obtain rfl : k = 0 := by simpa using hk
  rw [Phys.mapped, Phys.entry] at hw
  simp only [Nat.add_zero, Nat.zero_div] at ht hw
  rw [ht] at hw
  cases hw

end Xv6.Vm
