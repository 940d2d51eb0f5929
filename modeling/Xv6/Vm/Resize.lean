import Xv6.Vm.Ownership

/-!
# The size of an address space

What `deallocuvm`, `allocuvm` and `growproc` promise: the first frees the pages of a range and no
others, the second returns a size only if all pages up to it are there, the third does all or nothing.
None of them does so always. The theorems say for which address spaces and which requests they do.
-/

namespace Xv6.Vm

open Lib Exec

/-! ## A machine with one page directory -/

/-- A page directory at page 1024 that maps nothing, `n` free pages behind it, and given answers to the
requests for pages. -/
def Phys.bare (n : ℕ) (grant : ℕ → Bool) : Phys := ⟨fun _ _ => 0, List.range' 1025 n, grant⟩

section

variable {ι κ : Type} [DecidableEq ι] (g : ι)

/-- The directory belongs to `g`, and there is nothing else. -/
def Roots.only : Roots ι κ := ⟨fun g' => if g' = g then some 1024 else none, fun _ => none, ∅⟩

def placesBare (n x : ℕ) : Option (Place ι κ) :=
  if x = 1024 then some (.dir g) else if 1025 ≤ x ∧ x < 1025 + n then some .free else none

variable {g} {n : ℕ}

theorem dir_only : (Roots.only g : Roots ι κ).dir g = some 1024 := if_pos rfl

theorem of_dir_only {g' : ι} {r : ℕ} (h : (Roots.only g : Roots ι κ).dir g' = some r) : g' = g ∧ r = 1024 := by
  simp only [Roots.only] at h
  split_ifs at h with hg
  exact ⟨hg, (Option.some.inj h).symm⟩

theorem inv_bare (hn : n ≤ 4096) (grant : ℕ → Bool) :
    Inv .sample (.bare n grant) (Roots.only g) (placesBare (κ := κ) g n) := by
  have hmem : ∀ x, x ∈ (Phys.bare n grant).free ↔ 1025 ≤ x ∧ x < 1025 + n := fun x => List.mem_range'_1
  have htable : ∀ d, (Phys.bare n grant).table 1024 d = none := fun d => table_zero rfl
  have hentry : ∀ i, (Phys.bare n grant).entry 1024 i = none := fun i => entry_zero rfl
  refine ⟨fun x a => ?_, List.nodup_range', fun x a hx => ?_, fun _ r i w hr _ _ hw => ?_⟩
  · unfold placesBare
    cases a with
    | free =>
      refine (hmem x).trans ?_
      split_ifs <;> simp_all
    | dir g' =>
      have hdir : At (Phys.bare n grant) (Roots.only g : Roots ι κ) x (.dir g') ↔ g' = g ∧ x = 1024 := by
        refine ⟨of_dir_only, ?_⟩
        rintro ⟨rfl, rfl⟩
        exact dir_only
      rw [hdir]
      split_ifs <;> simp_all [eq_comm]
    | table g' d =>
      refine iff_of_false ?_ (by split_ifs <;> simp)
      rintro ⟨-, r, hr, ht⟩
      obtain ⟨rfl, rfl⟩ := of_dir_only hr
      rw [htable] at ht
      cases ht
    | page g' i =>
      refine iff_of_false ?_ (by split_ifs <;> simp)
      rintro ⟨-, r, hr, hm⟩
      obtain ⟨rfl, rfl⟩ := of_dir_only hr
      rw [Phys.mapped, hentry] at hm
      cases hm
    | _ => exact iff_of_false (by simp [At, Roots.only]) (by split_ifs <;> simp)
  · have hle : 1024 ≤ x ∧ x < 1025 + n := by
      unfold placesBare at hx
      split_ifs at hx <;> omega
    simp only [Image.Managed, Image.sample, PGSIZE, PHYSTOP]
    omega
  · obtain ⟨rfl, rfl⟩ := of_dir_only hr
    rw [hentry] at hw
    cases hw

/-- The plan for the machine with one directory. -/
def Plan.bare (n : ℕ) (grant : ℕ → Bool) : Plan := ⟨(Phys.bare n grant).answers, fun _ => none, 0⟩

theorem sees_bare {grant : ℕ → Bool} : Sees (.bare n grant) 1024 (.bare n grant) :=
  ⟨rfl, fun _ _ => (entry_zero rfl).symm⟩

theorem bare_ask {i : ℕ} : (Plan.bare n fun _ => true).ask i = (List.range' 1025 n)[i]? := by
  simp [Plan.bare, Phys.answers, Phys.bare]

/-- An address space with a single page, on a machine with pages to spare. -/
structure Single (κ : Type) (g : ι) (s : Phys) (j : ℕ) : Prop where
  inv : ∃ ω, Inv .sample s (Roots.only g : Roots ι κ) ω
  self : ∃ w, s.mapped 1024 j = some w
  table : ∀ d < 1024, d ≠ j / 1024 → s.table 1024 d = none
  other : ∀ i < 2 ^ 20, i ≠ j → s.mapped 1024 i = none
  spare : ∀ i < 1000, s.answers i ≠ none

/-- The code that maps a page of its own. -/
def mapOne (j : ℕ) : VM Bool := do
  match ← kalloc with
  | none => pure false
  | some x => do
    memset x 0
    mappages 1024 (j * PGSIZE) PGSIZE (x * PGSIZE) (PTE_W ||| PTE_U)

theorem exists_single {j : ℕ} (hj : j < 2 ^ 19) : ∃ s, Single κ g s j := by
  have hinv := inv_bare (κ := κ) (g := g) (n := 1024) (by decide) fun _ => true
  have hask : ∀ i < 1024, ∃ x, (Plan.bare 1024 fun _ => true).ask i = some x := fun i hi => by
    rw [bare_ask]
    simp [hi]
  have hcode : wp (fun _ => False) (mapOne j) (fun _ s => Single κ g s j) (.bare 1024 fun _ => true) := by
    refine wp_bind.mpr (wp_kalloc hinv (fun s' hans _ _ => ?_) fun x s₁ hans hx h₁ ha => ?_)
    · obtain ⟨x, hx⟩ := hask 0 (by decide)
      exact absurd (hans.symm.trans hx) (by simp)
    · obtain ⟨y, hy⟩ := hask 1 (by decide)
      have hmap : (Plan.bare 1024 fun _ => true).next.map j (pte x (PTE_W ||| PTE_U)) =
          (true, Plan.set ⟨fun i => (Plan.bare 1024 fun _ => true).ask (i + 2),
            fun i => if i / 1024 = j / 1024 then some 0 else none, 0⟩ j (pte x (PTE_W ||| PTE_U))) := by
        have hnone : (Plan.bare 1024 fun _ => true).next.entry j = none := rfl
        have hy' : (Plan.bare 1024 fun _ => true).next.ask 0 = some y := hy
        simp only [Plan.map, Plan.walk, hnone, hy', Plan.andThen_true]
        rfl
      refine wp_bind.mpr (wp_modify.mpr (wp_mappages_new (g := g) hinv dir_only sees_bare hans hx h₁ ha hj
        (by decide) (.inr fun w hw => by cases hw) (fun s' ω' P' hmap' _ _ _ => ?_) fun s' ω' P' hmap' hself _ h' => ?_))
      · rw [hmap] at hmap'
        cases hmap'
      · rw [hmap] at hmap'
        obtain rfl := (Prod.mk.inj hmap').2
        refine ⟨⟨ω', h'.inv⟩, ⟨_, hself⟩, fun d hd hne => ?_, fun i hi hij => ?_, fun i hi => ?_⟩
        · by_contra ht
          rw [← Ne, table_ne_none, ← h'.sees.entry _ (by omega)] at ht
          simp only [Plan.set] at ht
          rw [Function.update_of_ne (by rintro rfl; omega), if_neg (by omega)] at ht
          exact ht rfl
        · rw [h'.same i hi hij, Phys.mapped, entry_zero rfl]
          rfl
        · obtain ⟨z, hz⟩ := hask (i + 2) (by omega)
          rw [← h'.sees.ask]
          exact hz.trans_ne (by simp)
  obtain ⟨-, s, -, hs⟩ := wp_returns hcode
  exact ⟨s, hs⟩

end

/-! ## `deallocuvm` -/

/-- Page `i` lies in the range between the two sizes that `deallocuvm` and `allocuvm` deal with. -/
def InRange (lo hi i : ℕ) : Prop := PGROUNDUP lo ≤ i * PGSIZE ∧ i * PGSIZE < hi

instance (lo hi i : ℕ) : Decidable (InRange lo hi i) := inferInstanceAs (Decidable (_ ∧ _))

theorem inRange_iff {lo hi i : ℕ} (hlo : lo ≤ KERNBASE) : InRange lo hi i ↔ pages lo ≤ i ∧ i * PGSIZE < hi := by
  rw [InRange, PGROUNDUP_eq hlo]
  exact and_congr_left' (Nat.mul_le_mul_right_iff (by decide))

section

variable {ι κ : Type} {K : Image} {s s' : Phys} {ρ : Roots ι κ} {ω ω' : ℕ → Option (Place ι κ)} {g : ι}
  {r oldsz newsz : ℕ}

/-- The pages of the range have been unmapped and are on the free list, each of them once, and every
other translation is the same. -/
structure FreesRange (s s' : Phys) (ρ : Roots ι κ) (g : ι) (r oldsz newsz : ℕ) : Prop where
  unmapped : ∀ i, InRange newsz oldsz i → s'.mapped r i = none
  same : ∀ i < 2 ^ 20, ¬InRange newsz oldsz i → s'.entry r i = s.entry r i
  others : Others s s' ρ g
  once : s'.free.Nodup
  freed : ∀ x, x ∈ s'.free ↔
    x ∈ s.free ∨ ∃ i, InRange newsz oldsz i ∧ (s.mapped r i).map frame = some x

/-- What `deallocuvm` has freed is its range if and only if it has jumped over no mapped page. -/
theorem Unmaps.freesRange_iff (h : Inv K s ρ ω) (hr : ρ.dir g = some r) (hlt : newsz < oldsz)
    (hle : oldsz ≤ KERNBASE) (h' : Inv K s' ρ ω')
    (hu : Unmaps (s.Visits r oldsz (pages newsz)) s s' ω ω' ρ g) :
    FreesRange s s' ρ g r oldsz newsz ↔
      ∀ i, InRange newsz oldsz i → s.Skips r (pages newsz) i → s.mapped r i = none := by
  have hrange : ∀ i, InRange newsz oldsz i ↔ pages newsz ≤ i ∧ i * PGSIZE < oldsz := fun i =>
    inRange_iff (hlt.le.trans hle)
  have hlow : ∀ i, InRange newsz oldsz i → i < 2 ^ 19 := fun i hi => by
    have := hi.2
    simp only [PGSIZE, KERNBASE] at this hle
    omega
  have hvisits : ∀ i, s.Visits r oldsz (pages newsz) i ↔
      InRange newsz oldsz i ∧ ¬s.Skips r (pages newsz) i := fun i => by
    rw [hrange, and_assoc]
    rfl
  have hentry : ∀ i < 2 ^ 20, (InRange newsz oldsz i → s.Skips r (pages newsz) i) →
      s'.entry r i = s.entry r i := fun i hi hskip =>
    hu.entry r i hr hi fun hV => ((hvisits i).mp hV).2 (hskip ((hvisits i).mp hV).1)
  constructor
  · intro hf i hi hskip
    rw [← hf.unmapped i hi, Phys.mapped, Phys.mapped, hentry i (by have := hlow i hi; omega) fun _ => hskip]
  · intro hnone
    refine ⟨fun i hi => ?_, fun i hi hnot => hentry i hi fun hin => absurd hin hnot, hu.others, h'.nodup,
      fun x => ?_⟩
    · have hi' : i < 2 ^ 20 := by have := hlow i hi; omega
      by_cases hskip : s.Skips r (pages newsz) i
      · rw [Phys.mapped, hentry i hi' fun _ => hskip]
        exact hnone i hi hskip
      · exact hu.gone r i hr hi' ((hvisits i).mpr ⟨hi, hskip⟩)
    · have hfree : x ∈ s'.free ↔ ω' x = some .free := h'.place x .free
      have hfree' : x ∈ s.free ↔ ω x = some .free := h.place x .free
      have hpage : ∀ i, InRange newsz oldsz i →
          ((s.mapped r i).map frame = some x ↔ ω x = some (.page g i)) := fun i hi =>
        (at_page_iff hr (hlow i hi)).symm.trans (h.place x _)
      rw [hfree, hfree']
      constructor
      · intro hx
        by_cases hex : ∃ i, ω x = some (.page g i) ∧ s.Visits r oldsz (pages newsz) i
        · obtain ⟨i, hxi, hV⟩ := hex
          have hin := ((hvisits i).mp hV).1
          exact .inr ⟨i, hin, (hpage i hin).mpr hxi⟩
        · rw [hu.place x fun i hxi hV => hex ⟨i, hxi, hV⟩] at hx
          exact .inl hx
      · rintro (hx | ⟨i, hi, hmap⟩)
        · exact (hu.place x fun i hxi => absurd (hx.symm.trans hxi) (by simp)).trans hx
        · refine hu.freed x i ((hpage i hi).mp hmap) ((hvisits i).mpr ⟨hi, fun hskip => ?_⟩)
          rw [hnone i hi hskip] at hmap
          cases hmap

/-- `deallocuvm` frees exactly its range if and only if no page is mapped that it jumps over: none of
the first pages of the first table behind a gap in which there is no table. -/
theorem deallocuvm_frees_iff (h : Inv K s ρ ω) (hr : ρ.dir g = some r) (hlt : newsz < oldsz)
    (hle : oldsz ≤ KERNBASE) :
    (∃ s', deallocuvm K r oldsz newsz s = .ok newsz s' ∧ FreesRange s s' ρ g r oldsz newsz) ↔
      ∀ i, InRange newsz oldsz i → s.Skips r (pages newsz) i → s.mapped r i = none := by
  have hwp : wp (fun _ => False) (deallocuvm K r oldsz newsz) (fun res s' => res = newsz ∧
      ∃ ω', Inv K s' ρ ω' ∧ Unmaps (s.Visits r oldsz (pages newsz)) s s' ω ω' ρ g) s :=
    wp_deallocuvm h hr hle fun s' ω' h' hu => ⟨if_neg (by omega), ω', h', hu⟩
  obtain ⟨res, s', hrun, rfl, ω', h', hu⟩ := wp_returns hwp
  rw [← hu.freesRange_iff h hr hlt hle h']
  constructor
  · rintro ⟨s'', hrun', hf⟩
    rw [hrun] at hrun'
    cases hrun'
    exact hf
  · exact fun hf => ⟨s', hrun, hf⟩

end

/-- With page 1024 mapped, and no table for the first four megabytes, `deallocuvm` from there down to one
page finds nothing and leaves the page mapped. -/
theorem deallocuvm_skips : ∃ (s : Phys) (ω : ℕ → Option (Place Unit Unit)),
    Inv .sample s (Roots.only ()) ω ∧
    ¬∃ s', deallocuvm .sample 1024 (1025 * PGSIZE) PGSIZE s = .ok PGSIZE s' ∧
      FreesRange s s' (Roots.only () : Roots Unit Unit) () 1024 (1025 * PGSIZE) PGSIZE := by
  obtain ⟨s, hs⟩ := exists_single (κ := Unit) (g := ()) (j := 1024) (by decide)
  obtain ⟨ω, h⟩ := hs.inv
  refine ⟨s, ω, h, ?_⟩
  rintro ⟨s', hrun, hf⟩
  have hwp : wp (fun _ => True) (deallocuvm .sample 1024 (1025 * PGSIZE) PGSIZE)
      (fun _ s' => ∃ ω', Inv .sample s' (Roots.only ()) ω' ∧
        Unmaps (s.Visits 1024 (1025 * PGSIZE) (pages PGSIZE)) s s' ω ω' (Roots.only ()) ()) s :=
    wp_deallocuvm h dir_only (by decide) fun s' ω' h' hu => ⟨ω', h', hu⟩
  obtain ⟨ω', h', hu⟩ := wp_ok hwp hrun
  obtain ⟨w, hw⟩ := hs.self
  have hnone := (hu.freesRange_iff h dir_only (by decide) (by decide) h').mp hf 1024 (by decide)
    ⟨by decide, by decide, fun d _ hd => hs.table d (by omega) (by omega)⟩
  rw [hw] at hnone
  cases hnone

theorem deallocuvm_frees_iff_single : ∃ (s : Phys) (ω : ℕ → Option (Place Unit Unit)) (w : ℕ),
    Inv .sample s (Roots.only ()) ω ∧ s.mapped 1024 1024 = some w ∧
      ∃ s', deallocuvm .sample 1024 (1025 * PGSIZE) 0 s = .ok 0 s' ∧
        FreesRange s s' (Roots.only () : Roots Unit Unit) () 1024 (1025 * PGSIZE) 0 := by
  obtain ⟨s, hs⟩ := exists_single (κ := Unit) (g := ()) (j := 1024) (by decide)
  obtain ⟨ω, h⟩ := hs.inv
  obtain ⟨w, hw⟩ := hs.self
  exact ⟨s, ω, w, h, hw, (deallocuvm_frees_iff h dir_only (by decide) (by decide)).mpr fun i _ hskip =>
    absurd hskip (not_skips (.inl rfl))⟩

/-! ## `allocuvm` -/

/-- `pte & PTE_W`. -/
def writable (w : ℕ) : Bool := w.testBit 1

section

variable {ι κ : Type} {K : Image} {s s' : Phys} {ρ : Roots ι κ} {ω ω' : ℕ → Option (Place ι κ)} {g : ι}
  {r oldsz newsz : ℕ}

/-- The user part of the address space consists of the pages below the given size. -/
def Phys.Filled (s : Phys) (r sz : ℕ) : Prop :=
  ∀ i < 2 ^ 19, s.mapped r i ≠ none ↔ i * PGSIZE < PGROUNDUP sz

theorem filled_iff {sz : ℕ} (hsz : sz ≤ KERNBASE) :
    s.Filled r sz ↔ ∀ i < 2 ^ 19, s.mapped r i ≠ none ↔ i < pages sz := by
  unfold Phys.Filled
  rw [PGROUNDUP_eq hsz]
  simp only [Nat.mul_lt_mul_right (show 0 < PGSIZE by decide)]

theorem pages_mono {a b : ℕ} (h : a ≤ b) : pages a ≤ pages b := by
  simp only [pages]
  omega

/-- The table of the first page behind a smaller size exists, if this is not its first page. -/
theorem Phys.Filled.table {sz sz' : ℕ} (hf : s.Filled r sz) (hsz : sz ≤ KERNBASE) (hle : sz' ≤ sz) :
    pages sz' % 1024 = 0 ∨ s.table r (pages sz' / 1024) ≠ none := by
  have hpages := pages_mono hle
  by_cases hmod : pages sz' % 1024 = 0
  · exact .inl hmod
  · right
    intro hnone
    have hlow : pages sz' - 1 < 2 ^ 19 := by
      simp only [pages, KERNBASE] at hsz hpages ⊢
      omega
    refine ((filled_iff hsz).mp hf (pages sz' - 1) hlow).mpr (by omega) ?_
    have hsame : (pages sz' - 1) / 1024 = pages sz' / 1024 := by omega
    rw [Phys.mapped, Phys.entry, hsame, hnone]
    rfl

/-- The pages of the range are mapped for the user, who may write to them. They are zero, no page is
mapped twice, and every other translation is the same. -/
structure Extends (s s' : Phys) (ρ : Roots ι κ) (g : ι) (r oldsz newsz : ℕ) : Prop where
  added : ∀ i, InRange oldsz newsz i → ∃ w, s'.mapped r i = some w ∧ writable w = true ∧
    user w = true ∧ s'.mem (frame w) = fun _ => 0
  distinct : ∀ i j v w, i < 2 ^ 19 → j < 2 ^ 19 → s'.mapped r i = some v → s'.mapped r j = some w →
    frame v = frame w → i = j
  same : ∀ i < 2 ^ 20, ¬InRange oldsz newsz i → s'.mapped r i = s.mapped r i
  others : Others s s' ρ g

/-- The result of `allocuvm` says what has happened: the new size if the address space has been
extended, and 0 if the user part is the same as before. -/
def Truthful (K : Image) (s : Phys) (ρ : Roots ι κ) (g : ι) (r oldsz newsz : ℕ) : Prop :=
  ∃ res s', allocuvm K r oldsz newsz s = .ok res s' ∧ (res = newsz ∨ res = 0) ∧
    (res = newsz → 0 < newsz → Extends s s' ρ g r oldsz newsz) ∧
    (res = 0 → 0 < newsz → ∀ i < 2 ^ 19, s'.mapped r i = s.mapped r i)

/-- No page is mapped at two addresses. -/
theorem Inv.mapped_inj (h : Inv K s ρ ω) (hr : ρ.dir g = some r) {i j v w : ℕ} (hi : i < 2 ^ 19)
    (hj : j < 2 ^ 19) (hv : s.mapped r i = some v) (hw : s.mapped r j = some w) (hvw : frame v = frame w) :
    i = j := by
  have hi' := (h.place (frame v) (.page g i)).mp ((at_page_iff hr hi).mpr (by rw [hv]; rfl))
  have hj' := (h.place (frame w) (.page g j)).mp ((at_page_iff hr hj).mpr (by rw [hw]; rfl))
  rw [← hvw] at hj'
  exact (Place.page.inj (Option.some.inj (hi'.symm.trans hj'))).2

/-- The plan for the address space with the directory `r`. -/
def Phys.plan (s : Phys) (r : ℕ) : Plan := ⟨s.answers, s.entry r, 0⟩

/-- If there is a page for each page that is to be added, then there is one for each page table too. -/
def Phys.Supplied (s : Phys) (r oldsz newsz : ℕ) : Prop :=
  let G := (s.plan r).grow (pages newsz - pages oldsz) (pages oldsz)
  G.1 = true → G.2.lost = 0

/-- What `allocuvm` does. -/
theorem allocuvm_spec (h : Inv K s ρ ω) (hr : ρ.dir g = some r) (hle : oldsz ≤ newsz)
    (hlt : newsz < KERNBASE) (hf : s.Filled r oldsz) :
    ∃ res s', allocuvm K r oldsz newsz s = .ok res s' ∧
      (res = newsz ∧ Extends s s' ρ g r oldsz newsz ∧ s.Supplied r oldsz newsz ∨
        res = newsz ∧ (∃ i, InRange oldsz newsz i ∧ s'.mapped r i = none) ∧ ¬s.Supplied r oldsz newsz ∨
        res = 0 ∧ (∀ i < 2 ^ 19, s'.mapped r i = s.mapped r i) ∧ s.Supplied r oldsz newsz) := by
  have hold : oldsz ≤ KERNBASE := by omega
  have hrange : ∀ i, InRange oldsz newsz i ↔ pages oldsz ≤ i ∧ i * PGSIZE < newsz := fun i => inRange_iff hold
  have hend : ∀ i, pages oldsz ≤ i ∧ i < pages oldsz + (pages newsz - pages oldsz) ↔ InRange oldsz newsz i := by
    intro i
    rw [hrange]
    simp only [pages, PGSIZE]
    omega
  have hblank : ∀ i, pages oldsz ≤ i → i < 2 ^ 19 → (s.plan r).Blank i := by
    intro i hi hi' w hw
    by_contra hp
    refine absurd (((filled_iff hold).mp hf i hi').mp ?_) (by omega)
    have hentry : s.entry r i = some w := hw
    rw [Phys.mapped, hentry]
    simp [hp]
  unfold allocuvm
  rw [if_neg (by omega), if_neg (by omega), PGROUNDUP_eq hold]
  refine wp_returns (wp_allocuvmFrom hr hlt _ h (P := s.plan r) ⟨rfl, fun _ _ => rfl⟩ rfl ?_ le_rfl
    (.inr hblank) (fun s' ω' P' heq h' hundone => ?_) fun s' ω' P' heq h' hz => ?_)
  · simp only [pages, PGSIZE]
    omega
  · refine .inr (.inr ⟨rfl, fun i hi => ?_, by simp [Phys.Supplied, heq]⟩)
    by_cases hin : InRange oldsz newsz i
    · obtain ⟨hlo, hhi⟩ := (hrange i).mp hin
      rw [hundone.gone (hf.table hold le_rfl) i hlo hhi]
      by_contra hne
      exact absurd (((filled_iff hold).mp hf i hi).mp (Ne.symm hne)) (by omega)
    · refine hundone.same i (by omega) ?_
      rw [hrange] at hin
      omega
  · rcases hz with ⟨hlost, hz⟩ | ⟨hlost, i, hlo, hhi, hnone⟩
    · refine .inl ⟨rfl, ⟨fun i hi => ?_, fun i j v w hi hj => h'.inv.mapped_inj hr hi hj, fun i hi hin => ?_,
        h'.others⟩, ?_⟩
      · obtain ⟨hlo, hhi⟩ := (hend i).mpr hi
        obtain ⟨x, hmapped, hmem⟩ := hz i hlo hhi
        refine ⟨_, hmapped, ?_, ?_, ?_⟩
        · rw [writable, testBit_pte (by decide)]
          decide
        · rw [user, testBit_pte (by decide)]
          decide
        · rw [frame_pte (by decide), hmem]
      · exact h'.same i hi (mt (hend i).mp hin)
      · rw [Phys.Supplied, heq]
        exact fun _ => hlost
    · refine .inr (.inl ⟨rfl, ⟨i, (hend i).mp ⟨hlo, hhi⟩, hnone⟩, ?_⟩)
      rw [Phys.Supplied, heq]
      exact fun hs => hlost (hs rfl)

/-- The result of `allocuvm` is truthful if and only if there is a page for each page table that is
needed, or not even one for each of the pages. -/
theorem allocuvm_truthful_iff (h : Inv K s ρ ω) (hr : ρ.dir g = some r) (hle : oldsz ≤ newsz)
    (hlt : newsz < KERNBASE) (hf : s.Filled r oldsz) :
    Truthful K s ρ g r oldsz newsz ↔ s.Supplied r oldsz newsz := by
  obtain ⟨res, s', hrun, hspec⟩ := allocuvm_spec h hr hle hlt hf
  constructor
  · rintro ⟨res', s'', hrun', -, hnew, -⟩
    rw [hrun] at hrun'
    cases hrun'
    rcases hspec with ⟨-, -, hs⟩ | ⟨rfl, ⟨i, hi, hnone⟩, -⟩ | ⟨-, -, hs⟩
    · exact hs
    · -- a page is missing
      obtain ⟨w, hw, -⟩ := (hnew rfl (lt_of_le_of_lt (Nat.zero_le _) hi.2)).added i hi
      rw [hnone] at hw
      cases hw
    · exact hs
  · intro hs
    refine ⟨res, s', hrun, ?_⟩
    rcases hspec with ⟨rfl, hext, -⟩ | ⟨-, -, hbad⟩ | ⟨rfl, hsame, -⟩
    · exact ⟨.inl rfl, fun _ _ => hext, fun h0 hpos => absurd h0 (by omega)⟩
    · exact absurd hs hbad
    · exact ⟨.inr rfl, fun h0 hpos => absurd h0 (by omega), fun _ _ => hsame⟩

end

theorem filled_bare {n : ℕ} {grant : ℕ → Bool} : (Phys.bare n grant).Filled 1024 0 := by
  intro i _
  have hmapped : (Phys.bare n grant).mapped 1024 i = none := by
    rw [Phys.mapped, entry_zero rfl]
    rfl
  refine iff_of_false (fun hne => hne hmapped) ?_
  rw [PGROUNDUP_eq (by decide)]
  exact Nat.not_lt_zero _

/-- One page is to be added where there is no table, which takes two pages. -/
theorem Plan.grow_one {P : Plan} {j : ℕ} (hentry : P.entry j = none) (hlost : P.lost = 0) :
    ((P.grow 1 j).1 = true → (P.grow 1 j).2.lost = 0) ↔ (P.ask 0 ≠ none → P.ask 1 ≠ none) := by
  cases h0 : P.ask 0 with
  | none => simp [Plan.grow, h0]
  | some x =>
    have hmap : (P.next.map j (pte x (PTE_W ||| PTE_U))).2.lost = 0 ↔ P.ask 1 ≠ none := by
      cases h1 : P.ask 1 <;> simp [Plan.map, Plan.walk, hentry, h1, Plan.set, Plan.next, hlost]
    simpa [Plan.grow, h0] using hmap

theorem supplied_bare {n : ℕ} {grant : ℕ → Bool} :
    (Phys.bare n grant).Supplied 1024 0 PGSIZE ↔
      ((Phys.bare n grant).answers 0 ≠ none → (Phys.bare n grant).answers 1 ≠ none) := by
  have hpages : pages PGSIZE - pages 0 = 1 := by decide
  have hzero : pages 0 = 0 := by decide
  unfold Phys.Supplied
  rw [hpages, hzero]
  exact Plan.grow_one (P := (Phys.bare n grant).plan 1024) (entry_zero rfl) rfl

theorem allocuvm_truthful_iff_bare :
    Truthful .sample (.bare 2 fun _ => true) (Roots.only () : Roots Unit Unit) () 1024 0 PGSIZE := by
  refine (allocuvm_truthful_iff (inv_bare (by decide) _) dir_only (by decide) (by decide) filled_bare).mpr ?_
  exact supplied_bare.mpr fun _ => by decide

/-- There is a page for the page that is to be added, and none for the table: `allocuvm` returns the new
size, and nothing is mapped. -/
theorem allocuvm_untruthful :
    ¬Truthful .sample (.bare 1 fun _ => true) (Roots.only () : Roots Unit Unit) () 1024 0 PGSIZE := by
  obtain ⟨res, s', hrun, hspec⟩ := allocuvm_spec (inv_bare (κ := Unit) (n := 1) (by decide) fun _ => true)
    (g := ()) dir_only (Nat.zero_le PGSIZE) (by decide) filled_bare
  have hbad : ¬(Phys.bare 1 fun _ => true).Supplied 1024 0 PGSIZE := by
    rw [supplied_bare]
    decide
  rintro ⟨res', s'', hrun', -, hnew, -⟩
  rw [hrun] at hrun'
  cases hrun'
  rcases hspec with ⟨-, -, hs⟩ | ⟨rfl, ⟨i, hi, hnone⟩, -⟩ | ⟨-, -, hs⟩
  · exact hbad hs
  · obtain ⟨w, hw, -⟩ := (hnew rfl (by decide)).added i hi
    rw [hnone] at hw
    cases hw
  · exact hbad hs

/-! ## `growproc` -/

section

variable {ι κ : Type} {K : Image} {s s' : Phys} {ρ : Roots ι κ} {ω : ℕ → Option (Place ι κ)} {g : ι}
  {r oldsz newsz : ℕ}

theorem Extends.filled (he : Extends s s' ρ g r oldsz newsz) (hf : s.Filled r oldsz) (hle : oldsz ≤ newsz)
    (hlt : newsz < KERNBASE) : s'.Filled r newsz := by
  have hold : oldsz ≤ KERNBASE := by omega
  refine (filled_iff hlt.le).mpr fun i hi => ?_
  have hmono := pages_mono hle
  by_cases hin : InRange oldsz newsz i
  · obtain ⟨w, hw, -⟩ := he.added i hin
    refine iff_of_true (by simp [hw]) ?_
    have := hin.2
    simp only [pages, PGSIZE] at this ⊢
    omega
  · rw [he.same i (by omega) hin, (filled_iff hold).mp hf i hi]
    rw [inRange_iff hold] at hin
    simp only [pages, PGSIZE] at hin hmono ⊢
    omega

/-- `deallocuvm` of the upper part of an address space without gaps. -/
theorem deallocuvm_filled (h : Inv K s ρ ω) (hr : ρ.dir g = some r) (hlt : newsz < oldsz)
    (hle : oldsz ≤ KERNBASE) (hf : s.Filled r oldsz) :
    ∃ s', deallocuvm K r oldsz newsz s = .ok newsz s' ∧ s'.Filled r newsz := by
  have hwp : wp (fun _ => False) (deallocuvm K r oldsz newsz)
      (fun res s' => res = newsz ∧ s'.Filled r newsz) s := by
    refine wp_deallocuvm h hr hle fun s' ω' h' hu => ⟨if_neg (by omega), ?_⟩
    have hmono := pages_mono hlt.le
    have hvisits : ∀ i, s.Visits r oldsz (pages newsz) i ↔ pages newsz ≤ i ∧ i * PGSIZE < oldsz := fun i =>
      visits_iff (hf.table hle hlt.le)
    refine (filled_iff (by omega)).mpr fun i hi => ?_
    by_cases hV : s.Visits r oldsz (pages newsz) i
    · rw [hu.gone r i hr (by omega) hV]
      have := ((hvisits i).mp hV).1
      exact iff_of_false (fun hne => hne rfl) (by omega)
    · rw [Phys.mapped, hu.entry r i hr (by omega) hV, ← Phys.mapped, (filled_iff hle).mp hf i hi]
      rw [hvisits] at hV
      simp only [pages, PGSIZE] at hV hmono ⊢
      omega
  obtain ⟨_, s', hrun, rfl, hfilled⟩ := wp_returns hwp
  exact ⟨s', hrun, hfilled⟩

end

section

variable {K : Image} {k : Kern} {ω : ℕ → Option (Place (Option ℕ) Solo)} {h : ℕ} {sp : Space} {n : ℤ} {res : ℕ}
  {s' : Phys}

/-- `growproc` has changed the size by `n`, and the user part is what the new size says, or it has
failed, and size and user part are the same as before. -/
def AllOrNothing (K : Image) (k : Kern) (h : ℕ) (sp : Space) (n : ℤ) : Prop :=
  ∃ res k', growproc K h n k = .ok res k' ∧ (res = 0 ∨ res = -1) ∧
    (res = 0 → ∃ sp', k'.space h = some sp' ∧ sp'.pgdir = sp.pgdir ∧ (sp'.sz : ℤ) = sp.sz + n ∧
      k'.phys.Filled sp.pgdir sp'.sz) ∧
    (res = -1 → k'.space = k.space ∧ ∀ i < 2 ^ 19, k'.phys.mapped sp.pgdir i = k.phys.mapped sp.pgdir i)

/-- The new size, as `growproc` gets it. -/
def newSize (K : Image) (sp : Space) (n : ℤ) : VM ℕ :=
  if n > 0 then allocuvm K sp.pgdir sp.sz (addInt sp.sz n)
  else if n < 0 then deallocuvm K sp.pgdir sp.sz (addInt sp.sz n) else pure sp.sz

/-- `growproc`, when the result of `allocuvm` or `deallocuvm` is known. -/
theorem growproc_eq (hsp : k.space h = some sp)
    (hvm : newSize K sp n k.phys = .ok res s') :
    growproc K h n k = if n ≠ 0 ∧ res = 0 then .ok (-1) { k with phys := s' }
      else .ok 0 { k with phys := s', space := Function.update k.space h (some { sp with sz := res }) } := by
  unfold newSize at hvm
  unfold growproc callBy vm lift
  simp only [bind, EStateM.bind, Exec.run_get, hsp, hvm]
  split_ifs <;> rfl

/-- The property for a call that fails. -/
theorem allOrNothing_failed (hsp : k.space h = some sp)
    (hvm : newSize K sp n k.phys = .ok res s')
    (hn : n ≠ 0) (hres : res = 0) :
    AllOrNothing K k h sp n ↔ ∀ i < 2 ^ 19, s'.mapped sp.pgdir i = k.phys.mapped sp.pgdir i := by
  have hrun := growproc_eq hsp hvm
  rw [if_pos ⟨hn, hres⟩] at hrun
  constructor
  · rintro ⟨res', k', hrun', -, -, hfail⟩
    rw [hrun] at hrun'
    cases hrun'
    exact (hfail rfl).2
  · exact fun hsame => ⟨-1, _, hrun, .inr rfl, nofun, fun _ => ⟨rfl, hsame⟩⟩

/-- The property for a call that succeeds. -/
theorem allOrNothing_done (hsp : k.space h = some sp)
    (hvm : newSize K sp n k.phys = .ok res s')
    (hres : n = 0 ∨ res ≠ 0) :
    AllOrNothing K k h sp n ↔ (res : ℤ) = sp.sz + n ∧ s'.Filled sp.pgdir res := by
  have hrun := growproc_eq hsp hvm
  rw [if_neg (by tauto)] at hrun
  constructor
  · rintro ⟨res', k', hrun', -, hdone, -⟩
    rw [hrun] at hrun'
    cases hrun'
    obtain ⟨sp', hsp', -, hsz, hfilled⟩ := hdone rfl
    have hself : Function.update k.space h (some { sp with sz := res }) h = some sp' := hsp'
    rw [Function.update_self] at hself
    cases hself
    exact ⟨hsz, hfilled⟩
  · rintro ⟨hsz, hfilled⟩
    exact ⟨0, _, hrun, .inl rfl, fun _ => ⟨_, Function.update_self .., rfl, hsz, hfilled⟩, nofun⟩

/-- `growproc` that takes pages away. -/
theorem growproc_shrinks_iff (hk : KInv K k ω) (hsp : k.space h = some sp)
    (hf : k.phys.Filled sp.pgdir sp.sz) (hlo : -2 ^ 31 ≤ n) (hneg : n < 0) :
    AllOrNothing K k h sp n ↔ 0 < sp.sz + n ∨ sp.sz = 0 := by
  have hsz := hk.size h sp hsp
  simp only [KERNBASE] at hsz
  -- the size wraps round if more is to be taken away than there is
  have hnew : addInt sp.sz n =
      if (sp.sz : ℤ) + n < 0 then (sp.sz + n + 2 ^ 32).toNat else (sp.sz + n).toNat := by
    unfold addInt
    split_ifs <;> omega
  by_cases hwrap : (sp.sz : ℤ) + n < 0
  · rw [if_pos hwrap] at hnew
    have hvm : newSize K sp n k.phys = .ok sp.sz k.phys := by
      rw [newSize, if_neg (by omega), if_pos hneg, deallocuvm, if_pos (by omega)]
      rfl
    by_cases h0 : sp.sz = 0
    · rw [allOrNothing_failed hsp hvm (by omega) h0]
      exact iff_of_true (fun _ _ => rfl) (.inr h0)
    · rw [allOrNothing_done hsp hvm (.inr h0)]
      omega
  · rw [if_neg hwrap] at hnew
    obtain ⟨s', hrun, hfilled⟩ :=
      deallocuvm_filled hk.inv (hk.dir hsp) (show addInt sp.sz n < sp.sz by omega) hsz hf
    have hvm : newSize K sp n k.phys = .ok (addInt sp.sz n) s' := by
      rw [newSize, if_neg (by omega), if_pos hneg, hrun]
    by_cases h0 : addInt sp.sz n = 0
    · -- the first page was mapped, and is not any more
      rw [allOrNothing_failed hsp hvm (by omega) h0]
      refine iff_of_false (fun hsame => ?_) (by omega)
      have hfirst := hsame 0 (by decide)
      rw [h0] at hfilled
      refine absurd (((filled_iff hsz).mp hf 0 (by decide)).mpr ?_) (hfirst ▸ ?_)
      · simp only [pages]
        omega
      · exact fun hne => absurd (((filled_iff (by decide)).mp hfilled 0 (by decide)).mp hne) (by decide)
    · rw [allOrNothing_done hsp hvm (.inr h0)]
      exact iff_of_true ⟨by omega, hfilled⟩ (.inl (by omega))

/-- `growproc` that adds pages. -/
theorem growproc_grows_iff (hk : KInv K k ω) (hsp : k.space h = some sp)
    (hf : k.phys.Filled sp.pgdir sp.sz) (hpos : 0 < n) (hhi : n < 2 ^ 31) :
    AllOrNothing K k h sp n ↔
      (sp.sz + n < KERNBASE → k.phys.Supplied sp.pgdir sp.sz (sp.sz + n).toNat) := by
  have hsz := hk.size h sp hsp
  simp only [KERNBASE] at hsz
  have hnew : addInt sp.sz n = (sp.sz + n).toNat := by
    unfold addInt
    omega
  rw [← hnew]
  by_cases hbig : (sp.sz : ℤ) + n < KERNBASE
  · have hlt : addInt sp.sz n < KERNBASE := by
      simp only [KERNBASE] at hbig ⊢
      omega
    obtain ⟨res, s', hrun, hspec⟩ :=
      allocuvm_spec hk.inv (hk.dir hsp) (show sp.sz ≤ addInt sp.sz n by omega) hlt hf
    have hvm : newSize K sp n k.phys = .ok res s' := by
      rw [newSize, if_pos hpos, hrun]
    rw [forall_prop_of_true hbig]
    rcases hspec with ⟨rfl, hext, hs⟩ | ⟨rfl, ⟨i, hi, hnone⟩, hs⟩ | ⟨rfl, hsame, hs⟩
    · rw [allOrNothing_done hsp hvm (.inr (by omega))]
      exact iff_of_true ⟨by omega, hext.filled hf (by omega) hlt⟩ hs
    · rw [allOrNothing_done hsp hvm (.inr (by omega))]
      refine iff_of_false (fun hd => ?_) hs
      have hin := hi.2
      simp only [PGSIZE, KERNBASE] at hin hbig
      refine ((filled_iff hlt.le).mp hd.2 i (by omega)).mpr ?_ hnone
      simp only [pages]
      omega
    · rw [allOrNothing_failed hsp hvm (by omega) rfl]
      exact iff_of_true hsame hs
  · have hvm : newSize K sp n k.phys = .ok 0 k.phys := by
      unfold newSize allocuvm
      rw [if_pos hpos, if_pos (by simp only [KERNBASE] at hbig ⊢; omega)]
      rfl
    rw [allOrNothing_failed hsp hvm (by omega) rfl]
    exact iff_of_true (fun _ _ => rfl) fun hlt => absurd hlt hbig

/-- `growproc` does all or nothing if and only if, when it is to add pages, there is a page for each page
table that is needed, and when it is to take pages away, some of the process is left. -/
theorem growproc_all_or_nothing_iff (hk : KInv K k ω) (hsp : k.space h = some sp)
    (hf : k.phys.Filled sp.pgdir sp.sz) (hlo : -2 ^ 31 ≤ n) (hhi : n < 2 ^ 31) :
    AllOrNothing K k h sp n ↔
      (0 < n → sp.sz + n < KERNBASE → k.phys.Supplied sp.pgdir sp.sz (sp.sz + n).toNat) ∧
        (n < 0 → 0 < sp.sz + n ∨ sp.sz = 0) := by
  rcases lt_trichotomy n 0 with hneg | rfl | hpos
  · rw [growproc_shrinks_iff hk hsp hf hlo hneg]
    exact ⟨fun hc => ⟨fun hpos => by omega, fun _ => hc⟩, fun hc => hc.2 hneg⟩
  · have hvm : newSize K sp 0 k.phys = .ok sp.sz k.phys := rfl
    rw [allOrNothing_done hsp hvm (.inl rfl)]
    exact iff_of_true ⟨by omega, hf⟩ ⟨fun h0 => by omega, fun h0 => by omega⟩
  · rw [growproc_grows_iff hk hsp hf hpos hhi]
    exact ⟨fun hc => ⟨fun _ => hc, fun hneg => by omega⟩, fun hc => hc.1 hpos⟩

end

/-- A process with one page. -/
theorem exists_process : ∃ (k : Kern) (ω : ℕ → Option (Place (Option ℕ) Solo)) (sp : Space),
    KInv .sample k ω ∧ k.space 0 = some sp ∧ sp.sz = PGSIZE ∧ k.phys.Filled sp.pgdir sp.sz := by
  obtain ⟨s, hs⟩ := exists_single (κ := Solo) (g := some 0) (j := 0) (by decide)
  obtain ⟨ω, hinv⟩ := hs.inv
  let k : Kern := ⟨s, fun h => if h = 0 then some ⟨1024, PGSIZE, 0, 0, []⟩ else none, fun _ => none, fun _ => none⟩
  have hroots : k.roots = Roots.only (some 0) := by
    simp only [Kern.roots, Roots.only, k, Roots.mk.injEq, and_true]
    constructor
    · funext g
      cases g with
      | none => rfl
      | some h => by_cases hh : h = 0 <;> simp [hh]
    · funext c
      cases c <;> rfl
  refine ⟨k, ω, ⟨1024, PGSIZE, 0, 0, []⟩, ⟨hroots ▸ hinv, fun h sp hsp => ?_⟩, rfl, rfl, ?_⟩
  · simp only [k] at hsp
    split_ifs at hsp
    cases hsp
    show PGSIZE ≤ KERNBASE
    decide
  · refine (filled_iff (by decide)).mpr fun i hi => ?_
    have hone : pages PGSIZE = 1 := by decide
    rw [hone, Nat.lt_one_iff]
    by_cases h0 : i = 0
    · obtain ⟨w, hw⟩ := hs.self
      subst h0
      exact iff_of_true (by rw [hw]; simp) rfl
    · exact iff_of_false (fun hne => hne (hs.other i (by omega) h0)) h0

theorem growproc_all_or_nothing_iff_byte : ∃ (k : Kern) (sp : Space), k.space 0 = some sp ∧
    sp.sz = PGSIZE ∧ AllOrNothing .sample k 0 sp (-1) := by
  obtain ⟨k, ω, sp, hk, hsp, hsz, hf⟩ := exists_process
  refine ⟨k, sp, hsp, hsz, (growproc_all_or_nothing_iff hk hsp hf (by decide) (by decide)).mpr ⟨nofun, fun _ => .inl ?_⟩⟩
  rw [hsz]
  decide

/-- A process gives up all of its memory: `growproc` returns -1, and the page is gone. -/
theorem growproc_all_lost : ∃ (k : Kern) (ω : ℕ → Option (Place (Option ℕ) Solo)) (sp : Space),
    KInv .sample k ω ∧ k.space 0 = some sp ∧ k.phys.Filled sp.pgdir sp.sz ∧
      ¬AllOrNothing .sample k 0 sp (-PGSIZE) := by
  obtain ⟨k, ω, sp, hk, hsp, hsz, hf⟩ := exists_process
  refine ⟨k, ω, sp, hk, hsp, hf, fun hall => ?_⟩
  have := (growproc_shrinks_iff hk hsp hf (by decide) (by decide)).mp hall
  rw [hsz] at this
  revert this
  decide

end Xv6.Vm
