import Mathlib.Logic.Equiv.Basic
import Mathlib.Order.BooleanAlgebra.Set
import Xv6.Vm.Paging

/-!
# Where each page is

The places a physical page can be in: on the free list, in a local variable of the code that runs, a
kernel stack or pipe, a page directory, a page table, or mapped in the user part of an address space.
`Inv` says that memory, free list and the kernel's own variables agree with one map from pages to
places, so that no page is in two places; the lemmas say how each primitive step of `vm.c` moves a
page from one place to another.
-/

namespace Xv6.Vm

open Lib
open Function (update update_self update_of_ne)

/-! ## Entries -/

theorem frame_entry {x f : ℕ} (hf : f < PGSIZE) : frame (x * PGSIZE ||| f) = x := by
  rw [frame, ← Nat.shiftRight_eq_div_pow, Nat.shiftRight_or_distrib, Nat.shiftRight_eq_div_pow,
    Nat.shiftRight_eq_div_pow, Nat.div_eq_of_lt hf, Nat.or_zero]
  exact Nat.mul_div_cancel x (by decide)

theorem testBit_entry {x f i : ℕ} (hi : i < 12) : (x * PGSIZE ||| f).testBit i = f.testBit i := by
  have hx : (x * 2 ^ 12).testBit i = false := by
    rw [Nat.mul_comm, Nat.testBit_two_pow_mul]
    simp [Nat.not_le_of_lt hi]
  rw [Nat.testBit_or]
  exact (congrArg (· || f.testBit i) hx).trans (Bool.false_or _)

theorem entry_lt {x f : ℕ} (hx : x < 2 ^ 20) (hf : f < PGSIZE) : x * PGSIZE ||| f < 2 ^ 32 :=
  Nat.or_lt_two_pow (by simp only [PGSIZE]; omega) (lt_trans hf (by decide))

@[simp] theorem Phys.setPage_mem (s : Phys) (x : ℕ) (bs : Bytes) :
    (s.setPage x bs).mem = update s.mem x bs := rfl

/-- The page tables of the directory `r`. -/
def Phys.table (s : Phys) (r d : ℕ) : Option ℕ :=
  let pde := (s.mem r).word 4 (4 * d)
  if present pde then some (frame pde) else none

/-- The entry for page `i` of the address space with the directory `r`. -/
def Phys.entry (s : Phys) (r i : ℕ) : Option ℕ :=
  (s.table r (i / 1024)).map fun t => (s.mem t).word 4 (4 * (i % 1024))

/-- The same, if it maps something. -/
def Phys.mapped (s : Phys) (r i : ℕ) : Option ℕ := (s.entry r i).filter present

/-! ## Places -/

section

variable {ι κ : Type}

inductive Place (ι κ : Type) where
  | free
  | hand
  | solo (k : κ)
  | dir (h : ι)
  | table (h : ι) (d : ℕ)
  | page (h : ι) (i : ℕ)

/-- The pages the kernel's variables point to: the page directories, the kernel stacks and pipes, and
the pages in local variables. -/
structure Roots (ι κ : Type) where
  dir : ι → Option ℕ
  solo : κ → Option ℕ
  hand : Set ℕ

/-- Where a page is. The user part of an address space has `2 ^ 19` pages. -/
def At (s : Phys) (ρ : Roots ι κ) (x : ℕ) : Place ι κ → Prop
  | .free => x ∈ s.free
  | .hand => x ∈ ρ.hand
  | .solo k => ρ.solo k = some x
  | .dir h => ρ.dir h = some x
  | .table h d => d < 1024 ∧ ∃ r, ρ.dir h = some r ∧ s.table r d = some x
  | .page h i => i < 2 ^ 19 ∧ ∃ r, ρ.dir h = some r ∧ (s.mapped r i).map frame = some x

structure Inv (K : Image) (s : Phys) (ρ : Roots ι κ) (ω : ℕ → Option (Place ι κ)) : Prop where
  place : ∀ x a, At s ρ x a ↔ ω x = some a
  nodup : s.free.Nodup
  managed : ∀ x a, ω x = some a → K.Managed x
  kernel : ∀ h r i w, ρ.dir h = some r → 2 ^ 19 ≤ i → i < 2 ^ 20 → s.entry r i = some w → user w = false

variable {K : Image} {s s' : Phys} {ρ ρ' : Roots ι κ} {ω : ℕ → Option (Place ι κ)} {x r : ℕ}

theorem managed_lt (h : K.Managed x) : x < 2 ^ 20 := by
  have := h.2
  simp only [PGSIZE, PHYSTOP] at this
  omega

theorem managed_ne_zero (h : K.Managed x) : x ≠ 0 := by
  rintro rfl
  have htop := h.1
  have hdata := K.lt_data
  have hle := K.data_le
  omega

/-! ## Writing to a page -/

theorem table_setPage {d : ℕ} {bs : Bytes} (h : x ≠ r) : (s.setPage x bs).table r d = s.table r d := by
  simp [Phys.table, update_of_ne h.symm]

theorem entry_setPage {i : ℕ} {bs : Bytes} (h : x ≠ r) (ht : s.table r (i / 1024) ≠ some x) :
    (s.setPage x bs).entry r i = s.entry r i := by
  unfold Phys.entry
  rw [table_setPage h]
  cases htab : s.table r (i / 1024) with
  | none => rfl
  | some t =>
    have hne : t ≠ x := by
      rintro rfl
      exact ht htab
    simp [update_of_ne hne]

theorem Inv.dir_place (h : Inv K s ρ ω) {g : ι} (hr : ρ.dir g = some r) :
    ω r = some (.dir g) := (h.place r (.dir g)).mp hr

theorem Inv.table_place (h : Inv K s ρ ω) {g : ι} {d t : ℕ} (hr : ρ.dir g = some r)
    (hd : d < 1024) (ht : s.table r d = some t) : ω t = some (.table g d) :=
  (h.place t (.table g d)).mp ⟨hd, r, hr, ht⟩

/-- What memory says about the address spaces is the same as before. -/
structure SameSpaces (s s' : Phys) (ρ : Roots ι κ) : Prop where
  table : ∀ g r d, ρ.dir g = some r → d < 1024 → s'.table r d = s.table r d
  entry : ∀ g r i, ρ.dir g = some r → i < 2 ^ 20 → s'.entry r i = s.entry r i

/-- A page that is neither a directory nor a table may be overwritten. -/
theorem Inv.setPage_same (h : Inv K s ρ ω) (hdir : ∀ g, ω x ≠ some (.dir g))
    (htable : ∀ g d, ω x ≠ some (.table g d)) (bs : Bytes) : SameSpaces s (s.setPage x bs) ρ := by
  have hne : ∀ g r, ρ.dir g = some r → x ≠ r := by
    rintro g r hr rfl
    exact hdir g (h.dir_place hr)
  refine ⟨fun g r d hr _ => table_setPage (hne g r hr), fun g r i hr hi => ?_⟩
  refine entry_setPage (hne g r hr) fun ht => htable g _ (h.table_place hr ?_ ht)
  omega

theorem Inv.setPage_hand (h : Inv K s ρ ω) (hx : x ∈ ρ.hand) (bs : Bytes) : SameSpaces s (s.setPage x bs) ρ := by
  have hplace := (h.place x .hand).mp hx
  exact h.setPage_same (by simp [hplace]) (by simp [hplace]) bs

/-- The places that are neither the free list nor a local variable are the same. -/
theorem SameSpaces.rest (hs : SameSpaces s s' ρ) (H : Set ℕ) (y : ℕ) (c : Place ι κ) (hfree : c ≠ .free)
    (hhand : c ≠ .hand) : At s' { ρ with hand := H } y c ↔ At s ρ y c := by
  cases c with
  | free => exact absurd rfl hfree
  | hand => exact absurd rfl hhand
  | solo k => exact Iff.rfl
  | dir g => exact Iff.rfl
  | table g d =>
    refine and_congr_right fun hd => exists_congr fun r => and_congr_right fun hr => ?_
    rw [hs.table g r d hr hd]
  | page g i =>
    refine and_congr_right fun hi => exists_congr fun r => and_congr_right fun hr => ?_
    rw [Phys.mapped, hs.entry g r i hr (by omega), Phys.mapped]

theorem SameSpaces.at_iff (hs : SameSpaces s s' ρ) (hfree : s'.free = s.free) (x : ℕ) (a : Place ι κ) :
    At s' ρ x a ↔ At s ρ x a := by
  cases a with
  | free => simp [At, hfree]
  | hand => exact Iff.rfl
  | _ => exact hs.rest ρ.hand x _ nofun nofun

theorem Inv.same (h : Inv K s ρ ω) (hs : SameSpaces s s' ρ) (hfree : s'.free = s.free) :
    Inv K s' ρ ω where
  place x a := (hs.at_iff hfree x a).trans (h.place x a)
  nodup := by
    rw [hfree]
    exact h.nodup
  managed := h.managed
  kernel g r i w hr hi hi' hw := by
    rw [hs.entry g r i hr hi'] at hw
    exact h.kernel g r i w hr hi hi' hw

/-! ## Moving a page -/

/-- The page `x` was at `a` and is now at `b`, and no other page has been moved. -/
theorem Inv.move (h : Inv K s ρ ω) {a b : Place ι κ} (hx : ω x = some a) (hab : a ≠ b)
    (hold : ∀ y, At s' ρ' y a ↔ At s ρ y a ∧ y ≠ x) (hnew : ∀ y, At s' ρ' y b ↔ At s ρ y b ∨ y = x)
    (hrest : ∀ y c, c ≠ a → c ≠ b → (At s' ρ' y c ↔ At s ρ y c)) (hnodup : s'.free.Nodup)
    (hkernel : ∀ g r i w, ρ'.dir g = some r → 2 ^ 19 ≤ i → i < 2 ^ 20 → s'.entry r i = some w →
      user w = false) : Inv K s' ρ' (update ω x (some b)) := by
  refine ⟨fun y c => ?_, hnodup, fun y c hy => ?_, hkernel⟩
  · rcases eq_or_ne y x with rfl | hyx
    · rw [update_self, Option.some.injEq]
      rcases eq_or_ne c a with rfl | hca
      · rw [hold]
        exact iff_of_false (fun hy => hy.2 rfl) (Ne.symm hab)
      · rcases eq_or_ne c b with rfl | hcb
        · rw [hnew]
          exact iff_of_true (.inr rfl) rfl
        · rw [hrest y c hca hcb, h.place, hx, Option.some.injEq]
          exact iff_of_false (Ne.symm hca) (Ne.symm hcb)
    · rw [update_of_ne hyx, ← h.place]
      by_cases hca : c = a
      · rw [hca, hold]
        exact and_iff_left hyx
      · by_cases hcb : c = b
        · rw [hcb, hnew]
          exact or_iff_left hyx
        · exact hrest y c hca hcb
  · by_cases hyx : y = x
    · rw [hyx]
      exact h.managed x a hx
    · rw [update_of_ne hyx] at hy
      exact h.managed y c hy

theorem sameSpaces_of_mem (h : s'.mem = s.mem) : SameSpaces s s' ρ := by
  refine ⟨fun _ r d _ _ => ?_, fun _ r i _ _ => ?_⟩
  · simp [Phys.table, h]
  · simp [Phys.entry, Phys.table, h]

theorem SameSpaces.trans {s'' : Phys} (h : SameSpaces s s' ρ) (h' : SameSpaces s' s'' ρ) :
    SameSpaces s s'' ρ where
  table g r d hr hd := (h'.table g r d hr hd).trans (h.table g r d hr hd)
  entry g r i hr hi := (h'.entry g r i hr hi).trans (h.entry g r i hr hi)

theorem SameSpaces.kernel (hs : SameSpaces s s' ρ) (h : Inv K s ρ ω) (g : ι) (r i w : ℕ)
    (hr : ρ.dir g = some r) (hi : 2 ^ 19 ≤ i) (hi' : i < 2 ^ 20) (hw : s'.entry r i = some w) :
    user w = false := by
  rw [hs.entry g r i hr hi'] at hw
  exact h.kernel g r i w hr hi hi' hw

/-- `kalloc` hands out a page. -/
theorem Inv.take (h : Inv K s ρ ω) {rest : List ℕ} (hfree : s.free = x :: rest)
    (hmem : s'.mem = s.mem) (hfree' : s'.free = rest) :
    Inv K s' { ρ with hand := insert x ρ.hand } (update ω x (some .hand)) := by
  have hs : SameSpaces s s' ρ := sameSpaces_of_mem hmem
  have hx : ω x = some .free := (h.place x .free).mp (by simp [At, hfree])
  have hnodup := h.nodup
  rw [hfree, List.nodup_cons] at hnodup
  refine h.move hx nofun (fun y => ?_) (fun y => ?_) (fun y c hc hc' => hs.rest _ y c hc hc')
    (hfree' ▸ hnodup.2) (hs.kernel h)
  · simp only [At, hfree, hfree', List.mem_cons]
    constructor
    · intro hy
      exact ⟨.inr hy, fun hyx => hnodup.1 (hyx ▸ hy)⟩
    · rintro ⟨hy, hyx⟩
      exact hy.resolve_left hyx
  · simp [At, or_comm]

/-- `kfree` takes a page back. -/
theorem Inv.give (h : Inv K s ρ ω) (hx : x ∈ ρ.hand) (hs : SameSpaces s s' ρ)
    (hfree : s'.free = x :: s.free) :
    Inv K s' { ρ with hand := ρ.hand \ {x} } (update ω x (some .free)) := by
  have hx' : ω x = some .hand := (h.place x .hand).mp hx
  have hnot : x ∉ s.free := by
    intro hmem
    have := (h.place x .free).mp hmem
    rw [hx'] at this
    cases this
  refine h.move hx' nofun (fun y => ?_) (fun y => ?_) (fun y c hc hc' => hs.rest _ y c hc' hc)
    ?_ (hs.kernel h)
  · simp [At]
  · simp [At, hfree, or_comm]
  · rw [hfree, List.nodup_cons]
    exact ⟨hnot, h.nodup⟩

/-! ## Changing an entry -/

section

variable {g g' : ι} {r r' t i i' d w x : ℕ}

/-- The state after `*pte = w` for the entry at offset `o` of page `t`. -/
def Phys.setEntry (s : Phys) (t o w : ℕ) : Phys := s.setPage t ((s.mem t).setWord 4 o w)

theorem Inv.dir_ne_table (h : Inv K s ρ ω) (hr : ρ.dir g = some r) (hr' : ρ.dir g' = some r')
    (hd : d < 1024) (ht : s.table r d = some t) : t ≠ r' := by
  rintro rfl
  have := (h.table_place hr hd ht).symm.trans (h.dir_place hr')
  cases this

theorem Inv.table_setEntry (h : Inv K s ρ ω) (hr : ρ.dir g = some r) (hd : d < 1024)
    (ht : s.table r d = some t) (hr' : ρ.dir g' = some r') {o d' : ℕ} :
    (s.setEntry t o w).table r' d' = s.table r' d' :=
  table_setPage (h.dir_ne_table hr hr' hd ht)

theorem Inv.entry_setEntry_self (h : Inv K s ρ ω) (hr : ρ.dir g = some r) (hi : i < 2 ^ 20)
    (ht : s.table r (i / 1024) = some t) (hw : w < 2 ^ 32) :
    (s.setEntry t (4 * (i % 1024)) w).entry r i = some w := by
  have hd : i / 1024 < 1024 := by omega
  have hword := @Bytes.word_setWord_self (s.mem t) (4 * (i % 1024)) 4 w
  rw [Nat.mod_eq_of_lt (show w < 256 ^ 4 by omega)] at hword
  rw [Phys.entry, h.table_setEntry hr hd ht hr, ht]
  simpa [Phys.setEntry] using hword

theorem Inv.entry_setEntry_ne (h : Inv K s ρ ω) (hr : ρ.dir g = some r) (hi : i < 2 ^ 20)
    (ht : s.table r (i / 1024) = some t) (hr' : ρ.dir g' = some r') (hi' : i' < 2 ^ 20)
    (hne : g' ≠ g ∨ i' ≠ i) : (s.setEntry t (4 * (i % 1024)) w).entry r' i' = s.entry r' i' := by
  have hd : i / 1024 < 1024 := by omega
  have hd' : i' / 1024 < 1024 := by omega
  rw [Phys.entry, h.table_setEntry hr hd ht hr', Phys.entry]
  cases ht' : s.table r' (i' / 1024) with
  | none => rfl
  | some t' =>
    by_cases htt : t' = t
    · -- the same table, so the same directory and another index
      subst htt
      have hpl := (h.table_place hr hd ht).symm.trans (h.table_place hr' hd' ht')
      obtain ⟨rfl, hdd⟩ := Place.table.inj (Option.some.inj hpl)
      have hii : i' ≠ i := hne.resolve_left fun hg => hg rfl
      have hword : (Bytes.setWord 4 (s.mem t') (4 * (i % 1024)) w).word 4 (4 * (i' % 1024)) =
          (s.mem t').word 4 (4 * (i' % 1024)) := Bytes.word_setWord_of_disjoint (by omega)
      simpa [Phys.setEntry] using hword
    · simp [Phys.setEntry, update_of_ne htt]

/-- Changing the entry for page `i` of `g` leaves all places but that page and the variables alone. -/
theorem Inv.rest_setEntry (h : Inv K s ρ ω) (hr : ρ.dir g = some r) (hi : i < 2 ^ 20)
    (ht : s.table r (i / 1024) = some t) (H : Set ℕ) (y : ℕ) (c : Place ι κ) (hhand : c ≠ .hand)
    (hpage : c ≠ .page g i) :
    At (s.setEntry t (4 * (i % 1024)) w) { ρ with hand := H } y c ↔ At s ρ y c := by
  have hd : i / 1024 < 1024 := by omega
  cases c with
  | free => exact Iff.rfl
  | hand => exact absurd rfl hhand
  | solo k => exact Iff.rfl
  | dir g' => exact Iff.rfl
  | table g' d' =>
    refine and_congr_right fun hd' => exists_congr fun r' => and_congr_right fun hr' => ?_
    rw [h.table_setEntry hr hd ht hr']
  | page g' i' =>
    refine and_congr_right fun hi' => exists_congr fun r' => and_congr_right fun hr' => ?_
    have hne : g' ≠ g ∨ i' ≠ i := by
      by_contra hcon
      push Not at hcon
      exact hpage (by rw [hcon.1, hcon.2])
    rw [Phys.mapped, h.entry_setEntry_ne hr hi ht hr' (by omega) hne, Phys.mapped]

theorem Inv.kernel_setEntry (h : Inv K s ρ ω) (hr : ρ.dir g = some r) (hi : i < 2 ^ 20)
    (ht : s.table r (i / 1024) = some t) (hw : w < 2 ^ 32) (hu : 2 ^ 19 ≤ i → user w = false)
    (g' : ι) (r' i' v : ℕ) (hr' : ρ.dir g' = some r') (hge : 2 ^ 19 ≤ i') (hi' : i' < 2 ^ 20)
    (hv : (s.setEntry t (4 * (i % 1024)) w).entry r' i' = some v) : user v = false := by
  by_cases hsame : g' = g ∧ i' = i
  · obtain ⟨rfl, rfl⟩ := hsame
    obtain rfl := Option.some.inj (hr.symm.trans hr')
    rw [h.entry_setEntry_self hr hi ht hw] at hv
    rw [← Option.some.inj hv]
    exact hu hge
  · rw [h.entry_setEntry_ne hr hi ht hr' hi' (by tauto)] at hv
    exact h.kernel g' r' i' v hr' hge hi' hv

theorem at_page_iff (hr : ρ.dir g = some r) (hi : i < 2 ^ 19) {y : ℕ} :
    At s ρ y (.page g i) ↔ (s.mapped r i).map frame = some y := by
  simp only [At, hr, Option.some.injEq, exists_eq_left', and_iff_right hi]

/-- Map a page at an address that was not mapped. -/
theorem Inv.map (h : Inv K s ρ ω) (hr : ρ.dir g = some r) (hi : i < 2 ^ 19)
    (ht : s.table r (i / 1024) = some t) (hfree : s.mapped r i = none) (hx : frame w ∈ ρ.hand)
    (hw : w < 2 ^ 32) (hp : present w = true) :
    Inv K (s.setEntry t (4 * (i % 1024)) w) { ρ with hand := ρ.hand \ {frame w} }
      (update ω (frame w) (some (.page g i))) := by
  have hi' : i < 2 ^ 20 := by omega
  refine h.move ((h.place _ .hand).mp hx) nofun (fun y => ?_) (fun y => ?_)
    (fun y c hc hc' => h.rest_setEntry hr hi' ht _ y c hc hc') h.nodup
    (h.kernel_setEntry hr hi' ht hw fun hge => absurd hi (by omega))
  · simp [At]
  · have hself : (s.setEntry t (4 * (i % 1024)) w).mapped r i = some w := by
      rw [Phys.mapped, h.entry_setEntry_self hr hi' ht hw]
      simp [hp]
    refine Iff.trans (at_page_iff hr hi) ?_
    rw [at_page_iff hr hi, hself, hfree]
    simp [eq_comm]

/-- Take a page out of the address space. -/
theorem Inv.unmap (h : Inv K s ρ ω) (hr : ρ.dir g = some r) (hi : i < 2 ^ 19)
    (ht : s.table r (i / 1024) = some t) (hmap : s.mapped r i = some w) :
    Inv K (s.setEntry t (4 * (i % 1024)) 0) { ρ with hand := insert (frame w) ρ.hand }
      (update ω (frame w) (some .hand)) := by
  have hi' : i < 2 ^ 20 := by omega
  have hx : ω (frame w) = some (.page g i) := (h.place _ (.page g i)).mp ⟨hi, r, hr, by rw [hmap]; rfl⟩
  refine h.move hx nofun (fun y => ?_) (fun y => ?_)
    (fun y c hc hc' => h.rest_setEntry hr hi' ht _ y c hc' hc) h.nodup
    (h.kernel_setEntry hr hi' ht (by omega) fun hge => absurd hi (by omega))
  · have hself : (s.setEntry t (4 * (i % 1024)) 0).mapped r i = none := by
      rw [Phys.mapped, h.entry_setEntry_self hr hi' ht (by omega)]
      rfl
    refine Iff.trans (at_page_iff hr hi) ?_
    rw [at_page_iff hr hi, hself, hmap]
    simp [eq_comm]
  · simp [At, or_comm]

/-- Change an entry of the kernel's part, or the flags of an entry. -/
theorem Inv.reflag (h : Inv K s ρ ω) (hr : ρ.dir g = some r) (hi : i < 2 ^ 20)
    (ht : s.table r (i / 1024) = some t) (hw : w < 2 ^ 32) (hu : 2 ^ 19 ≤ i → user w = false)
    (hsame : i < 2 ^ 19 → ((some w).filter present).map frame = (s.mapped r i).map frame) :
    Inv K (s.setEntry t (4 * (i % 1024)) w) ρ ω := by
  refine ⟨fun y c => ?_, h.nodup, h.managed, h.kernel_setEntry hr hi ht hw hu⟩
  rw [← h.place]
  by_cases hhand : c = .hand
  · rw [hhand]
    exact Iff.rfl
  · by_cases hpage : c = .page g i
    · subst hpage
      refine and_congr_right fun hlt => exists_congr fun r' => and_congr_right fun hr' => ?_
      obtain rfl := Option.some.inj (hr.symm.trans hr')
      rw [Phys.mapped, h.entry_setEntry_self hr hi ht hw, hsame hlt]
    · exact h.rest_setEntry hr hi ht ρ.hand y c hhand hpage

/-! ## New tables and directories -/

theorem word_zero {o : ℕ} : Bytes.word 4 (fun _ => 0) o = 0 := by
  simp [Bytes.word, Bytes.read, Bytes.ofLe, List.range_succ]

/-- The entry of a page directory for the page table `x`. -/
theorem pde_word (hx : x < 2 ^ 20) :
    x * PGSIZE ||| PTE_P ||| PTE_W ||| PTE_U < 2 ^ 32 ∧
      present (x * PGSIZE ||| PTE_P ||| PTE_W ||| PTE_U) = true ∧
      frame (x * PGSIZE ||| PTE_P ||| PTE_W ||| PTE_U) = x := by
  have hor : x * PGSIZE ||| PTE_P ||| PTE_W ||| PTE_U = x * PGSIZE ||| 7 := by
    rw [Nat.or_assoc, Nat.or_assoc]
    rfl
  rw [hor]
  refine ⟨entry_lt hx (by decide), ?_, frame_entry (by decide)⟩
  exact testBit_entry (by decide)

section

variable {g g' : ι} {r r' d d' x w : ℕ}

theorem table_setEntry_self (hw : w < 2 ^ 32) (hp : present w = true) :
    (s.setEntry r (4 * d) w).table r d = some (frame w) := by
  have hword := @Bytes.word_setWord_self (s.mem r) (4 * d) 4 w
  rw [Nat.mod_eq_of_lt (show w < 256 ^ 4 by omega)] at hword
  simp [Phys.table, Phys.setEntry, hword, hp]

theorem table_setEntry_ne (hd : d' ≠ d) : (s.setEntry r (4 * d) w).table r d' = s.table r d' := by
  have hword : (Bytes.setWord 4 (s.mem r) (4 * d) w).word 4 (4 * d') = (s.mem r).word 4 (4 * d') :=
    Bytes.word_setWord_of_disjoint (by omega)
  simp [Phys.table, Phys.setEntry, hword]

/-- Table `d` of `g` is new and has no entries, and all else is as before. -/
structure Walked (s s' : Phys) (ρ : Roots ι κ) (g : ι) (d : ℕ) : Prop where
  other : ∀ g' r' i, ρ.dir g' = some r' → i < 2 ^ 20 → g' ≠ g ∨ i / 1024 ≠ d → s'.entry r' i = s.entry r' i
  fresh : ∀ r' i, ρ.dir g = some r' → i / 1024 = d → s'.entry r' i = some 0

/-- A page of zeros becomes a page table. -/
theorem Inv.attach (h : Inv K s ρ ω) (hr : ρ.dir g = some r) (hd : d < 1024) (ht : s.table r d = none)
    (hx : frame w ∈ ρ.hand) (hzero : s.mem (frame w) = fun _ => 0) (hw : w < 2 ^ 32)
    (hp : present w = true) :
    Inv K (s.setEntry r (4 * d) w) { ρ with hand := ρ.hand \ {frame w} }
      (update ω (frame w) (some (.table g d))) ∧
    Walked s (s.setEntry r (4 * d) w) ρ g d ∧ (s.setEntry r (4 * d) w).table r d = some (frame w) := by
  have hhand : ω (frame w) = some .hand := (h.place _ .hand).mp hx
  have hxr : frame w ≠ r := by
    intro hxr
    rw [hxr, h.dir_place hr] at hhand
    cases hhand
  -- the tables of the other directories, and the other tables of this one
  have htable : ∀ g' r' d', ρ.dir g' = some r' → (g' ≠ g ∨ d' ≠ d) →
      (s.setEntry r (4 * d) w).table r' d' = s.table r' d' := by
    intro g' r' d' hr' hne
    rcases eq_or_ne r' r with rfl | hrr
    · have hpl := (h.dir_place hr).symm.trans (h.dir_place hr')
      obtain rfl := Place.dir.inj (Option.some.inj hpl)
      exact table_setEntry_ne (hne.resolve_left fun hg => hg rfl)
    · exact table_setPage (Ne.symm hrr)
  have hself : (s.setEntry r (4 * d) w).table r d = some (frame w) := table_setEntry_self hw hp
  -- the new table has no entries yet
  have hwalked : Walked s (s.setEntry r (4 * d) w) ρ g d := by
    refine ⟨fun g' r' i hr' hi hne => ?_, fun r' i hr' hi => ?_⟩
    · rw [Phys.entry, htable g' r' _ hr' hne, Phys.entry]
      cases ht' : s.table r' (i / 1024) with
      | none => rfl
      | some t' =>
        have hne : t' ≠ r := h.dir_ne_table hr' hr (by omega) ht'
        simp [Phys.setEntry, update_of_ne hne]
    · obtain rfl := Option.some.inj (hr.symm.trans hr')
      rw [Phys.entry, hi, hself]
      simp [Phys.setEntry, update_of_ne hxr, hzero, word_zero]
  have hentry : ∀ g' r' i, ρ.dir g' = some r' → i < 2 ^ 20 →
      (s.setEntry r (4 * d) w).entry r' i = s.entry r' i ∨
      (s.setEntry r (4 * d) w).entry r' i = some 0 ∧ s.entry r' i = none := by
    intro g' r' i hr' hi
    by_cases hsame : g' = g ∧ i / 1024 = d
    · obtain ⟨rfl, hid⟩ := hsame
      obtain rfl := Option.some.inj (hr.symm.trans hr')
      exact .inr ⟨hwalked.fresh r i hr hid, by rw [Phys.entry, hid, ht]; rfl⟩
    · exact .inl (hwalked.other g' r' i hr' hi (by tauto))
  have hmapped : ∀ g' r' i, ρ.dir g' = some r' → i < 2 ^ 20 →
      (s.setEntry r (4 * d) w).mapped r' i = s.mapped r' i := by
    intro g' r' i hr' hi
    rcases hentry g' r' i hr' hi with he | ⟨he, he'⟩
    · rw [Phys.mapped, he, Phys.mapped]
    · rw [Phys.mapped, he, Phys.mapped, he']
      rfl
  refine ⟨h.move hhand nofun (fun y => ?_) (fun y => ?_) (fun y c hc hc' => ?_) h.nodup
    (fun g' r' i v hr' hge hi hv => ?_), hwalked, hself⟩
  · simp [At]
  · simp only [At, hr, Option.some.injEq, exists_eq_left', hself, ht, and_iff_right hd]
    simp [eq_comm]
  · cases c with
    | free => exact Iff.rfl
    | hand => exact absurd rfl hc
    | solo k => exact Iff.rfl
    | dir g' => exact Iff.rfl
    | table g' d' =>
      refine and_congr_right fun _ => exists_congr fun r' => and_congr_right fun hr' => ?_
      have hne : g' ≠ g ∨ d' ≠ d := by
        by_contra hcon
        push Not at hcon
        exact hc' (by rw [hcon.1, hcon.2])
      rw [htable g' r' d' hr' hne]
    | page g' i =>
      refine and_congr_right fun hi => exists_congr fun r' => and_congr_right fun hr' => ?_
      rw [hmapped g' r' i hr' (by omega)]
  · rcases hentry g' r' i hr' hi with he | ⟨he, -⟩
    · rw [he] at hv
      exact h.kernel g' r' i v hr' hge hi hv
    · rw [he] at hv
      obtain rfl := Option.some.inj hv
      rfl

/-- A page of zeros has no tables. -/
theorem table_zero (hzero : s.mem x = fun _ => 0) : s.table x d = none := by
  simp [Phys.table, hzero, word_zero, present]

theorem entry_zero (hzero : s.mem x = fun _ => 0) : s.entry x i = none := by
  simp [Phys.entry, table_zero hzero]

/-- A page of zeros becomes a page directory. -/
theorem Inv.newDir [DecidableEq ι] (h : Inv K s ρ ω) (hg : ρ.dir g = none) (hx : x ∈ ρ.hand)
    (hzero : s.mem x = fun _ => 0) :
    Inv K s { ρ with dir := update ρ.dir g (some x), hand := ρ.hand \ {x} }
      (update ω x (some (.dir g))) := by
  have hother : ∀ {g'}, g' ≠ g → update ρ.dir g (some x) g' = ρ.dir g' := fun hne =>
    update_of_ne hne _ _
  have hself : update ρ.dir g (some x) g = some x := update_self ..
  refine h.move ((h.place x .hand).mp hx) nofun (fun y => ?_) (fun y => ?_) (fun y c hc hc' => ?_)
    h.nodup (fun g' r' i v hr' hge hi hv => ?_)
  · simp [At]
  · simp [At, hg, eq_comm]
  · cases c with
    | free => exact Iff.rfl
    | hand => exact absurd rfl hc
    | solo k => exact Iff.rfl
    | dir g' =>
      have hne : g' ≠ g := fun hgg => hc' (by rw [hgg])
      simp [At, hother hne]
    | table g' d' =>
      rcases eq_or_ne g' g with rfl | hgg
      · simp [At, hg, table_zero hzero]
      · simp [At, hother hgg]
    | page g' i =>
      rcases eq_or_ne g' g with rfl | hgg
      · simp [At, hg, Phys.mapped, entry_zero hzero]
      · simp [At, hother hgg]
  · rcases eq_or_ne g' g with rfl | hgg
    · obtain rfl := Option.some.inj (hself.symm.trans hr')
      rw [entry_zero hzero] at hv
      cases hv
    · exact h.kernel g' r' i v (hother hgg ▸ hr') hge hi hv

/-! ## Giving up pages and directories -/

/-- The places have been given new names, and some have been united. -/
theorem Inv.relabel {ι' κ' : Type} {ρ' : Roots ι' κ'} (h : Inv K s ρ ω) (f : Place ι κ → Place ι' κ')
    (hplace : ∀ x b, At s ρ' x b ↔ ∃ a, At s ρ x a ∧ f a = b)
    (hdir : ∀ g r, ρ'.dir g = some r → ∃ g', ρ.dir g' = some r) :
    Inv K s ρ' fun x => (ω x).map f := by
  refine ⟨fun x b => ?_, h.nodup, fun x b hx => ?_, fun g r i w hr hge hi hw => ?_⟩
  · rw [hplace, Option.map_eq_some_iff]
    exact exists_congr fun a => and_congr_left fun _ => h.place x a
  · obtain ⟨a, ha, -⟩ := Option.map_eq_some_iff.mp hx
    exact h.managed x a ha
  · obtain ⟨g', hr'⟩ := hdir g r hr
    exact h.kernel g' r i w hr' hge hi hw

/-- The address spaces have changed their names. -/
def Place.rename (e : ι ≃ ι) : Place ι κ → Place ι κ
  | .dir g => .dir (e g)
  | .table g d => .table (e g) d
  | .page g i => .page (e g) i
  | a => a

theorem Inv.rename (h : Inv K s ρ ω) (e : ι ≃ ι) :
    Inv K s { ρ with dir := fun g => ρ.dir (e.symm g) } fun x => (ω x).map (.rename e) := by
  refine h.relabel (.rename e) (fun x b => ?_) fun g r hr => ⟨e.symm g, hr⟩
  constructor
  · intro hb
    refine ⟨b.rename e.symm, ?_, ?_⟩ <;> cases b <;> first | exact hb | simp [Place.rename]
  · rintro ⟨a, ha, rfl⟩
    cases a <;> simpa [Place.rename, At] using ha

/-- The same places, with a name to spare for another address space. -/
def Place.inject : Place ι κ → Place (Option ι) κ
  | .free => .free
  | .hand => .hand
  | .solo k => .solo k
  | .dir g => .dir (some g)
  | .table g d => .table (some g) d
  | .page g i => .page (some g) i

def Roots.inject (ρ : Roots ι κ) : Roots (Option ι) κ := ⟨fun g => g.bind ρ.dir, ρ.solo, ρ.hand⟩

theorem Inv.inject (h : Inv K s ρ ω) : Inv K s ρ.inject fun x => (ω x).map .inject := by
  refine h.relabel .inject (fun x b => ⟨fun hb => ?_, ?_⟩) fun g r hr => ?_
  · cases b with
    | free => exact ⟨.free, hb, rfl⟩
    | hand => exact ⟨.hand, hb, rfl⟩
    | solo k => exact ⟨.solo k, hb, rfl⟩
    | dir g =>
      obtain ⟨g, rfl, hg⟩ := Option.bind_eq_some_iff.mp hb
      exact ⟨.dir g, hg, rfl⟩
    | table g d =>
      obtain ⟨hd, r, hr, ht⟩ := hb
      obtain ⟨g, rfl, hg⟩ := Option.bind_eq_some_iff.mp hr
      exact ⟨.table g d, ⟨hd, r, hg, ht⟩, rfl⟩
    | page g i =>
      obtain ⟨hi, r, hr, hm⟩ := hb
      obtain ⟨g, rfl, hg⟩ := Option.bind_eq_some_iff.mp hr
      exact ⟨.page g i, ⟨hi, r, hg, hm⟩, rfl⟩
  · rintro ⟨a, ha, rfl⟩
    cases a <;> exact ha
  · obtain ⟨g, rfl, hg⟩ := Option.bind_eq_some_iff.mp hr
    exact ⟨g, hg⟩

/-- The directory of `g` and its tables are in the hands of the code that runs. -/
def Place.loosen [DecidableEq ι] (g : ι) : Place ι κ → Place ι κ
  | .dir g' => if g' = g then .hand else .dir g'
  | .table g' d => if g' = g then .hand else .table g' d
  | a => a

def Phys.tables (s : Phys) (r : ℕ) : Set ℕ := { t | ∃ d < 1024, s.table r d = some t }

/-- A directory is taken apart, which maps no user pages. -/
theorem Inv.dismantle [DecidableEq ι] (h : Inv K s ρ ω) (hr : ρ.dir g = some r)
    (hnone : ∀ i < 2 ^ 19, s.mapped r i = none) :
    Inv K s { ρ with dir := update ρ.dir g none, hand := insert r (s.tables r ∪ ρ.hand) }
      fun x => (ω x).map (.loosen g) := by
  have hother : ∀ {g'}, g' ≠ g → update ρ.dir g none g' = ρ.dir g' := fun hne =>
    update_of_ne hne _ _
  have hself : update ρ.dir g none g = none := update_self ..
  refine h.relabel (.loosen g) (fun x b => ?_) (fun g' r' hr' => ⟨g', ?_⟩)
  · constructor
    · intro hx
      cases b with
      | free => exact ⟨.free, hx, rfl⟩
      | hand =>
        rcases hx with rfl | ⟨d, hd, ht⟩ | hx
        · exact ⟨.dir g, hr, if_pos rfl⟩
        · exact ⟨.table g d, ⟨hd, r, hr, ht⟩, if_pos rfl⟩
        · exact ⟨.hand, hx, rfl⟩
      | solo k => exact ⟨.solo k, hx, rfl⟩
      | dir g' =>
        have hne : g' ≠ g := by
          rintro rfl
          exact absurd (hself.symm.trans hx) nofun
        exact ⟨.dir g', (hother hne).symm.trans hx, if_neg hne⟩
      | table g' d =>
        obtain ⟨hd, r', hr', ht⟩ := hx
        have hne : g' ≠ g := by
          rintro rfl
          exact absurd (hself.symm.trans hr') nofun
        exact ⟨.table g' d, ⟨hd, r', (hother hne).symm.trans hr', ht⟩, if_neg hne⟩
      | page g' i =>
        obtain ⟨hi, r', hr', hm⟩ := hx
        have hne : g' ≠ g := by
          rintro rfl
          exact absurd (hself.symm.trans hr') nofun
        exact ⟨.page g' i, ⟨hi, r', (hother hne).symm.trans hr', hm⟩, rfl⟩
    · rintro ⟨a, ha, rfl⟩
      cases a with
      | free => exact ha
      | hand => exact .inr (.inr ha)
      | solo k => exact ha
      | dir g' =>
        simp only [Place.loosen]
        split_ifs with hg
        · rw [hg] at ha
          exact .inl (Option.some.inj (ha.symm.trans hr))
        · exact (hother hg).trans ha
      | table g' d =>
        obtain ⟨hd, r', hr', ht⟩ := ha
        simp only [Place.loosen]
        split_ifs with hg
        · rw [hg] at hr'
          obtain rfl := Option.some.inj (hr'.symm.trans hr)
          exact .inr (.inl ⟨d, hd, ht⟩)
        · exact ⟨hd, r', (hother hg).trans hr', ht⟩
      | page g' i =>
        obtain ⟨hi, r', hr', hm⟩ := ha
        have hg : g' ≠ g := by
          rintro rfl
          obtain rfl := Option.some.inj (hr'.symm.trans hr)
          rw [hnone i hi] at hm
          cases hm
        exact ⟨hi, r', (hother hg).trans hr', hm⟩
  · have hne : g' ≠ g := by
      rintro rfl
      exact absurd (hself.symm.trans hr') nofun
    exact (hother hne).symm.trans hr'

theorem at_hand_irrel {y : ℕ} {c : Place ι κ} (hc : c ≠ .hand) (H : Set ℕ) :
    At s { ρ with hand := H } y c ↔ At s ρ y c := by
  cases c with
  | hand => exact absurd rfl hc
  | _ => exact Iff.rfl

open Classical in
/-- Pages in local variables are forgotten. -/
theorem Inv.forget (h : Inv K s ρ ω) {D : Set ℕ} (hD : D ⊆ ρ.hand) :
    Inv K s { ρ with hand := ρ.hand \ D } fun x => if x ∈ D then none else ω x := by
  refine ⟨fun x a => ?_, h.nodup, fun x a hx => ?_, h.kernel⟩
  · by_cases hx : x ∈ D
    · rw [if_pos hx]
      refine iff_of_false (fun ha => ?_) nofun
      by_cases hhand : a = .hand
      · subst hhand
        exact ha.2 hx
      · rw [at_hand_irrel hhand, h.place, (h.place x .hand).mp (hD hx)] at ha
        exact hhand (Option.some.inj ha).symm
    · rw [if_neg hx, ← h.place]
      by_cases hhand : a = .hand
      · subst hhand
        exact and_iff_left hx
      · exact at_hand_irrel hhand _
  · by_cases hxD : x ∈ D
    · rw [if_pos hxD] at hx
      cases hx
    · rw [if_neg hxD] at hx
      exact h.managed x a hx

/-! ## Kernel stacks and pipes -/

theorem Inv.setSolo [DecidableEq κ] (h : Inv K s ρ ω) {k : κ} (hk : ρ.solo k = none) (hx : x ∈ ρ.hand) :
    Inv K s { ρ with solo := update ρ.solo k (some x), hand := ρ.hand \ {x} }
      (update ω x (some (.solo k))) := by
  refine h.move ((h.place x .hand).mp hx) nofun (fun y => ?_) (fun y => ?_) (fun y c hc hc' => ?_)
    h.nodup h.kernel
  · simp [At]
  · simp [At, hk, eq_comm]
  · cases c with
    | hand => exact absurd rfl hc
    | solo k' =>
      have hne : k' ≠ k := fun hkk => hc' (by rw [hkk])
      simp [At, update_of_ne hne]
    | _ => exact Iff.rfl

theorem Inv.takeSolo [DecidableEq κ] (h : Inv K s ρ ω) {k : κ} (hk : ρ.solo k = some x) :
    Inv K s { ρ with solo := update ρ.solo k none, hand := insert x ρ.hand }
      (update ω x (some .hand)) := by
  refine h.move ((h.place x (.solo k)).mp hk) nofun (fun y => ?_) (fun y => ?_) (fun y c hc hc' => ?_)
    h.nodup h.kernel
  · simp [At, hk, eq_comm]
  · simp [At, or_comm]
  · cases c with
    | hand => exact absurd rfl hc'
    | solo k' =>
      have hne : k' ≠ k := fun hkk => hc (by rw [hkk])
      simp [At, update_of_ne hne]
    | _ => exact Iff.rfl

end

end

end

end Xv6.Vm
