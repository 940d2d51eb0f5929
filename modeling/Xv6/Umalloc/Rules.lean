import Mathlib.Data.List.Nodup
import Xv6.Lib.Circle
import Xv6.Umalloc.Cells
import Xv6.Umalloc.Heap

/-!
# The free list in memory

When memory holds a row of cells and a circular list of the free ones among them, and what `free` and
`morecore` make of it.
-/

namespace Xv6.Umalloc

open Lib Exec
open Function (update update_self update_of_ne)

open Vm (uint KERNBASE addInt)

/-- Memory between `start` and the end is the row of cells, and the free cells form a circle through
`base`, which is below all of them. -/
structure Formed (base start : ℕ) (s : Heap) (cs : List Cell) : Prop where
  circle : Circle (fun a => (s.mem a).ptr) base (freeAt start cs)
  zero : (s.mem base).size = 0
  sized : ∀ x ∈ cellsAt start cs, (s.mem x.1).size = x.2
  freep : s.freep ∈ base :: freeAt start cs
  brk : s.brk = start + 8 * units cs
  pos : 0 < base
  below : base + 8 ≤ start
  limit : s.brk < KERNBASE
  tidy : Tidy cs

/-! ## Access to memory -/

/-- Write a header. -/
def Heap.put (s : Heap) (p : ℕ) (h : Header) : Heap := { s with mem := Function.update s.mem p h }

section

variable {E : Fault → Prop} {s : Heap} {p x : ℕ} {h h' : Header} {Q : PUnit → Heap → Prop}

@[simp] theorem put_mem : (s.put p h).mem = update s.mem p h := rfl

@[simp] theorem put_brk : (s.put p h).brk = s.brk := rfl

@[simp] theorem put_put : (s.put p h).put p h' = s.put p h' := by
  simp [Heap.put]

theorem mapped_of_le (hp : p + 8 ≤ s.brk) : s.Mapped p := by
  simp only [Heap.Mapped, HEADER, Vm.PGSIZE]
  omega

theorem wp_load {Q : Header → Heap → Prop} (hp : p + 8 ≤ s.brk) : wp E (load p) Q s ↔ Q (s.mem p) s := by
  unfold load
  simp only [wp_bind, wp_get, if_pos (mapped_of_le hp), wp_pure]

theorem wp_ptr {Q : ℕ → Heap → Prop} (hp : p + 8 ≤ s.brk) : wp E (ptr p) Q s ↔ Q (s.mem p).ptr s := by
  simp only [ptr, wp_bind, wp_load hp, wp_pure]

theorem wp_size {Q : ℕ → Heap → Prop} (hp : p + 8 ≤ s.brk) : wp E (size p) Q s ↔ Q (s.mem p).size s := by
  simp only [size, wp_bind, wp_load hp, wp_pure]

theorem wp_store (hp : p + 8 ≤ s.brk) : wp E (store p h) Q s ↔ Q ⟨⟩ (s.put p h) := by
  unfold store
  simp only [wp_bind, wp_get, if_pos (mapped_of_le hp), wp_set]
  rfl

theorem wp_setPtr (hp : p + 8 ≤ s.brk) : wp E (setPtr p x) Q s ↔ Q ⟨⟩ (s.put p ⟨x, (s.mem p).size⟩) := by
  simp only [setPtr, wp_bind, wp_load hp, wp_store hp]

theorem wp_setSize (hp : p + 8 ≤ s.brk) : wp E (setSize p x) Q s ↔ Q ⟨⟩ (s.put p ⟨(s.mem p).ptr, x⟩) := by
  simp only [setSize, wp_bind, wp_load hp, wp_store hp]

end

/-! ## `free` -/

section

variable {E : Fault → Prop} {s : Heap} {base start p bp f : ℕ} {L : List ℕ} {cs pre post : List Cell} {c : Cell}
  {Q : PUnit → Heap → Prop}

/-- A round of the loop of `free`. -/
theorem wp_freeFrom_step {Q : ℕ → Heap → Prop} {fuel : ℕ} (hp : p + 8 ≤ s.brk)
    (hstop : Gap (fun a => (s.mem a).ptr) bp p → Q p s)
    (hgo : ¬Gap (fun a => (s.mem a).ptr) bp p → wp E (freeFrom bp fuel (s.mem p).ptr) Q s) :
    wp E (freeFrom bp (fuel + 1) p) Q s := by
  rw [freeFrom]
  simp only [wp_bind, wp_ptr hp]
  split_ifs with hin
  · exact hstop (.inl hin)
  · simp only [wp_bind, wp_ptr hp]
    split_ifs with hend
    · exact hstop (.inr hend)
    · simp only [wp_bind, wp_ptr hp]
      exact hgo fun hgap => hgap.elim hin hend

/-- The loop of `free` ends at the place of the block on the list. -/
theorem wp_freeFrom {q : ℕ} {Q : ℕ → Heap → Prop}
    (hlinked : Linked (fun a => (s.mem a).ptr) (p :: L ++ [f])) (hbound : ∀ x ∈ p :: L, x + 8 ≤ s.brk)
    (hgap : ∀ x ∈ p :: L, Gap (fun a => (s.mem a).ptr) bp x ↔ x = q) (hmem : q ∈ p :: L) {fuel : ℕ}
    (hfuel : L.length < fuel) (hQ : Q q s) : wp E (freeFrom bp fuel p) Q s := by
  induction L generalizing p fuel with
  | nil =>
    obtain rfl := List.mem_singleton.mp hmem
    obtain ⟨fuel, rfl⟩ : ∃ m, fuel = m + 1 := ⟨fuel - 1, by omega⟩
    exact wp_freeFrom_step (hbound q List.mem_cons_self) (fun _ => hQ)
      fun hnot => absurd ((hgap q List.mem_cons_self).mpr rfl) hnot
  | cons y L ih =>
    obtain ⟨fuel, rfl⟩ : ∃ m, fuel = m + 1 := ⟨fuel - 1, by omega⟩
    refine wp_freeFrom_step (hbound p List.mem_cons_self) (fun hg => ?_) fun hnot => ?_
    · obtain rfl := (hgap p List.mem_cons_self).mp hg
      exact hQ
    · obtain ⟨hnext, hrest⟩ := List.isChain_cons_cons.mp hlinked
      have hq : q ∈ y :: L := by
        rcases List.mem_cons.mp hmem with rfl | hq
        · exact absurd ((hgap q List.mem_cons_self).mpr rfl) hnot
        · exact hq
      have hnext' : (s.mem p).ptr = y := hnext
      rw [hnext']
      exact ih hrest (fun x hx => hbound x (List.mem_cons_of_mem _ hx))
        (fun x hx => hgap x (List.mem_cons_of_mem _ hx)) hq (by rw [List.length_cons] at hfuel; omega)

theorem wp_joinUpper (hbp : bp + 8 ≤ s.brk) (hp : p + 8 ≤ s.brk)
    (hnext : (s.mem p).ptr + 8 ≤ s.brk) (hne : p ≠ bp) (hne' : (s.mem p).ptr ≠ bp) :
    wp E (joinUpper bp p) Q s ↔ Q ⟨⟩ (s.put bp (if plus bp (s.mem bp).size = (s.mem p).ptr then
      ⟨(s.mem (s.mem p).ptr).ptr, uint ((s.mem bp).size + (s.mem (s.mem p).ptr).size)⟩
      else ⟨(s.mem p).ptr, (s.mem bp).size⟩)) := by
  unfold joinUpper
  simp only [wp_bind, wp_size hbp, wp_ptr hp]
  split_ifs with hadj
  · simp only [wp_bind, wp_size hbp, wp_ptr hp, wp_size hnext, wp_setSize hbp]
    rw [wp_ptr (s := s.put _ _) hp, put_mem, update_of_ne hne, wp_bind, wp_ptr (s := s.put _ _) hnext,
      put_mem, update_of_ne hne', wp_setPtr (s := s.put _ _) hbp, put_put, put_mem, update_self]
  · simp only [wp_bind, wp_ptr hp, wp_setPtr hbp]

theorem wp_joinLower (hbp : bp + 8 ≤ s.brk) (hp : p + 8 ≤ s.brk) (hne : bp ≠ p) :
    wp E (joinLower bp p) Q s ↔ Q ⟨⟩ (s.put p (if plus p (s.mem p).size = bp then
      ⟨(s.mem bp).ptr, uint ((s.mem p).size + (s.mem bp).size)⟩ else ⟨bp, (s.mem p).size⟩)) := by
  unfold joinLower
  simp only [wp_bind, wp_size hp]
  split_ifs with hadj
  · simp only [wp_bind, wp_size hp, wp_size hbp, wp_setSize hp]
    rw [wp_ptr (s := s.put _ _) hbp, put_mem, update_of_ne hne, wp_setPtr (s := s.put _ _) hp, put_put,
      put_mem, update_self]
  · simp only [wp_setPtr hp]

theorem Formed.lt (h : Formed base start s cs) : start + 8 * units cs < 2 ^ 31 := by
  rw [← h.brk]
  exact h.limit

theorem plus_eq {n : ℕ} (hle : p + 8 * n ≤ s.brk) (hlimit : s.brk < KERNBASE) : plus p n = p + 8 * n := by
  simp only [plus, uint, HEADER, KERNBASE] at hlimit ⊢
  omega

/-- All elements of the free list are in memory, in increasing order. -/
theorem Formed.bound (h : Formed base start s cs) {x : ℕ} (hx : x ∈ base :: freeAt start cs) : x + 8 ≤ s.brk := by
  have hbrk := h.brk
  have hbelow := h.below
  rcases List.mem_cons.mp hx with rfl | hx
  · omega
  · have := (bounds_freeAt h.tidy.fine hx).2
    omega

theorem Formed.sorted (h : Formed base start s cs) : (base :: freeAt start cs).Pairwise (· < ·) := by
  have hbelow := h.below
  refine List.pairwise_cons.mpr ⟨fun x hx => ?_, sorted_freeAt h.tidy.fine⟩
  have := (bounds_freeAt h.tidy.fine hx).1
  omega

theorem Formed.notMem (h : Formed base start s cs) {A B : List ℕ} (hl : base :: freeAt start cs = A ++ p :: B) :
    p ∉ A ++ B := by
  have hnodup : (base :: freeAt start cs).Nodup := h.sorted.imp fun hlt => hlt.ne
  rw [hl, List.nodup_middle] at hnodup
  exact (List.nodup_cons.mp hnodup).1

/-- The element of the free list behind which a cell in use has its place. -/
structure Spot (base start : ℕ) (pre : List Cell) (A : List ℕ) (p : ℕ) : Prop where
  list : base :: freeAt start pre = A ++ [p]
  le : p + 8 ≤ start + 8 * units pre

theorem Formed.spot (h : Formed base start s (pre ++ c :: post)) : ∃ A p, Spot base start pre A p := by
  have hbelow := h.below
  have hlast := List.dropLast_append_getLast (List.cons_ne_nil base (freeAt start pre))
  refine ⟨_, _, hlast.symm, ?_⟩
  rcases List.mem_cons.mp (List.getLast_mem (List.cons_ne_nil base (freeAt start pre))) with heq | hmem
  · rw [heq]
    omega
  · exact (bounds_freeAt (List.forall_mem_append.mp h.tidy.fine).1 hmem).2

section Spot

variable {A : List ℕ} (h : Formed base start s (pre ++ c :: post)) (hc : c.owner ≠ none)
  (hspot : Spot base start pre A p)

include hc in
theorem freeAt_used : freeAt start (pre ++ c :: post) =
    freeAt start pre ++ freeAt (start + 8 * units pre + 8 * c.size) post := by
  rw [freeAt_append, freeAt, if_neg hc]

include hc hspot in
theorem Spot.split : base :: freeAt start (pre ++ c :: post) =
    A ++ p :: freeAt (start + 8 * units pre + 8 * c.size) post := by
  rw [freeAt_used hc, ← List.cons_append, hspot.list, List.append_assoc, List.singleton_append]

include h hc hspot in
theorem Spot.ptr_eq : (s.mem p).ptr = (freeAt (start + 8 * units pre + 8 * c.size) post).headD base :=
  h.circle.next_eq (hspot.split hc)

include h in
theorem Formed.behind {y : ℕ} (hy : y ∈ freeAt (start + 8 * units pre + 8 * c.size) post) :
    start + 8 * units pre + 8 * c.size ≤ y ∧ y + 8 ≤ s.brk := by
  have := bounds_freeAt (List.forall_mem_cons.mp (List.forall_mem_append.mp h.tidy.fine).2).2 hy
  have hbrk := h.brk
  simp only [units_append, units_cons] at hbrk
  omega

include h in
theorem Formed.size_pos : 1 ≤ c.size ∧ start + 8 * units pre + 8 * c.size ≤ s.brk := by
  have hpos := (h.tidy.fine c (by simp)).pos
  have hbrk := h.brk
  simp only [units_append, units_cons] at hbrk
  omega

/-- What `free` makes of the header of the block: it is joined with the cell behind it if that is
free. -/
theorem Spot.upper (h : Formed base start s (pre ++ c :: post)) (hc : c.owner ≠ none)
    (hspot : Spot base start pre A p) (hbp : bp = start + 8 * units pre) :
    (if plus bp (s.mem bp).size = (s.mem p).ptr then
      ⟨(s.mem (s.mem p).ptr).ptr, uint ((s.mem bp).size + (s.mem (s.mem p).ptr).size)⟩
      else ⟨(s.mem p).ptr, (s.mem bp).size⟩ : Header) =
    ⟨(freeAt (bp + 8 * (joinUp c.size post).1) (joinUp c.size post).2).headD base, (joinUp c.size post).1⟩ := by
  have hptr := hspot.ptr_eq h hc
  obtain ⟨hpos, hle⟩ := h.size_pos
  have hsize : (s.mem bp).size = c.size := h.sized (bp, c.size) (by simp [cellsAt, hbp])
  have hplus : plus bp c.size = bp + 8 * c.size := plus_eq (by omega) h.limit
  have hbelow := h.below
  rw [hsize, hplus]
  rw [← hbp] at hptr hle
  cases post with
  | nil =>
    rw [freeAt, List.headD_nil] at hptr
    rw [hptr, if_neg (by omega)]
    rfl
  | cons d post =>
    have hunits := h.lt
    have hdpos := (h.tidy.fine d (by simp)).pos
    simp only [units_append, units_cons] at hunits
    rw [joinUp]
    by_cases hd : d.owner = none
    · have hsplit : base :: freeAt start (pre ++ c :: d :: post) =
          (A ++ [p]) ++ (bp + 8 * c.size) :: freeAt (bp + 8 * c.size + 8 * d.size) post := by
        rw [hspot.split hc, freeAt, if_pos hd, ← hbp, List.append_assoc, List.singleton_append]
      have hnext : (s.mem (bp + 8 * c.size)).ptr = _ := h.circle.next_eq hsplit
      have hsize' : (s.mem (bp + 8 * c.size)).size = d.size :=
        h.sized (bp + 8 * c.size, d.size) (by simp [cellsAt, hbp])
      have huint : uint (c.size + d.size) = c.size + d.size := Nat.mod_eq_of_lt (by omega)
      rw [freeAt, if_pos hd, List.headD_cons] at hptr
      rw [hptr, if_pos rfl, hnext, hsize', huint, if_pos hd, Nat.mul_add, ← Nat.add_assoc]
    · have hbehind : ∀ y ∈ freeAt (bp + 8 * c.size + 8 * d.size) post, bp + 8 * c.size < y := by
        intro y hy
        have := (bounds_freeAt (fun e he => h.tidy.fine e (by simp [he])) hy).1
        omega
      rw [if_neg hd, ← hptr, if_neg]
      rw [hptr, freeAt, if_neg hd]
      cases hB : freeAt (bp + 8 * c.size + 8 * d.size) post with
      | nil =>
        rw [List.headD_nil]
        omega
      | cons y B =>
        have := hbehind y (by simp [hB])
        rw [List.headD_cons]
        omega

/-- The element in front is joined with the block if and only if it is the cell in front. -/
theorem Spot.joined {d : Cell} (hd : d.owner = none)
    (hspot : Spot base start (pre ++ [d]) A p) :
    A = base :: freeAt start pre ∧ p = start + 8 * units pre := by
  have hlist := hspot.list
  rw [freeAt_append, freeAt, if_pos hd, freeAt, ← List.cons_append] at hlist
  obtain ⟨hA, hp⟩ := List.append_inj' hlist rfl
  exact ⟨hA.symm, (List.singleton_inj.mp hp).symm⟩

theorem Spot.alone (h : Formed base start s (pre ++ c :: post)) (hspot : Spot base start pre A p)
    (hlast : ∀ d ∈ pre.getLast?, d.owner ≠ none) : plus p (s.mem p).size ≠ start + 8 * units pre := by
  have hbelow := h.below
  have hmem : p ∈ base :: freeAt start pre := by rw [hspot.list]; simp
  obtain ⟨hpos, hle⟩ := h.size_pos
  rcases List.mem_cons.mp hmem with rfl | hmem
  · rw [h.zero, plus_eq (by omega) h.limit]
    omega
  · obtain ⟨pre₁, e, pre₂, rfl, he, rfl⟩ := mem_freeAt.mp hmem
    have hsize : (s.mem (start + 8 * units pre₁)).size = e.size :=
      h.sized (_, e.size) (by simp [cellsAt])
    cases pre₂ with
    | nil => exact absurd he (hlast e (by simp))
    | cons e' pre₂ =>
      have := (h.tidy.fine e' (by simp)).pos
      simp only [units_append, units_cons] at hle ⊢
      rw [hsize, plus_eq (by omega) h.limit]
      omega

/-- Elements of the list other than the one in front, and those behind. -/
theorem Spot.others (h : Formed base start s (pre ++ c :: post)) (hc : c.owner ≠ none)
    (hspot : Spot base start pre A p) {x : ℕ}
    (hx : x ∈ A ++ freeAt (start + 8 * units pre + 8 * c.size) post) :
    x ≠ p ∧ x ≠ start + 8 * units pre := by
  have hle := hspot.le
  obtain ⟨hpos, -⟩ := h.size_pos
  rcases List.mem_append.mp hx with hx | hx
  · have hsorted := h.sorted
    rw [hspot.split hc] at hsorted
    have := (List.pairwise_append.mp hsorted).2.2 x hx p List.mem_cons_self
    omega
  · have := (h.behind hx).1
    omega

/-- The cells in front of the block. -/
theorem Formed.front (h : Formed base start s (pre ++ c :: post)) {x : ℕ × ℕ} (hx : x ∈ cellsAt start pre) :
    (s.mem x.1).size = x.2 ∧ x.1 + 8 ≤ start + 8 * units pre := by
  have := bounds_cellsAt (List.forall_mem_append.mp h.tidy.fine).1 hx
  exact ⟨h.sized x (by simp [hx]), by omega⟩

/-- The cells behind the block. -/
theorem Formed.back (h : Formed base start s (pre ++ c :: post)) {x : ℕ × ℕ}
    (hx : x ∈ cellsAt (start + 8 * units pre + 8 * c.size) post) :
    (s.mem x.1).size = x.2 ∧ start + 8 * units pre + 8 * c.size ≤ x.1 := by
  have := bounds_cellsAt (List.forall_mem_cons.mp (List.forall_mem_append.mp h.tidy.fine).2).2 hx
  exact ⟨h.sized x (by simp [cellsAt, hx]), this.1⟩

theorem Formed.free_joined {s' : Heap} {d : Cell} (h : Formed base start s (pre ++ [d] ++ c :: post))
    (hc : c.owner ≠ none) (hd : d.owner = none) (hp : p = start + 8 * units pre)
    (hmem : ∀ x, x ≠ p → x ≠ p + 8 * d.size → s'.mem x = s.mem x)
    (hnew : s'.mem p = ⟨(freeAt (p + 8 * d.size + 8 * (joinUp c.size post).1) (joinUp c.size post).2).headD base,
      d.size + (joinUp c.size post).1⟩) (hfreep : s'.freep = p) (hbrk : s'.brk = s.brk) :
    Formed base start s' (release (pre ++ [d]) c post) := by
  have hbp : start + 8 * units (pre ++ [d]) = p + 8 * d.size := by
    simp only [units_append, units_cons, units_nil]
    omega
  obtain ⟨A, q, hspot⟩ := h.spot
  obtain ⟨rfl, hq⟩ := hspot.joined hd
  obtain rfl : q = p := hq.trans hp.symm
  have hbelow := h.below
  have hcpos := (h.tidy.fine c (by simp)).pos
  obtain ⟨D, hD⟩ := @freeAt_joinUp (q + 8 * d.size) c.size post
  have hsplit : base :: freeAt start (pre ++ [d] ++ c :: post) = _ := hspot.split hc
  rw [hbp, hD] at hsplit
  have hfree : freeAt start (release (pre ++ [d]) c post) = freeAt start pre ++
      q :: freeAt (q + 8 * d.size + 8 * (joinUp c.size post).1) (joinUp c.size post).2 := by
    rw [release_joined hd, freeAt_append, freeAt, if_pos rfl, ← hp, Nat.mul_add, Nat.add_assoc]
  have hother : ∀ x ∈ (base :: freeAt start pre) ++
      freeAt (q + 8 * d.size + 8 * (joinUp c.size post).1) (joinUp c.size post).2, s'.mem x = s.mem x := by
    intro x hx
    obtain ⟨hxq, hxbp⟩ := hspot.others h hc (x := x) (by
      rw [hbp, hD]
      rcases List.mem_append.mp hx with hx | hx
      · exact List.mem_append_left _ hx
      · exact List.mem_append_right _ (List.mem_append_right _ hx))
    exact hmem x hxq (hbp ▸ hxbp)
  refine ⟨?_, by rw [hother base (by simp), h.zero], fun x hx => ?_, ?_, ?_, h.pos, hbelow, hbrk ▸ h.limit,
    h.tidy.release⟩
  · refine h.circle.splice (M := []) hsplit (by rw [hfree]; rfl) (fun x hx => ?_) ?_
    · simp only [hother x hx]
    · simp [Linked, hnew]
  · rw [release_joined hd, cellsAt_append, cellsAt, ← hp] at hx
    rcases List.mem_append.mp hx with hx | hx
    · have hfront : Formed base start s (pre ++ d :: c :: post) := by simpa using h
      obtain ⟨hsize, hlt⟩ := hfront.front hx
      rw [hmem x.1 (by omega) (by omega), hsize]
    · rcases List.mem_cons.mp hx with rfl | hx
      · rw [hnew]
      · obtain ⟨hsize, hge⟩ := h.back (x := x) (by
          rw [hbp]
          refine mem_cellsAt_joinUp ?_
          rwa [Nat.mul_add, ← Nat.add_assoc] at hx)
        rw [hmem x.1 (by omega) (by omega), hsize]
  · rw [hfreep, hfree]
    simp
  · rw [hbrk, h.brk, units_release]
    simp only [units_append, units_cons, units_nil]
    omega

theorem Formed.free_alone {s' : Heap} (h : Formed base start s (pre ++ c :: post)) (hc : c.owner ≠ none)
    (hspot : Spot base start pre A p) (hlast : ∀ d ∈ pre.getLast?, d.owner ≠ none)
    (hbp : bp = start + 8 * units pre) (hmem : ∀ x, x ≠ p → x ≠ bp → s'.mem x = s.mem x)
    (hp : s'.mem p = ⟨bp, (s.mem p).size⟩)
    (hnew : s'.mem bp = ⟨(freeAt (bp + 8 * (joinUp c.size post).1) (joinUp c.size post).2).headD base,
      (joinUp c.size post).1⟩) (hfreep : s'.freep = p) (hbrk : s'.brk = s.brk) :
    Formed base start s' (release pre c post) := by
  subst hbp
  have hle := hspot.le
  have hbelow := h.below
  have hcpos := (h.tidy.fine c (by simp)).pos
  obtain ⟨D, hD⟩ := @freeAt_joinUp (start + 8 * units pre) c.size post
  have hsplit : base :: freeAt start (pre ++ c :: post) = _ := hspot.split hc
  rw [hD] at hsplit
  have hfree : base :: freeAt start (release pre c post) = A ++ p :: ([start + 8 * units pre] ++
      freeAt (start + 8 * units pre + 8 * (joinUp c.size post).1) (joinUp c.size post).2) := by
    rw [release_alone hlast, freeAt_append, freeAt, if_pos rfl, ← List.cons_append, hspot.list, List.append_assoc]
    rfl
  have hother : ∀ x ∈ A ++ freeAt (start + 8 * units pre + 8 * (joinUp c.size post).1) (joinUp c.size post).2,
      s'.mem x = s.mem x := by
    intro x hx
    obtain ⟨hxp, hxbp⟩ := hspot.others h hc (x := x) (by
      rw [hD]
      rcases List.mem_append.mp hx with hx | hx
      · exact List.mem_append_left _ hx
      · exact List.mem_append_right _ (List.mem_append_right _ hx))
    exact hmem x hxp hxbp
  -- sizes change at the block only
  have hsame : ∀ x, x ≠ start + 8 * units pre → (s'.mem x).size = (s.mem x).size := by
    intro x hx
    by_cases hxp : x = p
    · rw [hxp, hp]
    · rw [hmem x hxp hx]
  refine ⟨?_, by rw [hsame base (by omega), h.zero], fun x hx => ?_, ?_, ?_, h.pos, hbelow, hbrk ▸ h.limit,
    h.tidy.release⟩
  · refine h.circle.splice hsplit hfree (fun x hx => ?_) ?_
    · simp only [hother x hx]
    · simp [Linked, hp, hnew]
  · rw [release_alone hlast, cellsAt_append, cellsAt] at hx
    rcases List.mem_append.mp hx with hx | hx
    · obtain ⟨hsize, hlt⟩ := h.front hx
      rw [hsame x.1 (by omega), hsize]
    · rcases List.mem_cons.mp hx with rfl | hx
      · rw [hnew]
      · obtain ⟨hsize, hge⟩ := h.back (mem_cellsAt_joinUp hx)
        rw [hsame x.1 (by omega), hsize]
  · rw [hfreep, hfree]
    simp
  · rw [hbrk, h.brk, units_release]
    simp only [units_append, units_cons]
    omega

end Spot

/-- The number of elements of the free list. -/
theorem Formed.length (h : Formed base start s cs) : 2 * (freeAt start cs).length + 4 ≤ s.spins := by
  have hlen := length_freeAt (a := start) h.tidy.fine
  have hbrk := h.brk
  simp only [Heap.spins]
  omega

theorem Formed.ptr_bound (h : Formed base start s (pre ++ c :: post)) :
    (freeAt (start + 8 * units pre + 8 * c.size) post).headD base + 8 ≤ s.brk ∧
      (freeAt (start + 8 * units pre + 8 * c.size) post).headD base ≠ start + 8 * units pre := by
  obtain ⟨hpos, hle⟩ := h.size_pos
  have hbelow := h.below
  cases hB : freeAt (start + 8 * units pre + 8 * c.size) post with
  | nil =>
    rw [List.headD_nil]
    omega
  | cons y B =>
    have := h.behind (c := c) (y := y) (by simp [hB])
    rw [List.headD_cons]
    omega

theorem wp_free {ap : ℕ} (h : Formed base start s (pre ++ c :: post))
    (hc : c.owner ≠ none) (hap : ap = start + 8 * units pre + 8)
    (hQ : ∀ s', Formed base start s' (release pre c post) → s'.brk = s.brk → s'.grant = s.grant →
      s'.asked = s.asked → Q ⟨⟩ s') : wp E (free ap) Q s := by
  obtain ⟨A, p, hspot⟩ := h.spot
  obtain ⟨hpos, hle⟩ := h.size_pos
  have hlt := h.lt
  have hple := hspot.le
  have hptr := hspot.ptr_eq h hc
  obtain ⟨hnext, hnext'⟩ := h.ptr_bound
  rw [← hptr] at hnext hnext'
  generalize hbp : start + 8 * units pre = bp at *
  have huint : uint (ap + 2 ^ 32 - HEADER) = bp := by
    have hlimit := h.limit
    simp only [uint, HEADER, KERNBASE] at hlimit ⊢
    omega
  unfold free
  simp only [wp_bind, wp_get, huint]
  -- the search
  obtain ⟨X, Y, hXY⟩ := List.append_of_mem h.freep
  have hmem : ∀ x, x ∈ s.freep :: (Y ++ X) ↔ x ∈ base :: freeAt start (pre ++ c :: post) := by
    intro x
    rw [hXY]
    exact mem_rotate
  have hlen : (Y ++ X).length < s.spins := by
    have hsum := congrArg List.length hXY
    have hspins := h.length
    rw [List.length_cons, List.length_append, List.length_cons] at hsum
    rw [List.length_append]
    omega
  refine wp_freeFrom (q := p) (h.circle.rotate hXY) (fun x hx => h.bound ((hmem x).mp hx)) (fun x hx => ?_)
    ((hmem p).mpr (by rw [hspot.split hc]; simp)) hlen ?_
  · refine h.circle.gap_iff h.sorted (hspot.split hc) (by omega) (fun y hy => ?_) ((hmem x).mp hx)
    have := (h.behind hy).1
    omega
  -- the joins
  rw [wp_bind, wp_joinUpper (by omega) (by omega) hnext (by omega) hnext', hspot.upper h hc hbp.symm, wp_bind,
    wp_joinLower (s := s.put _ _) (by simp only [put_brk]; omega) (by simp only [put_brk]; omega) (by omega), put_mem,
    update_self, update_of_ne (show p ≠ bp by omega)]
  have hup := @units_joinUp c.size post
  simp only [units_append, units_cons] at hlt
  rcases release_cases pre with ⟨pre', d, rfl, hd⟩ | hlast
  · obtain ⟨-, hp⟩ := hspot.joined hd
    have hsize : (s.mem p).size = d.size := h.sized (p, d.size) (by simp [cellsAt, hp])
    simp only [units_append, units_cons, units_nil] at hbp hlt
    have hbp' : p + 8 * d.size = bp := by omega
    have hadj : plus p (s.mem p).size = bp := by rw [hsize, plus_eq (by omega) h.limit, hbp']
    have huint' : uint (d.size + (joinUp c.size post).1) = d.size + (joinUp c.size post).1 :=
      Nat.mod_eq_of_lt (by omega)
    rw [if_pos hadj, hsize, huint', wp_modify]
    refine hQ _ (h.free_joined hc hd hp (fun x hx hx' => ?_) ?_ rfl rfl) rfl rfl rfl
    · simp only [put_mem]
      rw [update_of_ne hx, update_of_ne (by omega)]
    · simp only [put_mem, update_self, hbp']
  · rw [if_neg (hbp ▸ hspot.alone h hlast), wp_modify]
    refine hQ _ (h.free_alone hc hspot hlast hbp.symm (fun x hx hx' => ?_) ?_ ?_ rfl rfl) rfl rfl rfl
    · simp only [put_mem]
      rw [update_of_ne hx, update_of_ne hx']
    · simp only [put_mem, update_self]
    · simp only [put_mem]
      rw [update_of_ne (by omega), update_self]

end

/-! ## `morecore` -/

/-- The system has `n` more bytes for the process. -/
def Heap.Grants (s : Heap) (n : ℕ) : Prop := s.grant 0 = true ∧ s.brk + n < KERNBASE

instance (s : Heap) (n : ℕ) : Decidable (s.Grants n) := inferInstanceAs (Decidable (_ ∧ _))

/-- After a call of `sbrk` that may have moved the end of memory. -/
def Heap.called (s : Heap) (n : ℤ) (brk : ℕ) : Heap :=
  { s with brk := brk, grant := fun i => s.grant (i + 1), asked := s.asked ++ [n] }

section

variable {E : Fault → Prop} {s : Heap} {base start : ℕ} {cs : List Cell}

theorem wp_sbrk {n : ℕ} {Q : Option ℕ → Heap → Prop} (hpos : 0 < n) (hn : n < 2 ^ 31) (hlimit : s.brk < KERNBASE)
    (hfail : ¬s.Grants n → Q none (s.called n s.brk))
    (hok : s.Grants n → Q (some s.brk) (s.called n (s.brk + n))) : wp E (sbrk n) Q s := by
  have hadd : addInt s.brk n = s.brk + n := by
    simp only [addInt, KERNBASE] at hlimit ⊢
    omega
  have hgrown : grown s.brk n (s.grant 0) = if s.Grants n then some (s.brk + n) else none := by
    rw [grown, if_pos (by omega), hadd, if_neg (show ¬s.brk + n < s.brk by omega)]
    by_cases hbig : s.brk + n ≥ KERNBASE
    · rw [if_pos hbig, if_neg fun hg => absurd hg.2 (not_lt.mpr hbig)]
    · rw [if_neg hbig]
      exact if_congr ⟨fun hg => ⟨hg, not_le.mp hbig⟩, fun hg => hg.1⟩ rfl rfl
  unfold sbrk
  simp only [wp_bind, wp_get, wp_set, wp_pure, hgrown]
  split_ifs with hg
  · exact hok hg
  · exact hfail hg

/-- New memory at the end is a cell in use. -/
theorem Formed.extend {s' : Heap} {n : ℕ} (h : Formed base start s cs) (hpos : 1 ≤ n)
    (hmem : ∀ x, x ≠ s.brk → s'.mem x = s.mem x) (hsize : (s'.mem s.brk).size = n) (hfreep : s'.freep = s.freep)
    (hbrk : s'.brk = s.brk + 8 * n) (hlimit : s'.brk < KERNBASE) :
    Formed base start s' (cs ++ [⟨n, some 0⟩]) := by
  have hlist : freeAt start (cs ++ [⟨n, some 0⟩]) = freeAt start cs := by
    rw [freeAt_append, freeAt, if_neg (by simp), freeAt, List.append_nil]
  have hsame : ∀ x ∈ base :: freeAt start cs, s'.mem x = s.mem x := fun x hx => by
    have := h.bound hx
    exact hmem x (by omega)
  have hold := h.brk
  refine ⟨?_, by rw [hsame base (by simp), h.zero], fun x hx => ?_, ?_, ?_, h.pos, h.below, hlimit,
    h.tidy.extend hpos⟩
  · rw [hlist]
    exact h.circle.congr fun x hx => by simp only [hsame x hx]
  · rw [cellsAt_append, cellsAt, cellsAt] at hx
    rcases List.mem_append.mp hx with hx | hx
    · have := bounds_cellsAt h.tidy.fine hx
      rw [hmem x.1 (by omega), h.sized x hx]
    · obtain rfl := List.mem_singleton.mp hx
      rw [← hold, hsize]
  · rw [hlist, hfreep]
    exact h.freep
  · rw [hbrk, hold]
    simp only [units_append, units_cons, units_nil]
    omega

/-- The units that `morecore` asks for. -/
def atLeast (nu : ℕ) : ℕ := if nu < 4096 then 4096 else nu

theorem wp_morecore {nu : ℕ} {Q : Option ℕ → Heap → Prop} (h : Formed base start s cs) (hnu : 8 * nu < 2 ^ 31)
    (hfail : ¬s.Grants (8 * atLeast nu) → Q none (s.called (8 * atLeast nu) s.brk))
    (hok : s.Grants (8 * atLeast nu) → ∀ s', Formed base start s' (release cs ⟨atLeast nu, some 0⟩ []) →
      s'.asked = s.asked ++ [(8 * atLeast nu : ℤ)] → Q (some s'.freep) s') : wp E (morecore nu) Q s := by
  have hpos : 4096 ≤ atLeast nu ∧ 8 * atLeast nu < 2 ^ 31 := by
    unfold atLeast
    split_ifs <;> omega
  unfold morecore
  generalize hn : (if nu < 4096 then 4096 else nu) = n
  obtain rfl : atLeast nu = n := hn
  generalize atLeast nu = n at *
  have hint : int (uint (n * HEADER)) = ((8 * n : ℕ) : ℤ) := by
    simp only [int, uint, HEADER]
    split_ifs <;> omega
  dsimp only
  rw [hint, wp_bind]
  have hlimit := h.limit
  refine wp_sbrk (by omega) (by omega) hlimit (fun hg => ?_) fun hg => ?_
  · simpa using hfail hg
  · have hbrk : s.brk + 8 * n < KERNBASE := hg.2
    have hplus : plus s.brk 1 = start + 8 * units cs + 8 := by
      have := h.brk
      simp only [plus, uint, HEADER, KERNBASE] at hbrk ⊢
      omega
    simp only [wp_bind]
    rw [wp_setSize (by simp only [Heap.called]; omega), hplus]
    have hext : Formed base start ((s.called ((8 * n : ℕ) : ℤ) (s.brk + 8 * n)).put s.brk
        ⟨((s.called ((8 * n : ℕ) : ℤ) (s.brk + 8 * n)).mem s.brk).ptr, n⟩) (cs ++ [⟨n, some 0⟩]) := by
      refine h.extend (by omega) (fun x hx => ?_) ?_ rfl rfl hbrk
      · simp only [put_mem, update_of_ne hx]
        rfl
      · simp only [put_mem, update_self]
    refine wp_bind.mpr (wp_free hext nofun rfl fun s' hs' _ _ hasked => ?_)
    exact hok hg s' hs' (hasked.trans (by simp [Heap.put, Heap.called]))

end

end Xv6.Umalloc
