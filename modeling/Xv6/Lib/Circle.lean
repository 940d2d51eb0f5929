import Mathlib.Data.List.Chain
import Mathlib.Order.Lattice
import Mathlib.Tactic.Tauto

/-!
# Circular lists

A list that is linked through a `next` pointer in each element, and from the last element back to the
first. What a walk round it meets, and what becomes of it when pointers are changed.
-/

namespace Xv6.Lib

variable {α : Type*}

/-- Each element points to the one behind it. -/
abbrev Linked (next : α → α) (l : List α) : Prop := l.IsChain fun a b => next a = b

/-- The elements of the list form a circle through `b`. -/
def Circle (next : α → α) (b : α) (l : List α) : Prop := Linked next (b :: l ++ [b])

section

variable {next next' : α → α} {a b x : α} {l l' A B D M : List α}

/-- The two halves of a linked list share the element at which it is cut. -/
theorem linked_append : Linked next (A ++ a :: B) ↔ Linked next (A ++ [a]) ∧ Linked next (a :: B) :=
  List.isChain_split

/-- The pointer of the last element does not matter. -/
theorem Linked.congr (h : Linked next (l ++ [a])) (heq : ∀ x ∈ l, next' x = next x) : Linked next' (l ++ [a]) := by
  induction l with
  | nil => exact List.isChain_singleton a
  | cons x l ih =>
    rw [List.cons_append, Linked, List.isChain_cons] at h ⊢
    refine ⟨fun y hy => (heq x List.mem_cons_self).trans (h.1 y hy), ih h.2 fun y hy => ?_⟩
    exact heq y (List.mem_cons_of_mem _ hy)

theorem linked_cons : Linked next (a :: (B ++ [b])) ↔ next a = B.headD b ∧ Linked next (B ++ [b]) := by
  cases B with
  | nil => simp
  | cons y B => simp

/-- A circle, seen from one of its elements. -/
theorem circle_iff (hl : b :: l = A ++ a :: B) :
    Circle next b l ↔ Linked next (A ++ [a]) ∧ next a = B.headD b ∧ Linked next (B ++ [b]) := by
  rw [Circle, hl, List.append_assoc, List.cons_append, linked_append]
  exact and_congr_right' linked_cons

theorem Circle.next_eq (h : Circle next b l) (hl : b :: l = A ++ a :: B) : next a = B.headD b :=
  ((circle_iff hl).mp h).2.1

theorem Circle.congr (h : Circle next b l) (heq : ∀ x ∈ b :: l, next' x = next x) : Circle next' b l :=
  Linked.congr h heq

/-- A circle may be entered anywhere. -/
theorem Circle.rotate (h : Circle next b l) (hl : b :: l = A ++ a :: B) : Circle next a (B ++ A) := by
  cases A with
  | nil =>
    obtain ⟨rfl, rfl⟩ := List.cons_eq_cons.mp hl
    rwa [List.append_nil]
  | cons b' A =>
    obtain ⟨rfl, rfl⟩ := List.cons_eq_cons.mp hl
    have hparts : Linked next (b :: A ++ [a]) ∧ Linked next (a :: (B ++ [b])) := by
      rw [← linked_append]
      simpa [Circle] using h
    have hwhole : a :: (B ++ b :: A) ++ [a] = (a :: B) ++ b :: (A ++ [a]) := by simp
    rw [Circle, hwhole, linked_append]
    exact ⟨hparts.2, hparts.1⟩

theorem mem_rotate : x ∈ a :: (B ++ A) ↔ x ∈ A ++ a :: B := by
  simp only [List.mem_cons, List.mem_append]
  tauto

/-- Pointers behind `a` are changed: the elements `D` are taken out and the elements `M` put in. -/
theorem Circle.splice (h : Circle next b l) (hl : b :: l = A ++ a :: (D ++ B))
    (hl' : b :: l' = A ++ a :: (M ++ B)) (hsame : ∀ x ∈ A ++ B, next' x = next x)
    (hnew : Linked next' (a :: M ++ [B.headD b])) : Circle next' b l' := by
  obtain ⟨hA, -, hB⟩ := (circle_iff hl).mp h
  have hA' : Linked next' (A ++ [a]) := Linked.congr hA fun x hx => hsame x (List.mem_append_left _ hx)
  have hB' : Linked next' (B ++ [b]) := by
    rw [List.append_assoc] at hB
    exact Linked.congr hB.right_of_append fun x hx => hsame x (List.mem_append_right _ hx)
  rw [Circle, hl', List.append_assoc, List.cons_append, linked_append]
  refine ⟨hA', ?_⟩
  cases B with
  | nil => simpa using hnew
  | cons y B =>
    rw [List.append_assoc, List.cons_append, ← List.cons_append, linked_append]
    exact ⟨hnew, hB'⟩

end

/-! ## Circles in increasing order -/

section

variable [LinearOrder α] {next : α → α} {a b q x : α} {l A B : List α}

/-- The place of `q` in a circle with a single descent is right behind `x`. -/
def Gap (next : α → α) (q x : α) : Prop := x < q ∧ q < next x ∨ next x ≤ x ∧ (x < q ∨ q < next x)

/-- The place of an element that is not the least is behind the last one that is less. -/
theorem Circle.gap_iff (h : Circle next b l) (hsorted : (b :: l).Pairwise (· < ·))
    (hl : b :: l = A ++ a :: B) (hlow : a < q) (hhigh : ∀ y ∈ B, q < y) (hx : x ∈ b :: l) :
    Gap next q x ↔ x = a := by
  have hb : b ≤ a := by
    have hmem : a ∈ b :: l := by simp [hl]
    rcases List.mem_cons.mp hmem with rfl | hmem
    · exact le_rfl
    · exact ((List.pairwise_cons.mp hsorted).1 a hmem).le
  constructor
  · intro hgap
    rw [hl] at hx hsorted
    rcases List.mem_append.mp hx with hx | hx
    · -- before `a`, the next element is still less than `q`
      exfalso
      obtain ⟨A₁, A₂, rfl⟩ := List.append_of_mem hx
      have hnext := h.next_eq (a := x) (A := A₁) (B := A₂ ++ a :: B) (by rw [hl]; simp)
      have hbetween : x < next x ∧ next x ≤ a := by
        rw [List.append_assoc, List.cons_append] at hsorted
        have hrest := (List.pairwise_append.mp hsorted).2.1
        rw [hnext]
        cases A₂ with
        | nil => exact ⟨(List.pairwise_cons.mp hrest).1 a (by simp), le_rfl⟩
        | cons y A₂ =>
          refine ⟨(List.pairwise_cons.mp hrest).1 y (by simp), ?_⟩
          exact ((List.pairwise_cons.mp (List.pairwise_cons.mp hrest).2).1 a (by simp)).le
      rcases hgap with ⟨-, hq⟩ | ⟨hle, -⟩
      · exact absurd (hq.trans_le hbetween.2) hlow.asymm
      · exact absurd hbetween.1 hle.not_gt
    · rcases List.mem_cons.mp hx with rfl | hx
      · rfl
      · -- behind `a`, all elements are greater than `q`, except that the last one points back
        exfalso
        have hqx := hhigh x hx
        obtain ⟨B₁, B₂, rfl⟩ := List.append_of_mem hx
        have hnext := h.next_eq (a := x) (A := A ++ a :: B₁) (B := B₂) (by rw [hl]; simp)
        rcases hgap with ⟨hxq, -⟩ | ⟨hle, hor⟩
        · exact absurd hxq hqx.asymm
        · rw [hnext] at hle hor
          cases B₂ with
          | nil =>
            rcases hor with hxq | hqb
            · exact absurd hxq hqx.asymm
            · exact absurd (hqb.trans_le hb) hlow.asymm
          | cons y B₂ =>
            rw [← List.cons_append, ← List.append_assoc] at hsorted
            have hxy := (List.pairwise_cons.mp (List.pairwise_append.mp hsorted).2.1).1 y (by simp)
            exact absurd hxy (not_lt.mpr hle)
  · rintro rfl
    have hnext := h.next_eq hl
    cases B with
    | nil => exact .inr ⟨by rw [hnext]; exact hb, .inl hlow⟩
    | cons y B => exact .inl ⟨hlow, by rw [hnext]; exact hhigh y (by simp)⟩

end

end Xv6.Lib
