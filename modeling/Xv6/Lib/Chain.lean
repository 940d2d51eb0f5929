import Mathlib.Data.List.Basic

/-!
# Linked lists

A list that is linked through a `next` pointer in each element, and appending to it: walk to the last
element and set its pointer.
-/

namespace Xv6.Lib

variable {α : Type*}

/-- The pointer `x` leads through the elements of the list. -/
def Chain (next : α → Option α) : Option α → List α → Prop
  | x, [] => x = none
  | x, a :: l => x = some a ∧ Chain next (next a) l

/-- The last element, at most `n` pointers from `a`. -/
def lastFrom (next : α → Option α) : ℕ → α → α
  | 0, a => a
  | n + 1, a =>
    match next a with
    | none => a
    | some b => lastFrom next n b

variable {next next' : α → Option α} {x : Option α} {a b : α} {l : List α} {n : ℕ}

theorem Chain.head? (h : Chain next x l) : x = l.head? := by
  cases l with
  | nil => exact h
  | cons a l => exact h.1

theorem Chain.congr (h : Chain next x l) (heq : ∀ a ∈ l, next' a = next a) : Chain next' x l := by
  induction l generalizing x with
  | nil => exact h
  | cons a l ih =>
    refine ⟨h.1, ?_⟩
    rw [heq a List.mem_cons_self]
    exact ih h.2 fun b hb => heq b (List.mem_cons_of_mem _ hb)

theorem Chain.lastFrom_eq (h : Chain next (next a) l) (hn : l.length ≤ n) :
    lastFrom next n a = (a :: l).getLast (List.cons_ne_nil a l) := by
  induction l generalizing a n with
  | nil =>
    have hnone : next a = none := h
    cases n with
    | zero => rfl
    | succ n => simp only [lastFrom, hnone, List.getLast_singleton]
  | cons b l ih =>
    obtain ⟨n, rfl⟩ : ∃ m, n = m + 1 := ⟨n - 1, by rw [List.length_cons] at hn; omega⟩
    rw [List.length_cons] at hn
    simp only [lastFrom, h.1]
    rw [ih h.2 (by omega), List.getLast_cons (List.cons_ne_nil b l)]

variable [DecidableEq α]

/-- Setting the pointer of the last element appends. -/
theorem Chain.append (h : Chain next (some a) (a :: l)) (hnodup : (a :: l).Nodup) (hb : b ∉ a :: l)
    (hnone : next b = none) :
    Chain (Function.update next ((a :: l).getLast (List.cons_ne_nil a l)) (some b)) (some a) (a :: l ++ [b]) := by
  induction l generalizing a with
  | nil =>
    have hne : b ≠ a := fun heq => hb (heq ▸ List.mem_cons_self)
    rw [List.getLast_singleton]
    refine ⟨rfl, ?_⟩
    rw [Function.update_self]
    exact ⟨rfl, by rwa [Function.update_of_ne hne]⟩
  | cons c l ih =>
    obtain ⟨hac, hrest⟩ := List.nodup_cons.mp hnodup
    have hlast : a ≠ (c :: l).getLast (List.cons_ne_nil c l) := fun heq => hac (heq ▸ List.getLast_mem _)
    rw [List.getLast_cons (List.cons_ne_nil c l)]
    refine ⟨rfl, ?_⟩
    rw [Function.update_of_ne hlast, h.2.1]
    exact ih (h.2.1 ▸ h.2) hrest (fun hmem => hb (List.mem_cons_of_mem _ hmem))

end Xv6.Lib
