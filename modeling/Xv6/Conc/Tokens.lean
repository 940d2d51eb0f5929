import Mathlib.Algebra.BigOperators.Fin
import Mathlib.Algebra.BigOperators.GroupWithZero.Finset
import Mathlib.Algebra.Order.Group.Multiset

/-!
# Tokens

Rights and duties that pass from hand to hand while a program runs: every process has a bag of tokens,
and an invariant speaks of the tokens there are in total. `total_change` is the only thing that is to be
known about a step in which one process exchanges some of its tokens.
-/

namespace Xv6.Conc

variable {ι T M : Type} [Fintype ι] [DecidableEq ι]

/-- A sum in which one summand is replaced. -/
theorem sum_update_add [AddCommMonoid M] (h : ι → M) (i : ι) (x : M) :
    ∑ j, Function.update h i x j + h i = ∑ j, h j + x := by
  rw [Finset.sum_update_of_mem (Finset.mem_univ i), ← Finset.add_sum_erase _ h (Finset.mem_univ i),
    Finset.sdiff_singleton_eq_erase, add_comm _ (h i), add_comm x, ← add_assoc]

/-- The count of `t` in a bag with one more token. -/
theorem count_one_add [DecidableEq T] (t t' : T) (ts : Multiset T) :
    ({t'} + ts).count t = ts.count t + if t = t' then 1 else 0 := by
  rw [Multiset.count_add, Multiset.count_singleton, Nat.add_comm]

/-- All tokens. -/
def total (γ : ι → Multiset T) : Multiset T := ∑ i, γ i

/-- One process exchanges the tokens `old` for `new`. -/
theorem total_change {γ : ι → Multiset T} {i : ι} {old new ts : Multiset T} (h : γ i = old + ts) :
    ∃ T₀, total γ = old + T₀ ∧ total (Function.update γ i (new + ts)) = new + T₀ := by
  refine ⟨ts + ∑ j ∈ Finset.univ.erase i, γ j, ?_, ?_⟩
  · rw [total, ← Finset.add_sum_erase _ γ (Finset.mem_univ i), h, add_assoc]
  · rw [total, Finset.sum_update_of_mem (Finset.mem_univ i), Finset.sdiff_singleton_eq_erase, add_assoc]

end Xv6.Conc
