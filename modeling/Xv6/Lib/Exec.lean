import Mathlib.Data.Nat.Notation
import Mathlib.Tactic.Basic

/-!
# Sequential code with a state and errors

A weakest precondition for programs in `EStateM ε σ`: `wp E x Q s` says that `x`, started in `s`, ends
with a result and a state that satisfy `Q`, or stops with an error that `E` admits. The programs are
deterministic, so this is a complete description of a run; with `Q` false it says that the run stops
with such an error.
-/

namespace Xv6.Lib

/-- Code that works on a state `σ` and may stop with an error. -/
abbrev Exec (σ ε : Type) := EStateM ε σ

namespace Exec

variable {σ ε α β : Type} {E : ε → Prop}

def wp (E : ε → Prop) (x : Exec σ ε α) (Q : α → σ → Prop) (s : σ) : Prop :=
  match x s with
  | .ok a s' => Q a s'
  | .error e _ => E e

theorem run_get {s : σ} : (get : Exec σ ε σ) s = .ok s s := rfl

section Rules

variable {x : Exec σ ε α} {f : α → Exec σ ε β} {Q R : α → σ → Prop} {s : σ}

@[simp] theorem wp_pure {a : α} : wp E (pure a : Exec σ ε α) Q s ↔ Q a s := Iff.rfl

@[simp] theorem wp_bind {Q : β → σ → Prop} :
    wp E (x >>= f) Q s ↔ wp E x (fun a => wp E (f a) Q) s := by
  simp only [wp, bind, EStateM.bind]
  cases x s <;> rfl

@[simp] theorem wp_get {Q : σ → σ → Prop} : wp E (get : Exec σ ε σ) Q s ↔ Q s s := Iff.rfl

@[simp] theorem wp_modify {g : σ → σ} {Q : PUnit → σ → Prop} :
    wp E (modify g : Exec σ ε PUnit) Q s ↔ Q ⟨⟩ (g s) := Iff.rfl

@[simp] theorem wp_set {t : σ} {Q : PUnit → σ → Prop} : wp E (set t : Exec σ ε PUnit) Q s ↔ Q ⟨⟩ t := Iff.rfl

@[simp] theorem wp_throw {e : ε} : wp E (throw e : Exec σ ε α) Q s ↔ E e := Iff.rfl

theorem wp_mono (h : wp E x Q s) (hQ : ∀ a s', Q a s' → R a s') : wp E x R s := by
  unfold wp at h ⊢
  cases hx : x s with
  | error e s' => rwa [hx] at h
  | ok a s' =>
    rw [hx] at h
    exact hQ _ _ h

/-- What is known of a run that has ended. -/
theorem wp_ok (h : wp E x Q s) {a : α} {s' : σ} (hx : x s = .ok a s') : Q a s' := by
  unfold wp at h
  rwa [hx] at h

/-- What comes after `x` may speak of the run of `x`. -/
theorem wp_bind_self {Q : β → σ → Prop}
    (h : wp E x (fun a s' => x s = .ok a s' → wp E (f a) Q s') s) : wp E (x >>= f) Q s := by
  rw [wp_bind]
  unfold wp at h ⊢
  cases hx : x s with
  | error e s' => rwa [hx] at h
  | ok a s' =>
    rw [hx] at h
    exact h rfl

/-- Code that cannot fail returns. -/
theorem wp_returns (h : wp (fun _ => False) x Q s) : ∃ a s', x s = .ok a s' ∧ Q a s' := by
  unfold wp at h
  cases hx : x s with
  | error e s' =>
    rw [hx] at h
    exact h.elim
  | ok a s' =>
    rw [hx] at h
    exact ⟨a, s', rfl, h⟩

/-- What is known of a run that has stopped. -/
theorem wp_error (h : wp E x Q s) {e : ε} {s' : σ} (hx : x s = .error e s') : E e := by
  unfold wp at h
  rwa [hx] at h

end Rules

/-! ## Code that works on a part of the state -/

section Lift

variable {τ : Type}

/-- Run code on a part of the state. -/
def lift (get : τ → σ) (set : σ → τ → τ) (x : Exec σ ε α) : Exec τ ε α := fun t =>
  match x (get t) with
  | .ok a s => .ok a (set s t)
  | .error e s => .error e (set s t)

@[simp] theorem wp_lift {get : τ → σ} {set : σ → τ → τ} {x : Exec σ ε α} {Q : α → τ → Prop} {t : τ} :
    wp E (lift get set x) Q t ↔
      wp E x (fun a s => Q a (set s t)) (get t) := by
  simp only [wp, lift]
  cases x (get t) <;> rfl

end Lift

end Exec

end Xv6.Lib
