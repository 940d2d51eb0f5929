import Xv6.Conc.Logic

/-!
# Programs that run to their end

`x.Ends F s Q` says that `x`, run from `s` without interference, does not wait for anyone, that `Q` holds of
its result and of the state it leaves if it comes to its end, and that `F` holds of the fault if it fails.
With `F` false it comes to its end.

`quiet` and `logs` turn a program into one that also keeps a list of what it has done, and `Erases` says that
a program does the same as another one if the list is ignored.
-/

namespace Xv6.Conc

variable {σ α β τ : Type}

/-- What is known of an outcome. -/
def Outcome.Meets (F : Fault → Prop) (Q : α → σ → Prop) : Outcome σ α → Prop
  | .ok a s => Q a s
  | .fault e => F e
  | .blocked => False

theorem Outcome.Meets.imp {F F' : Fault → Prop} {Q Q' : α → σ → Prop} {o : Outcome σ α} (h : o.Meets F Q)
    (hF : ∀ e, F e → F' e) (hQ : ∀ a s, Q a s → Q' a s) : o.Meets F' Q' := by
  cases o with
  | ok a s => exact hQ a s h
  | fault e => exact hF e h
  | blocked => exact h

namespace Prog

/-- The program comes to its end in a state `Q` holds of, or fails with a fault `F` holds of. -/
def Ends (x : Prog σ α) (F : Fault → Prop) (s : σ) (Q : α → σ → Prop) : Prop := (x.run s).Meets F Q

section

variable {F F' : Fault → Prop} {x : Prog σ α} {s : σ} {Q Q' : α → σ → Prop}

theorem ends_pure {a : α} (h : Q a s) : (pure a : Prog σ α).Ends F s Q := h

theorem Ends.mono (h : x.Ends F s Q) (hQ : ∀ a s', Q a s' → Q' a s') : x.Ends F s Q' :=
  Outcome.Meets.imp h (fun _ he => he) hQ

theorem Ends.weaken (h : x.Ends F s Q) (hF : ∀ e, F e → F' e) : x.Ends F' s Q :=
  Outcome.Meets.imp h hF fun _ _ hQ => hQ

theorem Ends.bind {f : α → Prog σ β} {R : β → σ → Prop} (h : x.Ends F s fun a s' => (f a).Ends F s' R) :
    (x >>= f).Ends F s R := by
  unfold Ends at *
  rw [bind_eq, run_bind]
  cases hrun : x.run s with
  | blocked => rwa [hrun] at h
  | fault e => rwa [hrun] at h
  | ok a s' => rwa [hrun] at h

theorem Ends.of_run {a : α} {s' : σ} (hrun : x.run s = .ok a s') (h : Q a s') : x.Ends F s Q := by
  unfold Ends
  rwa [hrun]

/-- A program that cannot fail has a result. -/
theorem Ends.run_eq (h : x.Ends (fun _ => False) s Q) : ∃ a s', x.run s = .ok a s' ∧ Q a s' := by
  unfold Ends at h
  cases hrun : x.run s with
  | blocked =>
    rw [hrun] at h
    exact h.elim
  | fault e =>
    rw [hrun] at h
    exact h.elim
  | ok a s' =>
    rw [hrun] at h
    exact ⟨a, s', rfl, h⟩

/-- A program that has no result fails. -/
theorem Ends.run_fault (h : x.Ends F s fun _ _ => False) : ∃ e, x.run s = .fault e ∧ F e := by
  unfold Ends at h
  cases hrun : x.run s with
  | blocked =>
    rw [hrun] at h
    exact h.elim
  | fault e =>
    rw [hrun] at h
    exact ⟨e, rfl, h⟩
  | ok a s' =>
    rw [hrun] at h
    exact h.elim

theorem ends_atomic {f : σ → Outcome σ α} (h : (f s).Meets F Q) : (atomic f).Ends F s Q := by
  unfold Ends
  rwa [run_atomic]

theorem ends_reads {f : σ → α} (h : Q (f s) s) : (reads f).Ends F s Q := ends_atomic h

theorem ends_modifies {f : σ → σ} {Q : Unit → σ → Prop} (h : Q () (f s)) : (modifies f).Ends F s Q :=
  ends_atomic h

end

/-! ## Keeping a list -/

/-- The outcome of a section, next to a list that it does not touch. -/
def besides (l : List τ) : Outcome σ α → Outcome (σ × List τ) α
  | .blocked => .blocked
  | .fault e => .fault e
  | .ok a s => .ok a (s, l)

/-- The program, next to a list that it does not touch. -/
def quiet : Prog σ α → Prog (σ × List τ) α
  | .ret a => .ret a
  | .act f k => .act (fun t => besides t.2 (f t.1)) fun b => (k b).quiet

/-- The program, which then adds to the list what `new` says of the state it started in and of its
result. -/
def logs (x : Prog σ α) (new : σ → α → List τ) : Prog (σ × List τ) α := do
  let s ← reads Prod.fst
  let a ← x.quiet
  modifies fun t => (t.1, t.2 ++ new s a)
  pure a

theorem quiet_bind (x : Prog σ α) (f : α → Prog σ β) :
    ((x >>= f).quiet : Prog (σ × List τ) β) = x.quiet >>= fun a => (f a).quiet := by
  induction x with
  | ret a => rfl
  | act h k ih =>
    simp only [bind_eq, act_bind, quiet] at ih ⊢
    exact congrArg _ (funext ih)

theorem run_quiet (x : Prog σ α) (s : σ) (l : List τ) : (x.quiet : Prog (σ × List τ) α).run (s, l) =
    besides l (x.run s) := by
  induction x generalizing s with
  | ret a => rfl
  | act f k ih =>
    rw [quiet, run_act, run_act]
    cases f s with
    | blocked => rfl
    | fault e => rfl
    | ok b s' => exact ih b s'

section

variable {F : Fault → Prop} {x : Prog σ α} {s : σ} {l : List τ} {Q : α → σ × List τ → Prop}

theorem Ends.quiet (h : x.Ends F s fun a s' => Q a (s', l)) : (x.quiet : Prog (σ × List τ) α).Ends F (s, l) Q := by
  unfold Ends at *
  rw [run_quiet]
  cases hrun : x.run s with
  | blocked => rwa [hrun] at h
  | fault e => rwa [hrun] at h
  | ok a s' => rwa [hrun] at h

theorem Ends.logs {new : σ → α → List τ} (h : x.Ends F s fun a s' => Q a (s', l ++ new s a)) :
    (x.logs new).Ends F (s, l) Q := by
  refine Ends.bind (ends_reads (Ends.bind (Ends.quiet ?_)))
  exact h.mono fun a s' hQ => Ends.bind (ends_modifies (ends_pure hQ))

end

/-! ## Ignoring the list -/

/-- The outcome without the list. -/
def erase : Outcome (σ × List τ) α → Outcome σ α
  | .blocked => .blocked
  | .fault e => .fault e
  | .ok a t => .ok a t.1

/-- `y` does what `x` does, if the list is ignored. -/
def Erases (y : Prog (σ × List τ) α) (x : Prog σ α) : Prop := ∀ t, erase (y.run t) = x.run t.1

section

variable {x : Prog σ α} {y : Prog (σ × List τ) α}

theorem erases_pure {a : α} : Erases (pure a : Prog (σ × List τ) α) (pure a) := fun _ => rfl

theorem erases_fail {e : Fault} : Erases (fail e : Prog (σ × List τ) α) (fail e) := fun _ => rfl

theorem erases_quiet : Erases (x.quiet : Prog (σ × List τ) α) x := by
  rintro ⟨s, l⟩
  rw [run_quiet]
  cases x.run s <;> rfl

theorem Erases.bind {f : α → Prog σ β} {g : α → Prog (σ × List τ) β} (h : Erases y x)
    (hf : ∀ a, Erases (g a) (f a)) : Erases (y >>= g) (x >>= f) := by
  intro t
  rw [bind_eq, bind_eq, run_bind, run_bind, ← h t]
  cases y.run t with
  | blocked => rfl
  | fault e => rfl
  | ok a t' => exact hf a t'

theorem erases_logs {new : σ → α → List τ} : Erases (x.logs new) x := by
  rintro ⟨s, l⟩
  rw [logs, bind_eq, run_reads_bind, bind_eq, run_bind, run_quiet]
  cases x.run s <;> rfl

/-- What is known of the state of `y` holds of that of `x`. -/
theorem Erases.ends {F : Fault → Prop} {t : σ × List τ} {Q : α → σ → Prop} (h : Erases y x)
    (hy : y.Ends F t fun a t' => Q a t'.1) : x.Ends F t.1 Q := by
  unfold Ends at *
  rw [← h t]
  cases hrun : y.run t with
  | blocked => rwa [hrun] at hy
  | fault e => rwa [hrun] at hy
  | ok a t' => rwa [hrun] at hy

end

/-! ## Programs that are not disturbed -/

/-- The program as one section. -/
def whole (x : Prog σ α) : Prog σ α := atomic x.run

theorem Erases.whole {x : Prog σ α} {y : Prog (σ × List τ) α} (h : Erases y x) : Erases y.whole x := by
  intro t
  rw [Prog.whole, run_atomic]
  exact h t

/-- The rule for a program that is one section of a pool. -/
theorem wp_whole {Pid G : Type} [DecidableEq Pid] {I : σ → (Pid → G) → Prop} {E : σ → Fault → Prop} {p : Pid}
    {x : Prog σ α} {g : G} {Q : α → G → Prop}
    (h : ∀ s γ, I s γ → γ p = g → x.Ends (E s) s fun a s' => ∃ g', I s' (Function.update γ p g') ∧ Q a g') :
    wp I E p x.whole g Q := by
  refine wp_atomic fun s γ hI hg => ?_
  have hends := h s γ hI hg
  unfold Ends at hends
  cases hrun : x.run s with
  | blocked => trivial
  | fault e => rwa [hrun] at hends
  | ok a s' => rwa [hrun] at hends

end Prog

end Xv6.Conc
