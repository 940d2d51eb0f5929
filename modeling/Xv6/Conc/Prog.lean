import Mathlib.Logic.Function.Basic
import Mathlib.Logic.Relation

/-!
# Shared-state programs as resumptions

A `Prog σ α` is the code one process runs over a shared state `σ`: a finite sequence of atomic
sections, each a function of the state it finds. Between two sections any other process may run.
A section that finds its condition false is `blocked` (the process sleeps and retries), and one
that violates an assertion ends the machine with a `fault`.

`Prog.run` executes a program without interference; `Step` lets the programs of a whole pool of
processes interleave, and lets a power cut restart the pool.
-/

namespace Xv6.Conc

open Function (update update_self update_of_ne update_idem update_eq_self comp_update)

/-- The two ways an atomic section can bring the machine down. -/
inductive Fault where
  | panic (msg : String)
  | outOfBounds
  deriving DecidableEq, Repr

/-- The outcome of one atomic section: not enabled in this state, a fault, or a result together
with the new shared state. -/
inductive Outcome (σ α : Type) where
  | blocked
  | fault (e : Fault)
  | ok (a : α) (s : σ)

/-- Code over the shared state `σ` that ends with a result in `α`. -/
inductive Prog (σ α : Type) : Type 1 where
  | ret (a : α)
  | act {β : Type} (f : σ → Outcome σ β) (k : β → Prog σ α)

namespace Prog

variable {σ α β γ : Type}

/-- Sequential composition: the sections of `x`, then those of `f` at the result of `x`. -/
def bind : Prog σ α → (α → Prog σ β) → Prog σ β
  | .ret a, f => f a
  | .act g k, f => .act g fun b => (k b).bind f

instance : Monad (Prog σ) where
  pure := .ret
  bind := bind

/-- A single atomic section as a program. -/
def atomic (f : σ → Outcome σ α) : Prog σ α := .act f .ret

/-- Read a component of the shared state. -/
def reads (f : σ → α) : Prog σ α := atomic fun s => .ok (f s) s

/-- Change the shared state. -/
def modifies (f : σ → σ) : Prog σ Unit := atomic fun s => .ok () (f s)

/-- Stop the machine. -/
def fail (e : Fault) : Prog σ α := atomic fun _ => .fault e

@[simp] theorem pure_eq (a : α) : (pure a : Prog σ α) = .ret a := rfl

@[simp] theorem bind_eq (x : Prog σ α) (f : α → Prog σ β) : x >>= f = x.bind f := rfl

@[simp] theorem ret_bind (a : α) (f : α → Prog σ β) : (Prog.ret a).bind f = f a := rfl

@[simp] theorem act_bind (g : σ → Outcome σ γ) (k : γ → Prog σ α) (f : α → Prog σ β) :
    (Prog.act g k).bind f = .act g fun b => (k b).bind f := rfl

theorem bind_assoc (x : Prog σ α) (f : α → Prog σ β) (g : β → Prog σ γ) :
    (x.bind f).bind g = x.bind fun a => (f a).bind g := by
  induction x with
  | ret a => rfl
  | act h k ih =>
    simp only [act_bind]
    exact congrArg _ (funext ih)

/-- Run a program to its end with no other process interfering. -/
def run : Prog σ α → σ → Outcome σ α
  | .ret a, s => .ok a s
  | .act f k, s =>
    match f s with
    | .blocked => .blocked
    | .fault e => .fault e
    | .ok b s' => (k b).run s'

@[simp] theorem run_ret (a : α) (s : σ) : (Prog.ret a).run s = .ok a s := rfl

theorem run_act (f : σ → Outcome σ γ) (k : γ → Prog σ α) (s : σ) :
    (Prog.act f k).run s = match f s with
      | .blocked => .blocked
      | .fault e => .fault e
      | .ok b s' => (k b).run s' := by
  rw [run]

/-- Running a composition runs the first program and then, from its final state, the second. -/
theorem run_bind (x : Prog σ α) (f : α → Prog σ β) (s : σ) :
    (x.bind f).run s = match x.run s with
      | .blocked => .blocked
      | .fault e => .fault e
      | .ok a s' => (f a).run s' := by
  induction x generalizing s with
  | ret a => rfl
  | act g k ih =>
    simp only [act_bind, run_act]
    cases g s with
    | blocked => rfl
    | fault e => rfl
    | ok b s' => exact ih b s'

theorem run_bind_ok {x : Prog σ α} {f : α → Prog σ β} {s s' : σ} {a : α} (h : x.run s = .ok a s') :
    (x.bind f).run s = (f a).run s' := by
  rw [run_bind, h]

theorem run_atomic (f : σ → Outcome σ α) (s : σ) : (atomic f).run s = f s := by
  rw [atomic, run_act]
  cases f s <;> rfl

theorem run_atomic_bind {f : σ → Outcome σ α} {k : α → Prog σ β} {s s' : σ} {a : α} (h : f s = .ok a s') :
    ((atomic f).bind k).run s = (k a).run s' :=
  run_bind_ok ((run_atomic f s).trans h)

@[simp] theorem run_reads_bind (f : σ → α) (k : α → Prog σ β) (s : σ) :
    ((reads f).bind k).run s = (k (f s)).run s := rfl

@[simp] theorem run_modifies_bind (f : σ → σ) (k : Unit → Prog σ β) (s : σ) :
    ((modifies f).bind k).run s = (k ()).run (f s) := rfl

end Prog

/-! ## Pools of processes -/

/-- What the processes of a pool may do between programs. A process that has finished a program is
left with a local value in `L`; from there it may start any call `allowed` in the present state.
`restart` is what a power cut does to the shared state; it leaves every process at `boot`. -/
structure Protocol (σ Pid L : Type) where
  Call : Type
  allowed : σ → Pid → L → Call → Prop
  body : Pid → L → Call → Prog σ L
  restart : σ → σ → Prop
  boot : L

/-- A pool: the shared state and what each process has still to run. -/
structure Config (σ Pid L : Type) where
  shared : σ
  thread : Pid → Prog σ L

variable {σ Pid L : Type} [DecidableEq Pid]

/-- One step of the pool: a process starts a call, a process runs its next section, or the power
is cut. -/
inductive Step (P : Protocol σ Pid L) : Config σ Pid L → Config σ Pid L → Prop where
  | call {c : Config σ Pid L} {p : Pid} {l : L} {k : P.Call} (idle : c.thread p = .ret l)
      (allowed : P.allowed c.shared p l k) :
      Step P c ⟨c.shared, Function.update c.thread p (P.body p l k)⟩
  | act {c : Config σ Pid L} {p : Pid} {β : Type} {f : σ → Outcome σ β} {k : β → Prog σ L}
      {b : β} {s' : σ} (at_act : c.thread p = .act f k) (ok : f c.shared = .ok b s') :
      Step P c ⟨s', Function.update c.thread p (k b)⟩
  | cut {c : Config σ Pid L} {s' : σ} (restart : P.restart c.shared s') :
      Step P c ⟨s', fun _ => .ret P.boot⟩

/-- The configurations some interleaving reaches. -/
def Reach (P : Protocol σ Pid L) : Config σ Pid L → Config σ Pid L → Prop :=
  Relation.ReflTransGen (Step P)

/-- Some process is about to run a section that faults with `e`. -/
def Config.Faults (c : Config σ Pid L) (e : Fault) : Prop :=
  ∃ (p : Pid) (β : Type) (f : σ → Outcome σ β) (k : β → Prog σ L),
    c.thread p = .act f k ∧ f c.shared = .fault e

/-! ## Which sections a program has -/

/-- Every section of the program is one of the kind `T`. -/
def Prog.Sections {α : Type} (T : (β : Type) → (σ → Outcome σ β) → Prop) : Prog σ α → Prop
  | .ret _ => True
  | .act f k => T _ f ∧ ∀ b, (k b).Sections T

section

variable {α β : Type} {T : (β : Type) → (σ → Outcome σ β) → Prop}

theorem Prog.Sections.bind {x : Prog σ α} {f : α → Prog σ β} (hx : x.Sections T)
    (hf : ∀ a, (f a).Sections T) : (x >>= f).Sections T := by
  induction x with
  | ret a => exact hf a
  | act g k ih => exact ⟨hx.1, fun b => ih b (hx.2 b)⟩

theorem Prog.sections_atomic {f : σ → Outcome σ α} (hf : T α f) :
    (Prog.atomic f).Sections T := ⟨hf, fun _ => trivial⟩

/-- What processes run is made of the sections of the calls. -/
theorem sections_of_reach {P : Protocol σ Pid L}
    {T : Pid → (β : Type) → (σ → Outcome σ β) → Prop}
    (hbody : ∀ p l k, (P.body p l k).Sections (T p)) {c c' : Config σ Pid L}
    (hc : ∀ p, (c.thread p).Sections (T p)) (h : Reach P c c') (p : Pid) :
    (c'.thread p).Sections (T p) := by
  induction h with
  | refl => exact hc p
  | tail _ hstep ih =>
    cases hstep with
    | @call q l k idle allowed =>
      rcases eq_or_ne p q with rfl | hpq
      · simpa only [update_self] using hbody p l k
      · simpa only [update_of_ne hpq] using ih
    | @act q β f k b s' at_act ok =>
      rcases eq_or_ne p q with rfl | hpq
      · rw [at_act] at ih
        simpa only [update_self] using ih.2 b
      · simpa only [update_of_ne hpq] using ih
    | cut => trivial

end

/-! ## Processes that run one at a time -/

/-- A process that is not disturbed gets to the end of its program. -/
theorem reach_run (P : Protocol σ Pid L) {c : Config σ Pid L} {p : Pid} {l : L} {s' : σ}
    (hrun : (c.thread p).run c.shared = .ok l s') :
    Reach P c ⟨s', update c.thread p (.ret l)⟩ := by
  generalize hx : c.thread p = x at hrun
  induction x generalizing c with
  | ret a =>
    obtain ⟨rfl, rfl⟩ := Outcome.ok.inj hrun
    rw [← hx, update_eq_self]
    exact .refl
  | act f k ih =>
    rw [Prog.run_act] at hrun
    cases hf : f c.shared with
    | blocked => simp [hf] at hrun
    | fault e => simp [hf] at hrun
    | ok b s₁ =>
      simp only [hf] at hrun
      have hrest := @ih b ⟨s₁, update c.thread p (k b)⟩ (update_self ..) hrun
      rw [update_idem] at hrest
      exact Relation.ReflTransGen.head (Step.act hx hf) hrest

/-- Run calls one after the other, each to its end; `ls` are the local values of the processes. The
result is `none` when a call is not allowed or does not come to its end. -/
def runCalls (P : Protocol σ Pid L) [∀ s p l k, Decidable (P.allowed s p l k)] :
    List (Pid × P.Call) → σ → (Pid → L) → Option (σ × (Pid → L))
  | [], s, ls => some (s, ls)
  | (p, k) :: ks, s, ls =>
    if P.allowed s p (ls p) k then
      match (P.body p (ls p) k).run s with
      | .ok l s' => runCalls P ks s' (Function.update ls p l)
      | _ => none
    else none

/-- Such a run is one of the interleavings. -/
theorem reach_runCalls (P : Protocol σ Pid L) [∀ s p l k, Decidable (P.allowed s p l k)]
    {ks : List (Pid × P.Call)} {s s' : σ} {ls ls' : Pid → L}
    (h : runCalls P ks s ls = some (s', ls')) :
    Reach P ⟨s, fun p => .ret (ls p)⟩ ⟨s', fun p => .ret (ls' p)⟩ := by
  induction ks generalizing s ls with
  | nil =>
    obtain ⟨rfl, rfl⟩ := Prod.mk.inj (Option.some.inj h)
    exact .refl
  | cons pk ks ih =>
    obtain ⟨p, k⟩ := pk
    rw [runCalls] at h
    split at h
    next hok =>
      split at h
      next l s₁ hrun =>
        have hcall : Step P ⟨s, fun q => .ret (ls q)⟩
            ⟨s, update (fun q => .ret (ls q)) p (P.body p (ls p) k)⟩ :=
          Step.call rfl hok
        have hdone := reach_run P (c := ⟨s, update (fun q => .ret (ls q)) p
          (P.body p (ls p) k)⟩) (p := p) (by simpa only [update_self] using hrun)
        simp only [update_idem] at hdone
        have heq : update (fun q => Prog.ret (ls q)) p (Prog.ret l) =
            fun q => (Prog.ret (update ls p l q) : Prog σ L) :=
          (comp_update Prog.ret ls p l).symm
        rw [heq] at hdone
        exact (Relation.ReflTransGen.head hcall hdone).trans (ih h)
      · cases h
    · cases h

/-- A call whose first section faults brings a fault within reach. -/
theorem faults_of_call {P : Protocol σ Pid L} {c₀ c : Config σ Pid L} (hr : Reach P c₀ c) {p : Pid}
    {l : L} {k : P.Call} (hl : c.thread p = .ret l) (hok : P.allowed c.shared p l k) {β : Type}
    {f : σ → Outcome σ β} {g : β → Prog σ L} (hbody : P.body p l k = .act f g) {e : Fault}
    (hf : f c.shared = .fault e) : ∃ c', Reach P c₀ c' ∧ c'.Faults e :=
  ⟨_, hr.tail (Step.call hl hok), p, β, f, g, (update_self ..).trans hbody, hf⟩

/-! ## Given schedules -/

/-- An entry of a schedule: a process starts a call, or runs its next section. -/
inductive Move (P : Protocol σ Pid L) where
  | start (p : Pid) (k : P.Call)
  | next (p : Pid)

/-- Make one move; `none` if it is not possible. -/
def Config.move (P : Protocol σ Pid L) [∀ s p l k, Decidable (P.allowed s p l k)]
    (c : Config σ Pid L) : Move P → Option (Config σ Pid L)
  | .start p k =>
    match c.thread p with
    | .ret l =>
      if P.allowed c.shared p l k then some ⟨c.shared, Function.update c.thread p (P.body p l k)⟩
      else none
    | .act _ _ => none
  | .next p =>
    match c.thread p with
    | .ret _ => none
    | .act f k =>
      match f c.shared with
      | .ok b s' => some ⟨s', Function.update c.thread p (k b)⟩
      | _ => none

/-- Make the moves of a schedule one after the other. -/
def schedule (P : Protocol σ Pid L) [∀ s p l k, Decidable (P.allowed s p l k)] :
    List (Move P) → Config σ Pid L → Option (Config σ Pid L)
  | [], c => some c
  | m :: ms, c => (c.move P m).bind (schedule P ms)

section

variable {P : Protocol σ Pid L} [∀ s p l k, Decidable (P.allowed s p l k)]

theorem step_move {c c' : Config σ Pid L} {m : Move P} (h : c.move P m = some c') : Step P c c' := by
  cases m with
  | start p k =>
    rw [Config.move] at h
    split at h
    next l hl =>
      split at h
      next hok =>
        obtain rfl := Option.some.inj h
        exact Step.call hl hok
      · cases h
    · cases h
  | next p =>
    rw [Config.move] at h
    split at h
    · cases h
    next f k hk =>
      split at h
      next b s' hf =>
        obtain rfl := Option.some.inj h
        exact Step.act hk hf
      · cases h

/-- What a schedule leads to is reachable. -/
theorem reach_schedule {ms : List (Move P)} {c c' : Config σ Pid L}
    (h : schedule P ms c = some c') : Reach P c c' := by
  induction ms generalizing c with
  | nil =>
    obtain rfl := Option.some.inj h
    exact .refl
  | cons m ms ih =>
    obtain ⟨c₁, hm, hs⟩ := Option.bind_eq_some_iff.mp h
    exact Relation.ReflTransGen.head (step_move hm) (ih hs)

/-- The form in which a schedule is evaluated. -/
theorem exists_reach_schedule (ms : List (Move P)) {c : Config σ Pid L} {Q : Config σ Pid L → Prop}
    [DecidablePred Q] (h : ((schedule P ms c).elim false fun c' => decide (Q c')) = true) :
    ∃ c', Reach P c c' ∧ Q c' := by
  cases hs : schedule P ms c with
  | none => simp [hs] at h
  | some c' =>
    rw [hs] at h
    exact ⟨c', reach_schedule hs, of_decide_eq_true h⟩

end

end Xv6.Conc
