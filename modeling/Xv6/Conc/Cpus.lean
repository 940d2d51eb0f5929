import Xv6.Conc.Prog

/-!
# CPUs that switch between contexts

A `Code σ C K α` is code that some CPU executes over the memory `σ`. In contrast to a `Prog` it does not
belong to a process: it is on the CPU that has loaded it, until that CPU saves it as one of the contexts
`K` and loads another. Nothing prevents two CPUs from loading the same context; then both execute it.

`Code.wp` is a logic for such machines. Every context has a ghost value, which for a saved context says
in what situation it has to be loaded.
-/

namespace Xv6.Conc

open Function (update update_self update_of_ne update_eq_self)

variable {σ C K G α β : Type}

/-- Code that is executed by CPUs in `C`, with contexts in `K`. -/
inductive Code (σ C K α : Type) : Type 1 where
  | ret (a : α)
  | act {β : Type} (f : C → σ → Outcome σ β) (k : β → Code σ C K α)
  /-- Save the rest of this code as the context `old` and go on with the context `new`. -/
  | switch (old new : C → σ → K) (k : Code σ C K α)
  /-- Make `x` a context that begins at its entry point. -/
  | spawn (x : K) (k : Code σ C K α)

namespace Code

def bind : Code σ C K α → (α → Code σ C K β) → Code σ C K β
  | .ret a, f => f a
  | .act g k, f => .act g fun b => (k b).bind f
  | .switch old new k, f => .switch old new (k.bind f)
  | .spawn x k, f => .spawn x (k.bind f)

instance : Monad (Code σ C K) where
  pure := .ret
  bind := bind

@[simp] theorem pure_eq (a : α) : (pure a : Code σ C K α) = .ret a := rfl

@[simp] theorem bind_eq (x : Code σ C K α) (f : α → Code σ C K β) : x >>= f = x.bind f := rfl

/-- A single section. -/
def atomic (f : C → σ → Outcome σ α) : Code σ C K α := .act f .ret

def reads (f : C → σ → α) : Code σ C K α := atomic fun c m => .ok (f c m) m

def modifies (f : C → σ → σ) : Code σ C K Unit := atomic fun c m => .ok () (f c m)

def fail (e : Fault) : Code σ C K α := atomic fun _ _ => .fault e

end Code

/-! ## Machines -/

/-- What the CPUs do apart from the code they have loaded. -/
structure System (σ C K : Type) where
  /-- Where a new context begins. -/
  entry : K → Code σ C K Unit
  /-- What a context may go on with when its code is at its end. -/
  next : K → Code σ C K Unit → Prop
  /-- The handlers of interrupts. -/
  handler : Code σ C K Unit → Prop
  /-- A CPU accepts interrupts. -/
  enabled : C → σ → Prop

/-- The memory, the saved contexts, and for each CPU the code it executes and the context (the stack) it
executes on. -/
structure Machine (σ C K : Type) where
  mem : σ
  saved : K → Code σ C K Unit
  code : C → Code σ C K Unit
  on : C → K

variable [DecidableEq C] [DecidableEq K]

namespace Machine

variable (S : System σ C K)

/-- One step of one CPU. -/
inductive Step (M : Machine σ C K) : Machine σ C K → Prop where
  | act {c : C} {β : Type} {f : C → σ → Outcome σ β} {k : β → Code σ C K Unit} {b : β} {m : σ}
      (code : M.code c = .act f k)
      (ok : f c M.mem = .ok b m) : Step M { M with mem := m, code := Function.update M.code c (k b) }
  | switch {c : C} {old new : C → σ → K} {k : Code σ C K Unit} (code : M.code c = .switch old new k) :
      Step M { M with
        saved := Function.update M.saved (old c M.mem) k
        code := Function.update M.code c (M.saved (new c M.mem))
        on := Function.update M.on c (new c M.mem) }
  | spawn {c : C} {x : K} {k : Code σ C K Unit} (code : M.code c = .spawn x k) :
      Step M { M with
        saved := Function.update M.saved x (S.entry x)
        code := Function.update M.code c k }
  | next {c : C} {k : Code σ C K Unit} (code : M.code c = .ret ()) (next : S.next (M.on c) k) :
      Step M { M with code := Function.update M.code c k }
  | interrupt {c : C} {k : Code σ C K Unit} (handler : S.handler k) (enabled : S.enabled c M.mem) :
      Step M { M with code := Function.update M.code c (k.bind fun _ => M.code c) }

/-- The machines that steps lead to. -/
abbrev Reach : Machine σ C K → Machine σ C K → Prop := Relation.ReflTransGen (Step S)

end Machine

/-- A step changes the memory or the contexts the CPUs are on, but not both. -/
theorem Machine.Step.mem_or_on {S : System σ C K} {M M' : Machine σ C K} (h : M.Step S M') :
    M'.mem = M.mem ∨ M'.on = M.on := by
  cases h with
  | act => exact .inr rfl
  | switch => exact .inl rfl
  | spawn => exact .inl rfl
  | next => exact .inl rfl
  | interrupt => exact .inl rfl

/-! ## The logic -/

/-- Weakest precondition of code in the context `x`, for the invariant `J` of the memory, the contexts
that are on CPUs and the ghost values. A context that is made gets the ghost value `g₀`. -/
def Code.wp (J : σ → (C → K) → (K → G) → Prop) (g₀ : G) (x : K) : Code σ C K α → G → (α → G → Prop) → Prop
  | .ret a, g, Q => Q a g
  | .act f k, g, Q => ∀ m on γ c, J m on γ → on c = x → γ x = g → ∀ b m', f c m = .ok b m' →
      ∃ g', J m' on (Function.update γ x g') ∧ wp J g₀ x (k b) g' Q
  | .switch old new k, g, Q => ∀ m on γ c, J m on γ → on c = x → γ x = g →
      old c m = x ∧ (∀ d, on d ≠ new c m) ∧
        ∃ g', J m (Function.update on c (new c m)) (Function.update γ x g') ∧ wp J g₀ x k g' Q
  | .spawn y k, g, Q => ∀ m on γ c, J m on γ → on c = x → γ x = g →
      (∀ d, on d ≠ y) ∧
        ∃ g', J m on (Function.update (Function.update γ x g') y g₀) ∧ wp J g₀ x k g' Q

namespace Code

variable {J : σ → (C → K) → (K → G) → Prop} {g₀ : G} {x : K} {k : Code σ C K α} {g : G} {Q : α → G → Prop}

/-- The rule used to step through code. -/
theorem wp_seq {f : α → Code σ C K β} {Q : β → G → Prop} {R : α → G → Prop}
    (hk : wp J g₀ x k g R) (hf : ∀ a g', R a g' → wp J g₀ x (f a) g' Q) : wp J g₀ x (k.bind f) g Q := by
  induction k generalizing g with
  | ret a => exact hf a g hk
  | act f k ih =>
    intro m on γ c hJ hc hg b m' hf
    obtain ⟨g', hJ', hk'⟩ := hk m on γ c hJ hc hg b m' hf
    exact ⟨g', hJ', ih b hk'⟩
  | switch old new k ih =>
    intro m on γ c hJ hc hg
    obtain ⟨hold, hnew, g', hJ', hk'⟩ := hk m on γ c hJ hc hg
    exact ⟨hold, hnew, g', hJ', ih hk'⟩
  | spawn y k ih =>
    intro m on γ c hJ hc hg
    obtain ⟨hoff, g', hJ', hk'⟩ := hk m on γ c hJ hc hg
    exact ⟨hoff, g', hJ', ih hk'⟩

theorem wp_bind {f : α → Code σ C K β} {Q : β → G → Prop}
    (h : wp J g₀ x k g fun a g' => wp J g₀ x (f a) g' Q) : wp J g₀ x (k.bind f) g Q :=
  wp_seq h fun _ _ hf => hf

theorem wp_reads {f : C → σ → α}
    (h : ∀ m on γ c, J m on γ → on c = x → γ x = g → Q (f c m) g) : wp J g₀ x (reads f) g Q := by
  intro m on γ c hJ hc hg b m' hf
  obtain ⟨rfl, rfl⟩ : f c m = b ∧ m = m' := by simpa using hf
  refine ⟨g, ?_, h m on γ c hJ hc hg⟩
  rwa [← hg, update_eq_self]

theorem wp_fail {e : Fault} : wp J g₀ x (fail e : Code σ C K α) g Q := by
  intro m on γ c _ _ _ b m' hf
  cases hf

end Code

/-! ## Soundness -/

/-- What has to be shown of a system: new contexts are safe, code that is at its end may go on, and a
handler leaves the ghost value of the code that it interrupts as it is. -/
structure System.Sound (S : System σ C K) (J : σ → (C → K) → (K → G) → Prop) (g₀ : G) (Idle : K → G → Prop) :
    Prop where
  entry : ∀ x, (S.entry x).wp J g₀ x g₀ fun _ => Idle x
  next : ∀ m on γ c k, J m on γ → Idle (on c) (γ (on c)) → S.next (on c) k →
    k.wp J g₀ (on c) (γ (on c)) fun _ => Idle (on c)
  handler : ∀ m on γ c k, J m on γ → S.handler k → S.enabled c m →
    k.wp J g₀ (on c) (γ (on c)) fun _ g => g = γ (on c)

/-- The invariant of a machine: every CPU is on a context of its own, and all code is safe. -/
structure Machine.Holds (J : σ → (C → K) → (K → G) → Prop) (g₀ : G) (Idle : K → G → Prop) (M : Machine σ C K)
    (γ : K → G) : Prop where
  inv : J M.mem M.on γ
  inj : Function.Injective M.on
  code : ∀ c, (M.code c).wp J g₀ (M.on c) (γ (M.on c)) fun _ => Idle (M.on c)
  saved : ∀ x, (∀ c, M.on c ≠ x) → (M.saved x).wp J g₀ x (γ x) fun _ => Idle x

namespace Machine

variable {S : System σ C K} {J : σ → (C → K) → (K → G) → Prop} {g₀ : G} {Idle : K → G → Prop}
  {M M' : Machine σ C K} {γ : K → G}

/-- The CPU `c` goes on with the code `k`, and its context has a new ghost value. -/
theorem Holds.goOn (h : M.Holds J g₀ Idle γ) {c : C} {k : Code σ C K Unit} {m : σ} {g : G}
    (hJ : J m M.on (update γ (M.on c) g)) (hk : k.wp J g₀ (M.on c) g fun _ => Idle (M.on c)) :
    Holds J g₀ Idle { M with mem := m, code := update M.code c k } (update γ (M.on c) g) := by
  refine ⟨hJ, h.inj, fun d => ?_, fun x hx => ?_⟩
  · rcases eq_or_ne d c with rfl | hd
    · simpa only [update_self] using hk
    · dsimp only
      rw [update_of_ne hd, update_of_ne fun he => hd (h.inj he)]
      exact h.code d
  · rw [update_of_ne (hx c).symm]
    exact h.saved x hx

/-- Every step keeps the invariant. -/
theorem Holds.step (hS : S.Sound J g₀ Idle) (h : M.Holds J g₀ Idle γ) (hstep : M.Step S M') :
    ∃ γ', M'.Holds J g₀ Idle γ' := by
  cases hstep with
  | @act c _ f k b m code ok =>
    have hc := h.code c
    rw [code] at hc
    obtain ⟨g, hJ, hk⟩ := hc M.mem M.on γ c h.inv rfl rfl b m ok
    exact ⟨_, h.goOn hJ hk⟩
  | @switch c old new k code =>
    have hc := h.code c
    rw [code] at hc
    obtain ⟨hold, hnew, g, hJ, hk⟩ := hc M.mem M.on γ c h.inv rfl rfl
    refine ⟨_, hJ, ?_, fun d => ?_, fun x hx => ?_⟩
    · -- no other CPU is on the context that is loaded
      intro d e he
      dsimp only at he
      by_cases hd : d = c <;> by_cases hee : e = c
      · rw [hd, hee]
      · subst hd
        rw [update_self, update_of_ne hee] at he
        exact absurd he.symm (hnew e)
      · subst hee
        rw [update_self, update_of_ne hd] at he
        exact absurd he (hnew d)
      · rw [update_of_ne hd, update_of_ne hee] at he
        exact h.inj he
    · dsimp only
      rcases eq_or_ne d c with rfl | hd
      · rw [update_self, update_self, update_of_ne (hnew d).symm]
        exact h.saved _ hnew
      · rw [update_of_ne hd, update_of_ne hd, update_of_ne fun he => hd (h.inj he)]
        exact h.code d
    · dsimp only at hx ⊢
      by_cases hxc : x = M.on c
      · subst hxc
        rw [hold, update_self, update_self]
        exact hk
      · rw [hold, update_of_ne hxc, update_of_ne hxc]
        refine h.saved x fun d he => ?_
        have hdc : d ≠ c := by
          rintro rfl
          exact hxc he.symm
        refine hx d ?_
        rw [update_of_ne hdc, he]
  | @spawn c y k code =>
    have hc := h.code c
    rw [code] at hc
    obtain ⟨hoff, g, hJ, hk⟩ := hc M.mem M.on γ c h.inv rfl rfl
    refine ⟨_, hJ, h.inj, fun d => ?_, fun x hx => ?_⟩
    · dsimp only
      rw [update_of_ne (hoff d)]
      rcases eq_or_ne d c with rfl | hd
      · simpa only [update_self] using hk
      · rw [update_of_ne hd, update_of_ne fun he => hd (h.inj he)]
        exact h.code d
    · dsimp only
      rcases eq_or_ne x y with rfl | hxy
      · rw [update_self, update_self]
        exact hS.entry x
      · rw [update_of_ne hxy, update_of_ne hxy, update_of_ne (hx c).symm]
        exact h.saved x hx
  | @next c k code next =>
    have hc := h.code c
    rw [code] at hc
    refine ⟨update γ (M.on c) (γ (M.on c)), h.goOn ?_ (hS.next M.mem M.on γ c k h.inv hc next)⟩
    rw [update_eq_self]
    exact h.inv
  | @interrupt c k handler enabled =>
    refine ⟨update γ (M.on c) (γ (M.on c)),
      h.goOn ?_ (Code.wp_seq (hS.handler M.mem M.on γ c k h.inv handler enabled) fun _ g hg => ?_)⟩
    · rw [update_eq_self]
      exact h.inv
    · rw [hg]
      exact h.code c

theorem Holds.reach (hS : S.Sound J g₀ Idle) (h : M.Holds J g₀ Idle γ) (hr : M.Reach S M') :
    ∃ γ', M'.Holds J g₀ Idle γ' := by
  induction hr with
  | refl => exact ⟨γ, h⟩
  | tail _ hstep ih =>
    obtain ⟨γ', h'⟩ := ih
    exact h'.step hS hstep

end Machine

end Xv6.Conc
