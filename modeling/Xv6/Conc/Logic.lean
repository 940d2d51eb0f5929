import Xv6.Conc.Prog
import Mathlib.Data.Fintype.Basic

/-!
# Pre- and postconditions for interleaved programs

The logic is in the style of Owicki and Gries. A pool invariant `I s γ` relates the shared state to
one ghost value per process. A process knows only its own ghost value `g`: the precondition of its
next section is that `I` holds of *some* state and ghost map that give it `g`, so whatever the
others do meanwhile is already accounted for. Each section may change the ghost value of the
process that runs it, and must give `I` back.

`wp_pool` lifts this to pools and `wp_run` to undisturbed runs.
-/

namespace Xv6.Conc

open Function (update update_self update_of_ne update_idem update_eq_self)

variable {σ Pid L G α β : Type} [DecidableEq Pid]

/-- Weakest precondition of a program of process `p`, for the pool invariant `I` and the faults `E`
that are tolerated, each in the states where it is. -/
def wp (I : σ → (Pid → G) → Prop) (E : σ → Fault → Prop) (p : Pid) :
    Prog σ α → G → (α → G → Prop) → Prop
  | .ret a, g, Q => Q a g
  | .act f k, g, Q => ∀ s γ, I s γ → γ p = g →
      match f s with
      | .blocked => True
      | .fault e => E s e
      | .ok b s' => ∃ g', I s' (Function.update γ p g') ∧ wp I E p (k b) g' Q

variable {I : σ → (Pid → G) → Prop} {E : σ → Fault → Prop} {p : Pid} {g : G} {Q R : α → G → Prop} {x : Prog σ α}

@[simp] theorem wp_ret (a : α) (g : G) (Q : α → G → Prop) :
    wp I E p (.ret a) g Q ↔ Q a g := Iff.rfl

theorem wp_act {f : σ → Outcome σ β} {k : β → Prog σ α} :
    wp I E p (.act f k) g Q ↔ ∀ s γ, I s γ → γ p = g →
      match f s with
      | .blocked => True
      | .fault e => E s e
      | .ok b s' => ∃ g', I s' (update γ p g') ∧ wp I E p (k b) g' Q := Iff.rfl

/-- Weakening the postcondition. -/
theorem wp_mono (h : wp I E p x g Q) (hQR : ∀ a g', Q a g' → R a g') : wp I E p x g R := by
  induction x generalizing g with
  | ret a => exact hQR a g h
  | act f k ih =>
    intro s γ hI hg
    have hs := h s γ hI hg
    cases hf : f s with
    | blocked => trivial
    | fault e => simpa [hf] using hs
    | ok b s' =>
      simp only [hf] at hs
      obtain ⟨g', hI', hk⟩ := hs
      exact ⟨g', hI', ih b hk⟩

/-- Sequential composition. -/
theorem wp_bind {f : α → Prog σ β} {Q : β → G → Prop} :
    wp I E p (x.bind f) g Q ↔ wp I E p x g fun a g' => wp I E p (f a) g' Q := by
  induction x generalizing g with
  | ret a => exact Iff.rfl
  | act h k ih =>
    refine forall₄_congr fun s γ _ _ => ?_
    cases h s with
    | blocked => exact Iff.rfl
    | fault e => exact Iff.rfl
    | ok b s' => exact exists_congr fun g' => and_congr_right fun _ => ih b

/-- The rule used to step through code: a proved specification of the first program, then the rest
from every value and ghost value it may leave. -/
theorem wp_seq {f : α → Prog σ β} {Q : β → G → Prop} {R : α → G → Prop}
    (hx : wp I E p x g R) (hf : ∀ a g', R a g' → wp I E p (f a) g' Q) :
    wp I E p (x.bind f) g Q :=
  wp_bind.mpr (wp_mono hx hf)

/-- A single section. -/
theorem wp_atomic {f : σ → Outcome σ α}
    (h : ∀ s γ, I s γ → γ p = g → match f s with
      | .blocked => True
      | .fault e => E s e
      | .ok b s' => ∃ g', I s' (update γ p g') ∧ Q b g') :
    wp I E p (Prog.atomic f) g Q := h

/-- A section that only reads. -/
theorem wp_reads {f : σ → α} (h : ∀ s γ, I s γ → γ p = g → Q (f s) g) : wp I E p (Prog.reads f) g Q := by
  intro s γ hI hg
  refine ⟨g, ?_, h s γ hI hg⟩
  rwa [← hg, update_eq_self]

/-- A section that always succeeds and changes the state. -/
theorem wp_modifies {f : σ → σ} {Q : Unit → G → Prop}
    (h : ∀ s γ, I s γ → γ p = g → ∃ g', I (f s) (update γ p g') ∧ Q () g') :
    wp I E p (Prog.modifies f) g Q := h

/-- A deliberate stop needs its fault to be tolerated. -/
theorem wp_fail {e : Fault}
    (h : ∀ s γ, I s γ → γ p = g → E s e) : wp I E p (Prog.fail e : Prog σ α) g Q := h

/-- The invariant allows the ghost value `g` of `p` to be replaced by `g'` without a step. -/
def Shift (I : σ → (Pid → G) → Prop) (p : Pid) (g g' : G) : Prop :=
  ∀ s γ, I s γ → γ p = g → I s (Function.update γ p g')

theorem Shift.refl (g : G) : Shift I p g g := by
  intro s γ hI hg
  rwa [← hg, update_eq_self]

/-- A shift before a section. -/
theorem wp_shift {f : σ → Outcome σ β} {k : β → Prog σ α} {g' : G} (hs : Shift I p g g')
    (h : wp I E p (.act f k) g' Q) : wp I E p (.act f k) g Q := by
  intro s γ hI hg
  have hstep := h s _ (hs s γ hI hg) (update_self p g' γ)
  simpa only [update_idem] using hstep

/-- A shift after a section. -/
theorem wp_atomic_shift {f : σ → Outcome σ α} (h : wp I E p (Prog.atomic f) g R)
    (hs : ∀ a g', R a g' → ∃ g'', Shift I p g' g'' ∧ Q a g'') : wp I E p (Prog.atomic f) g Q := by
  intro s γ hI hg
  have hstep := h s γ hI hg
  cases hf : f s with
  | blocked => trivial
  | fault e => simpa [hf] using hstep
  | ok b s' =>
    simp only [hf] at hstep
    obtain ⟨g', hI', hR⟩ := hstep
    obtain ⟨g'', hshift, hQ⟩ := hs b g' hR
    refine ⟨g'', ?_, hQ⟩
    simpa only [update_idem] using hshift s' _ hI' (update_self p g' γ)

/-! ## Soundness -/

/-- A run without interference keeps the invariant and ends in the postcondition. -/
theorem wp_run (h : wp I E p x g Q)
    {s : σ} {γ : Pid → G} (hI : I s γ) (hg : γ p = g) :
    match x.run s with
    | .blocked => True
    | .fault e => ∃ s', E s' e
    | .ok a s' => ∃ g', I s' (update γ p g') ∧ Q a g' := by
  induction x generalizing g s γ with
  | ret a =>
    refine ⟨g, ?_, h⟩
    rwa [← hg, update_eq_self]
  | act f k ih =>
    have hs := h s γ hI hg
    rw [Prog.run_act]
    cases hf : f s with
    | blocked => trivial
    | fault e =>
      simp only [hf] at hs
      exact ⟨s, hs⟩
    | ok b s' =>
      simp only [hf] at hs
      obtain ⟨g', hI', hk⟩ := hs
      have := ih b hk hI' (update_self p g' γ)
      simpa only [update_idem] using this

/-- What has to be shown of a protocol: every call that is allowed of an idle process has a
specification that ends idle, and a power cut leaves the invariant with every process idle. -/
structure Sound (P : Protocol σ Pid L) (I : σ → (Pid → G) → Prop) (E : σ → Fault → Prop)
    (Idle : Pid → L → G → Prop) : Prop where
  call : ∀ (s : σ) (γ : Pid → G) (p : Pid) (l : L) (k : P.Call), I s γ → Idle p l (γ p) →
    P.allowed s p l k →
    ∃ g, I s (Function.update γ p g) ∧ wp I E p (P.body p l k) g (Idle p)
  restart : ∀ (s s' : σ) (γ : Pid → G), I s γ → P.restart s s' →
    ∃ γ', I s' γ' ∧ ∀ p, Idle p P.boot (γ' p)

/-- The invariant of a whole pool: `I` for some ghost map under which every process's remaining
code is safe. -/
def Holds (I : σ → (Pid → G) → Prop) (E : σ → Fault → Prop) (Idle : Pid → L → G → Prop)
    (c : Config σ Pid L) : Prop :=
  ∃ γ, I c.shared γ ∧ ∀ p, wp I E p (c.thread p) (γ p) (Idle p)

variable {P : Protocol σ Pid L} {Idle : Pid → L → G → Prop}

/-- Updating the program and the ghost value of one process keeps the others as they are. -/
private theorem wp_update {γ : Pid → G} {t : Pid → Prog σ L}
    (h : ∀ q, wp I E q (t q) (γ q) (Idle q)) {x : Prog σ L}
    (hx : wp I E p x g (Idle p)) (q : Pid) :
    wp I E q (update t p x q) (update γ p g q) (Idle q) := by
  rcases eq_or_ne q p with rfl | hq
  · simpa only [update_self] using hx
  · simpa only [update_of_ne hq] using h q

/-- One step of the pool keeps the pool invariant. -/
theorem Holds.step (hP : Sound P I E Idle) {c c' : Config σ Pid L} (hc : Holds I E Idle c)
    (h : Step P c c') : Holds I E Idle c' := by
  obtain ⟨γ, hI, hw⟩ := hc
  cases h with
  | @call p l k idle allowed =>
    have hl : Idle p l (γ p) := by
      have := hw p
      rwa [idle, wp_ret] at this
    obtain ⟨g, hI', hb⟩ := hP.call c.shared γ p l k hI hl allowed
    exact ⟨update γ p g, hI', wp_update hw hb⟩
  | @act p β f k b s' at_act ok =>
    have hs := hw p
    rw [at_act, wp_act] at hs
    have hs := hs c.shared γ hI rfl
    simp only [ok] at hs
    obtain ⟨g', hI', hk⟩ := hs
    exact ⟨update γ p g', hI', wp_update hw hk⟩
  | @cut s' restart =>
    obtain ⟨γ', hI', hidle⟩ := hP.restart c.shared s' γ hI restart
    exact ⟨γ', hI', hidle⟩

/-- Every interleaving keeps the pool invariant. -/
theorem wp_pool (hP : Sound P I E Idle) {c c' : Config σ Pid L} (hc : Holds I E Idle c)
    (h : Reach P c c') : Holds I E Idle c' := by
  induction h with
  | refl => exact hc
  | tail _ hstep ih => exact ih.step hP hstep

/-- Only tolerated faults can come up. -/
theorem Holds.faults {c : Config σ Pid L} (hc : Holds I E Idle c) {e : Fault} (he : c.Faults e) : E c.shared e := by
  obtain ⟨γ, hI, hw⟩ := hc
  obtain ⟨p, β, f, k, hp, hf⟩ := he
  have hs := hw p
  rw [hp, wp_act] at hs
  have hs := hs c.shared γ hI rfl
  rwa [hf] at hs

/-- If every process can get to the end of its program without a change to the state, the state is one in
which all processes are idle. -/
theorem Holds.idle [Fintype Pid] {c : Config σ Pid L} (hc : Holds I (fun _ _ => False) Idle c) {l : Pid → L}
    (hrun : ∀ p, (c.thread p).run c.shared = .ok (l p) c.shared) :
    ∃ γ, I c.shared γ ∧ ∀ p, Idle p (l p) (γ p) := by
  obtain ⟨γ, hI, hw⟩ := hc
  -- the processes run one after the other; those outside of `S` have not run yet
  have hsome : ∀ S : Finset Pid, ∃ γ', I c.shared γ' ∧ (∀ p ∈ S, Idle p (l p) (γ' p)) ∧ ∀ p ∉ S, γ' p = γ p := by
    intro S
    induction S using Finset.induction_on with
    | empty => exact ⟨γ, hI, by simp, fun _ _ => rfl⟩
    | insert p S hp ih =>
      obtain ⟨γ', hI', hdone, hrest⟩ := ih
      have hend := wp_run (hw p) hI' (hrest p hp)
      rw [hrun p] at hend
      obtain ⟨g', hI'', hidle⟩ := hend
      refine ⟨_, hI'', fun q hq => ?_, fun q hq => ?_⟩
      · rcases eq_or_ne q p with rfl | hqp
        · rwa [update_self]
        · rw [update_of_ne hqp]
          exact hdone q ((Finset.mem_insert.1 hq).resolve_left hqp)
      · rw [Finset.mem_insert, not_or] at hq
        rw [update_of_ne hq.1]
        exact hrest q hq.2
  obtain ⟨γ', hI', hdone, -⟩ := hsome Finset.univ
  exact ⟨γ', hI', fun p => hdone p (Finset.mem_univ p)⟩

end Xv6.Conc
