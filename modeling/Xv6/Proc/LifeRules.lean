import Xv6.Proc.LifeInv

/-!
# Rules for `fork`, `exit` and `wait`

One rule for each function, over the invariant `LifeInv`. Panics are not excluded.
-/

namespace Xv6.Proc

open Conc
open Function (update update_self update_of_ne update_eq_self)

variable {n : ℕ}

abbrev lwp {α : Type} (initproc p : Fin n) (x : Prog (Kernel n) α) (g : Post n)
    (Q : α → Post n → Prop) : Prop :=
  wp (LifeInv initproc) (fun _ _ => True) p x g Q

section

variable {initproc p : Fin n} {x : Doing n} {b : Bool} {Q : Unit → Post n → Prop} {s s' : Kernel n} {t q : Fin n}
  {pid : BitVec 32} {c : Chan n}

/-! ## Locks, `sched` and `kill` -/

theorem turns_pt {b' : Bool} (hx : x = .scanned → b' = true) : Turns ⟨b, x⟩ ⟨b', x⟩ :=
  ⟨fun _ => Iff.rfl, fun _ => Iff.rfl, fun h => ⟨h, hx h⟩⟩

theorem turns_plain {y : Doing n} {b' : Bool} (hx : ∀ t, x ≠ .kid t ∧ x ≠ .given t)
    (hy : ∀ t, y ≠ .kid t ∧ y ≠ .given t) (hs : y ≠ .scanned) : Turns ⟨b, x⟩ ⟨b', y⟩ :=
  ⟨fun t => iff_of_false (hy t).1 (hx t).1, fun t => iff_of_false (hy t).2 (hx t).2,
    fun h => absurd h hs⟩

theorem lwp_acquire (hQ : Q () ⟨true, x⟩) : lwp initproc p (acquire p .ptable) ⟨b, x⟩ Q := by
  refine wp_atomic fun s γ hI hg => ?_
  cases hl : s.holder .ptable with
  | some q => by_cases hq : q = p <;> simp [hq]
  | none =>
    refine ⟨_, hI.calm (others_acquire hl) (by simp [Event.Aside]) (.refl _) rfl
      (fun _ h => .inl ⟨h, rfl⟩) (fun _ _ _ => rfl) (fun _ _ h => h) (fun _ => by simp) ?_ ?_, hQ⟩
    · intro hx
      exact hI.stages.runs p (by rw [hg]; exact hx)
    · rw [hg]
      exact turns_pt fun _ => rfl

theorem lwp_release (hx : x ≠ .scanned) (hQ : Q () ⟨false, x⟩) : lwp initproc p (release p .ptable) ⟨b, x⟩ Q := by
  refine wp_atomic fun s γ hI hg => ?_
  by_cases hl : s.holder .ptable = some p
  · simp only [hl, if_true]
    refine ⟨⟨false, x⟩, hI.calm (others_release hl) (by simp) (.refl _) rfl
      (fun _ h => .inl ⟨h, rfl⟩) (fun _ _ _ => rfl) (fun _ _ h => h) nofun ?_ ?_, hQ⟩
    · intro hx
      exact hI.stages.runs p (by rw [hg]; exact hx)
    · rw [hg]
      exact turns_pt fun h => absurd h hx
  · simp [hl]

theorem lwp_swtch (hx : x ≠ .scanned) (hQ : Q () ⟨false, x⟩) : lwp initproc p (swtch p) ⟨b, x⟩ Q := by
  refine wp_atomic fun s γ hI hg => ?_
  split_ifs with h₁ h₂ h₃
  · trivial
  · trivial
  · trivial
  · refine ⟨⟨false, x⟩, hI.calm (others_release (not_not.mp h₁)) (by simp) (.refl _) rfl
      (fun _ h => .inl ⟨h, rfl⟩) (fun _ _ _ => rfl) (fun _ _ h => h) nofun ?_ ?_, hQ⟩
    · intro hx
      exact hI.stages.runs p (by rw [hg]; exact hx)
    · rw [hg]
      exact turns_pt fun h => absurd h hx

/-- The table after the entry of `p` has been changed within the living states. -/
theorem calm_update {P : Fin n → Process n} {y : Process n} (hpid : y.pid = (P p).pid)
    (hparent : y.parent = (P p).parent) (halive : (P p).state.Alive) (hy : y.state.Alive) :
    Calm P (update P p y) := by
  refine ⟨fun t => ?_, fun t => ?_, fun t => ?_⟩ <;> by_cases ht : t = p
  · rw [ht, update_self, hparent]
  · rw [update_of_ne ht]
  · rw [ht, update_self, hpid]
  · rw [update_of_ne ht]
  · rw [ht, update_self]
    exact .inr ⟨halive, hy⟩
  · rw [update_of_ne ht]
    exact .inl rfl

theorem lwp_resume (hx : x = .out ∨ x = .asleep)
    (hQ : Q () ⟨true, .busy⟩) : lwp initproc p (resume p) ⟨b, x⟩ Q := by
  refine wp_atomic fun s γ hI hg => ?_
  split_ifs with h
  · refine ⟨_, hI.calm (others_resume h.2) (by simp [Event.Aside])
      (calm_update rfl rfl (.inr (.inl h.1)) (.inr (.inr rfl))) rfl (fun q hq => .inl ?_)
      (fun _ t ht => ?_) (fun q hq hr => ?_) (fun _ => by simp) (fun _ => by simp) ?_, hQ⟩
    · have hqp : q ≠ p := by
        rintro rfl
        simp at hq
      simpa [update_of_ne hqp] using hq
    · have htp : t ≠ p := by
        rintro rfl
        simp [h.1] at ht
      simp [update_of_ne htp]
    · simpa [update_of_ne hq] using hr
    · rw [hg]
      rcases hx with rfl | rfl <;> exact turns_plain (by simp) (by simp) (by simp)
  · trivial

/-- A process that has found no child to reap goes to sleep. -/
theorem lwp_goToSleep (hQ : Q () ⟨true, .asleep⟩) : lwp initproc p (goToSleep p (.proc p)) ⟨true, .scanned⟩ Q := by
  refine wp_modifies fun s γ hI hg => ⟨⟨true, .asleep⟩, ?_, hQ⟩
  have hrun := hI.stages.runs p (by rw [hg]; trivial)
  have hscan := (hI.stages.scanned p (by rw [hg])).2
  refine hI.calm (others_own (by simp) (by simp)) (by simp [Event.Aside])
    (calm_update rfl rfl (.inr (.inr hrun)) (.inl rfl)) rfl (fun q hq => ?_) (fun _ t ht => ?_)
    (fun q hq hr => ?_) (fun _ => hI.stages.pt p (by rw [hg])) nofun ?_
  · rcases eq_or_ne q p with rfl | hqp
    · exact .inr ⟨by simp, hscan⟩
    · exact .inl (by simpa [update_of_ne hqp] using hq)
  · have htp : t ≠ p := by
      rintro rfl
      simp [hrun] at ht
    simp [update_of_ne htp]
  · simpa [update_of_ne hq] using hr
  · rw [hg]
    exact turns_plain (by simp) (by simp) (by simp)

theorem lwp_tidyUp (hQ : Q () ⟨b, .busy⟩) : lwp initproc p (tidyUp p) ⟨b, .busy⟩ Q := by
  refine wp_modifies fun s γ hI hg => ⟨⟨b, .busy⟩, ?_, hQ⟩
  have hrun := hI.stages.runs p (by rw [hg]; trivial)
  refine hI.calm others_setProc (by simp)
    (calm_update rfl rfl (.inr (.inr hrun)) (.inr (.inr hrun))) rfl (fun q hq => .inl ?_)
    (fun _ t _ => ?_) (fun q hq hr => ?_) (fun h => hI.stages.pt p (by rw [hg]; exact h)) (fun _ => ?_) ?_
  · have hqp : q ≠ p := by
      rintro rfl
      simp [hrun] at hq
    simpa [update_of_ne hqp] using hq
  · rcases eq_or_ne t p with rfl | htp
    · simp
    · simp [update_of_ne htp]
  · simpa [update_of_ne hq] using hr
  · simpa using hrun
  · rw [hg]
    exact turns_plain (by simp) (by simp) (by simp)

theorem lwp_sleep (hQ : Q () ⟨true, .busy⟩) : lwp initproc p (sleep p (.proc p) .ptable) ⟨true, .scanned⟩ Q := by
  unfold sleep
  rw [if_neg (by simp)]
  refine wp_bind.mpr (lwp_goToSleep ?_)
  refine wp_bind.mpr (wp_bind.mpr (lwp_swtch (by simp) ?_))
  exact lwp_resume (.inr rfl) (lwp_tidyUp hQ)

/-- A kill leaves the processes as they are. -/
theorem calm_hit : Calm s.proc (s.hit pid t).proc := by
  refine ⟨fun q => ?_, fun q => ?_, fun q => ?_⟩ <;> by_cases hq : q = t
  · rw [hq, hit_self]
  · rw [hit_of_ne s pid hq]
  · rw [hq, hit_self]
  · rw [hit_of_ne s pid hq]
  · rw [hq, hit_self]
    by_cases hs : (s.proc t).state = .sleeping
    · exact .inr ⟨.inl hs, .inr (.inl (by simp [hs]))⟩
    · exact .inl (by simp [hs])
  · exact .inl (by rw [hit_of_ne s pid hq])

theorem lwp_killScan {Q : ℤ → Post n → Prop} (hQ : ∀ r, Q r ⟨true, .busy⟩) :
    lwp initproc p (killScan pid) ⟨true, .busy⟩ Q := by
  refine wp_atomic fun s γ hI hg => ?_
  cases (List.finRange n).find? fun q => (s.proc q).pid = pid with
  | none => exact ⟨_, by rwa [← hg, update_eq_self], hQ _⟩
  | some t =>
    have hes : ∀ e ∈ hitEvents s pid t, e.Aside := by
      unfold hitEvents
      split_ifs <;> simp [Event.Aside]
    have ho : Others p (hitEvents s pid t) s (s.hit pid t) := others_hit
    obtain ⟨-, hholder, hnext⟩ := hit_rest s pid t
    -- the process hit may have been asleep, but then it was not running
    have hrun : ∀ q, (s.proc q).state = .running → ((s.hit pid t).proc q).state = .running := by
      intro q hq
      rcases eq_or_ne q t with rfl | hqt
      · simp [hit_self, hq]
      · rwa [hit_of_ne s pid hqt]
    refine ⟨⟨true, .busy⟩, hI.calm ho hes calm_hit hnext (fun q hq => .inl ?_) (fun hfits u hu => ?_)
      (fun q _ => hrun q) (fun _ => ?_) (fun _ => hrun p (hI.stages.runs p ?_)) ?_, hQ 0⟩
    · have hqt : q ≠ t := by
        rintro rfl
        rw [hit_self] at hq
        by_cases hs : (s.proc q).state = .sleeping <;> simp [hs] at hq
      rw [hit_of_ne s pid hqt] at hq ⊢
      exact ⟨hq, rfl⟩
    · have hut : u ≠ t := by
        rintro rfl
        exact hfits (.kill pid u (s.proc u).state) ((hit_log s pid u).subset (by simp)) hu
      rw [hit_of_ne s pid hut]
    · rw [hholder]
      exact hI.stages.pt p (by rw [hg])
    · rw [hg]
      trivial
    · rw [hg]
      exact turns_plain (by simp) (by simp) (by simp)

theorem lwp_kill {Q : ℤ → Post n → Prop} (hQ : ∀ r, Q r ⟨false, .busy⟩) :
    lwp initproc p (kill p pid) ⟨false, .busy⟩ Q := by
  refine wp_bind.mpr (lwp_acquire ?_)
  refine wp_bind.mpr (lwp_killScan fun r => ?_)
  exact wp_bind.mpr (lwp_release (by simp) (hQ r))

/-! ## `fork` -/

theorem lwp_allocScan {Q : Option (Fin n) → Post n → Prop} (hnone : Q none ⟨true, .busy⟩)
    (hsome : ∀ t, Q (some t) ⟨true, .kid t⟩) : lwp initproc p allocScan ⟨true, .busy⟩ Q := by
  refine wp_atomic fun s γ hI hg => ?_
  cases hfind : (List.finRange n).find? fun q => (s.proc q).state = .unused with
  | none => exact ⟨_, by rwa [← hg, update_eq_self], hnone⟩
  | some t =>
    have ht : (s.proc t).state = .unused := by simpa using List.find?_some hfind
    refine ⟨⟨true, .kid t⟩, ⟨?_, ?_, fun hlt => ?_, fun hfits => ?_⟩, hsome t⟩
    · exact hI.tree.update (by simp [ht, ProcState.Alive])
        (fun _ => .inl ⟨hI.tree.unused t ht, rfl⟩) (by simp) (by simp) (by simp)
    · refine hI.stages.update rfl rfl (by simp [ht]) (fun q hq hm => ?_) (by rw [hg])
        (fun _ => by rw [hg]; trivial) (fun u hu => ?_) (by simp) (fun u _ hm => ?_) (by simp) (fun _ q hq => ?_)
        (by simp)
      · simp [hI.stages.makes hm] at ht
      · exact ⟨(Doing.kid.inj hu).symm, rfl, hI.tree.unused t ht⟩
      · rw [hg] at hm
        rcases hm with hm | hm <;> cases hm
      · rw [hI.tree.unused t ht] at hq
        cases hq
    · rw [Kernel.note_log, allocs_alloc] at hlt
      exact (hI.past (Nat.lt_of_succ_lt hlt)).alloc hI.tree ht rfl rfl rfl
        (by rwa [Kernel.note_log, allocs_alloc])
    · have hf := hI.fresh fun e he => hfits e (List.mem_cons_of_mem _ he)
      refine ⟨fun u hu => ?_, fun u b hu => ?_⟩
      · have hut : u ≠ t := by
          rintro rfl
          simp at hu
        simp only [Kernel.note_proc, Kernel.setProc_proc, update_of_ne hut] at hu ⊢
        exact hf.unused u hu
      · rcases List.mem_cons.mp hu with hu | hu
        · obtain ⟨-, rfl⟩ := Event.alloc.inj hu
          exact hf.unused t ht
        · exact hf.alloc u b hu

/-- A process that is making slot `t` makes no other, and nobody else makes it. -/
theorem Stages.sole {γ : Fin n → Post n} (h : Stages s γ)
    (hp : (γ p).doing.Makes t) :
    (∀ q, q ≠ p → ¬(γ q).doing.Makes t) ∧ ∀ u, u ≠ t → ¬(γ p).doing.Makes u := by
  refine ⟨fun q hq hm => hq (h.unique q p t hm hp), fun u hu hm => ?_⟩
  rcases hp with hp | hp <;> rcases hm with hm | hm <;> rw [hp] at hm
  · exact hu (Doing.kid.inj hm).symm
  · cases hm
  · cases hm
  · exact hu (Doing.given.inj hm).symm

/-- `fork` gives back a slot of which nobody is the child. -/
theorem lwp_giveBack (hQ : Q () ⟨false, .busy⟩) : lwp initproc p (giveBack t) ⟨false, .kid t⟩ Q := by
  refine wp_modifies fun s γ hI hg => ⟨⟨false, .busy⟩, ?_, hQ⟩
  obtain ⟨ht, hpar⟩ := hI.stages.kid p t (by rw [hg])
  obtain ⟨hmake, hold⟩ := hI.stages.sole (p := p) (t := t) (by rw [hg]; exact .inl rfl)
  have hal : ¬(s.proc t).state.Alive := by simp [ht, ProcState.Alive]
  refine ⟨?_, ?_, fun hlt => ?_, fun hfits => ?_⟩
  · exact hI.tree.update hal (fun h => absurd rfl h) (fun _ => hpar) (by simp) (by simp)
  · exact hI.stages.update rfl rfl (by simp [ht]) hmake (by rw [hg]) (fun _ => by rw [hg]; trivial) (by simp)
      (by simp) hold (by simp) (by simp) (by simp)
  · have hlt' : allocs s.log < 2 ^ 31 := by simpa [allocs] using hlt
    have hlog : ((s.setState t .unused).note (.freed t (s.proc t).killed)).log =
      [.freed t (s.proc t).killed] ++ s.log := rfl
    exact (hI.past hlt').update hI.tree hal rfl rfl hlog (by simp [allocs]) (by simp) (by simp)
      (fun h => absurd rfl h) (fun h => absurd rfl h) (by simp)
  · have hf := hI.fresh fun e he => hfits e (List.mem_cons_of_mem _ he)
    have hkilled : (s.proc t).killed = false := hfits (.freed t (s.proc t).killed) List.mem_cons_self
    refine ⟨fun u hu => ?_, fun u b hu => hf.alloc u b (by simpa using hu)⟩
    rcases eq_or_ne u t with rfl | hut
    · simpa using hkilled
    · simp only [Kernel.note_proc, Kernel.setState_proc, update_of_ne hut] at hu ⊢
      exact hf.unused u hu

theorem lwp_setParent (hQ : Q () ⟨false, .given t⟩) : lwp initproc p (setParent p t) ⟨false, .kid t⟩ Q := by
  refine wp_modifies fun s γ hI hg => ⟨⟨false, .given t⟩, ?_, hQ⟩
  obtain ⟨ht, hpar⟩ := hI.stages.kid p t (by rw [hg])
  have hrun := hI.stages.runs p (by rw [hg]; trivial)
  obtain ⟨hmake, hold⟩ := hI.stages.sole (p := p) (t := t) (by rw [hg]; exact .inl rfl)
  have hal : ¬(s.proc t).state.Alive := by simp [ht, ProcState.Alive]
  refine ⟨?_, ?_, fun hlt => ?_, fun hfits => ?_⟩
  · exact hI.tree.update hal (fun _ => .inr ⟨p, rfl, .inr (.inr hrun)⟩) (by simp [ht]) (by simp [ht])
      (by simp [ht])
  · refine hI.stages.update rfl rfl (by simp [ht]) hmake (by rw [hg]) (fun _ => by rw [hg]; trivial)
      (by simp) (fun u hu => ⟨(Doing.given.inj hu).symm, ht, rfl⟩) hold (by simp) (fun _ q hq => ?_) (by simp [ht])
    exact ⟨(Option.some.inj hq).symm, rfl⟩
  · have hlog : (s.setProc t { s.proc t with parent := some p }).log = [] ++ s.log := rfl
    exact (hI.past hlt).update hI.tree hal rfl rfl hlog rfl (by simp) (by simp [ht])
      (fun _ => ⟨by simp [ht], rfl⟩) (by simp [hpar]) (by simp)
  · have hf := hI.fresh hfits
    refine ⟨fun u hu => ?_, hf.alloc⟩
    have hut : u ≠ t := by
      rintro rfl
      simp [ht] at hu
    simp only [Kernel.setProc_proc, update_of_ne hut] at hu ⊢
    exact hf.unused u hu

theorem lwp_launch (hQ : Q () ⟨true, .busy⟩) : lwp initproc p (launch p t) ⟨true, .given t⟩ Q := by
  refine wp_modifies fun s γ hI hg => ⟨⟨true, .busy⟩, ?_, hQ⟩
  obtain ⟨ht, hpar⟩ := hI.stages.given p t (by rw [hg])
  have hrun := hI.stages.runs p (by rw [hg]; trivial)
  obtain ⟨hmake, hold⟩ := hI.stages.sole (p := p) (t := t) (by rw [hg]; exact .inr rfl)
  have hal : ¬(s.proc t).state.Alive := by simp [ht, ProcState.Alive]
  have hpt : p ≠ t := by
    rintro rfl
    simp [ht] at hrun
  refine ⟨?_, ?_, fun hlt => ?_, fun hfits => ?_⟩
  · exact hI.tree.update hal (fun _ => .inr ⟨p, hpar, .inr (.inr hrun)⟩) (by simp) (by simp) (by simp)
  · exact hI.stages.update rfl rfl (by simp [ht]) hmake (by rw [hg]) (fun _ => by rw [hg]; trivial)
      (by simp) (by simp) hold (by simp) (by simp) (by simp)
  · have hlt' : allocs s.log < 2 ^ 31 := by simpa [allocs] using hlt
    have hlog : ((s.setState t .runnable).note (.forked (s.proc p).pid (s.proc t).pid)).log =
      [.forked (s.proc p).pid (s.proc t).pid] ++ s.log := rfl
    refine (hI.past hlt').update hI.tree hal rfl rfl hlog (by simp [allocs]) (by simp) (by simp)
      (fun _ => ⟨by simp [ht], rfl⟩) (fun _ q hq => hq) fun w pid hw => ?_
    obtain ⟨rfl, rfl⟩ := Event.forked.inj (List.mem_singleton.mp hw)
    exact ⟨rfl, by simp [ht], p, hpar, hpt, rfl⟩
  · have hf := hI.fresh fun e he => hfits e (List.mem_cons_of_mem _ he)
    refine ⟨fun u hu => ?_, fun u b hu => hf.alloc u b (by simpa using hu)⟩
    have hut : u ≠ t := by
      rintro rfl
      simp at hu
    simp only [Kernel.note_proc, Kernel.setState_proc, update_of_ne hut] at hu ⊢
    exact hf.unused u hu

theorem lwp_allocproc {kstack : Bool} {Q : Option (Fin n) → Post n → Prop}
    (hnone : Q none ⟨false, .busy⟩) (hsome : ∀ t, Q (some t) ⟨false, .kid t⟩) :
    lwp initproc p (allocproc p kstack) ⟨false, .busy⟩ Q := by
  refine wp_bind.mpr (lwp_acquire ?_)
  refine wp_bind.mpr (lwp_allocScan ?_ fun t => ?_)
  · refine wp_bind.mpr (lwp_release (by simp) ?_)
    exact hnone
  · refine wp_bind.mpr (lwp_release (by simp) ?_)
    show lwp initproc p (if kstack then _ else _) _ _
    split_ifs
    · exact hsome t
    · refine wp_bind.mpr (lwp_giveBack ?_)
      exact hnone

theorem lwp_fork {kstack mem : Bool} {Q : Option (BitVec 32) → Post n → Prop}
    (hQ : ∀ r, Q r ⟨false, .busy⟩) : lwp initproc p (fork p kstack mem) ⟨false, .busy⟩ Q := by
  refine wp_bind.mpr (lwp_allocproc ?_ fun t => ?_)
  · exact hQ none
  · show lwp initproc p (if ¬mem then _ else _) _ _
    split_ifs
    · refine wp_bind.mpr (lwp_setParent ?_)
      refine wp_bind.mpr (wp_reads fun _ _ _ _ => ?_)
      refine wp_bind.mpr (lwp_acquire ?_)
      refine wp_bind.mpr (lwp_launch ?_)
      refine wp_bind.mpr (lwp_release (by simp) ?_)
      exact hQ (some _)
    · refine wp_bind.mpr (lwp_giveBack ?_)
      exact hQ none

/-! ## `exit` -/

/-- What `exit` has done to the table when the slots of `l` have been looked at. -/
structure Adopted (initproc p : Fin n) (l : List (Fin n)) (s s' : Kernel n) : Prop where
  rest : s'.holder = s.holder ∧ s'.nextpid = s.nextpid
  log : ∃ qs : List (Fin n), s'.log = qs.map .ready ++ s.log
  keeps : ∀ q, (s'.proc q).pid = (s.proc q).pid ∧ (s'.proc q).chan = (s.proc q).chan ∧
    (s'.proc q).killed = (s.proc q).killed
  state : ∀ q, (s'.proc q).state = (s.proc q).state ∨
    (s.proc q).state = .sleeping ∧ (s'.proc q).state = .runnable
  parent : ∀ q, (s'.proc q).parent =
    if q ∈ l ∧ (s.proc q).parent = some p then some initproc else (s.proc q).parent
  woken : ∀ z ∈ l, (s.proc z).parent = some p → (s.proc z).state = .zombie →
    ∀ q, (s'.proc q).state = .sleeping → (s.proc q).chan ≠ some (.proc initproc)

theorem wakeup1_state (q : Fin n) :
    ((s.wakeup1 c).proc q).state = (s.proc q).state ∨
      (s.proc q).state = .sleeping ∧ ((s.wakeup1 c).proc q).state = .runnable := by
  by_cases hq : (s.proc q).state = .sleeping ∧ (s.proc q).chan = some c
  · exact .inr ⟨hq.1, by simp [hq]⟩
  · exact .inl (by simp [hq])

theorem wakeup1_keeps (q : Fin n) :
    ((s.wakeup1 c).proc q).pid = (s.proc q).pid ∧ ((s.wakeup1 c).proc q).chan = (s.proc q).chan ∧
      ((s.wakeup1 c).proc q).killed = (s.proc q).killed ∧
      ((s.wakeup1 c).proc q).parent = (s.proc q).parent := by
  simp only [Kernel.wakeup1_proc]
  split_ifs <;> exact ⟨rfl, rfl, rfl, rfl⟩

/-- Nobody is left asleep on the channel. -/
theorem wakeup1_woken (hq : ((s.wakeup1 c).proc q).state = .sleeping) : (s.proc q).chan ≠ some c := by
  intro hc
  by_cases hs : (s.proc q).state = .sleeping <;> simp [hs, hc] at hq

theorem adopted_nil : Adopted initproc p [] s s where
  rest := ⟨rfl, rfl⟩
  log := ⟨[], rfl⟩
  keeps _ := ⟨rfl, rfl, rfl⟩
  state _ := .inl rfl
  parent _ := by simp
  woken _ hz := absurd hz List.not_mem_nil

theorem Adopted.trans {l m : List (Fin n)} {s₁ s₂ : Kernel n} (hne : initproc ≠ p)
    (h₁ : Adopted initproc p l s s₁) (h₂ : Adopted initproc p m s₁ s₂) :
    Adopted initproc p (l ++ m) s s₂ where
  rest := ⟨h₂.rest.1.trans h₁.rest.1, h₂.rest.2.trans h₁.rest.2⟩
  log := by
    obtain ⟨qs, hqs⟩ := h₁.log
    obtain ⟨rs, hrs⟩ := h₂.log
    exact ⟨rs ++ qs, by rw [hrs, hqs, List.map_append, List.append_assoc]⟩
  keeps q := by
    obtain ⟨h, h', h''⟩ := h₁.keeps q
    rw [← h, ← h', ← h'']
    exact h₂.keeps q
  state q := by
    rcases h₁.state q with h | ⟨hs, h⟩
    · rw [← h]
      exact h₂.state q
    · rcases h₂.state q with h' | ⟨hs', -⟩
      · exact .inr ⟨hs, h'.trans h⟩
      · rw [h] at hs'
        cases hs'
  parent q := by
    rw [h₂.parent, h₁.parent]
    by_cases hp : (s.proc q).parent = some p
    · by_cases hl : q ∈ l <;> by_cases hm : q ∈ m <;> simp [hl, hm, hp, hne]
    · simp [hp]
  woken z hz hp hzom q hq := by
    rw [← (h₁.keeps q).2.1]
    by_cases hl : z ∈ l
    · rw [(h₁.keeps q).2.1]
      refine h₁.woken z hl hp hzom q ?_
      rcases h₂.state q with h | ⟨-, h⟩
      · rw [← h, hq]
      · rw [h] at hq
        cases hq
    · refine h₂.woken z ((List.mem_append.mp hz).resolve_left hl) ?_ ?_ q hq
      · rw [h₁.parent]
        simp [hl, hp]
      · rcases h₁.state z with h | ⟨h, -⟩
        · rw [h, hzom]
        · rw [h] at hzom
          cases hzom

/-- One step of the loop of `exit`. -/
theorem adopted_adopt (q : Fin n) : Adopted initproc p [q] s (s.adopt initproc p q) := by
  unfold Kernel.adopt
  by_cases hq : (s.proc q).parent = some p
  swap
  · rw [if_neg hq]
    refine ⟨⟨rfl, rfl⟩, ⟨[], rfl⟩, fun _ => ⟨rfl, rfl, rfl⟩, fun _ => .inl rfl, fun r => ?_, ?_⟩
    · by_cases hr : r = q
      · simp [hr, hq]
      · simp [hr]
    · intro z hz hp
      rw [List.mem_singleton.mp hz] at hp
      exact absurd hp hq
  rw [if_pos hq]
  -- the new parent, before anyone is woken up
  have hset : ∀ r, (s.setProc q { s.proc q with parent := some initproc }).proc r =
      { s.proc r with parent := if r ∈ [q] ∧ (s.proc r).parent = some p then some initproc
                                else (s.proc r).parent } := by
    intro r
    by_cases hr : r = q
    · simp [hr, hq]
    · simp [hr]
  obtain ⟨hrest, hlog⟩ :
      ((s.setProc q { s.proc q with parent := some initproc }).holder = s.holder ∧
        (s.setProc q { s.proc q with parent := some initproc }).nextpid = s.nextpid) ∧
      (s.setProc q { s.proc q with parent := some initproc }).log = s.log := ⟨⟨rfl, rfl⟩, rfl⟩
  generalize s.setProc q { s.proc q with parent := some initproc } = s₁ at hset hrest hlog ⊢
  split_ifs with hz
  · refine ⟨hrest, ⟨_, by rw [← hlog]; rfl⟩, fun r => ?_, fun r => ?_, fun r => ?_,
      fun z hz' hp hzom r hr => ?_⟩
    · obtain ⟨h₁, h₂, h₃, -⟩ := wakeup1_keeps (s := s₁) (c := .proc initproc) r
      rw [h₁, h₂, h₃, hset]
      exact ⟨rfl, rfl, rfl⟩
    · have := wakeup1_state (s := s₁) (c := .proc initproc) r
      rwa [hset r] at this
    · rw [(wakeup1_keeps r).2.2.2, hset]
    · have := wakeup1_woken hr
      rwa [hset r] at this
  · refine ⟨hrest, ⟨[], hlog⟩, fun r => ?_, fun r => ?_, fun r => ?_, fun z hz' hp hzom r hr => ?_⟩
    · rw [hset]
      exact ⟨rfl, rfl, rfl⟩
    · rw [hset]
      exact .inl rfl
    · rw [hset]
    · rw [List.mem_singleton.mp hz'] at hzom
      exact absurd hzom hz

theorem adopted_foldl (hne : initproc ≠ p) (l : List (Fin n)) :
    Adopted initproc p l s (l.foldl (Kernel.adopt initproc p) s) := by
  induction l generalizing s with
  | nil => exact adopted_nil
  | cons q l ih => exact (adopted_adopt q).trans hne ih

/-- What `exit` does. -/
structure Exited (initproc p : Fin n) (s s' : Kernel n) : Prop where
  rest : s'.holder = s.holder ∧ s'.nextpid = s.nextpid
  log : ∃ qs : List (Fin n), s'.log = .exited (s.proc p).pid :: (qs.map .ready ++ s.log)
  keeps : ∀ q, (s'.proc q).pid = (s.proc q).pid ∧ (s'.proc q).chan = (s.proc q).chan ∧
    (s'.proc q).killed = (s.proc q).killed
  self : (s'.proc p).state = .zombie
  state : ∀ q, q ≠ p → (s'.proc q).state = (s.proc q).state ∨
    (s.proc q).state = .sleeping ∧ (s'.proc q).state = .runnable
  parent : ∀ q, (s'.proc q).parent =
    if (s.proc q).parent = some p then some initproc else (s.proc q).parent
  wokeParent : ∀ q, (s.proc p).parent = some q → ∀ r, (s'.proc r).state = .sleeping →
    (s.proc r).chan ≠ some (.proc q)
  wokeInit : ∀ z, (s.proc z).parent = some p → (s.proc z).state = .zombie →
    ∀ r, (s'.proc r).state = .sleeping → (s.proc r).chan ≠ some (.proc initproc)

theorem exited_exit (hne : initproc ≠ p) : Exited initproc p s (s.exit initproc p) := by
  -- first the parent is woken up
  have hw : (∀ q, ((s.wakeParent p).proc q).pid = (s.proc q).pid ∧
        ((s.wakeParent p).proc q).chan = (s.proc q).chan ∧
        ((s.wakeParent p).proc q).killed = (s.proc q).killed ∧
        ((s.wakeParent p).proc q).parent = (s.proc q).parent) ∧
      (∀ q, ((s.wakeParent p).proc q).state = (s.proc q).state ∨
        (s.proc q).state = .sleeping ∧ ((s.wakeParent p).proc q).state = .runnable) ∧
      (∃ qs : List (Fin n), (s.wakeParent p).log = qs.map .ready ++ s.log) ∧
      ((s.wakeParent p).holder = s.holder ∧ (s.wakeParent p).nextpid = s.nextpid) ∧
      ∀ q, (s.proc p).parent = some q → ∀ r, ((s.wakeParent p).proc r).state = .sleeping →
        (s.proc r).chan ≠ some (.proc q) := by
    unfold Kernel.wakeParent
    cases hp : (s.proc p).parent with
    | none => exact ⟨fun _ => ⟨rfl, rfl, rfl, rfl⟩, fun _ => .inl rfl, ⟨[], rfl⟩, ⟨rfl, rfl⟩, nofun⟩
    | some q =>
      refine ⟨wakeup1_keeps, wakeup1_state, ⟨_, rfl⟩, ⟨rfl, rfl⟩, fun q' hq r hr => ?_⟩
      obtain rfl := Option.some.inj hq
      exact wakeup1_woken hr
  obtain ⟨hkeep, hstate, ⟨qs, hqs⟩, hrest, hwoke⟩ := hw
  have ha := adopted_foldl (s := s.wakeParent p) hne (List.finRange n)
  unfold Kernel.exit
  simp only
  generalize (List.finRange n).foldl (Kernel.adopt initproc p) (s.wakeParent p) = s₂ at ha ⊢
  obtain ⟨rs, hrs⟩ := ha.log
  have hkeep₂ : ∀ q, (s₂.proc q).pid = (s.proc q).pid ∧ (s₂.proc q).chan = (s.proc q).chan ∧
      (s₂.proc q).killed = (s.proc q).killed := by
    intro q
    obtain ⟨h₁, h₂, h₃⟩ := ha.keeps q
    obtain ⟨h₁', h₂', h₃', -⟩ := hkeep q
    exact ⟨h₁.trans h₁', h₂.trans h₂', h₃.trans h₃'⟩
  have hsleep : ∀ q, (s₂.proc q).state = .sleeping → ((s.wakeParent p).proc q).state = .sleeping := by
    intro q hq
    rcases ha.state q with h | ⟨-, h⟩
    · rw [← h, hq]
    · rw [h] at hq
      cases hq
  -- then the process itself becomes a zombie
  have hother : ∀ q, q ≠ p → (s₂.setState p .zombie).proc q = s₂.proc q := fun q hq => by
    simp [update_of_ne hq]
  have hlast : ∀ q, ((s₂.setState p .zombie).proc q).pid = (s₂.proc q).pid ∧
      ((s₂.setState p .zombie).proc q).chan = (s₂.proc q).chan ∧
      ((s₂.setState p .zombie).proc q).killed = (s₂.proc q).killed ∧
      ((s₂.setState p .zombie).proc q).parent = (s₂.proc q).parent := by
    intro q
    rcases eq_or_ne q p with rfl | hq
    · simp
    · rw [hother q hq]
      exact ⟨rfl, rfl, rfl, rfl⟩
  have hne' : ∀ r, ((s₂.setState p .zombie).proc r).state = .sleeping → (s₂.proc r).state = .sleeping := by
    intro r hr
    rcases eq_or_ne r p with rfl | hrp
    · simp at hr
    · rwa [hother r hrp] at hr
  refine ⟨⟨ha.rest.1.trans hrest.1, ha.rest.2.trans hrest.2⟩, ⟨rs ++ qs, ?_⟩, fun q => ?_, by simp,
    fun q hq => ?_, fun q => ?_, fun q hq r hr => ?_, fun z hz hzom r hr => ?_⟩
  · simp [(hkeep₂ p).1, hrs, hqs]
  · obtain ⟨h₁, h₂, h₃, -⟩ := hlast q
    rw [Kernel.note_proc, h₁, h₂, h₃]
    exact hkeep₂ q
  · rw [Kernel.note_proc, hother q hq]
    rcases ha.state q with h | ⟨h, h'⟩
    · rw [h]
      exact hstate q
    · refine .inr ⟨?_, h'⟩
      rcases hstate q with h'' | ⟨h'', -⟩
      · rw [← h'', h]
      · exact h''
  · rw [Kernel.note_proc, (hlast q).2.2.2, ha.parent, (hkeep q).2.2.2]
    simp
  · exact hwoke q hq r (hsleep r (hne' r hr))
  · rw [← (hkeep r).2.1]
    refine ha.woken z (List.mem_finRange z) ?_ ?_ r (hne' r hr)
    · rw [(hkeep z).2.2.2, hz]
    · rcases hstate z with h | ⟨h, -⟩
      · rw [h, hzom]
      · rw [h] at hzom
        cases hzom

theorem Exited.alive (h : Exited initproc p s s') (hq : q ≠ p)
    (hal : (s.proc q).state.Alive) : (s'.proc q).state.Alive := by
  rcases h.state q hq with hs | ⟨-, hs⟩
  · rwa [hs]
  · exact .inr (.inl hs)

/-- The state of a process that does not sleep is the same as before. -/
theorem Exited.state_iff (h : Exited initproc p s s') (hq : q ≠ p)
    (st : ProcState) (hst : st ≠ .sleeping) (hst' : st ≠ .runnable) :
    (s'.proc q).state = st ↔ (s.proc q).state = st := by
  rcases h.state q hq with hs | ⟨hs, hs'⟩
  · rw [hs]
  · rw [hs, hs']
    exact iff_of_false (Ne.symm hst') (Ne.symm hst)

theorem Exited.unused_iff (h : Exited initproc p s s')
    (hrun : (s.proc p).state = .running) (q : Fin n) :
    (s'.proc q).state = .unused ↔ (s.proc q).state = .unused := by
  by_cases hq : q = p
  · rw [hq, h.self, hrun]
    exact iff_of_false nofun nofun
  · exact h.state_iff hq .unused nofun nofun

theorem Tree.exits (h : Tree initproc s.proc) (he : Exited initproc p s s')
    (hne : initproc ≠ p) (hrun : (s.proc p).state = .running) : Tree initproc s'.proc where
  init_alive := he.alive hne h.init_alive
  init_parent := by
    rw [he.parent, h.init_parent]
    simp
  parents t ht hti := by
    rw [Ne, he.unused_iff hrun] at ht
    rw [he.parent]
    rcases h.parents t ht hti with ⟨hn, hs⟩ | ⟨q, hq, hal⟩
    · have htp : t ≠ p := by
        rintro rfl
        simp [hrun] at hs
      refine .inl ⟨by simp [hn], (he.state_iff htp .embryo nofun nofun).mpr hs⟩
    · by_cases hqp : q = p
      · rw [hq, hqp, if_pos rfl]
        exact .inr ⟨initproc, rfl, he.alive hne h.init_alive⟩
      · rw [if_neg (by rwa [hq, Option.some.injEq])]
        exact .inr ⟨q, hq, he.alive hqp hal⟩
  unused t ht := by
    rw [he.unused_iff hrun] at ht
    rw [he.parent, h.unused t ht]
    simp
  noSelf t := by
    rw [he.parent]
    split_ifs with ht
    · intro hself
      rw [← Option.some.inj hself, h.init_parent] at ht
      cases ht
    · exact h.noSelf t
  sleepers r hr := by
    have hrp : r ≠ p := by
      rintro rfl
      rw [he.self] at hr
      cases hr
    have hr' : (s.proc r).state = .sleeping := by
      rcases he.state r hrp with hs | ⟨hs, -⟩
      · rwa [← hs]
      · exact hs
    obtain ⟨hchan, hkids⟩ := h.sleepers r hr'
    refine ⟨(he.keeps r).2.1.trans hchan, fun z hz hzom => ?_⟩
    rw [he.parent] at hz
    by_cases hzp : z = p
    · -- the parent of the process that exits has been woken up
      subst hzp
      rw [if_neg (h.noSelf z)] at hz
      exact he.wokeParent r hz r hr hchan
    · rw [he.state_iff hzp .zombie nofun nofun] at hzom
      split_ifs at hz with hpar
      · -- so has `init`, if it gets a zombie
        obtain rfl := Option.some.inj hz
        exact he.wokeInit z hpar hzom initproc hr hchan
      · exact hkids z hz hzom

theorem Stages.exits {γ : Fin n → Post n} (h : Stages s γ)
    (he : Exited initproc p s s') (hg : γ p = ⟨true, .busy⟩) :
    Stages s' (Function.update γ p ⟨true, .out⟩) := by
  have hrun := h.runs p (by rw [hg]; trivial)
  have hnew : ∀ q u, (Function.update γ p ⟨true, .out⟩ q).doing.Makes u →
      q ≠ p ∧ (γ q).doing.Makes u := by
    intro q u hq
    by_cases hqp : q = p
    · rw [hqp, Function.update_self] at hq
      rcases hq with hq | hq <;> cases hq
    · rw [Function.update_of_ne hqp] at hq
      exact ⟨hqp, hq⟩
  have hembryo : ∀ u, (s'.proc u).state = .embryo ↔ (s.proc u).state = .embryo := by
    intro u
    by_cases hup : u = p
    · rw [hup, he.self, hrun]
      exact iff_of_false nofun nofun
    · exact he.state_iff hup .embryo nofun nofun
  -- `p` has no child that is still being made
  have hparent : ∀ u, (s.proc u).state = .embryo → (s'.proc u).parent = (s.proc u).parent := by
    intro u hu
    rw [he.parent, if_neg]
    intro hpar
    have := h.embryo u p hu hpar
    rw [hg] at this
    cases this
  refine ⟨fun q hq => ?_, fun q hq => ?_, fun q u hq => ?_, fun q u hq => ?_, fun q r u hq hr => ?_,
    fun u q hu hq => ?_, fun q hq => ?_⟩
  · rw [he.rest.1]
    by_cases hqp : q = p
    · rw [hqp]
      exact h.pt p (by rw [hg])
    · rw [Function.update_of_ne hqp] at hq
      exact h.pt q hq
  · by_cases hqp : q = p
    · rw [hqp, Function.update_self] at hq
      exact hq.elim
    · rw [Function.update_of_ne hqp] at hq
      exact (he.state_iff hqp .running nofun nofun).mpr (h.runs q hq)
  · obtain ⟨hqp, -⟩ := hnew q u (.inl hq)
    rw [Function.update_of_ne hqp] at hq
    obtain ⟨hs, hp⟩ := h.kid q u hq
    exact ⟨(hembryo u).mpr hs, (hparent u hs).trans hp⟩
  · obtain ⟨hqp, -⟩ := hnew q u (.inr hq)
    rw [Function.update_of_ne hqp] at hq
    obtain ⟨hs, hp⟩ := h.given q u hq
    exact ⟨(hembryo u).mpr hs, (hparent u hs).trans hp⟩
  · exact h.unique q r u (hnew q u hq).2 (hnew r u hr).2
  · rw [hembryo] at hu
    rw [hparent u hu] at hq
    have hd := h.embryo u q hu hq
    have hqp : q ≠ p := by
      rintro rfl
      rw [hg] at hd
      cases hd
    rwa [Function.update_of_ne hqp]
  · -- nobody else is in `wait` with `ptable.lock`
    have hqp : q ≠ p := by
      rintro rfl
      rw [Function.update_self] at hq
      cases hq
    rw [Function.update_of_ne hqp] at hq
    have hq' := h.pt q (h.scanned q hq).1
    rw [h.pt p (by rw [hg])] at hq'
    exact absurd (Option.some.inj hq').symm hqp

theorem Exited.allocs_eq (h : Exited initproc p s s') : allocs s'.log = allocs s.log := by
  obtain ⟨qs, hqs⟩ := h.log
  have hcons : allocs s'.log = allocs (qs.map .ready ++ s.log) := by simp [hqs, allocs]
  exact hcons.trans (allocs_aside (by simp [Event.Aside]))

theorem Past.exits (h : Past initproc s) (he : Exited initproc p s s')
    (hrun : (s.proc p).state = .running) : Past initproc s' := by
  obtain ⟨qs, hqs⟩ := he.log
  have hlog : s'.log = (.exited (s.proc p).pid :: qs.map .ready) ++ s.log := by simpa using hqs
  refine h.step he.rest.2 hlog he.allocs_eq (by simp) (fun u hu => ?_) (fun u hu => ?_)
    (fun u w hu hq => ?_) (by simp)
  · rw [Ne, he.unused_iff hrun] at hu
    exact ⟨hu, (he.keeps u).1⟩
  · rw [hlog]
    by_cases hup : u = p
    · simp [hup]
    · rw [he.state_iff hup .zombie nofun nofun] at hu
      exact List.mem_append_right _ (h.exited u hu)
  · obtain ⟨q, hq, hw⟩ := hq
    rw [he.parent]
    by_cases hqp : q = p
    · exact ⟨initproc, by rw [hq, hqp, if_pos rfl], .inr rfl⟩
    · refine ⟨q, by rw [if_neg (by rwa [hq, Option.some.injEq]), hq], ?_⟩
      rwa [(he.keeps q).1]

theorem Fresh.exits (h : Fresh s) (he : Exited initproc p s s')
    (hrun : (s.proc p).state = .running) : Fresh s' where
  unused t ht := by
    rw [he.unused_iff hrun] at ht
    rw [(he.keeps t).2.2]
    exact h.unused t ht
  alloc t killed ht := by
    obtain ⟨qs, hqs⟩ := he.log
    rw [hqs] at ht
    exact h.alloc t killed (by simpa using ht)

theorem lwp_exit (hQ : Q () ⟨false, .out⟩) : lwp initproc p (exit initproc p) ⟨false, .busy⟩ Q := by
  unfold exit
  split_ifs with hp
  · exact wp_fail fun _ _ _ _ => trivial
  · refine wp_bind.mpr (lwp_acquire ?_)
    refine wp_seq (R := fun _ g => g = ⟨true, .out⟩) ?_ ?_
    · refine wp_modifies fun s γ hI hg => ⟨⟨true, .out⟩, ?_, rfl⟩
      have hrun := hI.stages.runs p (by rw [hg]; trivial)
      have he : Exited initproc p s (s.exit initproc p) := exited_exit fun h => hp h.symm
      refine ⟨hI.tree.exits he (fun h => hp h.symm) hrun, hI.stages.exits he hg, fun hlt => ?_,
        fun hfits => ?_⟩
      · exact (hI.past (he.allocs_eq ▸ hlt)).exits he hrun
      · obtain ⟨qs, hqs⟩ := he.log
        rw [hqs] at hfits
        exact (hI.fresh fun e he' => hfits e (by simp [he'])).exits he hrun
    · rintro - _ rfl
      exact lwp_swtch (by simp) hQ

end

end Xv6.Proc
