import Xv6.Sched.Inv

/-!
# Rules for the functions of `proc.c`

For every function, from which stage to which it leads, on whatever CPUs it is executed.
-/

namespace Xv6.Sched

open Conc Proc
open Function (update update_of_ne update_eq_self)

variable {n : ℕ} {C : Type} [DecidableEq C] {x : Ctx n C} {p : Fin n} {d : ℕ} {l : Lock}
  {mk : Option (Fin n × Bool)} {Q : Unit → Ghost n → Prop} {s s' : Stage n}

/-- The ghost value of a context that `allocproc` has made. -/
def start : Ghost n := ⟨.inn 1, none⟩

/-! ## Locks -/

theorem wp_pushcli (hQ : Q () ⟨.out (d + 1), mk⟩) : (pushcli (C := C)).wp Inv start x ⟨.out d, mk⟩ Q := by
  intro m on γ c h hx hg b m' hf
  cases hf
  refine ⟨_, h.quiet hx hg (by simp) (s := .out (d + 1)) (by simp) ?_ (fun e he => ?_) (fun _ _ => Iff.rfl)
    (fun _ => rfl), hQ⟩
  · cases h.fit hx hg with
    | schedOut proc holder ncli => exact .schedOut (by simpa) holder (by simp [ncli])
    | out proc holder ncli state => exact .out (by simpa) holder (by simp [ncli]) state
  · exact update_of_ne he _ _

/-- A CPU whose `ncli` goes down. -/
theorem Fits.popcli {m : Mem n C} {c : C} (h : Fits m c x s)
    (hs : (∃ e, s = .out (e + 1) ∧ s' = .out e) ∨ ∃ e, s = .inn (e + 2) ∧ s' = .inn (e + 1)) :
    Fits (m.setCpu c { m.cpu c with ncli := (m.cpu c).ncli - 1 }) c x s' := by
  obtain ⟨e, rfl, rfl⟩ | ⟨e, rfl, rfl⟩ := hs
  · cases h with
    | schedOut proc holder ncli => exact .schedOut (by simpa) holder (by simp [ncli])
    | out proc holder ncli state => exact .out (by simpa) holder (by simp [ncli]) state
  · cases h with
    | schedIn proc holder ncli => exact .schedIn (by simpa) holder (by simp [ncli])
    | inn proc holder ncli state => exact .inn (by simpa) holder (by simp [ncli]) state

theorem wp_popcli
    (hs : (∃ e, s = .out (e + 1) ∧ s' = .out e) ∨ ∃ e, s = .inn (e + 2) ∧ s' = .inn (e + 1)) (hQ : Q () ⟨s', mk⟩) :
    (popcli (C := C)).wp Inv start x ⟨s, mk⟩ Q := by
  intro m on γ c h hx hg b m' hf
  have hfit := h.fit hx hg
  have hturn : ∀ p, s ≠ .turn p ∧ s' ≠ .turn p := by
    obtain ⟨e, rfl, rfl⟩ | ⟨e, rfl, rfl⟩ := hs <;> simp
  dsimp only at hf
  split at hf
  · cases hf
  · cases hf
    exact ⟨_, h.quiet hx hg (fun p => (hturn p).1) (fun p => (hturn p).2) (hfit.popcli hs)
      (fun e he => update_of_ne he _ _) (fun _ _ => Iff.rfl) (fun _ => rfl), hQ⟩

theorem wp_acquire_ptable (hQ : Q () ⟨.inn (d + 1), mk⟩) :
    (acquire (C := C) .ptable).wp Inv start x ⟨.out d, mk⟩ Q := by
  refine Code.wp_bind (wp_pushcli ?_)
  intro m on γ c h hx hg b m' hf
  dsimp only at hf
  split at hf
  next hfree =>
    cases hf
    refine ⟨_, h.quiet hx hg (by simp) (s := .inn (d + 1)) (by simp) ?_ (fun _ _ => rfl) (fun e he => ?_)
      (fun _ => rfl), hQ⟩
    · cases h.fit hx hg with
      | schedOut proc holder ncli => exact .schedIn proc (by simp) ncli
      | out proc holder ncli state => exact .inn proc (by simp) ncli state
    · simp [hfree, Ne.symm he]
  next => split at hf <;> cases hf

theorem wp_acquire (hl : l ≠ .ptable) (hQ : Q () ⟨.out (d + 1), mk⟩) :
    (acquire (C := C) l).wp Inv start x ⟨.out d, mk⟩ Q := by
  refine Code.wp_bind (wp_pushcli ?_)
  intro m on γ c h hx hg b m' hf
  dsimp only at hf
  split at hf
  next =>
    cases hf
    have hsame : (m.setHolder l (some c)).holder .ptable = m.holder .ptable := update_of_ne hl.symm _ _
    refine ⟨_, h.quiet hx hg (by simp) (s := .out (d + 1)) (by simp) ?_ (fun _ _ => rfl) (fun e _ => by rw [hsame])
      (fun _ => rfl), hQ⟩
    cases h.fit hx hg with
    | schedOut proc holder ncli => exact .schedOut proc (by rwa [hsame]) ncli
    | out proc holder ncli state => exact .out proc (by rwa [hsame]) ncli state
  next => split at hf <;> cases hf

theorem wp_release_ptable (hQ : Q () ⟨.out d, mk⟩) :
    (release (C := C) .ptable).wp Inv start x ⟨.inn (d + 1), mk⟩ Q := by
  refine Code.wp_bind ?_
  intro m on γ c h hx hg b m' hf
  dsimp only at hf
  split at hf
  next hheld =>
    cases hf
    refine ⟨⟨.out (d + 1), mk⟩, h.quiet hx hg (by simp) (s := .out (d + 1)) (by simp) ?_ (fun _ _ => rfl)
      (fun e he => ?_) (fun _ => rfl), wp_popcli (.inl ⟨d, rfl, rfl⟩) hQ⟩
    · cases h.fit hx hg with
      | schedIn proc holder ncli => exact .schedOut proc (by simp) ncli
      | inn proc holder ncli state => exact .out proc (by simp) ncli state
    · simp [hheld, Ne.symm he]
  next => cases hf

/-- `release` of another lock, with or without `ptable.lock`. -/
theorem wp_release (hl : l ≠ .ptable)
    (hs : (∃ e, s = .out (e + 1) ∧ s' = .out e) ∨ ∃ e, s = .inn (e + 2) ∧ s' = .inn (e + 1)) (hQ : Q () ⟨s', mk⟩) :
    (release (C := C) l).wp Inv start x ⟨s, mk⟩ Q := by
  refine Code.wp_bind ?_
  intro m on γ c h hx hg b m' hf
  have hfit := h.fit hx hg
  have hsame : (m.setHolder l none).holder .ptable = m.holder .ptable := update_of_ne hl.symm _ _
  have hfit' : Fits (m.setHolder l none) c x s := by
    obtain ⟨e, rfl, -⟩ | ⟨e, rfl, -⟩ := hs
    · cases hfit with
      | schedOut proc holder ncli => exact .schedOut proc (by rwa [hsame]) ncli
      | out proc holder ncli state => exact .out proc (by rwa [hsame]) ncli state
    · cases hfit with
      | schedIn proc holder ncli => exact .schedIn proc (by rwa [hsame]) ncli
      | inn proc holder ncli state => exact .inn proc (by rwa [hsame]) ncli state
  have hturn : ∀ p, s ≠ .turn p := by
    obtain ⟨e, rfl, -⟩ | ⟨e, rfl, -⟩ := hs <;> simp
  dsimp only at hf
  split at hf
  · cases hf
    exact ⟨⟨s, mk⟩, h.quiet hx hg hturn hturn hfit' (fun _ _ => rfl) (fun e _ => by rw [hsame]) (fun _ => rfl),
      wp_popcli hs hQ⟩
  · cases hf

/-! ## Switching -/

section

variable {c₀ : C} {Q : Unit → Ghost n → Prop} {ch : Chan n}

/-- A section of a process that uses `proc`. -/
theorem wp_onProc {α : Type} {f : C → Fin n → Mem n C → Outcome (Mem n C) α} {g : Ghost n} {Q : α → Ghost n → Prop}
    (h : ∀ m on γ c, Inv m on γ → on c = .proc p → γ (.proc p) = g → ∀ b m', f c p m = .ok b m' →
      ∃ g', Inv m' on (update γ (.proc p) g') ∧ Q b g') : (onProc f).wp Inv start (.proc p) g Q := by
  intro m on γ c hI hx hg b m' hf
  have hfit := hI.fits c
  rw [hx] at hfit
  dsimp only at hf
  rw [hfit.current] at hf
  exact h m on γ c hI hx hg b m' hf

/-- A section that only uses `proc` to read. -/
theorem wp_onProc_same {α : Type} {f : C → Fin n → Mem n C → Outcome (Mem n C) α} {g : Ghost n}
    {Q : α → Ghost n → Prop} (hsame : ∀ c m b m', f c p m = .ok b m' → m' = m ∧ Q b g) :
    (onProc f).wp Inv start (.proc p) g Q := by
  refine wp_onProc fun m on γ c h _ hg b m' hf => ?_
  obtain ⟨rfl, hQ⟩ := hsame c m b m' hf
  refine ⟨g, ?_, hQ⟩
  rwa [← hg, update_eq_self]

/-- A process that holds `ptable.lock` changes its own state. -/
theorem wp_leave {f : Process n → Process n} {st : ProcState}
    (hf : ∀ y, (f y).state = st) (hrun : st ≠ .running) (hun : st ≠ .unused) (hem : st ≠ .embryo)
    (hQ : Q () ⟨.left, mk⟩) : (setCurrent (C := C) f).wp Inv start (.proc p) ⟨.inn 1, mk⟩ Q := by
  refine wp_onProc fun m on γ c h hx hg b m' hm => ?_
  cases hm
  cases h.fit hx hg with
  | inn proc holder ncli state =>
    have hself : ((m.setProc p (f (m.proc p))).proc p).state = st := by simp [hf]
    have hother : ∀ q, q ≠ p → (m.setProc p (f (m.proc p))).proc q = m.proc q := fun q hq => by simp [hq]
    refine ⟨⟨.left, mk⟩, h.step hx hg (by simp) (.left proc holder ncli ?_ ?_ ?_) ⟨fun _ _ => rfl, fun _ _ => Iff.rfl,
      fun q hq hne => ?_, fun q hq => .inl ?_, by simp, fun hne => absurd holder hne, fun q hq => .inl ?_,
      fun q hq _ => ?_, fun q b hb => ?_⟩, hQ⟩
    · rwa [hself]
    · rwa [hself]
    · rwa [hself]
    · rw [hother q fun he => hne (by rw [he]), hq]
    · by_cases hqp : q = p
      · rw [hqp, hself] at hq
        exact absurd hq hrun
      · rwa [hother q hqp] at hq
    · by_cases hqp : q = p
      · rw [hqp]
        exact .inr (.inr state)
      · rwa [hother q hqp] at hq
    · rw [hother q (by rintro rfl; simp [state] at hq), hq]
    · obtain ⟨hemb, hstage⟩ := h.making _ q b (by rw [hg]; exact hb)
      refine ⟨?_, hstage, .inl ⟨b, hb⟩⟩
      rw [hother q (by rintro rfl; simp [state] at hemb), hemb]

/-- `swtch` to the scheduler. -/
theorem wp_sched (hQ : Q () ⟨.inn 1, mk⟩) : (sched (C := C)).wp Inv start (.proc p) ⟨.left, mk⟩ Q := by
  refine Code.wp_bind (wp_onProc_same fun c m b m' hf => ⟨?_, ?_⟩)
  · split_ifs at hf
    cases hf
    rfl
  · intro m on γ c h hx hg
    cases h.fit hx hg with
    | left proc holder ncli running unused embryo =>
      have hnew : ∀ e, on e ≠ .scheduler c := by
        intro e he
        have hfe := h.fits e
        rw [he] at hfe
        obtain rfl := hfe.scheduler_eq
        rw [hx] at he
        cases he
      refine ⟨by rw [context, proc], hnew, ⟨.inn 1, mk⟩, h.switch hx hnew ?_ ?_ ?_ ?_ ?_ ?_, hQ⟩
      · rw [h.back c (hnew c)]
        exact .back proc holder ncli running
      · rw [hg]
      · rintro q hq
        cases hq
        exact ⟨running, embryo, rfl⟩
      · simp
      · simp [hg]
      · simp

/-- `swtch` to the process that the scheduler has picked. -/
theorem wp_switch_proc (hQ : Q () ⟨.back, mk⟩) :
    (Code.switch (fun c _ => .scheduler c) context (.ret ()) : Kode n C Unit).wp Inv start (.scheduler c₀)
      ⟨.turn p, mk⟩ Q := by
  intro m on γ c h hx hg
  cases h.fit hx hg with
  | turn proc holder ncli state =>
    have hnew : ∀ e, on e ≠ .proc p := h.off c₀ p (by rw [hg])
    have hctx : context c₀ m = .proc p := by rw [context, proc]
    refine ⟨rfl, by rwa [hctx], ⟨.back, mk⟩, ?_, hQ⟩
    rw [hctx]
    refine h.switch hx hnew ?_ ?_ ?_ ?_ ?_ ?_
    · rw [h.ready p hnew (.inr (.inr state))]
      exact .inn proc holder ncli state
    · rw [hg]
    · simp
    · simp
    · rw [hg]
      rintro q ⟨⟩
      rfl
    · -- no other scheduler is about to switch: it would hold the lock
      rintro q e hstage hne -
      by_cases he : on e = .scheduler e
      · have hfe := h.fits e
        rw [he, hstage] at hfe
        cases hfe with
        | turn _ holder' _ _ =>
          rw [holder] at holder'
          exact hne (by rw [Option.some.inj holder'])
      · rw [h.back e he] at hstage
        cases hstage

/-- The process gives up the CPU and gets one again. -/
theorem wp_yield {trace : Bool} (hQ : Q () ⟨.out 0, mk⟩) :
    (yield (C := C) trace).wp Inv start (.proc p) ⟨.out 0, mk⟩ Q := by
  have hrest : (do
      acquire .ptable
      setCurrent fun x => { x with state := .runnable }
      sched
      release .ptable : Kode n C Unit).wp Inv start (.proc p) ⟨.out 0, mk⟩ Q := by
    refine Code.wp_bind (wp_acquire_ptable (Code.wp_bind (wp_leave (fun _ => rfl) ?_ ?_ ?_ ?_)))
    · simp
    · simp
    · simp
    · exact Code.wp_bind (wp_sched (wp_release_ptable hQ))
  rw [yield]
  cases trace with
  | false => exact hrest
  | true =>
    refine Code.wp_bind (Code.wp_bind (wp_acquire (by simp) ?_))
    exact wp_release (by simp) (.inl ⟨0, rfl, rfl⟩) hrest

theorem wp_pick {Q : Bool → Ghost n → Prop} (hno : Q false ⟨.inn 1, mk⟩) (hyes : Q true ⟨.turn p, mk⟩) :
    (pick (C := C) p).wp Inv start (.scheduler c₀) ⟨.inn 1, mk⟩ Q := by
  intro m on γ c h hx hg b m' hf
  have hfit := h.fit hx hg
  dsimp only at hf
  split_ifs at hf with hst
  · cases hf
    refine ⟨⟨.inn 1, mk⟩, ?_, hno⟩
    rwa [← hg, update_eq_self]
  · cases hf
    rw [not_not] at hst
    cases hfit with
    | schedIn proc holder ncli =>
      have hother : ∀ q, q ≠ p → update m.proc p { m.proc p with state := .running } q = m.proc q :=
        fun q hq => update_of_ne hq _ _
      -- a runnable process on a CPU is about to enter the scheduler and holds the lock
      have hoff : ∀ e, on e ≠ .proc p := by
        intro e he
        have hfe := h.fits e
        rw [he] at hfe
        generalize (γ (.proc p)).stage = s at hfe
        cases hfe with
        | out _ _ _ state => simp [hst] at state
        | inn _ _ _ state => simp [hst] at state
        | left _ holder' =>
          rw [holder] at holder'
          obtain rfl := Option.some.inj holder'
          rw [hx] at he
          cases he
      refine ⟨⟨.turn p, mk⟩, h.step hx hg (by simp) (.turn ?_ holder ?_ ?_) ⟨fun e he => ?_, fun _ _ => Iff.rfl,
        fun q hq _ => ?_, fun q hq => ?_, fun q hq => ?_, fun hne => absurd holder hne, fun q hq => .inl ?_,
        fun q hq _ => ?_, fun q b hb => ?_⟩, hyes⟩
      · simp
      · simpa using ncli
      · simp
      · simp [he]
      · by_cases hqp : q = p
        · simp [hqp]
        · simp [hqp, hq]
      · by_cases hqp : q = p
        · exact .inr (by rw [hqp])
        · exact .inl (by simpa [hqp] using hq)
      · cases hq
        exact hoff
      · by_cases hqp : q = p
        · rw [hqp]
          exact .inl hst
        · simpa [hqp] using hq
      · have hqp : q ≠ p := by
          rintro rfl
          simp [hst] at hq
        simp [hqp, hq]
      · obtain ⟨hemb, hstage⟩ := h.making _ q b (by rw [hg]; exact hb)
        have hqp : q ≠ p := by
          rintro rfl
          simp [hst] at hemb
        exact ⟨by simp [hqp, hemb], hstage, .inl ⟨b, hb⟩⟩

theorem wp_clearProc (hQ : Q () ⟨.inn 1, mk⟩) :
    (clearProc (C := C)).wp Inv start (.scheduler c₀) ⟨.back, mk⟩ Q := by
  intro m on γ c h hx hg b m' hf
  cases hf
  cases h.fit hx hg with
  | back proc holder ncli state =>
    refine ⟨⟨.inn 1, mk⟩, h.quiet hx hg (by simp) (by simp) (.schedIn ?_ holder ?_)
      (fun e he => update_of_ne he _ _) (fun _ _ => Iff.rfl) (fun _ => rfl), hQ⟩
    · simp
    · simpa using ncli

/-- The loop of the scheduler, by induction on the slots that are left. -/
theorem wp_scan {ps : List (Fin n)} (hQ : Q () ⟨.inn 1, mk⟩) :
    (scan (C := C) ps).wp Inv start (.scheduler c₀) ⟨.inn 1, mk⟩ Q := by
  induction ps with
  | nil => exact hQ
  | cons p ps ih =>
    refine Code.wp_bind (wp_pick ih ?_)
    exact Code.wp_bind (wp_switch_proc (Code.wp_bind (wp_clearProc ih)))

theorem wp_scheduler (hQ : Q () ⟨.out 0, mk⟩) : (scheduler (C := C)).wp Inv start (.scheduler c₀) ⟨.out 0, mk⟩ Q :=
  Code.wp_bind (wp_acquire_ptable (Code.wp_bind (wp_scan (wp_release_ptable hQ))))

/-! ## `sleep`, `wakeup` and `kill` -/

/-- Under `ptable.lock` a field of `*proc` other than the state changes. -/
theorem wp_setCurrent {f : Process n → Process n} (hf : ∀ y, (f y).state = y.state)
    (hQ : Q () ⟨.inn d, mk⟩) : (setCurrent (C := C) f).wp Inv start (.proc p) ⟨.inn d, mk⟩ Q := by
  refine wp_onProc fun m on γ c h hx hg b m' hm => ?_
  cases hm
  refine ⟨⟨.inn d, mk⟩, h.wakes hx hg rfl fun q => .inl ?_, hQ⟩
  by_cases hq : q = p
  · simp [hq, hf]
  · simp [hq]

theorem wp_sleep_ptable (hQ : Q () ⟨.inn 1, mk⟩) :
    (sleep (C := C) ch .ptable).wp Inv start (.proc p) ⟨.inn 1, mk⟩ Q := by
  refine Code.wp_bind (wp_onProc_same fun c m b m' hf => ⟨?_, ?_⟩)
  · cases hf
    rfl
  · refine Code.wp_bind (wp_leave (fun _ => rfl) ?_ ?_ ?_ ?_)
    · simp
    · simp
    · simp
    · exact Code.wp_bind (wp_sched (Code.wp_bind (wp_setCurrent (fun _ => rfl) hQ)))

theorem wp_sleep (hl : l ≠ .ptable) (hQ : Q () ⟨.out 1, mk⟩) :
    (sleep (C := C) ch l).wp Inv start (.proc p) ⟨.out 1, mk⟩ Q := by
  rw [sleep]
  simp only [ne_eq, hl, not_false_eq_true, if_true]
  refine Code.wp_bind (wp_onProc_same fun c m b m' hf => ⟨?_, ?_⟩)
  · cases hf
    rfl
  · refine Code.wp_bind (wp_acquire_ptable (Code.wp_bind (wp_release hl (.inr ⟨0, rfl, rfl⟩) ?_)))
    refine Code.wp_bind (wp_leave (fun _ => rfl) ?_ ?_ ?_ ?_)
    · simp
    · simp
    · simp
    · refine Code.wp_bind (wp_sched (Code.wp_bind (wp_setCurrent (fun _ => rfl) ?_)))
      exact Code.wp_bind (wp_release_ptable (wp_acquire hl hQ))

theorem wakes_wakeup1 {t : Table n} : Wakes t (t.wakeup1 ch) := by
  intro q
  rw [Table.wakeup1]
  split_ifs with h
  · exact .inr ⟨h.1, rfl⟩
  · exact .inl rfl

theorem wp_wakeup (hQ : Q () ⟨.out d, mk⟩) : (wakeup (C := C) ch).wp Inv start x ⟨.out d, mk⟩ Q := by
  refine Code.wp_bind (wp_acquire_ptable (Code.wp_bind ?_))
  intro m on γ c h hx hg b m' hf
  cases hf
  exact ⟨⟨.inn (d + 1), mk⟩, h.wakes hx hg rfl wakes_wakeup1, wp_release_ptable hQ⟩

theorem wakes_hit {t : Table n} {q : Fin n} : Wakes t (t.hit q) := by
  intro q'
  rcases eq_or_ne q' q with rfl | hq
  · by_cases hs : (t q').state = .sleeping
    · exact .inr ⟨hs, by simp [Table.hit, hs]⟩
    · exact .inl (by simp [Table.hit, hs])
  · exact .inl (by simp [Table.hit, hq])

theorem wp_kill {pid : BitVec 32} {Q : ℤ → Ghost n → Prop} (hQ : ∀ r, Q r ⟨.out d, mk⟩) :
    (kill (C := C) pid).wp Inv start x ⟨.out d, mk⟩ Q := by
  refine Code.wp_bind (wp_acquire_ptable (Code.wp_bind ?_))
  have hrest : ∀ r, ((release .ptable : Kode n C Unit).bind fun _ => .ret r).wp Inv start x ⟨.inn (d + 1), mk⟩ Q :=
    fun r => Code.wp_bind (wp_release_ptable (hQ r))
  intro m on γ c h hx hg b m' hf
  dsimp only at hf
  split at hf
  · cases hf
    exact ⟨⟨.inn (d + 1), mk⟩, h.wakes hx hg rfl wakes_hit, hrest 0⟩
  · cases hf
    refine ⟨⟨.inn (d + 1), mk⟩, ?_, hrest (-1)⟩
    rwa [← hg, update_eq_self]

end

end Xv6.Sched
