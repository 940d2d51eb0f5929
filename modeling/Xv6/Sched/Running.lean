import Xv6.Sched.Rules

/-!
# A running process is on one CPU

The rules for `fork`, `exit` and `wait`, and what follows for every machine that can be reached.
-/

namespace Xv6.Sched

open Conc Proc
open Function (update update_self update_of_ne update_eq_self)

variable {n : ℕ} {C : Type} [DecidableEq C] {x : Ctx n C} {p t : Fin n} {d : ℕ} {initproc : Fin n}
  {Q : Unit → Ghost n → Prop}

/-! ## `fork` -/

theorem wp_allocScan {Q : Option (Fin n) → Ghost n → Prop} (hnone : Q none ⟨.inn d, none⟩)
    (hsome : ∀ t, Q (some t) ⟨.inn d, some (t, false)⟩) : (allocScan (C := C)).wp Inv start x ⟨.inn d, none⟩ Q := by
  intro m on γ c h hx hg b m' hf
  have hfit := h.fit hx hg
  dsimp only at hf
  split at hf
  · cases hf
    refine ⟨⟨.inn d, none⟩, ?_, hnone⟩
    rwa [← hg, update_eq_self]
  next t ht =>
    cases hf
    have hun : (m.proc t).state = .unused := by simpa using List.find?_some ht
    have hother : ∀ q, (m.proc q).state ≠ .unused → q ≠ t := by
      rintro q hq rfl
      exact hq hun
    have hheld := hfit.holder_of_inn
    refine ⟨⟨.inn d, some (t, false)⟩, h.step hx hg (by simp) ?_ ⟨fun _ _ => rfl, fun _ _ => Iff.rfl,
      fun q hq _ => ?_, fun q hq => .inl ?_, by simp, fun hne => absurd hheld hne, fun q hq => .inl ?_,
      fun q hq _ => ?_, fun q b hb => ?_⟩, hsome t⟩
    · cases hfit with
      | schedIn proc holder ncli => exact .schedIn proc holder ncli
      | @inn q _ proc holder ncli state => exact .inn proc holder ncli (by simp [hother q (by simp [state]), state])
    · simp [hother q (by simp [hq]), hq]
    · by_cases hqt : q = t
      · simp [hqt] at hq
      · simpa [hqt] using hq
    · by_cases hqt : q = t
      · simp [hqt, Live] at hq
      · simpa [hqt] using hq
    · by_cases hqt : q = t
      · simp [hqt]
      · simp [hqt, hq]
    · cases hb
      exact ⟨by simp, by simp, .inr hun⟩

/-- The slot that `fork` was filling is unused again. -/
theorem wp_giveBack {b : Bool} (hQ : Q () ⟨.out d, none⟩) :
    (giveBack (C := C) t).wp Inv start x ⟨.out d, some (t, b)⟩ Q := by
  intro m on γ c h hx hg b' m' hf
  cases hf
  have hemb : (m.proc t).state = .embryo := (h.making x t b (by rw [hg])).1
  have hother : ∀ q, (m.proc q).state ≠ .embryo → q ≠ t := by
    rintro q hq rfl
    exact hq hemb
  refine ⟨⟨.out d, none⟩, h.step hx hg (by simp) ?_ ⟨fun _ _ => rfl, fun _ _ => Iff.rfl, fun q hq _ => ?_,
    fun q hq => .inl ?_, by simp, fun _ q hq => ?_, fun q hq => .inl ?_, fun q hq hb => ?_, by simp⟩, hQ⟩
  · cases h.fit hx hg with
    | schedOut proc holder ncli => exact .schedOut proc holder ncli
    | @out q _ proc holder ncli state => exact .out proc holder ncli (by simp [hother q (by simp [state]), state])
  · simp [hother q (by simp [hq]), hq]
  · by_cases hqt : q = t
    · simp [hqt] at hq
    · simpa [hqt] using hq
  · simp [hother q hq]
  · by_cases hqt : q = t
    · simp [hqt, Live] at hq
    · simpa [hqt] using hq
  · have hqt : q ≠ t := by
      rintro rfl
      exact hb b rfl
    simp [hqt, hq]

/-- The slot gets a context that begins in `forkret`. -/
theorem wp_spawn (hQ : Q () ⟨.out d, some (t, true)⟩) :
    (Code.spawn (.proc t) (.ret ()) : Kode n C Unit).wp Inv start x ⟨.out d, some (t, false)⟩ Q := by
  intro m on γ c h hx hg
  have hemb : (m.proc t).state = .embryo := (h.making x t false (by rw [hg])).1
  have hoff : ∀ e, on e ≠ .proc t := by
    intro e he
    have hfe := h.fits e
    rw [he] at hfe
    exact hfe.state_ne.2 hemb
  have hxt : x ≠ .proc t := fun he => hoff c (hx.trans he)
  have hstage : ∀ y, y ≠ .proc t → (update (update γ x ⟨.out d, some (t, true)⟩) (.proc t) start
      y).stage = (γ y).stage := by
    intro y hy
    rw [update_of_ne hy]
    by_cases hyx : y = x
    · rw [hyx, update_self, hg]
    · rw [update_of_ne hyx]
  have hmaking : ∀ {y q b}, (update (update γ x ⟨.out d, some (t, true)⟩) (.proc t) start
      y).making = some (q, b) → ∃ b', (γ y).making = some (q, b') ∧ (b → b' ∨ q = t) := by
    intro y q b hy
    by_cases hyt : y = .proc t
    · rw [hyt, update_self] at hy
      cases hy
    · rw [update_of_ne hyt] at hy
      by_cases hyx : y = x
      · rw [hyx, update_self] at hy
        cases hy
        exact ⟨false, by rw [hyx, hg], fun _ => .inr rfl⟩
      · rw [update_of_ne hyx] at hy
        exact ⟨b, hy, .inl⟩
  refine ⟨hoff, ⟨.out d, some (t, true)⟩, ⟨h.inj, fun e => ?_, fun q hq => ?_, fun e q he => ?_, fun e he => ?_,
    fun q hq hlive => ?_, fun y q b hy => ?_, fun y z q b b' hy hz => ?_⟩, hQ⟩
  · rw [hstage _ (hoff e)]
    exact h.fits e
  · refine (h.running q hq).imp_right ?_
    rintro ⟨e, he, hturn⟩
    exact ⟨e, he, by rw [hstage _ (by simp), hturn]⟩
  · rw [hstage _ (by simp)] at he
    exact h.off e q he
  · rw [hstage _ (by simp)]
    exact h.back e he
  · by_cases hqt : q = t
    · rw [hqt, update_self]
      rfl
    · rw [hstage _ (by simpa using hqt)]
      exact h.ready q hq hlive
  · obtain ⟨b', hb', himp⟩ := hmaking hy
    obtain ⟨hemb', hst⟩ := h.making y q b' hb'
    refine ⟨hemb', fun hb => ?_⟩
    by_cases hqt : q = t
    · rw [hqt, update_self]
      rfl
    · rw [hstage _ (by simpa using hqt)]
      exact hst ((himp hb).resolve_right hqt)
  · obtain ⟨b₁, hb₁, -⟩ := hmaking hy
    obtain ⟨b₂, hb₂, -⟩ := hmaking hz
    exact h.sole y z q b₁ b₂ hb₁ hb₂

theorem wp_allocproc {kstack : Bool} {Q : Option (Fin n) → Ghost n → Prop} (hnone : Q none ⟨.out d, none⟩)
    (hsome : ∀ t, Q (some t) ⟨.out d, some (t, true)⟩) :
    (allocproc (C := C) kstack).wp Inv start x ⟨.out d, none⟩ Q := by
  refine Code.wp_bind (wp_acquire_ptable (Code.wp_bind (wp_allocScan ?_ fun t => ?_)))
  · exact Code.wp_bind (wp_release_ptable hnone)
  · refine Code.wp_bind (wp_release_ptable ?_)
    cases kstack with
    | true => exact Code.wp_bind (wp_spawn (hsome t))
    | false => exact Code.wp_bind (wp_giveBack hnone)

theorem wp_setParent {mk : Option (Fin n × Bool)} (hQ : Q () ⟨.out d, mk⟩) :
    (setParent (C := C) t).wp Inv start (.proc p) ⟨.out d, mk⟩ Q := by
  refine wp_onProc fun m on γ c h hx hg b m' hm => ?_
  cases hm
  have hstate : ∀ q, ((m.setProc t { m.proc t with parent := some p }).proc q).state = (m.proc q).state := by
    intro q
    by_cases hq : q = t
    · simp [hq]
    · simp [hq]
  cases h.fit hx hg with
  | out proc holder ncli state =>
    exact ⟨⟨.out d, mk⟩, h.quiet hx hg (by simp) (by simp) (.out proc holder ncli ((hstate p).trans state))
      (fun _ _ => rfl) (fun _ _ => Iff.rfl) hstate, hQ⟩

/-- The new process may be scheduled from now on. -/
theorem wp_launch (hQ : Q () ⟨.inn d, none⟩) : (launch (C := C) t).wp Inv start x ⟨.inn d, some (t, true)⟩ Q := by
  intro m on γ c h hx hg b' m' hf
  cases hf
  obtain ⟨hemb, hready⟩ := h.making x t true (by rw [hg])
  have hfit := h.fit hx hg
  have hheld := hfit.holder_of_inn
  have hother : ∀ q, (m.proc q).state ≠ .embryo → q ≠ t := by
    rintro q hq rfl
    exact hq hemb
  refine ⟨⟨.inn d, none⟩, h.step hx hg (by simp) ?_ ⟨fun _ _ => rfl, fun _ _ => Iff.rfl, fun q hq _ => ?_,
    fun q hq => .inl ?_, by simp, fun hne => absurd hheld hne, fun q hq => ?_, fun q hq hb => ?_, by simp⟩, hQ⟩
  · cases hfit with
    | schedIn proc holder ncli => exact .schedIn proc holder ncli
    | @inn q _ proc holder ncli state => exact .inn proc holder ncli (by simp [hother q (by simp [state]), state])
  · simp [hother q (by simp [hq]), hq]
  · by_cases hqt : q = t
    · simp [hqt] at hq
    · simpa [hqt] using hq
  · by_cases hqt : q = t
    · exact .inr (hqt ▸ hready rfl)
    · exact .inl (by simpa [hqt] using hq)
  · have hqt : q ≠ t := by
      rintro rfl
      exact hb true rfl
    simp [hqt, hq]

theorem wp_fork {kstack mem : Bool} {Q : Option (BitVec 32) → Ghost n → Prop} (hQ : ∀ r, Q r ⟨.out 0, none⟩) :
    (fork (C := C) kstack mem).wp Inv start (.proc p) ⟨.out 0, none⟩ Q := by
  refine Code.wp_bind (wp_allocproc (hQ none) fun t => ?_)
  cases mem with
  | false => exact Code.wp_bind (wp_giveBack (hQ none))
  | true =>
    refine Code.wp_bind (wp_setParent (Code.wp_bind (Code.wp_reads fun m on γ c _ _ _ => ?_)))
    exact Code.wp_bind (wp_acquire_ptable (Code.wp_bind (wp_launch (Code.wp_bind (wp_release_ptable (hQ _))))))

/-! ## `exit` and `wait` -/

theorem wakes_adopt {t : Table n} {q : Fin n} : Wakes t (t.adopt initproc p q) := by
  rw [Table.adopt]
  have hparent : Wakes t (update t q { t q with parent := some initproc }) := by
    intro q'
    by_cases hq : q' = q
    · exact .inl (by simp [hq])
    · exact .inl (by simp [hq])
  split_ifs
  · exact hparent.trans wakes_wakeup1
  · exact hparent
  · exact .refl t

theorem wakes_exit {t : Table n} : Wakes t (t.exit initproc p) := by
  have hloop : ∀ (qs : List (Fin n)) (t : Table n), Wakes t (qs.foldl (Table.adopt initproc p) t) := by
    intro qs
    induction qs with
    | nil => exact fun t => .refl t
    | cons q qs ih => exact fun t => wakes_adopt.trans (ih _)
  rw [Table.exit]
  refine Wakes.trans ?_ (hloop _ _)
  split
  · exact wakes_wakeup1
  · exact .refl t

theorem wp_exit : (exit (C := C) initproc).wp Inv start (.proc p) ⟨.out 0, none⟩ Q := by
  refine Code.wp_bind (wp_onProc_same fun c m b m' hf => ⟨?_, ?_⟩)
  · split_ifs at hf
    cases hf
    rfl
  · refine Code.wp_bind (wp_acquire_ptable (Code.wp_bind (wp_onProc fun m on γ c h hx hg b m' hf => ?_)))
    cases hf
    refine ⟨⟨.inn 1, none⟩, h.wakes hx hg rfl wakes_exit, Code.wp_bind (wp_leave (fun _ => rfl) ?_ ?_ ?_ ?_)⟩
    · simp
    · simp
    · simp
    · exact Code.wp_bind (wp_sched Code.wp_fail)

/-- `wait` frees the slot of a zombie. -/
theorem wp_waitScan {Q : Found → Ghost n → Prop} (hQ : ∀ r, Q r ⟨.inn d, none⟩) :
    (waitScan (C := C)).wp Inv start (.proc p) ⟨.inn d, none⟩ Q := by
  refine wp_onProc fun m on γ c h hx hg b m' hf => ?_
  have hfit := h.fit hx hg
  have hheld := hfit.holder_of_inn
  have hsame : Inv m on (update γ (.proc p) ⟨.inn d, none⟩) := by rwa [← hg, update_eq_self]
  split at hf
  next q hq =>
    cases hf
    have hz : (m.proc q).state = .zombie := by
      have := List.find?_some hq
      simp only [decide_eq_true_eq] at this
      exact this.2
    have hother : ∀ q', (m.proc q').state ≠ .zombie → q' ≠ q := by
      rintro q' hq' rfl
      exact hq' hz
    refine ⟨⟨.inn d, none⟩, h.step hx hg (by simp) ?_ ⟨fun _ _ => rfl, fun _ _ => Iff.rfl, fun q' hq' _ => ?_,
      fun q' hq' => .inl ?_, by simp, fun hne => absurd hheld hne, fun q' hq' => .inl ?_, fun q' hq' _ => ?_,
      by simp⟩, hQ _⟩
    · cases hfit with
      | inn proc holder ncli state =>
        exact .inn proc holder ncli (by simp [Table.reap, hother p (by simp [state]), state])
    · simp [Table.reap, hother q' (by simp [hq']), hq']
    · by_cases hqq : q' = q
      · simp [Table.reap, hqq] at hq'
      · simpa [Table.reap, hqq] using hq'
    · by_cases hqq : q' = q
      · simp [Table.reap, hqq, Live] at hq'
      · simpa [Table.reap, hqq] using hq'
    · simp [Table.reap, hother q' (by simp [hq']), hq']
  next =>
    split_ifs at hf
    · cases hf
      exact ⟨_, hsame, hQ _⟩
    · cases hf
      exact ⟨_, hsame, hQ _⟩

theorem wp_waitFrom {fuel : ℕ} {Q : Option (BitVec 32) → Ghost n → Prop} (hQ : ∀ r, Q r ⟨.out 0, none⟩) :
    (waitFrom (C := C) fuel).wp Inv start (.proc p) ⟨.inn 1, none⟩ Q := by
  induction fuel with
  | zero =>
    intro m on γ c _ _ _ b m' hf
    cases hf
  | succ fuel ih =>
    refine Code.wp_bind (wp_waitScan fun r => ?_)
    cases r with
    | child pid => exact Code.wp_bind (wp_release_ptable (hQ _))
    | noPoint => exact Code.wp_bind (wp_release_ptable (hQ _))
    | later =>
      refine Code.wp_bind (Code.wp_bind (wp_onProc_same fun c m b m' hf => ⟨?_, ?_⟩))
      · cases hf
        rfl
      · exact wp_sleep_ptable ih

theorem wp_wait {fuel : ℕ} {Q : Option (BitVec 32) → Ghost n → Prop} (hQ : ∀ r, Q r ⟨.out 0, none⟩) :
    (wait (C := C) fuel).wp Inv start (.proc p) ⟨.out 0, none⟩ Q :=
  Code.wp_bind (wp_acquire_ptable (wp_waitFrom hQ))

/-! ## The system -/

/-- Code that is at its end. -/
def AtRest (_ : Ctx n C) (g : Ghost n) : Prop := g = ⟨.out 0, none⟩ ∨ g = ⟨.dead, none⟩

theorem wp_call {call : Call n} (hcall : ∀ ch, call ≠ .sleep ch .ptable)
    (hQ : Q () ⟨.out 0, none⟩) : (call.code (C := C) initproc).wp Inv start (.proc p) ⟨.out 0, none⟩ Q := by
  cases call with
  | fork kstack mem => exact Code.wp_bind (wp_fork fun _ => hQ)
  | exit => exact wp_exit
  | wait fuel => exact Code.wp_bind (wp_wait fun _ => hQ)
  | kill pid => exact Code.wp_bind (wp_kill fun _ => hQ)
  | sleep ch l =>
    have hl : l ≠ .ptable := by
      rintro rfl
      exact hcall ch rfl
    refine Code.wp_bind (wp_acquire hl (Code.wp_bind (wp_sleep hl ?_)))
    exact wp_release hl (.inl ⟨0, rfl, rfl⟩) hQ
  | wakeup ch => exact wp_wakeup hQ

/-- An interrupt leaves the code that it interrupts where it stands. -/
theorem wp_trap {chans : List (Chan n)} {timer trace : Bool} {mk : Option (Fin n × Bool)}
    (hQ : Q () ⟨.out 0, mk⟩) :
    (trap (C := C) chans timer trace).wp Inv start x ⟨.out 0, mk⟩ Q := by
  induction chans with
  | nil =>
    refine Code.wp_bind (Code.wp_reads fun m on γ c h hx hg => ?_)
    split_ifs with hyields
    · cases h.fit hx hg with
      | schedOut proc holder ncli => simp [Mem.runs, proc] at hyields
      | out proc holder ncli state => exact wp_yield hQ
    · exact hQ
  | cons ch chans ih => exact Code.wp_bind (wp_wakeup ih)

theorem sound_system : (system (C := C) initproc).Sound Inv start AtRest where
  entry x := wp_release_ptable (.inl rfl)
  next m on γ c k h hrest hk := by
    have hfit := h.fits c
    generalize hx : on c = x at hfit hrest hk ⊢
    obtain hg | hg := hrest
    · rw [hg]
      cases x with
      | scheduler d =>
        obtain rfl : k = scheduler := hk
        exact wp_scheduler (.inl rfl)
      | proc p =>
        obtain ⟨call, hcall, rfl⟩ := hk
        exact wp_call hcall (.inl rfl)
    · rw [hg] at hfit
      cases hfit
  handler m on γ c k h hk henabled := by
    obtain ⟨chans, timer, trace, rfl⟩ := hk
    have hncli : (m.cpu c).ncli = 0 := henabled
    have hfit := h.fits c
    have hstage : (γ (on c)).stage = .out 0 := by
      generalize (γ (on c)).stage = s at hfit ⊢
      generalize on c = x at hfit
      cases hfit with
      | schedOut proc holder ncli => rw [← ncli, hncli]
      | out proc holder ncli state => rw [← ncli, hncli]
      | schedIn proc holder ncli => omega
      | inn proc holder ncli state => omega
      | turn proc holder ncli state => omega
      | back proc holder ncli state => omega
      | left proc holder ncli _ _ _ => omega
    have hg : γ (on c) = ⟨.out 0, (γ (on c)).making⟩ := by rw [← hstage]
    rw [hg]
    exact wp_trap rfl

/-- The first process is ready to run, and the schedulers are between two rounds. -/
def initial (initproc : Fin n) : Ctx n C → Ghost n
  | .scheduler _ => ⟨.out 0, none⟩
  | .proc p => if p = initproc then start else ⟨.dead, none⟩

omit [DecidableEq C] in
theorem initial_making {y : Ctx n C} : (initial initproc y).making = none := by
  cases y with
  | scheduler c => rfl
  | proc p =>
    rw [initial]
    split_ifs <;> rfl

variable {M M' M₀ : Machine (Mem n C) C (Ctx n C)}

theorem Booted.inv (h : Booted initproc M) : Inv M.mem M.on (initial initproc) where
  inj c d hcd := by
    rw [h.on, h.on] at hcd
    cases hcd
    rfl
  fits c := by
    rw [h.on]
    exact .schedOut (by rw [h.cpu]) (by simp [h.holder]) (by rw [h.cpu])
  running p hp := by
    by_cases hpi : p = initproc
    · rw [hpi, h.first] at hp
      cases hp
    · rw [h.rest p hpi] at hp
      cases hp
  off c p hp := by cases hp
  back c hc := absurd (h.on c) hc
  ready p _ hlive := by
    by_cases hpi : p = initproc
    · rw [initial, if_pos hpi]
      rfl
    · rw [h.rest p hpi] at hlive
      simp [Live] at hlive
  making x p b hx := by simp [initial_making] at hx
  sole x y p b b' hx := by simp [initial_making] at hx

/-- A context that cannot be loaded is safe whatever its code is. -/
theorem wp_dead {k : Kode n C Unit} : k.wp Inv start x ⟨.dead, none⟩ fun _ => AtRest x := by
  have hdead : ∀ {m : Mem n C} {on : C → Ctx n C} {γ : Ctx n C → Ghost n} {c : C}, Inv m on γ → on c = x →
      γ x ≠ ⟨.dead, none⟩ := by
    intro m on γ c h hx hg
    have hfit := h.fit hx hg
    cases hfit
  cases k with
  | ret => exact .inr rfl
  | act => exact fun m on γ c h hx hg => absurd hg (hdead h hx)
  | switch => exact fun m on γ c h hx hg => absurd hg (hdead h hx)
  | spawn => exact fun m on γ c h hx hg => absurd hg (hdead h hx)

theorem Booted.holds (h : Booted initproc M) : M.Holds Inv start AtRest (initial initproc) where
  inv := h.inv
  inj := h.inv.inj
  code c := by
    rw [h.code, h.on]
    exact .inl rfl
  saved x hx := by
    cases x with
    | scheduler c => exact absurd (h.on c) (hx c)
    | proc p =>
      rw [initial]
      split_ifs with hp
      · rw [hp, h.saved]
        exact wp_release_ptable (.inl rfl)
      · exact wp_dead

/-- In every machine that can be reached: whenever `ptable.lock` is free, a process is `RUNNING` exactly if
it is the current process of exactly one CPU; and no step frees or allocates a slot while a CPU is on the
slot's kernel stack. -/
theorem running_on_one_cpu (hboot : Booted initproc M₀) (hr : M₀.Reach (system initproc) M) :
    (M.mem.holder .ptable = none → ∀ p, (M.mem.proc p).state = .running ↔ ∃! c, (M.mem.cpu c).proc = some p) ∧
    ∀ M', M.Step (system initproc) M' → ∀ p,
      ¬((M.mem.proc p).state = .unused ↔ (M'.mem.proc p).state = .unused) →
      ∀ c, M.on c ≠ .proc p ∧ M'.on c ≠ .proc p := by
  obtain ⟨γ, h⟩ := hboot.holds.reach sound_system hr
  refine ⟨fun hfree p => h.inv.running_iff hfree, fun M' hstep p hchange c => ?_⟩
  obtain ⟨γ', h'⟩ := h.step sound_system hstep
  obtain hmem | hon := hstep.mem_or_on
  · exact absurd (by rw [hmem]) hchange
  · have hnot : M.on c ≠ .proc p := by
      intro hc
      have hfit := h.inv.fits c
      have hfit' := h'.inv.fits c
      rw [hc] at hfit
      rw [hon, hc] at hfit'
      exact hchange ⟨fun hu => absurd hu hfit.state_ne.1, fun hu => absurd hu hfit'.state_ne.1⟩
    exact ⟨hnot, by rwa [hon]⟩

/-- One CPU and one slot. -/
def small : Machine (Mem 1 Unit) Unit (Ctx 1 Unit) where
  mem := ⟨fun _ => ⟨.runnable, 1, none, none, false⟩, 2, fun _ => none, fun _ => ⟨none, 0⟩⟩
  saved _ := forkret
  code _ := .ret ()
  on c := .scheduler c

theorem booted_small : Booted 0 small where
  first := rfl
  rest q hq := absurd (Subsingleton.elim q 0) hq
  holder _ := rfl
  cpu _ := rfl
  saved := rfl
  code _ := rfl
  on _ := rfl

/-- The scheduler has given the CPU to the only process, and `forkret` has released the lock. -/
theorem running_on_one_cpu_small : ∃ M, small.Reach (system 0) M ∧ M.mem.holder .ptable = none ∧
    (M.mem.proc 0).state = .running ∧ ∃! c, (M.mem.cpu c).proc = some 0 := by
  have hreach : ∃ M, small.Reach (system 0) M ∧ M.mem.holder .ptable = none ∧ (M.mem.proc 0).state = .running := by
    refine ⟨_, .head (.next (c := ()) (k := scheduler) rfl rfl) (.head (.act (c := ()) rfl rfl)
      (.head (.act (c := ()) rfl rfl) (.head (.act (c := ()) rfl rfl) (.head (.switch (c := ()) rfl)
      (.head (.act (c := ()) rfl rfl) (.head (.act (c := ()) rfl rfl) .refl)))))), ?_, ?_⟩
    · rfl
    · rfl
  obtain ⟨M, hM, hfree, hrun⟩ := hreach
  exact ⟨M, hM, hfree, hrun, ((running_on_one_cpu booted_small hM).1 hfree 0).1 hrun⟩

end Xv6.Sched
