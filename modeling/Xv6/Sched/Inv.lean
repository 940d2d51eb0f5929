import Xv6.Sched.Machine

/-!
# Who is on which CPU

The invariant of the machine: for every CPU, what the code on it may rely on, and for every context that
is not on a CPU, in what situation it is to be loaded.
-/

namespace Xv6.Sched

open Proc
open Function (update update_self update_of_ne)

variable {n : ℕ} {C : Type}

/-- Where the code of a context stands. -/
inductive Stage (n : ℕ) where
  /-- There is no process, or one that is never loaded again. -/
  | dead
  /-- It does not hold `ptable.lock`; `ncli` is `d`. -/
  | out (d : ℕ)
  /-- It holds `ptable.lock`; `ncli` is `d`. -/
  | inn (d : ℕ)
  /-- A process that has changed its state and is about to enter the scheduler. -/
  | left
  /-- A scheduler that is about to switch to `p`. -/
  | turn (p : Fin n)
  /-- A scheduler to which a process has switched. -/
  | back

/-- The stage, and the slot that `fork` is filling; it has a context if the flag is set. -/
structure Ghost (n : ℕ) where
  stage : Stage n
  making : Option (Fin n × Bool)

/-- The state of the CPU `c` suits a context at a stage. -/
inductive Fits (m : Mem n C) (c : C) : Ctx n C → Stage n → Prop where
  | schedOut {d : ℕ} (proc : (m.cpu c).proc = none) (holder : m.holder .ptable ≠ some c)
      (ncli : (m.cpu c).ncli = d) : Fits m c (.scheduler c) (.out d)
  | schedIn {d : ℕ} (proc : (m.cpu c).proc = none) (holder : m.holder .ptable = some c)
      (ncli : (m.cpu c).ncli = d + 1) : Fits m c (.scheduler c) (.inn (d + 1))
  | turn {p : Fin n} (proc : (m.cpu c).proc = some p) (holder : m.holder .ptable = some c)
      (ncli : (m.cpu c).ncli = 1) (state : (m.proc p).state = .running) : Fits m c (.scheduler c) (.turn p)
  | back {p : Fin n} (proc : (m.cpu c).proc = some p) (holder : m.holder .ptable = some c)
      (ncli : (m.cpu c).ncli = 1) (state : (m.proc p).state ≠ .running) : Fits m c (.scheduler c) .back
  | out {p : Fin n} {d : ℕ} (proc : (m.cpu c).proc = some p) (holder : m.holder .ptable ≠ some c)
      (ncli : (m.cpu c).ncli = d) (state : (m.proc p).state = .running) : Fits m c (.proc p) (.out d)
  | inn {p : Fin n} {d : ℕ} (proc : (m.cpu c).proc = some p) (holder : m.holder .ptable = some c)
      (ncli : (m.cpu c).ncli = d + 1) (state : (m.proc p).state = .running) : Fits m c (.proc p) (.inn (d + 1))
  | left {p : Fin n} (proc : (m.cpu c).proc = some p) (holder : m.holder .ptable = some c)
      (ncli : (m.cpu c).ncli = 1) (running : (m.proc p).state ≠ .running) (unused : (m.proc p).state ≠ .unused)
      (embryo : (m.proc p).state ≠ .embryo) : Fits m c (.proc p) .left

/-- The states of a process whose context will be loaded. -/
def Live (st : ProcState) : Prop := st = .runnable ∨ st = .sleeping ∨ st = .running

structure Inv (m : Mem n C) (on : C → Ctx n C) (γ : Ctx n C → Ghost n) : Prop where
  inj : Function.Injective on
  fits : ∀ c, Fits m c (on c) (γ (on c)).stage
  running : ∀ p, (m.proc p).state = .running →
    (∃ c, on c = .proc p) ∨ ∃ c, on c = .scheduler c ∧ (γ (.scheduler c)).stage = .turn p
  off : ∀ c p, (γ (.scheduler c)).stage = .turn p → ∀ d, on d ≠ .proc p
  back : ∀ c, on c ≠ .scheduler c → (γ (.scheduler c)).stage = .back
  ready : ∀ p, (∀ c, on c ≠ .proc p) → Live (m.proc p).state → (γ (.proc p)).stage = .inn 1
  making : ∀ x p b, (γ x).making = some (p, b) →
    (m.proc p).state = .embryo ∧ (b → (γ (.proc p)).stage = .inn 1)
  sole : ∀ x y p b b', (γ x).making = some (p, b) → (γ y).making = some (p, b') → x = y

theorem Inv.fit {m : Mem n C} {on : C → Ctx n C} {γ : Ctx n C → Ghost n} (h : Inv m on γ) {c : C} {x : Ctx n C}
    {g : Ghost n} (hx : on c = x) (hg : γ x = g) : Fits m c x g.stage := by
  have hfit := h.fits c
  rwa [hx, hg] at hfit

/-! ## Sections -/

section

variable {m m' : Mem n C} {on : C → Ctx n C} {γ : Ctx n C → Ghost n} {c : C} {x : Ctx n C} {g g' : Ghost n}
  {s : Stage n}

theorem Fits.scheduler_eq {d : C} (h : Fits m c (.scheduler d) s) : d = c := by
  cases h <;> rfl

/-- The slot of a process on a CPU is in use. -/
theorem Fits.state_ne {p : Fin n} (h : Fits m c (.proc p) s) :
    (m.proc p).state ≠ .unused ∧ (m.proc p).state ≠ .embryo := by
  cases h with
  | out _ _ _ state => simp [state]
  | inn _ _ _ state => simp [state]
  | left _ _ _ _ unused embryo => exact ⟨unused, embryo⟩

theorem Fits.current {p : Fin n} (h : Fits m c (.proc p) s) : (m.cpu c).proc = some p := by
  cases h <;> assumption

theorem Fits.holder_of_inn {d : ℕ} (h : Fits m c x (.inn d)) : m.holder .ptable = some c := by
  cases h <;> assumption

/-- What a section of the CPU `c` may do. -/
structure Change (m m' : Mem n C) (on : C → Ctx n C) (γ : Ctx n C → Ghost n) (c : C) (x : Ctx n C) (g g' : Ghost n) :
    Prop where
  cpu : ∀ d ≠ c, m'.cpu d = m.cpu d
  holder : ∀ d ≠ c, m'.holder .ptable = some d ↔ m.holder .ptable = some d
  stays : ∀ q, (m.proc q).state = .running → x ≠ .proc q → (m'.proc q).state = .running
  starts : ∀ q, (m'.proc q).state = .running → (m.proc q).state = .running ∨ g'.stage = .turn q
  turn : ∀ q, g'.stage = .turn q → ∀ d, on d ≠ .proc q
  kept : m.holder .ptable ≠ some c → ∀ q, (m.proc q).state ≠ .embryo → (m'.proc q).state = (m.proc q).state
  born : ∀ q, Live (m'.proc q).state → Live (m.proc q).state ∨ (γ (.proc q)).stage = .inn 1
  embryo : ∀ q, (m.proc q).state = .embryo → (∀ b, g.making ≠ some (q, b)) → (m'.proc q).state = .embryo
  making : ∀ q b, g'.making = some (q, b) → (m'.proc q).state = .embryo ∧ (b → (γ (.proc q)).stage = .inn 1) ∧
    ((∃ b', g.making = some (q, b')) ∨ (m.proc q).state = .unused)

/-- A CPU other than the one that takes a step. -/
theorem Change.fits (hch : Change m m' on γ c x g g') (hfit : Fits m' c x g'.stage) {d : C} (hd : d ≠ c) {y : Ctx n C}
    (hy : y ≠ x) (h : Fits m d y s) : Fits m' d y s := by
  have hcpu := hch.cpu d hd
  have hiff := hch.holder d hd
  cases h with
  | schedOut proc holder ncli => exact .schedOut (by rwa [hcpu]) (by rwa [Ne, hiff]) (by rwa [hcpu])
  | schedIn proc holder ncli => exact .schedIn (by rwa [hcpu]) (hiff.2 holder) (by rwa [hcpu])
  | @turn p proc holder ncli state =>
    refine .turn (by rwa [hcpu]) (hiff.2 holder) (by rwa [hcpu]) ?_
    have hne : m.holder .ptable ≠ some c := by
      rw [holder]
      exact fun he => hd (Option.some.inj he)
    rw [hch.kept hne p (by simp [state]), state]
  | @back p proc holder ncli state =>
    refine .back (by rwa [hcpu]) (hiff.2 holder) (by rwa [hcpu]) fun hrun => ?_
    obtain hold | hturn := hch.starts p hrun
    · exact state hold
    · -- a scheduler at its turn holds the lock
      rw [hturn] at hfit
      cases hfit with
      | turn _ holder' _ _ =>
        rw [hiff.2 holder] at holder'
        exact hd (Option.some.inj holder')
  | @out p _ proc holder ncli state =>
    exact .out (by rwa [hcpu]) (by rwa [Ne, hiff]) (by rwa [hcpu]) (hch.stays p state hy.symm)
  | @inn p _ proc holder ncli state =>
    exact .inn (by rwa [hcpu]) (hiff.2 holder) (by rwa [hcpu]) (hch.stays p state hy.symm)
  | @left p proc holder ncli running unused embryo =>
    have hne : m.holder .ptable ≠ some c := by
      rw [holder]
      exact fun he => hd (Option.some.inj he)
    have hsame := hch.kept hne p embryo
    exact .left (by rwa [hcpu]) (hiff.2 holder) (by rwa [hcpu]) (by rwa [hsame]) (by rwa [hsame]) (by rwa [hsame])

/-- Between critical sections the running processes are those the CPUs run. -/
theorem Inv.running_iff {p : Fin n} (h : Inv m on γ)
    (hfree : m.holder .ptable = none) : (m.proc p).state = .running ↔ ∃! c, (m.cpu c).proc = some p := by
  -- without the lock a CPU with a process is on its context
  have hcurrent : ∀ c, (m.cpu c).proc = some p → on c = .proc p ∧ (m.proc p).state = .running := by
    intro c hc
    have hfit := h.fits c
    generalize (γ (on c)).stage = s at hfit
    generalize on c = x at hfit ⊢
    cases hfit with
    | schedOut proc => simp [proc] at hc
    | out proc holder ncli state =>
      rw [proc] at hc
      cases hc
      exact ⟨rfl, state⟩
    | schedIn _ holder | inn _ holder | turn _ holder | back _ holder | left _ holder => simp [hfree] at holder
  constructor
  · intro hrun
    obtain ⟨c, hc⟩ | ⟨c, hc, hstage⟩ := h.running p hrun
    · have hfit := h.fits c
      rw [hc] at hfit
      exact ⟨c, hfit.current, fun e he => h.inj ((hcurrent e he).1.trans hc.symm)⟩
    · have hfit := h.fits c
      rw [hc, hstage] at hfit
      cases hfit with
      | turn _ holder => simp [hfree] at holder
  · rintro ⟨c, hc, -⟩
    exact (hcurrent c hc).2

variable [DecidableEq C]

theorem Inv.step (h : Inv m on γ) (hx : on c = x) (hg : γ x = g) (hturn : ∀ p, g.stage ≠ .turn p)
    (hfit : Fits m' c x g'.stage) (hch : Change m m' on γ c x g g') : Inv m' on (update γ x g') := by
  have hother : ∀ d, d ≠ c → on d ≠ x := fun d hd he => hd (h.inj (he.trans hx.symm))
  have hfits := h.fit hx hg
  refine ⟨h.inj, fun d => ?_, fun p hp => ?_, fun d p hp => ?_, fun d hd => ?_, fun p hoff hlive => ?_,
    fun y p b hy => ?_, fun y z p b b' hy hz => ?_⟩
  · rcases eq_or_ne d c with rfl | hd
    · rw [hx, update_self]
      exact hfit
    · rw [update_of_ne (hother d hd)]
      exact hch.fits hfit hd (hother d hd) (h.fits d)
  · obtain hold | hnew := hch.starts p hp
    · obtain hon | ⟨d, hd, hstage⟩ := h.running p hold
      · exact .inl hon
      · refine .inr ⟨d, hd, ?_⟩
        rw [update_of_ne, hstage]
        rintro rfl
        rw [hg] at hstage
        exact hturn p hstage
    · rw [hnew] at hfit
      cases hfit
      exact .inr ⟨c, hx, by rw [update_self, hnew]⟩
  · by_cases hd : Ctx.scheduler d = x
    · subst hd
      rw [update_self] at hp
      exact hch.turn p hp
    · rw [update_of_ne hd] at hp
      exact h.off d p hp
  · rw [update_of_ne, h.back d hd]
    rintro rfl
    obtain rfl := hfits.scheduler_eq
    exact hd hx
  · have hne : Ctx.proc p ≠ x := fun he => hoff c (hx.trans he.symm)
    rw [update_of_ne hne]
    exact (hch.born p hlive).elim (h.ready p hoff) id
  · have hp : ∀ {p}, (m.proc p).state = .embryo ∨ (m.proc p).state = .unused → Ctx.proc p ≠ x := by
      rintro p hp rfl
      exact hp.elim hfits.state_ne.2 hfits.state_ne.1
    rcases eq_or_ne y x with rfl | hyx
    · rw [update_self] at hy
      obtain ⟨hemb, hstage, hfrom⟩ := hch.making p b hy
      refine ⟨hemb, ?_⟩
      rw [update_of_ne]
      · exact hstage
      · refine hp (hfrom.imp_left ?_)
        rintro ⟨b', hb'⟩
        exact (h.making _ p b' (hg ▸ hb')).1
    · rw [update_of_ne hyx] at hy
      obtain ⟨hemb, hstage⟩ := h.making y p b hy
      rw [update_of_ne (hp (.inl hemb))]
      exact ⟨hch.embryo p hemb fun b' hb' => hyx (h.sole y x p b b' hy (hg ▸ hb')), hstage⟩
  · -- what one context makes was its own before, or it was unused
    have hcase : ∀ {z b b'}, z ≠ x → (γ z).making = some (p, b) → g'.making ≠ some (p, b') := by
      intro z b b' hzx hz hmk
      obtain ⟨-, -, ⟨b₀, hb₀⟩ | hunused⟩ := hch.making p b' hmk
      · exact hzx (h.sole z x p b b₀ hz (hg ▸ hb₀))
      · rw [(h.making z p b hz).1] at hunused
        cases hunused
    by_cases hyx : y = x <;> by_cases hzx : z = x
    · exact hyx.trans hzx.symm
    · rw [hyx, update_self] at hy
      rw [update_of_ne hzx] at hz
      exact absurd hy (hcase hzx hz)
    · rw [hzx, update_self] at hz
      rw [update_of_ne hyx] at hy
      exact absurd hz (hcase hyx hy)
    · rw [update_of_ne hyx] at hy
      rw [update_of_ne hzx] at hz
      exact h.sole y z p b b' hy hz

/-- A section that changes no state of a process. -/
theorem Inv.quiet (h : Inv m on γ) (hx : on c = x) (hg : γ x = g) (hturn : ∀ p, g.stage ≠ .turn p)
    (hs : ∀ p, s ≠ .turn p) (hfit : Fits m' c x s) (hcpu : ∀ d ≠ c, m'.cpu d = m.cpu d)
    (hholder : ∀ d ≠ c, m'.holder .ptable = some d ↔ m.holder .ptable = some d)
    (hstate : ∀ q, (m'.proc q).state = (m.proc q).state) : Inv m' on (update γ x { g with stage := s }) := by
  refine h.step hx hg hturn hfit ⟨hcpu, hholder, fun q hq _ => ?_, fun q hq => .inl ?_, fun q hq => absurd hq (hs q),
    fun _ q _ => hstate q, fun q hq => .inl ?_, fun q hq _ => ?_, fun q b hb => ?_⟩
  · rw [hstate, hq]
  · rwa [hstate] at hq
  · rwa [hstate] at hq
  · rw [hstate, hq]
  · obtain ⟨hemb, hstage⟩ := h.making x q b (hg ▸ hb)
    exact ⟨by rw [hstate, hemb], hstage, .inl ⟨b, hb⟩⟩

/-- Sleeping processes become runnable. -/
def Wakes (t t' : Table n) : Prop :=
  ∀ q, (t' q).state = (t q).state ∨ ((t q).state = .sleeping ∧ (t' q).state = .runnable)

theorem Wakes.refl (t : Table n) : Wakes t t := fun _ => .inl rfl

theorem Wakes.trans {t₁ t₂ t₃ : Table n} (h : Wakes t₁ t₂) (h' : Wakes t₂ t₃) : Wakes t₁ t₃ := by
  intro q
  obtain h | ⟨h, h₂⟩ := h q <;> obtain h' | ⟨h', h₃⟩ := h' q
  · exact .inl (h'.trans h)
  · exact .inr ⟨h ▸ h', h₃⟩
  · exact .inr ⟨h, h'.trans h₂⟩
  · exact .inr ⟨h, h₃⟩

theorem Wakes.eq {t t' : Table n} (h : Wakes t t') {q : Fin n} (hq : (t q).state ≠ .sleeping) :
    (t' q).state = (t q).state := (h q).elim id fun hs => absurd hs.1 hq

theorem Wakes.running_iff {t t' : Table n} (h : Wakes t t') {q : Fin n} :
    (t' q).state = .running ↔ (t q).state = .running := by
  obtain hq | ⟨hq, hq'⟩ := h q
  · rw [hq]
  · simp [hq, hq']

/-- Under `ptable.lock` sleeping processes become runnable. -/
theorem Inv.wakes (h : Inv m on γ) (hx : on c = x) (hg : γ x = g) {d : ℕ} (hd : g.stage = .inn d) {t : Table n}
    (ht : Wakes m.proc t) : Inv (m.setTable t) on (update γ x g) := by
  have hfit := h.fits c
  rw [hx, hg, hd] at hfit
  have hholder := hfit.holder_of_inn
  have hfit' : Fits (m.setTable t) c x g.stage := by
    rw [hd]
    cases hfit with
    | schedIn proc holder ncli => exact .schedIn proc holder ncli
    | inn proc holder ncli state => exact .inn proc holder ncli (ht.running_iff.2 state)
  refine h.step hx hg (by simp [hd]) hfit' ⟨fun _ _ => rfl, fun _ _ => Iff.rfl, fun q hq _ => ht.running_iff.2 hq,
    fun q hq => .inl (ht.running_iff.1 hq), by simp [hd], fun hne => absurd hholder hne, fun q hq => .inl ?_,
    fun q hq _ => ?_, fun q b hb => ?_⟩
  · obtain hs | ⟨hs, -⟩ := ht q
    · rwa [Mem.setTable_proc, hs] at hq
    · exact .inr (.inl hs)
  · rw [Mem.setTable_proc, ht.eq (by simp [hq]), hq]
  · obtain ⟨hemb, hstage⟩ := h.making x q b (hg ▸ hb)
    refine ⟨?_, hstage, .inl ⟨b, hb⟩⟩
    rw [Mem.setTable_proc, ht.eq (by simp [hemb]), hemb]

/-! ## Switching -/

/-- The CPU `c` saves the context `x` and loads `y`. -/
theorem Inv.switch {y : Ctx n C} (h : Inv m on γ) (hx : on c = x) (hnew : ∀ e, on e ≠ y)
    (hfit : Fits m c y (γ y).stage) (hmk : g'.making = (γ x).making)
    (hproc : ∀ q, x = .proc q → (m.proc q).state ≠ .running ∧ (m.proc q).state ≠ .embryo ∧ g'.stage = .inn 1)
    (hsched : ∀ e, x = .scheduler e → g'.stage = .back) (hturn : ∀ q, (γ x).stage = .turn q → y = .proc q)
    (hoff : ∀ q e, (γ (.scheduler e)).stage = .turn q → .scheduler e ≠ x → y ≠ .proc q) :
    Inv m (update on c y) (update γ x g') := by
  have hother : ∀ e, e ≠ c → on e ≠ x := fun e hne he => hne (h.inj (he.trans hx.symm))
  have hyx : y ≠ x := fun he => hnew c (hx.trans he.symm)
  have hmaking : ∀ z, (update γ x g' z).making = (γ z).making := by
    intro z
    by_cases hz : z = x
    · rw [hz, update_self, hmk]
    · rw [update_of_ne hz]
  refine ⟨fun d e hde => ?_, fun e => ?_, fun q hq => ?_, fun e q hq d => ?_, fun e he => ?_,
    fun q hq hlive => ?_, fun z q b hz => ?_, fun z z' q b b' hz hz' => ?_⟩
  · by_cases hd : d = c <;> by_cases he : e = c
    · rw [hd, he]
    · rw [hd, update_self, update_of_ne he] at hde
      exact absurd hde.symm (hnew e)
    · rw [he, update_self, update_of_ne hd] at hde
      exact absurd hde (hnew d)
    · rw [update_of_ne hd, update_of_ne he] at hde
      exact h.inj hde
  · by_cases he : e = c
    · rw [he, update_self, update_of_ne hyx]
      exact hfit
    · rw [update_of_ne he, update_of_ne (hother e he)]
      exact h.fits e
  · -- a process that runs is not the one that is saved
    obtain ⟨e, he⟩ | ⟨e, he, hstage⟩ := h.running q hq
    · refine .inl ⟨e, ?_⟩
      rw [update_of_ne, he]
      rintro rfl
      exact (hproc q (hx.symm.trans he)).1 hq
    · by_cases hex : .scheduler e = x
      · refine .inl ⟨c, ?_⟩
        rw [update_self]
        exact hturn q (hex ▸ hstage)
      · refine .inr ⟨e, ?_, by rwa [update_of_ne hex]⟩
        rw [update_of_ne, he]
        rintro rfl
        exact hex (he.symm.trans hx)
  · by_cases hex : .scheduler e = x
    · rw [hex, update_self, hsched e hex.symm] at hq
      cases hq
    · rw [update_of_ne hex] at hq
      by_cases hd : d = c
      · rw [hd, update_self]
        exact hoff q e hq hex
      · rw [update_of_ne hd]
        exact h.off e q hq d
  · by_cases hex : .scheduler e = x
    · rw [hex, update_self, hsched e hex.symm]
    · rw [update_of_ne hex]
      refine h.back e fun hon => he ?_
      rw [update_of_ne, hon]
      rintro rfl
      exact hex (hon.symm.trans hx)
  · by_cases hqx : .proc q = x
    · rw [hqx, update_self, (hproc q hqx.symm).2.2]
    · rw [update_of_ne hqx]
      refine h.ready q (fun e he => hq e ?_) hlive
      rw [update_of_ne, he]
      rintro rfl
      exact hqx (he.symm.trans hx)
  · rw [hmaking] at hz
    obtain ⟨hemb, hstage⟩ := h.making z q b hz
    refine ⟨hemb, fun hb => ?_⟩
    rw [update_of_ne, hstage hb]
    intro he
    exact (hproc q he.symm).2.1 hemb
  · rw [hmaking] at hz hz'
    exact h.sole z z' q b b' hz hz'

end

end Xv6.Sched
