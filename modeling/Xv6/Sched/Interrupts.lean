import Mathlib.Data.Finset.Card

/-!
# Interrupts and nested locks

`pushcli` and `popcli` with the interrupt flag. The flag from before the outermost `pushcli` is kept in the
CPU, and `sched` carries it over when the process moves to another one. Only the order of `acquire`,
`release` and `sched` matters here, so the code of a process is any sequence of these calls.
-/

namespace Xv6.Interrupts

open Function (update update_self update_of_ne)

/-- Where a CPU is between calls: the parts of `acquire` and `release` that other CPUs can tell apart. -/
inductive Doing (L : Type) where
  | none
  /-- in `acquire`, after `pushcli` -/
  | spins (l : L)
  /-- in `release`, before `popcli` -/
  | pops

variable {C P L : Type}

/-- The interrupt flag of a CPU, its `ncli`, `intena` and `proc`; the scheduler runs if there is no process.
The last two are the locks it holds, and where it is. -/
structure Cpu (P L : Type) where
  flag : Bool
  ncli : ℤ := 0
  intena : Bool := false
  proc : Option P := none
  held : Finset L := ∅
  doing : Doing L := .none

def pushcli (x : Cpu P L) : Cpu P L :=
  { x with flag := false, ncli := x.ncli + 1, intena := if x.ncli = 0 then x.flag else x.intena }

def popcli (x : Cpu P L) : Except String (Cpu P L) :=
  if x.flag then throw "popcli - interruptible"
  else if x.ncli - 1 < 0 then throw "popcli"
  else pure { x with ncli := x.ncli - 1, flag := if x.ncli - 1 = 0 ∧ x.intena then true else x.flag }

/-- The CPUs, the CPU that holds a lock, and what a process that has called `sched` keeps in its variable
`intena`. `before` is no variable of the kernel: it is the flag before a process acquired the first of the
locks it holds, if it has acquired one. -/
structure State (C P L : Type) where
  cpu : C → Cpu P L
  holder : L → Option C := fun _ => none
  intena : P → Option Bool := fun _ => none
  before : P → Option Bool := fun _ => none

namespace State

variable [DecidableEq C] [DecidableEq P] [DecidableEq L]

@[simps]
def setCpu (s : State C P L) (c : C) (x : Cpu P L) : State C P L := { s with cpu := Function.update s.cpu c x }

@[simps]
def setHolder (s : State C P L) (l : L) (h : Option C) : State C P L :=
  { s with holder := Function.update s.holder l h }

@[simps]
def setIntena (s : State C P L) (p : P) (b : Option Bool) : State C P L :=
  { s with intena := Function.update s.intena p b }

/-- Note the flag if the process holds no lock. -/
def note (s : State C P L) (c : C) : State C P L :=
  match (s.cpu c).proc with
  | some p => if (s.cpu c).held = ∅ then { s with before := Function.update s.before p (some (s.cpu c).flag) } else s
  | none => s

end State

section

variable [DecidableEq C] [DecidableEq P] [DecidableEq L]

/-- Steps of the system with the lock `ptable`. -/
inductive Step (ptable : L) : State C P L → State C P L → Prop where
  /-- `acquire` of a lock that the CPU does not hold, up to `xchg` -/
  | acquire {s : State C P L} (c : C) (l : L) (hdo : (s.cpu c).doing = .none) (hl : l ∉ (s.cpu c).held) :
      Step ptable s ((s.note c).setCpu c { pushcli (s.cpu c) with doing := .spins l })
  | take {s : State C P L} (c : C) (l : L) (hdo : (s.cpu c).doing = .spins l) (hl : s.holder l = none) :
      Step ptable s ((s.setHolder l (some c)).setCpu c
        { s.cpu c with held := insert l (s.cpu c).held, doing := .none })
  /-- `release` of a lock that the CPU holds, up to `popcli` -/
  | release {s : State C P L} (c : C) (l : L) (hdo : (s.cpu c).doing = .none) (hl : s.holder l = some c) :
      Step ptable s ((s.setHolder l none).setCpu c
        { s.cpu c with held := (s.cpu c).held.erase l, doing := .pops })
  | popcli {s : State C P L} (c : C) {x : Cpu P L} (hdo : (s.cpu c).doing = .pops) (hx : popcli (s.cpu c) = .ok x) :
      Step ptable s (s.setCpu c { x with doing := .none })
  /-- `sched` up to `swtch`; the CPU goes on in its scheduler -/
  | sched {s : State C P L} (c : C) (p : P) (hdo : (s.cpu c).doing = .none) (hp : (s.cpu c).proc = some p)
      (hheld : (s.cpu c).held = {ptable}) :
      Step ptable s ((s.setIntena p (some (s.cpu c).intena)).setCpu c { s.cpu c with proc := none })
  /-- The scheduler of any CPU switches to a process. One that has called `sched` sets `intena`, a new one
  goes to `forkret`. -/
  | resume {s : State C P L} (c : C) (p : P) (hdo : (s.cpu c).doing = .none) (hc : (s.cpu c).proc = none)
      (hheld : (s.cpu c).held = {ptable}) (hoff : ∀ d, (s.cpu d).proc ≠ some p) :
      Step ptable s ((s.setIntena p none).setCpu c
        { s.cpu c with proc := some p, intena := (s.intena p).getD (s.cpu c).intena })
  /-- Without locks a CPU may change the flag: `sti`, `cli`, a trap and its return -/
  | flag {s : State C P L} (c : C) (b : Bool) (hdo : (s.cpu c).doing = .none) (hheld : (s.cpu c).held = ∅) :
      Step ptable s (s.setCpu c { s.cpu c with flag := b })

/-- The CPUs start in their schedulers. -/
def Reachable (ptable : L) (s : State C P L) : Prop :=
  ∃ flag : C → Bool, Relation.ReflTransGen (Step ptable) { cpu := fun c => { flag := flag c } } s

end

/-! ## What holds of one CPU -/

/-- The locks that count for `ncli`: those the CPU holds, and one that it is about to take or has given back. -/
def Cpu.depth (x : Cpu P L) : ℕ :=
  x.held.card + match x.doing with
    | .none => 0
    | _ => 1

structure Cpu.Ok (x : Cpu P L) : Prop where
  ncli : x.ncli = x.depth
  off : 0 < x.ncli → x.flag = false

section

variable {x y : Cpu P L} {l : L}

theorem Cpu.Ok.pushcli (h : x.Ok) (hdo : x.doing = .none) (l : L) : Cpu.Ok { pushcli x with doing := .spins l } := by
  refine ⟨?_, fun _ => rfl⟩
  simp only [Interrupts.pushcli, h.ncli, Cpu.depth, hdo]
  omega

theorem Cpu.Ok.ncli_eq (h : x.Ok) (hdo : x.doing = .none) : x.ncli = x.held.card := by
  simp [h.ncli, Cpu.depth, hdo]

/-- Before `popcli` the count is positive and the flag is off, so neither of its tests fails. The last
`popcli` brings back the flag that `intena` has. -/
theorem Cpu.Ok.popcli (h : x.Ok) (hdo : x.doing = .pops) : ∃ y, Interrupts.popcli x = .ok y ∧
    Cpu.Ok { y with doing := .none } ∧ y.proc = x.proc ∧ y.held = x.held ∧ y.intena = x.intena ∧
      y.ncli = x.ncli - 1 ∧ (x.held = ∅ → y.flag = x.intena) := by
  have hncli : x.ncli = x.held.card + 1 := by
    rw [h.ncli, Cpu.depth, hdo]
    rfl
  have hoff : x.flag = false := h.off (by omega)
  have hpop : Interrupts.popcli x = .ok
      { x with ncli := x.ncli - 1, flag := if x.ncli - 1 = 0 ∧ x.intena then true else x.flag } := by
    rw [Interrupts.popcli, if_neg (by simp [hoff]), if_neg (by omega)]
    rfl
  refine ⟨_, hpop, ⟨?_, ?_⟩, rfl, rfl, rfl, rfl, ?_⟩
  · simp only [Cpu.depth]
    omega
  · intro hpos
    simp only at hpos ⊢
    rw [if_neg (by omega), hoff]
  · intro hheld
    rw [hheld] at hncli
    simp [hncli, hoff]

end

/-! ## What holds of the system -/

structure Inv (s : State C P L) : Prop where
  ok : ∀ c, (s.cpu c).Ok
  holder : ∀ l c, s.holder l = some c ↔ l ∈ (s.cpu c).held
  /-- a CPU in the middle of a process's locks has the flag from before -/
  intena : ∀ c p f, (s.cpu c).proc = some p → 0 < (s.cpu c).ncli → s.before p = some f → (s.cpu c).intena = f
  /-- and so has the process while it does not run -/
  saved : ∀ p b f, s.intena p = some b → s.before p = some f → b = f
  running : ∀ c p, (s.cpu c).proc = some p → s.intena p = none
  fresh : ∀ p, (∀ c, (s.cpu c).proc ≠ some p) → s.intena p = none → s.before p = none
  one : ∀ c d p, (s.cpu c).proc = some p → (s.cpu d).proc = some p → c = d

section

variable {ptable : L} {s s' : State C P L} {c : C}

section Locks

variable [DecidableEq C] {x : Cpu P L}

theorem Inv.holder_update (h : Inv s) (hheld : x.held = (s.cpu c).held) (l : L) (d : C) :
    s.holder l = some d ↔ l ∈ (update s.cpu c x d).held := by
  rcases eq_or_ne d c with rfl | hd
  · rw [update_self, hheld, h.holder]
  · rw [update_of_ne hd, h.holder]

/-- A CPU goes on without a switch. -/
theorem Inv.stays (h : Inv s) {holder : L → Option C} (hproc : x.proc = (s.cpu c).proc) (hok : x.Ok)
    (hholder : ∀ l d, holder l = some d ↔ l ∈ (update s.cpu c x d).held)
    (hintena : ∀ p f, x.proc = some p → 0 < x.ncli → s.before p = some f → x.intena = f) :
    Inv { s with cpu := update s.cpu c x, holder } := by
  have hprocs (d : C) : (update s.cpu c x d).proc = (s.cpu d).proc := by
    rcases eq_or_ne d c with rfl | hd
    · rw [update_self, hproc]
    · rw [update_of_ne hd]
  refine ⟨fun d => ?_, hholder, fun d p f => ?_, h.saved, fun d p => ?_, fun p => ?_, fun d e p => ?_⟩
  · rcases eq_or_ne d c with rfl | hd
    · simpa using hok
    · simpa [hd] using h.ok d
  · rcases eq_or_ne d c with rfl | hd
    · simpa using hintena p f
    · simpa [hd] using h.intena d p f
  · simpa only [hprocs] using h.running d p
  · simpa only [hprocs] using h.fresh p
  · simpa only [hprocs] using h.one d e p

theorem Inv.popcli (h : Inv s) (hdo : (s.cpu c).doing = .pops) (hx : popcli (s.cpu c) = .ok x) :
    Inv (s.setCpu c { x with doing := .none }) := by
  obtain ⟨y, hy, hok, hproc, hheld, hintena, hncli, -⟩ := (h.ok c).popcli hdo
  obtain rfl : x = y := Except.ok.inj (hx.symm.trans hy)
  refine h.stays hproc hok (h.holder_update hheld) fun p f hp hpos hf => ?_
  rw [hintena]
  exact h.intena c p f (hproc ▸ hp) (by simp only at hpos; omega) hf

theorem Inv.flag (h : Inv s) (b : Bool) (hdo : (s.cpu c).doing = .none) (hheld : (s.cpu c).held = ∅) :
    Inv (s.setCpu c { s.cpu c with flag := b }) := by
  have hzero : (s.cpu c).ncli = 0 := by simp [(h.ok c).ncli_eq hdo, hheld]
  exact h.stays rfl ⟨(h.ok c).ncli, fun hpos => absurd hzero hpos.ne'⟩ (h.holder_update rfl) (h.intena c)

variable [DecidableEq L]

/-- The lock `l` goes from nobody to the CPU, or back. -/
theorem Inv.holder_set (h : Inv s) {l : L} {o : Option C} (hself : l ∈ x.held ↔ o = some c)
    (hrest : ∀ l', l' ≠ l → (l' ∈ x.held ↔ l' ∈ (s.cpu c).held))
    (hother : ∀ d, d ≠ c → l ∉ (s.cpu d).held ∧ o ≠ some d) (l' : L) (d : C) :
    update s.holder l o l' = some d ↔ l' ∈ (update s.cpu c x d).held := by
  rcases eq_or_ne l' l with rfl | hl
  · rcases eq_or_ne d c with rfl | hd
    · simp [hself]
    · simp [hd, hother d hd]
  · rcases eq_or_ne d c with rfl | hd
    · simp [hl, hrest, h.holder]
    · simp [hl, hd, h.holder]

theorem Inv.take {l : L} (h : Inv s) (hdo : (s.cpu c).doing = .spins l) (hl : s.holder l = none) :
    Inv ((s.setHolder l (some c)).setCpu c { s.cpu c with held := insert l (s.cpu c).held, doing := .none }) := by
  have hnot (d : C) : l ∉ (s.cpu d).held := fun hmem => by simp [(h.holder l d).mpr hmem] at hl
  have hncli : (s.cpu c).ncli = (s.cpu c).held.card + 1 := by
    rw [(h.ok c).ncli, Cpu.depth, hdo]
    rfl
  refine h.stays rfl ⟨?_, (h.ok c).off⟩ (h.holder_set (by simp) ?_ fun d hd => ?_) (h.intena c)
  · rw [hncli, Cpu.depth, Finset.card_insert_of_notMem (hnot c)]
    rfl
  · exact fun l' hne => by simp [hne]
  · exact ⟨hnot d, fun heq => hd (Option.some_injective _ heq).symm⟩

theorem Inv.release {l : L} (h : Inv s) (hdo : (s.cpu c).doing = .none) (hl : s.holder l = some c) :
    Inv ((s.setHolder l none).setCpu c { s.cpu c with held := (s.cpu c).held.erase l, doing := .pops }) := by
  have hmem : l ∈ (s.cpu c).held := (h.holder l c).mp hl
  refine h.stays rfl ⟨?_, (h.ok c).off⟩ (h.holder_set (by simp) ?_ fun d hd => ?_) (h.intena c)
  · rw [(h.ok c).ncli_eq hdo, Cpu.depth]
    simp [Finset.card_erase_add_one hmem]
  · exact fun l' hne => by simp [hne]
  · rw [← h.holder, hl]
    exact ⟨fun heq => hd (Option.some_injective _ heq).symm, by simp⟩

end Locks

variable [DecidableEq P] [DecidableEq L]

@[simp] theorem State.note_cpu (s : State C P L) (c : C) : (s.note c).cpu = s.cpu := by
  unfold State.note
  split
  · split_ifs <;> rfl
  · rfl

theorem State.note_before {p : P} (hp : (s.cpu c).proc = some p) (hheld : (s.cpu c).held = ∅) :
    (s.note c).before p = some (s.cpu c).flag := by
  simp [State.note, hp, hheld]

theorem Inv.note (h : Inv s) (hdo : (s.cpu c).doing = .none) : Inv (s.note c) := by
  unfold State.note
  split
  case h_2 => exact h
  case h_1 p hp =>
    split_ifs with hheld
    · have hzero : (s.cpu c).ncli = 0 := by simp [(h.ok c).ncli_eq hdo, hheld]
      refine ⟨h.ok, h.holder, fun d q f hq hpos hf => ?_, fun q b f hb hf => ?_, h.running, fun q hq hnone => ?_, h.one⟩
      · rcases eq_or_ne q p with rfl | hne
        · obtain rfl := h.one c d q hp hq
          exact absurd hzero hpos.ne'
        · exact h.intena d q f hq hpos (by simpa [hne] using hf)
      · rcases eq_or_ne q p with rfl | hne
        · simp [h.running c q hp] at hb
        · exact h.saved q b f hb (by simpa [hne] using hf)
      · have hne : q ≠ p := fun hqp => hq c (hqp ▸ hp)
        simpa [hne] using h.fresh q hq hnone
    · exact h

variable [DecidableEq C]

theorem Inv.acquire (h : Inv s) (l : L) (hdo : (s.cpu c).doing = .none) :
    Inv ((s.note c).setCpu c { pushcli (s.cpu c) with doing := .spins l }) := by
  have hnote := h.note hdo
  refine hnote.stays (by simp [pushcli]) ((h.ok c).pushcli hdo l) (hnote.holder_update (by simp [pushcli]))
    fun p f hp _ hf => ?_
  change (if (s.cpu c).ncli = 0 then (s.cpu c).flag else (s.cpu c).intena) = f
  have hcard := (h.ok c).ncli_eq hdo
  split_ifs with hzero
  · -- the first lock: the flag goes to `intena`, and it is noted
    have hheld : (s.cpu c).held = ∅ := by
      rw [← Finset.card_eq_zero]
      omega
    exact Option.some_injective _ ((State.note_before hp hheld).symm.trans hf)
  · have hintena := hnote.intena c p f
    rw [State.note_cpu] at hintena
    exact hintena hp (by omega) hf

omit [DecidableEq L] in
/-- What `sched` saves is the flag from before. -/
theorem Inv.sched {p : P} (h : Inv s) (hdo : (s.cpu c).doing = .none) (hp : (s.cpu c).proc = some p)
    (hheld : (s.cpu c).held = {ptable}) :
    Inv ((s.setIntena p (some (s.cpu c).intena)).setCpu c { s.cpu c with proc := none }) := by
  have hpos : 0 < (s.cpu c).ncli := by simp [(h.ok c).ncli_eq hdo, hheld]
  have hne {d : C} {q : P} (hd : d ≠ c) (hq : (s.cpu d).proc = some q) : q ≠ p := fun heq =>
    hd (h.one d c p (heq ▸ hq) hp)
  refine ⟨fun d => ?_, h.holder_update rfl, fun d q f => ?_, fun q b f => ?_, fun d q => ?_, fun q => ?_,
    fun d e q => ?_⟩
  · rcases eq_or_ne d c with rfl | hd
    · simpa using ⟨(h.ok d).ncli, (h.ok d).off⟩
    · simpa [hd] using h.ok d
  · rcases eq_or_ne d c with rfl | hd
    · simp
    · simpa [hd] using h.intena d q f
  · rcases eq_or_ne q p with rfl | hq
    · simpa using fun hb hf => hb ▸ h.intena c q f hp hpos hf
    · simpa [hq] using h.saved q b f
  · rcases eq_or_ne d c with rfl | hd
    · simp
    · intro hq
      simp only [State.setCpu_cpu, State.setIntena_cpu, State.setCpu_intena, State.setIntena_intena, update_of_ne hd] at hq ⊢
      rw [update_of_ne (hne hd hq), h.running d q hq]
  · intro hoff hnone
    have hqp : q ≠ p := by
      rintro rfl
      simp at hnone
    refine h.fresh q (fun d hd => ?_) (by simpa [hqp] using hnone)
    rcases eq_or_ne d c with rfl | hdc
    · exact hqp (Option.some_injective _ (hd.symm.trans hp))
    · exact hoff d (by simpa [hdc] using hd)
  · rcases eq_or_ne d c with rfl | hd
    · simp
    · rcases eq_or_ne e c with rfl | he
      · simp
      · simpa [hd, he] using h.one d e q

omit [DecidableEq L] in
/-- What `sched` sets is the flag from before, on whatever CPU. -/
theorem Inv.resume {p : P} (h : Inv s) (hc : (s.cpu c).proc = none) (hoff : ∀ d, (s.cpu d).proc ≠ some p) :
    Inv ((s.setIntena p none).setCpu c
      { s.cpu c with proc := some p, intena := (s.intena p).getD (s.cpu c).intena }) := by
  have hne {d : C} {q : P} (hq : (s.cpu d).proc = some q) : q ≠ p := fun heq => hoff d (heq ▸ hq)
  refine ⟨fun d => ?_, h.holder_update rfl, fun d q f => ?_, fun q b f => ?_, fun d q => ?_, fun q => ?_,
    fun d e q => ?_⟩
  · rcases eq_or_ne d c with rfl | hd
    · simpa using ⟨(h.ok d).ncli, (h.ok d).off⟩
    · simpa [hd] using h.ok d
  · rcases eq_or_ne d c with rfl | hd
    · simp only [State.setCpu_cpu, update_self, Option.some_inj]
      rintro rfl - hf
      cases hb : s.intena p with
      | none => simp [h.fresh p hoff hb] at hf
      | some b => exact h.saved p b f hb hf
    · simpa [hd] using h.intena d q f
  · rcases eq_or_ne q p with rfl | hq
    · simp
    · simpa [hq] using h.saved q b f
  · rcases eq_or_ne d c with rfl | hd
    · simp only [State.setCpu_cpu, update_self, Option.some_inj]
      rintro rfl
      exact update_self ..
    · intro hq
      simp only [State.setCpu_cpu, State.setIntena_cpu, State.setCpu_intena, State.setIntena_intena, update_of_ne hd] at hq ⊢
      rw [update_of_ne (hne hq), h.running d q hq]
  · intro hoff' hnone
    have hqp : q ≠ p := fun heq => hoff' c (by simp [heq])
    refine h.fresh q (fun d hd => ?_) (by simpa [hqp] using hnone)
    rcases eq_or_ne d c with rfl | hdc
    · simp [hc] at hd
    · exact hoff' d (by simpa [hdc] using hd)
  · rcases eq_or_ne d c with rfl | hd
    · rcases eq_or_ne e d with rfl | he
      · exact fun _ _ => rfl
      · simp only [State.setCpu_cpu, State.setIntena_cpu, update_self, update_of_ne he, Option.some_inj]
        exact fun heq hq => absurd (heq ▸ hq) (hoff e)
    · rcases eq_or_ne e c with rfl | he
      · simp only [State.setCpu_cpu, State.setIntena_cpu, update_self, update_of_ne hd, Option.some_inj]
        exact fun hq heq => absurd (heq ▸ hq) (hoff d)
      · simpa [hd, he] using h.one d e q

/-! ## Runs -/

theorem Inv.step (h : Inv s) (hstep : Step ptable s s') : Inv s' := by
  cases hstep with
  | acquire c l hdo hl => exact h.acquire l hdo
  | take c l hdo hl => exact h.take hdo hl
  | release c l hdo hl => exact h.release hdo hl
  | popcli c hdo hx => exact h.popcli hdo hx
  | sched c p hdo hp hheld => exact h.sched hdo hp hheld
  | resume c p hdo hc hheld hoff => exact h.resume hc hoff
  | flag c b hdo hheld => exact h.flag b hdo hheld

theorem Reachable.inv (h : Reachable ptable s) : Inv s := by
  obtain ⟨flag, hrun⟩ := h
  induction hrun with
  | refl => exact ⟨fun c => ⟨rfl, by simp⟩, by simp, by simp, by simp, by simp, by simp, by simp⟩
  | tail _ hstep ih => exact ih.step hstep

/-- In every state of every run interrupts are off on a CPU whose `ncli` is positive, `popcli` does not
panic, and when a process has given back its last lock the flag is what it was before the first. -/
theorem interrupts_restored (h : Reachable ptable s) (c : C) :
    (0 < (s.cpu c).ncli → (s.cpu c).flag = false) ∧
    ((s.cpu c).doing = .pops → ∃ x, popcli (s.cpu c) = .ok x ∧
      ((s.cpu c).held = ∅ → ∀ p f, (s.cpu c).proc = some p → s.before p = some f → x.flag = f)) := by
  refine ⟨(h.inv.ok c).off, fun hdo => ?_⟩
  obtain ⟨x, hx, hok, -, -, -, hncli, hflag⟩ := (h.inv.ok c).popcli hdo
  refine ⟨x, hx, fun hheld p f hp hf => ?_⟩
  rw [hflag hheld]
  refine h.inv.intena c p f hp ?_ hf
  simp [(h.inv.ok c).ncli, Cpu.depth, hdo, hheld]

/-- A process that starts on a CPU, turns interrupts on and then takes and gives back a lock has them on
again. -/
theorem interrupts_restored_once : ∃ s : State Unit Unit Unit, Reachable () s ∧ (s.cpu ()).proc = some () ∧
    (s.cpu ()).held = ∅ ∧ s.before () = some true ∧ ∃ x, popcli (s.cpu ()) = .ok x ∧ x.flag = true := by
  have hrun : ∃ s : State Unit Unit Unit, Reachable () s ∧ (s.cpu ()).doing = .pops ∧ (s.cpu ()).proc = some () ∧
      (s.cpu ()).held = ∅ ∧ s.before () = some true := by
    have hstart := Relation.ReflTransGen.refl (r := Step ())
      (a := ({ cpu := fun _ => { flag := true } } : State Unit Unit Unit))
    have hresume := ((hstart.tail (.acquire () () rfl (by simp))).tail (.take () () rfl rfl)).tail
      (.resume () () rfl rfl rfl (by simp [pushcli]))
    have hflag := ((hresume.tail (.release () () rfl rfl)).tail (.popcli () rfl rfl)).tail (.flag () true rfl rfl)
    have hlock := ((hflag.tail (.acquire () () rfl (by simp))).tail (.take () () rfl rfl)).tail
      (.release () () rfl rfl)
    exact ⟨_, ⟨fun _ => true, hlock⟩, rfl, rfl, rfl, rfl⟩
  obtain ⟨s, hs, hdo, hp, hheld, hbefore⟩ := hrun
  obtain ⟨x, hx, hflag⟩ := (interrupts_restored hs ()).2 hdo
  exact ⟨s, hs, hp, hheld, hbefore, x, hx, hflag hheld () true hp hbefore⟩

end

end Xv6.Interrupts
