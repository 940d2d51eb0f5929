import Xv6.Ide.Driver

/-!
# Errors of the disk

The driver on a disk that may fail. When the hardware comes to an end, the status register says whether it
has done what it was told; `ideintr` looks at the register before it reads the data, but sets `B_VALID` in
any case. So a buffer that was to be read holds the block afterwards if and only if there was no error, or
it happened to hold the block before.
-/

namespace Xv6.Ide

open Lib

abbrev IDE_DF : UInt8 := 0x20

abbrev IDE_ERR : UInt8 := 0x01

/-- What `idewait` returns when the disk is ready and the status register holds `r`. -/
def idewait (checkerr : Bool) (r : UInt8) : ℤ :=
  if checkerr = true ∧ r &&& (IDE_DF ||| IDE_ERR) ≠ 0 then -1 else 0

/-- The data that `insl` reads. -/
def Hw.port {α : Type} : Hw α → Option α
  | .done _ d => some d
  | _ => none

namespace State

variable {Pid Bid α : Type} [DecidableEq Bid]

/-- `ideintr`, when the status register holds `r`. -/
def ideintrAt (s : State Pid Bid α) (r : UInt8) : Except String (State Pid Bid α) :=
  match s.idequeue with
  | none => .ok s
  | some b =>
    let x := s.buf b
    let data := if !x.dirty ∧ idewait true r ≥ 0 then s.hw.port.getD x.data else x.data
    let s := { s with
      idequeue := s.qnext b
      hw := .idle
      buf := Function.update s.buf b { x with data, valid := true, dirty := false } }
    let s := s.wakeup b
    if s.idequeue ≠ none then s.idestart s.idequeue else .ok s

/-- The hardware comes to an end with the status `r`. If that shows an error, what it has read may be
anything, and so may be what is then in the block that it was to write. -/
def complete (s : State Pid Bid α) (r : UInt8) (d : α) : State Pid Bid α :=
  if idewait true r ≥ 0 then s.work
  else
    match s.hw with
    | .working t =>
      match t.write with
      | some _ =>
        { s with disk := Function.update s.disk t.disk (Function.update (s.disk t.disk) t.sector d), hw := .done t d }
      | none => { s with hw := .done t d }
    | _ => s

/-- Without an error the interrupt handler is that of the driver on a disk that does not fail. -/
theorem ideintrAt_eq {s : State Pid Bid α} {r : UInt8} (hr : idewait true r ≥ 0) : s.ideintrAt r = s.ideintr := by
  unfold ideintrAt ideintr
  cases s.idequeue with
  | none => rfl
  | some b =>
    cases s.hw <;> cases hdirty : (s.buf b).dirty <;> simp [Hw.port, hdirty, hr]

end State

/-! ## Steps -/

/-- The driver, and what the status register holds. -/
structure Machine (Pid Bid α : Type) where
  state : State Pid Bid α
  status : UInt8

/-- A step of the driver, or the end of what the hardware is at. -/
inductive Event (Pid Bid α : Type)
  | label (l : Label Pid Bid α)
  | complete (r : UInt8) (d : α)

section

variable {Pid Bid α : Type}

/-- The events there may be: the buffer of a call is that call's own, and the hardware interrupts when it
has come to an end. -/
def Event.Allowed (s : State Pid Bid α) : Event Pid Bid α → Prop
  | .label (.iderw p b) => s.inside p = none ∧ ∀ q, s.inside q ≠ some b
  | .label .hardware => False
  | .label l => Ide.Allowed s l
  | .complete _ _ => ∃ t, s.hw = .working t

variable [DecidableEq Pid] [DecidableEq Bid] [Fintype Bid]

def Machine.step (m : Machine Pid Bid α) : Event Pid Bid α → Except String (Machine Pid Bid α)
  | .label .intr => (m.state.ideintrAt m.status).map fun s => { m with state := s }
  | .label l => (m.state.step l).map fun s => { m with state := s }
  | .complete r d => .ok ⟨m.state.complete r d, r⟩

/-- The states after any events from `m` on, as long as nothing panics. -/
inductive Machine.Reach (m : Machine Pid Bid α) : Machine Pid Bid α → Prop
  | refl : Reach m m
  | step {e : Event Pid Bid α} {n n' : Machine Pid Bid α} :
      Reach m n → e.Allowed n.state → n.step e = .ok n' → Reach m n'

end

/-! ## The queue and the hardware -/

/-- The disk that a buffer is for. -/
def Buf.block {α : Type} (x : Buf α) (disk : ℕ → ℕ → α) : α := disk (x.dev % 2) x.blockno

section

variable {Pid Bid α : Type} {m m' : Machine Pid Bid α} {q : List Bid} {b : Bid} {x : Buf α}

/-- The hardware is at the first request of the queue, and without an error it has read its block. -/
def Machine.Serves (m : Machine Pid Bid α) (q : List Bid) : Prop :=
  match m.state.hw with
  | .idle => q = []
  | .working t => ∃ b, q.head? = some b ∧ t = task (m.state.buf b) ∧ (m.state.buf b).blockno < FSSIZE
  | .done t d => ∃ b, q.head? = some b ∧ t = task (m.state.buf b) ∧
      ((m.state.buf b).dirty = false → idewait true m.status ≥ 0 → d = (m.state.buf b).block m.state.disk)

/-- The requests in the queue: each is the call of a process, and not done yet. -/
structure Machine.Queue (m : Machine Pid Bid α) (q : List Bid) : Prop where
  chain : Chain m.state.qnext m.state.idequeue q
  nodup : q.Nodup
  called : ∀ b ∈ q, ∃ p, m.state.inside p = some b
  pending : ∀ b ∈ q, (m.state.buf b).ready = false
  serves : m.Serves q

theorem task_sector (h : x.blockno < FSSIZE) : (task x).sector = x.blockno := by
  simp only [Task.sector, task, SECTORS, FSSIZE] at h ⊢
  omega

theorem task_disk (h : x.blockno < FSSIZE) : (task x).disk = x.dev % 2 := by
  simp only [Task.disk, task, SECTORS, FSSIZE] at h ⊢
  omega

theorem map_eq_ok {ε β γ : Type} {f : β → γ} {x : Except ε β} {c : γ} : x.map f = .ok c ↔ ∃ a, x = .ok a ∧ f a = c := by
  cases x <;> simp [Except.map]

theorem Machine.Queue.initial (hqueue : m.state.idequeue = none) (hhw : m.state.hw = .idle) : m.Queue [] where
  chain := hqueue
  nodup := .nil
  called := nofun
  pending := nofun
  serves := by
    rw [Machine.Serves, hhw]

/-- What the hardware is at depends on the buffers in the queue only. -/
theorem Machine.Serves.congr {q' : List Bid} (h : m.Serves q) (hhw : m'.state.hw = m.state.hw)
    (hdisk : m'.state.disk = m.state.disk) (hstatus : m'.status = m.status) (hnil : q = [] → q' = [])
    (hhead : ∀ b ∈ q.head?, q'.head? = some b) (hbuf : ∀ b ∈ q.head?, m'.state.buf b = m.state.buf b) :
    m'.Serves q' := by
  unfold Machine.Serves at h ⊢
  rw [hhw, hstatus, hdisk]
  split at h
  · exact hnil h
  · obtain ⟨b, hb, ht, hblock⟩ := h
    exact ⟨b, hhead b hb, by rw [hbuf b hb]; exact ht, by rw [hbuf b hb]; exact hblock⟩
  · obtain ⟨b, hb, ht, hd⟩ := h
    exact ⟨b, hhead b hb, by rw [hbuf b hb]; exact ht, by rw [hbuf b hb]; exact hd⟩

theorem complete_working {s : State Pid Bid α} {t : Task α} (hhw : s.hw = .working t) (r : UInt8) (d : α) :
    ∃ disk d', s.complete r d = { s with disk, hw := .done t d' } ∧
      (t.write = none → disk = s.disk ∧ (idewait true r ≥ 0 → d' = s.disk t.disk t.sector)) := by
  unfold State.complete State.work
  simp only [hhw]
  cases hw : t.write with
  | some _ => split_ifs <;> exact ⟨_, _, rfl, (by simp)⟩
  | none =>
    split_ifs with hr
    · exact ⟨s.disk, _, rfl, fun _ => ⟨rfl, fun _ => rfl⟩⟩
    · exact ⟨s.disk, d, rfl, fun _ => ⟨rfl, fun hr' => absurd hr' hr⟩⟩

/-- The hardware has come to an end. -/
theorem Machine.Queue.complete (h : m.Queue q) {t : Task α} (hhw : m.state.hw = .working t) (r : UInt8) (d : α) :
    Machine.Queue ⟨m.state.complete r d, r⟩ q := by
  have hserves := h.serves
  rw [Machine.Serves, hhw] at hserves
  obtain ⟨b, hb, rfl, hblock⟩ := hserves
  obtain ⟨disk, d', heq, hread⟩ := complete_working hhw r d
  rw [heq]
  refine ⟨h.chain, h.nodup, h.called, h.pending, b, hb, rfl, fun hdirty hr => ?_⟩
  have hdirty' : (m.state.buf b).dirty = false := hdirty
  obtain ⟨rfl, hd⟩ := hread (by simp [task, hdirty'])
  rw [hd hr, task_sector hblock, task_disk hblock]
  rfl

/-- The hardware is told about the first request of a queue that is not empty. -/
theorem idestart_ok {s s' : State Pid Bid α} (hok : s.idestart (some b) = .ok s') (hhw : s.hw = .idle) :
    (s.buf b).blockno < FSSIZE ∧ s' = { s with hw := .working (task (s.buf b)) } := by
  rw [State.idestart] at hok
  split_ifs at hok with hblock
  refine ⟨Nat.not_le.mp hblock, ?_⟩
  rw [← Except.ok.inj hok, State.work, hhw]

section

variable [DecidableEq Bid] {s : State Pid Bid α}

/-- The state after the first half of `ideintr`, in which the request for `b` is over. -/
def State.over (s : State Pid Bid α) (r : UInt8) (b : Bid) : State Pid Bid α :=
  { s with
    idequeue := s.qnext b
    hw := .idle
    buf := Function.update s.buf b { s.buf b with
      data := if !(s.buf b).dirty ∧ idewait true r ≥ 0 then s.hw.port.getD (s.buf b).data else (s.buf b).data
      valid := true
      dirty := false }
    chan := fun p => if s.chan p = some b then none else s.chan p }

theorem ideintrAt_cons {r : UInt8} (hb : s.idequeue = some b) :
    s.ideintrAt r = if s.qnext b ≠ none then (s.over r b).idestart (s.qnext b) else .ok (s.over r b) := by
  simp only [State.ideintrAt, hb]
  rfl

/-- The interrupt takes the first request off the queue. -/
theorem Machine.Queue.intr (h : m.Queue (b :: q)) (hok : m.state.ideintrAt m.status = .ok s) :
    ∃ hw, s = { m.state.over m.status b with hw } ∧ Machine.Queue ⟨s, m.status⟩ q := by
  obtain ⟨hb, hq⟩ := List.nodup_cons.mp h.nodup
  rw [ideintrAt_cons h.chain.1] at hok
  -- the other buffers are not touched
  have hbuf : ∀ c ∈ q, (m.state.over m.status b).buf c = m.state.buf c := by
    intro c hc
    refine Function.update_of_ne ?_ ..
    rintro rfl
    exact hb hc
  have hrest : ∀ hw, Machine.Serves ⟨{ m.state.over m.status b with hw }, m.status⟩ q →
      Machine.Queue ⟨{ m.state.over m.status b with hw }, m.status⟩ q := by
    refine fun hw hserves => ⟨h.chain.2, hq, fun c hc => h.called c (List.mem_cons_of_mem _ hc), fun c hc => ?_,
      hserves⟩
    change ((m.state.over m.status b).buf c).ready = false
    rw [hbuf c hc]
    exact h.pending c (List.mem_cons_of_mem _ hc)
  cases q with
  | nil =>
    have hnext : m.state.qnext b = none := h.chain.2
    rw [hnext, if_neg (by simp)] at hok
    obtain rfl := Except.ok.inj hok
    exact ⟨.idle, rfl, hrest .idle rfl⟩
  | cons c q =>
    have hnext : m.state.qnext b = some c := h.chain.2.1
    rw [hnext, if_pos (by simp)] at hok
    obtain ⟨hblock, rfl⟩ := idestart_ok hok rfl
    exact ⟨_, rfl, hrest _ ⟨c, rfl, rfl, hblock⟩⟩

variable [DecidableEq Pid]

omit [DecidableEq Bid] in
/-- A process that goes on returns if its request is done, and sleeps again otherwise. -/
theorem Machine.Queue.await {p : Pid} (h : m.Queue q) (hp : m.state.inside p = some b) :
    Machine.Queue ⟨m.state.await p b, m.status⟩ q := by
  rw [State.await]
  split_ifs with hready
  · refine ⟨h.chain, h.nodup, fun c hc => ?_, h.pending, h.serves.congr rfl rfl rfl id (fun _ h => h) fun _ _ => rfl⟩
    obtain ⟨p', hp'⟩ := h.called c hc
    -- the request of `p` is not in the queue, since it is done
    have hne : p' ≠ p := by
      rintro rfl
      obtain rfl : b = c := Option.some.inj (hp.symm.trans hp')
      exact Bool.false_ne_true ((h.pending b hc).symm.trans hready)
    exact ⟨p', (Function.update_of_ne hne ..).trans hp'⟩
  · rw [← hp, Function.update_eq_self]
    exact ⟨h.chain, h.nodup, h.called, h.pending, h.serves.congr rfl rfl rfl id (fun _ h => h) fun _ _ => rfl⟩

variable [Fintype Bid]

/-- A call puts its request at the end of the queue, and sleeps. -/
theorem Machine.Queue.iderw {p : Pid} (h : m.Queue q) (hp : m.state.inside p = none)
    (hb : ∀ p, m.state.inside p ≠ some b) (hok : m.state.iderw p b = .ok s) :
    Machine.Queue ⟨s, m.status⟩ (q ++ [b]) := by
  have hnew : b ∉ q := fun hmem => by
    obtain ⟨p', hp'⟩ := h.called b hmem
    exact hb p' hp'
  obtain ⟨next, happend, hchain⟩ := State.append_spec h.chain h.nodup hnew
  rw [State.iderw] at hok
  split_ifs at hok with hbusy hready hdev
  rw [happend] at hok
  dsimp only at hok
  -- the request waits in the queue, whatever the hardware is at
  have hrest : ∀ hw, Machine.Serves ⟨{ m.state with hw }, m.status⟩ (q ++ [b]) →
      Machine.Queue ⟨State.await { m.state with qnext := next, idequeue := (q ++ [b]).head?, hw } p b, m.status⟩
        (q ++ [b]) := by
    intro hw hserves
    rw [State.await, if_neg hready]
    refine ⟨hchain, ?_, fun c hc => ?_, fun c hc => ?_, hserves.congr rfl rfl rfl id (fun _ h => h) fun _ _ => rfl⟩
    · exact List.nodup_append.mpr ⟨h.nodup, List.nodup_singleton b, fun c hc c' hc' heq =>
        hnew (List.mem_singleton.mp hc' ▸ heq ▸ hc)⟩
    · rcases List.mem_append.mp hc with hc | hc
      · obtain ⟨p', hp'⟩ := h.called c hc
        have hne : p' ≠ p := by
          rintro rfl
          exact absurd (hp.symm.trans hp') nofun
        exact ⟨p', (Function.update_of_ne hne ..).trans hp'⟩
      · obtain rfl := List.mem_singleton.mp hc
        exact ⟨p, Function.update_self ..⟩
    · rcases List.mem_append.mp hc with hc | hc
      · exact h.pending c hc
      · obtain rfl := List.mem_singleton.mp hc
        exact Bool.eq_false_iff.mpr hready
  cases q with
  | nil =>
    have hidle : m.state.hw = .idle := by
      have hserves := h.serves
      unfold Machine.Serves at hserves
      split at hserves
      · assumption
      · obtain ⟨c, hc, -⟩ := hserves
        cases hc
      · obtain ⟨c, hc, -⟩ := hserves
        cases hc
    simp only [List.nil_append, List.head?_cons, if_true] at hok
    cases hstart : State.idestart { m.state with qnext := next, idequeue := some b } (some b) with
    | error e =>
      rw [hstart] at hok
      cases hok
    | ok s' =>
      rw [hstart] at hok
      obtain ⟨hblock, rfl⟩ := idestart_ok hstart hidle
      obtain rfl := Except.ok.inj hok
      exact hrest _ ⟨b, rfl, rfl, hblock⟩
  | cons a l =>
    have hnot : (a :: l ++ [b]).head? ≠ some b := fun heq => hnew (Option.some.inj heq ▸ List.mem_cons_self)
    rw [if_neg hnot] at hok
    obtain rfl := Except.ok.inj hok
    exact hrest m.state.hw (h.serves.congr rfl rfl rfl nofun (fun _ h => h) fun _ _ => rfl)

/-- The requests after one event. -/
theorem Machine.Queue.step {e : Event Pid Bid α} (h : m.Queue q) (he : e.Allowed m.state) (hstep : m.step e = .ok m') :
    ∃ q', m'.Queue q' := by
  cases e with
  | complete r d =>
    obtain ⟨t, ht⟩ := he
    obtain rfl := Except.ok.inj hstep
    exact ⟨q, h.complete ht r d⟩
  | label l =>
    cases l with
    | hardware => exact he.elim
    | iderw p b =>
      obtain ⟨s, hs, rfl⟩ := map_eq_ok.mp hstep
      exact ⟨q ++ [b], h.iderw he.1 he.2 hs⟩
    | resume p =>
      obtain ⟨b, hb⟩ := Option.ne_none_iff_exists'.mp he.1
      obtain ⟨s, hs, rfl⟩ := map_eq_ok.mp hstep
      rw [State.step, hb] at hs
      obtain rfl := Except.ok.inj hs
      exact ⟨q, h.await hb⟩
    | kill p =>
      obtain rfl := Except.ok.inj hstep
      exact ⟨q, h.chain, h.nodup, h.called, h.pending, h.serves.congr rfl rfl rfl id (fun _ h => h) fun _ _ => rfl⟩
    | intr =>
      obtain ⟨s, hs, rfl⟩ := map_eq_ok.mp hstep
      cases q with
      | nil =>
        rw [State.ideintrAt, show m.state.idequeue = none from h.chain] at hs
        obtain rfl := Except.ok.inj hs
        exact ⟨[], h⟩
      | cons b q =>
        obtain ⟨-, -, h'⟩ := h.intr hs
        exact ⟨q, h'⟩
    | use b x =>
      obtain rfl := Except.ok.inj hstep
      have hsame : ∀ c ∈ q, Function.update m.state.buf b x c = m.state.buf c := by
        intro c hc
        refine Function.update_of_ne ?_ ..
        rintro rfl
        obtain ⟨p, hp⟩ := h.called c hc
        exact he p hp
      refine ⟨q, h.chain, h.nodup, h.called, fun c hc => ?_, ?_⟩
      · change (Function.update m.state.buf b x c).ready = false
        rw [hsame c hc]
        exact h.pending c hc
      · exact h.serves.congr rfl rfl rfl id (fun _ h => h) fun c hc => hsame c (List.mem_of_mem_head? hc)

theorem Machine.Reach.queue (hqueue : m.state.idequeue = none) (hhw : m.state.hw = .idle) (h : m.Reach m') :
    ∃ q, m'.Queue q := by
  induction h with
  | refl => exact ⟨[], .initial hqueue hhw⟩
  | step _ he hstep ih =>
    obtain ⟨q, hq⟩ := ih
    exact hq.step he hstep

end

end

/-- One process and one buffer, which holds something else and is to be read. -/
def recycled : Machine Unit Unit ℕ where
  state :=
    { buf := fun _ => ⟨true, false, false, 1, 7, 42⟩
      qnext := fun _ => none
      idequeue := none
      havedisk1 := true
      hw := .idle
      disk := fun _ _ => 0
      inside := fun _ => none
      chan := fun _ => none }
  status := 0x40

/-- The disk has come to an end with the status `r`. -/
theorem reach_recycled (r : UInt8) : ∃ m, recycled.Reach m ∧ (Event.label .intr).Allowed m.state ∧ m.status = r ∧
    m.state.idequeue = some () ∧ (m.state.buf ()).dirty = false ∧ (m.state.buf ()).data = 42 ∧
    (m.state.buf ()).block m.state.disk = 0 ∧ ∃ m', m.step (.label .intr) = .ok m' := by
  have h₁ := Machine.Reach.refl.step (m := recycled) (e := .label (.iderw () ())) ⟨rfl, nofun⟩ rfl
  have h₂ := h₁.step (e := .complete r 13) ⟨_, rfl⟩ rfl
  refine ⟨_, h₂, ?_⟩
  by_cases hr : idewait true r ≥ 0
  · simp only [State.complete, if_pos hr]
    exact ⟨⟨_, _, rfl⟩, trivial, rfl, rfl, rfl, rfl, _, rfl⟩
  · simp only [State.complete, if_neg hr]
    exact ⟨⟨_, _, rfl⟩, trivial, rfl, rfl, rfl, rfl, _, rfl⟩

end Xv6.Ide
