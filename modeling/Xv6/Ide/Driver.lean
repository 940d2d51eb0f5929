import Mathlib.Algebra.Order.Group.Nat
import Mathlib.Data.Fintype.Card
import Xv6.Lib.Chain

/-!
# The disk drivers

`ide.c` keeps a queue of buffers, linked through `qnext`, whose first element is the request that the
hardware is at. Everything between `acquire(&idelock)` and `release(&idelock)`, or a `sleep` that gives
the lock up, is one step. `memide.c` does each request at once, in memory.

The contents of a block are of any type, since they are only moved as a whole.
-/

namespace Xv6.Ide

open Lib

abbrev FSSIZE : ℕ := 1000

/-- `struct buf`, without the pointers. -/
structure Buf (α : Type) where
  busy : Bool
  valid : Bool
  dirty : Bool
  dev : ℕ
  blockno : ℕ
  data : α

/-- `(b->flags & (B_VALID|B_DIRTY)) == B_VALID` -/
def Buf.ready {α : Type} (b : Buf α) : Bool := b.valid && !b.dirty

/-- The registers of the controller, and the data of a write command. -/
structure Task (α : Type) where
  count : ℕ
  lo : ℕ
  mid : ℕ
  hi : ℕ
  drive : ℕ
  write : Option α

/-- The sector that the registers name. -/
def Task.sector {α : Type} (t : Task α) : ℕ := t.lo + t.mid * 2 ^ 8 + t.hi * 2 ^ 16 + t.drive % 2 ^ 4 * 2 ^ 24

/-- The disk that the registers name. -/
def Task.disk {α : Type} (t : Task α) : ℕ := t.drive / 2 ^ 4 % 2

/-- What the hardware is at; `data` is what it has read. -/
inductive Hw (α : Type)
  | idle
  | working (t : Task α)
  | done (t : Task α) (data : α)

structure State (Pid Bid α : Type) where
  buf : Bid → Buf α
  qnext : Bid → Option Bid
  idequeue : Option Bid
  havedisk1 : Bool
  hw : Hw α
  disk : ℕ → ℕ → α
  /-- The buffer for which the process is inside `iderw`. -/
  inside : Pid → Option Bid
  /-- The channel on which the process sleeps there. -/
  chan : Pid → Option Bid

/-- The number of sectors in a block, `BSIZE/SECTOR_SIZE`. -/
abbrev SECTORS : ℕ := 1

/-- What `idestart` tells the hardware. -/
def task {α : Type} (b : Buf α) : Task α :=
  let sector := b.blockno * SECTORS
  { count := SECTORS
    lo := sector % 2 ^ 8
    mid := sector / 2 ^ 8 % 2 ^ 8
    hi := sector / 2 ^ 16 % 2 ^ 8
    drive := 0xE0 + b.dev % 2 * 2 ^ 4 + sector / 2 ^ 24 % 2 ^ 4
    write := if b.dirty then some b.data else none }

namespace State

variable {Pid Bid α : Type} [DecidableEq Pid] [DecidableEq Bid] [Fintype Bid]

/-- The hardware does what it was told. -/
def work (s : State Pid Bid α) : State Pid Bid α :=
  match s.hw with
  | .working t =>
    match t.write with
    | some d =>
      { s with disk := Function.update s.disk t.disk (Function.update (s.disk t.disk) t.sector d), hw := .done t d }
    | none => { s with hw := .done t (s.disk t.disk t.sector) }
  | _ => s

/-- `idestart`; `idewait` lets the hardware come to an end before it is told something new. -/
def idestart (s : State Pid Bid α) : Option Bid → Except String (State Pid Bid α)
  | none => .error "idestart"
  | some b =>
    if (s.buf b).blockno ≥ FSSIZE then .error "incorrect blockno"
    else .ok { s.work with hw := .working (task (s.buf b)) }

/-- `wakeup(b)` -/
def wakeup (s : State Pid Bid α) (b : Bid) : State Pid Bid α :=
  { s with chan := fun p => if s.chan p = some b then none else s.chan p }

/-- `ideintr` -/
def ideintr (s : State Pid Bid α) : Except String (State Pid Bid α) :=
  match s.idequeue with
  | none => .ok s
  | some b =>
    let x := s.buf b
    let data := match s.hw with
      | .done _ d => if x.dirty then x.data else d
      | _ => x.data
    let s := { s with
      idequeue := s.qnext b
      hw := .idle
      buf := Function.update s.buf b { x with data, valid := true, dirty := false } }
    let s := s.wakeup b
    if s.idequeue ≠ none then s.idestart s.idequeue else .ok s

/-- The loop that appends `b` to the queue. -/
def append (s : State Pid Bid α) (b : Bid) : State Pid Bid α :=
  let next := Function.update s.qnext b none
  match s.idequeue with
  | none => { s with qnext := next, idequeue := some b }
  | some a => { s with qnext := Function.update next (lastFrom next (Fintype.card Bid) a) (some b) }

omit [DecidableEq Pid] in
theorem append_spec {s : State Pid Bid α} {q : List Bid} {b : Bid} (hchain : Chain s.qnext s.idequeue q)
    (hnodup : q.Nodup) (hb : b ∉ q) :
    ∃ next, s.append b = { s with qnext := next, idequeue := (q ++ [b]).head? } ∧
      Chain next (q ++ [b]).head? (q ++ [b]) := by
  cases q with
  | nil =>
    have hqueue : s.idequeue = none := hchain
    exact ⟨Function.update s.qnext b none, by simp [append, hqueue], rfl, Function.update_self ..⟩
  | cons a l =>
    have hqueue : s.idequeue = some a := hchain.1
    have hchain' : Chain (Function.update s.qnext b none) (some a) (a :: l) := by
      rw [← hqueue]
      refine hchain.congr fun c hc => Function.update_of_ne ?_ ..
      rintro rfl
      exact hb hc
    have hlen : l.length ≤ Fintype.card Bid :=
      Nat.le_of_succ_le (Nat.le_trans (Nat.le_of_eq rfl) hnodup.length_le_card)
    refine ⟨Function.update (Function.update s.qnext b none) ((a :: l).getLast (List.cons_ne_nil a l)) (some b), ?_, ?_⟩
    · simp only [append, hqueue, hchain'.2.lastFrom_eq hlen, List.cons_append, List.head?_cons]
    · exact hchain'.append hnodup hb (Function.update_self ..)

/-- The loop that waits for the request: return, or sleep. -/
def await (s : State Pid Bid α) (p : Pid) (b : Bid) : State Pid Bid α :=
  if (s.buf b).ready then { s with inside := Function.update s.inside p none }
  else { s with inside := Function.update s.inside p (some b), chan := Function.update s.chan p (some b) }

/-- `iderw`, up to its return or its first `sleep`. -/
def iderw (s : State Pid Bid α) (p : Pid) (b : Bid) : Except String (State Pid Bid α) :=
  if !(s.buf b).busy then .error "iderw: buf not busy"
  else if (s.buf b).ready then .error "iderw: nothing to do"
  else if (s.buf b).dev ≠ 0 ∧ !s.havedisk1 then .error "iderw: ide disk 1 not present"
  else do
    let s := s.append b
    let s ← if s.idequeue = some b then s.idestart (some b) else .ok s
    return s.await p b

end State

/-! ## Steps -/

/-- The steps of the system: calls of `iderw`, a process that goes on after `sleep`, a process that `kill`
wakes up, the hardware, interrupts, and a process that fills a buffer of its own. -/
inductive Label (Pid Bid α : Type)
  | iderw (p : Pid) (b : Bid)
  | resume (p : Pid)
  | kill (p : Pid)
  | hardware
  | intr
  | use (b : Bid) (x : Buf α)

section

variable {Pid Bid α : Type}

/-- The steps that may be taken: calls are made on distinct busy buffers for blocks of disk 1 that are not
up to date, nobody touches the buffer of a call, and the hardware interrupts when it has finished. -/
def Allowed (s : State Pid Bid α) : Label Pid Bid α → Prop
  | .iderw p b => s.inside p = none ∧ (∀ q, s.inside q ≠ some b) ∧ (s.buf b).busy = true ∧
      (s.buf b).ready = false ∧ (s.buf b).dev = 1 ∧ (s.buf b).blockno < FSSIZE
  | .resume p => s.inside p ≠ none ∧ s.chan p = none
  | .kill _ => True
  | .hardware => ∃ t, s.hw = .working t
  | .intr => ∃ t d, s.hw = .done t d
  | .use b _ => ∀ q, s.inside q ≠ some b

variable [DecidableEq Pid] [DecidableEq Bid] [Fintype Bid]

def State.step (s : State Pid Bid α) : Label Pid Bid α → Except String (State Pid Bid α)
  | .iderw p b => s.iderw p b
  | .resume p =>
    match s.inside p with
    | none => .ok s
    | some b => .ok (s.await p b)
  | .kill p => .ok { s with chan := Function.update s.chan p none }
  | .hardware => .ok s.work
  | .intr => s.ideintr
  | .use b x => .ok { s with buf := Function.update s.buf b x }

/-- The steps `ls` lead from `s` to `t`. -/
inductive Run (s : State Pid Bid α) : List (Label Pid Bid α) → State Pid Bid α → Prop
  | nil : Run s [] s
  | snoc {ls : List (Label Pid Bid α)} {l : Label Pid Bid α} {t u : State Pid Bid α} :
      Run s ls t → Allowed t l → t.step l = .ok u → Run s (ls ++ [l]) u

/-- No request, and nobody inside `iderw`. -/
structure Initial (s : State Pid Bid α) : Prop where
  havedisk1 : s.havedisk1 = true
  idequeue : s.idequeue = none
  hw : s.hw = .idle
  inside : ∀ p, s.inside p = none
  chan : ∀ p, s.chan p = none

end

/-! ## The driver in memory -/

structure Mem (Bid α : Type) where
  buf : Bid → Buf α
  memdisk : ℕ → α

namespace Mem

variable {Bid α : Type} [DecidableEq Bid]

/-- `iderw` of `memide.c`. -/
def iderw (disksize : ℕ) (m : Mem Bid α) (b : Bid) : Except String (Mem Bid α) :=
  let x := m.buf b
  if !x.busy then .error "iderw: buf not busy"
  else if x.ready then .error "iderw: nothing to do"
  else if x.dev ≠ 1 then .error "iderw: request not for disk 1"
  else if x.blockno ≥ disksize then .error "iderw: block out of range"
  else if x.dirty then
    .ok { buf := Function.update m.buf b { x with dirty := false, valid := true }
          memdisk := Function.update m.memdisk x.blockno x.data }
  else .ok { m with buf := Function.update m.buf b { x with data := m.memdisk x.blockno, valid := true } }

/-- What is done with the driver: a call of `iderw`, or a process that fills a buffer of its own. -/
inductive Op (Bid α : Type)
  | iderw (b : Bid)
  | use (b : Bid) (x : Buf α)

def op (disksize : ℕ) (m : Mem Bid α) : Op Bid α → Except String (Mem Bid α)
  | .iderw b => m.iderw disksize b
  | .use b x => .ok { m with buf := Function.update m.buf b x }

def run (disksize : ℕ) (m : Mem Bid α) (ops : List (Op Bid α)) : Except String (Mem Bid α) :=
  ops.foldlM (op disksize) m

end Mem

end Xv6.Ide
