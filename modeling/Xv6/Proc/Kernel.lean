import Mathlib.Algebra.Ring.Nat
import Mathlib.Data.List.FinRange
import Xv6.Conc.Prog

/-!
# Locks, the process table, `sleep` and `wakeup`

`spinlock.c` and the part of `proc.c` by which processes wait for each other. The process table has
`n` slots, and what the process in slot `p` runs is a program of process `p`. Every spinlock is part
of the state, with the process that holds it, so that one lock can be handed over under another, as
`sleep` does.

A process that is not on a CPU is one whose next section is `resume`, the half of `sched` that the
scheduler has to enter. The timer may also take a running process off its CPU; since no code
distinguishes `RUNNING` from `RUNNABLE` except the scheduler, and sections of different processes
interleave in any order anyway, this is not modelled.

The field `log` records what has happened, newest first. No branch of the code reads it.
-/

namespace Xv6.Proc

open Conc

-- for the numbers of the processes in runs of two and of three
scoped instance neZero_two : NeZero 2 := ⟨by decide⟩

scoped instance neZero_three : NeZero 3 := ⟨by decide⟩

/-! ## The state -/

/-- `enum procstate`. -/
inductive ProcState where
  | unused
  | embryo
  | sleeping
  | runnable
  | running
  | zombie
  deriving DecidableEq

/-- What a process can sleep on: the addresses used as `chan`. -/
inductive Chan (n : ℕ) where
  | proc (p : Fin n)
  | nread (k : ℕ)
  | nwrite (k : ℕ)
  | input
  | ticks
  | other (a : ℕ)
  deriving DecidableEq

/-- The spinlocks. -/
inductive Lock where
  | ptable
  | pipe (k : ℕ)
  | cons
  | ticks
  | other (a : ℕ)
  deriving DecidableEq

/-- `struct proc`, as far as the functions modelled here use it. -/
structure Process (n : ℕ) where
  state : ProcState
  pid : BitVec 32
  parent : Option (Fin n)
  chan : Option (Chan n)
  killed : Bool

abbrev PIPESIZE : ℕ := 512

/-- `struct pipe` without its lock. -/
structure Pipe where
  data : ℕ → UInt8
  nread : BitVec 32
  nwrite : BitVec 32
  readopen : Bool
  writeopen : Bool

abbrev INPUT_BUF : ℕ := 128

/-- The `input` of the console: read, write and edit index. -/
structure Input where
  buf : ℕ → UInt8
  r : BitVec 32
  w : BitVec 32
  e : BitVec 32

/-- What the locks other than `ptable.lock` protect. -/
structure Data where
  pipe : ℕ → Pipe
  input : Input
  ticks : BitVec 32

/-- What has happened. -/
inductive Event (n : ℕ) where
  /-- `p` has acquired `l`. -/
  | got (p : Fin n) (l : Lock)
  /-- `p` has evaluated its condition, holding `l`, and has to wait on `c`. -/
  | test (p : Fin n) (c : Chan n) (l : Lock)
  /-- `p` is now asleep on `c`. -/
  | slept (p : Fin n) (c : Chan n)
  /-- `p`, which was asleep, can run again. -/
  | ready (p : Fin n)
  /-- `p` has woken up all that slept on `c`. -/
  | woke (p : Fin n) (c : Chan n)
  /-- `p`, which has to wait, has found that it is not killed. -/
  | spared (p : Fin n)
  /-- A `kill` of `pid` has hit slot `t`, which was in state `st`. -/
  | kill (pid : BitVec 32) (t : Fin n) (st : ProcState)
  /-- `p` has put a byte into pipe `k`. -/
  | stored (p : Fin n) (k : ℕ) (b : UInt8)
  /-- `p`, which asked for `m` bytes of pipe `k`, has got `bs`. -/
  | took (p : Fin n) (k : ℕ) (m : ℤ) (bs : List UInt8)
  /-- One end of pipe `k` has been closed. -/
  | shut (k : ℕ) (writable : Bool)
  /-- `p` has found pipe `k` full and stops writing to it. -/
  | gaveUp (p : Fin n) (k : ℕ)
  /-- `allocproc` has taken slot `t`, where `killed` was as given. -/
  | alloc (t : Fin n) (killed : Bool)
  /-- A failing `fork` has given back slot `t`, with `killed` as given. -/
  | freed (t : Fin n) (killed : Bool)
  /-- A `fork` of process `w` has made process `pid`. -/
  | forked (w pid : BitVec 32)
  /-- Process `pid` has exited. -/
  | exited (pid : BitVec 32)
  /-- A `wait` in slot `q`, of process `w`, returns `pid`. -/
  | reaped (q : Fin n) (w pid : BitVec 32)
  deriving DecidableEq

/-- The state all processes share. `ncli` is the depth of `pushcli` on the CPU a process runs on. -/
structure Kernel (n : ℕ) where
  proc : Fin n → Process n
  nextpid : BitVec 32
  holder : Lock → Option (Fin n)
  ncli : Fin n → ℕ
  data : Data
  log : List (Event n)

variable {n : ℕ}

namespace Kernel

@[simps]
def setProc (s : Kernel n) (p : Fin n) (x : Process n) : Kernel n :=
  { s with proc := Function.update s.proc p x }

@[simps]
def setState (s : Kernel n) (p : Fin n) (st : ProcState) : Kernel n :=
  { s with proc := Function.update s.proc p { s.proc p with state := st } }

@[simps]
def setHolder (s : Kernel n) (l : Lock) (h : Option (Fin n)) : Kernel n :=
  { s with holder := Function.update s.holder l h }

@[simps]
def setNcli (s : Kernel n) (p : Fin n) (d : ℕ) : Kernel n :=
  { s with ncli := Function.update s.ncli p d }

@[simps]
def setData (s : Kernel n) (d : Data) : Kernel n := { s with data := d }

@[simps!]
def setPipe (s : Kernel n) (k : ℕ) (x : Pipe) : Kernel n :=
  s.setData { s.data with pipe := Function.update s.data.pipe k x }

@[simps!]
def setInput (s : Kernel n) (x : Input) : Kernel n := s.setData { s.data with input := x }

@[simps]
def note (s : Kernel n) (e : Event n) : Kernel n := { s with log := e :: s.log }

/-- Running processes with the pids `1`, `2` and so on, fresh pipes, and nothing typed yet. -/
def fresh (n : ℕ) : Kernel n where
  proc p := ⟨.running, BitVec.ofNat 32 (p + 1), none, none, false⟩
  nextpid := BitVec.ofNat 32 (n + 1)
  holder _ := none
  ncli _ := 0
  data := ⟨fun _ => ⟨fun _ => 0, 0, 0, true, true⟩, ⟨fun _ => 0, 0, 0, 0⟩, 0⟩
  log := []

end Kernel

/-- All processes are between system calls. -/
def idle (s : Kernel n) : Config (Kernel n) (Fin n) Unit := ⟨s, fun _ => .ret ()⟩

/-! ## `spinlock.c` -/

/-- `acquire`. A process that finds the lock taken spins. -/
def acquire (p : Fin n) (l : Lock) : Prog (Kernel n) Unit :=
  .atomic fun s =>
    match s.holder l with
    | none => .ok () (((s.setNcli p (s.ncli p + 1)).setHolder l (some p)).note (.got p l))
    | some q => if q = p then .fault (.panic "acquire") else .blocked

def release (p : Fin n) (l : Lock) : Prog (Kernel n) Unit :=
  .atomic fun s =>
    if s.holder l = some p then .ok () ((s.setHolder l none).setNcli p (s.ncli p - 1))
    else .fault (.panic "release")

/-! ## `proc.c` -/

/-- The first half of `sched`: leave the CPU to the scheduler, which releases `ptable.lock`. -/
def swtch (p : Fin n) : Prog (Kernel n) Unit :=
  .atomic fun s =>
    if s.holder .ptable ≠ some p then .fault (.panic "sched ptable.lock")
    else if s.ncli p ≠ 1 then .fault (.panic "sched locks")
    else if (s.proc p).state = .running then .fault (.panic "sched running")
    else .ok () ((s.setHolder .ptable none).setNcli p 0)

/-- The second half of `sched`: the scheduler of some CPU has acquired `ptable.lock`, has found `p`
to be runnable and switches to it. -/
def resume (p : Fin n) : Prog (Kernel n) Unit :=
  .atomic fun s =>
    if (s.proc p).state = .runnable ∧ s.holder .ptable = none then
      .ok () ((((s.setState p .running).setHolder .ptable (some p)).setNcli p 1).note (.got p .ptable))
    else .blocked

def sched (p : Fin n) : Prog (Kernel n) Unit := do
  swtch p
  resume p

/-- `proc->chan = chan; proc->state = SLEEPING`. -/
def goToSleep (p : Fin n) (c : Chan n) : Prog (Kernel n) Unit :=
  .modifies fun s =>
    (s.setProc p { s.proc p with chan := some c, state := .sleeping }).note (.slept p c)

/-- `proc->chan = 0`. -/
def tidyUp (p : Fin n) : Prog (Kernel n) Unit :=
  .modifies fun s => s.setProc p { s.proc p with chan := none }

def sleep (p : Fin n) (c : Chan n) (l : Lock) : Prog (Kernel n) Unit :=
  if l ≠ .ptable then do
    acquire p .ptable
    release p l
    goToSleep p c
    sched p
    tidyUp p
    release p .ptable
    acquire p l
  else do
    goToSleep p c
    sched p
    tidyUp p

/-- The processes asleep on `c`. -/
def Kernel.sleepers (s : Kernel n) (c : Chan n) : List (Fin n) :=
  (List.finRange n).filter fun q => (s.proc q).state = .sleeping ∧ (s.proc q).chan = some c

/-- `wakeup1`. -/
@[simps]
def Kernel.wakeup1 (s : Kernel n) (c : Chan n) : Kernel n :=
  { s with
    proc := fun q =>
      if (s.proc q).state = .sleeping ∧ (s.proc q).chan = some c then
        { s.proc q with state := .runnable }
      else s.proc q
    log := (s.sleepers c).map .ready ++ s.log }

/-- A call of `wakeup1` by `p`. -/
def wakeup1 (p : Fin n) (c : Chan n) : Prog (Kernel n) Unit :=
  .modifies fun s => (s.wakeup1 c).note (.woke p c)

def wakeup (p : Fin n) (c : Chan n) : Prog (Kernel n) Unit := do
  acquire p .ptable
  wakeup1 p c
  release p .ptable

/-- What `kill` does to the slot `t` it has found. -/
def Kernel.hit (s : Kernel n) (pid : BitVec 32) (t : Fin n) : Kernel n :=
  let s := s.note (.kill pid t (s.proc t).state)
  if (s.proc t).state = .sleeping then
    (s.setProc t { s.proc t with killed := true, state := .runnable }).note (.ready t)
  else s.setProc t { s.proc t with killed := true }

/-- The loop of `kill`: the first slot with the given pid. -/
def killScan (pid : BitVec 32) : Prog (Kernel n) ℤ :=
  .atomic fun s =>
    match (List.finRange n).find? fun q => (s.proc q).pid = pid with
    | some t => .ok 0 (s.hit pid t)
    | none => .ok (-1) s

def kill (p : Fin n) (pid : BitVec 32) : Prog (Kernel n) ℤ := do
  acquire p .ptable
  let r ← killScan pid
  release p .ptable
  pure r

end Xv6.Proc
