import Xv6.Conc.Cpus
import Xv6.Proc.Kernel

/-!
# The scheduler and its CPUs

`proc.c` once more, but below the level of `Xv6.Proc`: here it is CPUs that execute code, spinlocks
belong to CPUs, and `swtch` saves one context and loads another. Every CPU has a context for its
scheduler, every slot of the process table one for its process; the context also names the stack.

An interrupt may arrive on every CPU whose `ncli` is zero. (While a handler runs interrupts are off in
fact; allowing more of them only adds runs.)
-/

namespace Xv6.Sched

open Conc Proc

/-- `struct cpu`: the process that the CPU runs, and the depth of `pushcli`. -/
structure Cpu (n : ℕ) where
  proc : Option (Fin n)
  ncli : ℕ

/-- The process table. -/
abbrev Table (n : ℕ) := Fin n → Process n

structure Mem (n : ℕ) (C : Type) where
  proc : Table n
  nextpid : BitVec 32
  /-- The CPU that holds a lock. -/
  holder : Lock → Option C
  cpu : C → Cpu n

/-- What `swtch` saves and loads: `cpu->scheduler` and `proc->context`. -/
inductive Ctx (n : ℕ) (C : Type) where
  | scheduler (c : C)
  | proc (p : Fin n)
  deriving DecidableEq

variable {n : ℕ} {C : Type} [DecidableEq C]

abbrev Kode (n : ℕ) (C : Type) := Code (Mem n C) C (Ctx n C)

namespace Mem

@[simps]
def setHolder (m : Mem n C) (l : Lock) (h : Option C) : Mem n C :=
  { m with holder := Function.update m.holder l h }

@[simps]
def setCpu (m : Mem n C) (c : C) (x : Cpu n) : Mem n C := { m with cpu := Function.update m.cpu c x }

@[simps]
def setTable (m : Mem n C) (t : Table n) : Mem n C := { m with proc := t }

@[simps!]
def setProc (m : Mem n C) (p : Fin n) (x : Process n) : Mem n C := m.setTable (Function.update m.proc p x)

end Mem

/-- A section that uses `proc`. -/
def onProc {α : Type} (f : C → Fin n → Mem n C → Outcome (Mem n C) α) : Kode n C α :=
  .atomic fun c m =>
    match (m.cpu c).proc with
    | some p => f c p m
    | none => .fault .outOfBounds

/-- A section that changes `*proc`. -/
def setCurrent (f : Process n → Process n) : Kode n C Unit :=
  onProc fun _ p m => .ok () (m.setProc p (f (m.proc p)))

/-! ## `spinlock.c` -/

def pushcli : Kode n C Unit :=
  .modifies fun c m => m.setCpu c { m.cpu c with ncli := (m.cpu c).ncli + 1 }

def popcli : Kode n C Unit :=
  .atomic fun c m =>
    if (m.cpu c).ncli = 0 then .fault (.panic "popcli")
    else .ok () (m.setCpu c { m.cpu c with ncli := (m.cpu c).ncli - 1 })

/-- `acquire` after its `pushcli`. -/
def spin (l : Lock) : Kode n C Unit :=
  .atomic fun c m =>
    match m.holder l with
    | none => .ok () (m.setHolder l (some c))
    | some d => if d = c then .fault (.panic "acquire") else .blocked

def acquire (l : Lock) : Kode n C Unit := do
  pushcli
  spin l

/-- `release` before its `popcli`. -/
def unlock (l : Lock) : Kode n C Unit :=
  .atomic fun c m =>
    if m.holder l = some c then .ok () (m.setHolder l none) else .fault (.panic "release")

def release (l : Lock) : Kode n C Unit := do
  unlock l
  popcli

/-! ## Switching -/

/-- `proc->context`. -/
def context (c : C) (m : Mem n C) : Ctx n C :=
  match (m.cpu c).proc with
  | some p => .proc p
  | none => .scheduler c

/-- The tests of `sched`. -/
def schedTests : Kode n C Unit :=
  onProc fun c p m =>
    if m.holder .ptable ≠ some c then .fault (.panic "sched ptable.lock")
    else if (m.cpu c).ncli ≠ 1 then .fault (.panic "sched locks")
    else if (m.proc p).state = .running then .fault (.panic "sched running")
    else .ok () m

def sched : Kode n C Unit := do
  schedTests
  .switch context (fun c _ => .scheduler c) (.ret ())

/-- `yield`; `trace` is `sched_trace_enabled`, with which it prints. -/
def yield (trace : Bool) : Kode n C Unit := do
  if trace then do
    acquire .cons
    release .cons
  acquire .ptable
  setCurrent fun x => { x with state := .runnable }
  sched
  release .ptable

/-- The body of the scheduler's loop up to `swtch`; the result says whether the slot is runnable. -/
def pick (p : Fin n) : Kode n C Bool :=
  .atomic fun c m =>
    if (m.proc p).state ≠ .runnable then .ok false m
    else .ok true ((m.setCpu c { m.cpu c with proc := some p }).setProc p { m.proc p with state := .running })

/-- `proc = 0`. -/
def clearProc : Kode n C Unit :=
  .modifies fun c m => m.setCpu c { m.cpu c with proc := none }

/-- The scheduler's loop over the table. -/
def scan : List (Fin n) → Kode n C Unit
  | [] => pure ()
  | p :: ps => do
    if ← pick p then do
      .switch (fun c _ => .scheduler c) context (.ret ())
      clearProc
      scan ps
    else scan ps

/-- One round of `scheduler`. -/
def scheduler : Kode n C Unit := do
  acquire .ptable
  scan (List.finRange n)
  release .ptable

/-- A fork child's very first scheduling, without the initialisation that the first one does. -/
def forkret : Kode n C Unit := release .ptable

/-! ## `sleep` and `wakeup` -/

def sleep (ch : Chan n) (l : Lock) : Kode n C Unit := do
  onProc fun _ _ m => .ok () m
  if l ≠ .ptable then do
    acquire .ptable
    release l
  setCurrent fun x => { x with chan := some ch, state := .sleeping }
  sched
  setCurrent fun x => { x with chan := none }
  if l ≠ .ptable then do
    release .ptable
    acquire l

def Table.wakeup1 (t : Table n) (ch : Chan n) : Table n := fun q =>
  if (t q).state = .sleeping ∧ (t q).chan = some ch then { t q with state := .runnable } else t q

def wakeup (ch : Chan n) : Kode n C Unit := do
  acquire .ptable
  .modifies fun _ m => m.setTable (m.proc.wakeup1 ch)
  release .ptable

/-- What `kill` does to the slot it has found. -/
def Table.hit (t : Table n) (q : Fin n) : Table n :=
  Function.update t q { t q with
    killed := true
    state := if (t q).state = .sleeping then .runnable else (t q).state }

def killScan (pid : BitVec 32) : Kode n C ℤ :=
  .atomic fun _ m =>
    match (List.finRange n).find? fun q => (m.proc q).pid = pid with
    | some q => .ok 0 (m.setTable (m.proc.hit q))
    | none => .ok (-1) m

def kill (pid : BitVec 32) : Kode n C ℤ := do
  acquire .ptable
  let r ← killScan pid
  release .ptable
  pure r

/-! ## `fork`, `exit` and `wait` -/

/-- The loop of `allocproc`, and what it does to the slot it has found. -/
def allocScan : Kode n C (Option (Fin n)) :=
  .atomic fun _ m =>
    match (List.finRange n).find? fun q => (m.proc q).state = .unused with
    | none => .ok none m
    | some t => .ok (some t)
        { m.setProc t { m.proc t with state := .embryo, pid := m.nextpid } with nextpid := m.nextpid + 1 }

/-- `p->state = UNUSED`, after the kernel stack has been freed. -/
def giveBack (t : Fin n) : Kode n C Unit :=
  .modifies fun _ m => m.setProc t { m.proc t with state := .unused }

/-- `allocproc`; `kstack` says whether there is a page for the kernel stack. -/
def allocproc (kstack : Bool) : Kode n C (Option (Fin n)) := do
  acquire .ptable
  let r ← allocScan
  release .ptable
  match r with
  | none => pure none
  | some t =>
    if kstack then do
      .spawn (.proc t) (.ret ())
      pure (some t)
    else do
      giveBack t
      pure none

/-- `np->parent = proc`. -/
def setParent (t : Fin n) : Kode n C Unit :=
  onProc fun _ p m => .ok () (m.setProc t { m.proc t with parent := some p })

/-- `np->state = RUNNABLE`. -/
def launch (t : Fin n) : Kode n C Unit :=
  .modifies fun _ m => m.setProc t { m.proc t with state := .runnable }

/-- `fork`; `mem` says whether `copyuvm` succeeds. -/
def fork (kstack mem : Bool) : Kode n C (Option (BitVec 32)) := do
  match ← allocproc kstack with
  | none => pure none
  | some t =>
    if mem then do
      setParent t
      let pid ← .reads fun _ m => (m.proc t).pid
      acquire .ptable
      launch t
      release .ptable
      pure (some pid)
    else do
      giveBack t
      pure none

/-- One step of the loop of `exit` that passes abandoned children to `init`. -/
def Table.adopt (initproc p : Fin n) (t : Table n) (q : Fin n) : Table n :=
  if (t q).parent = some p then
    let t' : Table n := Function.update t q { t q with parent := some initproc }
    if (t q).state = .zombie then t'.wakeup1 (.proc initproc) else t'
  else t

/-- What `exit` does under `ptable.lock` before it becomes a zombie. -/
def Table.exit (initproc p : Fin n) (t : Table n) : Table n :=
  (List.finRange n).foldl (Table.adopt initproc p)
    (match (t p).parent with
    | some q => t.wakeup1 (.proc q)
    | none => t)

/-- `exit`, without the files. -/
def exit (initproc : Fin n) : Kode n C Unit := do
  onProc fun _ p m => if p = initproc then .fault (.panic "init exiting") else .ok () m
  acquire .ptable
  onProc fun _ p m => .ok () (m.setTable (m.proc.exit initproc p))
  setCurrent fun x => { x with state := .zombie }
  sched
  .fail (.panic "zombie exit")

/-- Give back the slot of the child `q`. -/
def Table.reap (t : Table n) (q : Fin n) : Table n :=
  Function.update t q { t q with state := .unused, pid := 0, parent := none, killed := false }

/-- What `wait` finds in the table: a child that it has reaped, no reason to wait, or neither. -/
inductive Found where
  | child (pid : BitVec 32)
  | noPoint
  | later

/-- The loop of `wait` over the table, and the test after it. -/
def waitScan : Kode n C Found :=
  onProc fun _ p m =>
    match (List.finRange n).find? fun q => (m.proc q).parent = some p ∧ (m.proc q).state = .zombie with
    | some q => .ok (.child (m.proc q).pid) (m.setTable (m.proc.reap q))
    | none =>
      if (∀ q, (m.proc q).parent ≠ some p) ∨ (m.proc p).killed then .ok .noPoint m else .ok .later m

/-- `sleep(proc, &ptable.lock)`. -/
def sleepInWait : Kode n C Unit := do
  let p ← onProc fun _ p m => .ok p m
  sleep (.proc p) .ptable

/-- The outer loop of `wait`, with a bound on how often it goes round. -/
def waitFrom : ℕ → Kode n C (Option (BitVec 32))
  | 0 => .atomic fun _ _ => .blocked
  | fuel + 1 => do
    match ← waitScan with
    | .child pid => do
      release .ptable
      pure (some pid)
    | .noPoint => do
      release .ptable
      pure none
    | .later => do
      sleepInWait
      waitFrom fuel

def wait (fuel : ℕ) : Kode n C (Option (BitVec 32)) := do
  acquire .ptable
  waitFrom fuel

/-! ## The system -/

/-- What a process does when it is not interrupted. -/
inductive Call (n : ℕ) where
  | fork (kstack mem : Bool)
  | exit
  | wait (fuel : ℕ)
  | kill (pid : BitVec 32)
  /-- Acquire a lock, sleep on `ch` and release the lock. -/
  | sleep (ch : Chan n) (l : Lock)
  | wakeup (ch : Chan n)

def Call.code (initproc : Fin n) : Call n → Kode n C Unit
  | .fork kstack mem => do
    let _ ← Sched.fork kstack mem
    pure ()
  | .exit => Sched.exit initproc
  | .wait fuel => do
    let _ ← Sched.wait fuel
    pure ()
  | .kill pid => do
    let _ ← Sched.kill pid
    pure ()
  | .sleep ch l => do
    acquire l
    Sched.sleep ch l
    release l
  | .wakeup ch => Sched.wakeup ch

/-- `proc && proc->state == RUNNING`. -/
def Mem.runs (m : Mem n C) (c : C) : Bool :=
  match (m.cpu c).proc with
  | some p => (m.proc p).state = .running
  | none => false

/-- A device interrupt in `trap`: the device wakes up who waits for it, and the timer makes the process
yield. -/
def trap (chans : List (Chan n)) (timer trace : Bool) : Kode n C Unit :=
  match chans with
  | [] => do
    let running ← .reads fun c m => m.runs c
    if running ∧ timer then yield trace else pure ()
  | ch :: chans => do
    wakeup ch
    trap chans timer trace

def system (initproc : Fin n) : System (Mem n C) C (Ctx n C) where
  entry _ := forkret
  next x k :=
    match x with
    | .scheduler _ => k = scheduler
    | .proc _ => ∃ call : Call n, (∀ ch, call ≠ .sleep ch .ptable) ∧ k = call.code initproc
  handler k := ∃ chans timer trace, k = trap chans timer trace
  enabled c m := (m.cpu c).ncli = 0

/-- The machine after `userinit`, with all CPUs in their schedulers. -/
structure Booted (initproc : Fin n) (M : Machine (Mem n C) C (Ctx n C)) : Prop where
  first : M.mem.proc initproc = ⟨.runnable, 1, none, none, false⟩
  rest : ∀ q, q ≠ initproc → M.mem.proc q = ⟨.unused, 0, none, none, false⟩
  holder : ∀ l, M.mem.holder l = none
  cpu : ∀ c, M.mem.cpu c = ⟨none, 0⟩
  saved : M.saved (.proc initproc) = forkret
  code : ∀ c, M.code c = .ret ()
  on : ∀ c, M.on c = .scheduler c

end Xv6.Sched
