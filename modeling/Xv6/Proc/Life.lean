import Xv6.Proc.Pipe

/-!
# The life of a process

`allocproc`, `fork`, `exit` and `wait` of `proc.c`, as far as they concern the process table. Whether
there is memory for the kernel stack and for the copy of the address space is an argument of `fork`.
-/

namespace Xv6.Proc

open Conc

variable {n : ℕ}

/-! ## `fork` -/

/-- The loop of `allocproc`, and what it does to the slot it has found. -/
def allocScan : Prog (Kernel n) (Option (Fin n)) :=
  .atomic fun s =>
    match (List.finRange n).find? fun q => (s.proc q).state = .unused with
    | none => .ok none s
    | some t =>
      let s' := s.setProc t { s.proc t with state := .embryo, pid := s.nextpid }
      .ok (some t) ({ s' with nextpid := s.nextpid + 1 }.note (.alloc t (s.proc t).killed))

/-- `p->state = UNUSED` in `allocproc` and `fork`, when memory has run out. -/
def giveBack (t : Fin n) : Prog (Kernel n) Unit :=
  .modifies fun s => (s.setState t .unused).note (.freed t (s.proc t).killed)

/-- `allocproc`; `kstack` says whether there is a page for the kernel stack. -/
def allocproc (p : Fin n) (kstack : Bool) : Prog (Kernel n) (Option (Fin n)) := do
  acquire p .ptable
  let r ← allocScan
  release p .ptable
  match r with
  | none => pure none
  | some t =>
    if kstack then pure (some t)
    else do
      giveBack t
      pure none

/-- `np->parent = proc`. -/
def setParent (p t : Fin n) : Prog (Kernel n) Unit :=
  .modifies fun s => s.setProc t { s.proc t with parent := some p }

/-- `np->state = RUNNABLE`. -/
def launch (p t : Fin n) : Prog (Kernel n) Unit :=
  .modifies fun s => (s.setState t .runnable).note (.forked (s.proc p).pid (s.proc t).pid)

/-- `fork`; `mem` says whether `copyuvm` succeeds. The result is the child's pid. -/
def fork (p : Fin n) (kstack mem : Bool) : Prog (Kernel n) (Option (BitVec 32)) := do
  match ← allocproc p kstack with
  | none => pure none
  | some t =>
    if ¬mem then do
      giveBack t
      pure none
    else do
      setParent p t
      let pid ← Prog.reads fun s : Kernel n => (s.proc t).pid
      acquire p .ptable
      launch p t
      release p .ptable
      pure (some pid)

/-! ## `exit` -/

/-- One step of the loop of `exit` that passes abandoned children to `init`. -/
def Kernel.adopt (initproc p : Fin n) (s : Kernel n) (q : Fin n) : Kernel n :=
  if (s.proc q).parent = some p then
    let s' := s.setProc q { s.proc q with parent := some initproc }
    if (s.proc q).state = .zombie then s'.wakeup1 (.proc initproc) else s'
  else s

/-- `wakeup1(proc->parent)`. No process sleeps on address 0. -/
def Kernel.wakeParent (p : Fin n) (s : Kernel n) : Kernel n :=
  match (s.proc p).parent with
  | some q => s.wakeup1 (.proc q)
  | none => s

/-- What `exit` does under `ptable.lock`. -/
def Kernel.exit (initproc p : Fin n) (s : Kernel n) : Kernel n :=
  let s := (List.finRange n).foldl (Kernel.adopt initproc p) (s.wakeParent p)
  (s.setState p .zombie).note (.exited (s.proc p).pid)

/-- `exit`, without the files. The scheduler never comes back to the process. -/
def exit (initproc p : Fin n) : Prog (Kernel n) Unit :=
  if p = initproc then .fail (.panic "init exiting")
  else do
    acquire p .ptable
    .modifies (Kernel.exit initproc p)
    swtch p

/-! ## `wait` -/

/-- What `wait` finds in the table: a child that it has reaped, no reason to wait, or neither. -/
inductive Found where
  | child (pid : BitVec 32)
  | noPoint
  | later

/-- Give back the slot of the child `q`. -/
def Kernel.reap (p q : Fin n) (s : Kernel n) : Kernel n :=
  (s.setProc q { s.proc q with state := .unused, pid := 0, parent := none, killed := false }).note
    (.reaped p (s.proc p).pid (s.proc q).pid)

/-- The loop of `wait` over the table, and the test after it. -/
def waitScan (p : Fin n) : Prog (Kernel n) Found :=
  .atomic fun s =>
    match (List.finRange n).find? fun q => (s.proc q).parent = some p ∧ (s.proc q).state = .zombie with
    | some q => .ok (.child (s.proc q).pid) (s.reap p q)
    | none =>
      if (∀ q, (s.proc q).parent ≠ some p) ∨ (s.proc p).killed then .ok .noPoint s
      else .ok .later s

/-- The outer loop of `wait`, with a bound on how often it goes round. -/
def waitFrom (p : Fin n) : ℕ → Prog (Kernel n) (Option (BitVec 32))
  | 0 => stuck
  | fuel + 1 => do
    match ← waitScan p with
    | .child pid => do
      release p .ptable
      pure (some pid)
    | .noPoint => do
      release p .ptable
      pure none
    | .later => do
      sleep p (.proc p) .ptable
      waitFrom p fuel

def wait (p : Fin n) (fuel : ℕ) : Prog (Kernel n) (Option (BitVec 32)) := do
  acquire p .ptable
  waitFrom p fuel

/-! ## The system -/

/-- What a process may do; `start` is its first scheduling, in `forkret`. -/
inductive Act where
  | start
  | fork (kstack mem : Bool)
  | exit
  | wait (fuel : ℕ)
  | kill (pid : BitVec 32)

/-- `forkret`, entered from the scheduler. -/
def forkret (p : Fin n) : Prog (Kernel n) Unit := do
  resume p
  release p .ptable

def act (initproc p : Fin n) : Act → Prog (Kernel n) Unit
  | .start => forkret p
  | .fork kstack mem => do
    let _ ← fork p kstack mem
    pure ()
  | .exit => exit initproc p
  | .wait fuel => do
    let _ ← wait p fuel
    pure ()
  | .kill pid => do
    let _ ← kill p pid
    pure ()

/-- Any number of processes that run, fork, exit, wait and kill, in any order. A slot is idle while
its process is between two calls, and while there is no process in it. -/
def family (initproc : Fin n) : Protocol (Kernel n) (Fin n) Unit where
  Call := Act
  allowed := fun s p _ k =>
    match k with
    | .start => (s.proc p).state = .runnable
    | _ => (s.proc p).state = .running
  body := fun p _ k => act initproc p k
  restart := fun _ _ => False
  boot := ()

/-- The table after `userinit`: the first process is ready to run, and all other slots are as they
were when the kernel was loaded. -/
structure Booted (initproc : Fin n) (s : Kernel n) : Prop where
  first : s.proc initproc = ⟨.runnable, 1, none, none, false⟩
  rest : ∀ q, q ≠ initproc → s.proc q = ⟨.unused, 0, none, none, false⟩
  nextpid : s.nextpid = 2
  holder : ∀ l, s.holder l = none
  log : s.log = [.alloc initproc false]

/-- `userinit`, in the first slot. -/
def Kernel.booted (n : ℕ) : Kernel (n + 1) where
  proc p := if p = 0 then ⟨.runnable, 1, none, none, false⟩ else ⟨.unused, 0, none, none, false⟩
  nextpid := 2
  holder _ := none
  ncli _ := 0
  data := (Kernel.fresh 1).data
  log := [.alloc 0 false]

theorem booted_booted : Booted 0 (Kernel.booted n) where
  first := rfl
  rest q hq := by simp [Kernel.booted, hq]
  nextpid := rfl
  holder _ := rfl
  log := rfl

end Xv6.Proc
