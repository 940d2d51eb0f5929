import Xv6.Proc.Kernel

/-!
# The loops that wait

`pipe.c`, and the other two places where a system call waits for something and looks at
`proc->killed` each time it has to: `consoleread` and `sys_sleep`; with the interrupts that end the
waiting.

A loop that waits has a bound `fuel` on how often it goes round. A call comes with any bound, and
where the bound runs out the process goes no further; so every finite part of an execution of the
code is one of the model, with a bound that is large enough.
-/

namespace Xv6.Proc

open Conc

variable {n : ℕ}

/-- The bound on a loop has run out. -/
def stuck {α : Type} : Prog (Kernel n) α := .atomic fun _ => .blocked

/-- The test of `proc->killed` in a loop that waits. -/
def testKilled (p : Fin n) : Prog (Kernel n) Bool :=
  .atomic fun s => if (s.proc p).killed then .ok true s else .ok false (s.note (.spared p))

/-! ## `pipe.c` -/

namespace Pipe

/-- `p->nread == p->nwrite`. -/
def empty (d : Pipe) : Bool := d.nread = d.nwrite

/-- `p->nwrite == p->nread + PIPESIZE`. -/
def full (d : Pipe) : Bool := d.nwrite = d.nread + BitVec.ofNat 32 PIPESIZE

/-- `p->data[p->nwrite++ % PIPESIZE] = b`. -/
def store (d : Pipe) (b : UInt8) : Pipe :=
  { d with
    data := Function.update d.data (d.nwrite.toNat % PIPESIZE) b
    nwrite := d.nwrite + 1 }

/-- The loop of `piperead` that copies at most `m` bytes out of the pipe. -/
def copyOut : ℕ → Pipe → List UInt8 × Pipe
  | 0, d => ([], d)
  | m + 1, d =>
    if d.empty then ([], d)
    else
      let r := copyOut m { d with nread := d.nread + 1 }
      (d.data (d.nread.toNat % PIPESIZE) :: r.1, r.2)

/-- `pipeclose` of one end. -/
def close (d : Pipe) (writable : Bool) : Pipe :=
  if writable then { d with writeopen := false } else { d with readopen := false }

end Pipe

/-- The test in the loop of `pipewrite` that finds the pipe full: whether to give up. -/
def testGiveUp (p : Fin n) (k : ℕ) : Prog (Kernel n) Bool :=
  .atomic fun s =>
    if (s.data.pipe k).readopen = false ∨ (s.proc p).killed then .ok true (s.note (.gaveUp p k))
    else .ok false (s.note (.spared p))

def storeByte (p : Fin n) (k : ℕ) (b : UInt8) : Prog (Kernel n) Unit :=
  .modifies fun s => (s.setPipe k ((s.data.pipe k).store b)).note (.stored p k b)

/-- The loop of `pipewrite`, with `i` bytes of the `m` at `addr` stored. -/
def pipewriteFrom (p : Fin n) (k : ℕ) (addr : ℕ → UInt8) (m : ℤ) : ℕ → ℕ → Prog (Kernel n) ℤ
  | 0, _ => stuck
  | fuel + 1, i =>
    if i < m then do
      let d ← Prog.reads fun s : Kernel n => s.data.pipe k
      if d.full then do
        if ← testGiveUp p k then do
          release p (.pipe k)
          pure (-1)
        else do
          wakeup p (.nread k)
          sleep p (.nwrite k) (.pipe k)
          pipewriteFrom p k addr m fuel i
      else do
        storeByte p k (addr i)
        pipewriteFrom p k addr m fuel (i + 1)
    else do
      wakeup p (.nread k)
      release p (.pipe k)
      pure m

def pipewrite (p : Fin n) (k : ℕ) (addr : ℕ → UInt8) (m : ℤ) (fuel : ℕ) : Prog (Kernel n) ℤ := do
  acquire p (.pipe k)
  pipewriteFrom p k addr m fuel 0

/-- The first loop of `piperead`: whether there is something to read, or nothing more to come;
`false` if the process is killed. -/
def pipereadWait (p : Fin n) (k : ℕ) : ℕ → Prog (Kernel n) Bool
  | 0 => stuck
  | fuel + 1 => do
    let d ← Prog.reads fun s : Kernel n => s.data.pipe k
    if d.empty && d.writeopen then do
      if ← testKilled p then pure false
      else do
        sleep p (.nread k) (.pipe k)
        pipereadWait p k fuel
    else pure true

def copyBytes (p : Fin n) (k : ℕ) (m : ℤ) : Prog (Kernel n) (List UInt8) :=
  .atomic fun s =>
    let r := (s.data.pipe k).copyOut m.toNat
    .ok r.1 ((s.setPipe k r.2).note (.took p k m r.1))

/-- `piperead`; the result has the bytes that were copied. -/
def piperead (p : Fin n) (k : ℕ) (m : ℤ) (fuel : ℕ) : Prog (Kernel n) (ℤ × List UInt8) := do
  acquire p (.pipe k)
  if ← pipereadWait p k fuel then do
    let bs ← copyBytes p k m
    wakeup p (.nwrite k)
    release p (.pipe k)
    pure (bs.length, bs)
  else do
    release p (.pipe k)
    pure (-1, [])

def closeEnd (k : ℕ) (writable : Bool) : Prog (Kernel n) Unit :=
  .modifies fun s => (s.setPipe k ((s.data.pipe k).close writable)).note (.shut k writable)

/-- `pipeclose`; the pipe's page is not given back here. -/
def pipeclose (p : Fin n) (k : ℕ) (writable : Bool) : Prog (Kernel n) Unit := do
  acquire p (.pipe k)
  closeEnd k writable
  wakeup p (if writable then .nread k else .nwrite k)
  release p (.pipe k)

/-! ## `console.c` -/

/-- `C('D')`. -/
abbrev ctrlD : UInt8 := 4

/-- `'\n'`. -/
abbrev newline : UInt8 := 10

/-- Take the next character out of the input. -/
def Input.next (x : Input) : UInt8 × Input :=
  (x.buf (x.r.toNat % INPUT_BUF), { x with r := x.r + 1 })

def takeChar (more : Bool) : Prog (Kernel n) UInt8 :=
  .atomic fun s =>
    let r := s.data.input.next
    -- an end of file that comes after other characters stays for the next call
    if r.1 = ctrlD ∧ more then .ok r.1 s else .ok r.1 (s.setInput r.2)

/-- The loops of `consoleread`, with `m` of the `target` characters still to read and `dst` read so
far. The result is `none` if the process is killed. -/
def consolereadFrom (p : Fin n) (target : ℤ) :
    ℕ → ℤ → List UInt8 → Prog (Kernel n) (Option (List UInt8))
  | 0, _, _ => stuck
  | fuel + 1, m, dst =>
    if 0 < m then do
      let x ← Prog.reads fun s : Kernel n => s.data.input
      if x.r = x.w then do
        if ← testKilled p then pure none
        else do
          sleep p .input .cons
          consolereadFrom p target fuel m dst
      else do
        let c ← takeChar (m < target)
        if c = ctrlD then pure (some dst)
        else if c = newline then pure (some (dst ++ [c]))
        else consolereadFrom p target fuel (m - 1) (dst ++ [c])
    else pure (some dst)

/-- `consoleread`, without the lock of the inode. -/
def consoleread (p : Fin n) (m : ℤ) (fuel : ℕ) : Prog (Kernel n) (ℤ × List UInt8) := do
  acquire p .cons
  let r ← consolereadFrom p m fuel m []
  release p .cons
  match r with
  | some dst => pure (dst.length, dst)
  | none => pure (-1, [])

/-- The loop for `C('U')`, for a line of at most the given length. -/
def Input.killLine : ℕ → Input → Input
  | 0, x => x
  | m + 1, x =>
    if x.e ≠ x.w ∧ x.buf ((x.e - 1).toNat % INPUT_BUF) ≠ newline then
      killLine m { x with e := x.e - 1 }
    else x

/-- What `consoleintr` does with a character, and whether it has completed a line. -/
def Input.typed (x : Input) (c : UInt8) : Input × Bool :=
  if c = 16 then (x, false)
  else if c = 21 then (x.killLine (x.e - x.w).toNat, false)
  else if c = 8 ∨ c = 127 then (if x.e ≠ x.w then { x with e := x.e - 1 } else x, false)
  else if c ≠ 0 ∧ (x.e - x.r).toNat < INPUT_BUF then
    let c := if c = 13 then newline else c
    let x := { x with buf := Function.update x.buf (x.e.toNat % INPUT_BUF) c, e := x.e + 1 }
    if c = newline ∨ c = ctrlD ∨ x.e = x.r + BitVec.ofNat 32 INPUT_BUF then ({ x with w := x.e }, true)
    else (x, false)
  else (x, false)

def typeChar (c : UInt8) : Prog (Kernel n) Bool :=
  .atomic fun s =>
    let r := s.data.input.typed c
    .ok r.2 (s.setInput r.1)

/-- The loop of `consoleintr` over the characters that have been typed. -/
def consoleintrFrom (p : Fin n) : List UInt8 → Prog (Kernel n) Unit
  | [] => pure ()
  | c :: cs => do
    if ← typeChar c then do
      wakeup p .input
      consoleintrFrom p cs
    else consoleintrFrom p cs

/-- `consoleintr`, on the CPU of process `p`. -/
def consoleintr (p : Fin n) (cs : List UInt8) : Prog (Kernel n) Unit := do
  acquire p .cons
  consoleintrFrom p cs
  release p .cons

/-! ## `sysproc.c` and `trap.c` -/

/-- The loop of `sys_sleep`. The comparison is one of unsigned numbers. -/
def sysSleepFrom (p : Fin n) (ticks0 m : BitVec 32) : ℕ → Prog (Kernel n) Bool
  | 0 => stuck
  | fuel + 1 => do
    let ticks ← Prog.reads fun s : Kernel n => s.data.ticks
    if (ticks - ticks0).toNat < m.toNat then do
      if ← testKilled p then pure false
      else do
        sleep p .ticks .ticks
        sysSleepFrom p ticks0 m fuel
    else pure true

def sysSleep (p : Fin n) (m : BitVec 32) (fuel : ℕ) : Prog (Kernel n) ℤ := do
  acquire p .ticks
  let ticks0 ← Prog.reads fun s : Kernel n => s.data.ticks
  let r ← sysSleepFrom p ticks0 m fuel
  release p .ticks
  pure (if r then 0 else -1)

/-- The timer interrupt, on the CPU of process `p`. -/
def timer (p : Fin n) : Prog (Kernel n) Unit := do
  acquire p .ticks
  .modifies fun s => s.setData { s.data with ticks := s.data.ticks + 1 }
  wakeup p .ticks
  release p .ticks

/-! ## The system -/

/-- What a process may do, with the bounds on the loops that wait. -/
inductive Op where
  | pipewrite (k : ℕ) (addr : ℕ → UInt8) (m : ℤ) (fuel : ℕ)
  | piperead (k : ℕ) (m : ℤ) (fuel : ℕ)
  | pipeclose (k : ℕ) (writable : Bool)
  | consoleread (m : ℤ) (fuel : ℕ)
  | sysSleep (m : BitVec 32) (fuel : ℕ)
  | kill (pid : BitVec 32)
  | consoleintr (cs : List UInt8)
  | timer

def op (p : Fin n) : Op → Prog (Kernel n) Unit
  | .pipewrite k addr m fuel => do
    let _ ← pipewrite p k addr m fuel
    pure ()
  | .piperead k m fuel => do
    let _ ← piperead p k m fuel
    pure ()
  | .pipeclose k writable => pipeclose p k writable
  | .consoleread m fuel => do
    let _ ← consoleread p m fuel
    pure ()
  | .sysSleep m fuel => do
    let _ ← sysSleep p m fuel
    pure ()
  | .kill pid => do
    let _ ← kill p pid
    pure ()
  | .consoleintr cs => consoleintr p cs
  | .timer => timer p

/-- Any number of processes, each of which does one thing after the other, in any order. -/
def waiters : Protocol (Kernel n) (Fin n) Unit where
  Call := Op
  allowed := fun _ _ _ _ => True
  body := fun p _ k => op p k
  restart := fun _ _ => False
  boot := ()

/-- The state the processes start in: the pipes have just been allocated, and nobody sleeps. -/
structure Started (s : Kernel n) : Prop where
  log : s.log = []
  holder : ∀ l, s.holder l = none
  awake : ∀ p, (s.proc p).state ≠ .sleeping
  empty : ∀ k, (s.data.pipe k).nread = (s.data.pipe k).nwrite
  readopen : ∀ k, (s.data.pipe k).readopen = true
  writeopen : ∀ k, (s.data.pipe k).writeopen = true

theorem started_fresh : Started (.fresh n) :=
  ⟨rfl, fun _ => rfl, by simp [Kernel.fresh], fun _ => rfl, fun _ => rfl, fun _ => rfl⟩

end Xv6.Proc
