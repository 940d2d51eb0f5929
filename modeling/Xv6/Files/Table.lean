import Xv6.Conc.Prog
import Xv6.Param
import Mathlib.Data.List.FinRange

/-!
# The table of open files

`file.c`, the allocation of pipes in `pipe.c`, and the system calls of `sysfile.c` and `proc.c` that pass
references to open files around. A section under `ftable.lock` or under a pipe's lock is one step, and so
is each access to a file or to a table of descriptors outside of them.

What the rest of the kernel answers is an argument of the calls: whether a path can be opened, which page
`kalloc` returns, whether there is memory for a new process.
-/

namespace Xv6.Files

open Conc

/-- An index into `ftable.file`. -/
abbrev FSlot := Fin NFILE

/-- A file descriptor, an index into `proc->ofile`. -/
abbrev Fd := Fin NOFILE

/-- `FD_NONE`, `FD_PIPE` or `FD_INODE`. -/
inductive FileType where
  | none
  | pipe
  | inode
  deriving DecidableEq

/-- `struct file`, without `ip` and `off`. `pipe` is the address of a page. -/
structure File where
  type : FileType
  ref : ℤ
  readable : Bool
  writable : Bool
  pipe : ℕ
  deriving DecidableEq

inductive ProcState where
  | unused
  | embryo
  | alive
  | zombie
  deriving DecidableEq

abbrev Ofile := Fd → Option FSlot

/-- `isOpen a w` is `readopen` (for `w` false) or `writeopen` of the pipe in page `a`. The last three
fields are bookkeeping that no branch of the code reads: whether the page is in use as a pipe, and how
often it has been allocated for one and freed again. -/
structure State (n : ℕ) where
  file : FSlot → File
  ofile : Fin n → Ofile
  state : Fin n → ProcState
  isOpen : ℕ → Bool → Bool
  live : ℕ → Bool
  made : ℕ → ℕ
  freed : ℕ → ℕ

variable {n : ℕ}

namespace State

variable (s : State n)

@[simps]
def setFile (f : FSlot) (x : File) : State n := { s with file := Function.update s.file f x }

@[simps]
def setOfile (p : Fin n) (t : Ofile) : State n := { s with ofile := Function.update s.ofile p t }

@[simps]
def setState (p : Fin n) (st : ProcState) : State n := { s with state := Function.update s.state p st }

@[simps]
def setOpen (a : ℕ) (w b : Bool) : State n :=
  { s with isOpen := Function.update s.isOpen a (Function.update (s.isOpen a) w b) }

end State

/-! ## `file.c` -/

def filealloc : Prog (State n) (Option FSlot) :=
  .atomic fun s =>
    match (List.finRange NFILE).find? fun f => (s.file f).ref = 0 with
    | some f => .ok (some f) (s.setFile f { s.file f with ref := 1 })
    | none => .ok none s

def filedup (f : FSlot) : Prog (State n) Unit :=
  .atomic fun s =>
    if (s.file f).ref < 1 then .fault (.panic "filedup")
    else .ok () (s.setFile f { s.file f with ref := (s.file f).ref + 1 })

/-- The locked part of `fileclose`; the result is the file if this was its last reference. -/
def fileput (f : FSlot) : Prog (State n) (Option File) :=
  .atomic fun s =>
    if (s.file f).ref < 1 then .fault (.panic "fileclose")
    else if 0 < (s.file f).ref - 1 then .ok none (s.setFile f { s.file f with ref := (s.file f).ref - 1 })
    else .ok (some (s.file f)) (s.setFile f { s.file f with ref := 0, type := .none })

/-! ## `pipe.c` -/

/-- Accessing a page that has been freed is a fault of its own. -/
def onPipe {α : Type} (a : ℕ) (f : State n → Outcome (State n) α) : Prog (State n) α :=
  .atomic fun s => if s.live a then f s else .fault .outOfBounds

/-- The locked part of `pipeclose`; the result says whether both ends are closed. -/
def closeEnd (a : ℕ) (writable : Bool) : Prog (State n) Bool :=
  onPipe a fun s =>
    let s := s.setOpen a writable false
    .ok (!s.isOpen a false && !s.isOpen a true) s

/-- `kfree` of a pipe's page. So that no fault means that it is used right, freeing a page twice counts as a
fault, and so does freeing it while one of the pipe's ends is open. -/
def kfree (a : ℕ) : Prog (State n) Unit :=
  .atomic fun s =>
    if s.live a ∧ s.isOpen a false = false ∧ s.isOpen a true = false then
      .ok () { s with live := Function.update s.live a false, freed := Function.update s.freed a (s.freed a + 1) }
    else .fault (.panic "kfree")

def pipeclose (a : ℕ) (writable : Bool) : Prog (State n) Unit := do
  if ← closeEnd a writable then kfree a

/-- `fileclose`; what `iput` does is the subject of `Xv6.Fs`. -/
def fileclose (f : FSlot) : Prog (State n) Unit := do
  match ← fileput f with
  | none => pure ()
  | some ff =>
    match ff.type with
    | .pipe => pipeclose ff.pipe ff.writable
    | _ => pure ()

/-- `kalloc` of a page for a pipe, and the initialisation of the pipe. `page` is what `kalloc` returns;
a page that is in use as a pipe it does not return. -/
def newPipe (page : Option ℕ) : Prog (State n) (Option ℕ) :=
  .atomic fun s =>
    match page with
    | none => .ok none s
    | some a =>
      if s.live a then .ok none s
      else .ok (some a)
        { s with
          isOpen := Function.update s.isOpen a fun _ => true
          live := Function.update s.live a true
          made := Function.update s.made a (s.made a + 1) }

/-- `f->type = FD_PIPE` and the other fields of one end of a pipe. -/
def setPipeEnd (f : FSlot) (a : ℕ) (writable : Bool) : Prog (State n) Unit :=
  .modifies fun s => s.setFile f
    { s.file f with type := .pipe, readable := !writable, writable, pipe := a }

def pipealloc (page : Option ℕ) : Prog (State n) (Option (FSlot × FSlot)) := do
  match ← filealloc with
  | none => pure none
  | some f0 => do
    match ← filealloc with
    | none => do
      fileclose f0
      pure none
    | some f1 => do
      match ← newPipe page with
      | none => do
        fileclose f0
        fileclose f1
        pure none
      | some a => do
        setPipeEnd f0 a false
        setPipeEnd f1 a true
        pure (some (f0, f1))

/-! ## `sysfile.c` -/

section

variable (p : Fin n)

/-- `proc->ofile[fd]`. -/
def argfd (fd : Fd) : Prog (State n) (Option FSlot) := .reads fun s => s.ofile p fd

def fdalloc (f : FSlot) : Prog (State n) (Option Fd) :=
  .atomic fun s =>
    match (List.finRange NOFILE).find? fun fd => s.ofile p fd = none with
    | some fd => .ok (some fd) (s.setOfile p (Function.update (s.ofile p) fd (some f)))
    | none => .ok none s

/-- `proc->ofile[fd] = 0`. -/
def clearFd (fd : Fd) : Prog (State n) Unit :=
  .modifies fun s => s.setOfile p (Function.update (s.ofile p) fd none)

def sysDup (fd : Fd) : Prog (State n) (Option Fd) := do
  match ← argfd p fd with
  | none => pure none
  | some f => do
    match ← fdalloc p f with
    | none => pure none
    | some fd' => do
      filedup f
      pure (some fd')

def sysClose (fd : Fd) : Prog (State n) ℤ := do
  match ← argfd p fd with
  | none => pure (-1)
  | some f => do
    clearFd p fd
    fileclose f
    pure 0

/-- The accesses of `piperead` or `pipewrite` to a pipe, of which there may be any number. -/
def usePipe (a : ℕ) : ℕ → Prog (State n) Unit
  | 0 => pure ()
  | k + 1 => do
    onPipe a fun s => .ok () s
    usePipe a k

/-- `sys_read` and `sys_write`, as far as they use the file and the pipe. -/
def sysReadWrite (fd : Fd) (writing : Bool) (k : ℕ) : Prog (State n) Unit := do
  match ← argfd p fd with
  | none => pure ()
  | some f => do
    let ff ← Prog.reads fun s => s.file f
    if (if writing then ff.writable else ff.readable) ∧ ff.type = .pipe then usePipe ff.pipe k else pure ()

/-- `f->type = FD_INODE` and the flags. -/
def setInode (f : FSlot) (readable writable : Bool) : Prog (State n) Unit :=
  .modifies fun s => s.setFile f { s.file f with type := .inode, readable, writable }

/-- `sys_open`; `found` says whether the path leads to an inode that may be opened. -/
def sysOpen (found readable writable : Bool) : Prog (State n) (Option Fd) :=
  if found then do
    match ← filealloc with
    | none => pure none
    | some f => do
      match ← fdalloc p f with
      | none => do
        fileclose f
        pure none
      | some fd => do
        setInode f readable writable
        pure (some fd)
  else pure none

def sysPipe (page : Option ℕ) : Prog (State n) (Option (Fd × Fd)) := do
  match ← pipealloc page with
  | none => pure none
  | some (rf, wf) => do
    match ← fdalloc p rf with
    | none => do
      fileclose rf
      fileclose wf
      pure none
    | some fd0 => do
      match ← fdalloc p wf with
      | none => do
        clearFd p fd0
        fileclose rf
        fileclose wf
        pure none
      | some fd1 => pure (some (fd0, fd1))

/-! ## `proc.c` -/

/-- `allocproc`. -/
def allocproc : Prog (State n) (Option (Fin n)) :=
  .atomic fun s =>
    match (List.finRange n).find? fun q => s.state q = .unused with
    | some q => .ok (some q) (s.setState q .embryo)
    | none => .ok none s

/-- `np->ofile[fd] = f`. -/
def setChildFd (q : Fin n) (fd : Fd) (f : FSlot) : Prog (State n) Unit :=
  .modifies fun s => s.setOfile q (Function.update (s.ofile q) fd (some f))

/-- The loop of `fork` over the descriptors. -/
def dupFds (q : Fin n) : List Fd → Prog (State n) Unit
  | [] => pure ()
  | fd :: fds => do
    match ← argfd p fd with
    | none => dupFds q fds
    | some f => do
      filedup f
      setChildFd q fd f
      dupFds q fds

/-- `p->state = st`. -/
def setProcState (q : Fin n) (st : ProcState) : Prog (State n) Unit := .modifies fun s => s.setState q st

/-- `fork`; `mem` says whether there is memory for the kernel stack and the address space. The result is
the child's slot. -/
def fork (mem : Bool) : Prog (State n) (Option (Fin n)) := do
  match ← allocproc with
  | none => pure none
  | some q =>
    if mem then do
      dupFds p q (List.finRange NOFILE)
      setProcState q .alive
      pure (some q)
    else do
      setProcState q .unused
      pure none

/-- The loop of `exit` over the descriptors. -/
def closeFds : List Fd → Prog (State n) Unit
  | [] => pure ()
  | fd :: fds => do
    match ← argfd p fd with
    | none => closeFds fds
    | some f => do
      fileclose f
      clearFd p fd
      closeFds fds

def exit : Prog (State n) Unit := do
  closeFds p (List.finRange NOFILE)
  setProcState p .zombie

/-- `wait` finds the zombie `q`. -/
def wait (q : Fin n) : Prog (State n) Unit :=
  .modifies fun s => if s.state q = .zombie then s.setState q .unused else s

end

/-! ## The system -/

inductive Call (n : ℕ) where
  | open (found readable writable : Bool)
  | dup (fd : Fd)
  | pipe (page : Option ℕ)
  | close (fd : Fd)
  | readWrite (fd : Fd) (writing : Bool) (k : ℕ)
  | fork (mem : Bool)
  | exit
  | wait (q : Fin n)

/-- A call whose result does not matter. -/
def discard {α : Type} (x : Prog (State n) α) : Prog (State n) Unit := do
  let _ ← x
  pure ()

def Call.body (p : Fin n) : Call n → Prog (State n) Unit
  | .open found readable writable => discard (sysOpen p found readable writable)
  | .dup fd => discard (sysDup p fd)
  | .pipe page => discard (sysPipe p page)
  | .close fd => discard (sysClose p fd)
  | .readWrite fd writing k => sysReadWrite p fd writing k
  | .fork mem => discard (Files.fork p mem)
  | .exit => Files.exit p
  | .wait q => Files.wait q

/-- Any processes, and any calls in any order. -/
def system : Protocol (State n) (Fin n) Unit where
  Call := Call n
  allowed s p _ _ := s.state p = .alive
  body p _ k := k.body p
  restart _ _ := False
  boot := ()

/-- No files and no pipes yet; the descriptor tables are empty. -/
structure Booted (s : State n) : Prop where
  file : ∀ f, (s.file f).ref = 0 ∧ (s.file f).type = .none
  ofile : ∀ p fd, s.ofile p fd = none
  state : ∀ p, s.state p ≠ .embryo
  live : ∀ a, s.live a = false
  made : ∀ a, s.made a = s.freed a

end Xv6.Files
