import Mathlib.Algebra.Group.Int.Defs
import Xv6.Vm.Exec

/-!
# The memory of all processes

The calls of `vm.c`, `proc.c` and `pipe.c` that allocate and free pages, on a kernel state with the
address spaces, kernel stacks and pipes there are.
-/

namespace Xv6.Vm

open Lib

/-- A pipe is a page, and knows which of its ends are open. -/
structure Pipe where
  page : ℕ
  readopen : Bool
  writeopen : Bool

/-- Physical memory, and what the kernel's variables say: for each process its address space and its
kernel stack, and the pipes. -/
structure Kern where
  phys : Phys
  space : ℕ → Option Space
  kstack : ℕ → Option ℕ
  pipe : ℕ → Option Pipe

abbrev KM := Exec Kern Fault

def vm {α : Type} (x : VM α) : KM α := Exec.lift Kern.phys (fun s k => { k with phys := s }) x

def setSpace (h : ℕ) (sp : Option Space) : KM PUnit :=
  modify fun k => { k with space := Function.update k.space h sp }

def setKstack (h : ℕ) (x : Option ℕ) : KM PUnit :=
  modify fun k => { k with kstack := Function.update k.kstack h x }

def setPipe (p : ℕ) (pi : Option Pipe) : KM PUnit :=
  modify fun k => { k with pipe := Function.update k.pipe p pi }

/-- The entry of the process table is not in use. -/
def Kern.Unused (k : Kern) (q : ℕ) : Prop := k.space q = none ∧ k.kstack q = none

instance (k : Kern) (q : ℕ) : Decidable (k.Unused q) :=
  decidable_of_iff ((k.space q).isNone ∧ (k.kstack q).isNone) (by simp [Kern.Unused])

/-- A call by the process `h`; there is no such call if there is no such process. -/
def callBy (h : ℕ) (f : Space → KM ℤ) : KM ℤ := do
  match (← get).space h with
  | none => pure (-1)
  | some sp => f sp

/-! ## `vm.c` -/

def inituvm (r : ℕ) (init : List UInt8) : VM PUnit :=
  if init.length ≥ PGSIZE then throw (.panic "inituvm: more than a page")
  else do
    match ← kalloc with
    | none => throw .null
    | some x => do
      memset x 0
      let _ ← mappages r (0 * PGSIZE) PGSIZE (x * PGSIZE) (PTE_W ||| PTE_U)
      modify fun s => s.setPage x ((s.mem x).write 0 init)

/-- `setupkvm`, for a new address space `h`. -/
def setupkvmFor (K : Image) (h : ℕ) : KM ℤ := do
  if (← get).Unused h then
    match ← vm (setupkvm K) with
    | none => pure (-1)
    | some r => do
      setSpace h (some ⟨r, 0, 0, 0, []⟩)
      pure 0
  else pure (-1)

/-- `allocuvm` from the current size. -/
def allocuvmFor (K : Image) (h newsz : ℕ) : KM ℤ := callBy h fun sp => do
  let sz ← vm (allocuvm K sp.pgdir sp.sz newsz)
  if sz = 0 then pure (-1)
  else do
    setSpace h (some { sp with sz })
    pure 0

/-- `deallocuvm` from the current size. -/
def deallocuvmFor (K : Image) (h newsz : ℕ) : KM ℤ := callBy h fun sp => do
  let sz ← vm (deallocuvm K sp.pgdir sp.sz newsz)
  setSpace h (some { sp with sz })
  pure 0

/-- `copyuvm` of the address space `h`, for a new one. -/
def copyuvmFor (K : Image) (h h' : ℕ) : KM ℤ := callBy h fun sp => do
  if (← get).Unused h' then
    match ← vm (copyuvm K sp.pgdir sp.sz) with
    | none => pure (-1)
    | some d => do
      setSpace h' (some { sp with pgdir := d })
      pure 0
  else pure (-1)

def clearpteuFor (h uva : ℕ) : KM ℤ := callBy h fun sp => do
  vm (clearpteu sp.pgdir (uint uva))
  pure 0

def freevmFor (K : Image) (h : ℕ) : KM ℤ := callBy h fun sp => do
  vm (freevm K (some sp.pgdir))
  setSpace h none
  pure 0

/-! ## `proc.c` -/

/-- `allocproc`, if the entry `q` is free: a kernel stack. -/
def allocproc (q : ℕ) : KM Bool := do
  if (← get).Unused q then
    match ← vm kalloc with
    | none => pure false
    | some x => do
      setKstack q (some x)
      pure true
  else pure false

/-- `userinit`; the result of `allocproc` is not tested. -/
def userinit (K : Image) (q : ℕ) (initcode : List UInt8) : KM ℤ := do
  if ← allocproc q then
    match ← vm (setupkvm K) with
    | none => throw (.panic "userinit: out of memory?")
    | some r => do
      vm (inituvm r initcode)
      setSpace q (some ⟨r, PGSIZE, 0, PGSIZE, "initcode".toUTF8.toList⟩)
      pure 0
  else throw .null

/-- `fork` into the entry `q`. -/
def fork (K : Image) (h q : ℕ) : KM ℤ := callBy h fun sp => do
  if ← allocproc q then
    match ← vm (copyuvm K sp.pgdir sp.sz) with
    | none => do
      match (← get).kstack q with
      | none => throw .null
      | some x => do
        vm (kfree K x)
        setKstack q none
        pure (-1)
    | some d => do
      setSpace q (some { sp with pgdir := d })
      pure 0
  else pure (-1)

/-- The part of `wait` that concerns memory: the child `q` has exited. -/
def wait (K : Image) (q : ℕ) : KM ℤ := callBy q fun sp => do
  match (← get).kstack q with
  | none => pure (-1)
  | some x => do
    vm (kfree K x)
    setKstack q none
    vm (freevm K (some sp.pgdir))
    setSpace q none
    pure 0

/-- `sz + n` as an unsigned integer. -/
def addInt (sz : ℕ) (n : ℤ) : ℕ := ((sz + n) % 2 ^ 32).toNat

def growproc (K : Image) (h : ℕ) (n : ℤ) : KM ℤ := callBy h fun sp => do
  let sz ← vm (if n > 0 then allocuvm K sp.pgdir sp.sz (addInt sp.sz n)
    else if n < 0 then deallocuvm K sp.pgdir sp.sz (addInt sp.sz n) else pure sp.sz)
  if n ≠ 0 ∧ sz = 0 then pure (-1)
  else do
    setSpace h (some { sp with sz })
    pure 0

/-- `exec` by the process `h`. -/
def execBy (K : Image) (h : ℕ) (file : Option (List UInt8)) (path : List UInt8)
    (argv : List (List UInt8)) : KM ℤ := callBy h fun sp => do
  let (res, sp) ← vm (exec K file path argv sp)
  setSpace h (some sp)
  pure res

/-! ## `pipe.c` -/

/-- `pipealloc`; `files` says whether two entries of the file table are free. -/
def pipealloc (p : ℕ) (files : Bool) : KM ℤ := do
  if files && ((← get).pipe p).isNone then
    match ← vm kalloc with
    | none => pure (-1)
    | some x => do
      setPipe p (some ⟨x, true, true⟩)
      pure 0
  else pure (-1)

def pipeclose (K : Image) (p : ℕ) (writable : Bool) : KM ℤ := do
  match (← get).pipe p with
  | none => pure (-1)
  | some pi =>
    let pi := if writable then { pi with writeopen := false } else { pi with readopen := false }
    if ¬pi.readopen ∧ ¬pi.writeopen then do
      vm (kfree K pi.page)
      setPipe p none
      pure 0
    else do
      setPipe p (some pi)
      pure 0

/-! ## Runs -/

/-- A call with its arguments. -/
inductive Op where
  | userinit (q : ℕ) (initcode : List UInt8)
  | setupkvm (h : ℕ)
  | allocuvm (h newsz : ℕ)
  | deallocuvm (h newsz : ℕ)
  | copyuvm (h h' : ℕ)
  | clearpteu (h uva : ℕ)
  | freevm (h : ℕ)
  | fork (h q : ℕ)
  | wait (q : ℕ)
  | growproc (h : ℕ) (n : ℤ)
  | exec (h : ℕ) (file : Option (List UInt8)) (path : List UInt8) (argv : List (List UInt8))
  | pipealloc (p : ℕ) (files : Bool)
  | pipeclose (p : ℕ) (writable : Bool)

def Op.run (K : Image) : Op → KM ℤ
  | .userinit q initcode => Vm.userinit K q initcode
  | .setupkvm h => setupkvmFor K h
  | .allocuvm h newsz => allocuvmFor K h newsz
  | .deallocuvm h newsz => deallocuvmFor K h newsz
  | .copyuvm h h' => copyuvmFor K h h'
  | .clearpteu h uva => clearpteuFor h uva
  | .freevm h => freevmFor K h
  | .fork h q => Vm.fork K h q
  | .wait q => Vm.wait K q
  | .growproc h n => Vm.growproc K h n
  | .exec h file path argv => execBy K h file path argv
  | .pipealloc p files => Vm.pipealloc p files
  | .pipeclose p writable => Vm.pipeclose K p writable

/-- The kernel after `kinit2`: a free list, and nothing else. -/
structure Boot (K : Image) (k : Kern) : Prop where
  space : ∀ h, k.space h = none
  kstack : ∀ h, k.kstack h = none
  pipe : ∀ p, k.pipe p = none
  nodup : k.phys.free.Nodup
  managed : ∀ x ∈ k.phys.free, K.Managed x

/-- The same kernel, with another pattern of requests for pages that will be met. -/
def Kern.granting (k : Kern) (grant : ℕ → Bool) : Kern := { k with phys := { k.phys with grant } }

/-- The states to which calls that return lead, with any pattern of requests that are met. -/
inductive Reachable (K : Image) : Kern → Prop
  | boot {k : Kern} : Boot K k → Reachable K k
  | step {k k' : Kern} {op : Op} {res : ℤ} (grant : ℕ → Bool) :
      Reachable K k → op.run K (k.granting grant) = .ok res k' → Reachable K k'

end Xv6.Vm
