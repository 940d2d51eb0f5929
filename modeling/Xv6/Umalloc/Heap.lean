import Xv6.Vm.System

/-!
# `malloc` and `free`

`umalloc.c`, on the memory of a process. Memory is seen as headers only: what a program keeps in its
blocks does not concern the allocator. `sbrk` may refuse every request, and an access to a page beyond
the end of memory stops the program.
-/

namespace Xv6.Umalloc

open Lib

open Vm (uint KERNBASE PGSIZE addInt)

/-- `Header`: the next block on the free list, and the size of the block in units of 8 bytes, the header
included. -/
structure Header where
  ptr : ℕ
  size : ℕ

/-- Why a program stops. -/
inductive Fault where
  /-- an access to a page that the process does not have -/
  | segv
  /-- a loop has not ended after as many rounds as there is memory -/
  | loop

/-- The memory of the process, the global variable `freep`, the size of the process, the answers to
requests for memory, and the arguments of `sbrk` so far. -/
structure Heap where
  mem : ℕ → Header
  freep : ℕ
  brk : ℕ
  grant : ℕ → Bool
  asked : List ℤ

abbrev UM := Exec Heap Fault

/-- `sizeof(Header)`. -/
abbrev HEADER : ℕ := 8

/-- `p + n` for a pointer to headers. -/
def plus (p n : ℕ) : ℕ := uint (p + HEADER * n)

/-- An unsigned number as an argument of type `int`. -/
def int (x : ℕ) : ℤ := if x < 2 ^ 31 then x else x - 2 ^ 32

/-- The process has all pages that begin before the end of its memory. -/
def Heap.Mapped (s : Heap) (p : ℕ) : Prop := (p + HEADER - 1) / PGSIZE * PGSIZE < s.brk

instance (s : Heap) (p : ℕ) : Decidable (s.Mapped p) := inferInstanceAs (Decidable (_ < _))

def load (p : ℕ) : UM Header := do
  let s ← get
  if s.Mapped p then pure (s.mem p) else throw .segv

def store (p : ℕ) (h : Header) : UM PUnit := do
  let s ← get
  if s.Mapped p then set { s with mem := Function.update s.mem p h } else throw .segv

/-- `p->s.ptr`. -/
def ptr (p : ℕ) : UM ℕ := do pure (← load p).ptr

/-- `p->s.size`. -/
def size (p : ℕ) : UM ℕ := do pure (← load p).size

def setPtr (p x : ℕ) : UM PUnit := do store p { ← load p with ptr := x }

def setSize (p n : ℕ) : UM PUnit := do store p { ← load p with size := n }

/-! ## `sbrk` -/

/-- The size of the process after `growproc(n)`, if that succeeds; `granted` says whether there is
memory. -/
def grown (sz : ℕ) (n : ℤ) (granted : Bool) : Option ℕ :=
  if n > 0 then
    if addInt sz n ≥ KERNBASE then none
    else if addInt sz n < sz then some sz
    else if granted then some (addInt sz n) else none
  else if n < 0 then
    -- `deallocuvm` does nothing if the sum has wrapped, and 0 counts as an error
    let newsz := if addInt sz n ≥ sz then sz else addInt sz n
    if newsz = 0 then none else some newsz
  else some sz

/-- `sbrk`; `none` is `-1`. -/
def sbrk (n : ℤ) : UM (Option ℕ) := do
  let s ← get
  set { s with
    brk := (grown s.brk n (s.grant 0)).getD s.brk
    grant := fun i => s.grant (i + 1)
    asked := s.asked ++ [n] }
  pure ((grown s.brk n (s.grant 0)).map fun _ => s.brk)

/-! ## `free` -/

/-- A walk round the free list that has not ended after so many steps never will. -/
def Heap.spins (s : Heap) : ℕ := 2 * s.brk + 4

/-- The loop of `free`. -/
def freeFrom (bp : ℕ) : ℕ → ℕ → UM ℕ
  | 0, _ => throw .loop
  | fuel + 1, p => do
    if bp > p ∧ bp < (← ptr p) then pure p
    else if p ≥ (← ptr p) ∧ (bp > p ∨ bp < (← ptr p)) then pure p
    else freeFrom bp fuel (← ptr p)

/-- Link or join the block at `bp` with the one that comes behind `p`. -/
def joinUpper (bp p : ℕ) : UM PUnit := do
  if plus bp (← size bp) = (← ptr p) then do
    setSize bp (uint ((← size bp) + (← size (← ptr p))))
    setPtr bp (← ptr (← ptr p))
  else setPtr bp (← ptr p)

/-- Link or join the block at `p` with the one at `bp`. -/
def joinLower (bp p : ℕ) : UM PUnit := do
  if plus p (← size p) = bp then do
    setSize p (uint ((← size p) + (← size bp)))
    setPtr p (← ptr bp)
  else setPtr p bp

def free (ap : ℕ) : UM PUnit := do
  let bp := uint (ap + 2 ^ 32 - HEADER)
  let s ← get
  let p ← freeFrom bp s.spins s.freep
  joinUpper bp p
  joinLower bp p
  modify fun s => { s with freep := p }

/-! ## `malloc` -/

/-- `morecore`; `none` is a null pointer. -/
def morecore (nu : ℕ) : UM (Option ℕ) := do
  let nu := if nu < 4096 then 4096 else nu
  match ← sbrk (int (uint (nu * HEADER))) with
  | none => pure none
  | some hp => do
    setSize hp nu
    free (plus hp 1)
    let s ← get
    pure (some s.freep)

/-- Take `nunits` from the block at `p`, which comes behind `prevp` on the free list and is large
enough. -/
def take (nunits prevp p : ℕ) : UM ℕ := do
  if (← size p) = nunits then do
    setPtr prevp (← ptr p)
    modify fun s => { s with freep := prevp }
    pure (plus p 1)
  else do
    setSize p (uint ((← size p) + 2 ^ 32 - nunits))
    let p := plus p (← size p)
    setSize p nunits
    modify fun s => { s with freep := prevp }
    pure (plus p 1)

/-- The loop of `malloc`. -/
def mallocFrom (nunits : ℕ) : ℕ → ℕ → ℕ → UM (Option ℕ)
  | 0, _, _ => throw .loop
  | fuel + 1, prevp, p => do
    if (← size p) ≥ nunits then some <$> take nunits prevp p
    else
      let s ← get
      if p = s.freep then
        match ← morecore nunits with
        | none => pure none
        | some p => do mallocFrom nunits fuel p (← ptr p)
      else do mallocFrom nunits fuel p (← ptr p)

/-- `nunits` of `malloc`. -/
def units32 (nbytes : ℕ) : ℕ := uint (nbytes + HEADER - 1) / HEADER + 1

/-- The first call of `malloc` makes an empty free list of the global variable `base`. -/
def setup (base : ℕ) : UM PUnit := do
  let s ← get
  if s.freep = 0 then do
    modify fun s => { s with freep := base }
    setPtr base base
    setSize base 0
  else pure ⟨⟩

/-- `malloc`, with `base` at the given address; `none` is a null pointer. -/
def malloc (base nbytes : ℕ) : UM (Option ℕ) := do
  setup base
  let s ← get
  mallocFrom (units32 nbytes) s.spins s.freep (← ptr s.freep)

end Xv6.Umalloc
