import Xv6.Lib.Bytes
import Xv6.Lib.Exec

/-!
# Physical pages and page tables

`kalloc.c` and the page-table code of `vm.c`. Physical memory is divided into pages; page `x` starts
at the physical address `x * PGSIZE`, and a kernel pointer to it is its number. Page directories and
page tables are pages like all others, and what the code finds there is what memory holds. Virtual
addresses are numbers below `2 ^ 32`; `uint` marks the places where the code's arithmetic wraps.
-/

namespace Xv6.Vm

open Lib

abbrev PGSIZE : ℕ := 4096
abbrev NPDENTRIES : ℕ := 1024
abbrev NPTENTRIES : ℕ := 1024
abbrev EXTMEM : ℕ := 0x100000
abbrev PHYSTOP : ℕ := 0xE000000
abbrev DEVSPACE : ℕ := 0xFE000000
abbrev KERNBASE : ℕ := 0x80000000
abbrev KERNLINK : ℕ := KERNBASE + EXTMEM

/-- A number as an unsigned integer of 32 bits. -/
def uint (x : ℕ) : ℕ := x % 2 ^ 32

def PGROUNDUP (sz : ℕ) : ℕ := uint (sz + PGSIZE - 1) / PGSIZE * PGSIZE
def PGROUNDDOWN (a : ℕ) : ℕ := a / PGSIZE * PGSIZE

/-- Page directory index. -/
def PDX (va : ℕ) : ℕ := va / 2 ^ 22 % 1024

/-- Page table index. -/
def PTX (va : ℕ) : ℕ := va / 2 ^ 12 % 1024

/-! ## Entries -/

abbrev PTE_P : ℕ := 1
abbrev PTE_W : ℕ := 2
abbrev PTE_U : ℕ := 4

/-- `pte & PTE_P`. -/
def present (w : ℕ) : Bool := w.testBit 0

/-- `pte & PTE_U`. -/
def user (w : ℕ) : Bool := w.testBit 2

/-- The page at `PTE_ADDR(pte)`. -/
def frame (w : ℕ) : ℕ := w / 2 ^ 12

/-- `PTE_FLAGS(pte)`. -/
def flags (w : ℕ) : ℕ := w % 2 ^ 12

/-! ## Memory -/

/-- Where the kernel is in physical memory: the addresses of the symbols `data` and `end`. -/
structure Image where
  data : ℕ
  top : ℕ
  data_aligned : data % PGSIZE = 0
  lt_data : EXTMEM < data
  data_le : data ≤ top
  top_lt : top < PHYSTOP

/-- The contents of the pages, the free list, and what the kernel will find when it asks for a page:
`grant i` says whether the `i`th call of `kalloc` from now on may take one, since other processes
take pages too. -/
structure Phys where
  mem : ℕ → Bytes
  free : List ℕ
  grant : ℕ → Bool

/-- Why code stops: a panic, a null pointer, a page freed twice, or a store that hits a page which
does not belong to the address space that is being loaded. -/
inductive Fault where
  | panic (msg : String)
  | null
  | doubleFree
  | stray
  deriving DecidableEq

abbrev VM := Exec Phys Fault

def Phys.setPage (s : Phys) (x : ℕ) (bs : Bytes) : Phys := { s with mem := Function.update s.mem x bs }

/-- `*pte`, for the entry at a page and an offset. -/
def load (pte : ℕ × ℕ) : VM ℕ := do
  let s ← get
  pure ((s.mem pte.1).word 4 pte.2)

/-- `*pte = w`. -/
def store (pte : ℕ × ℕ) (w : ℕ) : VM PUnit :=
  modify fun s => s.setPage pte.1 ((s.mem pte.1).setWord 4 pte.2 w)

/-- Fill a page with one byte. -/
def memset (x : ℕ) (c : UInt8) : VM PUnit := modify fun s => s.setPage x fun _ => c

/-- Copy page `y` to page `x`. -/
def memmove (x y : ℕ) : VM PUnit := modify fun s => s.setPage x (s.mem y)

/-! ## `kalloc.c` -/

/-- The pages `kfree` accepts. -/
def Image.Managed (K : Image) (x : ℕ) : Prop := K.top ≤ x * PGSIZE ∧ x * PGSIZE < PHYSTOP

instance (K : Image) (x : ℕ) : Decidable (K.Managed x) := inferInstanceAs (Decidable (_ ∧ _))

def kfree (K : Image) (x : ℕ) : VM PUnit := do
  if ¬K.Managed x then throw (.panic "kfree")
  else do
    let s ← get
    if x ∈ s.free then throw .doubleFree
    else do
      memset x 1
      modify fun s => { s with free := x :: s.free }

def kalloc : VM (Option ℕ) := do
  let s ← get
  modify fun s => { s with grant := fun i => s.grant (i + 1) }
  match s.free with
  | [] => pure none
  | x :: rest =>
    if s.grant 0 then do
      modify fun s => { s with free := rest }
      pure (some x)
    else pure none

/-! ## `vm.c` -/

/-- `walkpgdir`: the address of the entry for `va` in the page directory `r`. -/
def walkpgdir (r va : ℕ) (alloc : Bool) : VM (Option (ℕ × ℕ)) := do
  let pde ← load (r, 4 * PDX va)
  if present pde then pure (some (frame pde, 4 * PTX va))
  else if ¬alloc then pure none
  else
    match ← kalloc with
    | none => pure none
    | some t => do
      memset t 0
      store (r, 4 * PDX va) (t * PGSIZE ||| PTE_P ||| PTE_W ||| PTE_U)
      pure (some (t, 4 * PTX va))

/-- The loop of `mappages`. No page comes round twice in `2 ^ 20` steps. -/
def mappagesFrom (r last perm : ℕ) : ℕ → ℕ → ℕ → VM Bool
  | 0, _, _ => pure true
  | fuel + 1, a, pa => do
    match ← walkpgdir r a true with
    | none => pure false
    | some pte =>
      if present (← load pte) then throw (.panic "remap")
      else do
        store pte (pa ||| perm ||| PTE_P)
        if a = last then pure true
        else mappagesFrom r last perm fuel (uint (a + PGSIZE)) (uint (pa + PGSIZE))

def mappages (r va size pa perm : ℕ) : VM Bool :=
  mappagesFrom r (PGROUNDDOWN (uint (va + size + 2 ^ 32 - 1))) perm (2 ^ 20) (PGROUNDDOWN va) pa

structure Kmap where
  virt : ℕ
  physStart : ℕ
  physEnd : ℕ
  perm : ℕ

/-- The kernel's mappings. -/
def kmap (K : Image) : List Kmap :=
  [⟨KERNBASE, 0, EXTMEM, PTE_W⟩, ⟨KERNLINK, EXTMEM, K.data, 0⟩,
    ⟨KERNBASE + K.data, K.data, PHYSTOP, PTE_W⟩, ⟨DEVSPACE, DEVSPACE, 0, PTE_W⟩]

/-- The loop of `setupkvm`. -/
def mapKernel (r : ℕ) : List Kmap → VM (Option ℕ)
  | [] => pure (some r)
  | k :: ks => do
    if ← mappages r k.virt (uint (k.physEnd + 2 ^ 32 - k.physStart)) k.physStart k.perm then
      mapKernel r ks
    else pure none

def setupkvm (K : Image) : VM (Option ℕ) := do
  match ← kalloc with
  | none => pure none
  | some r => do
    memset r 0
    if KERNBASE + PHYSTOP > DEVSPACE then throw (.panic "PHYSTOP too high")
    else mapKernel r (kmap K)

/-- The loop of `deallocuvm`. -/
def deallocuvmFrom (K : Image) (r oldsz : ℕ) : ℕ → ℕ → VM PUnit
  | 0, _ => pure ⟨⟩
  | fuel + 1, a =>
    if a < oldsz then do
      match ← walkpgdir r a false with
      | none => deallocuvmFrom K r oldsz fuel (uint (uint (a + (NPTENTRIES - 1) * PGSIZE) + PGSIZE))
      | some pte => do
        let w ← load pte
        if present w then
          if frame w = 0 then throw (.panic "kfree")
          else do
            kfree K (frame w)
            store pte 0
            deallocuvmFrom K r oldsz fuel (uint (a + PGSIZE))
        else deallocuvmFrom K r oldsz fuel (uint (a + PGSIZE))
    else pure ⟨⟩

def deallocuvm (K : Image) (r oldsz newsz : ℕ) : VM ℕ := do
  if newsz ≥ oldsz then pure oldsz
  else do
    deallocuvmFrom K r oldsz (oldsz / PGSIZE + 1) (PGROUNDUP newsz)
    pure newsz

/-- The loop of `allocuvm`. -/
def allocuvmFrom (K : Image) (r oldsz newsz : ℕ) : ℕ → ℕ → VM ℕ
  | 0, _ => pure newsz
  | fuel + 1, a =>
    if a < newsz then do
      match ← kalloc with
      | none => do
        let _ ← deallocuvm K r newsz oldsz
        pure 0
      | some x => do
        memset x 0
        let _ ← mappages r a PGSIZE (x * PGSIZE) (PTE_W ||| PTE_U)
        allocuvmFrom K r oldsz newsz fuel (uint (a + PGSIZE))
    else pure newsz

@[irreducible] def allocuvm (K : Image) (r oldsz newsz : ℕ) : VM ℕ :=
  if newsz ≥ KERNBASE then pure 0
  else if newsz < oldsz then pure oldsz
  else allocuvmFrom K r oldsz newsz (newsz / PGSIZE + 1) (PGROUNDUP oldsz)

/-- The loop of `freevm`. -/
def freeTables (K : Image) (r : ℕ) : List ℕ → VM PUnit
  | [] => pure ⟨⟩
  | d :: ds => do
    let pde ← load (r, 4 * d)
    if present pde then do
      kfree K (frame pde)
      freeTables K r ds
    else freeTables K r ds

def freevm (K : Image) : Option ℕ → VM PUnit
  | none => throw (.panic "freevm: no pgdir")
  | some r => do
    let _ ← deallocuvm K r KERNBASE 0
    freeTables K r (List.range NPDENTRIES)
    kfree K r

def clearpteu (r uva : ℕ) : VM PUnit := do
  match ← walkpgdir r uva false with
  | none => throw (.panic "clearpteu")
  | some pte => do
    let w ← load pte
    store pte (w &&& 0xFFFFFFFB)

/-- The loop of `copyuvm`, with the new page directory `d`. -/
def copyuvmFrom (K : Image) (r d sz : ℕ) : ℕ → ℕ → VM (Option ℕ)
  | 0, _ => pure (some d)
  | fuel + 1, i =>
    if i < sz then do
      match ← walkpgdir r i false with
      | none => throw (.panic "copyuvm: pte should exist")
      | some pte => do
        let w ← load pte
        if ¬present w then throw (.panic "copyuvm: page not present")
        else
          match ← kalloc with
          | none => do
            freevm K (some d)
            pure none
          | some x => do
            memmove x (frame w)
            if ← mappages d i PGSIZE (x * PGSIZE) (flags w) then
              copyuvmFrom K r d sz fuel (uint (i + PGSIZE))
            else do
              freevm K (some d)
              pure none
    else pure (some d)

def copyuvm (K : Image) (r sz : ℕ) : VM (Option ℕ) := do
  match ← setupkvm K with
  | none => pure none
  | some d => copyuvmFrom K r d sz (sz / PGSIZE + 1) 0

/-- `uva2ka`. The code does not test whether `walkpgdir` has found an entry. -/
def uva2ka (r uva : ℕ) : VM (Option ℕ) := do
  match ← walkpgdir r uva false with
  | none => throw .null
  | some pte => do
    let w ← load pte
    if ¬present w then pure none
    else if ¬user w then pure none
    else pure (some (frame w))

/-- `copyout`; every round copies at least one byte. -/
def copyoutFrom (r : ℕ) : ℕ → ℕ → List UInt8 → VM Bool
  | _, _, [] => pure true
  | 0, _, _ :: _ => pure true
  | fuel + 1, va, b :: bs => do
    let va0 := PGROUNDDOWN va
    match ← uva2ka r va0 with
    | none => pure false
    | some x => do
      let n := PGSIZE - (va - va0)
      modify fun s => s.setPage x ((s.mem x).write (va - va0) ((b :: bs).take n))
      copyoutFrom r fuel (uint (va0 + PGSIZE)) ((b :: bs).drop n)

def copyout (r va : ℕ) (bs : List UInt8) : VM Bool := copyoutFrom r bs.length va bs

end Xv6.Vm
