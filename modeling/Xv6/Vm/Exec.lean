import Xv6.Vm.Plan

/-!
# `exec`

`exec.c` and `loaduvm`, for a file with given contents. While segments are loaded, a store that hits a
page which has not been given to the new address space stops the model with the error `stray`.
-/

namespace Xv6.Vm

open Lib

/-! ## The file -/

abbrev ELF_MAGIC : ℕ := 0x464C457F

/-- `sizeof(struct elfhdr)`. -/
abbrev ELFHDR : ℕ := 52

/-- `sizeof(struct proghdr)`. -/
abbrev PROGHDR : ℕ := 32

abbrev ELF_PROG_LOAD : ℕ := 1

/-- Bytes as memory. -/
def buffer (bs : List UInt8) : Bytes := fun o => bs.getD o 0

/-- `readi` on a file with the given contents; `none` is `-1`. -/
def readi (file : List UInt8) (off n : ℕ) : Option (List UInt8) :=
  if off > file.length ∨ uint (off + n) < off then none else some ((file.drop off).take n)

structure Elfhdr where
  magic : ℕ
  entry : ℕ
  phoff : ℕ
  phnum : ℕ

def Elfhdr.ofBytes (m : Bytes) : Elfhdr := ⟨m.word 4 0, m.word 4 24, m.word 4 28, m.word 2 44⟩

/-- The header of the file, if it is long enough. Reading at offset 0 does not fail. -/
def readElf (file : List UInt8) : Option Elfhdr :=
  let bs := (readi file 0 ELFHDR).getD []
  if bs.length < ELFHDR then none else some (.ofBytes (buffer bs))

structure Proghdr where
  type : ℕ
  off : ℕ
  vaddr : ℕ
  filesz : ℕ
  memsz : ℕ

def Proghdr.ofBytes (m : Bytes) : Proghdr :=
  ⟨m.word 4 0, m.word 4 4, m.word 4 8, m.word 4 16, m.word 4 20⟩

/-- The program header at `off`, if all of it can be read. -/
def readProg (file : List UInt8) (off : ℕ) : Option Proghdr :=
  match readi file off PROGHDR with
  | none => none
  | some bs => if bs.length ≠ PROGHDR then none else some (.ofBytes (buffer bs))

/-! ## Loading -/

/-- The entry maps page `x` for the user. -/
def maps (e : Option ℕ) (x : ℕ) : Bool := e.any fun w => present w && user w && frame w == x

/-- Page `x` has been given to the user part of the address space with the directory `r`. -/
def Phys.Given (s : Phys) (r x : ℕ) : Prop := ∃ j, j < 2 ^ 19 ∧ maps (s.entry r j) x = true

instance (s : Phys) (r x : ℕ) : Decidable (s.Given r x) := inferInstanceAs (Decidable (∃ j, j < 2 ^ 19 ∧ _))

/-- Store bytes at the beginning of page `x`. -/
def storeBytes (r x : ℕ) (bs : List UInt8) : VM PUnit := do
  let s ← get
  if bs ≠ [] ∧ ¬s.Given r x then throw .stray
  else modify fun s => s.setPage x ((s.mem x).write 0 bs)

/-- How much of page `j` of a segment the file has to supply. -/
def Proghdr.need (ph : Proghdr) (j : ℕ) : ℕ :=
  if ph.filesz - j * PGSIZE < PGSIZE then ph.filesz - j * PGSIZE else PGSIZE

/-- The bytes for page `j` of a segment. -/
def Proghdr.chunk (ph : Proghdr) (file : List UInt8) (j : ℕ) : Option (List UInt8) :=
  readi file (uint (ph.off + j * PGSIZE)) (ph.need j)

/-- The loop of `loaduvm`, from page `j` on. A file has less than `2 ^ 32` bytes, so no segment has
`2 ^ 20` pages that can be read. -/
def loaduvmFrom (file : List UInt8) (r : ℕ) (ph : Proghdr) : ℕ → ℕ → VM Bool
  | 0, _ => pure true
  | fuel + 1, j =>
    if j * PGSIZE < ph.filesz then do
      match ← walkpgdir r (uint (ph.vaddr + j * PGSIZE)) false with
      | none => throw (.panic "loaduvm: address should exist")
      | some pte => do
        let w ← load pte
        match ph.chunk file j with
        | none => pure false
        | some bs => do
          storeBytes r (frame w) bs
          if bs.length ≠ ph.need j then pure false
          else loaduvmFrom file r ph fuel (j + 1)
    else pure true

def loaduvm (file : List UInt8) (r : ℕ) (ph : Proghdr) : VM Bool :=
  if ph.vaddr % PGSIZE ≠ 0 then throw (.panic "loaduvm: addr must be page aligned")
  else loaduvmFrom file r ph (ph.filesz / PGSIZE + 1) 0

/-- The loop of `exec` over `n` program headers, the first of which is at `off`. The result is the new
size, or `none` for `goto bad`. -/
def execSegments (K : Image) (file : List UInt8) (r : ℕ) : ℕ → ℕ → ℕ → VM (Option ℕ)
  | 0, _, sz => pure (some sz)
  | n + 1, off, sz =>
    match readProg file off with
    | none => pure none
    | some ph =>
      if ph.type ≠ ELF_PROG_LOAD then execSegments K file r n (uint (off + PROGHDR)) sz
      else if ph.memsz < ph.filesz then pure none
      else do
        let sz ← allocuvm K r sz (uint (ph.vaddr + ph.memsz))
        if sz = 0 then pure none
        else do
          if ← loaduvm file r ph then execSegments K file r n (uint (off + PROGHDR)) sz
          else pure none

/-! ## The stack -/

abbrev MAXARG : ℕ := 32

/-- `(sp - (strlen(arg) + 1)) & ~3`. -/
def pushed (sp : ℕ) (arg : List UInt8) : ℕ := uint (sp + 2 ^ 32 - uint (arg.length + 1)) / 4 * 4

/-- The words that go on the stack below the arguments. -/
def ustack (argc sp : ℕ) (ptrs : List ℕ) : List UInt8 :=
  (0xFFFFFFFF :: argc :: uint (sp + 2 ^ 32 - (argc + 1) * 4) :: ptrs ++ [0]).flatMap (Bytes.le 4)

/-- Push the arguments and then `ustack`; `ptrs` are the addresses of the `argc` arguments that have
been pushed. The result is the stack pointer, or `none` for `goto bad`. -/
def execArgs (r : ℕ) : List (List UInt8) → ℕ → ℕ → List ℕ → VM (Option ℕ)
  | [], argc, sp, ptrs => do
    let top := uint (sp + 2 ^ 32 - (3 + argc + 1) * 4)
    if ← copyout r top (ustack argc sp ptrs) then pure (some top) else pure none
  | arg :: args, argc, sp, ptrs =>
    if argc ≥ MAXARG then pure none
    else do
      let sp := pushed sp arg
      if ← copyout r sp (arg ++ [0]) then execArgs r args (argc + 1) sp (ptrs ++ [sp]) else pure none

/-- Two pages for the stack behind the segments, the first of which is made inaccessible, and the
arguments. The result is the size and the stack pointer of the new image, or `none` for `goto bad`. -/
def execStack (K : Image) (argv : List (List UInt8)) (r sz : ℕ) : VM (Option (ℕ × ℕ)) := do
  let sz := PGROUNDUP sz
  let sz ← allocuvm K r sz (uint (sz + 2 * PGSIZE))
  if sz = 0 then pure none
  else do
    clearpteu r (uint (sz + 2 ^ 32 - 2 * PGSIZE))
    match ← execArgs r argv 0 sz [] with
    | none => pure none
    | some sp => pure (some (sz, sp))

/-- `exec` between `setupkvm` and the commit. -/
def execImage (K : Image) (file : List UInt8) (elf : Elfhdr) (argv : List (List UInt8)) (r : ℕ) :
    VM (Option (ℕ × ℕ)) := do
  match ← execSegments K file r elf.phnum elf.phoff 0 with
  | none => pure none
  | some sz => execStack K argv r sz

/-! ## `exec` -/

/-- What a process knows of its memory: `pgdir`, `sz`, two registers of the trap frame, and `name`. -/
structure Space where
  pgdir : ℕ
  sz : ℕ
  eip : ℕ
  esp : ℕ
  name : List UInt8

/-- The name of the program at a path, as much of it as fits. -/
def progName (path : List UInt8) : List UInt8 :=
  ((path.reverse.takeWhile (· ≠ '/'.toUInt8)).reverse).take 15

/-- `exec` by the process with the address space `self`, for a path that names a file with the given
contents, or none. The result is that of `exec` and the process's address space. -/
def exec (K : Image) (file : Option (List UInt8)) (path : List UInt8) (argv : List (List UInt8))
    (self : Space) : VM (ℤ × Space) := do
  match file with
  | none => pure (-1, self)
  | some file =>
    match readElf file with
    | none => pure (-1, self)
    | some elf =>
      if elf.magic ≠ ELF_MAGIC then pure (-1, self)
      else
        match ← setupkvm K with
        | none => pure (-1, self)
        | some r =>
          match ← execImage K file elf argv r with
          | none => do
            freevm K (some r)
            pure (-1, self)
          | some (sz, sp) => do
            freevm K (some self.pgdir)
            pure (0, ⟨r, sz, elf.entry, sp, progName path⟩)

end Xv6.Vm
