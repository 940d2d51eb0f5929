import Xv6.Vm.Exec

/-!
# What `exec` does with memory

The part of `exec` that concerns memory, as a function of the file and of the plan: which segments it
loads and into which address space, and where the stack goes. `Fits` says when nothing goes wrong.
-/

namespace Xv6.Vm

/-- Page `j` of the segment can be read in full. -/
def Proghdr.full (ph : Proghdr) (file : List UInt8) (j : ℕ) : Bool :=
  (ph.chunk file j).any fun bs => bs.length == ph.need j

/-- All of the segment can be read. -/
def Proghdr.Complete (ph : Proghdr) (file : List UInt8) : Prop :=
  ∀ j < pages ph.filesz, ph.full file j = true

instance (ph : Proghdr) (file : List UInt8) : Decidable (ph.Complete file) :=
  inferInstanceAs (Decidable (∀ j < _, _))

namespace Plan

/-- Page `x` has been given to the user part of the address space. -/
def Given (P : Plan) (x : ℕ) : Prop := ∃ j, j < 2 ^ 19 ∧ maps (P.entry j) x = true

/-- There is an entry for page `j` of the segment, and it leads to a page of the address space if there
are bytes to store. -/
def PageOk (P : Plan) (file : List UInt8) (ph : Proghdr) (j : ℕ) : Prop :=
  ∃ w, P.entry (uint (ph.vaddr + j * PGSIZE) / PGSIZE) = some w ∧
    ∀ bs, ph.chunk file j = some bs → bs ≠ [] → P.Given (frame w)

/-- The segment starts on a page boundary, and its pages are all right as far as the file can be
read. -/
structure Loads (P : Plan) (file : List UInt8) (ph : Proghdr) : Prop where
  aligned : ph.vaddr % PGSIZE = 0
  page : ∀ j, j * PGSIZE < ph.filesz → (∀ j' < j, ph.full file j' = true) → P.PageOk file ph j

/-- The loop of `exec` over the program headers. The result are the segments that are loaded, each
with the address space at that time, then the new size, if all is well, and the plan in the end. -/
def segments (file : List UInt8) : ℕ → ℕ → ℕ → Plan → List (Proghdr × Plan) × Option ℕ × Plan
  | 0, _, sz, P => ([], some sz, P)
  | n + 1, off, sz, P =>
    match readProg file off with
    | none => ([], none, P)
    | some ph =>
      if ph.type ≠ ELF_PROG_LOAD then segments file n (uint (off + PROGHDR)) sz P
      else if ph.memsz < ph.filesz then ([], none, P)
      else
        let A := P.alloc sz (uint (ph.vaddr + ph.memsz))
        if A.1 = 0 then ([], none, A.2)
        else if ph.Complete file then
          let S := segments file n (uint (off + PROGHDR)) A.1 A.2
          ((ph, A.2) :: S.1, S.2)
        else ([(ph, A.2)], none, A.2)

/-- `copyout` of `n` bytes, or `none` if it comes to a page for which there is no page table. -/
def copyout (P : Plan) : ℕ → ℕ → ℕ → Option Bool
  | _, _, 0 => some true
  | 0, _, _ + 1 => some true
  | fuel + 1, va, n + 1 =>
    match P.entry (va / PGSIZE) with
    | none => none
    | some w =>
      if present w && user w then
        copyout P fuel (uint (PGROUNDDOWN va + PGSIZE)) (n + 1 - (PGSIZE - va % PGSIZE))
      else some false

/-- The stack pointer after the arguments have been pushed, or `none` for `goto bad`; no result at all
if there is no page table. -/
def args (P : Plan) : List (List UInt8) → ℕ → ℕ → Option (Option ℕ)
  | [], argc, sp =>
    let top := uint (sp + 2 ^ 32 - (3 + argc + 1) * 4)
    (P.copyout ((3 + argc + 1) * 4) top ((3 + argc + 1) * 4)).map fun ok => if ok then some top else none
  | arg :: rest, argc, sp =>
    if argc ≥ MAXARG then some none
    else
      match P.copyout (arg.length + 1) (pushed sp arg) (arg.length + 1) with
      | none => none
      | some false => some none
      | some true => args P rest (argc + 1) (pushed sp arg)

/-- The two pages of the stack below `sz` have a page table, and so has every page to which the
arguments go. -/
structure Stacks (P : Plan) (argv : List (List UInt8)) (sz : ℕ) : Prop where
  guard : P.entry (sz / PGSIZE - 2) ≠ none
  args : (P.clear (sz / PGSIZE - 2)).args argv 0 sz ≠ none

end Plan

/-- The segments that are loaded, the top of the stack and the address space once the stack has been
allocated, and the plan in the end. -/
structure Outline where
  loaded : List (Proghdr × Plan)
  stack : Option (ℕ × Plan)
  last : Plan

namespace Plan

/-- Room for the stack behind the segments. -/
def stack (P : Plan) (sz : ℕ) : ℕ × Plan := P.alloc (PGROUNDUP sz) (uint (PGROUNDUP sz + 2 * PGSIZE))

/-- `exec` after `setupkvm`. -/
def image (file : List UInt8) (elf : Elfhdr) (P : Plan) : Outline :=
  let S := P.segments file elf.phnum elf.phoff 0
  match S.2.1 with
  | none => ⟨S.1, none, S.2.2⟩
  | some sz =>
    let A := S.2.2.stack sz
    ⟨S.1, if A.1 = 0 then none else some A, A.2⟩

/-- `exec`. -/
def exec (K : Image) (file : Option (List UInt8)) (P : Plan) : Outline :=
  match file with
  | none => ⟨[], none, P⟩
  | some file =>
    match readElf file with
    | none => ⟨[], none, P⟩
    | some elf =>
      if elf.magic ≠ ELF_MAGIC then ⟨[], none, P⟩
      else if (P.setup K).1 then (P.setup K).2.image file elf
      else ⟨[], none, (P.setup K).2⟩

end Plan

/-- Every segment goes where it should, and so do the arguments. -/
structure Outline.Fits (O : Outline) (file : List UInt8) (argv : List (List UInt8)) : Prop where
  loads : ∀ l ∈ O.loaded, l.2.Loads file l.1
  stack : ∀ sz P, O.stack = some (sz, P) → P.Stacks argv sz

/-- There is no room for the stack or for the arguments. -/
def Outline.Rejects (O : Outline) (argv : List (List UInt8)) : Prop :=
  ∀ sz P, O.stack = some (sz, P) → (P.clear (sz / PGSIZE - 2)).args argv 0 sz = some none

end Xv6.Vm
