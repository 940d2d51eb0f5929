import Xv6.Fs.Transfer
import Xv6.Vm.Paging

/-!
# What `read` and `write` do with user memory

`sys_read` and `sys_write` with everything they call, as far as it concerns the user addresses they use:
the arguments of the call and their checks, and each load and store through the pointer. What the rest
of the kernel does meanwhile (characters that arrive, a file that grows) is given by an `Env`.
-/

namespace Xv6.User

open Lib Fs

/-- Code that keeps a list of the user addresses it has used. An error is a panic. -/
abbrev Traced := Exec (List ℕ) String

/-- Load or store the byte at `a`. -/
def touch (a : ℕ) : Traced PUnit := modify (uint a :: ·)

/-- `memmove` of `m` bytes to or from `a`. -/
def memmove (a m : ℕ) : Traced PUnit := modify (((List.range m).map fun j => uint (a + j)) ++ ·)

/-! ## `syscall.c` -/

/-- An open file. -/
structure File where
  type : FileType
  readable : Bool
  writable : Bool

/-- The calling process, with its memory at the time of the call. -/
structure Proc where
  sz : ℕ
  esp : ℕ
  ofile : Fd → Option File
  mem : Bytes

/-- A number as a C `int`. -/
def int (x : ℕ) : ℤ := Int.bmod x (2 ^ 32)

/-- A C `int` as a `uint`. -/
def unsigned (n : ℤ) : ℕ := (n % 2 ^ 32).toNat

namespace Proc

variable (p : Proc)

def fetchint (addr : ℕ) : Option ℤ :=
  if addr ≥ p.sz ∨ uint (addr + 4) > p.sz then none else some (int (p.mem.word 4 addr))

def argint (n : ℕ) : Option ℤ := p.fetchint (uint (p.esp + 4 + 4 * n))

/-- `argptr`: the pointer must lie in user memory, with `size` bytes from it on. -/
def argptr (n : ℕ) (size : ℤ) : Option ℕ :=
  match p.argint n with
  | none => none
  | some i =>
    if unsigned i ≥ p.sz ∨ uint (unsigned i + unsigned size) > p.sz then none else some (unsigned i)

def argfd (n : ℕ) : Option File :=
  match p.argint n with
  | none => none
  | some fd => if fd < 0 ∨ (NOFILE : ℤ) ≤ fd then none else p.ofile (Fin.ofNat NOFILE fd.toNat)

end Proc

/-! ## The rest of the kernel -/

/-- What `readi` and `writei` look at in an inode. A file is never larger than its blocks allow. -/
structure Ino where
  type : Short
  major : Short
  size : ℕ
  size_le : size ≤ MAXFILE * BSIZE

/-- What the call meets: the inode and the offset when the file is locked for the `k`th time, whether
there is a block for the `b`th block of the file then; the number of bytes in the pipe, unless the
process is killed while it waits for them, and whether there will be room for the `i`th byte; and the
`i`th character from the console, unless the process is killed while it waits for it. -/
structure Env where
  ino : ℕ → Ino
  off : ℕ → ℕ
  block : ℕ → ℕ → Bool
  avail : Option ℕ
  room : ℕ → Bool
  input : ℕ → Option UInt8

/-! ## `pipe.c` -/

/-- The loop of `piperead`, with `avail` bytes left in the pipe. -/
def pipereadFrom (addr : ℕ) (n : ℤ) : ℕ → ℕ → Traced ℤ
  | 0, i => pure i
  | avail + 1, i =>
    if i < n then do
      touch (addr + i)
      pipereadFrom addr n avail (i + 1)
    else pure i

def piperead (env : Env) (addr : ℕ) (n : ℤ) : Traced ℤ :=
  match env.avail with
  | none => pure (-1)
  | some avail => pipereadFrom addr n avail 0

/-- The loop of `pipewrite`. -/
def pipewriteFrom (env : Env) (addr : ℕ) (n : ℤ) : ℕ → ℕ → Traced ℤ
  | 0, _ => pure n
  | fuel + 1, i =>
    if i < n then
      if env.room i then do
        touch (addr + i)
        pipewriteFrom env addr n fuel (i + 1)
      else pure (-1)
    else pure n

def pipewrite (env : Env) (addr : ℕ) (n : ℤ) : Traced ℤ := pipewriteFrom env addr n n.toNat 0

/-! ## `console.c` -/

/-- `C('D')`, the end of the input. -/
def ctrlD : UInt8 := 4

/-- The loop of `consoleread`, with `n` bytes to come after `i` characters. -/
def consolereadFrom (env : Env) (dst : ℕ) (target : ℤ) : ℕ → ℕ → Traced ℤ
  | 0, i => pure (target - (target - i))
  | n + 1, i =>
    match env.input i with
    | none => pure (-1)
    | some c =>
      if c = ctrlD then pure (target - (n + 1))
      else do
        touch (dst + i)
        if c = '\n'.toUInt8 then pure (target - n) else consolereadFrom env dst target n (i + 1)

def consoleread (env : Env) (dst : ℕ) (n : ℤ) : Traced ℤ := consolereadFrom env dst n n.toNat 0

/-- The loop of `consolewrite`. -/
def consolewriteFrom (buf : ℕ) : ℕ → ℕ → Traced PUnit
  | 0, _ => pure ⟨⟩
  | n + 1, i => do
    touch (buf + i)
    consolewriteFrom buf n (i + 1)

def consolewrite (buf : ℕ) (n : ℤ) : Traced ℤ := do
  consolewriteFrom buf n.toNat 0
  pure n

/-! ## `fs.c` -/

/-- The loop of `readi`. The blocks below the size exist, so that `bmap` finds them. -/
def readLoop : ℕ → ℕ → ℕ → ℕ → Traced PUnit
  | 0, _, _, _ => pure ⟨⟩
  | fuel + 1, dst, off, n =>
    if n = 0 then pure ⟨⟩
    else do
      let m := min n (BSIZE - off % BSIZE)
      memmove dst m
      readLoop fuel (uint (dst + m)) (uint (off + m)) (n - m)

def readi (env : Env) (ip : Ino) (dst off n : ℕ) : Traced ℤ :=
  if ip.type = T_DEV then
    if devsw ip.major then consoleread env dst (int n) else pure (-1)
  else if ip.size < off ∨ uint (off + n) < off then pure (-1)
  else do
    let n := if ip.size < uint (off + n) then ip.size - off else n
    readLoop n dst off n
    pure n

/-- The loop of `writei`. `bmap` panics if it finds no block. -/
def writeLoop (block : ℕ → Bool) : ℕ → ℕ → ℕ → ℕ → Traced PUnit
  | 0, _, _, _ => pure ⟨⟩
  | fuel + 1, src, off, n =>
    if n = 0 then pure ⟨⟩
    else if ¬block (off / BSIZE) then throw "balloc: out of blocks"
    else do
      let m := min n (BSIZE - off % BSIZE)
      memmove src m
      writeLoop block fuel (uint (src + m)) (uint (off + m)) (n - m)

def writei (ip : Ino) (block : ℕ → Bool) (src off n : ℕ) : Traced ℤ :=
  if ip.type = T_DEV then
    if devsw ip.major then consolewrite src (int n) else pure (-1)
  else if ip.size < off ∨ uint (off + n) < off then pure (-1)
  else if MAXFILE * BSIZE < uint (off + n) then pure (-1)
  else do
    writeLoop block n src off n
    pure n

/-! ## `file.c` -/

def fileread (env : Env) (f : File) (addr : ℕ) (n : ℤ) : Traced ℤ :=
  if ¬f.readable then pure (-1)
  else match f.type with
    | .pipe => piperead env addr n
    | .inode => readi env (env.ino 0) addr (env.off 0) (unsigned n)
    | .none => throw "fileread"

/-- The loop of `filewrite`, in round `k`; the result is the final `i`. -/
def filewriteLoop (env : Env) (addr : ℕ) (n : ℤ) : ℕ → ℕ → ℕ → Traced ℕ
  | 0, _, i => pure i
  | fuel + 1, k, i =>
    if i < n then do
      let n1 := min (n.toNat - i) writeMax
      let r ← writei (env.ino k) (env.block k) (uint (addr + i)) (env.off k) n1
      if r < 0 then pure i
      else if r ≠ n1 then throw "short filewrite"
      else filewriteLoop env addr n fuel (k + 1) (i + r.toNat)
    else pure i

def filewrite (env : Env) (f : File) (addr : ℕ) (n : ℤ) : Traced ℤ :=
  if ¬f.writable then pure (-1)
  else match f.type with
    | .pipe => pipewrite env addr n
    | .inode => do
      let i ← filewriteLoop env addr n n.toNat 0 0
      pure (if i = n then n else -1)
    | .none => throw "filewrite"

/-! ## `sysfile.c` -/

/-- The two calls. -/
inductive Dir where
  | read
  | write
  deriving DecidableEq

/-- The checks of `sys_read` and `sys_write`: the file, the pointer and the count. -/
def Proc.args (p : Proc) : Option (File × ℕ × ℤ) :=
  match p.argfd 0, p.argint 2 with
  | some f, some n => (p.argptr 1 n).map fun addr => (f, addr, n)
  | _, _ => none

def sysRead (p : Proc) (env : Env) : Traced ℤ :=
  match p.args with
  | some (f, addr, n) => fileread env f addr n
  | none => pure (-1)

def sysWrite (p : Proc) (env : Env) : Traced ℤ :=
  match p.args with
  | some (f, addr, n) => filewrite env f addr n
  | none => pure (-1)

def Dir.run : Dir → Proc → Env → Traced ℤ
  | .read => sysRead
  | .write => sysWrite

/-- The user addresses that code has used when it returns or panics. -/
def touched {α : Type} (x : Traced α) (t : List ℕ) : List ℕ :=
  match x t with
  | .ok _ t => t
  | .error _ t => t

end Xv6.User
