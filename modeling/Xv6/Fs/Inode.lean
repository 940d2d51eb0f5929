import Xv6.Bio.Store
import Xv6.Fs.Layout

/-!
# Blocks and inodes

The memory of the file system over the block store of `Xv6.Bio.Store`, and the lower half of `fs.c`:
the block allocator, the inode cache, and reading and writing the contents of an inode.

A section held under `icache.lock` or `ftable.lock` is one atomic step, and so is the use of one
buffer from `bread` to `brelse`, since a block has one holder at a time. A buffer that is kept while
others are used (the indirect block in `bmap` and `itrunc`) is held across steps.
-/

namespace Xv6.Fs

open Conc Lib

/-- An index into `icache.inode`. -/
abbrev ISlot := Fin NINODE

instance : NeZero NINODE := ⟨by decide⟩

/-- An index into `ftable.file`. -/
abbrev FSlot := Fin NFILE

/-- A file descriptor, an index into `proc->ofile`. -/
abbrev Fd := Fin NOFILE

/-- `struct inode`; `d` are the fields copied from disk. -/
structure Inode where
  dev : ℕ
  inum : ℕ
  ref : ℤ
  busy : Bool
  valid : Bool
  d : Dinode

/-- The type of a `struct file`: `FD_NONE`, `FD_PIPE` or `FD_INODE`. -/
inductive FileType where
  | none
  | pipe
  | inode
  deriving DecidableEq

/-- `struct file`. -/
structure File where
  type : FileType
  ref : ℤ
  readable : Bool
  writable : Bool
  ip : ISlot
  off : ℕ

/-- The states of a process the file system can tell apart: an embryo is being made by its parent
and does not run yet. -/
inductive ProcState (Pid : Type) where
  | unused
  | embryo (parent : Pid)
  | live

/-- The part of `struct proc` that the file system uses; `eax` is the result of the last call. -/
structure Proc (Pid : Type) where
  state : ProcState Pid
  ofile : Fd → Option FSlot
  cwd : Option ISlot
  eax : ℤ

/-- What a process has done so far: `begin_op` less `end_op`, how often it set `I_BUSY` on an entry
less how often it cleared it, and the inode its `ialloc` has marked and not yet got. -/
structure Aux where
  ops : ℤ
  locks : ISlot → ℤ
  marked : Option ℕ

/-- The state of the file system. `aux` and `alive` are bookkeeping that no branch of the code reads:
an inode is alive from the step that allocates it to the step that decides to free it. -/
structure State (Pid : Type) where
  store : Bio.Store Pid
  sb : Superblock
  inode : ISlot → Inode
  file : FSlot → File
  proc : Pid → Proc Pid
  aux : Pid → Aux
  alive : ℕ → Bool

variable {Pid : Type} [DecidableEq Pid]

namespace State

variable (s : State Pid)

/-- The contents of a block. -/
def block (dev b : ℕ) : Bytes := s.store.content dev b

def putBlock (dev b : ℕ) (m : Bytes) : State Pid := { s with store := s.store.put dev b m }

def setInode (i : ISlot) (e : Inode) : State Pid := { s with inode := Function.update s.inode i e }

def setFile (f : FSlot) (e : File) : State Pid := { s with file := Function.update s.file f e }

def setAux (p : Pid) (a : Aux) : State Pid := { s with aux := Function.update s.aux p a }

/-- Count one more (or less) `I_BUSY` of a process on an entry. -/
def addLock (p : Pid) (i : ISlot) (n : ℤ) : State Pid :=
  s.setAux p { s.aux p with locks := Function.update (s.aux p).locks i ((s.aux p).locks i + n) }

def setMarked (p : Pid) (inum : Option ℕ) : State Pid :=
  s.setAux p { s.aux p with marked := inum }

def setAlive (inum : ℕ) (a : Bool) : State Pid := { s with alive := Function.update s.alive inum a }

end State

/-- A section that uses the buffer of one block, from `bread` to `brelse`. It waits while another
process holds the block. -/
def onBlock {α : Type} (dev b : ℕ) (f : Bytes → Outcome (State Pid) α) (s : State Pid) :
    Outcome (State Pid) α :=
  if FSSIZE ≤ b then .fault (.panic "incorrect blockno")
  else match s.store.holder dev b with
    | some _ => .blocked
    | none => f (s.block dev b)

/-- `bread` of a buffer that is kept. -/
def bread (p : Pid) (dev b : ℕ) : Prog (State Pid) Unit :=
  .atomic fun s => onBlock dev b (fun _ => .ok () { s with store := s.store.setHolder dev b (some p) }) s

def brelse (dev b : ℕ) : Prog (State Pid) Unit :=
  .modifies fun s => { s with store := s.store.setHolder dev b none }

/-! ## Transactions -/

/-- `begin_op`; the log itself, and the wait for space in it, is the subject of `Xv6.Bio`. -/
def beginOp (p : Pid) : Prog (State Pid) Unit :=
  .modifies fun s => s.setAux p { s.aux p with ops := (s.aux p).ops + 1 }

def endOp (p : Pid) : Prog (State Pid) Unit :=
  .modifies fun s => s.setAux p { s.aux p with ops := (s.aux p).ops - 1 }

/-! ## Blocks -/

/-- `readsb` into the global `sb`. -/
def readsb (dev : ℕ) : Prog (State Pid) Unit :=
  .atomic fun s => onBlock dev 1 (fun m => .ok () { s with sb := .ofBytes m }) s

def bzero (dev bno : ℕ) : Prog (State Pid) Unit :=
  .atomic fun s => onBlock dev bno (fun _ => .ok () (s.putBlock dev bno fun _ => 0)) s

/-- The inner loop of `balloc`: the first free bit of a bitmap block, from `bi` on, that stands for a
block below `size`. -/
def freeBit (size b : ℕ) (m : Bytes) : ℕ → ℕ → Option ℕ
  | 0, _ => none
  | fuel + 1, bi =>
    if b + bi < size then
      if m.bit bi then freeBit size b m fuel (bi + 1) else some bi
    else none

/-- One iteration of the outer loop of `balloc`: take a free block of those a bitmap block covers. -/
def ballocStep (dev b : ℕ) (s : State Pid) : Outcome (State Pid) (Option ℕ) :=
  onBlock dev (BBLOCK b s.sb) (fun m =>
    match freeBit s.sb.size b m BPB 0 with
    | some bi => .ok (some (b + bi)) (s.putBlock dev (BBLOCK b s.sb) (m.setBit bi))
    | none => .ok none s) s

def ballocFrom (dev : ℕ) : ℕ → ℕ → Prog (State Pid) ℕ
  | 0, _ => .fail (.panic "balloc: out of blocks")
  | fuel + 1, b => do
    match ← Prog.atomic (ballocStep dev b) with
    | some b => do
      bzero dev b
      pure b
    | none => ballocFrom dev fuel (b + BPB)

/-- `balloc`: allocate a zeroed disk block. -/
def balloc (dev : ℕ) : Prog (State Pid) ℕ := do
  let sb ← Prog.reads fun s : State Pid => s.sb
  ballocFrom dev ((sb.size + BPB - 1) / BPB) 0

def bfreeStep (dev b : ℕ) (s : State Pid) : Outcome (State Pid) Unit :=
  onBlock dev (BBLOCK b s.sb) (fun m =>
    if m.bit (b % BPB) then .ok () (s.putBlock dev (BBLOCK b s.sb) (m.clearBit (b % BPB)))
    else .fault (.panic "freeing free block")) s

def bfree (dev b : ℕ) : Prog (State Pid) Unit := do
  readsb dev
  Prog.atomic (bfreeStep dev b)

/-! ## The inode cache -/

/-- `iget`: find the entry of an inode, or recycle an unused one. -/
def igetStep (p : Pid) (dev inum : ℕ) (s : State Pid) : Outcome (State Pid) ISlot :=
  let s := s.setMarked p none
  match (List.finRange NINODE).find? fun i =>
      0 < (s.inode i).ref ∧ (s.inode i).dev = dev ∧ (s.inode i).inum = inum with
  | some i => .ok i (s.setInode i { s.inode i with ref := (s.inode i).ref + 1 })
  | none =>
    match (List.finRange NINODE).find? fun i => (s.inode i).ref = 0 with
    | some i => .ok i (s.setInode i { s.inode i with dev, inum, ref := 1, busy := false, valid := false })
    | none => .fault (.panic "iget: no inodes")

def iget (p : Pid) (dev inum : ℕ) : Prog (State Pid) ISlot := .atomic (igetStep p dev inum)

/-- `iupdate`: copy a modified in-memory inode to disk. -/
def iupdate (i : ISlot) : Prog (State Pid) Unit :=
  .atomic fun s =>
    let ip := s.inode i
    onBlock ip.dev (IBLOCK ip.inum s.sb) (fun m =>
      .ok () (s.putBlock ip.dev (IBLOCK ip.inum s.sb) (Dinode.write m ip.inum ip.d))) s

def idup (i : ISlot) : Prog (State Pid) ISlot :=
  .atomic fun s => .ok i (s.setInode i { s.inode i with ref := (s.inode i).ref + 1 })

/-- The first part of `ilock`: wait for `I_BUSY` to be clear and set it. -/
def ilockStep (p : Pid) (i : ISlot) (s : State Pid) : Outcome (State Pid) Unit :=
  if (s.inode i).ref < 1 then .fault (.panic "ilock")
  else if (s.inode i).busy then .blocked
  else .ok () ((s.setInode i { s.inode i with busy := true }).addLock p i 1)

/-- The second part of `ilock`: read the inode from disk if the entry is not valid. -/
def iloadStep (i : ISlot) (s : State Pid) : Outcome (State Pid) Unit :=
  let ip := s.inode i
  if ip.valid then .ok () s
  else onBlock ip.dev (IBLOCK ip.inum s.sb) (fun m =>
    let d := Dinode.read m ip.inum
    if d.type = 0 then .fault (.panic "ilock: no type")
    else .ok () (s.setInode i { ip with d, valid := true })) s

def ilock (p : Pid) (i : ISlot) : Prog (State Pid) Unit := do
  Prog.atomic (ilockStep p i)
  Prog.atomic (iloadStep i)

def iunlockStep (p : Pid) (i : ISlot) (s : State Pid) : Outcome (State Pid) Unit :=
  if ¬(s.inode i).busy ∨ (s.inode i).ref < 1 then .fault (.panic "iunlock")
  else .ok () ((s.setInode i { s.inode i with busy := false }).addLock p i (-1))

def iunlock (p : Pid) (i : ISlot) : Prog (State Pid) Unit := .atomic (iunlockStep p i)

/-! ## Inode content -/

/-- Change the fields of an in-memory inode. -/
def setDinode (i : ISlot) (f : Dinode → Dinode) : Prog (State Pid) Unit :=
  .modifies fun s => s.setInode i { s.inode i with d := f (s.inode i).d }

def setAddr (i : ISlot) (j : Fin (NDIRECT + 1)) (b : ℕ) : Prog (State Pid) Unit :=
  setDinode i fun d => { d with addrs := Function.update d.addrs j b }

/-- `ip->addrs[j]`, allocated if it is zero. -/
def bmapAddr (i : ISlot) (j : Fin (NDIRECT + 1)) : Prog (State Pid) ℕ := do
  let ip ← Prog.reads fun s : State Pid => s.inode i
  if ip.d.addrs j = 0 then do
    let addr ← balloc ip.dev
    setAddr i j addr
    pure addr
  else pure (ip.d.addrs j)

/-- `bmap`: the disk block address of the `bn`th block of the inode, allocated if there is none. -/
def bmap (p : Pid) (i : ISlot) (bn : ℕ) : Prog (State Pid) ℕ :=
  if bn < NDIRECT then bmapAddr i (Fin.ofNat _ bn)
  else if bn - NDIRECT < NINDIRECT then do
    let bn := bn - NDIRECT
    let addr ← bmapAddr i (Fin.last NDIRECT)
    let dev ← Prog.reads fun s : State Pid => (s.inode i).dev
    bread p dev addr
    let a ← Prog.reads fun s : State Pid => (s.block dev addr).word 4 (4 * bn)
    if a = 0 then do
      let a ← balloc dev
      Prog.modifies fun s : State Pid =>
        s.putBlock dev addr ((s.block dev addr).setWord 4 (4 * bn) a)
      brelse dev addr
      pure a
    else do
      brelse dev addr
      pure a
  else .fail (.panic "bmap: out of range")

/-- The first loop of `itrunc`, from direct address `j` on. -/
def itruncDirect (i : ISlot) : List (Fin (NDIRECT + 1)) → Prog (State Pid) Unit
  | [] => pure ()
  | j :: js => do
    let ip ← Prog.reads fun s : State Pid => s.inode i
    if ip.d.addrs j ≠ 0 then do
      bfree ip.dev (ip.d.addrs j)
      setAddr i j 0
      itruncDirect i js
    else itruncDirect i js

/-- The second loop of `itrunc`, over the addresses in the indirect block `b`. -/
def itruncIndirect (dev b : ℕ) : ℕ → ℕ → Prog (State Pid) Unit
  | 0, _ => pure ()
  | fuel + 1, j => do
    let a ← Prog.reads fun s : State Pid => (s.block dev b).word 4 (4 * j)
    if a ≠ 0 then do
      bfree dev a
      itruncIndirect dev b fuel (j + 1)
    else itruncIndirect dev b fuel (j + 1)

/-- The part of `itrunc` that frees the indirect block and the blocks it lists. -/
def itruncLast (p : Pid) (i : ISlot) : Prog (State Pid) Unit := do
  let ip ← Prog.reads fun s : State Pid => s.inode i
  let b := ip.d.addrs (Fin.last NDIRECT)
  if b ≠ 0 then do
    bread p ip.dev b
    itruncIndirect ip.dev b NINDIRECT 0
    brelse ip.dev b
    bfree ip.dev b
    setAddr i (Fin.last NDIRECT) 0

/-- `itrunc`: discard the contents of an inode. -/
def itrunc (p : Pid) (i : ISlot) : Prog (State Pid) Unit := do
  itruncDirect i ((List.finRange NDIRECT).map Fin.castSucc)
  itruncLast p i
  setDinode i fun d => { d with size := 0 }
  iupdate i

/-- The first locked part of `iput`. If this is the last reference to an inode without links, the
entry becomes busy and the result is `true`; otherwise the reference is dropped. -/
def iputStep (p : Pid) (i : ISlot) (s : State Pid) : Outcome (State Pid) Bool :=
  let ip := s.inode i
  if ip.ref = 1 ∧ ip.valid ∧ ip.d.nlink = 0 then
    if ip.busy then .fault (.panic "iput busy")
    else .ok true (((s.setInode i { ip with busy := true }).addLock p i 1).setAlive ip.inum false)
  else .ok false (s.setInode i { ip with ref := ip.ref - 1 })

/-- The second locked part of `iput`. -/
def iputEnd (p : Pid) (i : ISlot) : Prog (State Pid) Unit :=
  .modifies fun s =>
    (s.setInode i { s.inode i with busy := false, valid := false, ref := (s.inode i).ref - 1 }).addLock
      p i (-1)

/-- `iput`: drop a reference to an in-memory inode, and free the inode if that was the last one and
the inode has no links. -/
def iput (p : Pid) (i : ISlot) : Prog (State Pid) Unit := do
  if ← Prog.atomic (iputStep p i) then do
    itrunc p i
    setDinode i fun d => { d with type := 0 }
    iupdate i
    iputEnd p i

def iunlockput (p : Pid) (i : ISlot) : Prog (State Pid) Unit := do
  iunlock p i
  iput p i

/-- Device number of the console. -/
abbrev CONSOLE : ℤ := 1

/-- Maximum major device number. -/
abbrev NDEV : ℤ := 10

/-- Whether `devsw[major]` has functions; only the console's are ever set. -/
def devsw (major : Short) : Bool :=
  ¬(major.toInt < 0 ∨ NDEV ≤ major.toInt) ∧ major.toInt = CONSOLE

/-- `consoleread`: the inode is unlocked while the process waits for input; `con` is what comes. -/
def consoleread (p : Pid) (i : ISlot) (con : Option (List UInt8)) :
    Prog (State Pid) (Option (List UInt8)) := do
  iunlock p i
  ilock p i
  pure con

/-- `consolewrite`: the inode is unlocked while the characters are printed. -/
def consolewrite (p : Pid) (i : ISlot) (n : ℕ) : Prog (State Pid) ℤ := do
  iunlock p i
  ilock p i
  pure n

/-- A number as a C `uint`. -/
def uint (x : ℕ) : ℕ := x % 2 ^ 32

/-- The loop of `readi`, with `n` bytes still to come. -/
def readLoop (p : Pid) (i : ISlot) : ℕ → ℕ → ℕ → Prog (State Pid) (List UInt8)
  | 0, _, _ => pure []
  | fuel + 1, off, n =>
    if n = 0 then pure []
    else do
      let dev ← Prog.reads fun s : State Pid => (s.inode i).dev
      let b ← bmap p i (off / BSIZE)
      let m := min n (BSIZE - off % BSIZE)
      let bs ← Prog.atomic fun s : State Pid => onBlock dev b (fun d => .ok (d.read (off % BSIZE) m) s) s
      let rest ← readLoop p i fuel (off + m) (n - m)
      pure (bs ++ rest)

/-- `readi`; the result is `none` for `-1`. `con` is what the console delivers if it is asked. -/
def readi (p : Pid) (i : ISlot) (off n : ℕ) (con : Option (List UInt8)) :
    Prog (State Pid) (Option (List UInt8)) := do
  let d ← Prog.reads fun s : State Pid => (s.inode i).d
  if d.type = T_DEV then
    if devsw d.major then consoleread p i con else pure none
  else if d.size < off ∨ uint (off + n) < off then pure none
  else do
    let n := if d.size < uint (off + n) then d.size - off else n
    let bs ← readLoop p i n off n
    pure (some bs)

/-- The loop of `writei`, with the bytes of `src` still to go; the result is the final offset. -/
def writeLoop (p : Pid) (i : ISlot) : ℕ → ℕ → List UInt8 → Prog (State Pid) ℕ
  | 0, off, _ => pure off
  | fuel + 1, off, src =>
    if src = [] then pure off
    else do
      let dev ← Prog.reads fun s : State Pid => (s.inode i).dev
      let b ← bmap p i (off / BSIZE)
      let m := min src.length (BSIZE - off % BSIZE)
      Prog.atomic fun s : State Pid => onBlock dev b
        (fun d => .ok () (s.putBlock dev b (d.write (off % BSIZE) (src.take m)))) s
      writeLoop p i fuel (off + m) (src.drop m)

/-- `writei`: write the bytes of `src` at `off`. -/
def writei (p : Pid) (i : ISlot) (src : List UInt8) (off : ℕ) : Prog (State Pid) ℤ := do
  let n := src.length
  let d ← Prog.reads fun s : State Pid => (s.inode i).d
  if d.type = T_DEV then
    if devsw d.major then consolewrite p i n else pure (-1)
  else if d.size < off ∨ uint (off + n) < off then pure (-1)
  else if MAXFILE * BSIZE < uint (off + n) then pure (-1)
  else do
    let off ← writeLoop p i n off src
    let size ← Prog.reads fun s : State Pid => (s.inode i).d.size
    if 0 < n ∧ size < off then do
      setDinode i fun d => { d with size := off }
      iupdate i
      pure n
    else pure n

end Xv6.Fs
