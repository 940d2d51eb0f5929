import Xv6.Fs.Path
import Xv6.Lib.Exec

/-!
# Making a file system

`mkfs.c`: the program that writes the initial image from a list of files. It keeps two counters, the
first inode and the first block that it has not used yet, and writes everything else to the image.
-/

namespace Xv6.Mkfs

open Lib Fs

abbrev NINODES : ℕ := 200

abbrev nbitmap : ℕ := FSSIZE / (BSIZE * 8) + 1

abbrev ninodeblocks : ℕ := NINODES / IPB + 1

abbrev nlog : ℕ := LOGSIZE

/-- Number of meta blocks: boot, superblock, log, inodes and bitmap. -/
abbrev nmeta : ℕ := 2 + nlog + ninodeblocks + nbitmap

abbrev nblocks : ℕ := FSSIZE - nmeta

def sb : Superblock where
  size := FSSIZE
  nblocks := nblocks
  ninodes := NINODES
  nlog := nlog
  logstart := 2
  inodestart := 2 + nlog
  bmapstart := 2 + nlog + ninodeblocks

/-- The image, its length in sectors, and the counters. -/
structure Img where
  disk : ℕ → Bytes
  sectors : ℕ
  freeinode : ℕ
  freeblock : ℕ

/-- How the program stops before its end: with `exit(1)`, or by an assertion. -/
inductive Stop
  | exit
  | abort
  deriving DecidableEq

abbrev M := Exec Img Stop

/-- The sector at which `lseek` arrives; the offset is an unsigned number of 32 bits. -/
def sector (sec : ℕ) : ℕ := sec % 2 ^ 23

def wsect (sec : ℕ) (buf : Bytes) : M Unit :=
  modify fun s => { s with
    disk := Function.update s.disk (sector sec) buf
    sectors := max s.sectors (sector sec + 1) }

/-- `rsect`: behind the end of the image `read` has nothing to return. -/
def rsect (sec : ℕ) : M Bytes := do
  let s ← get
  if sector sec < s.sectors then pure (s.disk (sector sec)) else throw .exit

def winode (inum : ℕ) (d : Dinode) : M Unit := do
  let buf ← rsect (IBLOCK inum sb)
  wsect (IBLOCK inum sb) (Dinode.write buf inum d)

def rinode (inum : ℕ) : M Dinode := do
  let buf ← rsect (IBLOCK inum sb)
  pure (Dinode.read buf inum)

/-- `freeinode++`. -/
def nextInode : M ℕ := do
  let s ← get
  modify fun s => { s with freeinode := s.freeinode + 1 }
  pure s.freeinode

/-- `freeblock++`. -/
def nextBlock : M ℕ := do
  let s ← get
  modify fun s => { s with freeblock := s.freeblock + 1 }
  pure s.freeblock

def ialloc (type : Short) : M ℕ := do
  let inum ← nextInode
  winode inum { Dinode.fresh type with nlink := 1 }
  pure inum

/-- The loop of `balloc`. -/
def bits : ℕ → Bytes
  | 0 => fun _ => 0
  | i + 1 => (bits i).setBit i

def balloc (used : ℕ) : M Unit :=
  if used < BSIZE * 8 then wsect sb.bmapstart (bits used) else throw .abort

/-- `din.addrs[j]`, allocated if it is zero. -/
def address (din : Dinode) (j : Fin (NDIRECT + 1)) : M Dinode :=
  if din.addrs j = 0 then do
    let b ← nextBlock
    pure { din with addrs := Function.update din.addrs j b }
  else pure din

/-- The block number `x` of block `fbn` of the inode, and the inode with it. -/
def locate (din : Dinode) (fbn : ℕ) : M (Dinode × ℕ) :=
  if fbn < NDIRECT then do
    let din ← address din (Fin.ofNat _ fbn)
    pure (din, din.addrs (Fin.ofNat _ fbn))
  else do
    let din ← address din (Fin.last NDIRECT)
    let indirect ← rsect (din.addrs (Fin.last NDIRECT))
    let o := 4 * (fbn - NDIRECT)
    if indirect.word 4 o = 0 then do
      let b ← nextBlock
      wsect (din.addrs (Fin.last NDIRECT)) (indirect.setWord 4 o b)
      pure (din, (indirect.setWord 4 o b).word 4 o)
    else pure (din, indirect.word 4 o)

/-- The loop of `iappend`, with the bytes `p` still to go. -/
def iappendLoop : ℕ → Dinode → ℕ → List UInt8 → M (Dinode × ℕ)
  | 0, din, off, _ => pure (din, off)
  | fuel + 1, din, off, p =>
    if p = [] then pure (din, off)
    else if off / BSIZE < MAXFILE then do
      let r ← locate din (off / BSIZE)
      let n1 := min p.length ((off / BSIZE + 1) * BSIZE - off)
      let buf ← rsect r.2
      wsect r.2 (buf.write (off - off / BSIZE * BSIZE) (p.take n1))
      iappendLoop fuel r.1 (off + n1) (p.drop n1)
    else throw .abort

def iappend (inum : ℕ) (p : List UInt8) : M Unit := do
  let din ← rinode inum
  let r ← iappendLoop p.length din din.size p
  winode inum { r.1 with size := r.2 }

/-! ## The input -/

/-- An input file: the argument, and what the calls of `read` return until the end of the file. If it
cannot be opened there are none. -/
structure InFile where
  arg : List UInt8
  chunks : Option (List (List UInt8))
  chunk_ne : ∀ cs ∈ chunks, ∀ c ∈ cs, c ≠ []
  chunk_le : ∀ cs ∈ chunks, ∀ c ∈ cs, c.length ≤ BSIZE
  arg_ne : ∀ c ∈ arg, c ≠ 0

/-- `'_'`. -/
abbrev underscore : UInt8 := 95

/-- The name in the directory: without one leading `_`. -/
def InFile.name (f : InFile) : List UInt8 := if f.arg.head? = some underscore then f.arg.tail else f.arg

def InFile.bytes (f : InFile) : List UInt8 := (f.chunks.getD []).flatten

/-- Enter a name into the root directory. -/
def link (inum : ℕ) (name : List UInt8) : M Unit :=
  iappend ROOTINO (Dirent.bytes ⟨inum, strncpy DIRSIZ name⟩)

def iappendAll (inum : ℕ) : List (List UInt8) → M Unit
  | [] => pure ()
  | c :: cs => do
    iappend inum c
    iappendAll inum cs

/-- The body of the loop over the arguments. -/
def addFile (f : InFile) : M Unit :=
  if slash ∈ f.arg then throw .abort
  else match f.chunks with
    | none => throw .exit
    | some cs => do
      let inum ← ialloc T_FILE
      link inum f.name
      iappendAll inum cs

def addFiles : List InFile → M Unit
  | [] => pure ()
  | f :: fs => do
    addFile f
    addFiles fs

/-- Round the size of the root directory up. -/
def fixRoot : M Unit := do
  let din ← rinode ROOTINO
  winode ROOTINO { din with size := (din.size / BSIZE + 1) * BSIZE }

/-- The superblock in a block. -/
def sbBytes : Bytes :=
  let m : Bytes := fun _ => 0
  let m := m.setWord 4 0 sb.size
  let m := m.setWord 4 4 sb.nblocks
  let m := m.setWord 4 8 sb.ninodes
  let m := m.setWord 4 12 sb.nlog
  let m := m.setWord 4 16 sb.logstart
  let m := m.setWord 4 20 sb.inodestart
  m.setWord 4 24 sb.bmapstart

/-- `main` from the point where the image is all zeroes. -/
def main (files : List InFile) : M Unit := do
  wsect 1 sbBytes
  let rootino ← ialloc T_DIR
  if rootino = ROOTINO then do
    link rootino [dot]
    link rootino [dot, dot]
    addFiles files
    fixRoot
    let s ← get
    balloc s.freeblock
  else throw .abort

/-- The image after the loop that writes zeroes. -/
def blank : Img := ⟨fun _ _ => 0, FSSIZE, 1, nmeta⟩

/-- `mkfs` exits with status 0 and leaves the image `s`. -/
def Makes (files : List InFile) (s : Img) : Prop := main files blank = .ok () s

end Xv6.Mkfs
