import Xv6.Lib.Bits
import Xv6.Param

/-!
# The on-disk format

The superblock, on-disk inodes, the free bitmap and directory entries of `fs.h`, each as the code
reads it from and writes it to the bytes of a block.
-/

namespace Xv6.Fs

open Lib

/-- A C `short`. -/
abbrev Short := BitVec 16

/-- Root i-number. -/
abbrev ROOTINO : ℕ := 1

abbrev NDIRECT : ℕ := 12

instance (priority := high) : NeZero (NDIRECT + 1) := ⟨by decide⟩

abbrev NINDIRECT : ℕ := BSIZE / 4

abbrev MAXFILE : ℕ := NDIRECT + NINDIRECT

/-- Inodes per block. -/
abbrev IPB : ℕ := BSIZE / 64

/-- Bitmap bits per block. -/
abbrev BPB : ℕ := BSIZE * 8

abbrev DIRSIZ : ℕ := 14

/-- `sizeof(struct dirent)`. -/
abbrev DIRENT : ℕ := 16

abbrev T_DIR : Short := 1

abbrev T_FILE : Short := 2

abbrev T_DEV : Short := 3

/-! ## Superblock -/

structure Superblock where
  size : ℕ
  nblocks : ℕ
  ninodes : ℕ
  nlog : ℕ
  logstart : ℕ
  inodestart : ℕ
  bmapstart : ℕ
  deriving DecidableEq

/-- The superblock in the bytes of a block. -/
def Superblock.ofBytes (m : Bytes) : Superblock where
  size := m.word 4 0
  nblocks := m.word 4 4
  ninodes := m.word 4 8
  nlog := m.word 4 12
  logstart := m.word 4 16
  inodestart := m.word 4 20
  bmapstart := m.word 4 24

/-- Block containing inode `i`. -/
def IBLOCK (i : ℕ) (sb : Superblock) : ℕ := i / IPB + sb.inodestart

/-- Block of the free map containing the bit for block `b`. -/
def BBLOCK (b : ℕ) (sb : Superblock) : ℕ := b / BPB + sb.bmapstart

/-- The first data block: what precedes it is the boot block, the superblock, the log, the inode
blocks and the bitmap. -/
def Superblock.dataStart (sb : Superblock) : ℕ := sb.size - sb.nblocks

/-- A superblock whose regions follow each other on a disk of at most `FSSIZE` blocks, and whose
i-numbers fit a directory entry. -/
structure Superblock.Ok (sb : Superblock) : Prop where
  size_le : sb.size ≤ FSSIZE
  ninodes_le : sb.ninodes ≤ 2 ^ 16
  root_lt : ROOTINO < sb.ninodes
  inodestart_gt : 1 < sb.inodestart
  iblock_lt : IBLOCK (sb.ninodes - 1) sb < sb.bmapstart
  bblock_lt : BBLOCK (sb.size - 1) sb < sb.dataStart

/-! ## Inodes -/

/-- `struct dinode`; the in-memory inode has the same fields. -/
@[ext] structure Dinode where
  type : Short
  major : Short
  minor : Short
  nlink : Short
  size : ℕ
  addrs : Fin (NDIRECT + 1) → ℕ

namespace Dinode

/-- `sizeof(struct dinode)`. -/
abbrev bytes : ℕ := 64

/-- An inode of all zeroes but for its type. -/
def fresh (type : Short) : Dinode :=
  { type, major := 0, minor := 0, nlink := 0, size := 0, addrs := fun _ => 0 }

/-- Where inode `inum` starts in its block. -/
def offset (inum : ℕ) : ℕ := bytes * (inum % IPB)

/-- Inode `inum` in the bytes of its block. -/
def read (m : Bytes) (inum : ℕ) : Dinode :=
  let o := offset inum
  { type := BitVec.ofNat 16 (m.word 2 o)
    major := BitVec.ofNat 16 (m.word 2 (o + 2))
    minor := BitVec.ofNat 16 (m.word 2 (o + 4))
    nlink := BitVec.ofNat 16 (m.word 2 (o + 6))
    size := m.word 4 (o + 8)
    addrs := fun j => m.word 4 (o + 12 + 4 * j) }

/-- The bytes of a block after inode `inum` has been stored in it. -/
def write (m : Bytes) (inum : ℕ) (d : Dinode) : Bytes :=
  let o := offset inum
  let m := m.setWord 2 o d.type.toNat
  let m := m.setWord 2 (o + 2) d.major.toNat
  let m := m.setWord 2 (o + 4) d.minor.toNat
  let m := m.setWord 2 (o + 6) d.nlink.toNat
  let m := m.setWord 4 (o + 8) d.size
  m.setWords (o + 12) (fun j => d.addrs (Fin.ofNat _ j)) (NDIRECT + 1)

/-- The numbers in the inode fit their 32-bit fields. -/
structure Fits (d : Dinode) : Prop where
  size : d.size < 2 ^ 32
  addrs : ∀ j, d.addrs j < 2 ^ 32

variable {m : Bytes} {inum inum' : ℕ} {d : Dinode}

/-- An inode that was stored is read back. -/
theorem read_write (h : d.Fits) : read (write m inum d) inum = d := by
  have hshort (x : Short) : BitVec.ofNat 16 (x.toNat % 256 ^ 2) = x := by
    apply BitVec.eq_of_toNat_eq
    have := x.isLt
    simp only [BitVec.toNat_ofNat]
    omega
  refine Dinode.ext ?_ ?_ ?_ ?_ ?_ (funext fun j => ?_)
  iterate 4
    · simp only [read, write]
      rw [Bytes.word_setWords_of_disjoint (by omega)]
      repeat rw [Bytes.word_setWord_of_disjoint (by omega)]
      rw [Bytes.word_setWord_self, hshort]
  · simp only [read, write]
    rw [Bytes.word_setWords_of_disjoint (by omega), Bytes.word_setWord_self]
    exact Nat.mod_eq_of_lt h.size
  · simp only [read, write]
    rw [Bytes.word_setWords j.isLt]
    have : Fin.ofNat (NDIRECT + 1) (j : ℕ) = j := Fin.ext (Nat.mod_eq_of_lt j.isLt)
    rw [this]
    exact Nat.mod_eq_of_lt (h.addrs j)

/-- Storing an inode changes no other inode of the block. -/
theorem read_write_of_ne (h : inum' % IPB ≠ inum % IPB) : read (write m inum d) inum' = read m inum' := by
  have hword (k o : ℕ) (ho : offset inum' ≤ o) (hk : o + k ≤ offset inum' + bytes) :
      (write m inum d).word k o = m.word k o := by
    have hd : o + k ≤ offset inum ∨ offset inum + bytes ≤ o := by
      simp only [offset, bytes] at ho hk ⊢
      omega
    simp only [bytes] at hd
    simp only [write, NDIRECT]
    rw [Bytes.word_setWords_of_disjoint (by omega)]
    repeat rw [Bytes.word_setWord_of_disjoint (by omega)]
  have hbytes : bytes = 64 := rfl
  refine Dinode.ext ?_ ?_ ?_ ?_ ?_ (funext fun j => ?_)
  · simp only [read, hword 2 (offset inum') (by omega) (by omega)]
  · simp only [read, hword 2 (offset inum' + 2) (by omega) (by omega)]
  · simp only [read, hword 2 (offset inum' + 4) (by omega) (by omega)]
  · simp only [read, hword 2 (offset inum' + 6) (by omega) (by omega)]
  · simp only [read, hword 4 (offset inum' + 8) (by omega) (by omega)]
  · have hj : (j : ℕ) < 13 := j.isLt
    simp only [read, hword 4 (offset inum' + 12 + 4 * j) (by omega) (by omega)]

end Dinode

/-! ## Directory entries -/

/-- `struct dirent`; `name` has `DIRSIZ` bytes. -/
structure Dirent where
  inum : ℕ
  name : List UInt8
  deriving DecidableEq

namespace Dirent

def ofBytes (bs : List UInt8) : Dirent := ⟨Bytes.ofLe (bs.take 2), bs.drop 2⟩

def bytes (de : Dirent) : List UInt8 := Bytes.le 2 de.inum ++ de.name

/-- An entry that was stored is read back. -/
theorem ofBytes_bytes {de : Dirent} (h : de.inum < 2 ^ 16) : ofBytes de.bytes = de := by
  have htake : de.bytes.take 2 = Bytes.le 2 de.inum := List.take_left' Bytes.length_le
  have hdrop : de.bytes.drop 2 = de.name := List.drop_left' Bytes.length_le
  rw [ofBytes, htake, hdrop, Bytes.ofLe_le, Nat.mod_eq_of_lt (h.trans_le (by decide))]

end Dirent

end Xv6.Fs
