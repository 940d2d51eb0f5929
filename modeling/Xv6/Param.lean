import Mathlib.Data.Nat.Notation

/-!
# Sizes and limits

The constants of `param.h`, `fs.h` and `buf.h` that the modelled code uses.
-/

namespace Xv6

/-- Open files per process. -/
abbrev NOFILE : ℕ := 16

/-- Open files per system. -/
abbrev NFILE : ℕ := 100

/-- Maximum number of active inodes. -/
abbrev NINODE : ℕ := 50

/-- Device number of the file system's root disk. -/
abbrev ROOTDEV : ℕ := 1

/-- The most blocks any file-system operation writes. -/
abbrev MAXOPBLOCKS : ℕ := 10

/-- The most data blocks in the on-disk log. -/
abbrev LOGSIZE : ℕ := MAXOPBLOCKS * 3

/-- Size of the disk block cache. -/
abbrev NBUF : ℕ := MAXOPBLOCKS * 3

/-- Size of the file system in blocks. -/
abbrev FSSIZE : ℕ := 1000

/-- Block size in bytes. -/
abbrev BSIZE : ℕ := 512

end Xv6
