import Xv6.Fs.Inode

/-!
# Directories and path names

The upper half of `fs.c`. A C string is the list of its bytes; what follows the list is the NUL that
ends it. A name copied out of a path has at most `DIRSIZ` bytes.
-/

namespace Xv6.Fs

open Conc

variable {Pid : Type} [DecidableEq Pid] {n : ℕ} {t : List UInt8}

/-! ## Strings -/

/-- `'/'`. -/
abbrev slash : UInt8 := 47

/-- `'.'`. -/
abbrev dot : UInt8 := 46

/-- `strncmp`. -/
def strncmp : ℕ → List UInt8 → List UInt8 → ℤ
  | 0, _, _ => 0
  | n + 1, p, q =>
    let a := p.headD 0
    let b := q.headD 0
    if a ≠ 0 ∧ a = b then strncmp n p.tail q.tail else (a.toNat : ℤ) - b.toNat

/-- The `n` bytes `strncpy` stores: the string, cut or filled up with NULs. -/
def strncpy : ℕ → List UInt8 → List UInt8
  | 0, _ => []
  | n + 1, t => if t.headD 0 = 0 then List.replicate (n + 1) 0 else t.headD 0 :: strncpy n t.tail

/-- What `strncmp` and `strncpy` see of a string: its bytes before the NUL, `n` at most. -/
def cut (n : ℕ) (t : List UInt8) : List UInt8 := (t.takeWhile (· ≠ 0)).take n

theorem cut_succ : cut (n + 1) t = if t.headD 0 = 0 then [] else t.headD 0 :: cut n t.tail := by
  cases t with
  | nil => rfl
  | cons x t => by_cases hx : x = 0 <;> simp [cut, hx]

/-- `strncmp` compares what it sees. -/
theorem strncmp_eq_zero_iff {p q : List UInt8} : strncmp n p q = 0 ↔ cut n p = cut n q := by
  induction n generalizing p q with
  | zero => simp [strncmp, cut]
  | succ n ih =>
    rw [strncmp, cut_succ, cut_succ]
    generalize p.headD 0 = a
    generalize q.headD 0 = b
    have hsub : (a.toNat : ℤ) - b.toNat = 0 ↔ a = b := by
      rw [← UInt8.toNat_inj]
      omega
    rcases eq_or_ne a b with rfl | hab
    · by_cases ha : a = 0
      · simp [ha]
      · simp [ha, ih]
    · rw [if_neg fun h => hab h.2, hsub]
      rcases eq_or_ne a 0 with rfl | ha
      · simp [hab, Ne.symm hab]
      · by_cases hb : b = 0
        · simp [hb, ha]
        · simp [ha, hb, hab]

theorem length_strncpy : (strncpy n t).length = n := by
  induction n generalizing t with
  | zero => rfl
  | succ n ih =>
    rw [strncpy]
    split_ifs
    · simp
    · simp [ih]

/-- `strncpy` keeps what `strncmp` compares. -/
theorem cut_strncpy : cut n (strncpy n t) = cut n t := by
  induction n generalizing t with
  | zero => simp [cut]
  | succ n ih =>
    rw [strncpy, cut_succ, cut_succ]
    split_ifs with hz <;> simp_all [List.replicate_succ]

def namecmp (s t : List UInt8) : ℤ := strncmp DIRSIZ s t

/-- `skipelem`: the next element of a path, cut to `DIRSIZ` bytes, and the rest of the path without
leading slashes; `none` if there is no element. -/
def skipelem (path : List UInt8) : Option (List UInt8 × List UInt8) :=
  let path := path.dropWhile (· = slash)
  if path = [] then none
  else some ((path.takeWhile (· ≠ slash)).take DIRSIZ,
    (path.dropWhile (· ≠ slash)).dropWhile (· = slash))

/-! ## Directories -/

/-- Read the directory entry at `off`, which the caller relies on. -/
def readDirent (p : Pid) (i : ISlot) (off : ℕ) (msg : String) : Prog (State Pid) Dirent := do
  match ← readi p i off DIRENT none with
  | some bs => if bs.length = DIRENT then pure (.ofBytes bs) else .fail (.panic msg)
  | none => .fail (.panic msg)

/-- The loop of `dirlookup` from `off` on; the result is the entry's i-number and its offset. -/
def dirScan (p : Pid) (i : ISlot) (name : List UInt8) : ℕ → ℕ → Prog (State Pid) (Option (ℕ × ℕ))
  | 0, _ => pure none
  | fuel + 1, off => do
    let size ← Prog.reads fun s : State Pid => (s.inode i).d.size
    if off < size then do
      let de ← readDirent p i off "dirlink read"
      if de.inum ≠ 0 ∧ namecmp name de.name = 0 then pure (some (de.inum, off))
      else dirScan p i name fuel (off + DIRENT)
    else pure none

/-- `dirlookup`: look for a directory entry; the result is its inode and `*poff`. -/
def dirlookup (p : Pid) (i : ISlot) (name : List UInt8) : Prog (State Pid) (Option (ISlot × ℕ)) := do
  let ip ← Prog.reads fun s : State Pid => s.inode i
  if ip.d.type ≠ T_DIR then .fail (.panic "dirlookup not DIR")
  else do
    match ← dirScan p i name (ip.d.size / DIRENT + 1) 0 with
    | some (inum, off) => do
      let next ← iget p ip.dev inum
      pure (some (next, off))
    | none => pure none

/-- The second loop of `dirlink`: the offset of the first empty entry from `off` on, or the end. -/
def dirEmpty (p : Pid) (i : ISlot) : ℕ → ℕ → Prog (State Pid) ℕ
  | 0, off => pure off
  | fuel + 1, off => do
    let size ← Prog.reads fun s : State Pid => (s.inode i).d.size
    if off < size then do
      let de ← readDirent p i off "dirlink read"
      if de.inum = 0 then pure off
      else dirEmpty p i fuel (off + DIRENT)
    else pure off

/-- `dirlink`: write a new entry into a directory. -/
def dirlink (p : Pid) (i : ISlot) (name : List UInt8) (inum : ℕ) : Prog (State Pid) ℤ := do
  match ← dirlookup p i name with
  | some (ip, _) => do
    iput p ip
    pure (-1)
  | none => do
    let size ← Prog.reads fun s : State Pid => (s.inode i).d.size
    let off ← dirEmpty p i (size / DIRENT + 1) 0
    let r ← writei p i (Dirent.bytes ⟨inum, strncpy DIRSIZ name⟩) off
    if r ≠ DIRENT then .fail (.panic "dirlink") else pure 0

/-! ## Paths -/

/-- The loop of `namex` from the inode `i`. With `parent` it stops one level early and the result has
the final path element; `fuel` is more than the length of the path. -/
def namexFrom (p : Pid) (parent : Bool) : ℕ → ISlot → List UInt8 → List UInt8 →
    Prog (State Pid) (Option (ISlot × List UInt8))
  | 0, _, _, _ => pure none
  | fuel + 1, i, path, name =>
    match skipelem path with
    | none =>
      if parent then do
        iput p i
        pure none
      else pure (some (i, name))
    | some (name, path) => do
      ilock p i
      let d ← Prog.reads fun s : State Pid => (s.inode i).d
      if d.type ≠ T_DIR then do
        iunlockput p i
        pure none
      else if parent ∧ path = [] then do
        iunlock p i
        pure (some (i, name))
      else do
        match ← dirlookup p i name with
        | none => do
          iunlockput p i
          pure none
        | some (next, _) => do
          iunlockput p i
          namexFrom p parent fuel next path name

/-- `namex`: look up the inode for a path name. -/
def namex (p : Pid) (parent : Bool) (path : List UInt8) :
    Prog (State Pid) (Option (ISlot × List UInt8)) := do
  if path.head? = some slash then do
    let i ← iget p ROOTDEV ROOTINO
    namexFrom p parent (path.length + 1) i path []
  else do
    match ← Prog.reads fun s : State Pid => (s.proc p).cwd with
    | some cwd => do
      let i ← idup cwd
      namexFrom p parent (path.length + 1) i path []
    | none => .fail .outOfBounds

def namei (p : Pid) (path : List UInt8) : Prog (State Pid) (Option ISlot) := do
  let r ← namex p false path
  pure (r.map Prod.fst)

def nameiparent (p : Pid) (path : List UInt8) : Prog (State Pid) (Option (ISlot × List UInt8)) :=
  namex p true path

end Xv6.Fs
