import Xv6.Fs.Path

/-!
# Writing open files

`filewrite` of `file.c`. What the console and the pipes answer is given with the call, so that a statement
about all calls is one about all their answers.
-/

namespace Xv6.Fs

open Conc Lib

variable {Pid : Type} [DecidableEq Pid]

/-- Advance the offset of a file by the result `r` of a transfer, if that is positive. -/
def addOff (f : FSlot) (r : ℤ) : Prog (State Pid) Unit :=
  .modifies fun s =>
    if 0 < r then s.setFile f { s.file f with off := uint ((s.file f).off + r.toNat) } else s

/-- The number a transfer into a buffer returns. -/
def readResult : Option (List UInt8) → ℤ
  | some bs => bs.length
  | none => -1

/-- The most bytes `filewrite` writes in one transaction. -/
def writeMax : ℕ := (LOGSIZE - 1 - 1 - 2) / 2 * 512

/-- The loop of `filewrite` from byte `i` of the `n` bytes at `addr` on; the result is the final
`i`. -/
def filewriteLoop (p : Pid) (f : FSlot) (ip : ISlot) (addr : Bytes) (n : ℕ) :
    ℕ → ℕ → Prog (State Pid) ℕ
  | 0, i => pure i
  | fuel + 1, i =>
    if i < n then do
      let n1 := min (n - i) writeMax
      beginOp p
      ilock p ip
      let off ← Prog.reads fun s : State Pid => (s.file f).off
      let r ← writei p ip (addr.read i n1) off
      addOff f r
      iunlock p ip
      endOp p
      if r < 0 then pure i
      else if r ≠ n1 then .fail (.panic "short filewrite")
      else filewriteLoop p f ip addr n fuel (i + r.toNat)
    else pure i

/-- `filewrite` of the `n` bytes at `addr`; `out` is the answer of the pipe if the file is one. -/
def filewrite (p : Pid) (f : FSlot) (addr : Bytes) (n : ℤ) (out : ℤ) : Prog (State Pid) ℤ := do
  let ff ← Prog.reads fun s : State Pid => s.file f
  if ¬ff.writable then pure (-1)
  else match ff.type with
    | .pipe => pure out
    | .inode => do
      let i ← filewriteLoop p f ff.ip addr n.toNat n.toNat 0
      pure (if (i : ℤ) = n then n else -1)
    | .none => .fail (.panic "filewrite")

end Xv6.Fs
