import Xv6.Conc.Run
import Xv6.Fs.Transfer

/-!
# The blocks that are logged

The code that writes to a file, together with the list of the blocks it calls `log_write` for. Each function
here does what the function of the same name in `Xv6.Fs` does (`erases_writei` and the lemmas before it).
-/

namespace Xv6.Fs.Logged

open Conc

variable {Pid : Type} [DecidableEq Pid] {i : ISlot} {p : Pid}

/-- The state, and the blocks `log_write` has been called for. -/
abbrev Traced (Pid : Type) := State Pid × List ℕ

def bzero (dev bno : ℕ) : Prog (Traced Pid) Unit := (Fs.bzero dev bno).logs fun _ _ => [bno]

/-- One iteration of the outer loop of `balloc`, which logs the bitmap block if it takes a block. -/
def ballocStep (dev b : ℕ) : Prog (Traced Pid) (Option ℕ) :=
  (Prog.atomic (Fs.ballocStep dev b)).logs fun s r => if r.isSome then [BBLOCK b s.sb] else []

def ballocFrom (dev : ℕ) : ℕ → ℕ → Prog (Traced Pid) ℕ
  | 0, _ => .fail (.panic "balloc: out of blocks")
  | fuel + 1, b => do
    match ← ballocStep dev b with
    | some b => do
      bzero dev b
      pure b
    | none => ballocFrom dev fuel (b + BPB)

def balloc (dev : ℕ) : Prog (Traced Pid) ℕ := do
  let sb ← (Prog.reads fun s : State Pid => s.sb).quiet
  ballocFrom dev ((sb.size + BPB - 1) / BPB) 0

def iupdate (i : ISlot) : Prog (Traced Pid) Unit :=
  (Fs.iupdate i).logs fun s _ => [IBLOCK (s.inode i).inum s.sb]

def bmapAddr (i : ISlot) (j : Fin (NDIRECT + 1)) : Prog (Traced Pid) ℕ := do
  let ip ← (Prog.reads fun s : State Pid => s.inode i).quiet
  if ip.d.addrs j = 0 then do
    let addr ← balloc ip.dev
    (setAddr i j addr).quiet
    pure addr
  else pure (ip.d.addrs j)

/-- `bmap`, which logs the indirect block when it stores an address in it. -/
def bmap (p : Pid) (i : ISlot) (bn : ℕ) : Prog (Traced Pid) ℕ :=
  if bn < NDIRECT then bmapAddr i (Fin.ofNat _ bn)
  else if bn - NDIRECT < NINDIRECT then do
    let bn := bn - NDIRECT
    let addr ← bmapAddr i (Fin.last NDIRECT)
    let dev ← (Prog.reads fun s : State Pid => (s.inode i).dev).quiet
    (bread p dev addr).quiet
    let a ← (Prog.reads fun s : State Pid => (s.block dev addr).word 4 (4 * bn)).quiet
    if a = 0 then do
      let a ← balloc dev
      (Prog.modifies fun s : State Pid =>
        s.putBlock dev addr ((s.block dev addr).setWord 4 (4 * bn) a)).logs fun _ _ => [addr]
      (brelse dev addr).quiet
      pure a
    else do
      (brelse dev addr).quiet
      pure a
  else .fail (.panic "bmap: out of range")

/-- The loop of `writei`, which logs each block it writes to. -/
def writeLoop (p : Pid) (i : ISlot) : ℕ → ℕ → List UInt8 → Prog (Traced Pid) ℕ
  | 0, off, _ => pure off
  | fuel + 1, off, src =>
    if src = [] then pure off
    else do
      let dev ← (Prog.reads fun s : State Pid => (s.inode i).dev).quiet
      let b ← bmap p i (off / BSIZE)
      let m := min src.length (BSIZE - off % BSIZE)
      (Prog.atomic fun s : State Pid => onBlock dev b
        (fun d => .ok () (s.putBlock dev b (d.write (off % BSIZE) (src.take m)))) s).logs fun _ _ => [b]
      writeLoop p i fuel (off + m) (src.drop m)

def writei (p : Pid) (i : ISlot) (src : List UInt8) (off : ℕ) : Prog (Traced Pid) ℤ := do
  let n := src.length
  let d ← (Prog.reads fun s : State Pid => (s.inode i).d).quiet
  if d.type = T_DEV then
    if devsw d.major then (consolewrite p i n).quiet else pure (-1)
  else if d.size < off ∨ uint (off + n) < off then pure (-1)
  else if MAXFILE * BSIZE < uint (off + n) then pure (-1)
  else do
    let off ← writeLoop p i n off src
    let size ← (Prog.reads fun s : State Pid => (s.inode i).d.size).quiet
    if 0 < n ∧ size < off then do
      (setDinode i fun d => { d with size := off }).quiet
      iupdate i
      pure n
    else pure n

open Prog

section

omit [DecidableEq Pid]

theorem erases_balloc {dev : ℕ} : Erases (balloc dev : Prog (Traced Pid) ℕ) (Fs.balloc dev) := by
  refine erases_quiet.bind fun sb => ?_
  generalize (sb.size + BPB - 1) / BPB = fuel
  suffices h : ∀ b, Erases (ballocFrom dev fuel b : Prog (Traced Pid) ℕ) (Fs.ballocFrom dev fuel b) from h 0
  induction fuel with
  | zero => exact fun b => erases_fail
  | succ fuel ih =>
    refine fun b => erases_logs.bind fun r => ?_
    cases r with
    | none => exact ih _
    | some b => exact erases_logs.bind fun _ => erases_pure

theorem erases_bmapAddr {j : Fin (NDIRECT + 1)} :
    Erases (bmapAddr i j : Prog (Traced Pid) ℕ) (Fs.bmapAddr i j) := by
  refine erases_quiet.bind fun ip => ?_
  split_ifs
  · exact erases_balloc.bind fun addr => erases_quiet.bind fun _ => erases_pure
  · exact erases_pure

theorem erases_bmap {bn : ℕ} : Erases (bmap p i bn) (Fs.bmap p i bn) := by
  unfold bmap Fs.bmap
  split_ifs
  · exact erases_bmapAddr
  · refine erases_bmapAddr.bind fun addr => erases_quiet.bind fun dev => erases_quiet.bind fun _ =>
      erases_quiet.bind fun a => ?_
    split_ifs
    · exact erases_balloc.bind fun a => erases_logs.bind fun _ => erases_quiet.bind fun _ => erases_pure
    · exact erases_quiet.bind fun _ => erases_pure
  · exact erases_fail

theorem erases_writeLoop {fuel off : ℕ} {src : List UInt8} :
    Erases (writeLoop p i fuel off src) (Fs.writeLoop p i fuel off src) := by
  induction fuel generalizing off src with
  | zero => exact erases_pure
  | succ fuel ih =>
    unfold writeLoop Fs.writeLoop
    split_ifs
    · exact erases_pure
    · exact erases_quiet.bind fun dev => erases_bmap.bind fun b => erases_logs.bind fun _ => ih

end

theorem erases_writei {src : List UInt8} {off : ℕ} : Erases (writei p i src off) (Fs.writei p i src off) := by
  refine erases_quiet.bind fun d => ?_
  split_ifs
  · exact erases_quiet
  · exact erases_pure
  · exact erases_pure
  · exact erases_pure
  · refine erases_writeLoop.bind fun off' => erases_quiet.bind fun size => ?_
    split_ifs
    · exact erases_quiet.bind fun _ => erases_logs.bind fun _ => erases_pure
    · exact erases_pure

end Xv6.Fs.Logged
