import Mathlib.Algebra.Ring.Nat
import Xv6.Conc.Prog
import Xv6.Lib.Ring
import Xv6.Lib.Bytes
import Xv6.Param

/-!
# The buffer cache and the log

The state of `bio.c` and `log.c` over a disk, and their functions as programs. A section held under
`bcache.lock` or `log.lock` is one atomic step, and so is one `iderw`: a single-block transfer
either happens or does not. Code that sleeps on a condition and rescans is a step that is `blocked`
until the condition holds.

`log_write` tests the fill of the log before it takes `log.lock`; the test and the locked part are
two steps here, so another process can come in between.

`hist` records what happened, newest first. No branch of the code reads it.
-/

namespace Xv6.Bio

open Conc Lib

/-- An index into `bcache.buf`. -/
abbrev Slot := Fin NBUF

instance : NeZero NBUF := ⟨by decide⟩

/-- A node of the cache's list; `none` is `bcache.head`. -/
abbrev Node := Option Slot

/-- `struct buf` without its list links. -/
structure Buf where
  busy : Bool
  valid : Bool
  dirty : Bool
  dev : ℕ
  blockno : ℕ
  data : Bytes

/-- `struct log`; `lh` lists the first `lh.n` entries of `lh.block`. -/
structure Log where
  start : ℕ
  size : ℕ
  outstanding : ℤ
  committing : Bool
  dev : ℕ
  lh : List ℕ

/-- What the history records. `took` (the end of `bget`) and `released` delimit a process's use of a
buffer, `got` is what `bread` returns, `stored` is a `bwrite`, `logged` a `log_write` by the
operation `op`; `ended` says whether the operation was the last one outstanding. -/
inductive Ev (Pid : Type) where
  | took (p : Pid) (dev b : ℕ)
  | got (p : Pid) (dev b : ℕ) (data : Bytes)
  | stored (p : Pid) (dev b : ℕ) (data : Bytes)
  | logged (p : Pid) (op dev b : ℕ) (data : Bytes)
  | released (p : Pid) (dev b : ℕ)
  | began (p : Pid) (op : ℕ)
  | ended (p : Pid) (op : ℕ) (last : Bool)
  | cut
  | recovered

/-- The machine: buffers and their list, the log, the disks by device and block number, and whether
recovery has run since the power came on. -/
structure Machine (Pid : Type) where
  buf : Slot → Buf
  links : Links Node
  log : Log
  disk : ℕ → ℕ → Bytes
  up : Bool
  hist : List (Ev Pid)

variable {Pid : Type}

namespace Machine

variable (m : Machine Pid)

def setBuf (i : Slot) (b : Buf) : Machine Pid := { m with buf := Function.update m.buf i b }

def setDisk (dev b : ℕ) (d : Bytes) : Machine Pid :=
  { m with disk := Function.update m.disk dev (Function.update (m.disk dev) b d) }

def setLh (lh : List ℕ) : Machine Pid := { m with log := { m.log with lh } }

def note (e : Ev Pid) : Machine Pid := { m with hist := e :: m.hist }

/-- The cache's list from most to least recently used. -/
def forward : List Slot :=
  (Links.walk m.links.next none NBUF (m.links.next none)).filterMap id

/-- The cache's list from least to most recently used. -/
def backward : List Slot :=
  (Links.walk m.links.prev none NBUF (m.links.prev none)).filterMap id

end Machine

/-! ## `bio.c` -/

/-- The device number `binit` gives to a buffer that caches no block. -/
abbrev NODEV : ℕ := 2 ^ 32 - 1

/-- A buffer as `binit` leaves it. -/
def freshBuf : Buf :=
  { busy := false, valid := false, dirty := false, dev := NODEV, blockno := 0, data := fun _ => 0 }

/-- The list `binit` builds: each buffer in turn goes right after the head. -/
def binitLinks : Links Node :=
  (List.finRange NBUF).foldl (fun L i => L.pushFront none (some i)) ⟨fun _ => none, fun _ => none⟩

/-- The cache and log memory of a machine that has just been switched on, over the given disks. -/
def powerOn (disk : ℕ → ℕ → Bytes) (hist : List (Ev Pid)) : Machine Pid :=
  { buf := fun _ => freshBuf
    links := binitLinks
    log := { start := 0, size := 0, outstanding := 0, committing := false, dev := 0, lh := [] }
    disk
    up := false
    hist }

/-- `bget`: one pass over the list under `bcache.lock`. -/
def bgetStep (p : Pid) (dev blockno : ℕ) (m : Machine Pid) : Outcome (Machine Pid) Slot :=
  let take (i : Slot) (b : Buf) := Outcome.ok i ((m.setBuf i b).note (.took p dev blockno))
  match m.forward.find? fun i => (m.buf i).dev = dev ∧ (m.buf i).blockno = blockno with
  | some i =>
    if (m.buf i).busy then .blocked
    else take i { m.buf i with busy := true }
  | none =>
    match m.backward.find? fun i => ¬(m.buf i).busy ∧ ¬(m.buf i).dirty with
    | some i => take i { m.buf i with dev, blockno, busy := true, valid := false, dirty := false }
    | none => .fault (.panic "bget: no buffers")

def bget (p : Pid) (dev blockno : ℕ) : Prog (Machine Pid) Slot := .atomic (bgetStep p dev blockno)

/-- `iderw`: move one block between the buffer and the disk, as the flags ask. -/
def iderw (i : Slot) (m : Machine Pid) : Outcome (Machine Pid) Unit :=
  let b := m.buf i
  if ¬b.busy then .fault (.panic "iderw: buf not busy")
  else if b.valid ∧ ¬b.dirty then .fault (.panic "iderw: nothing to do")
  else if FSSIZE ≤ b.blockno then .fault (.panic "incorrect blockno")
  else if b.dirty then
    .ok () ((m.setBuf i { b with dirty := false, valid := true }).setDisk b.dev b.blockno b.data)
  else .ok () (m.setBuf i { b with data := m.disk b.dev b.blockno, valid := true })

/-- The rest of `bread` once `bget` has returned `i`: read the block if the buffer does not hold it
yet, and hand the buffer to the caller. -/
def bfill (p : Pid) (i : Slot) (m : Machine Pid) : Outcome (Machine Pid) Slot :=
  let give (m : Machine Pid) := Outcome.ok i
    (m.note (.got p (m.buf i).dev (m.buf i).blockno (m.buf i).data))
  if (m.buf i).valid then give m
  else match iderw i m with
    | .blocked => .blocked
    | .fault e => .fault e
    | .ok _ m => give m

def bread (p : Pid) (dev blockno : ℕ) : Prog (Machine Pid) Slot := do
  let i ← bget p dev blockno
  .atomic (bfill p i)

/-- `bwrite`: mark the buffer dirty and let `iderw` write it. -/
def bwriteStep (p : Pid) (i : Slot) (m : Machine Pid) : Outcome (Machine Pid) Unit :=
  if ¬(m.buf i).busy then .fault (.panic "bwrite")
  else match iderw i (m.setBuf i { m.buf i with dirty := true }) with
    | .blocked => .blocked
    | .fault e => .fault e
    | .ok _ m => .ok () (m.note (.stored p (m.buf i).dev (m.buf i).blockno (m.buf i).data))

def bwrite (p : Pid) (i : Slot) : Prog (Machine Pid) Unit := .atomic (bwriteStep p i)

/-- `brelse`: move the buffer to the front of the list and drop `B_BUSY`. -/
def brelseStep (p : Pid) (i : Slot) (m : Machine Pid) : Outcome (Machine Pid) Unit :=
  if ¬(m.buf i).busy then .fault (.panic "brelse")
  else
    let m := { m with links := (m.links.unlink (some i)).pushFront none (some i) }
    .ok () ((m.setBuf i { m.buf i with busy := false }).note
      (.released p (m.buf i).dev (m.buf i).blockno))

def brelse (p : Pid) (i : Slot) : Prog (Machine Pid) Unit := .atomic (brelseStep p i)

/-- Overwrite the data of a buffer in place. -/
def setData (i : Slot) (f : Machine Pid → Bytes) : Prog (Machine Pid) Unit :=
  .modifies fun m => m.setBuf i { m.buf i with data := f m }

/-! ## `log.c` -/

/-- The header block after `write_head` copied `lh` into it: `n`, then `block[0..n)`. -/
def putHead (d : Bytes) (lh : List ℕ) : Bytes :=
  (lh.zipIdx 1).foldl (fun d be => d.setWord 4 (4 * be.2) be.1) (d.setWord 4 0 lh.length)

/-- `lh->n` as stored in a header block. -/
def headN (d : Bytes) : ℕ := d.word 4 0

/-- `lh->block[0..n)` as stored in a header block. -/
def headBlocks (d : Bytes) : List ℕ := (List.range (headN d)).map fun i => d.word 4 (4 + 4 * i)

/-- Run `body tail lh.block[tail]` for `tail` from the given value up to `lh.n`. -/
def forTail (body : ℕ → ℕ → Prog (Machine Pid) Unit) : ℕ → ℕ → Prog (Machine Pid) Unit
  | 0, _ => pure ()
  | fuel + 1, tail => do
    match ← Prog.reads fun m : Machine Pid => m.log.lh[tail]? with
    | none => pure ()
    | some b => do
      body tail b
      forTail body fuel (tail + 1)

/-- One iteration of `install_trans`: copy a log block to its home location. -/
def installBlock (p : Pid) (tail b : ℕ) : Prog (Machine Pid) Unit := do
  let log ← Prog.reads fun m : Machine Pid => m.log
  let lbuf ← bread p log.dev (log.start + tail + 1)
  let dbuf ← bread p log.dev b
  setData dbuf fun m => (m.buf lbuf).data
  bwrite p dbuf
  brelse p lbuf
  brelse p dbuf

def installTrans (p : Pid) : Prog (Machine Pid) Unit := forTail (installBlock p) LOGSIZE 0

/-- The copy `read_head` makes of the header in buffer `i`. `n` is signed, so a count of `2 ^ 31` or
more is no blocks at all; another count that does not fit `lh.block` overruns it. -/
def readHeadStep (i : Slot) (m : Machine Pid) : Outcome (Machine Pid) Unit :=
  let d := (m.buf i).data
  if 2 ^ 31 ≤ headN d then .ok () (m.setLh [])
  else if LOGSIZE < headN d then .fault .outOfBounds
  else .ok () (m.setLh (headBlocks d))

def readHead (p : Pid) : Prog (Machine Pid) Unit := do
  let log ← Prog.reads fun m : Machine Pid => m.log
  let i ← bread p log.dev log.start
  Prog.atomic (readHeadStep i)
  brelse p i

def writeHead (p : Pid) : Prog (Machine Pid) Unit := do
  let log ← Prog.reads fun m : Machine Pid => m.log
  let i ← bread p log.dev log.start
  setData i fun m => putHead (m.buf i).data m.log.lh
  bwrite p i
  brelse p i

def recoverFromLog (p : Pid) : Prog (Machine Pid) Unit := do
  readHead p
  installTrans p
  Prog.modifies fun m : Machine Pid => m.setLh []
  writeHead p

/-- `initlog`: take `logstart` and `nlog` from the superblock, then recover. -/
def initlog (p : Pid) (dev : ℕ) : Prog (Machine Pid) Unit := do
  let i ← bread p dev 1
  let sb ← Prog.reads fun m : Machine Pid => (m.buf i).data
  brelse p i
  Prog.modifies fun m : Machine Pid =>
    { m with log := { m.log with start := sb.word 4 16, size := sb.word 4 12, dev } }
  recoverFromLog p
  Prog.modifies fun m : Machine Pid => { m with up := true }.note .recovered

/-- `begin_op`, which waits while a commit is running or the log might overflow. The operation is
named by the length of the history. -/
def beginOpStep (p : Pid) (m : Machine Pid) : Outcome (Machine Pid) ℕ :=
  if m.log.committing then .blocked
  else if (LOGSIZE : ℤ) < m.log.lh.length + (m.log.outstanding + 1) * MAXOPBLOCKS then .blocked
  else .ok m.hist.length
    ({ m with log := { m.log with outstanding := m.log.outstanding + 1 } }.note
      (.began p m.hist.length))

def beginOp (p : Pid) : Prog (Machine Pid) ℕ := .atomic (beginOpStep p)

/-- One iteration of `write_log`: copy a cached block to the log. -/
def writeLogBlock (p : Pid) (tail b : ℕ) : Prog (Machine Pid) Unit := do
  let log ← Prog.reads fun m : Machine Pid => m.log
  let toBuf ← bread p log.dev (log.start + tail + 1)
  let fromBuf ← bread p log.dev b
  setData toBuf fun m => (m.buf fromBuf).data
  bwrite p toBuf
  brelse p fromBuf
  brelse p toBuf

def writeLog (p : Pid) : Prog (Machine Pid) Unit := forTail (writeLogBlock p) LOGSIZE 0

def commit (p : Pid) : Prog (Machine Pid) Unit := do
  let lh ← Prog.reads fun m : Machine Pid => m.log.lh
  if 0 < lh.length then do
    writeLog p
    writeHead p
    installTrans p
    Prog.modifies fun m : Machine Pid => m.setLh []
    writeHead p

/-- The first locked part of `end_op`; the result is `do_commit`. -/
def endOpStep (p : Pid) (op : ℕ) (m : Machine Pid) : Outcome (Machine Pid) Bool :=
  let out := m.log.outstanding - 1
  if m.log.committing then .fault (.panic "log.committing")
  else if out = 0 then
    .ok true ({ m with log := { m.log with outstanding := out, committing := true } }.note
      (.ended p op true))
  else .ok false ({ m with log := { m.log with outstanding := out } }.note (.ended p op false))

def endOp (p : Pid) (op : ℕ) : Prog (Machine Pid) Unit := do
  let doCommit ← Prog.atomic (endOpStep p op)
  if doCommit then do
    commit p
    Prog.modifies fun m : Machine Pid => { m with log := { m.log with committing := false } }

/-- The tests `log_write` makes before it takes `log.lock`. -/
def logWriteTest (m : Machine Pid) : Outcome (Machine Pid) Unit :=
  if LOGSIZE ≤ m.log.lh.length ∨ m.log.size ≤ m.log.lh.length + 1 then
    .fault (.panic "too big a transaction")
  else if m.log.outstanding < 1 then .fault (.panic "log_write outside of trans")
  else .ok () m

/-- The locked part of `log_write`: absorb or append the block number and pin the buffer. -/
def logWriteStep (p : Pid) (op : ℕ) (i : Slot) (m : Machine Pid) : Outcome (Machine Pid) Unit :=
  let b := m.buf i
  let pin (m : Machine Pid) := Outcome.ok ()
    ((m.setBuf i { b with dirty := true }).note (.logged p op b.dev b.blockno b.data))
  if b.blockno ∈ m.log.lh then pin m
  else if m.log.lh.length < LOGSIZE then pin (m.setLh (m.log.lh ++ [b.blockno]))
  else .fault .outOfBounds

def logWrite (p : Pid) (op : ℕ) (i : Slot) : Prog (Machine Pid) Unit := do
  Prog.atomic logWriteTest
  Prog.atomic (logWriteStep p op i)

/-! ## The users of the cache -/

/-- What a process keeps between calls: the buffers it holds, those of them it has modified since
it last saved them with `log_write` or `bwrite`, and the operation it is in. -/
structure Client where
  held : List Slot
  unsaved : List Slot
  op : Option ℕ

/-- A call a process can make. -/
inductive Call where
  | beginOp
  | endOp
  | bread (dev blockno : ℕ)
  | modify (i : Slot) (data : Bytes)
  | logWrite (i : Slot)
  | bwrite (i : Slot)
  | brelse (i : Slot)
  | initlog

/-- The code of each call. -/
def body (p : Pid) (l : Client) : Call → Prog (Machine Pid) Client
  | .beginOp => do
    let op ← beginOp p
    pure { l with op := some op }
  | .endOp => do
    endOp p (l.op.getD 0)
    pure { l with op := none }
  | .bread dev blockno => do
    let i ← bread p dev blockno
    pure { l with held := i :: l.held }
  | .modify i data => do
    setData i fun _ => data
    pure { l with unsaved := i :: l.unsaved }
  | .logWrite i => do
    logWrite p (l.op.getD 0) i
    pure { l with unsaved := l.unsaved.filter (· ≠ i) }
  | .bwrite i => do
    bwrite p i
    pure { l with unsaved := l.unsaved.filter (· ≠ i) }
  | .brelse i => do
    brelse p i
    pure { l with held := l.held.filter (· ≠ i) }
  | .initlog => do
    initlog p ROOTDEV
    pure l

/-- A process that is outside every operation and holds nothing. -/
def Client.idle : Client := ⟨[], [], none⟩

/-- The processes of a system that make the calls `ok` admits, with power cuts as `restart` says. -/
def protocol (restart : Machine Pid → Machine Pid → Prop)
    (ok : Machine Pid → Pid → Client → Call → Prop) : Protocol (Machine Pid) Pid Client where
  Call := Call
  allowed := ok
  body := body
  restart := restart
  boot := Client.idle

instance (restart : Machine Pid → Machine Pid → Prop)
    (ok : Machine Pid → Pid → Client → Call → Prop) [dec : ∀ m p l k, Decidable (ok m p l k)]
    (m : Machine Pid) (p : Pid) (l : Client) (k : (protocol restart ok).Call) :
    Decidable ((protocol restart ok).allowed m p l k) :=
  dec m p l k

end Xv6.Bio
