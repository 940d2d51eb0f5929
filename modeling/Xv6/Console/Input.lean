import Xv6.Lib.Fifo

/-!
# Console input

The input half of `console.c`: `consoleintr`, which edits the current line in a ring buffer, and
`consoleread`, which takes complete lines out of it. Both hold `cons.lock` while they work; a reader
gives it up only while there is nothing to read, so that the two interleave one character at a time.
-/

namespace Xv6.Console

abbrev INPUT_BUF : ℕ := 128

/-- `input`: the buffer with its read, write and edit index. -/
structure Input where
  buf : ℕ → UInt8
  r : BitVec 32
  w : BitVec 32
  e : BitVec 32

/-- `C('P')`. -/
abbrev ctrlP : UInt8 := 0x10

/-- `C('U')`. -/
abbrev ctrlU : UInt8 := 0x15

/-- `C('H')`. -/
abbrev ctrlH : UInt8 := 0x08

abbrev DEL : UInt8 := 0x7F

/-- `C('D')`. -/
abbrev ctrlD : UInt8 := 0x04

abbrev LF : UInt8 := 0x0A

abbrev CR : UInt8 := 0x0D

namespace Input

/-- The character before index `i`. -/
def before (s : Input) (i : BitVec 32) : UInt8 := s.buf ((i - 1).toNat % INPUT_BUF)

/-- The loop for `C('U')`, which removes characters of the current line. -/
def killLine : ℕ → Input → Input
  | 0, s => s
  | fuel + 1, s =>
    if s.e ≠ s.w ∧ s.before s.e ≠ LF then killLine fuel { s with e := s.e - 1 } else s

/-- Store a character; the line is complete after a newline, after `C('D')`, and when the buffer is
full. -/
def insert (s : Input) (c : UInt8) : Input :=
  let s := { s with buf := Function.update s.buf (s.e.toNat % INPUT_BUF) c, e := s.e + 1 }
  if c = LF ∨ c = ctrlD ∨ s.e = s.r + BitVec.ofNat 32 INPUT_BUF then { s with w := s.e } else s

/-- There is room for a character. -/
def room (s : Input) : Bool := (s.e - s.r).toNat < INPUT_BUF

/-- The body of the loop of `consoleintr`, for one character. -/
def consoleintr (s : Input) (c : UInt8) : Input :=
  if c = ctrlP then s
  else if c = ctrlU then killLine (s.e - s.w).toNat s
  else if c = ctrlH ∨ c = DEL then if s.e ≠ s.w then { s with e := s.e - 1 } else s
  else if c ≠ 0 ∧ s.room then s.insert (if c = CR then LF else c)
  else s

end Input

/-- A call of `consoleread`: the bytes asked for, those still to come, and those stored so far. -/
structure Reader where
  target : ℕ
  n : ℕ
  got : List UInt8

/-- What a round of the loop of `consoleread` leads to. -/
inductive Round where
  | sleep
  | more (s : Input) (rd : Reader)
  | done (s : Input) (out : List UInt8)

/-- One round of the loop of `consoleread`. A `C('D')` that ends a read with bytes in it is put back. -/
def consoleread (s : Input) (rd : Reader) : Round :=
  if rd.n = 0 then .done s rd.got
  else if s.r = s.w then .sleep
  else
    let c := s.buf (s.r.toNat % INPUT_BUF)
    let s := { s with r := s.r + 1 }
    if c = ctrlD then .done (if rd.n < rd.target then { s with r := s.r - 1 } else s) rd.got
    else
      let rd := { rd with n := rd.n - 1, got := rd.got ++ [c] }
      if c = LF then .done s rd.got else .more s rd

/-! ## Runs -/

/-- What a key amounts to: a character that is accepted, which may fill the buffer, or editing. -/
inductive Key where
  | char (c : UInt8) (fills : Bool)
  | erase
  | kill

/-- The key that `consoleintr` sees in a character, if it takes notice of it. -/
def Input.key (s : Input) (c : UInt8) : Option Key :=
  if c = ctrlP then none
  else if c = ctrlU then some .kill
  else if c = ctrlH ∨ c = DEL then some .erase
  else if c ≠ 0 ∧ s.room then
    some (.char (if c = CR then LF else c) ((s.e - s.r).toNat + 1 = INPUT_BUF))
  else none

/-- The console, the call of `consoleread` under way, the keys so far, and the reads so far with the
number of bytes asked for. -/
structure State where
  input : Input
  reader : Option Reader
  keys : List Key
  reads : List (ℕ × List UInt8)

inductive Act where
  | intr (c : UInt8)
  | read (n : ℕ)
  | round

def step (s : State) : Act → Option State
  | .intr c => some { s with input := s.input.consoleintr c, keys := s.keys ++ (s.input.key c).toList }
  | .read n =>
    match s.reader with
    | none => if 0 < n then some { s with reader := some ⟨n, n, []⟩ } else none
    | some _ => none
  | .round =>
    match s.reader with
    | none => none
    | some rd =>
      match consoleread s.input rd with
      | .sleep => none
      | .more input rd => some { s with input, reader := some rd }
      | .done input out => some { s with input, reader := none, reads := s.reads ++ [(rd.target, out)] }

def run (s : State) (acts : List Act) : Option State := acts.foldlM step s

/-- An empty buffer whose indices have any common value. -/
def start (buf : ℕ → UInt8) (i : BitVec 32) : State := ⟨⟨buf, i, i, i⟩, none, [], []⟩

/-! ## The line discipline -/

/-- Add a key to what has been completed and to the current line. -/
def edit (t : List UInt8 × List UInt8) : Key → List UInt8 × List UInt8
  | .char c fills =>
    if c = LF ∨ c = ctrlD ∨ fills then (t.1 ++ (t.2 ++ [c]), []) else (t.1, t.2 ++ [c])
  | .erase => (t.1, t.2.dropLast)
  | .kill => (t.1, [])

/-- The completed lines and the current one. -/
def edited (keys : List Key) : List UInt8 × List UInt8 := keys.foldl edit ([], [])

/-- Nothing in the list ends a read. -/
def Plain (l : List UInt8) : Prop := ∀ c ∈ l, c ≠ LF ∧ c ≠ ctrlD

/-- `Piece n s out s'`: a read of `n` bytes from `s` returns `out` and leaves `s'`. -/
inductive Piece (n : ℕ) : List UInt8 → List UInt8 → List UInt8 → Prop
  | full {l s : List UInt8} : Plain l → l.length = n → Piece n (l ++ s) l s
  | line {l s : List UInt8} : Plain l → l.length < n → Piece n (l ++ LF :: s) (l ++ [LF]) s
  | stop {l s : List UInt8} : Plain l → l ≠ [] → l.length < n → Piece n (l ++ ctrlD :: s) l (ctrlD :: s)
  | eof {s : List UInt8} : 0 < n → Piece n (ctrlD :: s) [] s

/-- `Pieces rs s s'`: the reads `rs` from `s` leave `s'`. -/
inductive Pieces : List (ℕ × List UInt8) → List UInt8 → List UInt8 → Prop
  | nil {s : List UInt8} : Pieces [] s s
  | snoc {rs : List (ℕ × List UInt8)} {n : ℕ} {s out s' s'' : List UInt8} :
      Pieces rs s s' → Piece n s' out s'' → Pieces (rs ++ [(n, out)]) s s''

end Xv6.Console
