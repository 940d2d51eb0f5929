import Xv6.Xvsh.Strtok

/-!
# The shell and its processes

The code of `xvsh.c` from `process_one_cmd` on is a tree of kernel calls, and the system runs any number
of processes that stand somewhere in that code. A process is named by the way it was forked: the child
that `q` creates with its `n`-th call is `n :: q`. Which calls succeed is given beforehand, process by
process and call by call, so that a run depends on nothing else but the order of the steps.
-/

namespace Xv6.Xvsh

abbrev Pid := List ℕ

abbrev Str := List UInt8

/-- What `fork` returns: −1, zero or the child's number. -/
inductive Forked
  | failed
  | child
  | parent
  deriving DecidableEq

/-- The code of a process up to the return of `process_one_cmd`, as the calls it makes. -/
inductive Code
  | malloc (k : Bool → Code)
  | pipe (k : Option (ℕ × ℕ) → Code)
  | fork (k : Forked → Code)
  | exec (path : Str) (argv : List Str) (k : Code)
  | openFile (path : Str) (k : Code)
  | close (fd : ℕ) (k : Code)
  | dup (fd : ℕ) (k : Code)
  | print (k : Code)
  | wait (k : Code)
  /-- `while(wait() > 0){}` and `exit()`. -/
  | drain
  | exit
  | ret

/-! ## The code -/

section

-- `text` is the string at address zero, which a null pointer leads to
variable (text : Str) (tok : List (Option Str))

def path (i : ℕ) : Str := (tok.getD i none).getD text

/-- The arguments that `sys_exec` reads from `tok`. -/
def argv : List Str := (tok.takeWhile Option.isSome).reduceOption

/-- `strcmp(tok[0], "exit") == 0`. -/
def exitCheck : Bool := path text tok 0 = [0x65, 0x78, 0x69, 0x74]

def processPipe (pipPos : ℕ) (k : Code) : Code :=
  .pipe fun
  | none => .exit
  | some (r, w) => .fork fun
    | .failed => .exit
    | .child => .close 1 <| .dup w <| .close r <| .exec (path text tok 0) (argv tok) .exit
    | .parent => .fork fun
      | .failed => .exit
      | .child => .close 0 <| .dup r <| .close w <| .exec (path text tok pipPos) (argv tok) .exit
      | .parent => .close r <| .close w <| .wait <| .wait k

def processNormal (bg : ℕ) (k : Code) : Code :=
  .fork fun
  | .failed => k
  | .child => .exec (path text tok 0) (argv tok) <| .print .exit
  | .parent => if bg = 0 then .wait k else k

def processRedirect (redPos : ℕ) (k : Code) : Code :=
  .fork fun
  | .failed => .exit
  | .child => .close 1 <| .openFile (path text tok redPos) <| .exec (path text tok 0) (argv tok) k
  | .parent => .wait k

end

/-- `process_one_cmd` once its loop has filled the variables. -/
def processTokens (text : Str) (v : View) : Code :=
  if exitCheck text v.tok then .drain
  else if v.pip = 2 then processPipe text v.tok v.pipPos .ret
  else if v.red = 3 then processRedirect text v.tok v.redPos .ret
  else processNormal text v.tok v.bg .ret

/-- `process_one_cmd`. On the empty line its first loop runs down the stack from `buf[-1]` on until it
faults. -/
def processOneCmd (text : Str) (v : View) (line : Str) : Code :=
  if line = [] then .exit
  else .malloc fun ok => if ok then processTokens text v else .print .exit

/-! ## Processes -/

inductive File
  | other (n : ℕ)
  | readEnd (pipe : Pid)
  | writeEnd (pipe : Pid)
  deriving DecidableEq

abbrev Fds := List (Option File)

/-- `fdalloc`: the lowest free descriptor. -/
def fdalloc (fds : Fds) (f : File) : Option (ℕ × Fds) :=
  (fds.findIdx? Option.isNone).map fun i => (i, fds.set i (some f))

/-- `sys_pipe`. -/
def pipeFds (fds : Fds) (pipe : Pid) : Option ((ℕ × ℕ) × Fds) :=
  (fdalloc fds (.readEnd pipe)).bind fun r =>
    (fdalloc r.2 (.writeEnd pipe)).map fun w => ((r.1, w.1), w.2)

def dupFds (fds : Fds) (fd : ℕ) : Fds :=
  ((fds.getD fd none).bind (fdalloc fds)).elim fds Prod.snd

def openFds (fds : Fds) (ok : Bool) (n : ℕ) : Fds :=
  if ok then (fdalloc fds (.other n)).elim fds Prod.snd else fds

inductive Mode
  | code (c : Code)
  /-- Another program, after `exec`. -/
  | other
  | zombie
  | reaped

/-- A call of `exec`, with the descriptors it is made with. -/
structure Exec where
  path : Str
  argv : List Str
  fds : Fds
  deriving DecidableEq

structure Proc where
  mode : Mode
  /-- The calls made so far. -/
  calls : ℕ
  fds : Fds
  execs : List Exec
  pipPos : ℕ
  redPos : ℕ

namespace Proc

def next (x : Proc) (c : Code) : Proc := { x with mode := .code c, calls := x.calls + 1 }

/-- A call that concerns its process alone; `ok` says whether it succeeds. -/
def call (ok : Bool) (q : Pid) (x : Proc) : Code → Option Proc
  | .malloc k => some (x.next (k ok))
  | .pipe k =>
    match if ok then pipeFds x.fds (x.calls :: q) else none with
    | none => some (x.next (k none))
    | some (p, fds) => some { x.next (k (some p)) with fds }
  | .exec path argv k =>
    some { x.next k with
      mode := if ok then .other else .code k
      execs := x.execs ++ [⟨path, argv, x.fds⟩] }
  | .openFile _ k => some { x.next k with fds := openFds x.fds ok x.calls }
  | .close fd k => some { x.next k with fds := x.fds.set fd none }
  | .dup fd k => some { x.next k with fds := dupFds x.fds fd }
  | .print k => some (x.next k)
  | .exit => some { x with mode := .zombie }
  | .fork _ | .wait _ | .drain | .ret => none

/-- The child of a `fork`, which goes on with `c`. -/
def born (x : Proc) (c : Code) : Proc := { x with mode := .code c, calls := 0, execs := [] }

/-- `main` has read a line and calls `process_one_cmd`. -/
def read (text : Str) (x : Proc) (line : Str) : Proc :=
  let v := (parse x.pipPos x.redPos (line ++ [0])).view
  { x.next (processOneCmd text v line) with pipPos := v.pipPos, redPos := v.redPos }

def zombie : Proc → Bool
  | { mode := .zombie, .. } => true
  | _ => false

/-- A child that `wait` may still have to wait for. -/
def outstanding : Proc → Bool
  | { mode := .reaped, .. } => false
  | _ => true

def terminated : Proc → Bool
  | { mode := .zombie, .. } | { mode := .reaped, .. } => true
  | _ => false

/-- `process_one_cmd` has returned. -/
def returned : Proc → Bool
  | { mode := .code .ret, .. } => true
  | _ => false

end Proc

/-! ## The system -/

structure Env where
  text : Str
  /-- Whether the `n`-th call of a process succeeds. -/
  ok : Pid → ℕ → Bool

abbrev State := Pid → Option Proc

inductive Act
  | call (q : Pid)
  | fork (q : Pid)
  /-- `wait` finds the child `n :: q` of `q`. -/
  | reap (q : Pid) (n : ℕ)
  /-- `wait` finds that there are no children. -/
  | lonely (q : Pid)
  /-- `main` reads a line; `eof`: there is none, and the shell exits. -/
  | read (q : Pid) (line : Str)
  | eof (q : Pid)
  /-- A program that the shell has started exits. -/
  | exit (q : Pid)
  | kill (q : Pid)
  deriving DecidableEq

def set (s : State) (q : Pid) (x : Proc) : State := Function.update s q (some x)

/-- The state in which `q` goes on with `c` after it has taken note of its child's end. -/
def collect (s : State) (q : Pid) (x : Proc) (n : ℕ) (c : Code) : Option State :=
  (s (n :: q)).bind fun y =>
    if y.zombie then some (set (set s (n :: q) { y with mode := .reaped }) q (x.next c)) else none

def childless (s : State) (q : Pid) (x : Proc) : Bool :=
  (List.range x.calls).all fun n => (s (n :: q)).all fun y => !y.outstanding

def stepOf (env : Env) (s : State) (q : Pid) (x : Proc) : Act → Option State
  | .call _ =>
    match x.mode with
    | .code c => (x.call (env.ok q x.calls) q c).map (set s q)
    | _ => none
  | .fork _ =>
    match x.mode with
    | .code (.fork k) =>
      if env.ok q x.calls then
        some (set (set s (x.calls :: q) (x.born (k .child))) q (x.next (k .parent)))
      else some (set s q (x.next (k .failed)))
    | _ => none
  | .reap _ n =>
    match x.mode with
    | .code (.wait k) => collect s q x n k
    | .code .drain => collect s q x n .drain
    | _ => none
  | .lonely _ =>
    if childless s q x then
      match x.mode with
      | .code (.wait k) => some (set s q (x.next k))
      | .code .drain => some (set s q (x.next .exit))
      | _ => none
    else none
  | .read _ line =>
    match x.mode with
    | .code .ret => some (set s q (x.read env.text line))
    | _ => none
  | .eof _ =>
    match x.mode with
    | .code .ret => some (set s q { x with mode := .zombie })
    | _ => none
  | .exit _ =>
    match x.mode with
    | .other => some (set s q { x with mode := .zombie })
    | _ => none
  | .kill _ => if x.terminated then none else some (set s q { x with mode := .zombie })

def Act.pid : Act → Pid
  | .call q | .fork q | .reap q _ | .lonely q | .read q _ | .eof q | .exit q | .kill q => q

def step (env : Env) (s : State) (a : Act) : Option State :=
  (s a.pid).bind fun x => stepOf env s a.pid x a

/-- The states that steps of the kind `A` lead to from `s`. -/
inductive Reach (env : Env) (A : Act → Prop) (s : State) : State → Prop
  | refl : Reach env A s s
  | step {t u : State} {a : Act} : Reach env A s t → A a → step env t a = some u → Reach env A s u

/-- A shell that has just been started, with the descriptors `fds`. -/
def boot (fds : Fds) : State := set (fun _ => none) [] ⟨.code .ret, 0, fds, [], 0, 0⟩

/-- The states of a system in which the shells have run any commands. -/
def Reachable (env : Env) (s : State) : Prop := ∃ fds, fds.length = 16 ∧ Reach env (fun _ => True) (boot fds) s

/-- In `s` the process `q` has just called `process_one_cmd` with this line. -/
structure Calls (env : Env) (s : State) (q : Pid) (x : Proc) (v : View) (line : Str) : Prop where
  proc : s q = some x
  mode : x.mode = .code (processOneCmd env.text v line)
  view : ∃ pipPos redPos, v = (parse pipPos redPos (line ++ [0])).view
  line : ∀ c ∈ line, c ≠ 0

/-- Descended from a child that `q` forks with its `n`-th call or later. -/
def Since (n : ℕ) (q p : Pid) : Prop := ∃ l m, p = l ++ m :: q ∧ n ≤ m

/-- Steps that belong to the command `q` is at: until `q` itself reads the next. -/
def During (q : Pid) (a : Act) : Prop := ∀ line, a ≠ .read q line

end Xv6.Xvsh
