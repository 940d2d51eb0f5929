import Xv6.Sh.Parser
import Xv6.Xvsh.Shell

/-!
# `runcmd` of `sh`

The interpreter of command trees, down to the calls of `exec` and the descriptors they are made with.
-/

namespace Xv6.Sh

open Xvsh (Pid File Fds fdalloc pipeFds dupFds)

/-- Whether the calls of `pipe` and `fork` at a node of the tree succeed, and what file `open` finds there. -/
structure Env where
  ok : Pid → ℕ → Bool
  file : Pid → Str → ℕ → Option ℕ

/-- How a descriptor is redirected, and the descriptors of the two sides of a pipe. -/
structure Plumbing where
  redirect : Fds → ℕ → File → Option Fds
  sides : Fds → Pid → Option (Fds × Fds)

section

variable (env : Env)

/-- The calls of `exec` by `runcmd` and the processes it forks; `q` is the node. A process ends if `open`, `pipe`
or `fork1` fails. -/
def execs (P : Plumbing) : Cmd Str → Pid → Fds → List Xvsh.Exec
  | .exec [], _, _ => []
  | .exec (a :: as), _, fds => [⟨a, a :: as, fds⟩]
  | .redir cmd file mode fd, q, fds =>
    ((env.file q file mode).bind fun n => P.redirect fds fd (.other n)).elim [] (execs P cmd (0 :: q))
  | .list left right, q, fds =>
    if env.ok q 0 then execs P left (0 :: q) fds ++ execs P right (1 :: q) fds else []
  | .pipe left right, q, fds =>
    match P.sides fds q with
    | none => []
    | some (l, r) =>
      if env.ok q 0 && env.ok q 1 then
        execs P left (0 :: q) l ++ if env.ok q 2 then execs P right (1 :: q) r else []
      else []
  | .back cmd, q, fds => if env.ok q 0 then execs P cmd (0 :: q) fds else []

/-- `close` and `open`, `pipe` and `dup` as `runcmd` calls them. -/
def byCalls : Plumbing where
  redirect fds fd f := (fdalloc (fds.set fd none) f).map Prod.snd
  sides fds q := (pipeFds fds q).map fun ((r, w), fds) =>
    (((dupFds (fds.set 1 none) w).set r none).set w none, ((dupFds (fds.set 0 none) r).set r none).set w none)

def runcmd : Cmd Str → Pid → Fds → List Xvsh.Exec := execs env byCalls

end

/-- What the tree says: each time one descriptor changes, and no other. -/
def direct : Plumbing where
  redirect fds fd f := some (fds.set fd (some f))
  sides fds q := some (fds.set 1 (some (.writeEnd q)), fds.set 0 (some (.readEnd q)))

/-- Redirections are of the standard input or output, as `parseredirs` makes them. -/
def Cmd.Standard : Cmd Str → Prop
  | .exec _ => True
  | .redir cmd _ _ fd => (fd = 0 ∨ fd = 1) ∧ cmd.Standard
  | .pipe left right | .list left right => left.Standard ∧ right.Standard
  | .back cmd => cmd.Standard

section

variable {env : Env} {c : Cmd Str} {q : Pid} {a b e : File} {fds : Fds}

/-- The first three descriptors are open, and there is room for a pipe. -/
abbrev three (a b e : File) (fds : Fds) : Fds := some a :: some b :: some e :: none :: none :: fds

end

end Xv6.Sh
