import Xv6.Xvsh.Commands

/-!
# Running a pipeline

What `process_pipe` starts for a line with one bar. Both children are given the array from its start, so the
second command runs with the arguments of the first.
-/

namespace Xv6.Xvsh

variable {env : Env} {A : Act → Prop} {s t : State} {q sh : Pid} {x y : Proc} {c : Code} {n : ℕ} {v : View}
  {line : Str}

/-! ## Descriptors -/

section

variable {f g : File} {fds fds' : Fds} {i : ℕ}

theorem fdalloc_cons_some : fdalloc (some f :: fds) g = (fdalloc fds g).map fun p => (p.1 + 1, some f :: p.2) := by
  simp [fdalloc, List.findIdx?_cons, Option.map_map, Function.comp_def]

theorem fdalloc_cons_none : fdalloc (none :: fds) g = some (0, some g :: fds) := by
  simp [fdalloc, List.findIdx?_cons]

theorem getD_set_self {a : Option File} (h : i < fds.length) : (List.set fds i a).getD i none = a := by
  rw [List.getD_eq_getElem?_getD, List.getElem?_set_self h]
  rfl

theorem getD_set_ne {a : Option File} {j : ℕ} (h : i ≠ j) : (List.set fds i a).getD j none = fds.getD j none := by
  rw [List.getD_eq_getElem?_getD, List.getElem?_set_ne h, List.getD_eq_getElem?_getD]

theorem fdalloc_spec (h : fdalloc fds g = some (i, fds')) :
    fds.getD i none = none ∧ fds' = fds.set i (some g) ∧ i < fds.length := by
  obtain ⟨j, hj, hji⟩ := Option.map_eq_some_iff.1 h
  obtain ⟨rfl, rfl⟩ := Prod.mk.inj hji
  obtain ⟨hlt, hnone, -⟩ := List.findIdx?_eq_some_iff_getElem.1 hj
  refine ⟨?_, rfl, hlt⟩
  simpa [List.getD_eq_getElem?_getD, List.getElem?_eq_getElem hlt] using hnone

/-- `pipe` with descriptors 0 and 1 open. -/
theorem pipeFds_spec {p : ℕ × ℕ} {pipe : Pid} (h : pipeFds (some f :: some g :: fds) pipe = some (p, fds')) :
    ∃ r w rest, p = (r + 2, w + 2) ∧ fds' = some f :: some g :: rest ∧
      rest.getD r none = some (.readEnd pipe) ∧ rest.getD w none = some (.writeEnd pipe) := by
  obtain ⟨⟨r, fds₁⟩, hr, h⟩ := Option.bind_eq_some_iff.1 h
  obtain ⟨⟨w, fds₂⟩, hw, h⟩ := Option.map_eq_some_iff.1 h
  simp only [fdalloc_cons_some, Option.map_map, Option.map_eq_some_iff] at hr
  obtain ⟨⟨r', rest₁⟩, hr', hreq⟩ := hr
  obtain ⟨rfl, rfl⟩ := Prod.mk.inj hreq
  simp only [fdalloc_cons_some, Option.map_map, Option.map_eq_some_iff] at hw
  obtain ⟨⟨w', rest₂⟩, hw', hweq⟩ := hw
  obtain ⟨rfl, rfl⟩ := Prod.mk.inj hweq
  obtain ⟨rfl, rfl⟩ := Prod.mk.inj h
  obtain ⟨-, rfl, hlt⟩ := fdalloc_spec hr'
  obtain ⟨hfree, rfl, hlt'⟩ := fdalloc_spec hw'
  refine ⟨r', w', _, rfl, rfl, ?_, ?_⟩
  · have hne : w' ≠ r' := by
      rintro rfl
      rw [getD_set_self hlt] at hfree
      cases hfree
    rw [getD_set_ne hne, getD_set_self hlt]
  · exact getD_set_self hlt'

/-- The first child's descriptor 1: `close(1)`, `dup(fds[1])` and `close(fds[0])`. -/
theorem getD_one_first {f' : File} {r w : ℕ} (h : fds.getD w none = some f') :
    ((dupFds ((some f :: some g :: fds).set 1 none) (w + 2)).set (r + 2) none).getD 1 none = some f' := by
  have hget : ((some f :: none :: fds : Fds)).getD (w + 2) none = some f' := h
  have hdup : dupFds (some f :: none :: fds) (w + 2) = some f :: some f' :: fds := by
    rw [dupFds, hget, Option.bind_some, fdalloc_cons_some, fdalloc_cons_none]
    rfl
  change ((dupFds (some f :: none :: fds) (w + 2)).set (r + 2) none).getD 1 none = some f'
  rw [hdup]
  rfl

/-- The second child's descriptor 0: `close(0)`, `dup(fds[0])` and `close(fds[1])`. -/
theorem getD_zero_second {f' : File} {r w : ℕ} (h : fds.getD r none = some f') :
    ((dupFds ((some f :: some g :: fds).set 0 none) (r + 2)).set (w + 2) none).getD 0 none = some f' := by
  have hget : ((none :: some g :: fds : Fds)).getD (r + 2) none = some f' := h
  have hdup : dupFds (none :: some g :: fds) (r + 2) = some f' :: some g :: fds := by
    rw [dupFds, hget, Option.bind_some, fdalloc_cons_none]
    rfl
  change ((dupFds (none :: some g :: fds) (r + 2)).set (w + 2) none).getD 0 none = some f'
  rw [hdup]
  rfl

end

/-! ## The calls of `exec` -/

/-- The calls of `exec` that a process has made once it is behind this code. -/
def Code.execs (env : Env) (q : Pid) : Code → Proc → List Exec
  | .exec path argv k, x =>
    if env.ok q x.calls then x.execs ++ [⟨path, argv, x.fds⟩]
    else k.execs env q { x.next k with execs := x.execs ++ [⟨path, argv, x.fds⟩] }
  | .openFile _ k, x => k.execs env q { x.next k with fds := openFds x.fds (env.ok q x.calls) x.calls }
  | .close fd k, x => k.execs env q { x.next k with fds := x.fds.set fd none }
  | .dup fd k, x => k.execs env q { x.next k with fds := dupFds x.fds fd }
  | .print k, x => k.execs env q (x.next k)
  | _, x => x.execs

def Proc.lastExecs (env : Env) (q : Pid) (x : Proc) : List Exec :=
  match x.mode with
  | .code c => c.execs env q x
  | _ => x.execs

theorem lastExecs_of_gone (h : x.gone) : x.lastExecs env q = x.execs := by
  cases hm : x.mode <;> simp_all [Proc.gone, Proc.lastExecs]

theorem lastExecs_call (hv : Vanishing env q x) (hy : OwnCall env q x y) : y.lastExecs env q = x.lastExecs env q := by
  obtain ⟨c, hc, hy⟩ := hy
  have hs := hv c hc
  have hx : x.lastExecs env q = c.execs env q x := by simp [Proc.lastExecs, hc]
  rw [hx]
  cases c <;> simp only [Proc.call, Option.some.injEq, reduceCtorEq, Vanishes] at hy hs
  case exec path argv k =>
    subst hy
    cases hok : env.ok q x.calls <;> simp [Proc.lastExecs, Code.execs, hok, Proc.next]
  all_goals
    subst hy
    rfl

/-- Nobody is killed, and `sh` does not read the next line. -/
def Unkilled (sh : Pid) (a : Act) : Prop := During sh a ∧ ∀ q, a ≠ .kill q

theorem lastExecs_own {a : Act} (ha : Unkilled sh a) (hv : Vanishing env q x) (ho : Own env a t q x y) :
    y.lastExecs env q = x.lastExecs env q := by
  cases ho with
  | call hc hy => exact lastExecs_call hv ⟨_, hc, hy⟩
  | failed hk | lonely hk | drained hk | read hk | eof hk => exact absurd (hv _ hk) id
  | exit hk => simp [Proc.lastExecs, hk]
  | kill h => exact absurd h (ha.2 q)

/-! ## The arguments -/

theorem argv_map_some {ws : List Str} {l : List (Option Str)} : argv (ws.map some ++ none :: l) = ws := by
  rw [argv, List.takeWhile_append_of_pos (by simp)]
  change List.filterMap id _ = ws
  simp

/-! ## The pipeline -/

/-- The command has been carried out: `sh` has returned from it, and its children are behind the shell's
code. -/
def Complete (t : State) (sh : Pid) (n₀ : ℕ) : Prop :=
  (∃ x, t sh = some x ∧ x.returned = true) ∧ ∀ p y, Since n₀ sh p → t p = some y → y.gone = true

/-- Two children and no other process have been forked from the call `n₀` on. One has executed the first of
the words `as` with the arguments `as` and its descriptor 1 at the write end of a pipe, and the other the
first of `bs` with the arguments `bs` and its descriptor 0 at the pipe's read end. -/
def RunsPipeline (t : State) (sh : Pid) (n₀ : ℕ) (as bs : List Str) : Prop :=
  ∃ i j y z pipe e e', i ≠ j ∧ n₀ ≤ i ∧ n₀ ≤ j ∧ t (i :: sh) = some y ∧ t (j :: sh) = some z ∧
    (∀ p w, Since n₀ sh p → t p = some w → p = i :: sh ∨ p = j :: sh) ∧
    y.execs = [e] ∧ as.head? = some e.path ∧ e.argv = as ∧ e.fds.getD 1 none = some (.writeEnd pipe) ∧
    z.execs = [e'] ∧ bs.head? = some e'.path ∧ e'.argv = bs ∧ e'.fds.getD 0 none = some (.readEnd pipe)

/-- The command of `sh` can be carried out, and whenever it has been it was the pipeline. -/
def Pipes (env : Env) (s : State) (sh : Pid) (x : Proc) (as bs : List Str) : Prop :=
  (∃ t, Reach env (Unkilled sh) s t ∧ Complete t sh x.calls) ∧
    ∀ t, Reach env (Unkilled sh) s t → Complete t sh x.calls → RunsPipeline t sh x.calls as bs

/-- The line `as | bs`: plain words on both sides of one that starts with a bar, the first of them not
`exit`. -/
structure PipeLine (line : Str) (a : Str) (as : List Str) (b : Str) (bs : List Str) : Prop where
  words : ∃ bar, words line = a :: as ++ bar :: b :: bs ∧ bar.head? = some BAR
  left : ∀ w ∈ a :: as, ¬ Special w
  right : ∀ w ∈ b :: bs, ¬ Special w
  first : a ≠ [0x65, 0x78, 0x69, 0x74]

/-- What the pipeline needs of the system: descriptors 0 and 1 are open, and `pipe` and both calls of `fork`
succeed. -/
structure Supplied (env : Env) (sh : Pid) (x : Proc) : Prop where
  fds : ∃ f g rest, x.fds = some f :: some g :: rest
  pipe : env.ok sh (x.calls + 1) = true
  free : (pipeFds x.fds ((x.calls + 1) :: sh)).isSome
  fork : env.ok sh (x.calls + 2) = true
  fork' : env.ok sh (x.calls + 3) = true

section

variable {a b : Str} {as bs : List Str} {text : Str} {i : ℕ}

/-- The array that `process_one_cmd` fills. -/
def pipeTok (a : Str) (as : List Str) (b : Str) (bs : List Str) : List (Option Str) :=
  (a :: as).map some ++ none :: (b :: bs).map some ++ [none]

theorem argv_pipeTok : argv (pipeTok a as b bs) = a :: as := by
  rw [pipeTok, List.append_assoc, List.cons_append, argv_map_some]

theorem path_pipeTok : path text (pipeTok a as b bs) 0 = a := rfl

theorem path_pipeTok_second : path text (pipeTok a as b bs) (as.length + 2) = b := by
  rw [path, pipeTok, List.getD_eq_getElem?_getD, List.append_assoc, List.getElem?_append_right (by simp)]
  simp

theorem PipeLine.processTokens (hl : PipeLine line a as b bs) (h : Calls env s sh x v line) :
    Xvsh.processTokens env.text v = processPipe env.text (pipeTok a as b bs) (as.length + 2) .ret := by
  obtain ⟨pipPos, redPos, rfl⟩ := h.view_eq
  obtain ⟨bar, hw, hbar⟩ := hl.words
  have hleft : ∀ w ∈ as, ¬ Special w := fun w hw => hl.left w (List.mem_cons_of_mem _ hw)
  have hexit : exitCheck env.text (pipeTok a as b bs) = false := by
    rw [exitCheck, path_pipeTok]
    simpa using hl.first
  rw [hw, classify_pipe hleft hbar hl.right]
  simp only [Xvsh.processTokens]
  rw [← pipeTok, hexit]
  rfl

theorem PipeLine.ne_nil (hl : PipeLine line a as b bs) : line ≠ [] := by
  rintro rfl
  obtain ⟨bar, hw, -⟩ := hl.words
  simp [words_nil] at hw

/-- The shell behind `malloc`. -/
theorem PipeLine.mode (hl : PipeLine line a as b bs) (h : Calls env s sh x v line) :
    x.mode = .code (.malloc fun ok =>
      if ok then processPipe env.text (pipeTok a as b bs) (as.length + 2) .ret else .print .exit) := by
  rw [h.mode, processOneCmd, if_neg hl.ne_nil, hl.processTokens h]

/-- What a child of `process_pipe` executes. -/
theorem execs_child {path : Str} {argv : List Str} {j l : ℕ} (hx : x.execs = []) :
    (Code.close i <| .dup j <| .close l <| .exec path argv .exit).execs env q x =
      [⟨path, argv, (dupFds (x.fds.set i none) j).set l none⟩] := by
  simp only [Code.execs, Proc.next, hx, List.nil_append]
  split_ifs <;> rfl

/-- The two calls of `exec`: descriptor 1 of the first leads to the pipe, and descriptor 0 of the second. -/
structure Ends (pipe : Pid) (a : Str) (as : List Str) (b : Str) (e e' : Exec) : Prop where
  first : e.path = a ∧ e.argv = a :: as ∧ e.fds.getD 1 none = some (.writeEnd pipe)
  second : e'.path = b ∧ e'.argv = a :: as ∧ e'.fds.getD 0 none = some (.readEnd pipe)

/-- What is known of the children: those forked with the calls `i` and `i + 1` execute `e` and `e'`. -/
def Kid (env : Env) (sh : Pid) (i : ℕ) (e e' : Exec) (n : ℕ) (y : Proc) : Prop :=
  (n = i ∧ y.lastExecs env (n :: sh) = [e]) ∨ (n = i + 1 ∧ y.lastExecs env (n :: sh) = [e'])

theorem Kid.congr {e e' : Exec} (h : y.lastExecs env (n :: sh) = x.lastExecs env (n :: sh))
    (hx : Kid env sh i e e' n x) : Kid env sh i e e' n y := by
  rwa [Kid, h]

theorem pipeline_rule {e e' : Exec} {Q : List ℕ → ℕ → Prop} :
    Rule env (Unkilled sh) sh
      (fun f m x => x.wp env sh (fun n y => Vanishing env (n :: sh) y ∧ Kid env sh i e e' n y) Q f m)
      fun n y => Vanishing env (n :: sh) y ∧ Kid env sh i e e' n y :=
  command_rule (fun _ ha => ha.1) (fun _ _ h => h) (fun _ _ _ _ _ ha hv h ho => h.congr (lastExecs_own ha hv ho))
    fun _ _ h hz => h.congr (by simp [Proc.lastExecs, hz])

theorem lastExecs_born {path : Str} {argv : List Str} {j l : ℕ} :
    (x.born (.close i <| .dup j <| .close l <| .exec path argv .exit)).lastExecs env q =
      [⟨path, argv, (dupFds (x.fds.set i none) j).set l none⟩] :=
  execs_child rfl

theorem wp_pipeline {tok : List (Option Str)} {pipPos r w m : ℕ} {fds : Fds}
    (hx : x.mode = .code (processPipe text tok pipPos .ret)) (hpipe : env.ok sh x.calls = true)
    (hp : pipeFds x.fds (x.calls :: sh) = some ((r, w), fds)) (hfork : env.ok sh (x.calls + 1) = true)
    (hfork' : env.ok sh (x.calls + 2) = true) :
    x.wp env sh
      (fun n y => Vanishing env (n :: sh) y ∧ Kid env sh (x.calls + 1)
        ⟨path text tok 0, argv tok, (dupFds (fds.set 1 none) w).set r none⟩
        ⟨path text tok pipPos, argv tok, (dupFds (fds.set 0 none) r).set w none⟩ n y)
      (fun f _ => f = [x.calls + 1, x.calls + 2]) [] m := by
  refine Proc.wp_of_mode hx ?_
  have hanswer : x.pipeAnswer (env.ok sh x.calls) sh = some ((r, w), fds) := by
    rw [Proc.pipeAnswer, if_pos hpipe, hp]
  rw [processPipe, Code.wp, hanswer]
  dsimp only [Code.wp, Proc.next]
  rw [if_pos hfork, if_pos hfork']
  exact ⟨⟨vanishing_born (.inr trivial), .inl ⟨rfl, lastExecs_born⟩⟩,
    ⟨vanishing_born (.inr trivial), .inr ⟨rfl, lastExecs_born⟩⟩, rfl⟩

theorem PipeLine.wp (hl : PipeLine line a as b bs) (h : Calls env s sh x v line) (hs : Supplied env sh x)
    (hm : env.ok sh x.calls = true) :
    ∃ e e', Ends ((x.calls + 1) :: sh) a as b e e' ∧ ∀ m,
      x.wp env sh (fun n y => Vanishing env (n :: sh) y ∧ Kid env sh (x.calls + 2) e e' n y)
        (fun f _ => f = [x.calls + 2, x.calls + 3]) [] m := by
  obtain ⟨f, g, rest, hfds⟩ := hs.fds
  obtain ⟨⟨p, fds⟩, hp⟩ := Option.isSome_iff_exists.1 hs.free
  obtain ⟨r, w, rest', rfl, rfl, hr, hw⟩ := pipeFds_spec (hfds ▸ hp)
  refine ⟨⟨a, a :: as, _⟩, ⟨b, a :: as, _⟩, ⟨⟨rfl, rfl, getD_one_first (f := f) (g := g) (r := r) hw⟩,
    ⟨rfl, rfl, getD_zero_second (f := f) (g := g) (w := w) hr⟩⟩, fun m => Proc.wp_of_mode (hl.mode h) ?_⟩
  rw [Code.wp, hm]
  have hwp := wp_pipeline (x := x.next (processPipe env.text (pipeTok a as b bs) (as.length + 2) .ret)) (m := m) rfl
    hs.pipe hp hs.fork hs.fork' _ rfl
  rwa [path_pipeTok, path_pipeTok_second, argv_pipeTok] at hwp

section

variable {i : ℕ} {e e' : Exec}

theorem pipeline_family (hr : Rooted s) (hs : s sh = some x)
    (hwp : ∀ m, x.wp env sh (fun n y => Vanishing env (n :: sh) y ∧ Kid env sh i e e' n y)
      (fun f _ => f = [i, i + 1]) [] m) (ht : Reach env (Unkilled sh) s t) :
    ∃ x' f l, Family (fun n y => Vanishing env (n :: sh) y ∧ Kid env sh i e e' n y) sh x.calls t x' f l ∧
      (x'.returned = true → f = [i, i + 1]) := by
  obtain ⟨l, hl⟩ := Family.start (K := fun n y => Vanishing env (n :: sh) y ∧ Kid env sh i e e' n y) hr hs
  obtain ⟨x', f', l', hfam, hP⟩ := pipeline_rule.run hr hl (hwp _) ht
  exact ⟨x', f', l', hfam, fun hret => hP _ (mode_of_returned hret)⟩

/-- No process is forked but the two. -/
theorem pipeline_kids (hr : Rooted s) (hs : s sh = some x)
    (hwp : ∀ m, x.wp env sh (fun n y => Vanishing env (n :: sh) y ∧ Kid env sh i e e' n y)
      (fun f _ => f = [i, i + 1]) [] m) (ht : Reach env (Unkilled sh) s t) :
    ∀ p w, Since x.calls sh p → t p = some w → p = i :: sh ∨ p = (i + 1) :: sh := by
  intro p w hp hw
  obtain ⟨_, _, _, hfam, -⟩ := pipeline_family hr hs hwp ht
  obtain ⟨n, rfl, -, hK⟩ := hfam.kids p w hp hw
  exact hK.elim (fun h => .inl (by rw [h.1])) fun h => .inr (by rw [h.1])

/-- What has been executed when the command has been carried out. -/
theorem complete_spec (hr : Rooted s) (hs : s sh = some x) (hi : x.calls ≤ i)
    (hwp : ∀ m, x.wp env sh (fun n y => Vanishing env (n :: sh) y ∧ Kid env sh i e e' n y)
      (fun f _ => f = [i, i + 1]) [] m)
    (ht : Reach env (Unkilled sh) s t) (hc : Complete t sh x.calls) :
    ∃ y z, t (i :: sh) = some y ∧ y.execs = [e] ∧ t ((i + 1) :: sh) = some z ∧ z.execs = [e'] := by
  obtain ⟨x', f', l', hfam, hP⟩ := pipeline_family hr hs hwp ht
  obtain ⟨⟨x'', hx'', hret⟩, hgone⟩ := hc
  cases hfam.proc.symm.trans hx''
  have hf : f' = [i, i + 1] := hP hret
  -- each of the two has been forked, and is what it is to be
  obtain ⟨y, hy⟩ := (hfam.forked i hi).1 (by simp [hf])
  obtain ⟨z, hz⟩ := (hfam.forked (i + 1) (by omega)).1 (by simp [hf])
  have hkid : ∀ n w, x.calls ≤ n → t (n :: sh) = some w → Kid env sh i e e' n w ∧ w.lastExecs env (n :: sh) = w.execs := by
    intro n w hn hw
    obtain ⟨n', hn', hK⟩ := hfam.kids _ w ⟨[], n, rfl, hn⟩ hw
    cases (List.cons.inj hn').1
    exact ⟨hK.2, lastExecs_of_gone (hgone _ w ⟨[], _, rfl, hn⟩ hw)⟩
  obtain ⟨hky, hey⟩ := hkid i y hi hy
  obtain ⟨hkz, hez⟩ := hkid (i + 1) z (by omega) hz
  refine ⟨y, z, hy, ?_, hz, ?_⟩
  · rw [← hey]
    exact hky.elim And.right fun h => absurd h.1 (by omega)
  · rw [← hez]
    exact hkz.elim (fun h => absurd h.1 (by omega)) And.right

end

/-! ## The command is carried out -/

theorem outstanding_of_calls (hx : x.outstanding = true) (h : Relation.ReflTransGen (OwnCall env q) x y) :
    y.outstanding = true := by
  induction h with
  | refl => exact hx
  | tail _ hy _ =>
    obtain ⟨c, hc, hy⟩ := hy
    exact (Own.call (a := .call q) (t := fun _ => none) hc hy).outstanding.2

/-- A child of the command terminates, after it has run another program or not. -/
theorem Reach.terminates (h : Reach env (Unkilled sh) s t) (hq : t q = some x) (hx : x.outstanding = true)
    (hv : Vanishing env q x) :
    ∃ u z, Reach env (Unkilled sh) s u ∧ u q = some z ∧ z.zombie = true ∧ ∀ p, p ≠ q → u p = t p := by
  obtain ⟨y, hcalls, hgone⟩ := hv.leaves
  have hy := outstanding_of_calls hx hcalls
  obtain ⟨u, hu, huq, huo⟩ := h.calls ⟨fun line => by simp, fun q => by simp⟩ hq hcalls
  cases hm : y.mode with
  | code c => simp [Proc.gone, hm] at hgone
  | zombie =>
    refine ⟨u, y, hu, huq, ?_, huo⟩
    obtain ⟨_, _, _, _, _, _⟩ := y
    subst hm
    rfl
  | other =>
    refine ⟨_, _, hu.step ⟨fun line => by simp, fun q => by simp⟩ (a := .exit q) (u := set u q { y with mode := .zombie })
      ?_, set_self, rfl, fun p hp => by rw [set_of_ne hp, huo p hp]⟩
    simp [Xvsh.step, stepOf, Act.pid, huq, hm]
  | reaped =>
    obtain ⟨_, _, _, _, _, _⟩ := y
    subst hm
    simp [Proc.outstanding] at hy

theorem PipeLine.exists_complete (hl : PipeLine line a as b bs) (h : Calls env s sh x v line)
    (hs : Supplied env sh x) (hm : env.ok sh x.calls = true) (hr : Rooted s) :
    ∃ t, Reach env (Unkilled sh) s t ∧ Complete t sh x.calls := by
  have hun : ∀ q, Unkilled sh (.call q) := fun q => ⟨fun line => by simp, fun q => by simp⟩
  have hunf : Unkilled sh (.fork sh) := ⟨fun line => by simp, fun q => by simp⟩
  have hunr : ∀ n, Unkilled sh (.reap sh n) := fun n => ⟨fun line => by simp, fun q => by simp⟩
  have hne : ∀ {i j : ℕ}, i ≠ j → i :: sh ≠ j :: sh := fun hij heq => hij (List.cons.inj heq).1
  have hstart : Reach env (Unkilled sh) s s := .refl
  obtain ⟨⟨p, fds⟩, hp⟩ := Option.isSome_iff_exists.1 hs.free
  have hmalloc : OwnCall env sh x (x.next (processPipe env.text (pipeTok a as b bs) (as.length + 2) .ret)) := by
    refine ⟨_, hl.mode h, ?_⟩
    simp [Proc.call, hm]
  -- the shell forks twice and closes its ends
  obtain ⟨t₁, ht₁, hsh₁, -⟩ := hstart.calls (hun sh) h.proc (.tail (.single hmalloc) (ownCall_pipe rfl hs.pipe hp))
  obtain ⟨t₂, ht₂, hsh₂, hc₂, -⟩ := ht₁.fork hunf hsh₁ rfl hs.fork
  obtain ⟨t₃, ht₃, hsh₃, hd₃, ho₃⟩ := ht₂.fork hunf hsh₂ rfl hs.fork'
  obtain ⟨t₄, ht₄, hsh₄, ho₄⟩ := ht₃.calls (hun sh) hsh₃ (.head ⟨_, rfl, rfl⟩ (.single ⟨_, rfl, rfl⟩))
  -- the children terminate and are collected
  have hc₄ : t₄ ((x.calls + 2) :: sh) = some _ :=
    (ho₄ _ cons_ne_self).trans ((ho₃ _ cons_ne_self (hne (by simp [Proc.next]))).trans hc₂)
  obtain ⟨t₅, y, ht₅, hy₅, hy, ho₅⟩ := ht₄.terminates hc₄ rfl (vanishing_born (.inr trivial))
  have hd₅ : t₅ ((x.calls + 3) :: sh) = some _ := (ho₅ _ (hne (by omega))).trans ((ho₄ _ cons_ne_self).trans hd₃)
  obtain ⟨t₆, z, ht₆, hz₆, hz, ho₆⟩ := ht₅.terminates hd₅ rfl (vanishing_born (.inr trivial))
  have hsh₆ := (ho₆ sh ne_cons_self).trans ((ho₅ sh ne_cons_self).trans hsh₄)
  have hy₆ := (ho₆ _ (hne (by omega))).trans hy₅
  obtain ⟨t₇, ht₇, hsh₇, hy₇, ho₇⟩ := ht₆.reap (hunr _) hsh₆ rfl hy₆ hy
  have hz₇ := (ho₇ _ cons_ne_self (hne (by omega))).trans hz₆
  obtain ⟨t₈, ht₈, hsh₈, hz₈, ho₈⟩ := ht₇.reap (hunr _) hsh₇ rfl hz₇ hz
  have hy₈ := (ho₈ _ cons_ne_self (hne (by omega))).trans hy₇
  refine ⟨t₈, ht₈, ⟨_, hsh₈, rfl⟩, fun q w hq hw => ?_⟩
  obtain ⟨e, e', -, hwp⟩ := hl.wp h hs hm
  obtain rfl | rfl := pipeline_kids hr h.proc hwp ht₈ q w hq hw
  · cases hy₈.symm.trans hw
    rfl
  · cases hz₈.symm.trans hw
    rfl

/-- Without the memory for its array the shell exits. -/
theorem PipeLine.malloc (hl : PipeLine line a as b bs) (h : Calls env s sh x v line) (hr : Rooted s)
    (ht : Reach env (Unkilled sh) s t) (hc : Complete t sh x.calls) : env.ok sh x.calls = true := by
  by_contra hm
  have hwp : ∀ m, x.wp env sh (fun n y => Vanishing env (n :: sh) y ∧ Kid env sh 0 ⟨[], [], []⟩ ⟨[], [], []⟩ n y)
      (fun _ _ => False) [] m := fun m => by
    refine Proc.wp_of_mode (hl.mode h) ?_
    rw [Code.wp, Bool.eq_false_iff.2 hm]
    trivial
  obtain ⟨l, hfam⟩ := Family.start hr h.proc
  obtain ⟨x', f', l', hfam', hP⟩ := pipeline_rule.run hr hfam (hwp _) ht
  obtain ⟨⟨x'', hx'', hret⟩, -⟩ := hc
  cases hfam'.proc.symm.trans hx''
  exact hP _ (mode_of_returned hret)

/-- Whichever of the two children runs the second command, it has the arguments of the first. -/
theorem PipeLine.argv_eq (hl : PipeLine line a as b bs) (h : Calls env s sh x v line) (hs : Supplied env sh x)
    (hr : Rooted s) (ht : Reach env (Unkilled sh) s t) (hc : Complete t sh x.calls)
    (hruns : RunsPipeline t sh x.calls (a :: as) (b :: bs)) : a :: as = b :: bs := by
  obtain ⟨e, e', hends, hwp⟩ := hl.wp h hs (hl.malloc h hr ht hc)
  obtain ⟨y, z, hy, hye, hz, hze⟩ := complete_spec hr h.proc (by omega) hwp ht hc
  obtain ⟨i, j, -, z', -, -, d, -, -, hj, -, hz', -, -, -, -, -, hzd, -, hargv, -⟩ := hruns
  obtain heq | heq := pipeline_kids hr h.proc hwp ht (j :: sh) z' ⟨[], j, rfl, hj⟩ hz'
  · rw [heq, hy] at hz'
    cases hz'
    cases hye.symm.trans hzd
    rw [← hends.first.2.1, hargv]
  · rw [heq] at hz'
    cases hz.symm.trans hz'
    cases hze.symm.trans hzd
    rw [← hends.second.2.1, hargv]

/-- The shell runs the pipeline `as | bs` exactly when the two commands are the same words, given the memory
for them. -/
theorem runs_pipeline_iff (hreach : Reachable env s) (h : Calls env s sh x v line)
    (hl : PipeLine line a as b bs) (hs : Supplied env sh x) :
    Pipes env s sh x (a :: as) (b :: bs) ↔ env.ok sh x.calls = true ∧ a :: as = b :: bs := by
  have hr := hreach.rooted
  constructor
  · rintro ⟨⟨t, ht, hc⟩, hruns⟩
    exact ⟨hl.malloc h hr ht hc, hl.argv_eq h hs hr ht hc (hruns t ht hc)⟩
  · rintro ⟨hm, heq⟩
    refine ⟨hl.exists_complete h hs hm hr, fun t ht hc => ?_⟩
    obtain ⟨e, e', hends, hwp⟩ := hl.wp h hs hm
    obtain ⟨y, z, hy, hye, hz, hze⟩ := complete_spec hr h.proc (by omega) hwp ht hc
    refine ⟨_, _, y, z, _, e, e', by omega, by omega, by omega, hy, hz, pipeline_kids hr h.proc hwp ht, hye, ?_,
      hends.first.2.1, hends.first.2.2, hze, ?_, hends.second.2.1.trans heq, hends.second.2.2⟩
    · rw [hends.first.1]
      rfl
    · rw [hends.second.1]
      rfl

/-- The line `a | b`. -/
def pipeLine : Str := [0x61, 0x20, 0x7C, 0x20, 0x62]

theorem pipeLine_words : PipeLine pipeLine [0x61] [] [0x62] [] :=
  ⟨⟨[0x7C], by decide, rfl⟩, by decide, by decide, by decide⟩

theorem supplied_shell : Supplied fine [] (shell.read [] pipeLine) :=
  ⟨⟨_, _, _, rfl⟩, rfl, by decide, rfl, rfl⟩

theorem calls_pipeLine : ∃ s v, Reachable fine s ∧ Calls fine s [] (shell.read [] pipeLine) v pipeLine := by
  have hline : ∀ c ∈ pipeLine, c ≠ 0 := by simp [pipeLine]
  obtain ⟨s, hs, hcalls, -⟩ := (reachable_boot_shell fine).read boot_shell rfl hline
  exact ⟨s, _, hs, hcalls⟩

theorem runs_pipeline_iff_pipeLine : ∃ s v, Reachable fine s ∧
    Calls fine s [] (shell.read [] pipeLine) v pipeLine ∧
    (Pipes fine s [] (shell.read [] pipeLine) [[0x61]] [[0x62]] ↔
      fine.ok [] 1 = true ∧ ([[0x61]] : List Str) = [[0x62]]) := by
  obtain ⟨s, v, hs, hcalls⟩ := calls_pipeLine
  exact ⟨s, v, hs, hcalls, runs_pipeline_iff hs hcalls pipeLine_words supplied_shell⟩

/-- In `a | b` the command `b` is given the argument vector of `a`. -/
theorem pipeline_shares_argv : ∃ s v t, Reachable fine s ∧
    Calls fine s [] (shell.read [] pipeLine) v pipeLine ∧ Reach fine (Unkilled []) s t ∧
    Complete t [] (shell.read [] pipeLine).calls ∧
    ¬ RunsPipeline t [] (shell.read [] pipeLine).calls [[0x61]] [[0x62]] := by
  obtain ⟨s, v, hs, hcalls⟩ := calls_pipeLine
  obtain ⟨t, ht, hc⟩ := pipeLine_words.exists_complete hcalls supplied_shell rfl hs.rooted
  refine ⟨s, v, t, hs, hcalls, ht, hc, fun hruns => ?_⟩
  have hargv := pipeLine_words.argv_eq hcalls supplied_shell hs.rooted ht hc hruns
  simp at hargv

end

end Xv6.Xvsh
