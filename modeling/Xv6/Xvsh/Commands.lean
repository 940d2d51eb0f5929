import Mathlib.Logic.Relation
import Xv6.Xvsh.Steps

/-!
# Who returns from a command

`process_one_cmd` is to return in the process that called it only. Of the three functions that fork,
`process_redirect` does not exit when `exec` fails in its child.
-/

namespace Xv6.Xvsh

variable {env : Env} {A : Act → Prop} {s t u : State} {p q sh : Pid} {x y z : Proc} {c : Code} {n : ℕ} {v : View}
  {line : Str}

/-! ## Runs of one process -/

/-- A process makes one call of its own. -/
def OwnCall (env : Env) (q : Pid) (x y : Proc) : Prop :=
  ∃ c, x.mode = .code c ∧ x.call (env.ok q x.calls) q c = some y

theorem step_call (hq : t q = some x) (h : OwnCall env q x y) : step env t (.call q) = some (set t q y) := by
  obtain ⟨c, hc, hy⟩ := h
  simp [step, stepOf, Act.pid, hq, hc, hy]

theorem set_set : set (set t q x) q y = set t q y := by
  simp [set]

theorem set_eq_self (h : t q = some x) : set t q x = t := by
  rw [set, ← h, Function.update_eq_self]

/-- `q` makes calls of its own, from any state of a run. -/
theorem Reach.calls (h : Reach env A s t) (hA : A (.call q)) (hq : t q = some x)
    (hcalls : Relation.ReflTransGen (OwnCall env q) x y) :
    ∃ u, Reach env A s u ∧ u q = some y ∧ ∀ p, p ≠ q → u p = t p := by
  refine ⟨set t q y, ?_, set_self, fun p hp => set_of_ne hp⟩
  induction hcalls with
  | refl => rwa [set_eq_self hq]
  | tail _ hstep ih =>
    refine ih.step hA ?_
    rw [step_call set_self hstep, set_set]

theorem Reach.fork {k : Forked → Code} (h : Reach env A s t) (hA : A (.fork q)) (hq : t q = some x)
    (hk : x.mode = .code (.fork k)) (hok : env.ok q x.calls = true) :
    ∃ u, Reach env A s u ∧ u q = some (x.next (k .parent)) ∧ u (x.calls :: q) = some (x.born (k .child)) ∧
      ∀ p, p ≠ q → p ≠ x.calls :: q → u p = t p := by
  refine ⟨_, h.step hA (u := set (set t (x.calls :: q) (x.born (k .child))) q (x.next (k .parent))) ?_, set_self, ?_,
    fun p hp hp' => ?_⟩
  · simp [Xvsh.step, stepOf, Act.pid, hq, hk, hok]
  · rw [set_of_ne cons_ne_self, set_self]
  · rw [set_of_ne hp, set_of_ne hp']

theorem ownCall_pipe {f : Option (ℕ × ℕ) → Code} (hx : x.mode = .code (.pipe f)) (hok : env.ok sh x.calls = true)
    {p : ℕ × ℕ} {fds : Fds} (hp : pipeFds x.fds (x.calls :: sh) = some (p, fds)) :
    OwnCall env sh x { x.next (f (some p)) with fds } := by
  refine ⟨_, hx, ?_⟩
  simp [Proc.call, hok, hp]

/-- `sh` collects a child that has terminated. -/
theorem Reach.reap {k : Code} (h : Reach env A s t) (hA : A (.reap sh n)) (hs : t sh = some x)
    (hx : x.mode = .code (.wait k)) (hn : t (n :: sh) = some y) (hy : y.zombie = true) :
    ∃ u, Reach env A s u ∧ u sh = some (x.next k) ∧ u (n :: sh) = some { y with mode := .reaped } ∧
      ∀ p, p ≠ sh → p ≠ n :: sh → u p = t p := by
  refine ⟨_, h.step hA (u := set (set t (n :: sh) { y with mode := .reaped }) sh (x.next k)) ?_, set_self, ?_,
    fun p hp hp' => ?_⟩
  · simp [Xvsh.step, stepOf, Act.pid, hs, hx, Xvsh.collect, hn, hy]
  · rw [set_of_ne cons_ne_self, set_self]
  · rw [set_of_ne hp, set_of_ne hp']

/-! ## Children that do not return -/

/-- A process that makes its `n`-th call here makes calls of its own until it is replaced or exits. -/
def Vanishes (ok : ℕ → Bool) : ℕ → Code → Prop
  | _, .exit => True
  | n, .exec _ _ k => ok n = true ∨ Vanishes ok (n + 1) k
  | n, .openFile _ k | n, .close _ k | n, .dup _ k | n, .print k => Vanishes ok (n + 1) k
  | _, .malloc _ | _, .pipe _ | _, .fork _ | _, .wait _ | _, .drain | _, .ret => False

/-- The process that runs another program, or has terminated. -/
def Proc.gone (x : Proc) : Bool :=
  match x.mode with
  | .code _ => false
  | _ => true

def Vanishing (env : Env) (q : Pid) (x : Proc) : Prop := ∀ c, x.mode = .code c → Vanishes (env.ok q) x.calls c

theorem Vanishing.of_gone (h : x.gone) : Vanishing env q x := fun c hc => by
  simp [Proc.gone, hc] at h

theorem Vanishing.call (h : Vanishing env q x) (hy : OwnCall env q x y) : Vanishing env q y := by
  obtain ⟨c, hc, hy⟩ := hy
  have hv := h c hc
  cases c <;> simp only [Proc.call, Option.some.injEq, reduceCtorEq, Vanishes] at hy hv
  case exec path argv k =>
    subst hy
    rintro c' hc'
    obtain hok | hv := hv
    · simp [hok] at hc'
    · cases hok : env.ok q x.calls <;> simp [hok] at hc'
      subst hc'
      exact hv
  case exit =>
    subst hy
    exact .of_gone rfl
  all_goals
    subst hy
    rintro c' ⟨⟩
    exact hv

theorem Vanishing.returned (h : Vanishing env q x) : x.returned = false := by
  obtain ⟨mode, _, _, _, _, _⟩ := x
  cases mode with
  | code c =>
    cases c with
    | ret => exact absurd (h _ rfl) id
    | _ => rfl
  | _ => rfl

theorem mode_of_returned (h : x.returned = true) : x.mode = .code .ret := by
  obtain ⟨mode, _, _, _, _, _⟩ := x
  cases mode with
  | code c => cases c <;> simp_all [Proc.returned]
  | _ => simp [Proc.returned] at h

/-- The process gets to the end of the shell's code. -/
def Leaves (env : Env) (q : Pid) (x : Proc) : Prop :=
  ∃ y, Relation.ReflTransGen (OwnCall env q) x y ∧ y.gone

theorem Leaves.head (hy : OwnCall env q x y) (h : Leaves env q y) : Leaves env q x := by
  obtain ⟨z, hz, hg⟩ := h
  exact ⟨z, .head hy hz, hg⟩

theorem Vanishing.leaves (h : Vanishing env q x) : Leaves env q x := by
  cases hm : x.mode with
  | code c =>
    -- along the code; every call that is allowed here leaves the rest of it, or none
    induction c generalizing x with
    | exit => exact .head ⟨_, hm, rfl⟩ ⟨_, .refl, rfl⟩
    | exec path argv k ih =>
      have hcall : OwnCall env q x _ := ⟨_, hm, rfl⟩
      cases hok : env.ok q x.calls with
      | true => exact .head hcall ⟨_, .refl, by simp [Proc.gone, hok]⟩
      | false => exact .head hcall (ih (h.call hcall) (by simp [hok]))
    | openFile _ k ih | close _ k ih | dup _ k ih | print k ih =>
      have hcall : OwnCall env q x _ := ⟨_, hm, rfl⟩
      exact .head hcall (ih (h.call hcall) rfl)
    | malloc | pipe | fork | wait | drain | ret => exact absurd (h _ hm) id
  | _ => exact ⟨x, .refl, by simp [Proc.gone, hm]⟩

theorem Vanishing.own {a : Act} (h : Vanishing env q x) (ho : Own env a t q x y) : Vanishing env q y := by
  cases ho with
  | call hc hy => exact h.call ⟨_, hc, hy⟩
  | failed hk | lonely hk | drained hk | read hk | eof hk => exact absurd (h _ hk) id
  | exit | kill => exact .of_gone rfl

/-! ## The rest of a command -/

/-- What `pipe` returns. -/
def Proc.pipeAnswer (ok : Bool) (q : Pid) (x : Proc) : Option ((ℕ × ℕ) × Fds) :=
  if ok then pipeFds x.fds (x.calls :: q) else none

/-- The weakest precondition of the rest of a command: the process `q` has forked at the calls `f` and has `m`
children to wait for. Whatever it still forks is in `C`, and if it returns then `Q`. -/
def Code.wp (env : Env) (q : Pid) (C : ℕ → Proc → Prop) (Q : List ℕ → ℕ → Prop) :
    Code → List ℕ → ℕ → Proc → Prop
  | .malloc k, f, m, x => (k (env.ok q x.calls)).wp env q C Q f m (x.next (k (env.ok q x.calls)))
  | .pipe k, f, m, x =>
    match x.pipeAnswer (env.ok q x.calls) q with
    | none => (k none).wp env q C Q f m (x.next (k none))
    | some (p, fds) => (k (some p)).wp env q C Q f m { x.next (k (some p)) with fds }
  | .fork k, f, m, x =>
    if env.ok q x.calls then
      C x.calls (x.born (k .child)) ∧ (k .parent).wp env q C Q (f ++ [x.calls]) (m + 1) (x.next (k .parent))
    else (k .failed).wp env q C Q f m (x.next (k .failed))
  | .exec path argv k, f, m, x => env.ok q x.calls = true ∨
      k.wp env q C Q f m { x.next k with execs := x.execs ++ [⟨path, argv, x.fds⟩] }
  | .openFile _ k, f, m, x =>
    k.wp env q C Q f m { x.next k with fds := openFds x.fds (env.ok q x.calls) x.calls }
  | .close fd k, f, m, x => k.wp env q C Q f m { x.next k with fds := x.fds.set fd none }
  | .dup fd k, f, m, x => k.wp env q C Q f m { x.next k with fds := dupFds x.fds fd }
  | .print k, f, m, x => k.wp env q C Q f m (x.next k)
  | .wait k, f, m, x => k.wp env q C Q f (m - 1) (x.next k)
  | .drain, _, _, _ | .exit, _, _, _ => True
  | .ret, f, m, _ => Q f m

example {C : ℕ → Proc → Prop} {Q : List ℕ → ℕ → Prop} : Code.ret.wp env q C Q [] 0 x ↔ Q [] 0 := by
  rw [Code.wp]

section

variable {C E : ℕ → Proc → Prop} {Q : List ℕ → ℕ → Prop} {f : List ℕ} {m : ℕ}

def Proc.wp (env : Env) (q : Pid) (C : ℕ → Proc → Prop) (Q : List ℕ → ℕ → Prop) (f : List ℕ) (m : ℕ) (x : Proc) :
    Prop :=
  ∀ c, x.mode = .code c → c.wp env q C Q f m x

theorem Proc.wp_of_gone (h : x.gone) : x.wp env q C Q f m := fun c hc => by
  simp [Proc.gone, hc] at h

theorem Proc.wp_of_mode (hx : x.mode = .code c) (h : c.wp env q C Q f m x) : x.wp env q C Q f m := fun c' hc => by
  cases hx.symm.trans hc
  exact h

theorem Proc.wp_call (h : x.wp env q C Q f m) (hy : OwnCall env q x y) : y.wp env q C Q f m := by
  obtain ⟨c, hc, hy⟩ := hy
  have hs := h c hc
  cases c <;> simp only [Proc.call, Option.some.injEq, reduceCtorEq, Code.wp] at hy hs
  case exec path argv k =>
    subst hy
    cases hok : env.ok q x.calls with
    | true => exact wp_of_gone (by simp [Proc.gone])
    | false => exact wp_of_mode rfl (hs.resolve_left (by simp [hok]))
  case pipe k =>
    change (match x.pipeAnswer (env.ok q x.calls) q with
      | none => some (x.next (k none))
      | some (p, fds) => some { x.next (k (some p)) with fds }) = some y at hy
    cases hp : x.pipeAnswer (env.ok q x.calls) q with
    | none =>
      simp only [hp, Option.some.injEq] at hs hy
      subst hy
      exact wp_of_mode rfl hs
    | some r =>
      simp only [hp, Option.some.injEq] at hs hy
      subst hy
      exact wp_of_mode rfl hs
  case exit =>
    subst hy
    exact wp_of_gone rfl
  all_goals
    subst hy
    exact wp_of_mode rfl hs

theorem Proc.wp_own {a : Act} (h : x.wp env q C Q f m) (ha : During q a) (ho : Own env a t q x y)
    (hm : childless t q x → m = 0) : y.wp env q C Q f m := by
  cases ho with
  | call hc hy => exact wp_call h ⟨_, hc, hy⟩
  | failed hk hok =>
    have hs := h _ hk
    rw [Code.wp, if_neg (by simp [hok])] at hs
    exact wp_of_mode rfl hs
  | lonely hk hl =>
    have hs := h _ hk
    rw [Code.wp, hm hl] at hs
    rw [hm hl]
    exact wp_of_mode rfl hs
  | drained => exact wp_of_mode rfl trivial
  | @read line _ h => exact absurd h (ha line)
  | eof | exit | kill => exact wp_of_gone rfl

/-- The rule of a command: `E` is what is known of its children beside that they vanish. -/
theorem command_rule (hA : ∀ a, A a → During sh a)
    (hC : ∀ n y, C n y → Vanishing env (n :: sh) y ∧ E n y)
    (hown : ∀ n a t x y, A a → Vanishing env (n :: sh) x → E n x → Own env a t (n :: sh) x y → E n y)
    (hreaped : ∀ n x, E n x → x.mode = .zombie → E n { x with mode := .reaped }) :
    Rule env A sh (fun f m x => x.wp env sh C Q f m) fun n y => Vanishing env (n :: sh) y ∧ E n y where
  own ha h ho hm := Proc.wp_own h (hA _ ha) ho hm
  fork h hk hok := by
    have hs := h _ hk
    rw [Code.wp, if_pos hok] at hs
    exact ⟨Proc.wp_of_mode rfl hs.2, hC _ _ hs.1⟩
  reap h hc := by
    obtain hc | ⟨hc, rfl⟩ := hc
    · exact Proc.wp_of_mode rfl (h _ hc)
    · exact Proc.wp_of_mode rfl trivial
  ownKid ha h ho := ⟨h.1.own ho, hown _ _ _ _ _ ha h.1 h.2 ho⟩
  noFork h hk := h.1 _ hk
  noWait h hc := hc.elim (fun hc => h.1 _ hc) fun hc => h.1 _ hc.1
  reaped _ _ := Proc.wp_of_gone rfl
  reapedKid h hz := ⟨.of_gone rfl, hreaped _ _ h.2 hz⟩

/-- A command whose children vanish. -/
def Proc.wpv (env : Env) (q : Pid) (Q : List ℕ → ℕ → Prop) (f : List ℕ) (m : ℕ) (x : Proc) : Prop :=
  x.wp env q (fun n y => Vanishing env (n :: q) y) Q f m

theorem vanishing_rule :
    Rule env (During sh) sh (fun f m x => x.wpv env sh Q f m) fun n y => Vanishing env (n :: sh) y ∧ True :=
  command_rule (fun _ h => h) (fun _ _ h => ⟨h, trivial⟩) (fun _ _ _ _ _ _ _ _ _ => trivial) fun _ _ _ _ => trivial

/-! ## The three functions that fork -/

variable {text : Str} {tok : List (Option Str)} {bg pipPos redPos : ℕ}

-- `exec` is given the words in front of the operator
example : argv [some [0x6C, 0x73], none, some [0x77]] = [[0x6C, 0x73]] := by
  decide +kernel

theorem vanishing_born (h : Vanishes (env.ok q) 0 c) : Vanishing env q (x.born c) := by
  rintro c' ⟨⟩
  exact h

theorem wp_processNormal (hx : x.mode = .code (processNormal text tok bg .ret))
    (hfork : env.ok sh x.calls = true → Q (f ++ [x.calls]) (if bg = 0 then m else m + 1))
    (hfail : env.ok sh x.calls = false → Q f m) : x.wpv env sh Q f m := by
  refine Proc.wp_of_mode hx ?_
  rw [processNormal, Code.wp]
  by_cases hok : env.ok sh x.calls = true
  · rw [if_pos hok]
    refine ⟨vanishing_born (.inr trivial), ?_⟩
    have hq := hfork hok
    split_ifs at hq ⊢ with hbg
    · exact hq
    · exact hq
  · rw [if_neg hok]
    exact hfail (by simpa using hok)

theorem wp_processRedirect (hx : x.mode = .code (processRedirect text tok redPos .ret))
    (hexec : env.ok sh x.calls = true → env.ok (x.calls :: sh) 2 = true)
    (hfork : env.ok sh x.calls = true → Q (f ++ [x.calls]) m) : x.wpv env sh Q f m := by
  refine Proc.wp_of_mode hx ?_
  rw [processRedirect, Code.wp]
  split_ifs with hok
  · exact ⟨vanishing_born (.inl (hexec hok)), hfork hok⟩
  · trivial

theorem wp_processPipe (hx : x.mode = .code (processPipe text tok pipPos .ret))
    (hfork : env.ok sh x.calls = true → (pipeFds x.fds (x.calls :: sh)).isSome → env.ok sh (x.calls + 1) = true →
      env.ok sh (x.calls + 2) = true → Q (f ++ [x.calls + 1] ++ [x.calls + 2]) m) : x.wpv env sh Q f m := by
  refine Proc.wp_of_mode hx ?_
  rw [processPipe, Code.wp]
  cases hp : x.pipeAnswer (env.ok sh x.calls) sh with
  | none => trivial
  | some r =>
    obtain ⟨hok, hfds⟩ : env.ok sh x.calls = true ∧ pipeFds x.fds (x.calls :: sh) = some r := by
      simpa [Proc.pipeAnswer] using hp
    dsimp only [Code.wp]
    split_ifs with hok₁ hok₂
    · exact ⟨vanishing_born (.inr trivial), vanishing_born (.inr trivial), hfork hok (by simp [hfds]) hok₁ hok₂⟩
    · exact ⟨vanishing_born (.inr trivial), trivial⟩

end

/-- Every process that descends from the command of `sh` is replaced or terminates, and none returns. -/
def OnlyCallerReturns (env : Env) (s : State) (sh : Pid) (x : Proc) : Prop :=
  ∀ t, Reach env (During sh) s t → ∀ p y, Since x.calls sh p → t p = some y →
    y.returned = false ∧ Leaves env p y

theorem onlyCallerReturns_of_wp (hr : Rooted s) (hs : s sh = some x)
    (h : ∀ m, x.wpv env sh (fun _ _ => True) [] m) :
    OnlyCallerReturns env s sh x := by
  intro t ht p y hp hy
  obtain ⟨l, hl⟩ := Family.start (K := fun n y => Vanishing env (n :: sh) y ∧ True) hr hs
  obtain ⟨x', f', l', hfam, -⟩ := vanishing_rule.run hr hl (h _) ht
  obtain ⟨n, rfl, hv, -⟩ := hfam.kids p y hp hy
  exact ⟨hv.returned, hv.leaves⟩

/-! ## The command lines whose child returns -/

/-- `process_one_cmd` gets to `process_redirect`: the first word is not `exit`, and a later one starts with
`>` and none with `|`. -/
def Redirects (text line : Str) : Prop :=
  (words line).head?.getD text ≠ [0x65, 0x78, 0x69, 0x74] ∧ (∀ w ∈ (words line).tail, w.head? ≠ some BAR) ∧
    ∃ w ∈ (words line).tail, w.head? = some GT

theorem Calls.view_eq (h : Calls env s sh x v line) : ∃ pipPos redPos, v = classify pipPos redPos (words line) := by
  obtain ⟨pipPos, redPos, hv⟩ := h.view
  exact ⟨pipPos, redPos, hv.trans (parse_view h.line)⟩

theorem Calls.redirects_iff (h : Calls env s sh x v line) :
    Redirects env.text line ↔ exitCheck env.text v.tok = false ∧ v.pip ≠ 2 ∧ v.red = 3 := by
  obtain ⟨pipPos, redPos, rfl⟩ := h.view_eq
  have hpath : path env.text (classify pipPos redPos (words line)).tok 0 = (words line).head?.getD env.text := by
    rw [path, List.getD_eq_getElem?_getD, ← List.head?_eq_getElem?, classify_head]
    rfl
  simp only [Redirects, exitCheck, hpath, Ne, classify_pip, classify_red]
  simp

theorem words_ne_nil (h : Redirects env.text line) : line ≠ [] := by
  rintro rfl
  obtain ⟨w, hw, -⟩ := h.2.2
  simp [words_nil] at hw

theorem Calls.wp (h : Calls env s sh x v line)
    (hok : ¬ (Redirects env.text line ∧ env.ok sh x.calls = true ∧ env.ok sh (x.calls + 1) = true ∧
      env.ok ((x.calls + 1) :: sh) 2 = false)) (m : ℕ) :
    x.wpv env sh (fun _ _ => True) [] m := by
  refine Proc.wp_of_mode h.mode ?_
  rw [h.redirects_iff] at hok
  rw [processOneCmd]
  split_ifs with hline
  · trivial
  · rw [Code.wp]
    cases hm : env.ok sh x.calls with
    | false => exact trivial
    | true =>
      simp only [if_true, processTokens]
      split_ifs with hexit hpip hred
      · trivial
      · exact wp_processPipe rfl (fun _ _ _ _ => trivial) _ rfl
      · refine wp_processRedirect rfl (fun hfork => ?_) (fun _ => trivial) _ rfl
        rw [Proc.next] at hfork ⊢
        simpa [hexit, hpip, hred, hm, hfork] using hok
      · exact wp_processNormal rfl (fun _ => trivial) (fun _ => trivial) _ rfl

/-- The processes after `process_one_cmd` has forked for a redirection and the child's `exec` has failed. -/
theorem Calls.child_returns (h : Calls env s sh x v line) (hred : Redirects env.text line)
    (hm : env.ok sh x.calls = true) (hfork : env.ok sh (x.calls + 1) = true)
    (hexec : env.ok ((x.calls + 1) :: sh) 2 = false) :
    ∃ t y, Reach env (During sh) s t ∧ t ((x.calls + 1) :: sh) = some y ∧ y.returned = true := by
  have hduring : ∀ q, During sh (.call q) := fun q line => by simp
  obtain ⟨hexit, hpip, hred'⟩ := h.redirects_iff.1 hred
  have hcode : x.mode = .code (.malloc fun ok => if ok then processTokens env.text v else .print .exit) := by
    rw [h.mode, processOneCmd, if_neg (words_ne_nil hred)]
  have hmalloc : OwnCall env sh x (x.next (processRedirect env.text v.tok v.redPos .ret)) := by
    refine ⟨_, hcode, ?_⟩
    simp [Proc.call, hm, processTokens, hexit, hpip, hred']
  obtain ⟨t₁, ht₁, hsh, -⟩ := Reach.refl.calls (hduring sh) h.proc (.single hmalloc)
  obtain ⟨t₂, ht₂, -, hchild, -⟩ := ht₁.fork (fun line => by simp) hsh rfl hfork
  -- the child calls `close`, `open` and `exec`, and is behind them
  obtain ⟨t₃, ht₃, hy, -⟩ := ht₂.calls (hduring _) hchild
    (.head ⟨_, rfl, rfl⟩ (.head ⟨_, rfl, rfl⟩ (.single ⟨_, rfl, rfl⟩)))
  refine ⟨t₃, _, ht₃, hy, ?_⟩
  simp [Proc.next, Proc.born, hexec, Proc.returned]

/-- When `process_one_cmd` returns it does so in its caller only, unless it forks for a redirection and
`exec` fails in the child. -/
theorem only_caller_returns_iff (hs : Reachable env s) (h : Calls env s sh x v line) :
    OnlyCallerReturns env s sh x ↔ ¬ (Redirects env.text line ∧ env.ok sh x.calls = true ∧
      env.ok sh (x.calls + 1) = true ∧ env.ok ((x.calls + 1) :: sh) 2 = false) := by
  constructor
  · rintro honly ⟨hred, hm, hfork, hexec⟩
    obtain ⟨t, y, ht, hy, hret⟩ := h.child_returns hred hm hfork hexec
    have hnot := (honly t ht _ y ⟨[], _, rfl, Nat.le_succ _⟩ hy).1
    simp [hret] at hnot
  · exact fun hok => onlyCallerReturns_of_wp hs.rooted h.proc (h.wp hok)

/-- A shell that has returned reads a line. -/
theorem Reachable.read (hs : Reachable env s) (hq : s q = some x) (hx : x.mode = .code .ret)
    (hline : ∀ c ∈ line, c ≠ 0) :
    ∃ t, Reachable env t ∧
      Calls env t q (x.read env.text line) (parse x.pipPos x.redPos (line ++ [0])).view line ∧
      ∀ p, p ≠ q → t p = s p := by
  obtain ⟨fds, hfds, hreach⟩ := hs
  refine ⟨set s q (x.read env.text line), ⟨fds, hfds, hreach.step trivial (a := .read q line) ?_⟩,
    ⟨set_self, rfl, ⟨_, _, rfl⟩, hline⟩, fun p hp => set_of_ne hp⟩
  simp [step, stepOf, Act.pid, hq, hx]

/-- The shell with descriptors 0, 1 and 2 open. -/
def shell : Proc := ⟨.code .ret, 0, [some (.other 0), some (.other 1), some (.other 2)] ++ List.replicate 13 none, [],
  0, 0⟩

theorem reachable_boot_shell (e : Env) : Reachable e (boot shell.fds) := ⟨shell.fds, rfl, .refl⟩

theorem boot_shell : boot shell.fds [] = some shell := set_self

/-- Every call succeeds. -/
def fine : Env := ⟨[], fun _ _ => true⟩

/-- The line `a > b`. -/
def redirectLine : Str := [0x61, 0x20, 0x3E, 0x20, 0x62]

/-- Everything succeeds but the `exec` of the child that is forked with the shell's call 2. -/
def missing : Env := ⟨[], fun q n => !(q == [2] && n == 2)⟩

theorem redirects_redirectLine : Redirects missing.text redirectLine := by
  refine ⟨by decide, by decide, by decide⟩

theorem calls_redirectLine : ∃ s v, Reachable missing s ∧
    Calls missing s [] (shell.read missing.text redirectLine) v redirectLine := by
  have hline : ∀ c ∈ redirectLine, c ≠ 0 := by simp [redirectLine]
  obtain ⟨s, hs, hcalls, -⟩ := (reachable_boot_shell missing).read boot_shell rfl hline
  exact ⟨s, _, hs, hcalls⟩

theorem only_caller_returns_iff_missing : ∃ s v, Reachable missing s ∧
    Calls missing s [] (shell.read missing.text redirectLine) v redirectLine ∧
    (OnlyCallerReturns missing s [] (shell.read missing.text redirectLine) ↔
      ¬ (Redirects missing.text redirectLine ∧ missing.ok [] 1 = true ∧ missing.ok [] 2 = true ∧
        missing.ok [2] 2 = false)) := by
  obtain ⟨s, v, hs, hcalls⟩ := calls_redirectLine
  exact ⟨s, _, hs, hcalls, only_caller_returns_iff hs hcalls⟩

/-- With a command that cannot be executed, `a > b` leaves two shells. -/
theorem redirect_returns_twice : ∃ s v, Reachable missing s ∧
    Calls missing s [] (shell.read missing.text redirectLine) v redirectLine ∧
    ¬ OnlyCallerReturns missing s [] (shell.read missing.text redirectLine) := by
  obtain ⟨s, v, hs, hcalls⟩ := calls_redirectLine
  refine ⟨s, _, hs, hcalls, fun honly => ?_⟩
  obtain ⟨t, y, ht, hy, hret⟩ := hcalls.child_returns redirects_redirectLine rfl rfl rfl
  have hnot := (honly t ht _ y ⟨[], _, rfl, Nat.le_succ _⟩ hy).1
  simp [hret] at hnot

end Xv6.Xvsh
