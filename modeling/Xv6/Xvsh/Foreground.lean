import Xv6.Xvsh.Commands

/-!
# Waiting for a foreground command

`process_normal`, `process_redirect` and `process_pipe` call `wait` once for every process they fork. Each
call collects some child of the shell, which need not be one of theirs when a background command is still
outstanding.
-/

namespace Xv6.Xvsh

/-- The functions that run a command in the foreground, with their arguments. -/
inductive Foreground
  | normal (tok : List (Option Str))
  | redirect (tok : List (Option Str)) (redPos : ℕ)
  | pipe (tok : List (Option Str)) (pipPos : ℕ)

def Foreground.code (text : Str) : Foreground → Code
  | .normal tok => processNormal text tok 0 .ret
  | .redirect tok redPos => processRedirect text tok redPos .ret
  | .pipe tok pipPos => processPipe text tok pipPos .ret

variable {env : Env} {A : Act → Prop} {s t : State} {sh : Pid} {x y : Proc} {k : Code} {n : ℕ}

/-- When a process returns from the command of `sh`, all that `sh` has forked for it have terminated. -/
def WaitsForAll (env : Env) (s : State) (sh : Pid) (x : Proc) : Prop :=
  ∀ t, Reach env (During sh) s t → ∀ p y, (p = sh ∨ Since x.calls sh p) → t p = some y → y.returned = true →
    ∀ n z, x.calls ≤ n → t (n :: sh) = some z → z.terminated = true

/-- Everything that the function forks gets forked. -/
def Starts (env : Env) (sh : Pid) (x : Proc) : Foreground → Prop
  | .normal _ | .redirect _ _ => env.ok sh x.calls = true
  | .pipe _ _ => env.ok sh x.calls = true ∧ (pipeFds x.fds (x.calls :: sh)).isSome ∧
      env.ok sh (x.calls + 1) = true ∧ env.ok sh (x.calls + 2) = true

/-- `sh` has no children left from earlier commands. -/
def Unencumbered (s : State) (sh : Pid) : Prop := ∀ n z, s (n :: sh) = some z → z.outstanding = false

/-- The child of a redirection can be executed. -/
def Executes (env : Env) (sh : Pid) (x : Proc) : Foreground → Prop
  | .redirect _ _ => env.ok (x.calls :: sh) 2 = true
  | .normal _ | .pipe _ _ => True

/-! ## The waits suffice -/

theorem terminated_of_not_outstanding (h : x.outstanding = false) : x.terminated = true := by
  obtain ⟨mode, _, _, _, _, _⟩ := x
  cases mode <;> simp_all [Proc.outstanding, Proc.terminated]

theorem Foreground.wp {cmd : Foreground} (hx : x.mode = .code (cmd.code env.text)) {m : ℕ}
    (h : Starts env sh x cmd → m = 0 ∧ Executes env sh x cmd) :
    x.wpv env sh (fun f m => f = [] ∨ m = 0) [] m := by
  cases cmd with
  | normal tok => exact wp_processNormal hx (fun hok => .inr (h hok).1) fun _ => .inl rfl
  | redirect tok redPos => exact wp_processRedirect hx (fun hok => (h hok).2) fun hok => .inr (h hok).1
  | pipe tok pipPos => exact wp_processPipe hx fun h₀ h₁ h₂ h₃ => .inr (h ⟨h₀, h₁, h₂, h₃⟩).1

theorem waitsForAll_of_starts {cmd : Foreground} (hr : Rooted s) (hs : s sh = some x)
    (hx : x.mode = .code (cmd.code env.text)) (h : Starts env sh x cmd → Unencumbered s sh ∧ Executes env sh x cmd) :
    WaitsForAll env s sh x := by
  intro t ht p y hp hy hret n z hn hz
  obtain ⟨l, hl⟩ := Family.start (K := fun n y => Vanishing env (n :: sh) y ∧ True) hr hs
  have hwp : x.wpv env sh (fun f m => f = [] ∨ m = 0) [] l.length := by
    refine Foreground.wp hx fun hst => ⟨?_, (h hst).2⟩
    rw [List.length_eq_zero_iff, List.eq_nil_iff_forall_not_mem]
    intro n hn
    obtain ⟨z, hz, ho⟩ := (hl.pending n).1 hn
    simp [(h hst).1 n z hz] at ho
  obtain ⟨x', f', l', hfam, hP⟩ := vanishing_rule.run hr hl hwp ht
  obtain rfl | hp := hp
  · cases hfam.proc.symm.trans hy
    -- the shell has returned: it has forked nothing, or has nothing left to wait for
    obtain hf | hl' := hP _ (mode_of_returned hret)
    · have := (hfam.forked n hn).2 ⟨z, hz⟩
      simp [hf] at this
    · refine terminated_of_not_outstanding (Bool.eq_false_iff.2 fun ho => ?_)
      have := (hfam.pending n).2 ⟨z, hz, ho⟩
      rw [List.length_eq_zero_iff.1 hl'] at this
      simp at this
  · obtain ⟨n, rfl, hv, -⟩ := hfam.kids p y hp hy
    simp [hv.returned] at hret

/-! ## Runs in which they do not -/

/-- A child that `wait` has not collected terminates, if it has to, and is collected. -/
theorem Reach.collect (h : Reach env (During sh) s t) (hs : t sh = some x) (hx : x.mode = .code (.wait k))
    (hn : t (n :: sh) = some y) (hy : y.outstanding = true) :
    ∃ u, Reach env (During sh) s u ∧ u sh = some (x.next k) ∧ ∀ p, p ≠ sh → p ≠ n :: sh → u p = t p := by
  have hkill : ∃ u z, Reach env (During sh) s u ∧ u (n :: sh) = some z ∧ z.zombie = true ∧
      ∀ p, p ≠ n :: sh → u p = t p := by
    by_cases hz : y.terminated = true
    · refine ⟨t, y, h, hn, ?_, fun _ _ => rfl⟩
      obtain ⟨mode, _, _, _, _, _⟩ := y
      cases mode <;> simp_all [Proc.outstanding, Proc.terminated, Proc.zombie]
    · refine ⟨_, _, h.step (fun line => by simp) (a := .kill (n :: sh)) (u := set t (n :: sh) { y with mode := .zombie })
        ?_, set_self, rfl, fun p hp => set_of_ne hp⟩
      simp [Xvsh.step, stepOf, Act.pid, hn, hz]
  obtain ⟨u, z, hu, hz, hzombie, hother⟩ := hkill
  have hsh : u sh = some x := by rw [hother sh ne_cons_self, hs]
  obtain ⟨w, hw, hwsh, -, hwo⟩ := hu.reap (fun line => by simp) hsh hx hz hzombie
  exact ⟨w, hw, hwsh, fun p hp hp' => (hwo p hp hp').trans (hother p hp')⟩

theorem not_terminated_of_code {c : Code} (h : x.mode = .code c) : x.terminated = false := by
  obtain ⟨_, _, _, _, _, _⟩ := x
  subst h
  rfl

/-- A process that has forked one child and waits once, with an older child outstanding. -/
theorem not_waitsForAll_of_fork {f : Forked → Code} (hr : Rooted s) (hs : s sh = some x)
    (hx : x.mode = .code (.fork f)) (hf : f .parent = .wait .ret) (hok : env.ok sh x.calls = true)
    (hn : s (n :: sh) = some y) (hy : y.outstanding = true) : ¬ WaitsForAll env s sh x := by
  intro h
  have hlt : n ≠ x.calls := by
    obtain ⟨x', hx', hlt⟩ := hr [] n sh y hn
    cases hs.symm.trans hx'
    omega
  have hstart : Reach env (During sh) s s := .refl
  obtain ⟨t₁, ht₁, hsh₁, hc₁, ho₁⟩ := hstart.fork (fun line => by simp) hs hx hok
  have hn₁ : t₁ (n :: sh) = some y := by rw [ho₁ _ cons_ne_self (by simpa using hlt), hn]
  obtain ⟨t₂, ht₂, hsh₂, ho₂⟩ := ht₁.collect hsh₁ (congrArg Mode.code hf) hn₁ hy
  have hc₂ : t₂ (x.calls :: sh) = some (x.born (f .child)) := by
    rw [ho₂ _ cons_ne_self (by simpa using Ne.symm hlt), hc₁]
  have := h t₂ ht₂ sh _ (.inl rfl) hsh₂ rfl _ _ le_rfl hc₂
  simp [not_terminated_of_code (x := x.born (f .child)) rfl] at this

theorem not_waitsForAll_of_pipe {tok : List (Option Str)} {pipPos : ℕ} (hr : Rooted s) (hs : s sh = some x)
    (hx : x.mode = .code (processPipe env.text tok pipPos .ret)) (hst : Starts env sh x (.pipe tok pipPos))
    (hn : s (n :: sh) = some y) (hy : y.outstanding = true) : ¬ WaitsForAll env s sh x := by
  intro h
  obtain ⟨hok, hfds, hok₁, hok₂⟩ := hst
  obtain ⟨⟨p, fds⟩, hp⟩ := Option.isSome_iff_exists.1 hfds
  have hlt : n < x.calls := by
    obtain ⟨x', hx', hlt⟩ := hr [] n sh y hn
    cases hs.symm.trans hx'
    exact hlt
  have hstart : Reach env (During sh) s s := .refl
  -- the shell opens the pipe, forks twice and closes its ends
  obtain ⟨t₁, ht₁, hsh₁, ho₁⟩ := hstart.calls (fun line => by simp) hs (.single (ownCall_pipe hx hok hp))
  obtain ⟨t₂, ht₂, hsh₂, hc₂, ho₂⟩ := ht₁.fork (fun line => by simp) hsh₁ rfl hok₁
  obtain ⟨t₃, ht₃, hsh₃, hc₃, ho₃⟩ := ht₂.fork (fun line => by simp) hsh₂ rfl hok₂
  obtain ⟨t₄, ht₄, hsh₄, ho₄⟩ := ht₃.calls (fun line => by simp) hsh₃
    (.head ⟨_, rfl, rfl⟩ (.single ⟨_, rfl, rfl⟩))
  have hne : ∀ {i j : ℕ}, i ≠ j → i :: sh ≠ j :: sh := fun hij heq => hij (List.cons.inj heq).1
  have hn₄ : t₄ (n :: sh) = some y := by
    rw [ho₄ _ cons_ne_self, ho₃ _ cons_ne_self (hne (by simp [Proc.next]; omega)),
      ho₂ _ cons_ne_self (hne (by simp [Proc.next]; omega)), ho₁ _ cons_ne_self, hn]
  have hc₄ : t₄ ((x.calls + 1) :: sh) = some _ :=
    (ho₄ _ cons_ne_self).trans ((ho₃ _ cons_ne_self (hne (by simp [Proc.next]))).trans hc₂)
  have hd₄ : t₄ ((x.calls + 2) :: sh) = some _ := (ho₄ _ cons_ne_self).trans hc₃
  -- it collects the older child and the first of the two
  obtain ⟨t₅, ht₅, hsh₅, ho₅⟩ := ht₄.collect hsh₄ rfl hn₄ hy
  obtain ⟨t₆, ht₆, hsh₆, ho₆⟩ := ht₅.collect hsh₅ rfl ((ho₅ _ cons_ne_self (hne (by omega))).trans hc₄) rfl
  have hd₆ : t₆ ((x.calls + 2) :: sh) = some _ :=
    (ho₆ _ cons_ne_self (hne (by omega))).trans ((ho₅ _ cons_ne_self (hne (by omega))).trans hd₄)
  have := h t₆ ht₆ sh _ (.inl rfl) hsh₆ rfl _ _ (Nat.le_add_right _ _) hd₆
  exact absurd this (by simp [Proc.born, Proc.terminated])

/-- When the child of a redirection cannot be executed it returns itself. -/
theorem not_waitsForAll_of_redirect {tok : List (Option Str)} {redPos : ℕ} (hs : s sh = some x)
    (hx : x.mode = .code (processRedirect env.text tok redPos .ret)) (hok : env.ok sh x.calls = true)
    (hexec : env.ok (x.calls :: sh) 2 = false) : ¬ WaitsForAll env s sh x := by
  intro h
  have hstart : Reach env (During sh) s s := .refl
  obtain ⟨t₁, ht₁, -, hc₁, -⟩ := hstart.fork (fun line => by simp) hs hx hok
  obtain ⟨t₂, ht₂, hc₂, -⟩ := ht₁.calls (fun line => by simp) hc₁
    (.head ⟨_, rfl, rfl⟩ (.head ⟨_, rfl, rfl⟩ (.single ⟨_, rfl, rfl⟩)))
  have hret := h t₂ ht₂ _ _ (.inr ⟨[], _, rfl, le_rfl⟩) hc₂ (by simp [Proc.next, Proc.born, hexec, Proc.returned])
    _ _ le_rfl hc₂
  exact absurd hret (by simp [Proc.next, Proc.born, hexec, Proc.terminated])

/-- The functions return only after all that they have forked for the command has terminated, exactly when no
child of an earlier command is outstanding and the child of a redirection can be executed, or when they do not
get to fork all their children. -/
theorem waits_for_all_iff {cmd : Foreground} (hreach : Reachable env s) (hs : s sh = some x)
    (hx : x.mode = .code (cmd.code env.text)) :
    WaitsForAll env s sh x ↔ (Starts env sh x cmd → Unencumbered s sh ∧ Executes env sh x cmd) := by
  refine ⟨fun h hst => ⟨fun n z hz => Bool.eq_false_iff.2 fun ho => ?_, ?_⟩,
    waitsForAll_of_starts hreach.rooted hs hx⟩
  · cases cmd with
    | normal tok => exact not_waitsForAll_of_fork hreach.rooted hs hx rfl hst hz ho h
    | redirect tok redPos => exact not_waitsForAll_of_fork hreach.rooted hs hx rfl hst hz ho h
    | pipe tok pipPos => exact not_waitsForAll_of_pipe hreach.rooted hs hx hst hz ho h
  · cases cmd with
    | redirect tok redPos =>
      refine (Bool.eq_false_or_eq_true _).resolve_right fun hexec => ?_
      exact not_waitsForAll_of_redirect hs hx hst hexec h
    | normal | pipe => trivial

/-! ## A background command, and one in the foreground -/

/-- The shell with the line `a &`. -/
def backgroundProc : Proc := shell.read [] [0x61, 0x20, 0x26]

/-- The shell behind `fork` for `a &`. -/
def forkedProc : Proc := (backgroundProc.next (processNormal [] [some [0x61], none, none] 1 .ret)).next .ret

/-- The shell with the line `b`, about to call `process_normal`. -/
def foregroundProc : Proc := (forkedProc.read [] [0x62]).next ((Foreground.normal [some [0x62], none]).code [])

theorem reach_background : ∃ s y, Reachable fine s ∧ s [] = some foregroundProc ∧ s [2] = some y ∧
    y.outstanding = true := by
  have hline : ∀ c ∈ ([0x61, 0x20, 0x26] : Str), c ≠ 0 := by simp
  have hline' : ∀ c ∈ ([0x62] : Str), c ≠ 0 := by simp
  obtain ⟨t₁, ⟨fds, hfds, ht₁⟩, hcalls₁, -⟩ := (reachable_boot_shell fine).read boot_shell rfl hline
  obtain ⟨t₂, ht₂, hsh₂, -⟩ := ht₁.calls trivial hcalls₁.proc
    (y := backgroundProc.next (processNormal [] [some [0x61], none, none] 1 .ret)) (.single ⟨_, rfl, rfl⟩)
  obtain ⟨t₃, ht₃, hsh₃, hc₃, -⟩ := ht₂.fork trivial hsh₂ rfl rfl
  obtain ⟨t₄, ⟨fds', hfds', ht₄⟩, hcalls₄, ho₄⟩ := Reachable.read ⟨fds, hfds, ht₃⟩ hsh₃ rfl hline'
  obtain ⟨t₅, ht₅, hsh₅, ho₅⟩ := ht₄.calls trivial hcalls₄.proc (y := foregroundProc) (.single ⟨_, rfl, rfl⟩)
  exact ⟨t₅, _, ⟨fds', hfds', ht₅⟩, hsh₅, (ho₅ [2] (by simp)).trans ((ho₄ [2] (by simp)).trans hc₃), rfl⟩

theorem waits_for_all_iff_background : ∃ s, Reachable fine s ∧ s [] = some foregroundProc ∧
    (WaitsForAll fine s [] foregroundProc ↔
      (Starts fine [] foregroundProc (.normal [some [0x62], none]) → Unencumbered s [] ∧
        Executes fine [] foregroundProc (.normal [some [0x62], none]))) := by
  obtain ⟨s, -, hs, hsh, -, -⟩ := reach_background
  exact ⟨s, hs, hsh, waits_for_all_iff hs hsh rfl⟩

/-- After `a &`, the shell may return from `b` while `b` is running. -/
theorem background_ends_wait : ∃ s, Reachable fine s ∧ s [] = some foregroundProc ∧
    ¬ WaitsForAll fine s [] foregroundProc := by
  obtain ⟨s, y, hs, hsh, hy, ho⟩ := reach_background
  exact ⟨s, hs, hsh, not_waitsForAll_of_fork hs.rooted hsh rfl rfl rfl hy ho⟩

end Xv6.Xvsh
