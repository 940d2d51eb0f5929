import Mathlib.Data.Nat.Basic
import Mathlib.Order.Basic
import Xv6.Xvsh.Shell

/-!
# Steps of the shell's processes

A step changes one process, creates one child or collects one. From this follows a rule for whole runs:
what holds of a process at a command, of the children it has forked since, and of the number it still has
to wait for.
-/

namespace Xv6.Xvsh

variable {env : Env} {A : Act → Prop} {a : Act} {s t u : State} {p q sh : Pid} {x y : Proc} {c : Code} {n : ℕ}

@[simp] theorem set_self : set s q x q = some x := by
  simp [set]

@[simp] theorem set_of_ne (h : p ≠ q) : set s q x p = s p := by
  simp [set, h]

@[simp] theorem cons_ne_self : n :: q ≠ q := by
  intro h
  simpa using congrArg List.length h

@[simp] theorem ne_cons_self : q ≠ n :: q := cons_ne_self.symm

/-- The steps of a process that concern no other. -/
inductive Own (env : Env) (a : Act) (t : State) (q : Pid) (x : Proc) : Proc → Prop
  | call {c : Code} {y : Proc} : x.mode = .code c → x.call (env.ok q x.calls) q c = some y → Own env a t q x y
  | failed {k : Forked → Code} : x.mode = .code (.fork k) → env.ok q x.calls = false →
      Own env a t q x (x.next (k .failed))
  | lonely {k : Code} : x.mode = .code (.wait k) → childless t q x → Own env a t q x (x.next k)
  | drained : x.mode = .code .drain → childless t q x → Own env a t q x (x.next .exit)
  | read {line : Str} : x.mode = .code .ret → a = .read q line → Own env a t q x (x.read env.text line)
  | eof : x.mode = .code .ret → Own env a t q x { x with mode := .zombie }
  | exit : x.mode = .other → Own env a t q x { x with mode := .zombie }
  | kill : a = .kill q → x.terminated = false → Own env a t q x { x with mode := .zombie }

/-- What a step may do. -/
inductive Shape (env : Env) (a : Act) (t : State) : State → Prop
  | own {q : Pid} {x y : Proc} : t q = some x → Own env a t q x y → Shape env a t (set t q y)
  | fork {q : Pid} {x : Proc} {k : Forked → Code} : t q = some x → x.mode = .code (.fork k) →
      env.ok q x.calls = true →
      Shape env a t (set (set t (x.calls :: q) (x.born (k .child))) q (x.next (k .parent)))
  | reap {q : Pid} {x y : Proc} {n : ℕ} {c : Code} : t q = some x → t (n :: q) = some y → y.mode = .zombie →
      (x.mode = .code (.wait c) ∨ x.mode = .code .drain ∧ c = .drain) →
      Shape env a t (set (set t (n :: q) { y with mode := .reaped }) q (x.next c))

theorem mode_of_zombie (h : x.zombie) : x.mode = .zombie := by
  obtain ⟨mode, _, _, _, _, _⟩ := x
  cases mode <;> simp_all [Proc.zombie]

theorem Shape.of_collect (hq : t q = some x) (h : collect t q x n c = some u)
    (hc : x.mode = .code (.wait c) ∨ x.mode = .code .drain ∧ c = .drain) : Shape env a t u := by
  obtain ⟨y, hy, h⟩ := Option.bind_eq_some_iff.1 h
  split_ifs at h with hz
  cases h
  exact .reap hq hy (mode_of_zombie hz) hc

theorem step_shape (hs : step env t a = some u) : Shape env a t u := by
  rw [step, Option.bind_eq_some_iff] at hs
  obtain ⟨x, hx, h⟩ := hs
  cases a <;> rw [Act.pid] at hx h <;> dsimp only [stepOf] at h
  case call q =>
    split at h
    · obtain ⟨y, hy, rfl⟩ := Option.map_eq_some_iff.1 h
      exact .own hx (.call ‹_› hy)
    · cases h
  case fork q =>
    split at h
    · by_cases hok : env.ok q x.calls = true
      · rw [if_pos hok] at h
        cases h
        exact .fork hx ‹_› hok
      · rw [if_neg hok] at h
        cases h
        exact .own hx (.failed ‹_› (by simpa using hok))
    · cases h
  case reap q n =>
    split at h
    · exact .of_collect hx h (.inl ‹_›)
    · exact .of_collect hx h (.inr ⟨‹_›, rfl⟩)
    · cases h
  case lonely q =>
    by_cases hl : childless t q x = true
    · rw [if_pos hl] at h
      split at h <;> cases h
      · exact .own hx (.lonely ‹_› hl)
      · exact .own hx (.drained ‹_› hl)
    · rw [if_neg hl] at h
      cases h
  case read q line =>
    split at h <;> cases h
    exact .own hx (.read ‹_› rfl)
  case eof q =>
    split at h <;> cases h
    exact .own hx (.eof ‹_›)
  case exit q =>
    split at h <;> cases h
    exact .own hx (.exit ‹_›)
  case kill q =>
    by_cases ht : x.terminated = true
    · rw [if_pos ht] at h
      cases h
    · rw [if_neg ht] at h
      cases h
      exact .own hx (.kill rfl (by simpa using ht))

/-! ## Names -/

theorem Own.calls_le (h : Own env a t q x y) : x.calls ≤ y.calls := by
  cases h with
  | @call c _ _ hy =>
    cases c <;> simp only [Proc.call, Option.some.injEq, reduceCtorEq] at hy
    case pipe => split at hy <;> cases hy <;> exact Nat.le_succ _
    all_goals subst hy; simp [Proc.next]
  | read => exact Nat.le_succ _
  | _ => simp [Proc.next]

/-- A state after which no process is missing and none has made fewer calls. -/
def Older (t u : State) : Prop := ∀ p x, t p = some x → ∃ y, u p = some y ∧ x.calls ≤ y.calls

theorem Older.set (hq : t q = some x) (h : x.calls ≤ y.calls) : Older t (set t q y) := by
  intro p z hp
  rcases eq_or_ne p q with rfl | hpq
  · cases hp.symm.trans hq
    exact ⟨y, set_self, h⟩
  · exact ⟨z, by rw [set_of_ne hpq, hp], le_rfl⟩

theorem Older.create (hq : t q = none) : Older t (Xvsh.set t q y) := by
  intro p z hp
  have hpq : p ≠ q := by
    rintro rfl
    simp [hp] at hq
  exact ⟨z, by rw [set_of_ne hpq, hp], le_rfl⟩

theorem Older.trans (h : Older s t) (h' : Older t u) : Older s u := by
  intro p x hp
  obtain ⟨y, hy, hxy⟩ := h p x hp
  obtain ⟨z, hz, hyz⟩ := h' p y hy
  exact ⟨z, hz, hxy.trans hyz⟩

/-- The processes that descend from a call of `q` came after it. -/
def Rooted (s : State) : Prop :=
  ∀ l n q y, s (l ++ n :: q) = some y → ∃ x, s q = some x ∧ n < x.calls

theorem Rooted.fresh (h : Rooted s) (hq : s q = some x) (hn : x.calls ≤ n) : s (n :: q) = none := by
  cases hy : s (n :: q) with
  | none => rfl
  | some y =>
    obtain ⟨x', hx', hlt⟩ := h [] n q y hy
    cases hq.symm.trans hx'
    omega

theorem Shape.older (hr : Rooted t) (h : Shape env a t u) : Older t u := by
  cases h with
  | own hq ho => exact .set hq ho.calls_le
  | fork hq =>
    refine (Older.create (hr.fresh hq le_rfl)).trans (.set ?_ (Nat.le_succ _))
    rw [set_of_ne ne_cons_self, hq]
  | reap hq hy =>
    refine (Older.set hy ?_).trans (.set ?_ (Nat.le_succ _))
    · exact le_rfl
    · rw [set_of_ne ne_cons_self, hq]

theorem Older.rooted (ho : Older t u) (hr : Rooted t)
    (hnew : ∀ p y, u p = some y → (∃ x, t p = some x) ∨
      ∃ n q x z, p = n :: q ∧ t q = some x ∧ u q = some z ∧ n < z.calls) : Rooted u := by
  intro l n q y hy
  have hold : ∀ l x, t (l ++ n :: q) = some x → ∃ x, u q = some x ∧ n < x.calls := fun l x hx => by
    obtain ⟨z, hz, hlt⟩ := hr l n q x hx
    obtain ⟨z', hz', hle⟩ := ho q z hz
    exact ⟨z', hz', hlt.trans_le hle⟩
  obtain ⟨x, hx⟩ | ⟨m, r, x, z, hp, hx, hz, hlt⟩ := hnew _ y hy
  · exact hold l x hx
  · cases l with
    | nil =>
      obtain ⟨rfl, rfl⟩ : n = m ∧ q = r := by simpa using hp
      exact ⟨z, hz, hlt⟩
    | cons m' l =>
      obtain ⟨-, rfl⟩ : m' = m ∧ l ++ n :: q = r := by simpa using hp
      exact hold l x hx

theorem Shape.rooted (hr : Rooted t) (h : Shape env a t u) : Rooted u := by
  refine (h.older hr).rooted hr fun p y hy => ?_
  cases h with
  | @own q x _ hq =>
    by_cases hpq : p = q
    · exact .inl ⟨x, hpq ▸ hq⟩
    · exact .inl ⟨y, by rwa [set_of_ne hpq] at hy⟩
  | @fork q x k hq =>
    by_cases hpq : p = q
    · exact .inl ⟨x, hpq ▸ hq⟩
    rw [set_of_ne hpq] at hy
    by_cases hpc : p = x.calls :: q
    · exact .inr ⟨_, q, x, _, hpc, hq, set_self, Nat.lt_succ_self _⟩
    · exact .inl ⟨y, by rwa [set_of_ne hpc] at hy⟩
  | @reap q x z n _ hq hz =>
    by_cases hpq : p = q
    · exact .inl ⟨x, hpq ▸ hq⟩
    rw [set_of_ne hpq] at hy
    by_cases hpc : p = n :: q
    · exact .inl ⟨z, hpc ▸ hz⟩
    · exact .inl ⟨y, by rwa [set_of_ne hpc] at hy⟩

theorem Reach.rooted (hr : Rooted s) (h : Reach env A s t) : Rooted t := by
  induction h with
  | refl => exact hr
  | step _ _ h ih => exact (step_shape h).rooted ih

theorem rooted_boot {fds : Fds} : Rooted (boot fds) := by
  intro l n q y hy
  simp [boot] at hy

theorem Reachable.rooted (h : Reachable env s) : Rooted s := by
  obtain ⟨fds, -, hs⟩ := h
  exact hs.rooted rooted_boot

theorem since_cons {m : ℕ} : Since n sh (m :: q) ↔ (q = sh ∧ n ≤ m) ∨ Since n sh q := by
  constructor
  · rintro ⟨l, i, hp, hi⟩
    cases l with
    | nil =>
      obtain ⟨rfl, rfl⟩ : m = i ∧ q = sh := by simpa using hp
      exact .inl ⟨rfl, hi⟩
    | cons j l => exact .inr ⟨l, i, (List.cons.inj hp).2, hi⟩
  · rintro (⟨rfl, h⟩ | ⟨l, i, rfl, hi⟩)
    · exact ⟨[], m, rfl, h⟩
    · exact ⟨m :: l, i, rfl, hi⟩

theorem not_since_self : ¬ Since n sh sh := by
  rintro ⟨l, m, h, -⟩
  have := congrArg List.length h
  simp at this
  omega

/-! ## The family of a command -/

theorem outstanding_of_code (h : x.mode = .code c) : x.outstanding = true := by
  obtain ⟨_, _, _, _, _, _⟩ := x
  subst h
  rfl

theorem Own.outstanding (h : Own env a t q x y) : x.outstanding = true ∧ y.outstanding = true := by
  cases h with
  | @call c _ hc hy =>
    refine ⟨outstanding_of_code hc, ?_⟩
    cases c <;> simp only [Proc.call, Option.some.injEq, reduceCtorEq] at hy
    case pipe => split at hy <;> cases hy <;> rfl
    case exec =>
      subst hy
      cases env.ok q x.calls <;> rfl
    all_goals subst hy; rfl
  | exit h => exact ⟨by obtain ⟨_, _, _, _, _, _⟩ := x; subst h; rfl, rfl⟩
  | kill _ h =>
    refine ⟨?_, rfl⟩
    obtain ⟨mode, _, _, _, _, _⟩ := x
    cases mode <;> simp_all [Proc.outstanding, Proc.terminated]
  | failed h | lonely h | drained h | read h | eof h => exact ⟨outstanding_of_code h, rfl⟩

/-- What a command's processes keep: `P` holds of the process at the command, given the calls at which it
has forked and the number of children it can wait for, and `K` of the children forked since. -/
structure Rule (env : Env) (A : Act → Prop) (sh : Pid) (P : List ℕ → ℕ → Proc → Prop) (K : ℕ → Proc → Prop) :
    Prop where
  own : ∀ {f m a t x y}, A a → P f m x → Own env a t sh x y → (childless t sh x → m = 0) → P f m y
  fork : ∀ {f m x k}, P f m x → x.mode = .code (.fork k) → env.ok sh x.calls = true →
    P (f ++ [x.calls]) (m + 1) (x.next (k .parent)) ∧ K x.calls (x.born (k .child))
  reap : ∀ {f m x c}, P f (m + 1) x → (x.mode = .code (.wait c) ∨ x.mode = .code .drain ∧ c = .drain) →
    P f m (x.next c)
  ownKid : ∀ {n a t x y}, A a → K n x → Own env a t (n :: sh) x y → K n y
  noFork : ∀ {n x k}, K n x → x.mode ≠ .code (.fork k)
  noWait : ∀ {n x c}, K n x → ¬ (x.mode = .code (.wait c) ∨ x.mode = .code .drain ∧ c = .drain)
  reaped : ∀ {f m x}, P f m x → x.mode = .zombie → P f m { x with mode := .reaped }
  reapedKid : ∀ {n x}, K n x → x.mode = .zombie → K n { x with mode := .reaped }

section

variable {P : List ℕ → ℕ → Proc → Prop} {K : ℕ → Proc → Prop} {n₀ : ℕ} {f l : List ℕ} {z : Proc}

/-- The children of `sh`: `f` are those forked since `n₀`, `l` those not yet collected. -/
structure Family (K : ℕ → Proc → Prop) (sh : Pid) (n₀ : ℕ) (t : State) (x : Proc) (f l : List ℕ) : Prop where
  proc : t sh = some x
  calls : n₀ ≤ x.calls
  forked : ∀ n, n₀ ≤ n → (n ∈ f ↔ ∃ y, t (n :: sh) = some y)
  nodup : l.Nodup
  pending : ∀ n, n ∈ l ↔ ∃ y, t (n :: sh) = some y ∧ y.outstanding = true
  kids : ∀ p y, Since n₀ sh p → t p = some y → ∃ n, p = n :: sh ∧ K n y

theorem Family.childless (h : Family K sh n₀ t x f l) (hr : Rooted t) (hc : childless t sh x) : l.length = 0 := by
  rw [List.length_eq_zero_iff, List.eq_nil_iff_forall_not_mem]
  intro n hn
  obtain ⟨y, hy, ho⟩ := (h.pending n).1 hn
  obtain ⟨x', hx', hlt⟩ := hr [] n sh y hy
  cases h.proc.symm.trans hx'
  have := List.all_eq_true.1 hc n (List.mem_range.2 hlt)
  simp [hy, ho] at this

theorem Family.setSelf (h : Family K sh n₀ t x f l) (hle : x.calls ≤ y.calls) :
    Family K sh n₀ (set t sh y) y f l := by
  refine ⟨set_self, h.calls.trans hle, fun n hn => ?_, h.nodup, fun n => ?_, fun p w hp hw => h.kids p w hp ?_⟩
  · rw [set_of_ne cons_ne_self, h.forked n hn]
  · rw [set_of_ne cons_ne_self, h.pending n]
  · rwa [set_of_ne fun hps => not_since_self (hps ▸ hp)] at hw

/-- A step of another process, or the creation of one that is not a child of `sh`. -/
theorem Family.setOther (h : Family K sh n₀ t x f l) (hqs : q ≠ sh)
    (hsame : ∀ n, q = n :: sh → (t q).map Proc.outstanding = some z.outstanding)
    (hkid : Since n₀ sh q → ∃ n, q = n :: sh ∧ K n z) : Family K sh n₀ (set t q z) x f l := by
  have hmap : ∀ n, (set t q z (n :: sh)).map Proc.outstanding = (t (n :: sh)).map Proc.outstanding := fun n => by
    by_cases hn : q = n :: sh
    · rw [← hn, set_self, Option.map_some, hsame n hn]
    · rw [set_of_ne (Ne.symm hn)]
  refine ⟨by rw [set_of_ne (Ne.symm hqs), h.proc], h.calls, fun n hn => ?_, h.nodup, fun n => ?_,
    fun p w hp hw => ?_⟩
  · rw [h.forked n hn]
    have := hmap n
    cases hu : set t q z (n :: sh) <;> cases ht : t (n :: sh) <;> simp_all
  · rw [h.pending n]
    have := hmap n
    cases hu : set t q z (n :: sh) <;> cases ht : t (n :: sh) <;> simp_all
  · rcases eq_or_ne p q with rfl | hpq
    · rw [set_self] at hw
      cases hw
      exact hkid hp
    · rw [set_of_ne hpq] at hw
      exact h.kids p w hp hw

theorem Family.create (h : Family K sh n₀ t x f l) (hn : t (n :: sh) = none) (hK : K n y)
    (hy : y.outstanding = true) : Family K sh n₀ (set t (n :: sh) y) x (f ++ [n]) (n :: l) := by
  have hnl : n ∉ l := fun hmem => by
    obtain ⟨w, hw, -⟩ := (h.pending n).1 hmem
    simp [hn] at hw
  refine ⟨by rw [set_of_ne ne_cons_self, h.proc], h.calls, fun m hm => ?_, List.nodup_cons.2 ⟨hnl, h.nodup⟩, fun m => ?_,
    fun p w hp hw => ?_⟩
  · rcases eq_or_ne m n with rfl | hmn
    · simp
    · rw [set_of_ne (by simpa using hmn), ← h.forked m hm]
      simp [hmn]
  · rcases eq_or_ne m n with rfl | hmn
    · simp [hy]
    · rw [set_of_ne (by simpa using hmn), ← h.pending m]
      simp [hmn]
  · by_cases hpn : p = n :: sh
    · subst hpn
      rw [set_self] at hw
      cases hw
      exact ⟨n, rfl, hK⟩
    · rw [set_of_ne hpn] at hw
      exact h.kids p w hp hw

theorem Family.collect (h : Family K sh n₀ t x f l) (hn : t (n :: sh) = some y) (hz : z.outstanding = false)
    (hK : K n y → K n z) : Family K sh n₀ (set t (n :: sh) z) x f (l.erase n) := by
  refine ⟨by rw [set_of_ne ne_cons_self, h.proc], h.calls, fun m hm => ?_, h.nodup.erase n, fun m => ?_,
    fun p w hp hw => ?_⟩
  · rw [h.forked m hm]
    rcases eq_or_ne m n with rfl | hmn
    · simp [hn]
    · rw [set_of_ne (by simpa using hmn)]
  · rw [h.nodup.mem_erase_iff]
    rcases eq_or_ne m n with rfl | hmn
    · simp [hz]
    · rw [set_of_ne (by simpa using hmn), ← h.pending m]
      simp [hmn]
  · by_cases hpn : p = n :: sh
    · subst hpn
      rw [set_self] at hw
      cases hw
      obtain ⟨m, hm, hKy⟩ := h.kids _ y hp hn
      cases (List.cons.inj hm).1
      exact ⟨_, rfl, hK hKy⟩
    · rw [set_of_ne hpn] at hw
      exact h.kids p w hp hw

/-- A process that is neither `sh` nor of its family goes on. -/
theorem Family.stranger (h : Family K sh n₀ t x f l) (hqs : q ≠ sh) (hq : t q = some y)
    (hns : ¬ Since n₀ sh q) (hyz : y.outstanding = z.outstanding) : Family K sh n₀ (set t q z) x f l :=
  h.setOther hqs (fun _ _ => by rw [hq, Option.map_some, hyz]) fun hs => absurd hs hns

theorem not_since_cons (hqs : q ≠ sh) (hns : ¬ Since n₀ sh q) : ¬ Since n₀ sh (n :: q) := by
  rw [since_cons]
  rintro (⟨h, -⟩ | h)
  · exact hqs h
  · exact hns h

theorem Rule.step_own (hrule : Rule env A sh P K) (hr : Rooted t) (h : Family K sh n₀ t x f l)
    (hP : P f l.length x) (ha : A a) (hq : t q = some y) (ho : Own env a t q y z) :
    ∃ x', Family K sh n₀ (set t q z) x' f l ∧ P f l.length x' := by
  rcases eq_or_ne q sh with rfl | hqs
  · cases hq.symm.trans h.proc
    exact ⟨z, h.setSelf ho.calls_le, hrule.own ha hP ho (h.childless hr)⟩
  · refine ⟨x, h.setOther hqs (fun _ _ => ?_) fun hs => ?_, hP⟩
    · rw [hq, Option.map_some, ho.outstanding.1, ho.outstanding.2]
    · obtain ⟨n, rfl, hK⟩ := h.kids q y hs hq
      exact ⟨n, rfl, hrule.ownKid ha hK ho⟩

theorem Rule.step_fork (hrule : Rule env A sh P K) (hr : Rooted t) (h : Family K sh n₀ t x f l)
    (hP : P f l.length x) (hq : t q = some y) {k : Forked → Code} (hk : y.mode = .code (.fork k))
    (hok : env.ok q y.calls = true) :
    ∃ x' f' l', Family K sh n₀ (set (set t (y.calls :: q) (y.born (k .child))) q (y.next (k .parent))) x' f' l' ∧
      P f' l'.length x' := by
  have hfresh : t (y.calls :: q) = none := hr.fresh hq le_rfl
  rcases eq_or_ne q sh with rfl | hqs
  · cases hq.symm.trans h.proc
    obtain ⟨hP', hK⟩ := hrule.fork hP hk hok
    exact ⟨_, _, _, (h.create hfresh hK rfl).setSelf (Nat.le_succ _), hP'⟩
  · have hns : ¬ Since n₀ sh q := fun hs => by
      obtain ⟨n, -, hK⟩ := h.kids q y hs hq
      exact hrule.noFork hK hk
    have hcs : y.calls :: q ≠ sh := by
      rintro rfl
      simp [h.proc] at hfresh
    have hnew : Family K sh n₀ (set t (y.calls :: q) (y.born (k .child))) x f l :=
      h.setOther hcs (fun n hn => absurd (List.cons.inj hn).2 hqs) fun hs => absurd hs (not_since_cons hqs hns)
    refine ⟨x, f, l, hnew.stranger hqs (y := y) ?_ hns (outstanding_of_code hk), hP⟩
    rw [set_of_ne ne_cons_self, hq]

theorem Rule.step_reap (hrule : Rule env A sh P K) (h : Family K sh n₀ t x f l) (hP : P f l.length x)
    (hq : t q = some y) (hn : t (n :: q) = some z) (hz : z.mode = .zombie)
    (hc : y.mode = .code (.wait c) ∨ y.mode = .code .drain ∧ c = .drain) :
    ∃ x' f' l', Family K sh n₀ (set (set t (n :: q) { z with mode := .reaped }) q (y.next c)) x' f' l' ∧
      P f' l'.length x' := by
  have hzo : z.outstanding = true := by
    obtain ⟨_, _, _, _, _, _⟩ := z
    subst hz
    rfl
  rcases eq_or_ne q sh with rfl | hqs
  · cases hq.symm.trans h.proc
    have hmem : n ∈ l := (h.pending n).2 ⟨z, hn, hzo⟩
    have hlen : l.length = (l.erase n).length + 1 := by
      rw [List.length_erase_of_mem hmem]
      have := List.length_pos_of_mem hmem
      omega
    rw [hlen] at hP
    exact ⟨_, _, _, (h.collect hn rfl fun hK => hrule.reapedKid hK hz).setSelf (Nat.le_succ _),
      hrule.reap hP hc⟩
  · have hns : ¬ Since n₀ sh q := fun hs => by
      obtain ⟨m, -, hK⟩ := h.kids q y hs hq
      exact hrule.noWait hK hc
    have hyo : y.outstanding = true := hc.elim outstanding_of_code fun hc => outstanding_of_code hc.1
    have hset : set t (n :: q) { z with mode := .reaped } q = some y := by rw [set_of_ne ne_cons_self, hq]
    by_cases hcs : n :: q = sh
    · subst hcs
      cases hn.symm.trans h.proc
      exact ⟨_, f, l, (h.setSelf (y := { x with mode := .reaped }) le_rfl).stranger hqs hset hns hyo,
        hrule.reaped hP hz⟩
    · refine ⟨x, f, l, (h.setOther hcs (fun m hm => absurd (List.cons.inj hm).2 hqs) fun hs =>
        absurd hs (not_since_cons hqs hns)).stranger hqs hset hns hyo, hP⟩

theorem Rule.run (hrule : Rule env A sh P K) (hr : Rooted s) (h : Family K sh n₀ s x f l) (hP : P f l.length x)
    (hreach : Reach env A s t) : ∃ x' f' l', Family K sh n₀ t x' f' l' ∧ P f' l'.length x' := by
  induction hreach with
  | refl => exact ⟨x, f, l, h, hP⟩
  | @step t u a hst ha hs ih =>
    obtain ⟨x', f', l', ht, hP'⟩ := ih
    have hrt : Rooted t := hst.rooted hr
    cases step_shape hs with
    | own hq ho =>
      obtain ⟨x'', hu⟩ := hrule.step_own hrt ht hP' ha hq ho
      exact ⟨x'', f', l', hu⟩
    | fork hq hk hok => exact hrule.step_fork hrt ht hP' hq hk hok
    | reap hq hn hz hc => exact hrule.step_reap ht hP' hq hn hz hc

/-- The family of a process that begins a command: none forked, and the children of earlier commands. -/
theorem Family.start (hr : Rooted s) (hs : s sh = some x) : ∃ l, Family K sh x.calls s x [] l := by
  refine ⟨(List.range x.calls).filter fun n => (s (n :: sh)).any Proc.outstanding, hs, le_rfl, fun n hn => ?_,
    List.nodup_range.filter _, fun n => ?_, ?_⟩
  · simp [hr.fresh hs hn]
  · rw [List.mem_filter, List.mem_range, Option.any_eq_true]
    refine ⟨fun h => h.2, fun h => ⟨?_, h⟩⟩
    obtain ⟨y, hy, -⟩ := h
    obtain ⟨x', hx', hlt⟩ := hr [] n sh y hy
    cases hs.symm.trans hx'
    exact hlt
  · rintro p y ⟨l, m, rfl, hm⟩ hp
    obtain ⟨x', hx', hlt⟩ := hr l m sh y hp
    cases hs.symm.trans hx'
    omega

end

end Xv6.Xvsh
