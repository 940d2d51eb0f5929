import Xv6.Conc.Logic
import Xv6.Proc.Kernel

/-!
# No wakeup is lost

Processes that use locks, `sleep` and `wakeup` in any way they like: each may acquire and release
locks, change what the locks protect, evaluate a condition and wait, wake up and kill, in any order.
Whatever they do, a `wakeup` by a process that acquired the lock after a sleeper's condition was
evaluated finds the sleeper asleep, unless it has been woken up already.
-/

namespace Xv6.Proc

open Conc
open Function (update update_self update_of_ne update_eq_self)

variable {n : ℕ} {es log : List (Event n)}

/-! ## What one section does to the other processes -/

/-- The effect that a section of process `a`, which logs `es`, has on the others: they keep their
locks and their entries in the process table, except that a sleeper can be made ready; and a lock
is only acquired while it is free. -/
structure Others (a : Fin n) (es : List (Event n)) (s s' : Kernel n) : Prop where
  log : s'.log = es ++ s.log
  holder : ∀ l p, p ≠ a → s.holder l = some p → s'.holder l = some p
  got : ∀ q l, .got q l ∈ es → s.holder l = none
  test : ∀ p c l, .test p c l ∈ es → p = a
  proc : ∀ p, p ≠ a → ((s'.proc p).state = (s.proc p).state ∧ (s'.proc p).chan = (s.proc p).chan) ∨
    .ready p ∈ es

section

variable {a : Fin n} {s s' : Kernel n}

theorem others_acquire {l : Lock} (h : s.holder l = none) :
    Others a [.got a l] s (((s.setNcli a (s.ncli a + 1)).setHolder l (some a)).note (.got a l)) where
  log := rfl
  holder l' p _ hp := by
    have hne : l' ≠ l := by
      rintro rfl
      simp [h] at hp
    simpa [update_of_ne hne] using hp
  got q l' hq := by
    obtain ⟨-, rfl⟩ := Event.got.inj (List.mem_singleton.mp hq)
    exact h
  test p c l' hp := by simp at hp
  proc p _ := .inl ⟨rfl, rfl⟩

theorem others_release {l : Lock} {d : ℕ} (h : s.holder l = some a) :
    Others a [] s ((s.setHolder l none).setNcli a d) where
  log := rfl
  holder l' p hpa hp := by
    have hne : l' ≠ l := by
      rintro rfl
      exact hpa (Option.some.inj (hp.symm.trans h))
    simpa [update_of_ne hne] using hp
  got q l' hq := by simp at hq
  test p c l' hp := by simp at hp
  proc p _ := .inl ⟨rfl, rfl⟩

theorem others_resume (h : s.holder .ptable = none) :
    Others a [.got a .ptable] s
      ((((s.setState a .running).setHolder .ptable (some a)).setNcli a 1).note (.got a .ptable)) where
  log := rfl
  holder l' p _ hp := by
    have hne : l' ≠ .ptable := by
      rintro rfl
      simp [h] at hp
    simpa [update_of_ne hne] using hp
  got q l' hq := by
    obtain ⟨-, rfl⟩ := Event.got.inj (List.mem_singleton.mp hq)
    exact h
  test p c l' hp := by simp at hp
  proc p hp := .inl (by simp [update_of_ne hp])

/-- A section that changes only the process's own entry, and logs neither an acquisition nor a
wakeup. -/
theorem others_own {x : Process n} {e : Event n} (hgot : ∀ q l, e ≠ .got q l)
    (htest : ∀ p c l, e = .test p c l → p = a) : Others a [e] s ((s.setProc a x).note e) where
  log := rfl
  holder _ _ _ hp := hp
  got q l hq := absurd (List.mem_singleton.mp hq).symm (hgot q l)
  test p c l hp := htest p c l (List.mem_singleton.mp hp).symm
  proc p hp := .inl (by simp [update_of_ne hp])

theorem others_setProc {x : Process n} : Others a [] s (s.setProc a x) where
  log := rfl
  holder _ _ _ hp := hp
  got _ _ hq := absurd hq List.not_mem_nil
  test _ _ _ hp := absurd hp List.not_mem_nil
  proc p hp := .inl (by simp [update_of_ne hp])

theorem others_setData {d : Data} : Others a [] s (s.setData d) where
  log := rfl
  holder _ _ _ hp := hp
  got _ _ hq := absurd hq List.not_mem_nil
  test _ _ _ hp := absurd hp List.not_mem_nil
  proc _ _ := .inl ⟨rfl, rfl⟩

theorem mem_sleepers {c : Chan n} {q : Fin n} :
    q ∈ s.sleepers c ↔ (s.proc q).state = .sleeping ∧ (s.proc q).chan = some c := by
  simp [Kernel.sleepers]

theorem others_wakeup1 {c : Chan n} :
    Others a (.woke a c :: (s.sleepers c).map .ready) s ((s.wakeup1 c).note (.woke a c)) where
  log := rfl
  holder _ _ _ hp := hp
  got q l hq := by simp at hq
  test p c' l hp := by simp at hp
  proc p _ := by
    by_cases hp : (s.proc p).state = .sleeping ∧ (s.proc p).chan = some c
    · refine .inr (List.mem_cons_of_mem _ (List.mem_map_of_mem ?_))
      exact mem_sleepers.mpr hp
    · exact .inl (by simp [hp])

/-- What `kill` logs when it hits slot `t`. -/
def hitEvents (s : Kernel n) (pid : BitVec 32) (t : Fin n) : List (Event n) :=
  if (s.proc t).state = .sleeping then [.ready t, .kill pid t .sleeping]
  else [.kill pid t (s.proc t).state]

theorem others_hit {pid : BitVec 32} {t : Fin n} : Others a (hitEvents s pid t) s (s.hit pid t) := by
  unfold Kernel.hit hitEvents
  by_cases ht : (s.proc t).state = .sleeping
  · simp only [Kernel.note_proc, ht, if_true]
    refine ⟨rfl, fun _ _ _ hp => hp, by simp, by simp, fun p _ => ?_⟩
    by_cases hp : p = t
    · exact .inr (by simp [hp])
    · exact .inl (by simp [update_of_ne hp])
  · simp only [Kernel.note_proc, ht, if_false]
    refine ⟨rfl, fun _ _ _ hp => hp, by simp, by simp, fun p _ => .inl ?_⟩
    by_cases hp : p = t
    · simp [hp]
    · simp [update_of_ne hp]

/-- A kill changes nothing but the entry it hits, and there only `killed` and the state. -/
theorem hit_rest (s : Kernel n) (pid : BitVec 32) (t : Fin n) :
    (s.hit pid t).data = s.data ∧ (s.hit pid t).holder = s.holder ∧
      (s.hit pid t).nextpid = s.nextpid := by
  unfold Kernel.hit
  simp only [Kernel.note_proc]
  split_ifs <;> exact ⟨rfl, rfl, rfl⟩

theorem hit_of_ne (s : Kernel n) (pid : BitVec 32) {t q : Fin n} (h : q ≠ t) : (s.hit pid t).proc q = s.proc q := by
  unfold Kernel.hit
  simp only [Kernel.note_proc]
  split_ifs <;> simp [update_of_ne h]

theorem hit_self (s : Kernel n) (pid : BitVec 32) (t : Fin n) :
    (s.hit pid t).proc t =
      { s.proc t with
        killed := true
        state := if (s.proc t).state = .sleeping then .runnable else (s.proc t).state } := by
  unfold Kernel.hit
  by_cases ht : (s.proc t).state = .sleeping <;> simp [ht]

theorem hit_log (s : Kernel n) (pid : BitVec 32) (t : Fin n) :
    .kill pid t (s.proc t).state :: s.log <:+ (s.hit pid t).log := by
  rw [(others_hit (a := t)).log, hitEvents]
  split_ifs with h
  · rw [h]
    exact ⟨[.ready t], rfl⟩
  · exact List.suffix_rfl

end

/-! ## The clients -/

/-- What a process may do. -/
inductive Client (n : ℕ) where
  | acquire (l : Lock)
  | release (l : Lock)
  | work (d : Data)
  | await (c : Chan n) (l : Lock)
  | wakeup (c : Chan n)
  | wakeup1 (c : Chan n)
  | kill (pid : BitVec 32)

/-- Evaluate a condition under the lock `l`, find that it does not hold, and sleep. -/
def await (p : Fin n) (c : Chan n) (l : Lock) : Prog (Kernel n) Unit := do
  .modifies fun s => s.note (.test p c l)
  sleep p c l

def client (p : Fin n) : Client n → Prog (Kernel n) Unit
  | .acquire l => acquire p l
  | .release l => release p l
  | .work d => .modifies fun s => s.setData d
  | .await c l => await p c l
  | .wakeup c => wakeup p c
  | .wakeup1 c => wakeup1 p c
  | .kill pid => do
    let _ ← kill p pid
    pure ()

/-- A condition is evaluated by a process that holds the lock in question, and `wakeup1` is called by
one that holds `ptable.lock`. -/
def clients : Protocol (Kernel n) (Fin n) Unit where
  Call := Client n
  allowed := fun s p _ k =>
    match k with
    | .await _ l => s.holder l = some p
    | .wakeup1 _ => s.holder .ptable = some p
    | _ => True
  body := fun p _ k => client p k
  restart := fun _ _ => False
  boot := ()

instance : ∀ (s : Kernel n) p l k, Decidable ((clients (n := n)).allowed s p l k)
  | s, p, _, .await _ l => inferInstanceAs (Decidable (s.holder l = some p))
  | s, p, _, .wakeup1 _ => inferInstanceAs (Decidable (s.holder .ptable = some p))
  | _, _, _, .acquire _ => .isTrue trivial
  | _, _, _, .release _ => .isTrue trivial
  | _, _, _, .work _ => .isTrue trivial
  | _, _, _, .wakeup _ => .isTrue trivial
  | _, _, _, .kill _ => .isTrue trivial

/-! ## The invariant -/

/-- Where a process is on its way to sleep: it holds a lock; it has evaluated its condition; it has
acquired `ptable.lock` too; it has released the lock; it sleeps or can run again. -/
inductive Phase (n : ℕ) where
  | out
  | holding (l : Lock)
  | tested (c : Chan n) (l : Lock)
  | both (c : Chan n) (l : Lock)
  | handed (c : Chan n) (l : Lock)
  | asleep (c : Chan n) (l : Lock)

/-- What is known of a process `p` that has evaluated its condition and has not been made ready
since, when `h` has happened since. -/
def Stage (s : Kernel n) (p : Fin n) (c : Chan n) (l : Lock) (h : List (Event n)) : Phase n → Prop
  | .tested c' l' => c' = c ∧ l' = l ∧ s.holder l = some p ∧ ∀ q, .got q l ∉ h
  | .both c' l' => c' = c ∧ l' = l ∧ s.holder l = some p ∧ ∀ q, .got q l ∉ h
  | .handed c' l' => c' = c ∧ l' = l
  | .asleep c' l' => c' = c ∧ l' = l ∧ (s.proc p).state = .sleeping ∧ (s.proc p).chan = some c
  | _ => False

/-- The process is known to hold the lock. -/
def Phase.Has : Phase n → Lock → Prop
  | .holding l, k => k = l
  | .both _ _, k => k = .ptable
  | .handed _ _, k => k = .ptable
  | _, _ => False

/-- Every `woke` finds the processes ready that evaluated their condition before the waker acquired
the lock. -/
def NoneLost (log : List (Event n)) : Prop :=
  ∀ (p q : Fin n) (c : Chan n) (l : Lock) (h₀ h₁ h₂ h₃ : List (Event n)),
    log = h₀ ++ .woke q c :: (h₁ ++ .got q l :: (h₂ ++ .test p c l :: h₃)) →
    .ready p ∈ h₁ ++ h₂

structure SleepInv (s : Kernel n) (γ : Fin n → Phase n) : Prop where
  held : ∀ p l, (γ p).Has l → s.holder l = some p
  pend : ∀ p c l h h', s.log = h ++ .test p c l :: h' → .ready p ∉ h → Stage s p c l h (γ p)
  good : NoneLost s.log

/-- An event that is not among the latest has happened before. -/
theorem suffix_of_notMem {h : List (Event n)} {e : Event n} (hs : e :: h <:+ es ++ log)
    (he : e ∉ es) : e :: h <:+ log := by
  induction es with
  | nil => exact hs
  | cons x es ih =>
    rcases List.suffix_cons_iff.mp hs with hx | hs
    · exact absurd (by simp [(List.cons.inj hx).1]) he
    · exact ih hs fun h => he (by simp [h])

/-- Where a test stands in a log to which `es` has been added. -/
theorem split_test {h h' : List (Event n)} {p : Fin n} {c : Chan n} {l : Lock}
    (heq : es ++ log = h ++ .test p c l :: h') (hes : .test p c l ∉ es) :
    ∃ h₀, h = es ++ h₀ ∧ log = h₀ ++ .test p c l :: h' := by
  rcases List.append_eq_append_iff.mp heq with ⟨h₀, rfl, hlog⟩ | ⟨h₀, rfl, hlog⟩
  · exact ⟨h₀, rfl, hlog⟩
  · cases h₀ with
    | nil => exact ⟨[], by simp, by simpa using hlog.symm⟩
    | cons e h₁ =>
      obtain ⟨rfl, -⟩ := List.cons.inj hlog
      simp at hes

theorem NoneLost.append (h : NoneLost log) (hes : ∀ q c, .woke q c ∉ es) : NoneLost (es ++ log) := by
  intro p q c l h₀ h₁ h₂ h₃ heq
  rcases List.append_eq_append_iff.mp heq with ⟨k, rfl, hlog⟩ | ⟨k, rfl, hlog⟩
  · exact h p q c l k h₁ h₂ h₃ hlog
  · cases k with
    | nil => exact h p q c l [] h₁ h₂ h₃ (by simpa using hlog.symm)
    | cons e k =>
      obtain ⟨rfl, -⟩ := List.cons.inj hlog
      exact absurd (by simp) (hes q c)

section

variable {a : Fin n} {es : List (Event n)} {s s' : Kernel n} {γ : Fin n → Phase n} {g : Phase n}

/-- A section of another process keeps what is known of a process on its way to sleep. -/
theorem Stage.others (ho : Others a es s s') {p : Fin n} (hp : p ≠ a) {c : Chan n} {l : Lock}
    {h : List (Event n)} (hst : Stage s p c l h g) (hr : .ready p ∉ es) :
    Stage s' p c l (es ++ h) g := by
  have hgot : s.holder l = some p → (∀ q, .got q l ∉ h) → ∀ q, .got q l ∉ es ++ h := by
    intro hl hh q hq
    rcases List.mem_append.mp hq with hq | hq
    · simp [ho.got q l hq] at hl
    · exact hh q hq
  cases g with
  | out => exact hst
  | holding => exact hst
  | handed => exact hst
  | tested =>
    obtain ⟨rfl, rfl, hl, hh⟩ := hst
    exact ⟨rfl, rfl, ho.holder _ p hp hl, hgot hl hh⟩
  | both =>
    obtain ⟨rfl, rfl, hl, hh⟩ := hst
    exact ⟨rfl, rfl, ho.holder _ p hp hl, hgot hl hh⟩
  | asleep =>
    obtain ⟨rfl, rfl, hs, hc⟩ := hst
    obtain ⟨hs', hc'⟩ := (ho.proc p hp).resolve_right hr
    exact ⟨rfl, rfl, hs'.trans hs, hc'.trans hc⟩

/-- The step rule: what a section of `a` has to establish is about `a` only. -/
theorem SleepInv.step (hI : SleepInv s γ) (ho : Others a es s s')
    (hheld : ∀ l, g.Has l → s'.holder l = some a)
    (hown : ∀ c l h h', s'.log = h ++ .test a c l :: h' → .ready a ∉ h → Stage s' a c l h g)
    (hgood : NoneLost s'.log) : SleepInv s' (update γ a g) where
  held p l hp := by
    rcases eq_or_ne p a with rfl | hpa
    · rw [update_self] at hp
      exact hheld l hp
    · rw [update_of_ne hpa] at hp
      exact ho.holder l p hpa (hI.held p l hp)
  pend p c l h h' hlog hr := by
    rcases eq_or_ne p a with rfl | hpa
    · rw [update_self]
      exact hown c l h h' hlog hr
    · rw [update_of_ne hpa]
      rw [ho.log] at hlog
      obtain ⟨h₀, rfl, hs⟩ := split_test hlog fun ht => hpa (ho.test p c l ht)
      simp only [List.mem_append, not_or] at hr
      exact (hI.pend p c l h₀ h' hs hr.2).others ho hpa hr.1
  good := hgood

/-- The step rule for sections that neither test nor wake up. -/
theorem SleepInv.quiet (hI : SleepInv s γ) (ho : Others a es s s') (htest : ∀ c l, .test a c l ∉ es)
    (hwoke : ∀ q c, .woke q c ∉ es) (hheld : ∀ l, g.Has l → s'.holder l = some a)
    (hown : ∀ c l h, .ready a ∉ es → Stage s a c l h (γ a) → Stage s' a c l (es ++ h) g) :
    SleepInv s' (update γ a g) := by
  refine hI.step ho hheld ?_ ?_
  · intro c l h h' hlog hr
    rw [ho.log] at hlog
    obtain ⟨h₀, rfl, hs⟩ := split_test hlog (htest c l)
    simp only [List.mem_append, not_or] at hr
    exact hown c l h₀ hr.1 (hI.pend a c l h₀ h' hs hr.2)
  · rw [ho.log]
    exact hI.good.append hwoke

end

/-! ## The functions -/

section

variable {p : Fin n} {g : Phase n} {l : Lock} {Q : Unit → Phase n → Prop} {c : Chan n}

/-- Any panic may happen: nothing is said here about which locks a process holds. -/
abbrev swp {α : Type} (p : Fin n) (x : Prog (Kernel n) α) (g : Phase n) (Q : α → Phase n → Prop) :
    Prop :=
  wp SleepInv (fun _ _ => True) p x g Q

theorem swp_acquire {g' : Phase n} (hQ : Q () g')
    (hheld : ∀ k, g'.Has k → k = l)
    (hown : ∀ (s s' : Kernel n) c l' h, (∀ q k, s.holder k = some q → s'.holder k = some q) →
      s.holder l = none → Stage s p c l' h g → Stage s' p c l' (.got p l :: h) g') :
    swp p (acquire p l) g Q := by
  refine wp_atomic fun s γ hI hg => ?_
  cases hl : s.holder l with
  | some q => by_cases hq : q = p <;> simp [hq]
  | none =>
    refine ⟨g', hI.quiet (others_acquire hl) (by simp) (by simp) ?_ ?_, hQ⟩
    · intro k hh
      obtain rfl := hheld k hh
      simp
    · intro c l' h _ hst
      rw [hg] at hst
      refine hown s _ c l' h (fun q k hk => ?_) hl hst
      have hne : k ≠ l := by
        rintro rfl
        simp [hl] at hk
      simpa [update_of_ne hne] using hk

theorem swp_release {g' : Phase n} (hQ : Q () g')
    (hheld : ∀ k, g'.Has k → g.Has k ∧ k ≠ l)
    (hown : ∀ (s s' : Kernel n) c l' h, Stage s p c l' h g → Stage s' p c l' h g') :
    swp p (release p l) g Q := by
  refine wp_atomic fun s γ hI hg => ?_
  by_cases hl : s.holder l = some p
  · simp only [hl, if_true]
    refine ⟨g', hI.quiet (others_release hl) (by simp) (by simp) ?_ ?_, hQ⟩
    · intro k hh
      obtain ⟨hgh, hne⟩ := hheld k hh
      have := hI.held p k (by rwa [hg])
      simpa [update_of_ne hne] using this
    · intro c l' h _ hst
      rw [hg] at hst
      exact hown s _ c l' h hst
  · simp [hl]

/-- From the evaluation of its condition on, a process is not known to be ready. -/
theorem swp_goToSleep
    (hg : g = .tested c l ∨ g = .handed c l) (hQ : Q () (.asleep c l)) :
    swp p (goToSleep p c) g Q := by
  refine wp_modifies fun s γ hI hγ => ⟨.asleep c l, ?_, hQ⟩
  refine hI.quiet (others_own (by simp) (by simp)) (by simp) (by simp) (fun _ h => h.elim) ?_
  intro c' l' h _ hst
  have hcl : c = c' ∧ l = l' := by
    rcases hg with rfl | rfl <;> rw [hγ] at hst
    · exact ⟨hst.1, hst.2.1⟩
    · exact hst
  exact ⟨hcl.1, hcl.2, by simp, by simp [hcl.1]⟩

theorem swp_sched (hQ : Q () .out) : swp p (sched p) (.asleep c l) Q := by
  refine wp_seq (R := fun _ g => g = .asleep c l) ?_ ?_
  · refine wp_atomic fun s γ hI hg => ?_
    split_ifs with h₁ h₂ h₃
    · trivial
    · trivial
    · trivial
    · have h₁ := not_not.mp h₁
      refine ⟨.asleep c l, hI.quiet (others_release h₁) (by simp) (by simp) (fun _ h => h.elim) ?_, rfl⟩
      intro c' l' h _ hst
      rw [hg] at hst
      exact hst
  · rintro - _ rfl
    refine wp_atomic fun s γ hI hg => ?_
    split_ifs with h
    · refine ⟨.out, hI.quiet (others_resume h.2) (by simp) (by simp) (fun _ h => h.elim) ?_, hQ⟩
      intro c' l' h' _ hst
      rw [hg] at hst
      simp [h.1, Stage] at hst
    · trivial

theorem swp_tidyUp (hQ : Q () .out) : swp p (tidyUp p) .out Q := by
  refine wp_modifies fun s γ hI hg => ⟨.out, ?_, hQ⟩
  refine hI.quiet others_setProc (by simp) (by simp) (fun _ h => h.elim) fun c l h _ hst => ?_
  rw [hg] at hst
  exact hst

theorem swp_sleep (hQ : Q () .out) : swp p (sleep p c l) (.tested c l) Q := by
  unfold sleep
  split_ifs with hl
  · refine wp_seq (R := fun _ g => g = .both c l) (swp_acquire rfl (fun _ h => h) ?_) ?_
    · rintro s s' c' l' h hkeep - ⟨rfl, rfl, hp, hh⟩
      refine ⟨rfl, rfl, hkeep _ _ hp, fun q hq => ?_⟩
      rcases List.mem_cons.mp hq with hq | hq
      · exact hl (Event.got.inj hq).2
      · exact hh q hq
    rintro - _ rfl
    refine wp_seq (R := fun _ g => g = .handed c l)
      (swp_release rfl (fun k hk => ⟨hk, fun h => hl (h.symm.trans hk)⟩)
        fun s s' c' l' h hst => ⟨hst.1, hst.2.1⟩) ?_
    rintro - _ rfl
    refine wp_bind.mpr (swp_goToSleep (.inr rfl) ?_)
    refine wp_bind.mpr (swp_sched ?_)
    refine wp_bind.mpr (swp_tidyUp ?_)
    refine wp_seq (R := fun _ g => g = .out)
      (swp_release rfl (fun _ h => h.elim) fun _ _ _ _ _ h => h) ?_
    rintro - _ rfl
    exact swp_acquire hQ (fun _ h => h.elim) fun _ _ _ _ _ _ _ h => h
  · refine wp_bind.mpr (swp_goToSleep (.inl rfl) ?_)
    refine wp_bind.mpr (swp_sched ?_)
    exact swp_tidyUp hQ

theorem swp_await (hQ : Q () .out) : swp p (await p c l) (.holding l) Q := by
  refine wp_seq (R := fun _ g => g = .tested c l) ?_ ?_
  · refine wp_modifies fun s γ hI hg => ⟨.tested c l, ?_, rfl⟩
    have ho : Others p [.test p c l] s (s.note (.test p c l)) :=
      ⟨rfl, fun _ _ _ h => h, by simp, by simp +contextual, fun _ _ => .inl ⟨rfl, rfl⟩⟩
    refine hI.step ho (fun _ h => h.elim) ?_ ?_
    · intro c' l' h h' hlog hr
      cases h with
      | nil =>
        obtain ⟨-, rfl, rfl⟩ := Event.test.inj (List.cons.inj hlog).1
        exact ⟨rfl, rfl, hI.held p l (by rw [hg]; rfl), by simp⟩
      | cons e h₀ =>
        have hst := hI.pend p c' l' h₀ h' (List.cons.inj hlog).2 fun h => hr (.tail _ h)
        rw [hg] at hst
        exact hst.elim
    · rw [ho.log]
      exact hI.good.append (by simp)
  · rintro - _ rfl
    exact swp_sleep hQ

/-- A process that wakes up others holds `ptable.lock`, so no other is between releasing its lock
and falling asleep. -/
theorem NoneLost.woke {s : Kernel n} {γ : Fin n → Phase n} (hI : SleepInv s γ) (hp : γ p = .holding .ptable)
    (c : Chan n) : NoneLost (.woke p c :: ((s.sleepers c).map .ready ++ s.log)) := by
  intro r q c' l h₀ h₁ h₂ h₃ heq
  cases h₀ with
  | cons e h₀ =>
    obtain ⟨-, heq⟩ := List.cons.inj heq
    exact hI.good.append (by simp) r q c' l h₀ h₁ h₂ h₃ heq
  | nil =>
    obtain ⟨he, heq⟩ := List.cons.inj heq
    obtain ⟨rfl, rfl⟩ := Event.woke.inj he
    have heq' : (s.sleepers c).map .ready ++ s.log =
        (h₁ ++ .got p l :: h₂) ++ .test r c l :: h₃ := by simpa using heq
    obtain ⟨k, hk, hlog⟩ := split_test heq' (by simp)
    by_contra hr
    have hr' : .ready r ∉ (s.sleepers c).map .ready ++ k := by
      rw [← hk]
      simpa using hr
    simp only [List.mem_append, not_or] at hr'
    have hgot : .got p l ∈ k := by
      have : Event.got p l ∈ (s.sleepers c).map .ready ++ k := by rw [← hk]; simp
      simpa using this
    have hst := hI.pend r c l k h₃ hlog hr'.2
    have hheld := hI.held p .ptable (by rw [hp]; rfl)
    cases hγ : γ r with
    | out => rw [hγ] at hst; exact hst
    | holding => rw [hγ] at hst; exact hst
    | tested => rw [hγ] at hst; exact hst.2.2.2 p hgot
    | both => rw [hγ] at hst; exact hst.2.2.2 p hgot
    | handed =>
      have := hI.held r .ptable (by rw [hγ]; rfl)
      obtain rfl := Option.some.inj (hheld.symm.trans this)
      simp [hp] at hγ
    | asleep =>
      rw [hγ] at hst
      exact hr'.1 (List.mem_map_of_mem (mem_sleepers.mpr hst.2.2))

theorem swp_wakeup1 (hQ : Q () .out) : swp p (wakeup1 p c) (.holding .ptable) Q := by
  refine wp_modifies fun s γ hI hg => ⟨.out, ?_, hQ⟩
  refine hI.step others_wakeup1 (fun _ h => h.elim) ?_ (NoneLost.woke hI hg c)
  intro c' l h h' hlog hr
  rw [others_wakeup1.log] at hlog
  obtain ⟨h₀, rfl, hs⟩ := split_test hlog (by simp)
  simp only [List.mem_append, not_or] at hr
  have := hI.pend p c' l h₀ h' hs hr.2
  rwa [hg] at this

theorem swp_kill {pid : BitVec 32} {Q : ℤ → Phase n → Prop} (hQ : ∀ r, Q r .out) : swp p (kill p pid) .out Q := by
  refine wp_seq (R := fun _ g => g = .out)
    (swp_acquire rfl (fun _ h => h.elim) fun _ _ _ _ _ _ _ h => h) ?_
  rintro - _ rfl
  refine wp_seq (R := fun _ g => g = .out) ?_ ?_
  · refine wp_atomic fun s γ hI hg => ?_
    cases (List.finRange n).find? fun q => (s.proc q).pid = pid with
    | none => exact ⟨.out, by rwa [← hg, update_eq_self], rfl⟩
    | some t =>
      have hes : ∀ e ∈ hitEvents s pid t, e = .ready t ∨ ∃ st, e = .kill pid t st := by
        unfold hitEvents
        split_ifs <;> simp
      refine ⟨.out, hI.quiet others_hit (fun c l h => ?_) (fun q c h => ?_) (fun _ h => h.elim) ?_, rfl⟩
      · simpa using hes _ h
      · simpa using hes _ h
      · intro c l h _ hst
        rw [hg] at hst
        exact hst
  · rintro r _ rfl
    refine wp_seq (R := fun _ g => g = .out)
      (swp_release rfl (fun _ h => h.elim) fun _ _ _ _ _ h => h) ?_
    rintro - _ rfl
    exact hQ r

theorem clients_sound : Sound (clients (n := n)) SleepInv (fun _ _ => True) fun _ _ g => g = .out where
  restart _ _ _ _ h := h.elim
  call s γ p _ k hI hg hok := by
    have hself : SleepInv s (update γ p .out) := by
      rwa [← hg, update_eq_self]
    have hhold : ∀ l, s.holder l = some p → SleepInv s (update γ p (.holding l)) := by
      intro l hl
      have ho : Others p [] s s :=
        ⟨rfl, fun _ _ _ h => h, by simp, by simp, fun _ _ => .inl ⟨rfl, rfl⟩⟩
      refine hI.quiet ho (by simp) (by simp) ?_ ?_
      · rintro k rfl
        exact hl
      · intro c l' h _ hst
        rw [hg] at hst
        exact hst
    cases k with
    | acquire l => exact ⟨_, hself, swp_acquire rfl (fun _ h => h.elim) fun _ _ _ _ _ _ _ h => h⟩
    | release l => exact ⟨_, hself, swp_release rfl (fun _ h => h.elim) fun _ _ _ _ _ h => h⟩
    | work d =>
      refine ⟨_, hself, wp_modifies fun s γ hI hg => ⟨.out, ?_, rfl⟩⟩
      refine hI.quiet others_setData (by simp) (by simp) (fun _ h => h.elim) fun c l h _ hst => ?_
      rw [hg] at hst
      exact hst
    | await c l => exact ⟨_, hhold l hok, swp_await rfl⟩
    | wakeup c =>
      refine ⟨_, hself, wp_seq (R := fun _ g => g = .holding .ptable)
        (swp_acquire rfl (fun _ h => h) fun _ _ _ _ _ _ _ h => h) ?_⟩
      rintro - _ rfl
      refine wp_bind.mpr (swp_wakeup1 ?_)
      exact swp_release rfl (fun _ h => h.elim) fun _ _ _ _ _ h => h
    | wakeup1 c => exact ⟨_, hhold .ptable hok, swp_wakeup1 rfl⟩
    | kill pid => exact ⟨_, hself, wp_seq (swp_kill (Q := fun _ g => g = .out) fun _ => rfl) fun _ _ h => h⟩

theorem noneLost_of_reach {s : Kernel n} (hs : s.log = []) {c : Config (Kernel n) (Fin n) Unit}
    (hr : Reach clients (idle s) c) : NoneLost c.shared.log := by
  have h0 : Holds SleepInv (fun _ _ => True) (fun _ _ g => g = .out) (idle s) := by
    refine ⟨fun _ => .out, ⟨fun _ _ h => h.elim, ?_, ?_⟩, fun _ => rfl⟩
    · intro p c l h h' hlog
      simp [idle, hs] at hlog
    · intro p q c l h₀ h₁ h₂ h₃ hlog
      simp [idle, hs] at hlog
  obtain ⟨γ, hI, -⟩ := wp_pool clients_sound h0 hr
  exact hI.good

/-- In every run: when `q` wakes up `ch`, having acquired `l` after `p` evaluated its condition under
`l`, then `p` has been made ready since, or it is found asleep on `ch` and made ready now. -/
theorem wakeup_not_lost {s : Kernel n} (hs : s.log = []) {c c' : Config (Kernel n) (Fin n) Unit}
    (hr : Reach clients (idle s) c) (hstep : Step clients c c') {p q : Fin n} {ch : Chan n} {l : Lock}
    (hwake : c'.shared = (c.shared.wakeup1 ch).note (.woke q ch)) {h₁ h₂ h₃ : List (Event n)}
    (hlog : c.shared.log = h₁ ++ .got q l :: (h₂ ++ .test p ch l :: h₃)) :
    .ready p ∈ h₁ ++ h₂ ∨
      (c.shared.proc p).state = .sleeping ∧ (c.shared.proc p).chan = some ch ∧
        (c'.shared.proc p).state = .runnable := by
  have hgood := noneLost_of_reach hs (hr.tail hstep)
  have hnew : .ready p ∈ ((c.shared.sleepers ch).map .ready ++ h₁) ++ h₂ :=
    hgood p q ch l [] _ h₂ h₃ (by simp [hwake, hlog])
  rw [List.append_assoc, List.mem_append] at hnew
  refine hnew.symm.imp_right fun h => ?_
  obtain ⟨r, hr, he⟩ := List.mem_map.mp h
  obtain rfl := Event.ready.inj he
  have hsl := mem_sleepers.mp hr
  exact ⟨hsl.1, hsl.2, by simp [hwake, hsl]⟩

/-- A reader of an empty pipe falls asleep; then a writer acquires the lock of the pipe and is about to
wake up the reader. -/
def readerThenWriter : List (Move (clients (n := 2))) :=
  [.start 0 (.acquire (.pipe 0)), .next 0, .start 0 (.await (.nread 0) (.pipe 0)), .next 0, .next 0,
    .next 0, .next 0, .next 0, .start 1 (.acquire (.pipe 0)), .next 1, .start 1 (.wakeup (.nread 0)),
    .next 1]

def readerAsleep : Config (Kernel 2) (Fin 2) Unit :=
  (schedule clients readerThenWriter (idle (.fresh 2))).getD (idle (.fresh 2))

def readerWoken : Config (Kernel 2) (Fin 2) Unit :=
  (readerAsleep.move clients (.next 1)).getD readerAsleep

theorem wakeup_not_lost_reader :
    (readerAsleep.shared.proc 0).state = .sleeping ∧
      (readerAsleep.shared.proc 0).chan = some (.nread 0) ∧
      (readerWoken.shared.proc 0).state = .runnable := by
  have hlog : readerAsleep.shared.log = [.got 1 .ptable] ++ .got 1 (.pipe 0) ::
      ([.slept 0 (.nread 0), .got 0 .ptable] ++
        .test 0 (.nread 0) (.pipe 0) :: [.got 0 (.pipe 0)]) := rfl
  have hs : schedule clients readerThenWriter (idle (.fresh 2)) = some readerAsleep := rfl
  have hstep : Step clients readerAsleep readerWoken := step_move (m := .next 1) rfl
  exact (wakeup_not_lost rfl (reach_schedule hs) hstep rfl hlog).resolve_left (by decide)

end

end Xv6.Proc
