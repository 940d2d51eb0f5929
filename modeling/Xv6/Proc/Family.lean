import Xv6.Proc.LifeRules

/-!
# The process tree

The rules for `wait`, and what holds of the process table in every state that processes which fork,
exit, wait and kill can reach.
-/

namespace Xv6.Proc

open Conc

variable {n : ℕ}

section

variable {initproc p : Fin n} {s : Kernel n}

/-! ## `wait` -/

/-- `wait` finds a child to reap, or has no child or is killed, or knows that no child is a zombie. -/
theorem lwp_waitScan {Q : Found → Post n → Prop} (hchild : ∀ pid, Q (.child pid) ⟨true, .busy⟩)
    (hnone : Q .noPoint ⟨true, .busy⟩) (hlater : Q .later ⟨true, .scanned⟩) :
    lwp initproc p (waitScan p) ⟨true, .busy⟩ Q := by
  refine wp_atomic fun s γ hI hg => ?_
  cases hfind : (List.finRange n).find? fun q =>
      (s.proc q).parent = some p ∧ (s.proc q).state = .zombie with
  | some t =>
    have ht : (s.proc t).parent = some p ∧ (s.proc t).state = .zombie := by
      simpa using List.find?_some hfind
    have hal : ¬(s.proc t).state.Alive := by simp [ht.2, ProcState.Alive]
    refine ⟨⟨true, .busy⟩, ⟨?_, ?_, fun hlt => ?_, fun hfits => ?_⟩, hchild _⟩
    · exact hI.tree.update hal (fun h => absurd rfl h) (fun _ => rfl) (by simp) (by simp)
    · refine hI.stages.update rfl rfl (by simp [ht.2]) (fun q _ hm => ?_) (by rw [hg])
        (fun _ => by rw [hg]; trivial) (by simp) (by simp) (fun u _ hm => ?_) (by simp) (by simp) (by simp)
      · have hs := hI.stages.makes hm
        rw [ht.2] at hs
        cases hs
      · rw [hg] at hm
        rcases hm with hm | hm <;> cases hm
    · have hlt' : allocs s.log < 2 ^ 31 := by simpa [Kernel.reap, allocs] using hlt
      exact (hI.past hlt').reap hI.tree ht.2 ht.1
    · have hf := hI.fresh fun e he => hfits e (List.mem_cons_of_mem _ he)
      refine ⟨fun u hu => ?_, fun u b hu => hf.alloc u b (by simpa [Kernel.reap] using hu)⟩
      rcases eq_or_ne u t with rfl | hut
      · simp [Kernel.reap]
      · simp only [Kernel.reap, Kernel.note_proc, Kernel.setProc_proc, Function.update_of_ne hut] at hu ⊢
        exact hf.unused u hu
  | none =>
    have hkids : ∀ q, (s.proc q).parent = some p → (s.proc q).state ≠ .zombie := by
      simpa using hfind
    simp only
    split_ifs with hstop
    · exact ⟨_, by rwa [← hg, Function.update_eq_self], hnone⟩
    · refine ⟨⟨true, .scanned⟩, ⟨hI.tree, ?_, hI.past, hI.fresh⟩, hlater⟩
      exact hI.stages.scan hg hkids

/-- The loop of `wait`: at its head the process holds `ptable.lock`. -/
theorem lwp_waitFrom {Q : Option (BitVec 32) → Post n → Prop} (hQ : ∀ r, Q r ⟨false, .busy⟩)
    (fuel : ℕ) : lwp initproc p (waitFrom p fuel) ⟨true, .busy⟩ Q := by
  induction fuel with
  | zero => exact wp_atomic fun _ _ _ _ => trivial
  | succ fuel ih =>
    refine wp_seq (R := fun r g => g = match r with
      | .later => ⟨true, .scanned⟩
      | _ => ⟨true, .busy⟩) (lwp_waitScan (fun _ => rfl) rfl rfl) ?_
    have hleave : ∀ r, lwp initproc p (do release p .ptable; pure r) ⟨true, .busy⟩ Q := by
      intro r
      refine wp_bind.mpr (lwp_release (by simp) ?_)
      exact hQ r
    rintro r _ rfl
    cases r with
    | child pid => exact hleave (some pid)
    | noPoint => exact hleave none
    | later =>
      refine wp_bind.mpr (lwp_sleep ?_)
      exact ih

theorem lwp_wait {Q : Option (BitVec 32) → Post n → Prop} (hQ : ∀ r, Q r ⟨false, .busy⟩)
    {fuel : ℕ} : lwp initproc p (wait p fuel) ⟨false, .busy⟩ Q := by
  refine wp_bind.mpr (lwp_acquire ?_)
  exact lwp_waitFrom hQ fuel

theorem lwp_forkret {Q : Unit → Post n → Prop} (hQ : Q () ⟨false, .busy⟩) :
    lwp initproc p (forkret p) ⟨false, .out⟩ Q := by
  refine wp_bind.mpr (lwp_resume (.inl rfl) ?_)
  exact lwp_release (by simp) hQ

/-! ## Runs -/

/-- A process between two calls: it runs, or there is none in its slot, or it has not started. -/
def Idle (_ : Fin n) (_ : Unit) (g : Post n) : Prop := g = ⟨false, .out⟩ ∨ g = ⟨false, .busy⟩

/-- A process that begins a call. -/
theorem LifeInv.enter {γ : Fin n → Post n} (h : LifeInv initproc s γ)
    (hidle : Idle p () (γ p)) {x : Doing n} (hx : x = .out ∨ x = .busy)
    (hrun : x.Runs → (s.proc p).state = .running) :
    LifeInv initproc s (Function.update γ p ⟨false, x⟩) := by
  have ho : Others p [] s s := ⟨rfl, fun _ _ _ h => h, nofun, nofun, fun _ _ => .inl ⟨rfl, rfl⟩⟩
  refine h.calm ho nofun (.refl _) rfl (fun _ hs => .inl ⟨hs, rfl⟩) (fun _ _ _ => rfl)
    (fun _ _ hs => hs) nofun hrun ?_
  rcases hidle with hg | hg <;> rcases hx with rfl | rfl <;> rw [hg] <;>
    exact turns_plain (by simp) (by simp) (by simp)

theorem family_sound :
    Sound (family initproc) (LifeInv initproc) (fun _ _ => True) Idle where
  restart _ _ _ _ h := h.elim
  call s γ p _ k hI hidle hallowed := by
    have drop : ∀ {α : Type} {x : Prog (Kernel n) α} {g : Post n},
        lwp initproc p x g (fun _ => Idle p ()) → lwp initproc p (x.bind fun _ => .ret ()) g (Idle p) :=
      fun hx => wp_seq hx fun _ _ h => h
    cases k with
    | start => exact ⟨_, hI.enter hidle (.inl rfl) nofun, lwp_forkret (.inr rfl)⟩
    | fork kstack mem =>
      exact ⟨_, hI.enter hidle (.inr rfl) fun _ => hallowed, drop (lwp_fork fun _ => .inr rfl)⟩
    | exit => exact ⟨_, hI.enter hidle (.inr rfl) fun _ => hallowed, lwp_exit (.inl rfl)⟩
    | wait fuel =>
      exact ⟨_, hI.enter hidle (.inr rfl) fun _ => hallowed, drop (lwp_wait fun _ => .inr rfl)⟩
    | kill pid =>
      exact ⟨_, hI.enter hidle (.inr rfl) fun _ => hallowed, drop (lwp_kill fun _ => .inr rfl)⟩

theorem lifeInv_booted (hs : Booted initproc s) : LifeInv initproc s fun _ => ⟨false, .out⟩ := by
  have hunused : ∀ t, (s.proc t).state ≠ .unused → t = initproc := by
    intro t ht
    by_contra hne
    rw [hs.rest t hne] at ht
    exact ht rfl
  have hparent : ∀ t, (s.proc t).parent = none := by
    intro t
    by_cases ht : t = initproc
    · rw [ht, hs.first]
    · rw [hs.rest t ht]
  have hrunnable : ∀ t, (s.proc t).state = .runnable ∨ (s.proc t).state = .unused := by
    intro t
    by_cases ht : t = initproc
    · rw [ht, hs.first]
      exact .inl rfl
    · rw [hs.rest t ht]
      exact .inr rfl
  refine ⟨⟨?_, hparent _, fun t ht hne => absurd (hunused t ht) hne, fun t _ => hparent t, ?_, ?_⟩,
    ⟨nofun, nofun, nofun, nofun, ?_, ?_, nofun⟩, fun _ => ⟨?_, ?_, ?_, ?_, ?_, ?_, ?_⟩, fun _ => ⟨?_, ?_⟩⟩
  · rw [hs.first]
    exact .inr (.inl rfl)
  · simp [hparent]
  · intro t ht
    rcases hrunnable t with h | h <;> rw [h] at ht <;> cases ht
  · rintro p q t (h | h) <;> cases h
  · simp [hparent]
  · rw [hs.nextpid, hs.log]
    rfl
  · intro t ht
    rw [hunused t ht, hs.first, hs.nextpid]
    simp
  · intro t u ht hu _
    rw [hunused t ht, hunused u hu]
  · intro t ht
    rcases hrunnable t with h | h <;> rw [h] at ht <;> cases ht
  · simp [hs.log]
  · simp [hs.log]
  · intro q w pid h hsuf
    rw [hs.log] at hsuf
    exact absurd (hsuf.subset List.mem_cons_self) (by simp)
  · intro t _
    by_cases ht : t = initproc
    · rw [ht, hs.first]
    · rw [hs.rest t ht]
  · simp [hs.log]

theorem lifeInv_of_reach (hs : Booted initproc s) {c : Config (Kernel n) (Fin n) Unit}
    (hr : Reach (family initproc) (idle s) c) : ∃ γ, LifeInv initproc c.shared γ := by
  have h0 : Holds (LifeInv initproc) (fun _ _ => True) Idle (idle s) :=
    ⟨_, lifeInv_booted hs, fun _ => .inl rfl⟩
  obtain ⟨γ, hI, -⟩ := wp_pool family_sound h0 hr
  exact ⟨γ, hI⟩

end

instance {initproc : Fin n} : ∀ s p l k, Decidable ((family initproc).allowed s p l k)
  | s, p, _, .start => inferInstanceAs (Decidable ((s.proc p).state = .runnable))
  | s, p, _, .fork _ _ => inferInstanceAs (Decidable ((s.proc p).state = .running))
  | s, p, _, .exit => inferInstanceAs (Decidable ((s.proc p).state = .running))
  | s, p, _, .wait _ => inferInstanceAs (Decidable ((s.proc p).state = .running))
  | s, p, _, .kill _ => inferInstanceAs (Decidable ((s.proc p).state = .running))

/-- The first process forks a child, which exits, and waits for it. -/
def forkAndWait : List (Move (family (0 : Fin 2))) :=
  .start 0 .start :: List.replicate 2 (.next 0) ++
  .start 0 (.fork true true) :: List.replicate 8 (.next 0) ++
  .start 1 .start :: List.replicate 2 (.next 1) ++
  .start 1 .exit :: List.replicate 3 (.next 1) ++
  .start 0 (.wait 1) :: List.replicate 3 (.next 0)

def reunited : Config (Kernel 2) (Fin 2) Unit :=
  (schedule (family 0) forkAndWait (idle (.booted 1))).getD (idle (.booted 1))

/-- A section that sets `killed` only in a slot a kill with the slot's pid has found. -/
def KillSection (β : Type) (f : Kernel n → Outcome (Kernel n) β) : Prop :=
  ∀ s b s', f s = .ok b s' → ∀ t, (s'.proc t).killed = true →
    (s.proc t).killed = true ∨ .kill (s.proc t).pid t (s.proc t).state ∈ s'.log

section

variable {initproc p : Fin n} {α : Type}

/-- A section that leaves `killed` alone, or clears it. -/
theorem sections_quiet {f : Kernel n → Outcome (Kernel n) α}
    (h : ∀ s b s', f s = .ok b s' → ∀ t, (s'.proc t).killed = true → (s.proc t).killed = true) :
    (Prog.atomic f).Sections KillSection :=
  Prog.sections_atomic fun s b s' hf t ht => .inl (h s b s' hf t ht)

theorem sections_reads {f : Kernel n → α} : (Prog.reads f).Sections KillSection :=
  sections_quiet fun s b s' hf t ht => by
    obtain ⟨-, rfl⟩ := Outcome.ok.inj hf
    exact ht

theorem sections_modifies {f : Kernel n → Kernel n}
    (h : ∀ s t, ((f s).proc t).killed = true → (s.proc t).killed = true) :
    (Prog.modifies f).Sections KillSection :=
  sections_quiet fun s b s' hf t ht => by
    obtain ⟨-, rfl⟩ := Outcome.ok.inj hf
    exact h s t ht

theorem sections_acquire {l : Lock} : (acquire p l).Sections KillSection :=
  sections_quiet fun s b s' hf t ht => by
    cases hl : s.holder l with
    | none =>
      simp only [hl, Outcome.ok.injEq, true_and] at hf
      subst hf
      exact ht
    | some q => by_cases hq : q = p <;> simp [hl, hq] at hf

theorem sections_release {l : Lock} : (release p l).Sections KillSection :=
  sections_quiet fun s b s' hf t ht => by
    split_ifs at hf
    obtain ⟨-, rfl⟩ := Outcome.ok.inj hf
    exact ht

theorem sections_swtch : (swtch p).Sections KillSection :=
  sections_quiet fun s b s' hf t ht => by
    split_ifs at hf
    obtain ⟨-, rfl⟩ := Outcome.ok.inj hf
    exact ht

theorem killed_of_update {P : Fin n → Process n} {t u : Fin n} {y : Process n}
    (ht : (Function.update P u y t).killed = true) (hy : y.killed = true → (P u).killed = true) :
    (P t).killed = true := by
  rcases eq_or_ne t u with rfl | htu
  · rw [Function.update_self] at ht
    exact hy ht
  · rwa [Function.update_of_ne htu] at ht

theorem sections_resume : (resume p).Sections KillSection :=
  sections_quiet fun s b s' hf t ht => by
    split_ifs at hf
    obtain ⟨-, rfl⟩ := Outcome.ok.inj hf
    exact killed_of_update ht fun h => h

theorem sections_sleep {c : Chan n} : (sleep p c .ptable).Sections KillSection := by
  unfold sleep
  rw [if_neg (by simp)]
  have hbed : (goToSleep p c).Sections KillSection :=
    sections_modifies fun s t ht => killed_of_update ht fun h => h
  have hup : (tidyUp p).Sections KillSection :=
    sections_modifies fun s t ht => killed_of_update ht fun h => h
  exact hbed.bind fun _ => (sections_swtch.bind fun _ => sections_resume).bind fun _ => hup

theorem sections_kill {pid : BitVec 32} : (kill p pid).Sections KillSection := by
  have hscan : (killScan (n := n) pid).Sections KillSection := by
    refine Prog.sections_atomic fun s b s' hf t ht => ?_
    cases hfind : (List.finRange n).find? fun q => (s.proc q).pid = pid with
    | none =>
      simp only [hfind, Outcome.ok.injEq] at hf
      rw [← hf.2] at ht
      exact .inl ht
    | some u =>
      have hu : (s.proc u).pid = pid := by simpa using List.find?_some hfind
      simp only [hfind, Outcome.ok.injEq] at hf
      obtain ⟨-, rfl⟩ := hf
      rcases eq_or_ne t u with rfl | htu
      · exact .inr ((hit_log s pid t).subset (by simp [hu]))
      · rw [hit_of_ne s pid htu] at ht
        exact .inl ht
  exact sections_acquire.bind fun _ => hscan.bind fun _ => sections_release.bind fun _ => trivial

theorem sections_fork {kstack mem : Bool} : (fork p kstack mem).Sections KillSection := by
  have hback : ∀ t : Fin n, (giveBack t).Sections KillSection := fun t =>
    sections_modifies fun s u hu => killed_of_update hu fun h => h
  have hscan : (allocScan (n := n)).Sections KillSection := by
    refine sections_quiet fun s b s' hf t ht => ?_
    cases hfind : (List.finRange n).find? fun q => (s.proc q).state = .unused with
    | none =>
      simp only [hfind, Outcome.ok.injEq] at hf
      rwa [← hf.2] at ht
    | some u =>
      simp only [hfind, Outcome.ok.injEq] at hf
      obtain ⟨-, rfl⟩ := hf
      exact killed_of_update ht fun h => h
  have halloc : (allocproc p kstack).Sections KillSection := by
    refine sections_acquire.bind fun _ => hscan.bind fun r => sections_release.bind fun _ => ?_
    cases r with
    | none => trivial
    | some t =>
      cases kstack with
      | true => trivial
      | false => exact (hback t).bind fun _ => trivial
  refine halloc.bind fun r => ?_
  cases r with
  | none => trivial
  | some t =>
    cases mem with
    | false => exact (hback t).bind fun _ => trivial
    | true =>
      have hparent : (setParent p t).Sections KillSection :=
        sections_modifies fun s u hu => killed_of_update hu fun h => h
      have hlaunch : (launch p t).Sections KillSection :=
        sections_modifies fun s u hu => killed_of_update hu fun h => h
      exact hparent.bind fun _ => sections_reads.bind fun _ => sections_acquire.bind fun _ =>
        hlaunch.bind fun _ => sections_release.bind fun _ => trivial

theorem sections_wait (fuel : ℕ) : (wait p fuel).Sections KillSection := by
  have hscan : (waitScan p).Sections KillSection := by
    refine sections_quiet fun s b s' hf t ht => ?_
    split at hf
    · obtain ⟨-, rfl⟩ := Outcome.ok.inj hf
      exact killed_of_update ht nofun
    · split_ifs at hf <;>
      · obtain ⟨-, rfl⟩ := Outcome.ok.inj hf
        exact ht
  have hloop : (waitFrom p fuel).Sections KillSection := by
    induction fuel with
    | zero => exact sections_quiet fun _ _ _ hf => by cases hf
    | succ fuel ih =>
      refine hscan.bind fun r => ?_
      cases r with
      | child pid => exact sections_release.bind fun _ => trivial
      | noPoint => exact sections_release.bind fun _ => trivial
      | later => exact sections_sleep.bind fun _ => ih
  exact sections_acquire.bind fun _ => hloop

theorem sections_exit : (exit initproc p).Sections KillSection := by
  unfold exit
  split_ifs with hp
  · exact ⟨nofun, fun _ => trivial⟩
  · refine sections_acquire.bind fun _ => (sections_modifies fun s t ht => ?_).bind fun _ =>
      sections_swtch
    rwa [((exited_exit fun h => hp h.symm).keeps t).2.2] at ht

theorem sections_act (k : Act) : (act initproc p k).Sections KillSection := by
  cases k with
  | start => exact sections_resume.bind fun _ => sections_release
  | fork kstack mem => exact sections_fork.bind fun _ => trivial
  | exit => exact sections_exit
  | wait fuel => exact (sections_wait fuel).bind fun _ => trivial
  | kill pid => exact sections_kill.bind fun _ => trivial

end

/-- The first process forks a child and kills it. -/
def forkAndKill : List (Move (family (0 : Fin 2))) :=
  .start 0 .start :: List.replicate 2 (.next 0) ++
  .start 0 (.fork true true) :: List.replicate 8 (.next 0) ++
  .start 0 (.kill 2) :: [.next 0]

def aiming : Config (Kernel 2) (Fin 2) Unit :=
  (schedule (family 0) forkAndKill (idle (.booted 1))).getD (idle (.booted 1))

def struck : Config (Kernel 2) (Fin 2) Unit := (aiming.move (family 0) (.next 0)).getD aiming

/-- The first process calls `kill(0)`, and then `fork`. -/
def killNobody : List (Move (family (0 : Fin 2))) :=
  .start 0 .start :: List.replicate 2 (.next 0) ++
  .start 0 (.kill 0) :: List.replicate 3 (.next 0) ++
  .start 0 (.fork true true) :: List.replicate 3 (.next 0)

end Xv6.Proc
