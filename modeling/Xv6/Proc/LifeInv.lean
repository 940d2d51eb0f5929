import Mathlib.Algebra.Order.Group.Nat
import Xv6.Proc.Sleep
import Xv6.Proc.Life

/-!
# The invariant of the process table

The shape of the process tree (`Tree`), what each process that is in the middle of a call knows
(`Stages`), the pids and what they have been used for (`Past`), and the flags of free slots (`Fresh`).
-/

namespace Xv6.Proc

open Function (update update_self update_of_ne)

variable {n : ℕ}

/-! ## What the log says -/

/-- The number of successful calls of `allocproc`. -/
def allocs (log : List (Event n)) : ℕ := log.countP fun e => match e with
  | .alloc _ _ => true
  | _ => false

/-- A kill that hits a process, and a slot that is given back as it should be. -/
def Event.Fits : Event n → Prop
  | .kill _ _ st => st ≠ .unused
  | .freed _ killed => killed = false
  | _ => True

/-- An event that says nothing about which processes there are. -/
def Event.Aside : Event n → Prop
  | .alloc _ _ => False
  | .freed _ _ => False
  | .forked _ _ => False
  | .exited _ => False
  | .reaped _ _ _ => False
  | _ => True

/-! ## The invariant -/

/-- A process that has been launched and has not exited. -/
def ProcState.Alive (st : ProcState) : Prop := st = .sleeping ∨ st = .runnable ∨ st = .running

structure Tree (initproc : Fin n) (P : Fin n → Process n) : Prop where
  init_alive : (P initproc).state.Alive
  init_parent : (P initproc).parent = none
  parents : ∀ t, (P t).state ≠ .unused → t ≠ initproc →
    (P t).parent = none ∧ (P t).state = .embryo ∨
      ∃ q, (P t).parent = some q ∧ (P q).state.Alive
  unused : ∀ t, (P t).state = .unused → (P t).parent = none
  noSelf : ∀ t, (P t).parent ≠ some t
  sleepers : ∀ p, (P p).state = .sleeping →
    (P p).chan = some (.proc p) ∧ ∀ q, (P q).parent = some p → (P q).state ≠ .zombie

/-- Where a process is: between calls; in a call; in `fork`, with a slot that has no parent yet or is
its child already; in `wait`, having found no child to reap; or asleep there. -/
inductive Doing (n : ℕ) where
  | out
  | busy
  | kid (t : Fin n)
  | given (t : Fin n)
  | scanned
  | asleep

/-- Whether the process holds `ptable.lock`, and where it is. -/
structure Post (n : ℕ) where
  pt : Bool
  doing : Doing n

/-- A process in a call runs, unless it sleeps. -/
def Doing.Runs : Doing n → Prop
  | .out => False
  | .asleep => False
  | _ => True

/-- The process is making slot `t` into a child. -/
def Doing.Makes (x : Doing n) (t : Fin n) : Prop := x = .kid t ∨ x = .given t

structure Stages (s : Kernel n) (γ : Fin n → Post n) : Prop where
  pt : ∀ p, (γ p).pt = true → s.holder .ptable = some p
  runs : ∀ p, (γ p).doing.Runs → (s.proc p).state = .running
  kid : ∀ p t, (γ p).doing = .kid t → (s.proc t).state = .embryo ∧ (s.proc t).parent = none
  given : ∀ p t, (γ p).doing = .given t → (s.proc t).state = .embryo ∧ (s.proc t).parent = some p
  unique : ∀ p q t, (γ p).doing.Makes t → (γ q).doing.Makes t → p = q
  embryo : ∀ t q, (s.proc t).state = .embryo → (s.proc t).parent = some q → (γ q).doing = .given t
  scanned : ∀ p, (γ p).doing = .scanned → (γ p).pt = true ∧
    ∀ q, (s.proc q).parent = some p → (s.proc q).state ≠ .zombie

structure Past (initproc : Fin n) (s : Kernel n) : Prop where
  next : s.nextpid.toNat = allocs s.log + 1
  lt : ∀ t, (s.proc t).state ≠ .unused → (s.proc t).pid.toNat < s.nextpid.toNat
  inj : ∀ t u, (s.proc t).state ≠ .unused → (s.proc u).state ≠ .unused →
    (s.proc t).pid = (s.proc u).pid → t = u
  exited : ∀ t, (s.proc t).state = .zombie → .exited (s.proc t).pid ∈ s.log
  forked : ∀ w pid, .forked w pid ∈ s.log → pid.toNat < s.nextpid.toNat ∧
    ∀ t, (s.proc t).state ≠ .unused → (s.proc t).pid = pid →
      ∃ q, (s.proc t).parent = some q ∧ ((s.proc q).pid = w ∨ q = initproc)
  reaped : ∀ q w pid, .reaped q w pid ∈ s.log → pid.toNat < s.nextpid.toNat ∧
    ∀ t, (s.proc t).state ≠ .unused → (s.proc t).pid ≠ pid
  order : ∀ q w pid h, .reaped q w pid :: h <:+ s.log → .exited pid ∈ h ∧
    (∀ q' w', .reaped q' w' pid ∉ h) ∧ ∀ w', .forked w' pid ∈ s.log → w = w' ∨ q = initproc

structure Fresh (s : Kernel n) : Prop where
  unused : ∀ t, (s.proc t).state = .unused → (s.proc t).killed = false
  alloc : ∀ t killed, .alloc t killed ∈ s.log → killed = false

structure LifeInv (initproc : Fin n) (s : Kernel n) (γ : Fin n → Post n) : Prop where
  tree : Tree initproc s.proc
  stages : Stages s γ
  past : allocs s.log < 2 ^ 31 → Past initproc s
  fresh : (∀ e ∈ s.log, e.Fits) → Fresh s

/-! ## Sections that leave the processes as they are -/

/-- The processes are the same; some that are alive have changed their state. -/
structure Calm (P P' : Fin n → Process n) : Prop where
  parent : ∀ t, (P' t).parent = (P t).parent
  pid : ∀ t, (P' t).pid = (P t).pid
  state : ∀ t, (P' t).state = (P t).state ∨ (P t).state.Alive ∧ (P' t).state.Alive

theorem ProcState.Alive.ne {st : ProcState} (h : st.Alive) : st ≠ .unused ∧ st ≠ .embryo ∧ st ≠ .zombie := by
  rcases h with rfl | rfl | rfl <;> simp

namespace Calm

variable {P P' : Fin n → Process n} (h : Calm P P') (t : Fin n)

include h

theorem alive_iff : (P' t).state.Alive ↔ (P t).state.Alive := by
  rcases h.state t with ht | ⟨h₁, h₂⟩
  · rw [ht]
  · exact ⟨fun _ => h₁, fun _ => h₂⟩

theorem eq_iff {st : ProcState} (hst : ¬st.Alive) : (P' t).state = st ↔ (P t).state = st := by
  rcases h.state t with ht | ⟨h₁, h₂⟩
  · rw [ht]
  · exact ⟨fun hs => absurd (hs ▸ h₂) hst, fun hs => absurd (hs ▸ h₁) hst⟩

theorem unused_iff : (P' t).state = .unused ↔ (P t).state = .unused :=
  h.eq_iff t fun ha => ha.ne.1 rfl

theorem embryo_iff : (P' t).state = .embryo ↔ (P t).state = .embryo :=
  h.eq_iff t fun ha => ha.ne.2.1 rfl

theorem zombie_iff : (P' t).state = .zombie ↔ (P t).state = .zombie :=
  h.eq_iff t fun ha => ha.ne.2.2 rfl

end Calm

theorem Tree.calm {initproc : Fin n} {P P' : Fin n → Process n} (h : Tree initproc P) (hc : Calm P P')
    (hsleep : ∀ p, (P' p).state = .sleeping → (P p).state = .sleeping ∧ (P' p).chan = (P p).chan ∨
      (P' p).chan = some (.proc p) ∧ ∀ q, (P q).parent = some p → (P q).state ≠ .zombie) :
    Tree initproc P' where
  init_alive := (hc.alive_iff _).mpr h.init_alive
  init_parent := (hc.parent _).trans h.init_parent
  parents t ht hne := by
    rw [Ne, hc.unused_iff] at ht
    simpa only [hc.parent, hc.embryo_iff, hc.alive_iff] using h.parents t ht hne
  unused t ht := by
    rw [hc.unused_iff] at ht
    rw [hc.parent]
    exact h.unused t ht
  noSelf t := by
    rw [hc.parent]
    exact h.noSelf t
  sleepers p hp := by
    simp only [hc.parent, Ne, hc.zombie_iff]
    rcases hsleep p hp with ⟨hs, hch⟩ | hnew
    · rw [hch]
      exact h.sleepers p hs
    · exact hnew

section

variable {a initproc : Fin n} {es : List (Event n)} {s s' : Kernel n} {γ : Fin n → Post n} {g : Post n}

theorem allocs_aside (hes : ∀ e ∈ es, e.Aside) : allocs (es ++ s.log) = allocs s.log := by
  have : es.countP (fun e => match e with | .alloc _ _ => true | _ => false) = 0 := by
    rw [List.countP_eq_zero]
    intro e he
    have := hes e he
    cases e <;> simp_all [Event.Aside]
  simp [allocs, List.countP_append, this]

theorem Past.calm (h : Past initproc s) (hc : Calm s.proc s'.proc) (hn : s'.nextpid = s.nextpid)
    (hlog : s'.log = es ++ s.log) (hes : ∀ e ∈ es, e.Aside) : Past initproc s' where
  next := by rw [hn, hlog, allocs_aside hes, h.next]
  lt t ht := by
    rw [Ne, hc.unused_iff] at ht
    rw [hc.pid, hn]
    exact h.lt t ht
  inj t u ht hu := by
    rw [Ne, hc.unused_iff] at ht hu
    rw [hc.pid, hc.pid]
    exact h.inj t u ht hu
  exited t ht := by
    rw [hc.zombie_iff] at ht
    rw [hc.pid, hlog]
    exact List.mem_append_right _ (h.exited t ht)
  forked w pid hw := by
    rw [hlog, List.mem_append] at hw
    have := h.forked w pid (hw.resolve_left fun he => hes _ he)
    simpa only [hn, hc.parent, hc.pid, Ne, hc.unused_iff] using this
  reaped q w pid hw := by
    rw [hlog, List.mem_append] at hw
    have := h.reaped q w pid (hw.resolve_left fun he => hes _ he)
    simpa only [hn, hc.pid, Ne, hc.unused_iff] using this
  order q w pid h' hs := by
    rw [hlog] at hs
    obtain ⟨hex, honce, hby⟩ := h.order q w pid h' (suffix_of_notMem hs fun he => hes _ he)
    refine ⟨hex, honce, fun w' hw => hby w' ?_⟩
    rw [hlog, List.mem_append] at hw
    exact hw.resolve_left fun he => hes _ he

theorem Fresh.calm (h : Fresh s) (hc : Calm s.proc s'.proc) (hlog : s'.log = es ++ s.log)
    (hes : ∀ e ∈ es, e.Aside)
    (hkilled : ∀ t, (s.proc t).state = .unused → (s'.proc t).killed = (s.proc t).killed) : Fresh s' where
  unused t ht := by
    rw [hc.unused_iff] at ht
    rw [hkilled t ht]
    exact h.unused t ht
  alloc t killed ht := by
    rw [hlog, List.mem_append] at ht
    exact h.alloc t killed (ht.resolve_left fun he => hes _ he)

/-- What the process that runs the section may turn to, as long as no slot changes hands. -/
structure Turns (g g' : Post n) : Prop where
  kid : ∀ t, g'.doing = .kid t ↔ g.doing = .kid t
  given : ∀ t, g'.doing = .given t ↔ g.doing = .given t
  scanned : g'.doing = .scanned → g.doing = .scanned ∧ g'.pt = true

theorem Stages.calm (h : Stages s γ) (hc : Calm s.proc s'.proc)
    (hholder : ∀ p, p ≠ a → s.holder .ptable = some p → s'.holder .ptable = some p)
    (hrun : ∀ p, p ≠ a → (s.proc p).state = .running → (s'.proc p).state = .running)
    (hpt : g.pt = true → s'.holder .ptable = some a) (hruns : g.doing.Runs → (s'.proc a).state = .running)
    (hturn : Turns (γ a) g) : Stages s' (Function.update γ a g) := by
  -- what a process was making, it is making now
  have hkid : ∀ p t, (Function.update γ a g p).doing = .kid t ↔ (γ p).doing = .kid t := by
    intro p t
    rcases eq_or_ne p a with rfl | hp
    · simpa using hturn.kid t
    · rw [Function.update_of_ne hp]
  have hgiven : ∀ p t, (Function.update γ a g p).doing = .given t ↔ (γ p).doing = .given t := by
    intro p t
    rcases eq_or_ne p a with rfl | hp
    · simpa using hturn.given t
    · rw [Function.update_of_ne hp]
  refine ⟨fun p hp => ?_, fun p hp => ?_, fun p t hp => ?_, fun p t hp => ?_, fun p q t hp hq => ?_,
    fun t q ht hq => ?_, fun p hp => ?_⟩
  · rcases eq_or_ne p a with rfl | hpa
    · rw [Function.update_self] at hp
      exact hpt hp
    · rw [Function.update_of_ne hpa] at hp
      exact hholder p hpa (h.pt p hp)
  · rcases eq_or_ne p a with rfl | hpa
    · rw [Function.update_self] at hp
      exact hruns hp
    · rw [Function.update_of_ne hpa] at hp
      exact hrun p hpa (h.runs p hp)
  · rw [hkid] at hp
    rw [hc.embryo_iff, hc.parent]
    exact h.kid p t hp
  · rw [hgiven] at hp
    rw [hc.embryo_iff, hc.parent]
    exact h.given p t hp
  · simp only [Doing.Makes, hkid, hgiven] at hp hq
    exact h.unique p q t hp hq
  · rw [hc.embryo_iff] at ht
    rw [hc.parent] at hq
    rw [hgiven]
    exact h.embryo t q ht hq
  · simp only [hc.parent, Ne, hc.zombie_iff]
    rcases eq_or_ne p a with rfl | hpa
    · rw [Function.update_self] at hp ⊢
      obtain ⟨hs, hpt'⟩ := hturn.scanned hp
      exact ⟨hpt', (h.scanned p hs).2⟩
    · rw [Function.update_of_ne hpa] at hp ⊢
      exact h.scanned p hp

/-- The step rule for sections that leave the processes as they are. -/
theorem LifeInv.calm (h : LifeInv initproc s γ) (ho : Others a es s s') (hes : ∀ e ∈ es, e.Aside)
    (hc : Calm s.proc s'.proc) (hn : s'.nextpid = s.nextpid)
    (hsleep : ∀ p, (s'.proc p).state = .sleeping →
      (s.proc p).state = .sleeping ∧ (s'.proc p).chan = (s.proc p).chan ∨
      (s'.proc p).chan = some (.proc p) ∧ ∀ q, (s.proc q).parent = some p → (s.proc q).state ≠ .zombie)
    (hkilled : (∀ e ∈ s'.log, e.Fits) → ∀ t, (s.proc t).state = .unused →
      (s'.proc t).killed = (s.proc t).killed)
    (hrun : ∀ p, p ≠ a → (s.proc p).state = .running → (s'.proc p).state = .running)
    (hpt : g.pt = true → s'.holder .ptable = some a) (hruns : g.doing.Runs → (s'.proc a).state = .running)
    (hturn : Turns (γ a) g) : LifeInv initproc s' (update γ a g) where
  tree := h.tree.calm hc hsleep
  stages := h.stages.calm hc (ho.holder _) hrun hpt hruns hturn
  past hlt := by
    rw [ho.log, allocs_aside hes] at hlt
    exact (h.past hlt).calm hc hn ho.log hes
  fresh hfits := by
    refine (h.fresh fun e he => hfits e ?_).calm hc ho.log hes (hkilled hfits)
    rw [ho.log]
    exact List.mem_append_right _ he

theorem Calm.refl (P : Fin n → Process n) : Calm P P := ⟨fun _ => rfl, fun _ => rfl, fun _ => .inl rfl⟩

end

/-! ## Sections that change one slot -/

section

variable {initproc p : Fin n} {t : Fin n} {s s' : Kernel n} {γ : Fin n → Post n} {y : Process n}

/-- Nobody is the child of a slot that is not alive. -/
theorem Tree.childless {P : Fin n → Process n} (h : Tree initproc P) {u : Fin n}
    (ht : ¬(P t).state.Alive) : (P u).parent ≠ some t := by
  intro hu
  by_cases hunused : (P u).state = .unused
  · rw [h.unused u hunused] at hu
    cases hu
  · by_cases hinit : u = initproc
    · rw [hinit, h.init_parent] at hu
      cases hu
    · rcases h.parents u hunused hinit with ⟨hn, -⟩ | ⟨q, hq, hal⟩
      · rw [hn] at hu
        cases hu
      · obtain rfl := Option.some.inj (hq.symm.trans hu)
        exact ht hal

/-- A slot that is not alive is filled, emptied or made into a process. -/
theorem Tree.update {P : Fin n → Process n} (h : Tree initproc P)
    (ht : ¬(P t).state.Alive)
    (hy : y.state ≠ .unused → y.parent = none ∧ y.state = .embryo ∨
      ∃ q, y.parent = some q ∧ (P q).state.Alive)
    (hun : y.state = .unused → y.parent = none) (hz : y.state ≠ .zombie) (hs : y.state ≠ .sleeping) :
    Tree initproc (update P t y) := by
  have hne : ∀ q, (P q).state.Alive → q ≠ t := by
    rintro q hq rfl
    exact ht hq
  have hinit := hne _ h.init_alive
  refine ⟨?_, ?_, fun u hu hui => ?_, fun u hu => ?_, fun u => ?_, fun q hq => ?_⟩
  · rw [update_of_ne hinit]
    exact h.init_alive
  · rw [update_of_ne hinit]
    exact h.init_parent
  · rcases eq_or_ne u t with rfl | hut
    · rw [update_self] at hu ⊢
      refine (hy hu).imp_right ?_
      rintro ⟨q, hq, hal⟩
      exact ⟨q, hq, by rwa [update_of_ne (hne q hal)]⟩
    · rw [update_of_ne hut] at hu ⊢
      refine (h.parents u hu hui).imp_right ?_
      rintro ⟨q, hq, hal⟩
      exact ⟨q, hq, by rwa [update_of_ne (hne q hal)]⟩
  · rcases eq_or_ne u t with rfl | hut
    · rw [update_self] at hu ⊢
      exact hun hu
    · rw [update_of_ne hut] at hu ⊢
      exact h.unused u hu
  · rcases eq_or_ne u t with rfl | hut
    · rw [update_self]
      intro hself
      by_cases hyu : y.state = .unused
      · rw [hun hyu] at hself
        cases hself
      · rcases hy hyu with ⟨hn, -⟩ | ⟨q, hq, hal⟩
        · rw [hn] at hself
          cases hself
        · exact hne q hal (Option.some.inj (hq.symm.trans hself))
    · rw [update_of_ne hut]
      exact h.noSelf u
  · have hqt : q ≠ t := by
      rintro rfl
      rw [update_self] at hq
      exact hs hq
    rw [update_of_ne hqt] at hq ⊢
    refine ⟨(h.sleepers q hq).1, fun u hu => ?_⟩
    rcases eq_or_ne u t with rfl | hut
    · rw [update_self]
      exact hz
    · rw [update_of_ne hut] at hu ⊢
      exact (h.sleepers q hq).2 u hu

theorem allocs_alloc {b : Bool} {log : List (Event n)} :
    allocs (.alloc t b :: log) = allocs log + 1 := by simp [allocs]

/-- `allocproc` takes a slot that is not in use, and gives it a new pid. -/
theorem Past.alloc (h : Past initproc s) (htree : Tree initproc s.proc)
    (ht : (s.proc t).state = .unused)
    (hproc : s'.proc = update s.proc t { s.proc t with state := .embryo, pid := s.nextpid })
    (hnext : s'.nextpid = s.nextpid + 1) (hlog : s'.log = .alloc t (s.proc t).killed :: s.log)
    (hlt : allocs s'.log < 2 ^ 31) : Past initproc s' := by
  have hcount : allocs s'.log = allocs s.log + 1 := by rw [hlog, allocs_alloc]
  have hnext' : s'.nextpid.toNat = s.nextpid.toNat + 1 := by
    rw [hnext, BitVec.toNat_add, h.next]
    rw [hcount] at hlt
    simp
    omega
  have hother : ∀ u, u ≠ t → s'.proc u = s.proc u := fun u hu => by
    rw [hproc, update_of_ne hu]
  have hself : s'.proc t = { s.proc t with state := .embryo, pid := s.nextpid } := by
    rw [hproc, update_self]
  have hmem : ∀ e, e ∈ s'.log → e ≠ .alloc t (s.proc t).killed → e ∈ s.log := by
    intro e he hne
    rw [hlog] at he
    exact (List.mem_cons.mp he).resolve_left hne
  -- the new pid has not been used before
  have hfresh : ∀ pid : BitVec 32, pid.toNat < s.nextpid.toNat → s.nextpid ≠ pid := by
    rintro pid hpid rfl
    exact lt_irrefl _ hpid
  refine ⟨?_, fun u hu => ?_, fun u v hu hv huv => ?_, fun u hu => ?_, fun w pid hw => ?_,
    fun q w pid hw => ?_, fun q w pid h' hs => ?_⟩
  · rw [hnext', hcount, h.next]
  · rw [hnext']
    by_cases hut : u = t
    · rw [hut, hself]
      exact Nat.lt_succ_self _
    · rw [hother u hut] at hu ⊢
      exact Nat.lt_succ_of_lt (h.lt u hu)
  · by_cases hut : u = t <;> by_cases hvt : v = t
    · rw [hut, hvt]
    · rw [hut, hself, hother v hvt] at huv
      rw [hother v hvt] at hv
      exact absurd huv (hfresh _ (h.lt v hv))
    · rw [hvt, hself, hother u hut] at huv
      rw [hother u hut] at hu
      exact absurd huv.symm (hfresh _ (h.lt u hu))
    · rw [hother u hut] at hu huv
      rw [hother v hvt] at hv huv
      exact h.inj u v hu hv huv
  · by_cases hut : u = t
    · rw [hut, hself] at hu
      cases hu
    · rw [hother u hut] at hu ⊢
      rw [hlog]
      exact List.mem_cons_of_mem _ (h.exited u hu)
  · obtain ⟨hpid, hpar⟩ := h.forked w pid (hmem _ hw (by simp))
    refine ⟨hnext' ▸ Nat.lt_succ_of_lt hpid, fun u hu hup => ?_⟩
    by_cases hut : u = t
    · rw [hut, hself] at hup
      exact absurd hup (hfresh pid hpid)
    · rw [hother u hut] at hu hup ⊢
      obtain ⟨q, hq, hqw⟩ := hpar u hu hup
      have hqt : q ≠ t := by
        rintro rfl
        exact htree.childless (by simp [ht, ProcState.Alive]) hq
      exact ⟨q, hq, by rwa [hother q hqt]⟩
  · obtain ⟨hpid, hne⟩ := h.reaped q w pid (hmem _ hw (by simp))
    refine ⟨hnext' ▸ Nat.lt_succ_of_lt hpid, fun u hu => ?_⟩
    by_cases hut : u = t
    · rw [hut, hself]
      exact hfresh pid hpid
    · rw [hother u hut] at hu ⊢
      exact hne u hu
  · rw [hlog] at hs
    obtain ⟨hex, honce, hby⟩ :=
      h.order q w pid h' ((List.suffix_cons_iff.mp hs).resolve_left (by simp))
    exact ⟨hex, honce, fun w' hw => hby w' (hmem _ hw (by simp))⟩

/-- A section that makes no new pid and reaps nobody. -/
theorem Past.step {es : List (Event n)} (h : Past initproc s)
    (hnext : s'.nextpid = s.nextpid) (hlog : s'.log = es ++ s.log)
    (hcount : allocs s'.log = allocs s.log) (hreaped : ∀ q w pid, .reaped q w pid ∉ es)
    (hsub : ∀ u, (s'.proc u).state ≠ .unused →
      (s.proc u).state ≠ .unused ∧ (s'.proc u).pid = (s.proc u).pid)
    (hzombie : ∀ u, (s'.proc u).state = .zombie → .exited (s.proc u).pid ∈ s'.log)
    (hparent : ∀ u w, (s'.proc u).state ≠ .unused →
      (∃ q, (s.proc u).parent = some q ∧ ((s.proc q).pid = w ∨ q = initproc)) →
      ∃ q, (s'.proc u).parent = some q ∧ ((s'.proc q).pid = w ∨ q = initproc))
    (hforked : ∀ w pid, .forked w pid ∈ es →
      (∃ t, (s.proc t).state ≠ .unused ∧ (s.proc t).pid = pid) ∧
      ∀ t, (s'.proc t).state ≠ .unused → (s.proc t).pid = pid →
        ∃ q, (s'.proc t).parent = some q ∧ ((s'.proc q).pid = w ∨ q = initproc)) :
    Past initproc s' where
  next := by rw [hnext, hcount, h.next]
  lt u hu := by
    obtain ⟨hu', hpid⟩ := hsub u hu
    rw [hnext, hpid]
    exact h.lt u hu'
  inj u v hu hv huv := by
    obtain ⟨hu', hpu⟩ := hsub u hu
    obtain ⟨hv', hpv⟩ := hsub v hv
    exact h.inj u v hu' hv' (by rwa [← hpu, ← hpv])
  exited u hu := by
    have hne : (s'.proc u).state ≠ .unused := by
      rw [hu]
      nofun
    rw [(hsub u hne).2]
    exact hzombie u hu
  forked w pid hw := by
    rw [hnext]
    rw [hlog, List.mem_append] at hw
    rcases hw with hw | hw
    · obtain ⟨⟨t, ht, rfl⟩, hpar⟩ := hforked w pid hw
      exact ⟨h.lt t ht, fun u hu hup => hpar u hu ((hsub u hu).2 ▸ hup)⟩
    · obtain ⟨hpid, hpar⟩ := h.forked w pid hw
      refine ⟨hpid, fun u hu hup => hparent u w hu ?_⟩
      obtain ⟨hu', hpu⟩ := hsub u hu
      exact hpar u hu' (hpu ▸ hup)
  reaped q w pid hw := by
    rw [hlog, List.mem_append] at hw
    obtain ⟨hpid, hne⟩ := h.reaped q w pid (hw.resolve_left (hreaped q w pid))
    refine ⟨hnext ▸ hpid, fun u hu => ?_⟩
    obtain ⟨hu', hpu⟩ := hsub u hu
    rw [hpu]
    exact hne u hu'
  order q w pid h' hs := by
    rw [hlog] at hs
    have hs' := suffix_of_notMem hs (hreaped q w pid)
    obtain ⟨hex, honce, hby⟩ := h.order q w pid h' hs'
    refine ⟨hex, honce, fun w' hw => ?_⟩
    rw [hlog, List.mem_append] at hw
    rcases hw with hw | hw
    · -- the pid of a process that is in the table has not been returned by `wait`
      obtain ⟨⟨t, ht, hpid⟩, -⟩ := hforked w' pid hw
      exact absurd hpid ((h.reaped q w pid (hs'.subset List.mem_cons_self)).2 t ht)
    · exact hby w' hw

/-- The same, where only the slot `t` changes, which is not alive. -/
theorem Past.update {es : List (Event n)}
    (h : Past initproc s) (htree : Tree initproc s.proc) (ht : ¬(s.proc t).state.Alive)
    (hproc : s'.proc = update s.proc t y) (hnext : s'.nextpid = s.nextpid)
    (hlog : s'.log = es ++ s.log) (hcount : allocs s'.log = allocs s.log)
    (hreaped : ∀ q w pid, .reaped q w pid ∉ es) (hz : y.state ≠ .zombie)
    (hy : y.state ≠ .unused → (s.proc t).state ≠ .unused ∧ y.pid = (s.proc t).pid)
    (hpar : y.state ≠ .unused → ∀ q, (s.proc t).parent = some q → y.parent = some q)
    (hforked : ∀ w pid, .forked w pid ∈ es → pid = (s.proc t).pid ∧ (s.proc t).state ≠ .unused ∧
      ∃ q, y.parent = some q ∧ q ≠ t ∧ (s.proc q).pid = w) : Past initproc s' := by
  have hother : ∀ u, u ≠ t → s'.proc u = s.proc u := fun u hu => by
    rw [hproc, update_of_ne hu]
  have hself : s'.proc t = y := by rw [hproc, update_self]
  have hparent : ∀ u q, (s.proc u).parent = some q → q ≠ t := by
    rintro u q hu rfl
    exact htree.childless ht hu
  refine h.step hnext hlog hcount hreaped (fun u hu => ?_) (fun u hu => ?_) (fun u w hu hq => ?_)
    (fun w pid hw => ?_)
  · by_cases hut : u = t
    · rw [hut, hself] at hu ⊢
      exact hy hu
    · rw [hother u hut] at hu ⊢
      exact ⟨hu, rfl⟩
  · have hut : u ≠ t := by
      rintro rfl
      rw [hself] at hu
      exact hz hu
    rw [hother u hut] at hu
    rw [hlog]
    exact List.mem_append_right _ (h.exited u hu)
  · obtain ⟨q, hq, hw⟩ := hq
    have hqt := hparent u q hq
    refine ⟨q, ?_, by rwa [hother q hqt]⟩
    by_cases hut : u = t
    · rw [hut, hself] at hu ⊢
      exact hpar hu q (hut ▸ hq)
    · rwa [hother u hut]
  · obtain ⟨rfl, hun, q, hq, hqt, hw⟩ := hforked w pid hw
    refine ⟨⟨t, hun, rfl⟩, fun u hu hup => ?_⟩
    have hut : u = t := by
      by_contra hne
      rw [hother u hne] at hu
      exact hne (h.inj u t hu hun hup)
    rw [hut, hself]
    exact ⟨q, hq, .inl (by rw [hother q hqt, hw])⟩

/-- `wait` gives back the slot of a child `t` of `p` that has exited. -/
theorem Past.reap (h : Past initproc s) (htree : Tree initproc s.proc)
    (ht : (s.proc t).state = .zombie) (hpar : (s.proc t).parent = some p) :
    Past initproc (s.reap p t) := by
  have hother : ∀ u, u ≠ t → (s.reap p t).proc u = s.proc u := fun u hu => by
    simp [Kernel.reap, update_of_ne hu]
  have hlog : (s.reap p t).log = .reaped p (s.proc p).pid (s.proc t).pid :: s.log := rfl
  have ht' : (s.proc t).state ≠ .unused := by simp [ht]
  have hsub : ∀ u, ((s.reap p t).proc u).state ≠ .unused →
      u ≠ t ∧ (s.reap p t).proc u = s.proc u ∧ (s.proc u).state ≠ .unused := by
    intro u hu
    have hut : u ≠ t := by
      rintro rfl
      simp [Kernel.reap] at hu
    exact ⟨hut, hother u hut, hother u hut ▸ hu⟩
  refine ⟨?_, fun u hu => ?_, fun u v hu hv huv => ?_, fun u hu => ?_, fun w pid hw => ?_,
    fun q w pid hw => ?_, fun q w pid h' hs => ?_⟩
  · have hcount : allocs (s.reap p t).log = allocs s.log := by simp [hlog, allocs]
    rw [hcount]
    exact h.next
  · obtain ⟨-, heq, hu'⟩ := hsub u hu
    rw [heq]
    exact h.lt u hu'
  · obtain ⟨-, hequ, hu'⟩ := hsub u hu
    obtain ⟨-, heqv, hv'⟩ := hsub v hv
    rw [hequ, heqv] at huv
    exact h.inj u v hu' hv' huv
  · obtain ⟨-, heq, -⟩ := hsub u (by simp [hu])
    rw [heq] at hu ⊢
    exact List.mem_cons_of_mem _ (h.exited u hu)
  · obtain ⟨hpid, hq⟩ := h.forked w pid (by simpa [hlog] using hw)
    refine ⟨hpid, fun u hu hup => ?_⟩
    obtain ⟨-, heq, hu'⟩ := hsub u hu
    rw [heq] at hup ⊢
    obtain ⟨q, hq, hqw⟩ := hq u hu' hup
    have hqt : q ≠ t := by
      rintro rfl
      exact htree.childless (by simp [ht, ProcState.Alive]) hq
    exact ⟨q, hq, by rwa [hother q hqt]⟩
  · rw [hlog, List.mem_cons] at hw
    rcases hw with hw | hw
    · obtain ⟨-, -, rfl⟩ := Event.reaped.inj hw
      refine ⟨h.lt t ht', fun u hu hup => ?_⟩
      obtain ⟨hut, heq, hu'⟩ := hsub u hu
      rw [heq] at hup
      exact hut (h.inj u t hu' ht' hup)
    · obtain ⟨hpid, hne⟩ := h.reaped q w pid hw
      refine ⟨hpid, fun u hu => ?_⟩
      obtain ⟨-, heq, hu'⟩ := hsub u hu
      rw [heq]
      exact hne u hu'
  · have hforked : ∀ w', .forked w' pid ∈ (s.reap p t).log → .forked w' pid ∈ s.log := fun w' hw => by
      simpa [hlog] using hw
    rw [hlog, List.suffix_cons_iff] at hs
    rcases hs with hs | hs
    · obtain ⟨hev, rfl⟩ := List.cons.inj hs
      obtain ⟨rfl, rfl, rfl⟩ := Event.reaped.inj hev
      refine ⟨h.exited t ht, fun q' w' hr => (h.reaped q' w' _ hr).2 t ht' rfl, fun w' hw => ?_⟩
      obtain ⟨r, hr, hrw⟩ := (h.forked w' _ (hforked w' hw)).2 t ht' rfl
      rw [hpar] at hr
      rwa [Option.some.inj hr]
    · obtain ⟨hex, honce, hby⟩ := h.order q w pid h' hs
      exact ⟨hex, honce, fun w' hw => hby w' (hforked w' hw)⟩

theorem Stages.makes (h : Stages s γ) {q : Fin n} (hq : (γ q).doing.Makes t) : (s.proc t).state = .embryo := by
  rcases hq with hq | hq
  · exact (h.kid q t hq).1
  · exact (h.given q t hq).1

/-- What holds of the processes other than `p`, when `p` turns to `g` and the entry of the slot `t`,
which no other process is making, is changed. -/
theorem Stages.update {g : Post n}
    (h : Stages s γ) (hproc : s'.proc = Function.update s.proc t y) (hholder : s'.holder = s.holder)
    (hrun : (s.proc t).state ≠ .running) (hmake : ∀ q, q ≠ p → ¬(γ q).doing.Makes t)
    (hpt : g.pt = (γ p).pt) (hruns : g.doing.Runs → (γ p).doing.Runs)
    (hkid : ∀ u, g.doing = .kid u → u = t ∧ y.state = .embryo ∧ y.parent = none)
    (hgiven : ∀ u, g.doing = .given u → u = t ∧ y.state = .embryo ∧ y.parent = some p)
    (hold : ∀ u, u ≠ t → ¬(γ p).doing.Makes u) (hscan : g.doing ≠ .scanned)
    (hself : y.state = .embryo → ∀ q, y.parent = some q → q = p ∧ g.doing = .given t)
    (hz : y.state ≠ .zombie) : Stages s' (Function.update γ p g) := by
  have hother : ∀ u, u ≠ t → s'.proc u = s.proc u := fun u hu => by
    rw [hproc, Function.update_of_ne hu]
  have hself' : s'.proc t = y := by rw [hproc, Function.update_self]
  have hnt : ∀ q u, q ≠ p → (γ q).doing.Makes u → u ≠ t := by
    rintro q u hq hm rfl
    exact hmake q hq hm
  have hnew : ∀ u, g.doing.Makes u → u = t := by
    rintro u (hu | hu)
    · exact (hkid u hu).1
    · exact (hgiven u hu).1
  refine ⟨fun q hq => ?_, fun q hq => ?_, fun q u hq => ?_, fun q u hq => ?_, fun q r u hq hr => ?_,
    fun u q hu hq => ?_, fun q hq => ?_⟩
  · rw [hholder]
    rcases eq_or_ne q p with rfl | hqp
    · rw [Function.update_self, hpt] at hq
      exact h.pt q hq
    · rw [Function.update_of_ne hqp] at hq
      exact h.pt q hq
  · have hq' : (s.proc q).state = .running := by
      rcases eq_or_ne q p with rfl | hqp
      · rw [Function.update_self] at hq
        exact h.runs q (hruns hq)
      · rw [Function.update_of_ne hqp] at hq
        exact h.runs q hq
    have hqt : q ≠ t := by
      rintro rfl
      exact hrun hq'
    rwa [hother q hqt]
  · rcases eq_or_ne q p with rfl | hqp
    · rw [Function.update_self] at hq
      obtain ⟨rfl, hy⟩ := hkid u hq
      rwa [hself']
    · rw [Function.update_of_ne hqp] at hq
      rw [hother u (hnt q u hqp (.inl hq))]
      exact h.kid q u hq
  · rcases eq_or_ne q p with rfl | hqp
    · rw [Function.update_self] at hq
      obtain ⟨rfl, hy⟩ := hgiven u hq
      rwa [hself']
    · rw [Function.update_of_ne hqp] at hq
      rw [hother u (hnt q u hqp (.inr hq))]
      exact h.given q u hq
  · by_cases hqp : q = p <;> by_cases hrp : r = p
    · rw [hqp, hrp]
    · subst hqp
      rw [Function.update_self] at hq
      rw [Function.update_of_ne hrp] at hr
      exact absurd (hnew u hq) (hnt r u hrp hr)
    · subst hrp
      rw [Function.update_self] at hr
      rw [Function.update_of_ne hqp] at hq
      exact absurd (hnew u hr) (hnt q u hqp hq)
    · rw [Function.update_of_ne hqp] at hq
      rw [Function.update_of_ne hrp] at hr
      exact h.unique q r u hq hr
  · rcases eq_or_ne u t with rfl | hut
    · rw [hself'] at hu hq
      obtain ⟨rfl, hg⟩ := hself hu q hq
      rwa [Function.update_self]
    · rw [hother u hut] at hu hq
      have hd := h.embryo u q hu hq
      have hqp : q ≠ p := by
        rintro rfl
        exact hold u hut (.inr hd)
      rwa [Function.update_of_ne hqp]
  · have hqp : q ≠ p := by
      rintro rfl
      rw [Function.update_self] at hq
      exact hscan hq
    rw [Function.update_of_ne hqp] at hq ⊢
    refine ⟨(h.scanned q hq).1, fun u hu => ?_⟩
    by_cases hut : u = t
    · rw [hut, hself']
      exact hz
    · rw [hother u hut] at hu ⊢
      exact (h.scanned q hq).2 u hu

/-- A process that holds `ptable.lock` has looked at all its children. -/
theorem Stages.scan (h : Stages s γ) (hg : γ p = ⟨true, .busy⟩)
    (hkids : ∀ q, (s.proc q).parent = some p → (s.proc q).state ≠ .zombie) :
    Stages s (Function.update γ p ⟨true, .scanned⟩) := by
  -- a process that is making a slot is another one
  have hmakes : ∀ q u, (Function.update γ p ⟨true, .scanned⟩ q).doing.Makes u → q ≠ p := by
    rintro q u hq rfl
    rw [Function.update_self] at hq
    rcases hq with hq | hq <;> cases hq
  have hother : ∀ {q}, q ≠ p → Function.update γ p ⟨true, .scanned⟩ q = γ q := fun hq =>
    Function.update_of_ne hq _ _
  refine ⟨fun q hq => ?_, fun q hq => ?_, fun q u hq => ?_, fun q u hq => ?_, fun q r u hq hr => ?_,
    fun u q hu hq => ?_, fun q hq => ?_⟩
  · by_cases hqp : q = p
    · rw [hqp]
      exact h.pt p (by rw [hg])
    · exact h.pt q (hother hqp ▸ hq)
  · by_cases hqp : q = p
    · rw [hqp]
      exact h.runs p (by rw [hg]; trivial)
    · exact h.runs q (hother hqp ▸ hq)
  · exact h.kid q u (hother (hmakes q u (.inl hq)) ▸ hq)
  · exact h.given q u (hother (hmakes q u (.inr hq)) ▸ hq)
  · exact h.unique q r u (hother (hmakes q u hq) ▸ hq) (hother (hmakes r u hr) ▸ hr)
  · have hd := h.embryo u q hu hq
    have hqp : q ≠ p := by
      rintro rfl
      rw [hg] at hd
      cases hd
    rwa [hother hqp]
  · by_cases hqp : q = p
    · rw [hqp, Function.update_self]
      exact ⟨rfl, hkids⟩
    · rw [hother hqp] at hq ⊢
      exact h.scanned q hq

end

end Xv6.Proc
