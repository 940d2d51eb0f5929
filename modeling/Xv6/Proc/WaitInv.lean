import Xv6.Lib.Fifo
import Xv6.Proc.Sleep
import Xv6.Proc.Pipe

/-!
# The invariant of the processes that wait

Four things hold in every reachable state: which locks each process holds (`Locks`), that each pipe
is the queue of the bytes written and not yet read (`Flow`), that a kill reaches a process that is
about to sleep (`Kills`), and that whoever has made a pipe ready has the sleepers still to wake up
(`Ready`). The last two hold as long as what has happened so far meets a condition on the log.
-/

namespace Xv6.Proc

open Lib
open Function (update update_self update_of_ne)

variable {n : ℕ}

/-! ## What the log says -/

/-- The bytes an event puts into pipe `k`. -/
def Event.put (k : ℕ) : Event n → List UInt8
  | .stored _ j b => if j = k then [b] else []
  | _ => []

/-- The bytes an event takes out of pipe `k`. -/
def Event.take (k : ℕ) : Event n → List UInt8
  | .took _ j _ bs => if j = k then bs else []
  | _ => []

/-- All bytes written to pipe `k`, in order. -/
def written (k : ℕ) (log : List (Event n)) : List UInt8 := log.reverse.flatMap (Event.put k)

/-- All bytes read from pipe `k`, in order. -/
def taken (k : ℕ) (log : List (Event n)) : List UInt8 := log.reverse.flatMap (Event.take k)

/-- Whether an event opens or closes the time in which `t` is about to sleep. -/
def Event.turn (t : Fin n) : Event n → Option Bool
  | .spared p => if p = t then some true else none
  | .slept p _ => if p = t then some false else none
  | _ => none

/-- Process `t` has found that it is not killed, and has not fallen asleep since. -/
def window (t : Fin n) (log : List (Event n)) : Bool := (log.findSome? (Event.turn t)).getD false

/-- Whether after an event `p` has to wake up the readers of pipe `k`. -/
def Event.feed (p : Fin n) (k : ℕ) : Event n → Option Bool
  | .stored q j _ => if q = p ∧ j = k then some true else none
  | .woke q c => if q = p ∧ c = .nread k then some false else none
  | _ => none

/-- Process `p` has put bytes into pipe `k` since it last woke up the readers. -/
def fed (p : Fin n) (k : ℕ) (log : List (Event n)) : Bool := (log.findSome? (Event.feed p k)).getD false

/-- No kill came while its target, having found that it is not killed, was about to sleep. -/
def KillsInTime (log : List (Event n)) : Prop :=
  ∀ pid t st h, .kill pid t st :: h <:+ log → window t h = false

/-- No process gave up writing to a pipe with bytes in it of which it had not told the readers. -/
def GivesUpClean (log : List (Event n)) : Prop :=
  ∀ p k h, .gaveUp p k :: h <:+ log → fed p k h = false

section

variable {log log' : List (Event n)} {e : Event n} {k : ℕ} {p t : Fin n}

@[simp] theorem written_cons : written k (e :: log) = written k log ++ e.put k := by simp [written]

@[simp] theorem taken_cons : taken k (e :: log) = taken k log ++ e.take k := by simp [taken]

@[simp] theorem window_cons : window t (e :: log) = (e.turn t).getD (window t log) := by
  cases h : e.turn t <;> simp [window, h]

@[simp] theorem fed_cons : fed p k (e :: log) = (e.feed p k).getD (fed p k log) := by
  cases h : e.feed p k <;> simp [fed, h]

theorem KillsInTime.suffix (h : KillsInTime log') (hs : log <:+ log') : KillsInTime log :=
  fun pid t st h' hk => h pid t st h' (hk.trans hs)

theorem GivesUpClean.suffix (h : GivesUpClean log') (hs : log <:+ log') : GivesUpClean log :=
  fun p k h' hk => h p k h' (hk.trans hs)

theorem killsInTime_nil : KillsInTime ([] : List (Event n)) := by
  intro pid t st h hs
  simp at hs

theorem killsInTime_cons : KillsInTime (e :: log) ↔
    (∀ pid t st, e = .kill pid t st → window t log = false) ∧ KillsInTime log := by
  constructor
  · intro h
    refine ⟨fun pid t st he => h pid t st log (he ▸ List.suffix_rfl), h.suffix ?_⟩
    exact List.suffix_cons e log
  · rintro ⟨he, h⟩ pid t st h' hs
    rcases List.suffix_cons_iff.mp hs with hs | hs
    · obtain ⟨rfl, rfl⟩ := List.cons.inj hs
      exact he pid t st rfl
    · exact h pid t st h' hs

theorem givesUpClean_of_notMem (h : ∀ p k, .gaveUp p k ∉ log) : GivesUpClean log :=
  fun p k _ hs => absurd (hs.subset (by simp)) (h p k)

/-- An event that has nothing to do with what pipes hold. -/
structure Event.Dry (e : Event n) : Prop where
  put : ∀ k, e.put k = []
  take : ∀ k, e.take k = []
  took : ∀ p k m bs, e ≠ .took p k m bs
  shut : ∀ k, e ≠ .shut k true

/-- Nor with who is about to sleep. -/
structure Event.Plain (e : Event n) : Prop extends e.Dry where
  turn : ∀ t, e.turn t = none

/-- A plain event that is not a wakeup either. -/
structure Event.Quiet (e : Event n) : Prop extends e.Plain where
  feed : ∀ p k, e.feed p k = none

variable {es : List (Event n)}

theorem written_dry (h : ∀ e ∈ es, e.Dry) : written k (es ++ log) = written k log := by
  have : es.reverse.flatMap (Event.put k) = [] := by
    simp only [List.flatMap_eq_nil_iff, List.mem_reverse]
    exact fun e he => (h e he).put k
  simp [written, this]

theorem taken_dry (h : ∀ e ∈ es, e.Dry) : taken k (es ++ log) = taken k log := by
  have : es.reverse.flatMap (Event.take k) = [] := by
    simp only [List.flatMap_eq_nil_iff, List.mem_reverse]
    exact fun e he => (h e he).take k
  simp [taken, this]

theorem window_plain (h : ∀ e ∈ es, e.Plain) : window t (es ++ log) = window t log := by
  have : es.findSome? (Event.turn t) = none :=
    List.findSome?_eq_none_iff.mpr fun e he => (h e he).turn t
  simp [window, List.findSome?_append, this]

theorem fed_quiet (h : ∀ e ∈ es, e.Quiet) : fed p k (es ++ log) = fed p k log := by
  have : es.findSome? (Event.feed p k) = none :=
    List.findSome?_eq_none_iff.mpr fun e he => (h e he).feed p k
  simp [fed, List.findSome?_append, this]

theorem quiet_got {l : Lock} : (Event.got p l).Quiet :=
  ⟨⟨⟨fun _ => rfl, fun _ => rfl, nofun, nofun⟩, fun _ => rfl⟩, fun _ _ => rfl⟩

theorem quiet_ready : (Event.ready p).Quiet :=
  ⟨⟨⟨fun _ => rfl, fun _ => rfl, nofun, nofun⟩, fun _ => rfl⟩, fun _ _ => rfl⟩

theorem quiet_kill {pid : BitVec 32} {st : ProcState} : (Event.kill pid p st).Quiet :=
  ⟨⟨⟨fun _ => rfl, fun _ => rfl, nofun, nofun⟩, fun _ => rfl⟩, fun _ _ => rfl⟩

theorem plain_woke {c : Chan n} : (Event.woke p c).Plain :=
  ⟨⟨fun _ => rfl, fun _ => rfl, nofun, nofun⟩, fun _ => rfl⟩

theorem dry_slept {c : Chan n} : (Event.slept p c).Dry := ⟨fun _ => rfl, fun _ => rfl, nofun, nofun⟩

theorem dry_spared : (Event.spared p).Dry := ⟨fun _ => rfl, fun _ => rfl, nofun, nofun⟩

theorem quiet_gaveUp : (Event.gaveUp p k).Quiet :=
  ⟨⟨⟨fun _ => rfl, fun _ => rfl, nofun, nofun⟩, fun _ => rfl⟩, fun _ _ => rfl⟩

end

/-! ## The invariant -/

/-- Where a process is: whether it holds `ptable.lock`; the pipe whose lock it holds, with the value
of that pipe; whether it has put bytes into the pipe, or has closed its write end or made room,
without having woken up those who wait for that; and what it is about to sleep on. -/
structure Place (n : ℕ) where
  pt : Bool
  pipe : Option (ℕ × Pipe)
  fed : Bool
  owesR : Bool
  owesW : Bool
  bed : Option (Chan n)

/-- Between two calls. -/
abbrev Place.out : Place n := ⟨false, none, false, false, false, none⟩

/-- A reader need not wait. -/
def Pipe.Readable (d : Pipe) : Prop := d.empty = false ∨ d.writeopen = false

/-- A writer need not wait. -/
def Pipe.Writable (d : Pipe) : Prop := d.full = false ∨ d.readopen = false

structure Locks (s : Kernel n) (γ : Fin n → Place n) : Prop where
  ptable : ∀ p, (γ p).pt = true → s.holder .ptable = some p
  pipe : ∀ p k d, (γ p).pipe = some (k, d) → s.holder (.pipe k) = some p ∧ s.data.pipe k = d

structure Flow (s : Kernel n) : Prop where
  queued : ∀ k, ∃ u, written k s.log = taken k s.log ++ u ∧
    Queued PIPESIZE (s.data.pipe k).data (s.data.pipe k).nread (s.data.pipe k).nwrite u
  shut : ∀ k, .shut k true ∈ s.log ↔ (s.data.pipe k).writeopen = false
  took : ∀ p k m h, .took p k m [] :: h <:+ s.log → 0 < m →
    written k h = taken k h ∧ .shut k true ∈ h

structure Kills (s : Kernel n) (γ : Fin n → Place n) : Prop where
  bed : ∀ p, (γ p).bed ≠ none → window p s.log = true
  safe : KillsInTime s.log → ∀ p, window p s.log = true ∨ (s.proc p).state = .sleeping →
    (s.proc p).killed = false

/-- The process sleeps on `c`, or is on the point of doing so and has released its lock. -/
def Committed (s : Kernel n) (γ : Fin n → Place n) (q : Fin n) (c : Chan n) : Prop :=
  ((s.proc q).state = .sleeping ∧ (s.proc q).chan = some c) ∨
    ((γ q).bed = some c ∧ (γ q).pipe = none)

structure Ready (s : Kernel n) (γ : Fin n → Place n) : Prop where
  handed : ∀ p k, (γ p).bed = some (.nread k) ∨ (γ p).bed = some (.nwrite k) → (γ p).pipe = none →
    (γ p).pt = true
  fed : ∀ p k d, (γ p).pipe = some (k, d) → (γ p).fed = true → fed p k s.log = true
  readers : GivesUpClean s.log → ∀ k q, Committed s γ q (.nread k) → (s.data.pipe k).Readable →
    ∃ p d, (γ p).pipe = some (k, d) ∧ ((γ p).fed = true ∨ (γ p).owesR = true)
  writers : ∀ k q, Committed s γ q (.nwrite k) → (s.data.pipe k).Writable →
    ∃ p d, (γ p).pipe = some (k, d) ∧ (γ p).owesW = true

structure WaitInv (s : Kernel n) (γ : Fin n → Place n) : Prop where
  locks : Locks s γ
  flow : Flow s
  kills : Kills s γ
  ready : Ready s γ

/-! ## What a section keeps -/

section

variable {a : Fin n} {es : List (Event n)} {s s' : Kernel n} {γ : Fin n → Place n} {g : Place n}

theorem Locks.step (h : Locks s γ) (ho : Others a es s s')
    (hpipe : ∀ p k, p ≠ a → s.holder (.pipe k) = some p → s'.data.pipe k = s.data.pipe k)
    (hpt : g.pt = true → s'.holder .ptable = some a)
    (hown : ∀ k d, g.pipe = some (k, d) → s'.holder (.pipe k) = some a ∧ s'.data.pipe k = d) :
    Locks s' (update γ a g) where
  ptable p hp := by
    rcases eq_or_ne p a with rfl | hpa
    · rw [update_self] at hp
      exact hpt hp
    · rw [update_of_ne hpa] at hp
      exact ho.holder _ p hpa (h.ptable p hp)
  pipe p k d hp := by
    rcases eq_or_ne p a with rfl | hpa
    · rw [update_self] at hp
      exact hown k d hp
    · rw [update_of_ne hpa] at hp
      obtain ⟨hh, hd⟩ := h.pipe p k d hp
      exact ⟨ho.holder _ p hpa hh, (hpipe p k hpa hh).trans hd⟩

theorem Flow.dry (h : Flow s) (hlog : s'.log = es ++ s.log) (hes : ∀ e ∈ es, e.Dry)
    (hpipe : s'.data.pipe = s.data.pipe) : Flow s' where
  queued k := by
    rw [hlog, hpipe, written_dry hes, taken_dry hes]
    exact h.queued k
  shut k := by
    have : .shut k true ∉ es := fun he => (hes _ he).shut k rfl
    rw [hlog, hpipe, ← h.shut k]
    simp [this]
  took p k m h' hs hm := by
    rw [hlog] at hs
    exact h.took p k m h' (suffix_of_notMem hs fun he => (hes _ he).took p k m [] rfl) hm

theorem Kills.step (h : Kills s γ) (hsuf : s.log <:+ s'.log)
    (hbed : ∀ p, p ≠ a → window p s'.log = window p s.log)
    (hown : g.bed ≠ none → window a s'.log = true)
    (hsafe : KillsInTime s'.log → ∀ p, window p s'.log = true ∨ (s'.proc p).state = .sleeping →
      (s'.proc p).killed = false ∨ (s'.proc p).killed = (s.proc p).killed ∧
        (window p s.log = true ∨ (s.proc p).state = .sleeping)) :
    Kills s' (update γ a g) where
  bed p hp := by
    rcases eq_or_ne p a with rfl | hpa
    · rw [update_self] at hp
      exact hown hp
    · rw [update_of_ne hpa] at hp
      rw [hbed p hpa]
      exact h.bed p hp
  safe hk p hp := by
    rcases hsafe hk p hp with hkilled | ⟨hsame, hp'⟩
    · exact hkilled
    · rw [hsame]
      exact h.safe (hk.suffix hsuf) p hp'

/-- A section that neither tests for a kill, nor kills, nor sends anyone to sleep. -/
theorem Kills.plain (h : Kills s γ) (hlog : s'.log = es ++ s.log) (hes : ∀ e ∈ es, e.Plain)
    (hown : g.bed ≠ none → (γ a).bed ≠ none)
    (hstate : ∀ p, (s'.proc p).state = .sleeping → (s.proc p).state = .sleeping)
    (hkilled : ∀ p, (s'.proc p).killed = (s.proc p).killed) : Kills s' (update γ a g) := by
  have hw : ∀ p, window p s'.log = window p s.log := fun p => by rw [hlog, window_plain hes]
  refine h.step (hlog ▸ List.suffix_append _ _) (fun p _ => hw p) (fun hb => ?_) fun _ p hp => ?_
  · rw [hw]
    exact h.bed a (hown hb)
  · refine .inr ⟨hkilled p, ?_⟩
    rw [hw] at hp
    exact hp.imp_right (hstate p)

/-- A channel of a pipe. -/
def Chan.OfPipe (c : Chan n) : Prop := ∃ k, c = .nread k ∨ c = .nwrite k

/-- Which of its debts the process `a` keeps, with the lock of the pipe. -/
structure Keeps (g g' : Place n) : Prop where
  pipe : ∀ k d, g.pipe = some (k, d) → ∃ d', g'.pipe = some (k, d')
  fed : g.fed = true → g'.fed = true
  owesR : g.owesR = true → g'.owesR = true
  owesW : g.owesW = true → g'.owesW = true

theorem Keeps.refl (g : Place n) : Keeps g g := ⟨fun _ d h => ⟨d, h⟩, id, id, id⟩

theorem Ready.step (h : Ready s γ) (hsuf : s.log <:+ s'.log)
    (hhanded : ∀ k, g.bed = some (.nread k) ∨ g.bed = some (.nwrite k) → g.pipe = none → g.pt = true)
    (hothers : ∀ p k, p ≠ a → Proc.fed p k s'.log = Proc.fed p k s.log)
    (hfed : ∀ k d, g.pipe = some (k, d) → g.fed = true → Proc.fed a k s'.log = true)
    (hcommit : ∀ q c, c.OfPipe → Committed s' (update γ a g) q c → Committed s γ q c)
    (hread : ∀ k, (s'.data.pipe k).Readable → (s.data.pipe k).Readable)
    (hwrite : ∀ k, (s'.data.pipe k).Writable → (s.data.pipe k).Writable)
    (hkeep : Keeps (γ a) g) : Ready s' (update γ a g) where
  handed p k hb hp := by
    rcases eq_or_ne p a with rfl | hpa
    · rw [update_self] at hb hp ⊢
      exact hhanded k hb hp
    · rw [update_of_ne hpa] at hb hp ⊢
      exact h.handed p k hb hp
  fed p k d hp hf := by
    rcases eq_or_ne p a with rfl | hpa
    · rw [update_self] at hp hf
      exact hfed k d hp hf
    · rw [update_of_ne hpa] at hp hf
      rw [hothers p k hpa]
      exact h.fed p k d hp hf
  readers hclean k q hq hr := by
    obtain ⟨p, d, hp, hf⟩ := h.readers (hclean.suffix hsuf) k q (hcommit q _ ⟨k, .inl rfl⟩ hq)
      (hread k hr)
    rcases eq_or_ne p a with rfl | hpa
    · obtain ⟨d', hd'⟩ := hkeep.pipe k d hp
      exact ⟨p, d', by simpa using hd', by simpa using hf.imp hkeep.fed hkeep.owesR⟩
    · exact ⟨p, d, by simpa [update_of_ne hpa] using ⟨hp, hf⟩⟩
  writers k q hq hw := by
    obtain ⟨p, d, hp, hf⟩ := h.writers k q (hcommit q _ ⟨k, .inr rfl⟩ hq) (hwrite k hw)
    rcases eq_or_ne p a with rfl | hpa
    · obtain ⟨d', hd'⟩ := hkeep.pipe k d hp
      exact ⟨p, d', by simpa using hd', by simpa using hkeep.owesW hf⟩
    · exact ⟨p, d, by simpa [update_of_ne hpa] using ⟨hp, hf⟩⟩

theorem Committed.mono {c : Chan n} {q : Fin n}
    (hproc : ∀ q, (s'.proc q).state = .sleeping → (s'.proc q).chan = some c →
      (s.proc q).state = .sleeping ∧ (s.proc q).chan = some c)
    (hbed : g.bed = some c → g.pipe = none → (γ a).bed = some c ∧ (γ a).pipe = none)
    (h : Committed s' (update γ a g) q c) : Committed s γ q c := by
  refine h.imp (fun h => hproc q h.1 h.2) fun h => ?_
  rcases eq_or_ne q a with rfl | hqa
  · rw [update_self] at h
    exact hbed h.1 h.2
  · rwa [update_of_ne hqa] at h

/-- The step rule for sections that have to do with locks only. -/
theorem WaitInv.quiet (h : WaitInv s γ) (ho : Others a es s s') (hes : ∀ e ∈ es, e.Quiet)
    (hpipe : s'.data.pipe = s.data.pipe)
    (hstate : ∀ p, (s'.proc p).state = .sleeping → (s.proc p).state = .sleeping ∧
      ((s'.proc p).chan = (s.proc p).chan ∨ (s'.proc p).chan = none))
    (hkilled : ∀ p, (s'.proc p).killed = (s.proc p).killed)
    (hpt : g.pt = true → s'.holder .ptable = some a)
    (hown : ∀ k d, g.pipe = some (k, d) → s'.holder (.pipe k) = some a ∧ s.data.pipe k = d)
    (hbed : g.bed = none ∨ g.bed = (γ a).bed ∧ g.pipe = (γ a).pipe ∧
      ((γ a).pt = true → g.pt = true ∨ g.pipe ≠ none))
    (hkeep : Keeps (γ a) g) (hfed : g.fed = true → (γ a).fed = true ∧ g.pipe = (γ a).pipe) :
    WaitInv s' (update γ a g) where
  locks := by
    refine h.locks.step ho (fun p k _ _ => by rw [hpipe]) hpt fun k d hd => ?_
    rw [hpipe]
    exact hown k d hd
  flow := h.flow.dry ho.log (fun e he => (hes e he).toDry) hpipe
  kills := by
    refine h.kills.plain ho.log (fun e he => (hes e he).toPlain) (fun hb => ?_)
      (fun p hp => (hstate p hp).1) hkilled
    rcases hbed with hb' | hb'
    · exact absurd hb' hb
    · rwa [← hb'.1]
  ready := by
    refine h.ready.step (ho.log ▸ List.suffix_append _ _) ?_
      (fun p k _ => by rw [ho.log, fed_quiet hes]) ?_ ?_ (by simp [hpipe]) (by simp [hpipe]) hkeep
    · intro k hb hp
      rcases hbed with hb' | ⟨hb', hp', hpt'⟩
      · simp [hb'] at hb
      · rw [hb'] at hb
        exact (hpt' (h.ready.handed a k hb (hp' ▸ hp))).resolve_right fun hne => hne hp
    · intro k d hd hf
      rw [ho.log, fed_quiet hes]
      obtain ⟨hf, hp⟩ := hfed hf
      exact h.ready.fed a k d (hp ▸ hd) hf
    · intro q c _ hq
      refine hq.mono (fun q hs hc => ?_) fun hb hp => ?_
      · obtain ⟨hs', hc' | hc'⟩ := hstate q hs
        · exact ⟨hs', hc' ▸ hc⟩
        · rw [hc'] at hc
          cases hc
      · rcases hbed with hb' | ⟨hb', hp', -⟩
        · simp [hb'] at hb
        · exact ⟨hb' ▸ hb, hp' ▸ hp⟩

end

end Xv6.Proc
