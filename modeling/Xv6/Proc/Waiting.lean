import Xv6.Proc.WaitRules

/-!
# Pipes, kills, and processes that wait

What holds in every run of any number of processes that write to, read from and close pipes, read
from the console, sleep, and kill each other: pipes deliver bytes in order; a process does not sleep
next to a pipe that is ready for it, provided that no writer gives up after putting bytes into the
pipe; and a process does not sleep when it is killed, provided that the kill does not come between
its test and its sleep.
-/

namespace Xv6.Proc

open Conc

variable {n : ℕ}

/-! ## Bytes come out in the order in which they went in -/

instance : ∀ (s : Kernel n) p l k, Decidable ((waiters (n := n)).allowed s p l k) :=
  fun _ _ _ _ => .isTrue trivial

/-- Three bytes are written, two are read, one more is read after the write end has been closed; then
a reader is about to find that nothing is left. -/
def endOfPipe : List (Move (waiters (n := 2))) :=
  .start 0 (.pipewrite 0 (fun i => i.toUInt8) 3 4) :: List.replicate 11 (.next 0) ++
  .start 1 (.piperead 0 2 1) :: List.replicate 7 (.next 1) ++
  .start 0 (.pipeclose 0 true) :: List.replicate 6 (.next 0) ++
  .start 1 (.piperead 0 2 1) :: List.replicate 7 (.next 1) ++
  .start 1 (.piperead 0 2 1) :: List.replicate 2 (.next 1)

def atEnd : Config (Kernel 2) (Fin 2) Unit :=
  (schedule waiters endOfPipe (idle (.fresh 2))).getD (idle (.fresh 2))

def pastEnd : Config (Kernel 2) (Fin 2) Unit := (atEnd.move waiters (.next 1)).getD atEnd

theorem nobody_sleeps_on_ready_pipe {s : Kernel n} (hs : Started s)
    {c : Config (Kernel n) (Fin n) Unit} (hr : Reach waiters (idle s) c)
    (hclean : GivesUpClean c.shared.log) {k : ℕ} (hfree : c.shared.holder (.pipe k) = none) (q : Fin n)
    (hq : (c.shared.proc q).state = .sleeping) :
    ((c.shared.proc q).chan = some (.nread k) →
      (c.shared.data.pipe k).empty = true ∧ (c.shared.data.pipe k).writeopen = true) ∧
    ((c.shared.proc q).chan = some (.nwrite k) →
      (c.shared.data.pipe k).full = true ∧ (c.shared.data.pipe k).readopen = true) := by
  obtain ⟨γ, hI⟩ := waitInv_of_reach hs hr
  -- a process that owes a wakeup holds the lock
  have hnone : ∀ p d, (γ p).pipe ≠ some (k, d) := by
    intro p d hp
    have := (hI.locks.pipe p k d hp).1
    simp [hfree] at this
  constructor
  · intro hc
    have hnot : ¬(c.shared.data.pipe k).Readable := by
      intro hready
      obtain ⟨p, d, hp, -⟩ := hI.ready.readers hclean k q (.inl ⟨hq, hc⟩) hready
      exact hnone p d hp
    simpa [Pipe.Readable] using hnot
  · intro hc
    have hnot : ¬(c.shared.data.pipe k).Writable := by
      intro hready
      obtain ⟨p, d, hp, -⟩ := hI.ready.writers k q (.inl ⟨hq, hc⟩) hready
      exact hnone p d hp
    simpa [Pipe.Writable] using hnot

/-- A reader falls asleep next to an empty pipe. -/
def waitForByte : List (Move (waiters (n := 2))) :=
  .start 0 (.piperead 0 1 2) :: List.replicate 7 (.next 0)

def inBed : Config (Kernel 2) (Fin 2) Unit :=
  (schedule waiters waitForByte (idle (.fresh 2))).getD (idle (.fresh 2))

theorem nobody_sleeps_on_ready_pipe_inBed :
    (inBed.shared.proc 0).state = .sleeping ∧ (inBed.shared.data.pipe 0).empty = true ∧
      (inBed.shared.data.pipe 0).writeopen = true := by
  have hs : schedule waiters waitForByte (idle (.fresh 2)) = some inBed := rfl
  have hlog : inBed.shared.log =
      [.slept 0 (.nread 0), .got 0 .ptable, .spared 0, .got 0 (.pipe 0)] := rfl
  have hclean : GivesUpClean inBed.shared.log := givesUpClean_of_notMem (by simp [hlog])
  exact ⟨rfl, (nobody_sleeps_on_ready_pipe started_fresh (reach_schedule hs) hclean rfl 0 rfl).1 rfl⟩

/-- A reader falls asleep next to an empty pipe. A writer that wants to write more than the pipe can
hold is killed after it has acquired the lock; it fills the pipe and gives up. -/
def fillAndGiveUp : List (Move (waiters (n := 3))) :=
  .start 0 (.piperead 0 1 2) :: List.replicate 7 (.next 0) ++
  .start 1 (.pipewrite 0 (fun _ => 7) 513 513) :: .next 1 ::
  .start 2 (.kill 2) :: List.replicate 3 (.next 2) ++ List.replicate 1027 (.next 1)

theorem reader_sleeps_next_to_full_pipe :
    ∃ c, Reach waiters (idle (.fresh 3)) c ∧ c.shared.holder (.pipe 0) = none ∧
      (c.shared.proc 0).state = .sleeping ∧ (c.shared.proc 0).chan = some (.nread 0) ∧
      (c.shared.data.pipe 0).full = true := by
  apply exists_reach_schedule fillAndGiveUp
  decide +kernel

/-! ## A killed process does not sleep -/

theorem killed_process_awake {s : Kernel n} (hs : Started s) {c : Config (Kernel n) (Fin n) Unit}
    (hr : Reach waiters (idle s) c) (hkills : KillsInTime c.shared.log) (q : Fin n) :
    ¬((c.shared.proc q).state = .sleeping ∧ (c.shared.proc q).killed = true) := by
  obtain ⟨γ, hI⟩ := waitInv_of_reach hs hr
  rintro ⟨hq, hk⟩
  have := hI.kills.safe hkills q (.inr hq)
  simp [hk] at this

/-- A reader of an empty pipe is killed in its sleep. -/
def killInBed : List (Move (waiters (n := 2))) :=
  waitForByte ++ .start 1 (.kill 1) :: List.replicate 3 (.next 1)

def outOfBed : Config (Kernel 2) (Fin 2) Unit :=
  (schedule waiters killInBed (idle (.fresh 2))).getD (idle (.fresh 2))

theorem killed_process_awake_outOfBed :
    (outOfBed.shared.proc 0).killed = true ∧ (outOfBed.shared.proc 0).state ≠ .sleeping := by
  have hs : schedule waiters killInBed (idle (.fresh 2)) = some outOfBed := rfl
  have hlog : outOfBed.shared.log = [.ready 0, .kill 1 0 .sleeping, .got 1 .ptable,
      .slept 0 (.nread 0), .got 0 .ptable, .spared 0, .got 0 (.pipe 0)] := rfl
  have hkills : KillsInTime outOfBed.shared.log := by
    simp [hlog, killsInTime_cons, killsInTime_nil, Event.turn]
  have h := killed_process_awake started_fresh (reach_schedule hs) hkills 0
  exact ⟨rfl, fun hq => h ⟨hq, rfl⟩⟩

/-- A reader of an empty pipe finds that it is not killed; then it is killed; then it falls asleep. -/
def killTooSoon : List (Move (waiters (n := 2))) :=
  .start 0 (.piperead 0 1 2) :: List.replicate 3 (.next 0) ++
  .start 1 (.kill 1) :: List.replicate 3 (.next 1) ++ List.replicate 4 (.next 0)

theorem killed_reader_sleeps :
    ∃ c, Reach waiters (idle (.fresh 2)) c ∧ .kill 1 0 .running ∈ c.shared.log ∧
      c.shared.holder .ptable = none ∧ c.shared.holder (.pipe 0) = none ∧
      (c.shared.proc 0).state = .sleeping ∧ (c.shared.proc 0).chan = some (.nread 0) ∧
      (c.shared.proc 0).killed = true := by
  apply exists_reach_schedule killTooSoon
  decide +kernel

end Xv6.Proc
