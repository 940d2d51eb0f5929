import Xv6.Ide.Driver

/-!
# The driver with a queue refines the one in memory

A request counts as done when the interrupt for it is handled: at that point the driver in memory makes
its call. Until then the request stays in the queue and its buffer unchanged, and its effect on the disk
is that of the hardware, which is ahead of the driver in memory by at most the first request.
-/

namespace Xv6.Ide

open Lib
open Function (update update_self update_of_ne update_apply update_eq_self)

variable {Pid Bid α : Type}

/-- The buffers of the calls of `iderw`, in their order. -/
def Label.call : Label Pid Bid α → List Bid
  | .iderw _ b => [b]
  | _ => []

def Label.used : Label Pid Bid α → List (Bid × Buf α)
  | .use b x => [(b, x)]
  | _ => []

def Mem.Op.call : Mem.Op Bid α → List Bid
  | .iderw b => [b]
  | _ => []

def Mem.Op.used : Mem.Op Bid α → List (Bid × Buf α)
  | .use b x => [(b, x)]
  | _ => []

/-- A buffer that may be in the queue. -/
structure Wanted (x : Buf α) : Prop where
  busy : x.busy = true
  ready : x.ready = false
  dev : x.dev = 1
  blockno : x.blockno < FSSIZE

/-- The hardware is at the first request of the queue, and the disk is that of the driver in memory but
for this request. -/
def Serves (s : State Pid Bid α) (q : List Bid) (m : Mem Bid α) : Prop :=
  match s.hw with
  | .idle => q = [] ∧ s.disk 1 = m.memdisk
  | .working t => ∃ b, q.head? = some b ∧ t = task (s.buf b) ∧ s.disk 1 = m.memdisk
  | .done t d => ∃ b, q.head? = some b ∧ t = task (s.buf b) ∧
      if (s.buf b).dirty then s.disk 1 = Function.update m.memdisk (s.buf b).blockno (s.buf b).data
      else s.disk 1 = m.memdisk ∧ d = m.memdisk (s.buf b).blockno

/-- The state of the driver, with the requests that it has queued and the state that the driver in memory
is in. -/
structure Inv (s : State Pid Bid α) (q : List Bid) (m : Mem Bid α) : Prop where
  havedisk1 : s.havedisk1 = true
  chain : Chain s.qnext s.idequeue q
  nodup : q.Nodup
  buf : m.buf = s.buf
  serves : Serves s q m
  /-- No two calls are for one buffer. -/
  distinct : ∀ p p' b, s.inside p = some b → s.inside p' = some b → p = p'
  queued : ∀ b ∈ q, (∃ p, s.inside p = some b) ∧ Wanted (s.buf b)
  /-- A process waits for a request in the queue, or it is awake and will find its buffer ready. -/
  waits : ∀ p b, s.inside p = some b → b ∈ q ∨ ((s.buf b).ready = true ∧ s.chan p = none)
  asleep : ∀ p b, s.chan p = some b → s.inside p = some b

section

variable {x : Buf α}

theorem Wanted.sector (h : Wanted x) : (task x).sector = x.blockno := by
  have := h.blockno
  simp only [Task.sector, task, h.dev, SECTORS, FSSIZE] at this ⊢
  omega

theorem Wanted.disk (h : Wanted x) : (task x).disk = 1 := by
  have := h.blockno
  simp only [Task.disk, task, h.dev, SECTORS, FSSIZE] at this ⊢
  omega

/-- The buffer after the request for it. -/
def Buf.served (x : Buf α) (memdisk : ℕ → α) : Buf α :=
  { x with data := if x.dirty then x.data else memdisk x.blockno, valid := true, dirty := false }

theorem Buf.ready_served {memdisk : ℕ → α} : (x.served memdisk).ready = true := rfl

end

section

variable {s : State Pid Bid α} {q : List Bid} {m : Mem Bid α} {t : State Pid Bid α} {b : Bid} {size : ℕ}

theorem Inv.initial (h : Initial s) : Inv s [] ⟨s.buf, s.disk 1⟩ where
  havedisk1 := h.havedisk1
  chain := h.idequeue
  nodup := .nil
  buf := rfl
  serves := by
    rw [Serves, h.hw]
    exact ⟨rfl, rfl⟩
  distinct p p' b hp := by simp [h.inside] at hp
  queued := by simp
  waits p b hp := by simp [h.inside] at hp
  asleep p b hp := by simp [h.chan] at hp

/-! ## The hardware -/

/-- The hardware does the first request. -/
theorem Inv.work (h : Inv s q m) : Inv s.work q m := by
  have hserves := h.serves
  cases hhw : s.hw with
  | idle =>
    rw [State.work, hhw]
    exact h
  | done t d =>
    rw [State.work, hhw]
    exact h
  | working t =>
    rw [Serves, hhw] at hserves
    obtain ⟨b, hb, rfl, hdisk⟩ := hserves
    have hw : Wanted (s.buf b) := (h.queued b (List.mem_of_mem_head? hb)).2
    by_cases hdirty : (s.buf b).dirty
    · have hwrite : (task (s.buf b)).write = some (s.buf b).data := if_pos hdirty
      have hwork : s.work = { s with
          disk := update s.disk 1 (update (s.disk 1) (s.buf b).blockno (s.buf b).data)
          hw := .done (task (s.buf b)) (s.buf b).data } := by
        simp only [State.work, hhw, hwrite, hw.disk, hw.sector]
      rw [hwork]
      refine ⟨h.havedisk1, h.chain, h.nodup, h.buf, ⟨b, hb, rfl, ?_⟩, h.distinct, h.queued, h.waits, h.asleep⟩
      dsimp only
      rw [if_pos hdirty, update_self, hdisk]
    · have hread : (task (s.buf b)).write = none := if_neg hdirty
      have hwork : s.work = { s with hw := .done (task (s.buf b)) (s.disk 1 (s.buf b).blockno) } := by
        simp only [State.work, hhw, hread, hw.disk, hw.sector]
      rw [hwork]
      refine ⟨h.havedisk1, h.chain, h.nodup, h.buf, ⟨b, hb, rfl, ?_⟩, h.distinct, h.queued, h.waits, h.asleep⟩
      dsimp only
      rw [if_neg hdirty]
      exact ⟨hdisk, by rw [hdisk]⟩

theorem work_done {t : Task α} (hhw : s.hw = .working t) :
    (∃ d, s.work.hw = .done t d) ∧ s.work.inside = s.inside := by
  cases hwrite : t.write with
  | none => simp [State.work, hhw, hwrite]
  | some d => simp [State.work, hhw, hwrite]

/-- The disk is that of the driver in memory again. -/
theorem Serves.disk {t : Task α} {d : α} (h : Serves s (b :: q) m) (hhw : s.hw = .done t d) :
    s.disk 1 =
      if (s.buf b).dirty then update m.memdisk (s.buf b).blockno (s.buf b).data else m.memdisk := by
  rw [Serves, hhw] at h
  obtain ⟨b', hb', rfl, hdisk⟩ := h
  obtain rfl : b = b' := Option.some.inj hb'
  split_ifs at hdisk ⊢ with hdirty
  · exact hdisk
  · exact hdisk.1

/-- Only the first request matters. -/
theorem Serves.congr {q' : List Bid} {m' : Mem Bid α} (h : Serves s q m)
    (hq : q'.head? = q.head?) (hhw : t.hw = s.hw) (hdisk : t.disk = s.disk)
    (hbuf : ∀ b, q.head? = some b → t.buf b = s.buf b) (hm : m'.memdisk = m.memdisk) : Serves t q' m' := by
  rw [Serves] at h ⊢
  rw [hhw, hdisk, hm, hq]
  cases hs : s.hw with
  | idle =>
    rw [hs] at h
    rw [h.1] at hq
    exact ⟨List.head?_eq_none_iff.mp hq, h.2⟩
  | working t =>
    rw [hs] at h
    obtain ⟨b, hb, hrest⟩ := h
    exact ⟨b, hb, by rwa [hbuf b hb]⟩
  | done t d =>
    rw [hs] at h
    obtain ⟨b, hb, hrest⟩ := h
    exact ⟨b, hb, by rwa [hbuf b hb]⟩

theorem Serves.hw_nil (h : Serves s [] m) : s.hw = .idle ∧ s.disk 1 = m.memdisk := by
  cases hs : s.hw with
  | idle =>
    rw [Serves, hs] at h
    exact ⟨rfl, h.2⟩
  | working t =>
    rw [Serves, hs] at h
    obtain ⟨b, hb, -⟩ := h
    cases hb
  | done t d =>
    rw [Serves, hs] at h
    obtain ⟨b, hb, -⟩ := h
    cases hb

variable [DecidableEq Bid]

/-! ## The interrupt -/

/-- The call of the driver in memory. -/
theorem iderw_mem (hsize : FSSIZE ≤ size) (hw : Wanted (m.buf b)) :
    m.iderw size b = .ok ⟨update m.buf b ((m.buf b).served m.memdisk),
      if (m.buf b).dirty then update m.memdisk (m.buf b).blockno (m.buf b).data else m.memdisk⟩ := by
  have hbusy : (!(m.buf b).busy) = false := by rw [hw.busy]; rfl
  have hblock : ¬ (m.buf b).blockno ≥ size := Nat.not_le.mpr (Nat.lt_of_lt_of_le hw.blockno hsize)
  have hdev : ¬ (m.buf b).dev ≠ 1 := not_not.mpr hw.dev
  simp only [Mem.iderw, hbusy, hw.ready, Bool.false_eq_true, if_false, if_neg hdev, if_neg hblock]
  by_cases hdirty : (m.buf b).dirty = true
  · simp only [Buf.served, hdirty, if_true]
  · have hfalse : (m.buf b).dirty = false := by simpa using hdirty
    simp only [Buf.served, hfalse, Bool.false_eq_true, if_false]

/-- The state after the first half of `ideintr`, in which the request for `b` is over. -/
def pop (s : State Pid Bid α) (b : Bid) (x : Buf α) : State Pid Bid α :=
  { s with
    idequeue := s.qnext b
    hw := .idle
    buf := Function.update s.buf b x
    chan := fun p => if s.chan p = some b then none else s.chan p }

theorem ideintr_eq {t : Task α} {d : α} (h : Inv s (b :: q) m) (hhw : s.hw = .done t d) :
    s.ideintr =
      if s.qnext b ≠ none then (pop s b ((s.buf b).served m.memdisk)).idestart (s.qnext b)
      else .ok (pop s b ((s.buf b).served m.memdisk)) := by
  have hserves := h.serves
  rw [Serves, hhw] at hserves
  obtain ⟨b', hb', rfl, hdisk⟩ := hserves
  obtain rfl : b = b' := Option.some.inj hb'
  have hqueue : s.idequeue = some b := h.chain.1
  have hdata : (if (s.buf b).dirty then (s.buf b).data else d) =
      if (s.buf b).dirty then (s.buf b).data else m.memdisk (s.buf b).blockno := by
    split_ifs with hdirty
    · rfl
    · rw [if_neg hdirty] at hdisk
      exact hdisk.2
  simp only [State.ideintr, hqueue, hhw, hdata]
  rfl

/-- The end of a request, as it is for the processes. -/
theorem Inv.pop {x : Buf α} {m' : Mem Bid α} (h : Inv s (b :: q) m) (hw : Hw α) (hx : x.ready = true)
    (hm : m'.buf = update s.buf b x) (hserves : Serves { pop s b x with hw } q m') :
    Inv { pop s b x with hw } q m' := by
  obtain ⟨hb, hq⟩ := List.nodup_cons.mp h.nodup
  refine ⟨h.havedisk1, h.chain.2, hq, hm, hserves, h.distinct, fun c hc => ?_, fun p c hp => ?_, fun p c hp => ?_⟩
  · have hne : c ≠ b := fun heq => hb (heq ▸ hc)
    obtain ⟨hin, hwant⟩ := h.queued c (List.mem_cons_of_mem _ hc)
    refine ⟨hin, ?_⟩
    dsimp only [Ide.pop]
    rwa [update_of_ne hne]
  · dsimp only [Ide.pop] at hp ⊢
    rcases eq_or_ne c b with rfl | hcb
    · refine .inr ⟨by rwa [update_self], ?_⟩
      split_ifs with hchan
      · rfl
      · -- it could only sleep on the buffer it waits for
        cases hsleep : s.chan p with
        | none => rfl
        | some c' =>
          have := h.asleep p c' hsleep
          rw [hp] at this
          exact absurd (hsleep.trans this.symm) hchan
    · rw [update_of_ne hcb]
      rcases h.waits p c hp with hmem | ⟨hready, hnone⟩
      · exact .inl ((List.mem_cons.mp hmem).resolve_left hcb)
      · exact .inr ⟨hready, by rw [hnone]; rfl⟩
  · dsimp only [Ide.pop] at hp ⊢
    split_ifs at hp
    exact h.asleep p c hp

/-- The interrupt: the driver in memory makes its call for the first request. -/
theorem Inv.intr {t : Task α} {d : α} (hsize : FSSIZE ≤ size) (h : Inv s q m) (hhw : s.hw = .done t d) :
    ∃ b q' m' s', q = b :: q' ∧ m.iderw size b = .ok m' ∧ s.ideintr = .ok s' ∧ Inv s' q' m' ∧
      s'.inside = s.inside := by
  have hserves := h.serves
  rw [Serves, hhw] at hserves
  obtain ⟨b, hb, -, -⟩ := hserves
  obtain ⟨q, rfl⟩ := List.head?_eq_some_iff.mp hb
  have hw : Wanted (m.buf b) := by
    rw [h.buf]
    exact (h.queued b List.mem_cons_self).2
  have hdisk := h.serves.disk hhw
  have hmem := iderw_mem hsize hw
  rw [h.buf] at hmem
  cases hq : q with
  | nil =>
    subst hq
    have hnext : s.qnext b = none := h.chain.2
    refine ⟨b, [], _, _, rfl, hmem, ?_, h.pop .idle Buf.ready_served rfl ⟨rfl, hdisk⟩, rfl⟩
    rw [ideintr_eq h hhw, hnext]
    rfl
  | cons c q' =>
    subst hq
    have hnext : s.qnext b = some c := h.chain.2.1
    have hne : c ≠ b := fun heq => (List.nodup_cons.mp h.nodup).1 (heq ▸ List.mem_cons_self)
    have hc : Wanted (s.buf c) := (h.queued c (by simp)).2
    have hblock : ¬ ((Ide.pop s b ((s.buf b).served m.memdisk)).buf c).blockno ≥ FSSIZE := by
      dsimp only [Ide.pop]
      rw [update_of_ne hne]
      exact Nat.not_le.mpr hc.blockno
    refine ⟨b, c :: q', _, _, rfl, hmem, ?_, h.pop (.working (task _)) Buf.ready_served rfl ⟨c, rfl, rfl, hdisk⟩, rfl⟩
    rw [ideintr_eq h hhw, hnext, if_pos (by simp), State.idestart, if_neg hblock]
    rfl

/-! ## Calls, and other steps -/

variable [DecidableEq Pid] {p : Pid}

section

omit [DecidableEq Bid]

/-- A process that waits for its request `b`, which is now at the end of the queue. -/
theorem Inv.enqueue (h : Inv s q m) (hp : s.inside p = none)
    (hb : ∀ q, s.inside q ≠ some b) (hw : Wanted (s.buf b)) (hchain : Chain t.qnext t.idequeue (q ++ [b]))
    (hserves : Serves t (q ++ [b]) m) (hbuf : t.buf = s.buf) (hdisk : t.havedisk1 = s.havedisk1)
    (hinside : t.inside = update s.inside p (some b)) (hchan : t.chan = update s.chan p (some b)) :
    Inv t (q ++ [b]) m := by
  have hnew : b ∉ q := fun hmem => by
    obtain ⟨⟨p', hp'⟩, -⟩ := h.queued b hmem
    exact hb p' hp'
  refine ⟨hdisk ▸ h.havedisk1, hchain, ?_, hbuf ▸ h.buf, hserves, ?_, ?_, ?_, ?_⟩
  · exact List.nodup_append.mpr ⟨h.nodup, List.nodup_singleton b, fun c hc c' hc' heq =>
      hnew (List.mem_singleton.mp hc' ▸ heq ▸ hc)⟩
  · intro p₁ p₂ c h₁ h₂
    rw [hinside, update_apply] at h₁ h₂
    split_ifs at h₁ h₂ with e₁ e₂ e₂
    · rw [e₁, e₂]
    · exact absurd (h₁ ▸ h₂) (hb p₂)
    · exact absurd (h₂ ▸ h₁) (hb p₁)
    · exact h.distinct p₁ p₂ c h₁ h₂
  · intro c hc
    rw [hbuf]
    rcases List.mem_append.mp hc with hc | hc
    · obtain ⟨⟨p', hp'⟩, hwant⟩ := h.queued c hc
      refine ⟨⟨p', ?_⟩, hwant⟩
      rw [hinside, update_of_ne fun heq => by simp [heq, hp] at hp']
      exact hp'
    · obtain rfl := List.mem_singleton.mp hc
      exact ⟨⟨p, by rw [hinside, update_self]⟩, hw⟩
  · intro p' c hp'
    rw [hinside, update_apply] at hp'
    split_ifs at hp' with heq
    · exact .inl (by simp [Option.some.inj hp'])
    · rw [hbuf, hchan, update_of_ne heq]
      exact (h.waits p' c hp').imp_left (List.mem_append_left _)
  · intro p' c hp'
    rw [hchan, update_apply] at hp'
    rw [hinside, update_apply]
    split_ifs at hp' ⊢ with heq
    · exact hp'
    · exact h.asleep p' c hp'

/-- A process that goes on returns if its request is done, and sleeps again otherwise. -/
theorem Inv.await (h : Inv s q m) (hp : s.inside p = some b) (hchan : s.chan p = none) : Inv (s.await p b) q m := by
  rw [State.await]
  split_ifs with hready
  · refine ⟨h.havedisk1, h.chain, h.nodup, h.buf, h.serves, ?_, ?_, ?_, ?_⟩
    · intro p₁ p₂ c h₁ h₂
      dsimp only at h₁ h₂
      rw [update_apply] at h₁ h₂
      split_ifs at h₁ h₂
      exact h.distinct p₁ p₂ c h₁ h₂
    · intro c hc
      obtain ⟨⟨p', hp'⟩, hw⟩ := h.queued c hc
      refine ⟨⟨p', ?_⟩, hw⟩
      -- the request of `p` is not in the queue, since it is done
      have hne : p' ≠ p := by
        rintro rfl
        obtain rfl : b = c := Option.some.inj (hp.symm.trans hp')
        exact Bool.false_ne_true (hw.ready.symm.trans hready)
      dsimp only
      rwa [update_of_ne hne]
    · intro p' c hp'
      dsimp only at hp'
      rw [update_apply] at hp'
      split_ifs at hp'
      exact h.waits p' c hp'
    · intro p' c hp'
      have hne : p' ≠ p := by
        rintro rfl
        exact absurd (hchan.symm.trans hp') nofun
      dsimp only
      rw [update_of_ne hne]
      exact h.asleep p' c hp'
  · have hinside : update s.inside p (some b) = s.inside := by rw [← hp, update_eq_self]
    rw [hinside]
    refine ⟨h.havedisk1, h.chain, h.nodup, h.buf, h.serves, h.distinct, h.queued, ?_, ?_⟩
    · intro p' c hp'
      rcases eq_or_ne p' p with rfl | heq
      · obtain rfl : b = c := Option.some.inj (hp.symm.trans hp')
        exact .inl ((h.waits p' b hp).resolve_right fun hr => hready hr.1)
      · dsimp only
        rw [update_of_ne heq]
        exact h.waits p' c hp'
    · intro p' c hp'
      dsimp only at hp'
      rw [update_apply] at hp'
      split_ifs at hp' with heq
      · rw [heq, hp, hp']
      · exact h.asleep p' c hp'

theorem Inv.kill (h : Inv s q m) (p : Pid) : Inv { s with chan := update s.chan p none } q m := by
  refine ⟨h.havedisk1, h.chain, h.nodup, h.buf, h.serves, h.distinct, h.queued, ?_, ?_⟩
  · intro p' c hp'
    refine (h.waits p' c hp').imp_right fun hr => ⟨hr.1, ?_⟩
    dsimp only
    rw [update_apply]
    split_ifs
    · rfl
    · exact hr.2
  · intro p' c hp'
    dsimp only at hp'
    rw [update_apply] at hp'
    split_ifs at hp'
    exact h.asleep p' c hp'

end

omit [DecidableEq Pid] in
/-- A buffer that no call is for can be filled. -/
theorem Inv.use (h : Inv s q m) (hb : ∀ p, s.inside p ≠ some b) (x : Buf α) :
    Inv { s with buf := update s.buf b x } q { m with buf := update m.buf b x } := by
  have hne : ∀ c ∈ q, c ≠ b := by
    rintro c hc rfl
    obtain ⟨⟨p, hp⟩, -⟩ := h.queued c hc
    exact hb p hp
  have hsame : ∀ c ∈ q, update s.buf b x c = s.buf c := fun c hc => update_of_ne (hne c hc) ..
  refine ⟨h.havedisk1, h.chain, h.nodup, by rw [h.buf], ?_, h.distinct, ?_, ?_, h.asleep⟩
  · exact h.serves.congr rfl rfl rfl (fun c hc => hsame c (List.mem_of_mem_head? hc)) rfl
  · intro c hc
    dsimp only
    rw [hsame c hc]
    exact h.queued c hc
  · intro p c hp
    have hcb : c ≠ b := fun heq => hb p (heq ▸ hp)
    dsimp only
    rw [update_of_ne hcb]
    exact h.waits p c hp

variable [Fintype Bid]

/-- The state in which `iderw` sleeps. -/
theorem Inv.iderw (h : Inv s q m) (hp : s.inside p = none) (hb : ∀ q, s.inside q ≠ some b)
    (hw : Wanted (s.buf b)) : ∃ s', s.iderw p b = .ok s' ∧ Inv s' (q ++ [b]) m := by
  have hchecks : s.iderw p b = do
      let t ← if (s.append b).idequeue = some b then (s.append b).idestart (some b) else .ok (s.append b)
      return t.await p b := by
    have hbusy : (!(s.buf b).busy) = false := by rw [hw.busy]; rfl
    simp only [State.iderw, hbusy, hw.ready, h.havedisk1, Bool.false_eq_true, if_false, Bool.not_true, and_false]
  have hnew : b ∉ q := fun hmem => by
    obtain ⟨⟨p', hp'⟩, -⟩ := h.queued b hmem
    exact hb p' hp'
  obtain ⟨next, happend, hchain⟩ := State.append_spec h.chain h.nodup hnew
  rw [hchecks, happend]
  cases q with
  | nil =>
    obtain ⟨hidle, hdisk⟩ := h.serves.hw_nil
    simp only [List.nil_append, List.head?_cons, State.idestart, State.work, hidle, if_true,
      if_neg (Nat.not_le.mpr hw.blockno)]
    refine ⟨_, rfl, ?_⟩
    rw [State.await, if_neg (by rw [hw.ready]; exact Bool.false_ne_true)]
    exact h.enqueue hp hb hw hchain ⟨b, rfl, rfl, hdisk⟩ rfl rfl rfl rfl
  | cons a l =>
    have hnot : (a :: l ++ [b]).head? ≠ some b := fun heq => hnew (Option.some.inj heq ▸ List.mem_cons_self)
    rw [if_neg hnot]
    refine ⟨_, rfl, ?_⟩
    rw [State.await, if_neg (by rw [hw.ready]; exact Bool.false_ne_true)]
    exact h.enqueue hp hb hw hchain (h.serves.congr rfl rfl rfl (fun _ _ => rfl) rfl) rfl rfl rfl rfl

/-! ## Runs -/

/-- One step of the driver, and what the driver in memory does at it. -/
theorem Inv.step {l : Label Pid Bid α} (hsize : FSSIZE ≤ size) (h : Inv s q m) (hl : Allowed s l) :
    ∃ s' q' m' ops, s.step l = .ok s' ∧ Inv s' q' m' ∧ m.run size ops = .ok m' ∧
      ops.flatMap Mem.Op.call ++ q' = q ++ l.call ∧ ops.flatMap Mem.Op.used = l.used := by
  cases l with
  | iderw p b =>
    obtain ⟨hp, hb, hbusy, hready, hdev, hblock⟩ := hl
    obtain ⟨s', hs', h'⟩ := h.iderw hp hb ⟨hbusy, hready, hdev, hblock⟩
    exact ⟨s', q ++ [b], m, [], hs', h', rfl, rfl, rfl⟩
  | resume p =>
    obtain ⟨hp, hchan⟩ := hl
    obtain ⟨b, hb⟩ := Option.ne_none_iff_exists'.mp hp
    exact ⟨_, q, m, [], by rw [State.step, hb], h.await hb hchan, rfl, (List.append_nil q).symm, rfl⟩
  | kill p => exact ⟨_, q, m, [], rfl, h.kill p, rfl, (List.append_nil q).symm, rfl⟩
  | hardware => exact ⟨_, q, m, [], rfl, h.work, rfl, (List.append_nil q).symm, rfl⟩
  | intr =>
    obtain ⟨t, d, hhw⟩ := hl
    obtain ⟨b, q', m', s', rfl, hmem, hs', h', -⟩ := h.intr hsize hhw
    refine ⟨s', q', m', [.iderw b], hs', h', ?_, (List.append_nil _).symm, rfl⟩
    rw [Mem.run, List.foldlM_cons, Mem.op, hmem]
    rfl
  | use b x => exact ⟨_, q, _, [.use b x], rfl, h.use hl x, rfl, (List.append_nil q).symm, rfl⟩

theorem Run.trans {u : State Pid Bid α} {ls ls' : List (Label Pid Bid α)} (h : Run s ls t) (h' : Run t ls' u) :
    Run s (ls ++ ls') u := by
  induction h' with
  | nil => rwa [List.append_nil]
  | snoc _ hl hstep ih =>
    rw [← List.append_assoc]
    exact ih.snoc hl hstep

theorem Run.single {l : Label Pid Bid α} (hl : Allowed s l) (h : s.step l = .ok t) : Run s [l] t :=
  Run.nil.snoc hl h

theorem Inv.run {s₀ : State Pid Bid α} {ls : List (Label Pid Bid α)} (hsize : FSSIZE ≤ size)
    (h₀ : Initial s₀) (h : Run s₀ ls s) :
    ∃ q m ops, Inv s q m ∧ Mem.run size ⟨s₀.buf, s₀.disk 1⟩ ops = .ok m ∧
      ops.flatMap Mem.Op.call ++ q = ls.flatMap Label.call ∧
      ops.flatMap Mem.Op.used = ls.flatMap Label.used := by
  induction h with
  | nil => exact ⟨[], _, [], .initial h₀, rfl, rfl, rfl⟩
  | @snoc ls l t u _ hl hstep ih =>
    obtain ⟨q, m, ops, hinv, hrun, hcall, hused⟩ := ih
    obtain ⟨u', q', m', ops', hu', hinv', hrun', hcall', hused'⟩ := hinv.step hsize hl
    obtain rfl : u = u' := Except.ok.inj (hstep.symm.trans hu')
    refine ⟨q', m', ops ++ ops', hinv', ?_, ?_, ?_⟩
    · rw [Mem.run] at hrun ⊢
      rw [List.foldlM_append, hrun]
      exact hrun'
    · rw [List.flatMap_append, List.append_assoc, hcall', ← List.append_assoc, hcall, List.flatMap_append]
      simp
    · rw [List.flatMap_append, List.flatMap_append, hused, hused']
      simp

/-- The hardware and its interrupts get through the queue. -/
theorem Inv.drain (hsize : FSSIZE ≤ size) (h : Inv s q m) :
    ∃ ls t m', Run s ls t ∧ (∀ l ∈ ls, l = .hardware ∨ l = .intr) ∧ Inv t [] m' ∧ t.inside = s.inside := by
  induction q generalizing s m with
  | nil => exact ⟨[], s, m, .nil, by simp, h, rfl⟩
  | cons b q ih =>
    -- let the hardware finish
    obtain ⟨ls, t, ⟨task, d, hdone⟩, hrun, hls, hinv, hin⟩ : ∃ ls t, (∃ task d, t.hw = .done task d) ∧ Run s ls t ∧
        (∀ l ∈ ls, l = .hardware ∨ l = .intr) ∧ Inv t (b :: q) m ∧ t.inside = s.inside := by
      have hserves := h.serves
      cases hhw : s.hw with
      | idle =>
        rw [Serves, hhw] at hserves
        exact absurd hserves.1 (List.cons_ne_nil b q)
      | done t d => exact ⟨[], s, ⟨t, d, hhw⟩, .nil, by simp, h, rfl⟩
      | working t =>
        obtain ⟨⟨d, hd⟩, hin⟩ := work_done hhw
        have hallowed : Allowed s (.hardware : Label Pid Bid α) := ⟨t, hhw⟩
        exact ⟨[.hardware], s.work, ⟨t, d, hd⟩, .single hallowed rfl, by simp, h.work, hin⟩
    obtain ⟨b', q', m', u, hq, -, hu, hinv', hin'⟩ := hinv.intr hsize hdone
    obtain ⟨rfl, rfl⟩ := List.cons.inj hq
    obtain ⟨ls', v, m'', hrun', hls', hinv'', hin''⟩ := ih hinv'
    have hallowed : Allowed t (.intr : Label Pid Bid α) := ⟨task, d, hdone⟩
    refine ⟨ls ++ ([.intr] ++ ls'), v, m'', hrun.trans ((Run.single hallowed hu).trans hrun'), ?_, hinv'',
      hin''.trans (hin'.trans hin)⟩
    intro l hl
    rcases List.mem_append.mp hl with hl | hl
    · exact hls l hl
    · rcases List.mem_cons.mp hl with rfl | hl
      · exact .inr rfl
      · exact hls' l hl

/-- Every call can return, with no step of another process. -/
theorem Inv.returns (hsize : FSSIZE ≤ size) (h : Inv s q m) (hp : s.inside p = some b) :
    ∃ ls t, Run s ls t ∧ (∀ l ∈ ls, l = .hardware ∨ l = .intr ∨ l = .resume p) ∧ t.inside p = none ∧
      (t.buf b).ready = true := by
  obtain ⟨ls, t, m', hrun, hls, hinv, hin⟩ := h.drain hsize
  have hp' : t.inside p = some b := by rw [hin, hp]
  obtain ⟨hready, hchan⟩ := (hinv.waits p b hp').resolve_left List.not_mem_nil
  have hallowed : Allowed t (.resume p) := ⟨by rw [hp']; nofun, hchan⟩
  have hstep : t.step (.resume p) = .ok (t.await p b) := by rw [State.step, hp']
  refine ⟨ls ++ [.resume p], t.await p b, hrun.snoc hallowed hstep, ?_, ?_, ?_⟩
  · intro l hl
    rcases List.mem_append.mp hl with hl | hl
    · exact (hls l hl).imp_right .inl
    · exact .inr (.inr (List.mem_singleton.mp hl))
  · rw [State.await, if_pos hready]
    exact update_self ..
  · rw [State.await, if_pos hready]
    exact hready

/-- After any steps, the driver in memory has made some calls without a panic: those of the requests that
are not in the queue any more, in the order in which they were queued. The buffers are the same in both,
and so is the disk but for what the hardware has done of the first request. A process that waits for a
request of the queue does not return; one whose request is done is awake, with its buffer ready. Every
step that is allowed can be taken without a panic, and every call can return. -/
theorem ide_refines_memide {size : ℕ} {s₀ s : State Pid Bid α} {ls : List (Label Pid Bid α)} (hsize : FSSIZE ≤ size)
    (h₀ : Initial s₀) (h : Run s₀ ls s) :
    ∃ q m ops, Mem.run size ⟨s₀.buf, s₀.disk 1⟩ ops = .ok m ∧
      ops.flatMap Mem.Op.call ++ q = ls.flatMap Label.call ∧
      ops.flatMap Mem.Op.used = ls.flatMap Label.used ∧
      m.buf = s.buf ∧
      Chain s.qnext s.idequeue q ∧ q.Nodup ∧ Serves s q m ∧
      (∀ p b, s.inside p = some b →
        (b ∈ q ∧ (s.buf b).ready = false) ∨ (b ∉ q ∧ (s.buf b).ready = true ∧ s.chan p = none)) ∧
      (∀ l, Allowed s l → ∃ s', s.step l = .ok s') ∧
      ∀ p b, s.inside p = some b → ∃ ls' t, Run s ls' t ∧
        (∀ l ∈ ls', l = .hardware ∨ l = .intr ∨ l = .resume p) ∧ t.inside p = none ∧ (t.buf b).ready = true := by
  obtain ⟨q, m, ops, hinv, hrun, hcall, hused⟩ := Inv.run hsize h₀ h
  refine ⟨q, m, ops, hrun, hcall, hused, hinv.buf, hinv.chain, hinv.nodup, hinv.serves, ?_, ?_, ?_⟩
  · intro p b hp
    by_cases hb : b ∈ q
    · exact .inl ⟨hb, (hinv.queued b hb).2.ready⟩
    · exact .inr ⟨hb, (hinv.waits p b hp).resolve_left hb⟩
  · intro l hl
    obtain ⟨s', -, -, -, hs', -⟩ := hinv.step hsize hl
    exact ⟨s', hs'⟩
  · intro p b hp
    exact hinv.returns hsize hp

end

/-- A system with one process and one dirty buffer. -/
def single : State Unit Unit ℕ where
  buf _ := ⟨true, false, true, 1, 7, 42⟩
  qnext _ := none
  idequeue := none
  havedisk1 := true
  hw := .idle
  disk _ _ := 0
  inside _ := none
  chan _ := none

/-- Its process writes the buffer. -/
theorem ide_refines_memide_single :
    ∃ s q m ops, Run single [.iderw () (), .hardware, .intr, .resume ()] s ∧
      Mem.run FSSIZE ⟨single.buf, single.disk 1⟩ ops = .ok m ∧ ops.flatMap Mem.Op.call ++ q = [()] ∧ m.buf = s.buf := by
  have hrun : ∃ s, Run single [.iderw () (), .hardware, .intr, .resume ()] s := by
    have h₁ := Run.single (s := single) (l := .iderw () ()) ⟨rfl, nofun, rfl, rfl, rfl, by decide⟩ rfl
    have h₂ := h₁.snoc (l := .hardware) ⟨_, rfl⟩ rfl
    have h₃ := h₂.snoc (l := .intr) ⟨_, _, rfl⟩ rfl
    exact ⟨_, h₃.snoc (l := .resume ()) ⟨nofun, rfl⟩ rfl⟩
  obtain ⟨s, hs⟩ := hrun
  obtain ⟨q, m, ops, hops, hcall, -, hbuf, -⟩ :=
    ide_refines_memide (Nat.le_refl FSSIZE) ⟨rfl, rfl, rfl, fun _ => rfl, fun _ => rfl⟩ hs
  exact ⟨s, q, m, ops, hs, hops, hcall, hbuf⟩

end Xv6.Ide
