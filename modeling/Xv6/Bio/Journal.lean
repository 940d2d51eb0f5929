import Xv6.Bio.Coherence
import Mathlib.Data.Finset.Basic

/-!
# What a history says about transactions

A transaction is what the operations between two commits have logged. `journal` reads it off a
history: `cur` is the transaction that is still open, `pend` the one whose last operation has ended
and that is being committed, `done` those whose header has reached the disk. A power cut loses
`cur`; recovery decides the fate of `pend`.

`TraceOk` is the bookkeeping that makes "all or nothing" a property of operations: the writes of an
operation are all in the same place.
-/

namespace Xv6.Bio

open Lib
open Function (update update_self update_of_ne)

variable {Pid : Type}

/-- One `log_write` of an operation. -/
structure Write where
  op : ℕ
  b : ℕ
  data : Bytes

/-- The block contents after a sequence of writes. -/
def apply (ws : List Write) (D : ℕ → Bytes) : ℕ → Bytes :=
  ws.foldl (fun D w => Function.update D w.b w.data) D

/-- The writes of one operation. -/
def ofOp (op : ℕ) (ws : List Write) : List Write := ws.filter (·.op = op)

/-- The transactions of a history, and `all` its writes. -/
structure Journal where
  done : List (List Write)
  pend : List Write
  cur : List Write
  all : List Write

/-- The log's header is the block `start`; writing a header with a nonzero count commits. -/
def Journal.step (start : ℕ) (j : Journal) : Ev Pid → Journal
  | .logged _ op _ b data =>
    { j with cur := j.cur ++ [⟨op, b, data⟩], all := j.all ++ [⟨op, b, data⟩] }
  | .ended _ _ true => { j with pend := j.cur, cur := [] }
  | .stored _ dev b d =>
    if dev = ROOTDEV ∧ b = start ∧ 0 < headN d then
      { j with done := j.done ++ [j.pend], pend := [] }
    else j
  | .cut => { j with cur := [] }
  | .recovered => { j with pend := [] }
  | _ => j

/-- The journal of a history, newest event first. -/
def journal (start : ℕ) : List (Ev Pid) → Journal
  | [] => ⟨[], [], [], []⟩
  | e :: h => (journal start h).step start e

/-- The commits that have begun; all but the last one are complete. -/
def Journal.commits (j : Journal) : List (List Write) := j.done ++ [j.pend]

/-- The contents the complete commits leave. -/
def Journal.base (j : Journal) (D : ℕ → Bytes) : ℕ → Bytes := apply j.done.flatten D

/-- The distinct blocks the operations of the open transaction have logged. -/
def Journal.blocks (j : Journal) : List ℕ := (j.cur.map (·.b)).dedup

/-- The blocks some process has taken and not yet released. -/
def taken : List (Ev Pid) → Finset (ℕ × ℕ)
  | [] => ∅
  | .took _ dev b :: h => insert (dev, b) (taken h)
  | .released _ dev b :: h => (taken h).erase (dev, b)
  | .cut :: _ => ∅
  | _ :: h => taken h

/-- The blocks that have been logged and not yet written to their place on the disk. -/
def pinned : List (Ev Pid) → Finset (ℕ × ℕ)
  | [] => ∅
  | .logged _ _ dev b _ :: h => insert (dev, b) (pinned h)
  | .stored _ dev b _ :: h => (pinned h).erase (dev, b)
  | .cut :: _ => ∅
  | _ :: h => pinned h

/-- The blocks that need a buffer of their own. -/
def inUse (h : List (Ev Pid)) : Finset (ℕ × ℕ) := taken h ∪ pinned h

/-- The operation has reached its `end_op`. -/
def Ended (op : ℕ) (h : List (Ev Pid)) : Prop := ∃ p last, Ev.ended p op last ∈ h

/-! ## Writes -/

section

variable {ws ws' : List Write} {D : ℕ → Bytes} {op b : ℕ} {w : Write}

@[simp] theorem apply_nil : apply [] D = D := rfl

theorem apply_append : apply (ws ++ ws') D = apply ws' (apply ws D) := by
  simp [apply]

theorem apply_concat : apply (ws ++ [w]) D = update (apply ws D) w.b w.data := by
  simp [apply]

/-- Blocks nobody writes keep their contents. -/
theorem apply_of_not_mem (h : ∀ w ∈ ws, w.b ≠ b) : apply ws D b = D b := by
  induction ws generalizing D with
  | nil => rfl
  | cons w ws ih =>
    have hw : w.b ≠ b := h w (by simp)
    calc apply (w :: ws) D b = apply ws (update D w.b w.data) b := rfl
      _ = update D w.b w.data b := ih fun v hv => h v (by simp [hv])
      _ = D b := update_of_ne hw.symm ..

@[simp] theorem ofOp_append : ofOp op (ws ++ ws') = ofOp op ws ++ ofOp op ws' := by
  simp [ofOp]

theorem ofOp_concat_of_ne (h : w.op ≠ op) : ofOp op (ws ++ [w]) = ofOp op ws := by
  simp [ofOp, h]

theorem ofOp_eq_nil : ofOp op ws = [] ↔ ∀ w ∈ ws, w.op ≠ op := by
  simp [ofOp]

end

/-! ## The bookkeeping of operations -/

/-- Where the writes of an operation are: all in the open transaction, all in the one being
committed, or in neither, and then all or none of them in the complete ones. -/
inductive Placed (j : Journal) (op : ℕ) : Prop where
  | cur (cur : ofOp op j.cur = ofOp op j.all) (pend : ofOp op j.pend = [])
      (done : ofOp op j.done.flatten = [])
  | pend (cur : ofOp op j.cur = []) (pend : ofOp op j.pend = ofOp op j.all)
      (done : ofOp op j.done.flatten = [])
  | past (cur : ofOp op j.cur = []) (pend : ofOp op j.pend = [])
      (done : ofOp op j.done.flatten = ofOp op j.all ∨ ofOp op j.done.flatten = [])

/-- The invariant of a history in which `run p` is the operation process `p` is in. -/
structure TraceOk (start : ℕ) (h : List (Ev Pid)) (run : Pid → Option ℕ) : Prop where
  fresh : ∀ w ∈ (journal start h).all, w.op < h.length
  freshRun : ∀ p op, run p = some op → op < h.length
  distinct : ∀ p q op, run p = some op → run q = some op → p = q
  running : ∀ p op, run p = some op → ofOp op (journal start h).cur = ofOp op (journal start h).all ∧
    ofOp op (journal start h).pend = [] ∧ ofOp op (journal start h).done.flatten = []
  placed : ∀ op, Placed (journal start h) op
  curEnded : ∀ w ∈ (journal start h).cur, (∃ p, run p = some w.op) ∨ Ended w.op h
  oldEnded : ∀ w ∈ (journal start h).pend ++ (journal start h).done.flatten, Ended w.op h

section

variable {start : ℕ} {h : List (Ev Pid)} {run run' : Pid → Option ℕ} {e : Ev Pid} {p : Pid}
  {op : ℕ}

theorem Ended.cons (he : Ended op h) : Ended op (e :: h) := by
  obtain ⟨p, last, hmem⟩ := he
  exact ⟨p, last, List.mem_cons_of_mem _ hmem⟩

theorem traceOk_nil : TraceOk start ([] : List (Ev Pid)) fun _ => none := by
  refine ⟨?_, ?_, ?_, ?_, ?_, ?_, ?_⟩ <;> simp [journal]
  intro op
  exact .past rfl rfl (Or.inr rfl)

/-- An event that says nothing about transactions. -/
theorem TraceOk.quiet (ht : TraceOk start h run) (hj : journal start (e :: h) = journal start h) :
    TraceOk start (e :: h) run := by
  refine ⟨?_, ?_, ht.distinct, ?_, ?_, ?_, ?_⟩
  · intro w hw
    rw [hj] at hw
    exact Nat.lt_succ_of_lt (ht.fresh w hw)
  · intro p op hp
    exact Nat.lt_succ_of_lt (ht.freshRun p op hp)
  · rw [hj]
    exact ht.running
  · rw [hj]
    exact ht.placed
  · rw [hj]
    intro w hw
    exact (ht.curEnded w hw).imp_right Ended.cons
  · rw [hj]
    intro w hw
    exact (ht.oldEnded w hw).cons

variable [DecidableEq Pid]

/-- A process enters an operation, which is named by the length of the history. -/
theorem TraceOk.began (ht : TraceOk start h run) (hp : run p = none) :
    TraceOk start (.began p h.length :: h) (update run p (some h.length)) := by
  have hq : TraceOk start (.began p h.length :: h) run := ht.quiet rfl
  have hnew : ∀ q op, update run p (some h.length) q = some op →
      (q = p ∧ op = h.length) ∨ (q ≠ p ∧ run q = some op) := by
    intro q op hop
    rcases eq_or_ne q p with rfl | hqp
    · rw [update_self] at hop
      exact Or.inl ⟨rfl, (Option.some.inj hop).symm⟩
    · rw [update_of_ne hqp] at hop
      exact Or.inr ⟨hqp, hop⟩
  have hnone : ofOp h.length (journal start h).all = [] := by
    rw [ofOp_eq_nil]
    exact fun w hw => (ht.fresh w hw).ne
  refine ⟨hq.fresh, ?_, ?_, ?_, hq.placed, ?_, hq.oldEnded⟩
  · intro q op hop
    rcases hnew q op hop with ⟨-, rfl⟩ | ⟨-, hop⟩
    · exact Nat.lt_succ_self _
    · exact hq.freshRun q op hop
  · intro q r op hop hop'
    rcases hnew q op hop with ⟨hqp, hlen⟩ | ⟨-, hrun⟩ <;>
      rcases hnew r op hop' with ⟨hrp, hlen'⟩ | ⟨-, hrun'⟩
    · rw [hqp, hrp]
    · have := ht.freshRun r op hrun'
      omega
    · have := ht.freshRun q op hrun
      omega
    · exact ht.distinct q r op hrun hrun'
  · intro q op hop
    rcases hnew q op hop with ⟨-, rfl⟩ | ⟨-, hop⟩
    · -- nothing has been logged under the new name
      rcases ht.placed h.length with ⟨h1, h2, h3⟩ | ⟨h1, h2, h3⟩ | ⟨h1, h2, h3⟩
      · exact ⟨h1, h2, h3⟩
      · exact ⟨h1.trans hnone.symm, h2.trans hnone, h3⟩
      · exact ⟨h1.trans hnone.symm, h2, h3.elim (fun h3 => h3.trans hnone) id⟩
    · exact ht.running q op hop
  · intro w hw
    refine (hq.curEnded w hw).imp_left ?_
    rintro ⟨q, hop⟩
    refine ⟨q, ?_⟩
    rwa [update_of_ne]
    rintro rfl
    rw [hp] at hop
    simp at hop

omit [DecidableEq Pid] in
/-- A running operation logs a block. -/
theorem TraceOk.logged (ht : TraceOk start h run) (hp : run p = some op) {dev b : ℕ} {d : Bytes} :
    TraceOk start (.logged p op dev b d :: h) run := by
  obtain ⟨hcur, hpend, hdone⟩ := ht.running p op hp
  refine ⟨?_, ?_, ht.distinct, ?_, ?_, ?_, ?_⟩
  · intro w hw
    rcases List.mem_append.mp hw with hw | hw
    · exact Nat.lt_succ_of_lt (ht.fresh w hw)
    · rw [List.mem_singleton] at hw
      subst hw
      exact Nat.lt_succ_of_lt (ht.freshRun p op hp)
  · exact fun q o hq => Nat.lt_succ_of_lt (ht.freshRun q o hq)
  · intro q o hq
    obtain ⟨h1, h2, h3⟩ := ht.running q o hq
    refine ⟨?_, h2, h3⟩
    simp only [journal, Journal.step, ofOp_append, h1]
  · intro o
    rcases eq_or_ne o op with rfl | ho
    · exact .cur (by simp only [journal, Journal.step, ofOp_append, hcur]) hpend hdone
    · have hsame : ∀ ws, ofOp o (ws ++ [⟨op, b, d⟩]) = ofOp o ws := fun ws =>
        ofOp_concat_of_ne (Ne.symm ho)
      rcases ht.placed o with ⟨h1, h2, h3⟩ | ⟨h1, h2, h3⟩ | ⟨h1, h2, h3⟩
      · exact .cur (by simp only [journal, Journal.step, hsame, h1]) h2 h3
      · exact .pend (by simp only [journal, Journal.step, hsame, h1])
          (by simp only [journal, Journal.step, hsame, h2]) h3
      · exact .past (by simp only [journal, Journal.step, hsame, h1]) h2
          (by simp only [journal, Journal.step, hsame, h3])
  · intro w hw
    rcases List.mem_append.mp hw with hw | hw
    · exact (ht.curEnded w hw).imp_right Ended.cons
    · rw [List.mem_singleton] at hw
      subst hw
      exact Or.inl ⟨p, hp⟩
  · exact fun w hw => (ht.oldEnded w hw).cons

/-- An operation ends and others go on. -/
theorem TraceOk.ended (ht : TraceOk start h run) (hp : run p = some op) :
    TraceOk start (.ended p op false :: h) (update run p none) := by
  have hq : TraceOk start (.ended p op false :: h) run := ht.quiet rfl
  have hold : ∀ q o, update run p none q = some o → run q = some o := by
    intro q o ho
    rcases eq_or_ne q p with rfl | hqp
    · simp at ho
    · rwa [update_of_ne hqp] at ho
  refine ⟨hq.fresh, fun q o ho => hq.freshRun q o (hold q o ho), ?_, ?_, hq.placed, ?_,
    hq.oldEnded⟩
  · exact fun q r o h1 h2 => ht.distinct q r o (hold q o h1) (hold r o h2)
  · exact fun q o ho => hq.running q o (hold q o ho)
  · intro w hw
    rcases ht.curEnded w hw with ⟨q, hrun⟩ | hend
    · rcases eq_or_ne q p with rfl | hqp
      · obtain rfl : op = w.op := Option.some.inj (hp.symm.trans hrun)
        exact Or.inr ⟨q, false, List.mem_cons_self⟩
      · exact Or.inl ⟨q, by rwa [update_of_ne hqp]⟩
    · exact Or.inr hend.cons

section

omit [DecidableEq Pid]

/-- The last operation ends and its transaction is to be committed. -/
theorem TraceOk.endedLast (ht : TraceOk start h run) (hp : run p = some op)
    (hothers : ∀ q, q ≠ p → run q = none) (hpend : (journal start h).pend = []) :
    TraceOk start (.ended p op true :: h) fun _ => none := by
  have hend : ∀ w ∈ (journal start h).cur, Ended w.op (.ended p op true :: h) := by
    intro w hw
    rcases ht.curEnded w hw with ⟨q, hrun⟩ | hend
    · rcases eq_or_ne q p with rfl | hqp
      · obtain rfl : op = w.op := Option.some.inj (hp.symm.trans hrun)
        exact ⟨q, true, List.mem_cons_self⟩
      · rw [hothers q hqp] at hrun
        simp at hrun
    · exact hend.cons
  refine ⟨fun w hw => Nat.lt_succ_of_lt (ht.fresh w hw), by simp, by simp, by simp, ?_, ?_, ?_⟩
  · intro o
    rcases ht.placed o with ⟨h1, -, h3⟩ | ⟨h1, h2, h3⟩ | ⟨h1, h2, h3⟩
    · exact .pend rfl h1 h3
    · rw [hpend] at h2
      exact .pend rfl (h1.trans h2) h3
    · exact .past rfl h1 h3
  · simp [journal, Journal.step]
  · intro w hw
    rcases List.mem_append.mp hw with hw | hw
    · exact hend w hw
    · exact (ht.oldEnded w (List.mem_append_right _ hw)).cons

/-- The header of a transaction reaches the disk while no operation is open. -/
theorem TraceOk.committed (ht : TraceOk start h run) (hcur : (journal start h).cur = [])
    {d : Bytes} (hd : 0 < headN d) :
    TraceOk start (.stored p ROOTDEV start d :: h) run := by
  have hj : journal start (.stored p ROOTDEV start d :: h) = { journal start h with
      done := (journal start h).done ++ [(journal start h).pend], pend := [] } := by
    simp [journal, Journal.step, hd]
  refine ⟨?_, fun q o hq => Nat.lt_succ_of_lt (ht.freshRun q o hq), ht.distinct, ?_, ?_, ?_, ?_⟩
  · intro w hw
    rw [hj] at hw
    exact Nat.lt_succ_of_lt (ht.fresh w hw)
  · intro q o hq
    obtain ⟨h1, h2, h3⟩ := ht.running q o hq
    rw [hj]
    exact ⟨h1, rfl, by simp [h2, h3]⟩
  · intro o
    rw [hj]
    rcases ht.placed o with ⟨h1, h2, h3⟩ | ⟨h1, h2, h3⟩ | ⟨h1, h2, h3⟩
    · exact .cur h1 rfl (by simp [h2, h3])
    · exact .past h1 rfl (Or.inl (by simp [h2, h3]))
    · exact .past h1 rfl (by simpa [h2] using h3)
  · rw [hj]
    simp [hcur]
  · intro w hw
    rw [hj] at hw
    refine (ht.oldEnded w ?_).cons
    simp only [List.nil_append, List.flatten_append, List.flatten_cons, List.flatten_nil,
      List.append_nil, List.mem_append] at hw ⊢
    exact hw.symm

/-- A power cut loses the open transaction and all running operations. -/
theorem TraceOk.cut (ht : TraceOk start h run) : TraceOk start (.cut :: h) fun _ => none := by
  refine ⟨fun w hw => Nat.lt_succ_of_lt (ht.fresh w hw), by simp, by simp, by simp, ?_, ?_, ?_⟩
  · intro o
    rcases ht.placed o with ⟨-, h2, h3⟩ | ⟨-, h2, h3⟩ | ⟨-, h2, h3⟩
    · exact .past rfl h2 (Or.inr h3)
    · exact .pend rfl h2 h3
    · exact .past rfl h2 h3
  · simp [journal, Journal.step]
  · exact fun w hw => (ht.oldEnded w hw).cons

/-- Recovery is complete; a transaction whose header had not been written is gone. -/
theorem TraceOk.recovered (ht : TraceOk start h run) (hcur : (journal start h).cur = []) :
    TraceOk start (.recovered :: h) run := by
  refine ⟨fun w hw => Nat.lt_succ_of_lt (ht.fresh w hw),
    fun q o hq => Nat.lt_succ_of_lt (ht.freshRun q o hq), ht.distinct, ?_, ?_, ?_, ?_⟩
  · exact fun q o hq => ⟨(ht.running q o hq).1, rfl, (ht.running q o hq).2.2⟩
  · intro o
    rcases ht.placed o with ⟨h1, -, h3⟩ | ⟨h1, -, h3⟩ | ⟨h1, -, h3⟩
    · exact .cur h1 rfl h3
    · exact .past h1 rfl (Or.inr h3)
    · exact .past h1 rfl h3
  · intro w hw
    have : w ∈ (journal start h).cur := hw
    rw [hcur] at this
    simp at this
  · intro w hw
    exact (ht.oldEnded w (List.mem_append_right _ hw)).cons

end

end

/-! ## Taken and pinned blocks -/

/-- The history knows who is busy and what is dirty. -/
structure UseOk (V : View Pid) : Prop where
  held : ∀ dev b, (dev, b) ∈ taken V.hist ↔ V.st.holder dev b ≠ none
  dirty : ∀ dev b, (dev, b) ∈ pinned V.hist ↔ V.dirty dev b

section

variable {V V' : View Pid} {p : Pid} {dev b op : ℕ} {d : Bytes}

/-- A step that changes neither. -/
theorem UseOk.congr (hu : UseOk V) (hst : V'.st.holder = V.st.holder) (hd : V'.dirty = V.dirty)
    (ht : taken V'.hist = taken V.hist) (hp : pinned V'.hist = pinned V.hist) :
    UseOk V' := by
  refine ⟨fun dev b => ?_, fun dev b => ?_⟩
  · rw [ht, hst]
    exact hu.held dev b
  · rw [hp, hd]
    exact hu.dirty dev b

theorem UseOk.got (hu : UseOk V) : UseOk (V.got p dev b) := hu.congr rfl rfl rfl rfl

private theorem holder_ne_none {st : Store Pid} {dev' b' : ℕ} {q : Option Pid} :
    (st.setHolder dev b q).holder dev' b' ≠ none ↔
      if dev' = dev ∧ b' = b then q ≠ none else st.holder dev' b' ≠ none := by
  split
  next h =>
    obtain ⟨rfl, rfl⟩ := h
    rw [Store.setHolder_holder_self]
  next h => rw [Store.setHolder_holder_of_ne fun h1 h2 => h ⟨h1, h2⟩]

theorem UseOk.took (hu : UseOk V) : UseOk (V.took p dev b) := by
  refine ⟨fun dev' b' => ?_, hu.dirty⟩
  simp only [View.took, taken, Finset.mem_insert, Prod.mk.injEq, holder_ne_none, hu.held]
  split <;> simp_all

theorem UseOk.released (hu : UseOk V) : UseOk (V.released p dev b) := by
  refine ⟨fun dev' b' => ?_, hu.dirty⟩
  simp only [View.released, taken, Finset.mem_erase, ne_eq, Prod.mk.injEq, holder_ne_none,
    hu.held]
  split <;> simp_all

theorem UseOk.stored (hu : UseOk V) : UseOk (V.stored p dev b d) := by
  refine ⟨hu.held, fun dev' b' => ?_⟩
  simp only [View.stored, pinned, Finset.mem_erase, ne_eq, Prod.mk.injEq, hu.dirty]
  tauto

theorem UseOk.logged (hu : UseOk V) : UseOk (V.logged p op dev b d) := by
  refine ⟨hu.held, fun dev' b' => ?_⟩
  simp only [View.logged, pinned, Finset.mem_insert, Prod.mk.injEq, hu.dirty]
  tauto

end

end Xv6.Bio
