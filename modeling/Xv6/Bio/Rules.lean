import Xv6.Conc.Logic
import Xv6.Bio.Coherence
import Mathlib.Data.Fintype.Card

/-!
# Proof rules for code over the buffer cache

`Inv J` is the pool invariant of every protocol below: the cache stands for some store, and `J`
holds of the view and of the processes' own ghost values. A process's ghost value is the buffers it
holds together with a value of the protocol's own type `G`. There is one rule per function of
`bio.c`; each asks how the call changes the view, so no later proof looks inside a buffer.
-/

namespace Xv6.Bio

open Conc Lib
open Function (update update_self update_of_ne update_idem update_eq_self update_eq_self_iff comp_update)

variable {Pid G α : Type} [DecidableEq Pid]

/-- The ghost value of a process: the buffers it holds, and what the protocol adds. -/
abbrev Ghost (G : Type) := (Slot → Option Hold) × G

/-- The pool invariant over a view invariant `J`. -/
def Inv (J : View Pid → (Pid → G) → Prop) (m : Machine Pid) (γ : Pid → Ghost G) : Prop :=
  ∃ st, Coh m (fun q => (γ q).1) st ∧ J (view m st) fun q => (γ q).2

/-- The panic of `log_write` when the log is full. -/
abbrev tooBig : Fault := .panic "too big a transaction"

/-- The panic of `bget` when every buffer is busy or dirty. -/
abbrev noBuffers : Fault := .panic "bget: no buffers"

theorem rootdev_ne : ROOTDEV ≠ NODEV := by decide

/-- Clean blocks are on the disk. -/
def View.Synced (V : View Pid) : Prop :=
  ∀ dev b, dev ≠ NODEV → ¬V.dirty dev b → V.disk dev b = V.st.content dev b

/-- Dirty blocks other than `b` leave at least one buffer for `b`. -/
def View.Room (V : View Pid) (dev b : ℕ) : Prop :=
  ∀ l : List ℕ, l.Nodup → (∀ c ∈ l, V.dirty dev c ∧ c ≠ b) → l.length + 1 ≤ NBUF

/-- A view invariant that does not depend on who is reading which block. -/
structure Stable (J : View Pid → (Pid → G) → Prop) : Prop where
  took : ∀ {V δ} (p dev b), J V δ → V.st.holder dev b = none → J (V.took p dev b) δ
  got : ∀ {V δ} (p dev b), J V δ → V.st.holder dev b = some p → J (V.got p dev b) δ
  released : ∀ {V δ} (p dev b), J V δ → V.st.holder dev b = some p → J (V.released p dev b) δ

section

variable {m m' : Machine Pid} {γ : HoldMap Pid} {st : Store Pid} {p : Pid} {i : Slot} {e : Fault} {op : ℕ}

section

omit [DecidableEq Pid]

theorem Coh.synced (hc : Coh m γ st) : (view m st).Synced := by
  intro dev b hdev hclean
  refine hc.disk dev b hdev fun i hi => ?_
  by_contra hd
  exact hclean ⟨i, hi, by simpa using hd⟩

/-- Every dirty block has a buffer of its own, so they are fewer than the buffers if one buffer
carries something else. -/
theorem Coh.room (hc : Coh m γ st) {x : Hold} (hi : γ p i = some x) : (view m st).Room x.dev x.b := by
  intro l hnd hl
  obtain ⟨hci, hlive⟩ := hc.carries i p x hi
  have hpick : ∀ c ∈ l, ∃ j, Carries m j x.dev c := fun c hcl =>
    let ⟨j, hj, _⟩ := (hl c hcl).1
    ⟨j, hj⟩
  choose! pick hp using hpick
  have hinj : (l.map pick).Nodup := by
    refine List.Nodup.map_on ?_ hnd
    intro c hcl d hdl hcd
    have h1 := (hp c hcl).2
    rw [hcd, (hp d hdl).2] at h1
    exact h1.symm
  have hfresh : i ∉ l.map pick := by
    intro hmem
    obtain ⟨c, hcl, rfl⟩ := List.mem_map.mp hmem
    exact (hl c hcl).2 ((hp c hcl).2.symm.trans hci.2)
  have hcard := (List.nodup_cons.mpr ⟨hfresh, hinj⟩).length_le_card
  simpa using hcard

/-- The cache does not look at the log, at `up` or at the history. -/
theorem Coh.congr (hc : Coh m γ st) (hb : m'.buf = m.buf) (hl : m'.links = m.links)
    (hd : m'.disk = m.disk) : Coh m' γ st := by
  obtain ⟨buf, links, log, disk, up, hist⟩ := m
  obtain ⟨buf', links', log', disk', up', hist'⟩ := m'
  dsimp only at hb hl hd
  subst hb hl hd
  exact ⟨hc.ring, hc.unique, hc.busy, hc.one, hc.carries, hc.loaded, hc.unsaved, hc.dirty,
    hc.holder, hc.data, hc.disk⟩

theorem iderw_fault (h : iderw i m = .fault e) : e ≠ tooBig ∧ e ≠ noBuffers := by
  simp only [iderw] at h
  split at h
  · cases h
    simp
  split at h
  · cases h
    simp
  split at h
  · cases h
    simp
  · split at h <;> cases h

theorem bgetStep_fault {dev b : ℕ} (h : bgetStep p dev b m = .fault e) : e = noBuffers := by
  simp only [bgetStep] at h
  split at h
  · split at h <;> cases h
  · split at h <;> cases h
    rfl

theorem bfill_fault (h : bfill p i m = .fault e) : e ≠ tooBig ∧ e ≠ noBuffers := by
  simp only [bfill] at h
  split at h
  · cases h
  split at h
  · cases h
  next e' he =>
    cases h
    exact iderw_fault he
  · cases h

theorem bwriteStep_fault (h : bwriteStep p i m = .fault e) : e ≠ tooBig ∧ e ≠ noBuffers := by
  simp only [bwriteStep] at h
  split at h
  · cases h
    simp
  split at h
  · cases h
  next e' he =>
    cases h
    exact iderw_fault he
  · cases h

theorem brelseStep_fault (h : brelseStep p i m = .fault e) : e ≠ tooBig ∧ e ≠ noBuffers := by
  simp only [brelseStep] at h
  split at h
  · cases h
    simp
  · cases h

theorem logWriteStep_fault (h : logWriteStep p op i m = .fault e) : e ≠ tooBig ∧ e ≠ noBuffers := by
  simp only [logWriteStep] at h
  split at h
  · cases h
  split at h
  · cases h
  · cases h
    simp

theorem readHeadStep_fault (h : readHeadStep i m = .fault e) : e ≠ tooBig ∧ e ≠ noBuffers := by
  simp only [readHeadStep] at h
  split at h
  · cases h
  split at h <;> cases h
  simp

theorem beginOpStep_fault (h : beginOpStep p m = .fault e) : e ≠ tooBig ∧ e ≠ noBuffers := by
  simp only [beginOpStep] at h
  split at h
  · cases h
  split at h <;> cases h

theorem endOpStep_fault (h : endOpStep p op m = .fault e) : e ≠ tooBig ∧ e ≠ noBuffers := by
  simp only [endOpStep] at h
  split at h
  · cases h
    simp
  split at h <;> cases h

/-- What `begin_op` does once it is admitted. -/
theorem beginOpStep_ok (h : beginOpStep p m = .ok op m') :
    m.log.committing = false ∧
      m.log.lh.length + (m.log.outstanding + 1) * MAXOPBLOCKS ≤ LOGSIZE ∧ op = m.hist.length ∧
      m' = { m with log := { m.log with outstanding := m.log.outstanding + 1 } }.note
        (.began p op) := by
  simp only [beginOpStep] at h
  split at h
  · cases h
  next hcommit =>
    split at h
    · cases h
    next hroom =>
      obtain ⟨rfl, rfl⟩ := Outcome.ok.inj h
      exact ⟨by simpa using hcommit, by omega, rfl, rfl⟩

/-- What the first part of `end_op` does: the last operation starts a commit. -/
theorem endOpStep_ok {last : Bool} (h : endOpStep p op m = .ok last m') :
    m.log.committing = false ∧ last = decide (m.log.outstanding - 1 = 0) ∧
      m' = { m with log := { m.log with
        outstanding := m.log.outstanding - 1, committing := last } }.note (.ended p op last) := by
  simp only [endOpStep] at h
  split at h
  · cases h
  next hcommit =>
    have hcommit : m.log.committing = false := by simpa using hcommit
    split at h
    next hout =>
      obtain ⟨rfl, rfl⟩ := Outcome.ok.inj h
      exact ⟨hcommit, by simp [hout], rfl⟩
    next hout =>
      obtain ⟨rfl, rfl⟩ := Outcome.ok.inj h
      exact ⟨hcommit, by simp [hout], by rw [← hcommit]⟩

theorem logWriteTest_ok {u : Unit} (h : logWriteTest m = .ok u m') :
    m' = m ∧ m.log.lh.length < LOGSIZE ∧ m.log.lh.length + 1 < m.log.size ∧
      1 ≤ m.log.outstanding := by
  simp only [logWriteTest] at h
  split at h
  · cases h
  next hsize =>
    split at h
    · cases h
    next hout =>
      rw [not_or] at hsize
      exact ⟨(Outcome.ok.inj h).2.symm, by omega, by omega, by omega⟩

/-- `log_write` complains of a big transaction exactly when the header is full. -/
theorem logWriteTest_tooBig :
    logWriteTest m = .fault tooBig ↔
      LOGSIZE ≤ m.log.lh.length ∨ m.log.size ≤ m.log.lh.length + 1 := by
  simp only [logWriteTest]
  split
  next h => simpa using h
  next h =>
    simp only [h, iff_false]
    split <;> simp

theorem logWriteTest_ne_noBuffers : logWriteTest m ≠ .fault noBuffers := by
  simp only [logWriteTest]
  split
  · simp
  · split <;> simp

/-- What `read_head` copies. -/
theorem readHeadStep_ok {u : Unit} (h : readHeadStep i m = .ok u m') :
    m' = m.setLh (if 2 ^ 31 ≤ headN (m.buf i).data then [] else headBlocks (m.buf i).data) := by
  simp only [readHeadStep] at h
  split at h
  next hn => rw [if_pos hn, (Outcome.ok.inj h).2]
  next hn =>
    split at h
    · cases h
    · rw [if_neg hn, (Outcome.ok.inj h).2]

end

end

/-! ## The rules -/

section

variable {J : View Pid → (Pid → G) → Prop} {E : Machine Pid → Fault → Prop} {p : Pid}
  {H : Slot → Option Hold} {g : G} {dev b : ℕ} {i : Slot} {γ : Pid → Ghost G} {Q : Unit → Ghost G → Prop}
  {m' : Machine Pid} {st : Store Pid} {x : Hold}

/-- Changing the ghost value of one process, on either component. -/
theorem update_ghost (γ : Pid → Ghost G) (p : Pid) (x : Ghost G) :
    (fun q => (update γ p x q).1) = update (fun q => (γ q).1) p x.1 ∧
      (fun q => (update γ p x q).2) = update (fun q => (γ q).2) p x.2 :=
  ⟨comp_update Prod.fst γ p x, comp_update Prod.snd γ p x⟩

/-- The invariant after a step that changed one buffer of `p`. -/
theorem inv_setHold {h : Option Hold}
    {g' : G} (hg : γ p = (H, g)) (hc : Coh m' (setHold (fun q => (γ q).1) p i h) st)
    (hJ : J (view m' st) (update (fun q => (γ q).2) p g')) :
    Inv J m' (update γ p (update H i h, g')) := by
  obtain ⟨h1, h2⟩ := update_ghost γ p (update H i h, g')
  refine ⟨st, ?_, ?_⟩
  · rw [h1]
    simpa only [setHold, hg] using hc
  · rwa [h2]

/-- The same when the ghost value of the protocol stays. -/
theorem inv_setHold_same
    {h : Option Hold} (hg : γ p = (H, g))
    (hc : Coh m' (setHold (fun q => (γ q).1) p i h) st) (hJ : J (view m' st) fun q => (γ q).2) :
    Inv J m' (update γ p (update H i h, g)) := by
  refine inv_setHold hg hc ?_
  rwa [update_eq_self_iff.mpr (by rw [hg])]

/-- The invariant after a step that changed no buffer. -/
theorem inv_keep {g' : G}
    (hg : γ p = (H, g)) (hc : Coh m' (fun q => (γ q).1) st)
    (hJ : J (view m' st) (update (fun q => (γ q).2) p g')) :
    Inv J m' (update γ p (H, g')) := by
  obtain ⟨h1, h2⟩ := update_ghost γ p (H, g')
  refine ⟨st, ?_, ?_⟩
  · rw [h1]
    have : update (fun q => (γ q).1) p H = fun q => (γ q).1 := by
      rw [update_eq_self_iff, hg]
    simpa only [this] using hc
  · rwa [h2]

variable (hE : ∀ m e, e ≠ tooBig → E m e)

include hE

/-- `bread` returns a buffer of the caller's own that carries the block. -/
theorem wp_bread (hJ : Stable J) (hdev : dev ≠ NODEV) {Q : Slot → Ghost G → Prop}
    (hQ : ∀ i, H i = none → Q i (update H i (some ⟨dev, b, .clean⟩), g)) :
    wp (Inv J) E p (bread p dev b) (H, g) Q := by
  refine wp_seq (R := fun i x => H i = none ∧
    x = (update H i (some ⟨dev, b, .loading⟩), g)) ?_ ?_
  · refine wp_atomic fun m γ hI hg => ?_
    obtain ⟨st, hc, hj⟩ := hI
    cases hf : bgetStep p dev b m with
    | blocked => trivial
    | fault e => exact hE m e (by rw [bgetStep_fault hf]; simp)
    | ok i m' =>
      obtain ⟨hnone, hfree, hc', hview⟩ := hc.bget hdev hf
      rw [hg] at hnone
      refine ⟨_, inv_setHold_same hg hc' ?_, hnone, rfl⟩
      rw [hview]
      exact hJ.took p dev b hj hfree
  · rintro i _ ⟨hnone, rfl⟩
    refine wp_atomic fun m γ hI hg => ?_
    obtain ⟨st, hc, hj⟩ := hI
    have hi : (γ p).1 i = some ⟨dev, b, .loading⟩ := by simp [hg]
    cases hf : bfill p i m with
    | blocked => trivial
    | fault e => exact hE m e (bfill_fault hf).1
    | ok j m' =>
      obtain ⟨rfl, hc', hview⟩ := hc.bfill hi hf
      refine ⟨_, inv_setHold_same hg hc' ?_, ?_⟩
      · rw [hview]
        exact hJ.got p dev b hj (hc.holder_held hi)
      · rw [update_idem]
        exact hQ j hnone

/-- `bwrite` stores the data of the buffer in its block. -/
theorem wp_bwrite (hi : H i = some x) (hph : x.phase ≠ .loading)
    (hstep : ∀ V δ d, V.Synced → V.Room x.dev x.b → J V δ → δ p = g →
      V.st.holder x.dev x.b = some p →
      x.phase = .unsaved d ∨ x.phase = .clean ∧ d = V.st.content x.dev x.b →
      ∃ g', J (V.stored p x.dev x.b d) (update δ p g') ∧
        Q () (update H i (some ⟨x.dev, x.b, .clean⟩), g')) :
    wp (Inv J) E p (bwrite p i) (H, g) Q := by
  refine wp_atomic fun m γ hI hg => ?_
  obtain ⟨st, hc, hj⟩ := hI
  have hi' : (γ p).1 i = some x := by simpa only [hg] using hi
  cases hf : bwriteStep p i m with
  | blocked => trivial
  | fault e => exact hE m e (bwriteStep_fault hf).1
  | ok u m' =>
    obtain ⟨hc', hview⟩ := hc.bwrite hi' hf
    obtain ⟨g', hj', hq⟩ := hstep (view m st) _ (m.buf i).data hc.synced (hc.room hi') hj
      (by rw [hg]) (hc.holder_held hi') (hc.data_held hi' hph)
    exact ⟨_, inv_setHold hg hc' (by rwa [hview]), hq⟩

/-- The locked part of `log_write` stores the data of the buffer in its block. -/
theorem wp_logWriteStep {op : ℕ} (hi : H i = some x) (hph : x.phase ≠ .loading)
    (hstep : ∀ V δ d, V.Synced → J V δ → δ p = g → V.st.holder x.dev x.b = some p →
      x.phase = .unsaved d ∨ x.phase = .clean ∧ d = V.st.content x.dev x.b →
      ∃ g', J (V.logged p op x.dev x.b d) (update δ p g') ∧
        Q () (update H i (some ⟨x.dev, x.b, .clean⟩), g')) :
    wp (Inv J) E p (Prog.atomic (logWriteStep p op i)) (H, g) Q := by
  refine wp_atomic fun m γ hI hg => ?_
  obtain ⟨st, hc, hj⟩ := hI
  have hi' : (γ p).1 i = some x := by simpa only [hg] using hi
  cases hf : logWriteStep p op i m with
  | blocked => trivial
  | fault e => exact hE m e (logWriteStep_fault hf).1
  | ok u m' =>
    obtain ⟨hc', hview⟩ := hc.logWrite hi' hph hf
    obtain ⟨g', hj', hq⟩ := hstep (view m st) _ (m.buf i).data hc.synced hj
      (by rw [hg]) (hc.holder_held hi') (hc.data_held hi' hph)
    exact ⟨_, inv_setHold hg hc' (by rwa [hview]), hq⟩

/-- `brelse` gives the block of a saved buffer back. -/
theorem wp_brelse (hJ : Stable J) (hi : H i = some ⟨dev, b, .clean⟩)
    (hQ : Q () (update H i none, g)) : wp (Inv J) E p (brelse p i) (H, g) Q := by
  refine wp_atomic fun m γ hI hg => ?_
  obtain ⟨st, hc, hj⟩ := hI
  have hi' : (γ p).1 i = some ⟨dev, b, .clean⟩ := by simpa only [hg] using hi
  cases hf : brelseStep p i m with
  | blocked => trivial
  | fault e => exact hE m e (brelseStep_fault hf).1
  | ok u m' =>
    obtain ⟨hc', hview⟩ := hc.brelse hi' hf
    refine ⟨_, inv_setHold_same hg hc' ?_, hQ⟩
    rw [hview]
    exact hJ.released p dev b hj (hc.holder_held hi')

omit hE

/-- An in-place change of a buffer; `f` may read the caller's other buffers. -/
theorem wp_setData (hi : H i = some x) (hph : x.phase ≠ .loading)
    {f : Machine Pid → Bytes}
    (hf : ∀ (m : Machine Pid) (γ : Pid → Ghost G) st, Coh m (fun q => (γ q).1) st → J (view m st) (fun q => (γ q).2) →
      γ p = (H, g) → Q () (update H i (some ⟨x.dev, x.b, .unsaved (f m)⟩), g)) :
    wp (Inv J) E p (setData i f) (H, g) Q := by
  refine wp_modifies fun m γ hI hg => ?_
  obtain ⟨st, hc, hj⟩ := hI
  have hi' : (γ p).1 i = some x := by simpa only [hg] using hi
  obtain ⟨hc', hview⟩ := hc.setData hi' hph (f m)
  refine ⟨_, inv_setHold_same hg hc' ?_, hf m γ st hc hj hg⟩
  rwa [hview]

/-- A section that leaves the cache and the disk alone. -/
theorem wp_local {f : Machine Pid → Outcome (Machine Pid) α} {Q : α → Ghost G → Prop}
    (hfault : ∀ (m : Machine Pid) (γ : Pid → Ghost G) st e, Coh m (fun q => (γ q).1) st → J (view m st) (fun q => (γ q).2) →
      γ p = (H, g) → f m = .fault e → E m e)
    (hok : ∀ (m : Machine Pid) (γ : Pid → Ghost G) st a m', Coh m (fun q => (γ q).1) st →
      J (view m st) (fun q => (γ q).2) → γ p = (H, g) → f m = .ok a m' →
      m'.buf = m.buf ∧ m'.links = m.links ∧ m'.disk = m.disk ∧
        ∃ g', J (view m' st) (update (fun q => (γ q).2) p g') ∧ Q a (H, g')) :
    wp (Inv J) E p (Prog.atomic f) (H, g) Q := by
  refine wp_atomic fun m γ hI hg => ?_
  obtain ⟨st, hc, hj⟩ := hI
  cases hf : f m with
  | blocked => trivial
  | fault e => exact hfault m γ st e hc hj hg hf
  | ok a m' =>
    obtain ⟨hb, hl, hd, g', hj', hq⟩ := hok m γ st a m' hc hj hg hf
    exact ⟨(H, g'), inv_keep hg (hc.congr hb hl hd) hj', hq⟩

/-- The two blocks that are copied sit in different buffers. -/
theorem slot_ne {j : Slot} {y : Hold} (hj : update H i (some y) j = none) : i ≠ j ∧ H j = none := by
  have hne : i ≠ j := by
    rintro rfl
    simp at hj
  exact ⟨hne, by rwa [update_of_ne hne.symm] at hj⟩

include hE in
/-- `install_trans` and `write_log` copy a block in the same way once they have both buffers: the
data of `s` goes into `d`, `d` is written, and both are released. `P` is what is known of the
data. -/
theorem wp_copy (hJ : Stable J) {s d : Slot} {c : ℕ} {P : Bytes → Prop}
    (hs : H s = none) (hd : H d = none) (hne : s ≠ d)
    (hval : ∀ V δ, V.Synced → J V δ → δ p = g → P (V.st.content dev c))
    (hstore : ∀ V δ v, V.Synced → V.Room dev b → J V δ → δ p = g →
      V.st.holder dev b = some p → P v →
      ∃ g', J (V.stored p dev b v) (update δ p g') ∧ Q () (H, g')) :
    wp (Inv J) E p (do
        setData d fun m => (m.buf s).data
        bwrite p d
        brelse p s
        brelse p d)
      (update (update H s (some ⟨dev, c, .clean⟩)) d
        (some ⟨dev, b, .clean⟩), g) Q := by
  -- the buffers the process has while it copies: only the phase of `d` changes
  let K (ph : Phase) : Slot → Option Hold :=
    update (update H s (some ⟨dev, c, .clean⟩)) d (some ⟨dev, b, ph⟩)
  have hKs : ∀ ph, K ph s = some ⟨dev, c, .clean⟩ := fun ph => by simp [K, hne]
  have hKd : ∀ ph, K ph d = some ⟨dev, b, ph⟩ := fun ph => by simp [K]
  refine wp_bind.mpr (wp_setData (hKd _) (by simp) fun m γ st hc hj hg => ?_)
  have hγ : (γ p).1 s = some ⟨dev, c, .clean⟩ := by
    rw [hg]
    exact hKs _
  have hv : P (m.buf s).data := by
    obtain hu | ⟨-, hdata⟩ := hc.data_held hγ (by simp)
    · simp at hu
    · rw [hdata]
      exact hval (view m st) _ hc.synced hj (by rw [hg])
  rw [update_idem]
  refine wp_bind.mpr (wp_bwrite hE (hKd _) (by simp) fun V δ w hsync hroom hj hg hh hw => ?_)
  obtain rfl : (m.buf s).data = w := by simpa using hw
  obtain ⟨g', hj', hq⟩ := hstore V δ _ hsync hroom hj hg hh hv
  rw [update_idem]
  refine ⟨g', hj', wp_bind.mpr (wp_brelse hE hJ (hKs .clean) ?_)⟩
  refine wp_brelse hE hJ (by rw [update_of_ne hne.symm]; exact hKd _) ?_
  have hback : update (update (K .clean) s none) d none = H := by
    funext j
    by_cases hjd : j = d
    · simp [hjd, hd]
    · by_cases hjs : j = s
      · simp [hjs, hs, hne]
      · simp [K, hjd, hjs]
  rwa [hback]

include hE in
/-- Changing a block that has just been read, writing it and releasing it, as `write_head` does. -/
theorem wp_rewrite (hJ : Stable J) (hi : H i = none) {f : Machine Pid → Bytes} {P : Bytes → Prop}
    (hval : ∀ m st δ, (m.buf i).data = st.content dev b → J (view m st) δ → δ p = g → P (f m))
    (hstore : ∀ V δ v, V.Synced → V.Room dev b → J V δ → δ p = g → V.st.holder dev b = some p →
      P v → ∃ g', J (V.stored p dev b v) (update δ p g') ∧ Q () (H, g')) :
    wp (Inv J) E p (do
        setData i f
        bwrite p i
        brelse p i)
      (update H i (some ⟨dev, b, .clean⟩), g) Q := by
  refine wp_bind.mpr (wp_setData (update_self ..) (by simp) fun m γ st hc hj hg => ?_)
  have hγ : (γ p).1 i = some ⟨dev, b, .clean⟩ := by simp [hg]
  have hv : P (f m) := by
    obtain hu | ⟨-, hdata⟩ := hc.data_held hγ (by simp)
    · simp at hu
    · exact hval m st _ hdata hj (by rw [hg])
  refine wp_bind.mpr (wp_bwrite hE (update_self ..) (by simp) fun V δ w hsync hroom hj hg hh hw => ?_)
  obtain rfl : f m = w := by simpa using hw
  obtain ⟨g', hj', hq⟩ := hstore V δ _ hsync hroom hj hg hh hv
  refine ⟨g', hj', wp_brelse hE hJ (update_self ..) ?_⟩
  rwa [update_idem, update_idem, update_idem, ← hi, update_eq_self]

/-- A loop over `lh.block[tail..lh.n)`, with the invariant `L` at each value of `tail`. -/
theorem wp_forTail {body : ℕ → ℕ → Prog (Machine Pid) Unit} {L : ℕ → Ghost G → Prop}
    (hbody : ∀ t c x, L t x → (∃ m γ, Inv J m γ ∧ γ p = x ∧ m.log.lh[t]? = some c) →
      wp (Inv J) E p (body t c) x fun _ x' => L (t + 1) x')
    (hend : ∀ t x, L t x → (∃ m γ, Inv J m γ ∧ γ p = x ∧ m.log.lh[t]? = none) → Q () x)
    (hfuel : ∀ x, L LOGSIZE x → Q () x) {fuel t : ℕ} (hft : t + fuel = LOGSIZE) {x : Ghost G}
    (hL : L t x) : wp (Inv J) E p (forTail body fuel t) x Q := by
  induction fuel generalizing t x with
  | zero =>
    rw [Nat.add_zero] at hft
    subst hft
    exact hfuel x hL
  | succ fuel ih =>
    refine wp_seq (R := fun c x' => x' = x ∧ ∃ m γ, Inv J m γ ∧ γ p = x ∧ m.log.lh[t]? = c) ?_ ?_
    · exact wp_reads fun m γ hI hg => ⟨rfl, m, γ, hI, hg, rfl⟩
    · rintro c _ ⟨rfl, hc⟩
      cases c with
      | none => exact hend t _ hL hc
      | some c =>
        refine wp_seq (hbody t c _ hL hc) fun _ x' hL' => ?_
        exact ih (by omega) hL'

end

/-! ## A process between calls -/

/-- The buffers of an idle process: those in `held`, loaded, and saved unless in `unsaved`. -/
structure HeldOk (l : Client) (H : Slot → Option Hold) : Prop where
  held : ∀ i, i ∈ l.held ↔ H i ≠ none
  loaded : ∀ i x, H i = some x → x.phase ≠ .loading
  saved : ∀ i x, H i = some x → i ∉ l.unsaved → x.phase = .clean

/-- A process between two calls; `R` says what the protocol knows of the operation it is in. -/
def Idle (R : Pid → Option ℕ → G → Prop) (p : Pid) (l : Client) (x : Ghost G) : Prop :=
  HeldOk l x.1 ∧ R p l.op x.2

section

variable {l : Client} {H : Slot → Option Hold} {i : Slot} {x : Hold} {dev b : ℕ}

theorem heldOk_idle : HeldOk Client.idle fun _ => none :=
  ⟨by simp [Client.idle], by simp, by simp⟩

theorem HeldOk.get (h : HeldOk l H) (hi : i ∈ l.held) : ∃ x, H i = some x ∧ x.phase ≠ .loading := by
  obtain ⟨x, hx⟩ := Option.ne_none_iff_exists'.mp ((h.held i).mp hi)
  exact ⟨x, hx, h.loaded i x hx⟩

/-- Any change of one held buffer that leaves it held and loaded. -/
theorem HeldOk.set (h : HeldOk l H) {u : List Slot} {held : List Slot} {x : Option Hold}
    (hheld : ∀ j, j ∈ held ↔ if j = i then x ≠ none else j ∈ l.held)
    (hx : ∀ y, x = some y → y.phase ≠ .loading ∧ (i ∉ u → y.phase = .clean))
    (hu : ∀ j, j ≠ i → j ∉ u → j ∉ l.unsaved) :
    HeldOk { l with held := held, unsaved := u } (update H i x) := by
  refine ⟨fun j => ?_, fun j y hy => ?_, fun j y hy hju => ?_⟩
  · rw [hheld j]
    rcases eq_or_ne j i with rfl | hj
    · simp
    · simpa [hj] using h.held j
  · rcases eq_or_ne j i with rfl | hj
    · rw [update_self] at hy
      exact (hx y hy).1
    · rw [update_of_ne hj] at hy
      exact h.loaded j y hy
  · rcases eq_or_ne j i with rfl | hj
    · rw [update_self] at hy
      exact (hx y hy).2 hju
    · rw [update_of_ne hj] at hy
      exact h.saved j y hy (hu j hj hju)

theorem HeldOk.take (h : HeldOk l H) (i : Slot) :
    HeldOk { l with held := i :: l.held } (update H i (some ⟨dev, b, .clean⟩)) := by
  refine h.set (fun j => ?_) ?_ (fun j _ hj => hj)
  · by_cases hj : j = i <;> simp [hj]
  · rintro y ⟨⟩
    simp

theorem HeldOk.modify (h : HeldOk l H) (hi : i ∈ l.held) {d : Bytes} :
    HeldOk { l with unsaved := i :: l.unsaved }
      (update H i (some ⟨dev, b, .unsaved d⟩)) := by
  refine h.set (fun j => ?_) ?_ (fun j _ hj => fun hmem => hj (by simp [hmem]))
  · by_cases hj : j = i <;> simp [hj, hi]
  · rintro y ⟨⟩
    simp

theorem HeldOk.save (h : HeldOk l H) (hi : i ∈ l.held) :
    HeldOk { l with unsaved := l.unsaved.filter (· ≠ i) }
      (update H i (some ⟨dev, b, .clean⟩)) := by
  refine h.set (fun j => ?_) ?_ (fun j hji hj => fun hmem => hj (by simp [hmem, hji]))
  · by_cases hj : j = i <;> simp [hj, hi]
  · rintro y ⟨⟩
    simp

theorem HeldOk.drop (h : HeldOk l H) : HeldOk { l with held := l.held.filter (· ≠ i) } (update H i none) := by
  refine h.set (fun j => ?_) (by simp) (fun j _ hj => hj)
  by_cases hj : j = i <;> simp [hj]

end

section

variable {J : View Pid → (Pid → G) → Prop} {E : Machine Pid → Fault → Prop} {p : Pid}
  {R : Pid → Option ℕ → G → Prop} {l : Client} {x : Ghost G} {dev b : ℕ} {i : Slot}
  (hE : ∀ m e, e ≠ tooBig → E m e)

include hE in
theorem wp_call_bread (hJ : Stable J) (hdev : dev ≠ NODEV) (hl : Idle R p l x) :
    wp (Inv J) E p (body p l (.bread dev b)) x (Idle R p) := by
  obtain ⟨H, g⟩ := x
  refine wp_seq (R := fun i y => y = (update H i (some ⟨dev, b, .clean⟩), g)) ?_ ?_
  · exact wp_bread hE hJ hdev fun i _ => rfl
  · rintro i _ rfl
    exact ⟨hl.1.take i, hl.2⟩

theorem wp_call_modify {d : Bytes} (hi : i ∈ l.held) (hl : Idle R p l x) :
    wp (Inv J) E p (body p l (.modify i d)) x (Idle R p) := by
  obtain ⟨H, g⟩ := x
  obtain ⟨y, hy, hph⟩ := hl.1.get hi
  refine wp_seq (R := fun _ z => z = (update H i (some ⟨y.dev, y.b, .unsaved d⟩), g)) ?_ ?_
  · exact wp_setData hy hph fun m γ st _ _ _ => rfl
  · rintro _ _ rfl
    exact ⟨hl.1.modify hi, hl.2⟩

include hE in
theorem wp_call_brelse (hJ : Stable J) (hi : i ∈ l.held) (hs : i ∉ l.unsaved)
    (hl : Idle R p l x) : wp (Inv J) E p (body p l (.brelse i)) x (Idle R p) := by
  obtain ⟨H, g⟩ := x
  obtain ⟨⟨dev, b, ph⟩, hy, -⟩ := hl.1.get hi
  obtain rfl : ph = .clean := hl.1.saved i _ hy hs
  refine wp_seq (R := fun _ z => z = (update H i none, g)) ?_ ?_
  · exact wp_brelse hE hJ hy rfl
  · rintro _ _ rfl
    exact ⟨hl.1.drop, hl.2⟩

end

end Xv6.Bio
