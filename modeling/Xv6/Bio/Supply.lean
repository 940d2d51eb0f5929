import Xv6.Bio.Crash

/-!
# Log space and buffers for admitted operations

`begin_op` admits an operation when the log has `MAXOPBLOCKS` slots for it and for each operation
already running. `log_write` however refuses a block when `LOGSIZE - 1` slots are taken, and there
are only `NBUF = LOGSIZE` buffers for the pinned blocks and for those in use. Both limits can be
reached by operations that keep to their share; this module says exactly when.
-/

namespace Xv6.Bio

open Conc Lib

variable {Pid : Type} [DecidableEq Pid]

/-- The distinct blocks an operation has logged. -/
def opBlocks (start : ℕ) (h : List (Ev Pid)) (op : ℕ) : List ℕ :=
  ((ofOp op (journal start h).all).map (·.b)).dedup

/-- Operations that log at most `MAXOPBLOCKS` distinct blocks each. -/
def logsWithinLimit (start : ℕ) (boot : Pid) (m : Machine Pid) (p : Pid) (l : Client) (k : Call) :
    Prop :=
  usesLog start boot m p l k ∧
    match k with
    | .logWrite i =>
      (insert (m.buf i).blockno (opBlocks start m.hist (l.op.getD 0))).length ≤ MAXOPBLOCKS
    | _ => True

instance (start : ℕ) (boot : Pid) (m : Machine Pid) (p : Pid) (l : Client) (k : Call) :
    Decidable (logsWithinLimit start boot m p l k) :=
  match k with
  | .initlog | .beginOp | .endOp | .bread _ _ | .modify _ _ | .logWrite _ | .bwrite _ | .brelse _ => instDecidableAnd

/-- Processes whose operations log at most `MAXOPBLOCKS` distinct blocks each. -/
abbrev limitedProtocol (start : ℕ) (boot : Pid) : Protocol (Machine Pid) Pid Client :=
  protocol cutPower (logsWithinLimit start boot)

/-! ## The sections that can run out of space -/

/-- A section of `bio.c` or `log.c` that process `p` runs: the test of `log_write`, the pass of
`bget`, or one that cannot run out of log space or buffers. -/
inductive SpaceSection (p : Pid) : (β : Type) → (Machine Pid → Outcome (Machine Pid) β) → Prop
  | test : SpaceSection p Unit logWriteTest
  | bget (dev b : ℕ) : SpaceSection p Slot (bgetStep p dev b)
  | quiet {β : Type} {f : Machine Pid → Outcome (Machine Pid) β}
      (safe : ∀ m e, f m = .fault e → e ≠ tooBig ∧ e ≠ noBuffers) : SpaceSection p β f

section

variable {p : Pid}

section

omit [DecidableEq Pid]

theorem sections_reads {α : Type} (f : Machine Pid → α) : (Prog.reads f).Sections (SpaceSection p) :=
  Prog.sections_atomic (.quiet fun _ _ h => by cases h)

theorem sections_modifies (f : Machine Pid → Machine Pid) : (Prog.modifies f).Sections (SpaceSection p) :=
  Prog.sections_atomic (.quiet fun _ _ h => by cases h)

theorem sections_bread (dev b : ℕ) : (bread p dev b).Sections (SpaceSection p) :=
  (Prog.sections_atomic (.bget dev b)).bind fun _ =>
    Prog.sections_atomic (.quiet fun _ _ h => bfill_fault h)

theorem sections_bwrite (i : Slot) : (bwrite p i).Sections (SpaceSection p) :=
  Prog.sections_atomic (.quiet fun _ _ h => bwriteStep_fault h)

theorem sections_brelse (i : Slot) : (brelse p i).Sections (SpaceSection p) :=
  Prog.sections_atomic (.quiet fun _ _ h => brelseStep_fault h)

theorem sections_forTail {body : ℕ → ℕ → Prog (Machine Pid) Unit}
    (hbody : ∀ tail b, (body tail b).Sections (SpaceSection p)) (fuel tail : ℕ) :
    (forTail body fuel tail).Sections (SpaceSection p) := by
  induction fuel generalizing tail with
  | zero => exact trivial
  | succ fuel ih =>
    refine (sections_reads _).bind fun b? => ?_
    cases b? with
    | none => exact trivial
    | some b => exact (hbody tail b).bind fun _ => ih _

theorem sections_installTrans : (installTrans p).Sections (SpaceSection p) :=
  sections_forTail (fun _ _ => (sections_reads _).bind fun _ => (sections_bread ..).bind fun _ =>
    (sections_bread ..).bind fun _ => (sections_modifies _).bind fun _ =>
    (sections_bwrite ..).bind fun _ => (sections_brelse ..).bind fun _ => sections_brelse ..) _ _

theorem sections_writeLog : (writeLog p).Sections (SpaceSection p) :=
  sections_forTail (fun _ _ => (sections_reads _).bind fun _ => (sections_bread ..).bind fun _ =>
    (sections_bread ..).bind fun _ => (sections_modifies _).bind fun _ =>
    (sections_bwrite ..).bind fun _ => (sections_brelse ..).bind fun _ => sections_brelse ..) _ _

theorem sections_writeHead : (writeHead p).Sections (SpaceSection p) :=
  (sections_reads _).bind fun _ => (sections_bread ..).bind fun _ =>
    (sections_modifies _).bind fun _ => (sections_bwrite ..).bind fun _ => sections_brelse ..

theorem sections_initlog (dev : ℕ) : (initlog p dev).Sections (SpaceSection p) := by
  have hread : (readHead p).Sections (SpaceSection p) :=
    (sections_reads _).bind fun _ => (sections_bread ..).bind fun _ =>
      (Prog.sections_atomic (.quiet fun _ _ h => readHeadStep_fault h)).bind fun _ =>
      sections_brelse ..
  have hrecover : (recoverFromLog p).Sections (SpaceSection p) :=
    hread.bind fun _ => sections_installTrans.bind fun _ => (sections_modifies _).bind fun _ =>
      sections_writeHead
  exact (sections_bread ..).bind fun _ => (sections_reads _).bind fun _ =>
    (sections_brelse ..).bind fun _ => (sections_modifies _).bind fun _ => hrecover.bind fun _ =>
    sections_modifies _

theorem sections_endOp (op : ℕ) : (endOp p op).Sections (SpaceSection p) := by
  have hcommit : (commit p).Sections (SpaceSection p) := by
    refine (sections_reads _).bind fun lh => ?_
    split
    · exact sections_writeLog.bind fun _ => sections_writeHead.bind fun _ =>
        sections_installTrans.bind fun _ => (sections_modifies _).bind fun _ =>
        sections_writeHead
    · exact trivial
  refine (Prog.sections_atomic (.quiet fun _ _ h => endOpStep_fault h)).bind fun last => ?_
  split
  · exact hcommit.bind fun _ => sections_modifies _
  · exact trivial

/-- Every call consists of such sections. -/
theorem sections_body (l : Client) (k : Call) : (body p l k).Sections (SpaceSection p) := by
  cases k with
  | beginOp =>
    exact (Prog.sections_atomic (.quiet fun _ _ h => beginOpStep_fault h)).bind fun _ => trivial
  | endOp => exact (sections_endOp _).bind fun _ => trivial
  | bread dev b => exact (sections_bread dev b).bind fun _ => trivial
  | modify i d => exact (sections_modifies _).bind fun _ => trivial
  | logWrite i =>
    have hlog : (logWrite p (l.op.getD 0) i).Sections (SpaceSection p) :=
      (Prog.sections_atomic .test).bind fun _ =>
        Prog.sections_atomic (.quiet fun _ _ h => logWriteStep_fault h)
    exact hlog.bind fun _ => trivial
  | bwrite i => exact (sections_bwrite i).bind fun _ => trivial
  | brelse i => exact (sections_brelse i).bind fun _ => trivial
  | initlog => exact (sections_initlog _).bind fun _ => trivial

end

/-- What a process of a system runs next, in any state reached from the start. -/
theorem spaceSection_of_reach {restart : Machine Pid → Machine Pid → Prop}
    {ok : Machine Pid → Pid → Client → Call → Prop} {disk : ℕ → ℕ → Bytes}
    {c : Config (Machine Pid) Pid Client} (hc : Reach (protocol restart ok) (logStart disk) c)
    {β : Type} {f : Machine Pid → Outcome (Machine Pid) β} {k : β → Prog (Machine Pid) Client}
    (hp : c.thread p = .act f k) : SpaceSection p β f := by
  have hstart : ∀ q : Pid, ((logStart disk).thread q).Sections (SpaceSection q) :=
    fun _ => trivial
  have h := sections_of_reach (fun _ l k => sections_body l k) hstart hc p
  rw [hp] at h
  exact h.1

end

/-! ## Log space -/

section

variable {start : ℕ} {boot : Pid} {disk : ℕ → ℕ → Bytes}

end

/-- Three processes boot and log `n` blocks, ten to an operation. The first block goes into buffer 2,
behind the two that recovery has used, and so on round the list. -/
def fillLog (n : ℕ) : List (Fin 3 × Call) :=
  [(0, .initlog), (0, .beginOp), (1, .beginOp), (2, .beginOp)] ++
    (List.range n).flatMap fun k =>
      let p := Fin.ofNat 3 (k / 10)
      let i : Slot := Fin.ofNat NBUF (k + 2)
      [(p, .bread ROOTDEV (100 + k)), (p, .logWrite i), (p, .brelse i)]

/-- The third operation has logged nine blocks and is about to log its tenth, in buffer 1. -/
theorem fillLog_tooBig : ((runCalls (limitedProtocol 2 (0 : Fin 3))
    (fillLog 29 ++ [(2, .bread ROOTDEV 129)]) (powerOn blankDisk []) fun _ => Client.idle).elim false
      fun x => logsWithinLimit 2 0 x.1 2 (x.2 2) (.logWrite 1) ∧
        (LOGSIZE ≤ x.1.log.lh.length ∨ x.1.log.size ≤ x.1.log.lh.length + 1)) = true := by
  decide +kernel

/-- Operations that moreover hold at most two buffers at a time and none when they end; nobody else
uses the cache. -/
def holdsWithinLimit (start : ℕ) (boot : Pid) (m : Machine Pid) (p : Pid) (l : Client) (k : Call) :
    Prop :=
  logsWithinLimit start boot m p l k ∧
    match k with
    | .bread _ _ => l.op ≠ none ∧ l.held.length < 2
    | .endOp => l.held = []
    | _ => True

instance (start : ℕ) (boot : Pid) (m : Machine Pid) (p : Pid) (l : Client) (k : Call) :
    Decidable (holdsWithinLimit start boot m p l k) :=
  match k with
  | .initlog | .beginOp | .endOp | .bread _ _ | .modify _ _ | .logWrite _ | .bwrite _ | .brelse _ => instDecidableAnd

/-- Processes whose operations log at most `MAXOPBLOCKS` blocks and hold at most two buffers. -/
abbrev supplyProtocol (start : ℕ) (boot : Pid) : Protocol (Machine Pid) Pid Client :=
  protocol cutPower (holdsWithinLimit start boot)

section

variable {m : Machine Pid} {γ : HoldMap Pid} {st : Store Pid} {p : Pid} {dev b : ℕ}

/-- The buffers `bget` cannot recycle. -/
def usedSlots (m : Machine Pid) : Finset Slot :=
  Finset.univ.filter fun i => (m.buf i).busy = true ∨ (m.buf i).dirty = true

omit [DecidableEq Pid] in
/-- `bget` panics exactly when the block is not cached and every buffer is busy or dirty. -/
theorem bgetStep_noBuffers (hr : RingOk m) :
    bgetStep p dev b m = .fault noBuffers ↔ (∀ i, ¬Carries m i dev b) ∧ usedSlots m = Finset.univ := by
  simp only [bgetStep]
  split
  next i hi =>
    have hcar : Carries m i dev b := by simpa [Carries] using List.find?_some hi
    constructor
    · intro h
      split at h <;> cases h
    · exact fun h => absurd hcar (h.1 i)
  next hnone =>
    have hnc : ∀ i, ¬Carries m i dev b := by
      intro i hi
      have := List.find?_eq_none.mp hnone i (hr.mem_forward i)
      exact this (by simpa [Carries] using hi)
    split
    next i hi =>
      have hfree := List.find?_some hi
      simp only [reduceCtorEq, false_iff, not_and]
      intro _ hall
      have hi : i ∈ usedSlots m := hall ▸ Finset.mem_univ i
      simp only [usedSlots, Finset.mem_filter, Finset.mem_univ, true_and] at hi
      simp only [Bool.not_eq_true, Bool.decide_and, Bool.and_eq_true, decide_eq_true_eq] at hfree
      simp [hfree] at hi
    next hall =>
      refine iff_of_true rfl ⟨hnc, Finset.eq_univ_iff_forall.mpr fun i => ?_⟩
      have := List.find?_eq_none.mp hall i (hr.mem_backward i)
      simp only [usedSlots, Finset.mem_filter, Finset.mem_univ, true_and]
      by_contra hne
      exact this (by simpa using hne)

/-- The block a buffer carries. -/
def slotBlock (m : Machine Pid) (i : Slot) : ℕ × ℕ := ((m.buf i).dev, (m.buf i).blockno)

omit [DecidableEq Pid] in
/-- The blocks in use are those of the buffers that cannot be recycled, each once. -/
theorem inUse_eq_image (hc : Coh m γ st) (hu : UseOk (view m st))
    (hd : ∀ dev b, DirtyBlock m dev b → dev ≠ NODEV) :
    inUse m.hist = (usedSlots m).image (slotBlock m) ∧ Set.InjOn (slotBlock m) (usedSlots m) := by
  have hlive : ∀ i ∈ usedSlots m, (m.buf i).dev ≠ NODEV := by
    intro i hi
    simp only [usedSlots, Finset.mem_filter, Finset.mem_univ, true_and] at hi
    rcases hi with hb | hdirty
    · obtain ⟨q, hq⟩ := (hc.busy i).mp hb
      obtain ⟨x, hx⟩ := Option.ne_none_iff_exists'.mp hq
      obtain ⟨hcar, hlive⟩ := hc.carries i q x hx
      rwa [hcar.1]
    · exact hd _ _ ⟨i, ⟨rfl, rfl⟩, hdirty⟩
  refine ⟨?_, fun i hi j _ hij => ?_⟩
  · ext ⟨dev, b⟩
    have h1 := hu.held dev b
    have h2 := hu.dirty dev b
    simp only [inUse, Finset.mem_union, Finset.mem_image, usedSlots, Finset.mem_filter,
      Finset.mem_univ, true_and, slotBlock, Prod.mk.injEq]
    constructor
    · rintro (ht | hp)
      · obtain ⟨q, hq⟩ := Option.ne_none_iff_exists'.mp (h1.mp ht)
        obtain ⟨i, x, hx, rfl, rfl⟩ := (hc.holder _ _ _).mp hq
        exact ⟨i, Or.inl ((hc.busy i).mpr ⟨q, by simp [hx]⟩), (hc.carries i q x hx).1⟩
      · obtain ⟨i, hcar, hdirty⟩ := h2.mp hp
        exact ⟨i, Or.inr hdirty, hcar⟩
    · rintro ⟨i, hb | hdirty, rfl, rfl⟩
      · obtain ⟨q, hq⟩ := (hc.busy i).mp hb
        obtain ⟨x, hx⟩ := Option.ne_none_iff_exists'.mp hq
        obtain ⟨hcar, -⟩ := hc.carries i q x hx
        refine Or.inl (h1.mpr ?_)
        rw [hcar.1, hcar.2]
        have hheld : (view m st).st.holder x.dev x.b = some q := hc.holder_held hx
        simp [hheld]
      · exact Or.inr (h2.mpr ⟨i, ⟨rfl, rfl⟩, hdirty⟩)
  · obtain ⟨h1, h2⟩ := Prod.mk.inj hij
    exact hc.unique i j _ _ ⟨rfl, rfl⟩ ⟨h1.symm, h2.symm⟩ (hlive i hi)

end

section

variable {start : ℕ} {boot : Pid} {disk : ℕ → ℕ → Bytes}

/-- `bget` finds a buffer exactly when the block is itself in use, or fewer than `NBUF` blocks are in
use: taken and not released, or logged and not yet installed. -/
theorem bgetStep_noBuffers_iff (hfmt : Formatted start (disk ROOTDEV))
    {c : Config (Machine Pid) Pid Client}
    (hc : Reach (supplyProtocol start boot) (logStart disk) c) (p : Pid) (dev b : ℕ) :
    bgetStep p dev b c.shared = .fault noBuffers ↔
      (dev, b) ∉ inUse c.shared.hist ∧ NBUF ≤ (inUse c.shared.hist).card := by
  obtain ⟨γ, ⟨st, hcoh, hinv⟩, -⟩ := log_holds hfmt (fun _ _ _ _ hk => hk.1.1) hc
  have hd : ∀ dev b, DirtyBlock c.shared dev b → dev ≠ NODEV := by
    intro dev b hdirty
    rw [(hinv.dirty dev b hdirty).1]
    exact rootdev_ne
  obtain ⟨himg, hinj⟩ := inUse_eq_image hcoh hinv.use hd
  have hcard : (inUse c.shared.hist).card = (usedSlots c.shared).card := by
    rw [himg, Finset.card_image_of_injOn hinj]
  have hall : usedSlots c.shared = Finset.univ ↔ NBUF ≤ (inUse c.shared.hist).card := by
    rw [hcard, ← Finset.card_eq_iff_eq_univ, Fintype.card_fin]
    have := Finset.card_le_univ (usedSlots c.shared)
    rw [Fintype.card_fin] at this
    omega
  rw [bgetStep_noBuffers hcoh.ring, hall]
  constructor
  · rintro ⟨hnc, hfull⟩
    refine ⟨fun hmem => ?_, hfull⟩
    rw [himg, Finset.mem_image] at hmem
    obtain ⟨i, -, hi⟩ := hmem
    obtain ⟨h1, h2⟩ := Prod.mk.inj hi
    exact hnc i ⟨h1, h2⟩
  · rintro ⟨hmem, hfull⟩
    refine ⟨fun i hi => hmem ?_, hfull⟩
    -- every buffer is in use, so a cached block is too
    rw [himg, Finset.mem_image]
    exact ⟨i, hall.mpr hfull ▸ Finset.mem_univ i, Prod.ext hi.1 hi.2⟩

end

/-- The operations have logged 28 blocks, the first one holds two others, and the second one is about
to read a further block. -/
theorem fillLog_noBuffers : ((runCalls (supplyProtocol 2 (0 : Fin 3))
    (fillLog 28 ++ [(0, .bread ROOTDEV 200), (0, .bread ROOTDEV 201)]) (powerOn blankDisk [])
    fun _ => Client.idle).elim false fun x =>
      holdsWithinLimit 2 0 x.1 1 (x.2 1) (.bread ROOTDEV 202) ∧
        (∀ i, ¬((x.1.buf i).dev = ROOTDEV ∧ (x.1.buf i).blockno = 202)) ∧
        ∀ i, (x.1.buf i).busy = true ∨ (x.1.buf i).dirty = true) = true := by
  decide +kernel

end Xv6.Bio
