import Xv6.Bio.Journal
import Xv6.Bio.Rules

/-!
# The invariant of the log

A disk with a log of `LOGSIZE` blocks at `start` (a header and `LOGSIZE - 1` copies) stands for the
contents `D` when the header lists blocks `bl`, the copies are the contents of those blocks in `D`,
and every block that is not listed is in place (`OnDisk`). Power cuts at any point keep this: that
is what makes recovery possible. `LogInv` adds what is true of the memory in each stage of a commit
or a recovery, and between them.
-/

namespace Xv6.Bio

open Lib
open Function (update update_self update_of_ne)

variable {Pid : Type}

/-- A block of the log. -/
def InLog (start b : ℕ) : Prop := start ≤ b ∧ b < start + LOGSIZE

/-- A block that operations may write: in the file system, not in the log, not the superblock. -/
def Home (start b : ℕ) : Prop := b < FSSIZE ∧ b ≠ 1 ∧ ¬InLog start b

instance (start b : ℕ) : Decidable (InLog start b) := inferInstanceAs (Decidable (_ ∧ _))

instance (start b : ℕ) : Decidable (Home start b) := inferInstanceAs (Decidable (_ ∧ _ ∧ _))

/-- The superblock gives the place of the log and the size `mkfs` writes. -/
def SbOk (start : ℕ) (d : Bytes) : Prop := d.word 4 16 = start ∧ d.word 4 12 = LOGSIZE

/-- The log lies behind the superblock and inside the file system. -/
structure Geometry (start : ℕ) : Prop where
  lo : 1 < start
  hi : start + LOGSIZE ≤ FSSIZE

/-- The disk stands for the contents `D`, with the blocks `bl` still to be copied from the log. -/
structure OnDisk (start : ℕ) (disk D : ℕ → Bytes) (bl : List ℕ) : Prop where
  head : headBlocks (disk start) = bl
  nodup : bl.Nodup
  home : ∀ b ∈ bl, Home start b
  fits : bl.length + 1 ≤ LOGSIZE
  copy : ∀ i b, bl[i]? = some b → disk (start + i + 1) = D b
  rest : ∀ b, ¬InLog start b → b ∉ bl → disk b = D b

/-! ## The header block -/

section

variable {d : Bytes} {lh : List ℕ}

@[simp] theorem length_headBlocks : (headBlocks d).length = headN d := by simp [headBlocks]

/-- The words of a header after some entries have been stored from position `k` on. -/
theorem word_putEntries (lh : List ℕ) (k : ℕ) (d : Bytes) (i : ℕ) :
    ((lh.zipIdx k).foldl (fun d be => d.setWord 4 (4 * be.2) be.1) d).word 4 (4 * i) =
      if k ≤ i then (lh[i - k]?.map (· % 2 ^ 32)).getD (d.word 4 (4 * i))
      else d.word 4 (4 * i) := by
  induction lh generalizing k d with
  | nil => simp
  | cons b lh ih =>
    rw [List.zipIdx_cons, List.foldl_cons, ih]
    rcases eq_or_ne i k with rfl | hik
    · simp [Bytes.word_setWord_self]
    · have hdis : (d.setWord 4 (4 * k) b).word 4 (4 * i) = d.word 4 (4 * i) :=
        Bytes.word_setWord_of_disjoint (by omega)
      rw [hdis]
      by_cases hki : k + 1 ≤ i
      · obtain ⟨n, hn⟩ : ∃ n, i - k = n + 1 := ⟨i - k - 1, by omega⟩
        rw [if_pos hki, if_pos (by omega), hn, List.getElem?_cons_succ]
        congr 3
        omega
      · rw [if_neg hki, if_neg (by omega)]

/-- `write_head` stores the count. -/
theorem headN_putHead (hn : lh.length < 2 ^ 32) : headN (putHead d lh) = lh.length := by
  have h := word_putEntries lh 1 (d.setWord 4 0 lh.length) 0
  rw [if_neg (by omega), Nat.mul_zero] at h
  rw [headN, putHead, h, Bytes.word_setWord_self]
  exact Nat.mod_eq_of_lt hn

/-- `read_head` reads what `write_head` stored. -/
theorem headBlocks_putHead (hn : lh.length < 2 ^ 32) (hb : ∀ b ∈ lh, b < 2 ^ 32) :
    headBlocks (putHead d lh) = lh := by
  refine List.ext_getElem (by simp [headN_putHead hn]) fun i hi hi' => ?_
  have h := word_putEntries lh 1 (d.setWord 4 0 lh.length) (i + 1)
  rw [if_pos (by omega), Nat.add_sub_cancel, List.getElem?_eq_getElem hi', Option.map_some,
    Option.getD_some, Nat.mod_eq_of_lt (hb _ (List.getElem_mem hi'))] at h
  simp only [headBlocks, List.getElem_map, List.getElem_range]
  rw [putHead, ← h]
  congr 1
  omega

end

/-! ## The state of the log -/

/-- How far a commit or a recovery has come: copies written to the log, blocks installed, the header
in memory cleared, the header on the disk cleared; before that, in a recovery, the log's parameters
not yet known, and known. -/
inductive Stage where
  | writing (t : ℕ)
  | installing (t : ℕ)
  | erasing
  | finished
  | booting
  | booted

/-- What a process is doing: nothing, something outside operations since the system is up, an
operation, or a commit (`up`) or recovery of the blocks `bl`, which leads to the contents `N`. -/
inductive Mode where
  | idle
  | user
  | inOp (op : ℕ)
  | sys (up : Bool) (bl : List ℕ) (N : ℕ → Bytes) (s : Stage)

/-- The operation a process is in. -/
def Mode.op : Mode → Option ℕ
  | .inOp op => some op
  | _ => none

/-- The process does not concern the log. -/
def Mode.Quiet (up : Bool) (g : Mode) : Prop := g = .idle ∨ g = .user ∧ up = true

/-- What the log is about: the contents and dirty blocks of its device, and its transactions. -/
structure Core where
  content : ℕ → Bytes
  disk : ℕ → Bytes
  dirty : ℕ → Prop
  log : Log
  up : Bool
  jr : Journal

def core (start : ℕ) (V : View Pid) : Core :=
  { content := V.st.content ROOTDEV
    disk := V.disk ROOTDEV
    dirty := V.dirty ROOTDEV
    log := V.log
    up := V.up
    jr := journal start V.hist }

/-- `initlog` has set the parameters of the log. -/
structure LogUp (start : ℕ) (log : Log) : Prop where
  start : log.start = start
  size : log.size = LOGSIZE
  dev : log.dev = ROOTDEV

section

variable (start : ℕ) (D₀ : ℕ → Bytes) (c : Core)

/-- The stages of a commit or recovery. -/
def StageOk (up : Bool) (bl : List ℕ) (N : ℕ → Bytes) : Stage → Prop
  | .writing t =>
    up = true ∧ LogUp start c.log ∧ c.log.lh = bl ∧ bl ≠ [] ∧ bl.Nodup ∧
      (∀ b, c.dirty b ↔ b ∈ bl) ∧ OnDisk start c.disk (c.jr.base D₀) [] ∧
      (∀ b, ¬InLog start b → c.content b = N b) ∧ N = apply c.jr.pend (c.jr.base D₀) ∧
      (∀ b, b ∉ bl → N b = c.jr.base D₀ b) ∧
      (∀ i b, i < t → bl[i]? = some b → c.disk (start + i + 1) = N b) ∧
      (0 < t → bl.length + 1 ≤ LOGSIZE)
  | .installing t =>
    LogUp start c.log ∧ c.log.lh = bl ∧ c.jr.base D₀ = N ∧ OnDisk start c.disk N bl ∧
      (∀ b, c.dirty b → b ∈ bl.drop t) ∧ (∀ b ∈ bl.take t, c.disk b = N b) ∧
      (up = true → c.jr.pend = [])
  | .erasing =>
    LogUp start c.log ∧ c.log.lh = [] ∧ c.jr.base D₀ = N ∧ OnDisk start c.disk N bl ∧
      (∀ b, ¬c.dirty b) ∧ (∀ b ∈ bl, c.disk b = N b) ∧ (up = true → c.jr.pend = [])
  | .finished =>
    LogUp start c.log ∧ c.log.lh = [] ∧ c.jr.base D₀ = N ∧ OnDisk start c.disk N [] ∧
      (∀ b, ¬c.dirty b) ∧ (up = true → c.jr.pend = [])
  | .booting =>
    up = false ∧ c.log.lh = [] ∧ c.jr.base D₀ = N ∧ OnDisk start c.disk N bl ∧ (∀ b, ¬c.dirty b)
  | .booted =>
    up = false ∧ LogUp start c.log ∧ c.log.lh = [] ∧ c.jr.base D₀ = N ∧
      OnDisk start c.disk N bl ∧ (∀ b, ¬c.dirty b)

/-- A commit or a recovery is running, and no operation is. -/
structure SysOk (up : Bool) (bl : List ℕ) (N : ℕ → Bytes) (s : Stage) : Prop where
  isUp : c.up = up
  committing : c.log.committing = up
  outstanding : c.log.outstanding = 0
  cur : c.jr.cur = []
  stage : StageOk start D₀ c up bl N s

/-- Operations may run. The blocks of the open transaction are listed, dirty, and not yet on the
disk. -/
structure OpsOk (δ : Pid → Mode) : Prop where
  isUp : c.up = true
  noSys : ∀ p, (δ p).op ≠ none ∨ (δ p).Quiet true
  outstanding : ∃ S : Finset Pid, (∀ p, p ∈ S ↔ (δ p).op ≠ none) ∧ c.log.outstanding = S.card
  committing : c.log.committing = false
  log : LogUp start c.log
  nodup : c.log.lh.Nodup
  lh : ∀ b, b ∈ c.log.lh ↔ ∃ w ∈ c.jr.cur, w.b = b
  dirty : ∀ b, c.dirty b ↔ b ∈ c.log.lh
  disk : OnDisk start c.disk (c.jr.base D₀) []
  content : ∀ b, ¬InLog start b → c.content b = apply c.jr.cur (c.jr.base D₀) b
  pend : c.jr.pend = []

/-- The power has come on and recovery has not begun. -/
structure DownOk : Prop where
  isUp : c.up = false
  committing : c.log.committing = false
  outstanding : c.log.outstanding = 0
  lh : c.log.lh = []
  cur : c.jr.cur = []
  disk : ∃ bl, OnDisk start c.disk (c.jr.base D₀) bl
  dirty : ∀ b, ¬c.dirty b

/-- The three situations the log can be in. -/
inductive Situation (δ : Pid → Mode) : Prop where
  | sys (p : Pid) (up : Bool) (bl : List ℕ) (N : ℕ → Bytes) (s : Stage) (hp : δ p = .sys up bl N s)
      (others : ∀ q, q ≠ p → (δ q).Quiet up) (ok : SysOk start D₀ c up bl N s)
  | ops (ok : OpsOk start D₀ c δ)
  | down (idle : ∀ p, δ p = .idle) (ok : DownOk start D₀ c)

end

/-- Right after a recovery everything is in place on the disk. -/
def Settled (start : ℕ) (D₀ : ℕ → Bytes) (V : View Pid) : Prop :=
  ∀ h, V.hist = .recovered :: h →
    OnDisk start (V.disk ROOTDEV) ((journal start V.hist).base D₀) []

/-- The view invariant of the log, over the initial contents `D₀`; `boot` is the process that
recovers. -/
structure LogInv (boot : Pid) (start : ℕ) (D₀ : ℕ → Bytes) (V : View Pid) (δ : Pid → Mode) :
    Prop where
  trace : TraceOk start V.hist fun p => (δ p).op
  use : UseOk V
  dirty : ∀ dev b, V.dirty dev b → dev = ROOTDEV ∧ Home start b
  sb : SbOk start (V.disk ROOTDEV 1)
  situation : Situation start D₀ (core start V) δ
  boot : ∀ p bl N s, δ p = .sys false bl N s → p = boot
  settled : Settled start D₀ V

/-! ## Writes to the disk -/

section

variable {start : ℕ} {disk D : ℕ → Bytes} {bl : List ℕ} {b : ℕ} {v d : Bytes}

theorem Home.lt (h : Home start b) : b < 2 ^ 32 := lt_trans h.1 (by decide)

/-- Copying a listed block to its home leaves the rest to do as it was. -/
theorem OnDisk.install (h : OnDisk start disk D bl) (hb : b ∈ bl) : OnDisk start (update disk b (D b)) D bl := by
  have hnl : ¬InLog start b := (h.home b hb).2.2
  have hlen := h.fits
  refine ⟨?_, h.nodup, h.home, h.fits, fun i c hi => ?_, fun c hc hcb => ?_⟩
  · have hne : start ≠ b := fun e => hnl ⟨e.le, by omega⟩
    rw [update_of_ne hne]
    exact h.head
  · have hilt : i < bl.length := (List.getElem?_eq_some_iff.mp hi).1
    have hne : start + i + 1 ≠ b := fun e => hnl ⟨by omega, by omega⟩
    rw [update_of_ne hne]
    exact h.copy i c hi
  · have hne : c ≠ b := fun e => hcb (e ▸ hb)
    rw [update_of_ne hne]
    exact h.rest c hc hcb

/-- With an empty header the copies do not matter. -/
theorem OnDisk.writeCopy (h : OnDisk start disk D []) (hb : InLog start b) (hne : b ≠ start) :
    OnDisk start (update disk b v) D [] := by
  refine ⟨?_, h.nodup, h.home, h.fits, by simp, fun c hc hcb => ?_⟩
  · rw [update_of_ne hne.symm]
    exact h.head
  · have hcb' : c ≠ b := fun e => hc (e ▸ hb)
    rw [update_of_ne hcb']
    exact h.rest c hc hcb

/-- Writing the header makes the copies count. -/
theorem OnDisk.commit {N : ℕ → Bytes} (h : OnDisk start disk D []) (hnd : bl.Nodup)
    (hhome : ∀ b ∈ bl, Home start b) (hfits : bl.length + 1 ≤ LOGSIZE)
    (hcopy : ∀ i b, bl[i]? = some b → disk (start + i + 1) = N b)
    (hrest : ∀ b, b ∉ bl → N b = D b) :
    OnDisk start (update disk start (putHead d bl)) N bl := by
  refine ⟨?_, hnd, hhome, hfits, fun i c hi => ?_, fun c hc hcb => ?_⟩
  · rw [update_self]
    have hsmall : bl.length < LOGSIZE := hfits
    exact headBlocks_putHead (hsmall.trans (by decide)) fun c hc => (hhome c hc).lt
  · have hne : start + i + 1 ≠ start := by omega
    rw [update_of_ne hne]
    exact hcopy i c hi
  · have hne : c ≠ start := fun e => hc ⟨e.ge, by omega⟩
    rw [update_of_ne hne, hrest c hcb]
    exact h.rest c hc (by simp)

/-- Once every listed block is in place, the header can be cleared. -/
theorem OnDisk.erase (h : OnDisk start disk D bl) (hin : ∀ b ∈ bl, disk b = D b) :
    OnDisk start (update disk start (putHead d [])) D [] := by
  refine ⟨?_, List.nodup_nil, by simp, by decide, by simp, fun c hc _ => ?_⟩
  · rw [update_self]
    exact headBlocks_putHead (by simp) (by simp)
  · have hlen := h.fits
    have hne : c ≠ start := fun e => hc ⟨e.ge, by omega⟩
    rw [update_of_ne hne]
    by_cases hcb : c ∈ bl
    · exact hin c hcb
    · exact h.rest c hc hcb

end

/-! ## The stages -/

/-- The effect of `bwrite` on the log's device. -/
def Core.store (c : Core) (b : ℕ) (d : Bytes) : Core :=
  { c with
    content := Function.update c.content b d
    disk := Function.update c.disk b d
    dirty := fun x => c.dirty x ∧ x ≠ b }

/-- The effect of the header write that commits. -/
def Core.commit (c : Core) (start : ℕ) (d : Bytes) : Core :=
  { c.store start d with jr := { c.jr with done := c.jr.done ++ [c.jr.pend], pend := [] } }

section

variable {start : ℕ} {D₀ N : ℕ → Bytes} {c : Core} {up : Bool} {bl : List ℕ} {t b : ℕ} {d : Bytes}

theorem StageOk.writeCopy (h : StageOk start D₀ c up bl N (.writing t)) (hb : bl[t]? = some b)
    (hroom : bl.length + 1 ≤ LOGSIZE) (hhome : ∀ b ∈ bl, Home start b) :
    StageOk start D₀ (c.store (start + t + 1) (N b)) up bl N (.writing (t + 1)) := by
  obtain ⟨hup, hlog, hlh, hne, hnd, hdirty, hdisk, hcont, hN, hrest, hcopy, -⟩ := h
  have ht : t < bl.length := (List.getElem?_eq_some_iff.mp hb).1
  have hin : InLog start (start + t + 1) := ⟨by omega, by omega⟩
  refine ⟨hup, hlog, hlh, hne, hnd, fun x => ?_, hdisk.writeCopy hin (by omega), fun x hx => ?_, hN,
    hrest, fun i x hi hx => ?_, fun _ => hroom⟩
  · -- no listed block lies in the log
    refine ⟨fun hx => (hdirty x).mp hx.1, fun hx => ⟨(hdirty x).mpr hx, ?_⟩⟩
    rintro rfl
    exact (hhome _ hx).2.2 hin
  · have hxne : x ≠ start + t + 1 := fun e => hx (e ▸ hin)
    simp only [Core.store, update_of_ne hxne]
    exact hcont x hx
  · rcases eq_or_ne i t with rfl | hit
    · rw [hb] at hx
      simp [Core.store, Option.some.inj hx]
    · have hine : start + i + 1 ≠ start + t + 1 := by omega
      simp only [Core.store, update_of_ne hine]
      exact hcopy i x (by omega) hx

theorem StageOk.commit (h : StageOk start D₀ c up bl N (.writing t)) (ht : bl.length ≤ t)
    (hroom : bl.length + 1 ≤ LOGSIZE) (hhome : ∀ b ∈ bl, Home start b) :
    StageOk start D₀ (c.commit start (putHead d bl)) up bl N (.installing 0) := by
  obtain ⟨hup, hlog, hlh, hne, hnd, hdirty, hdisk, hcont, hN, hrest, hcopy, -⟩ := h
  have hbase : (c.commit start (putHead d bl)).jr.base D₀ = N := by
    rw [hN]
    simp [Core.commit, Journal.base, apply_append]
  refine ⟨hlog, hlh, hbase, hdisk.commit hnd hhome hroom (fun i x hi => ?_) hrest, fun x hx => ?_,
    by simp, fun _ => rfl⟩
  · exact hcopy i x (lt_of_lt_of_le (List.getElem?_eq_some_iff.mp hi).1 ht) hi
  · exact (hdirty x).mp hx.1

theorem StageOk.install (h : StageOk start D₀ c up bl N (.installing t)) (hb : bl[t]? = some b) :
    StageOk start D₀ (c.store b (N b)) up bl N (.installing (t + 1)) := by
  obtain ⟨hlog, hlh, hbase, hdisk, hdirty, hin, hpend⟩ := h
  obtain ⟨ht, hbt⟩ := List.getElem?_eq_some_iff.mp hb
  refine ⟨hlog, hlh, hbase, hdisk.install (List.mem_of_getElem? hb), fun x hx => ?_, fun x hx => ?_,
    hpend⟩
  · have hxd := hdirty x hx.1
    rw [List.drop_eq_getElem_cons ht, List.mem_cons, hbt] at hxd
    exact hxd.resolve_left hx.2
  · rcases eq_or_ne x b with rfl | hxb
    · simp [Core.store]
    · rw [List.take_add_one, List.mem_append, hb] at hx
      simp only [Core.store, update_of_ne hxb]
      exact hin x (hx.resolve_right (by simp [hxb]))

theorem StageOk.clear (h : StageOk start D₀ c up bl N (.installing t)) (ht : bl.length ≤ t) :
    StageOk start D₀ { c with log := { c.log with lh := [] } } up bl N .erasing := by
  obtain ⟨hlog, hlh, hbase, hdisk, hdirty, hin, hpend⟩ := h
  rw [List.drop_eq_nil_of_le ht] at hdirty
  rw [List.take_of_length_le ht] at hin
  exact ⟨⟨hlog.start, hlog.size, hlog.dev⟩, rfl, hbase, hdisk, fun x hx => by simpa using hdirty x hx,
    hin, hpend⟩

theorem StageOk.erase (h : StageOk start D₀ c up bl N .erasing) :
    StageOk start D₀ (c.store start (putHead d [])) up [] N .finished := by
  obtain ⟨hlog, hlh, hbase, hdisk, hdirty, hin, hpend⟩ := h
  exact ⟨hlog, hlh, hbase, hdisk.erase hin, fun x hx => hdirty x hx.1, hpend⟩

end

end Xv6.Bio
