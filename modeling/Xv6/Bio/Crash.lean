import Xv6.Bio.Commit

/-!
# Crash atomicity

The processes of a system with a log on its root disk: operations between `begin_op` and `end_op`
that change blocks with `log_write` only, power cuts at any moment, and one process that recovers
when the power comes back. When a recovery is complete, the disk holds the transactions whose header
had been written, and nothing else.
-/

namespace Xv6.Bio

open Conc Lib
open Function (update update_self update_of_ne update_eq_self)

variable {Pid : Type} [DecidableEq Pid]

/-- What a process may do. Before recovery is complete only `boot` acts; blocks are changed inside
operations, in the file system proper, and by `log_write`. -/
def usesLog (start : ℕ) (boot : Pid) (m : Machine Pid) (p : Pid) (l : Client) : Call → Prop
  | .initlog => p = boot ∧ m.up = false
  | .beginOp => m.up = true ∧ l.op = none
  | .endOp => l.op ≠ none
  | .bread dev _ => m.up = true ∧ dev ≠ NODEV
  | .modify i _ => i ∈ l.held
  | .logWrite i => i ∈ l.held ∧ l.op ≠ none ∧ (m.buf i).dev = ROOTDEV ∧ Home start (m.buf i).blockno
  | .bwrite _ => False
  | .brelse i => i ∈ l.held ∧ i ∉ l.unsaved

instance (start : ℕ) (boot : Pid) (m : Machine Pid) (p : Pid) (l : Client) (k : Call) :
    Decidable (usesLog start boot m p l k) :=
  match k with
  | .initlog | .beginOp | .bread _ _ | .logWrite _ | .brelse _ => instDecidableAnd
  | .endOp => instDecidableNot
  | .modify i _ => inferInstanceAs (Decidable (i ∈ l.held))
  | .bwrite _ => instDecidableFalse

/-- A power cut: the memory is gone, the disk stays. -/
def cutPower (m m' : Machine Pid) : Prop := m' = powerOn m.disk (.cut :: m.hist)

/-- The processes of a system with a log. -/
abbrev logProtocol (start : ℕ) (boot : Pid) : Protocol (Machine Pid) Pid Client :=
  protocol cutPower (usesLog start boot)

/-- The power comes on for the first time. -/
def logStart (disk : ℕ → ℕ → Bytes) : Config (Machine Pid) Pid Client :=
  ⟨powerOn disk [], fun _ => .ret Client.idle⟩

/-- A disk as `mkfs` leaves it: the superblock is set and the log is empty. -/
structure Formatted (start : ℕ) (disk : ℕ → Bytes) : Prop where
  geometry : Geometry start
  sb : SbOk start (disk 1)
  empty : headN (disk start) = 0

/-- What the invariant knows of a process between calls. -/
def OpMode (_ : Pid) (op : Option ℕ) (g : Mode) : Prop :=
  match op with
  | none => g = .idle ∨ g = .user
  | some op => g = .inOp op

section

variable {start : ℕ} {boot p : Pid} {D₀ : ℕ → Bytes} {V : View Pid} {δ : Pid → Mode}

omit [DecidableEq Pid] in
/-- At every moment the disk stands for what the complete commits leave. -/
theorem LogInv.onDisk (h : LogInv boot start D₀ V δ) :
    ∃ bl, OnDisk start (V.disk ROOTDEV) ((journal start V.hist).base D₀) bl := by
  cases h.situation with
  | sys q up bl N s hq others ok =>
    have hstage := ok.stage
    cases s with
    | writing t =>
      obtain ⟨-, -, -, -, -, -, hdisk, -⟩ := hstage
      exact ⟨[], hdisk⟩
    | installing t =>
      obtain ⟨-, -, hbase, hdisk, -⟩ := hstage
      exact ⟨bl, hbase ▸ hdisk⟩
    | erasing =>
      obtain ⟨-, -, hbase, hdisk, -⟩ := hstage
      exact ⟨bl, hbase ▸ hdisk⟩
    | finished =>
      obtain ⟨-, -, hbase, hdisk, -⟩ := hstage
      exact ⟨[], hbase ▸ hdisk⟩
    | booting =>
      obtain ⟨-, -, hbase, hdisk, -⟩ := hstage
      exact ⟨bl, hbase ▸ hdisk⟩
    | booted =>
      obtain ⟨-, -, -, hbase, hdisk, -⟩ := hstage
      exact ⟨bl, hbase ▸ hdisk⟩
  | ops ok => exact ⟨[], ok.disk⟩
  | down idle ok => exact ok.disk

/-- A process that is about to run `begin_op` remembers that the system is up. -/
theorem LogInv.toUser (h : LogInv boot start D₀ V δ) (hup : V.up = true)
    (hp : δ p = .idle ∨ δ p = .user) : LogInv boot start D₀ V (update δ p .user) := by
  have hnone : (δ p).op = none := by rcases hp with hp | hp <;> rw [hp] <;> rfl
  have hnew : ∀ u q, (δ q).Quiet u → u = true → (update δ p .user q).Quiet u := by
    intro u q hq hu
    rcases eq_or_ne q p with rfl | hqp
    · rw [update_self]
      exact Or.inr ⟨rfl, hu⟩
    · rwa [update_of_ne hqp]
  refine ⟨?_, h.use, h.dirty, h.sb, ?_, h.boot_update (by simp), h.settled⟩
  · rw [op_update (by rw [hnone]; rfl)]
    exact h.trace
  cases h.situation with
  | sys q up bl N s hq others ok =>
    have hqp : q ≠ p := by
      rintro rfl
      rw [hq] at hp
      rcases hp with hp | hp <;> cases hp
    have hu : up = true := ok.isUp.symm.trans hup
    refine .sys q up bl N s (by rwa [update_of_ne hqp]) (fun r hr => ?_) ok
    exact hnew up r (others r hr) hu
  | ops ok =>
    refine .ops ⟨ok.isUp, fun q => ?_, ?_, ok.committing, ok.log, ok.nodup, ok.lh, ok.dirty, ok.disk,
      ok.content, ok.pend⟩
    · rcases eq_or_ne q p with rfl | hqp
      · rw [update_self]
        exact Or.inr (Or.inr ⟨rfl, rfl⟩)
      · rw [update_of_ne hqp]
        exact ok.noSys q
    · obtain ⟨S, hS, hout⟩ := ok.outstanding
      refine ⟨S, fun q => ?_, hout⟩
      have hop : (update δ p .user q).op = (δ q).op :=
        congrFun (op_update (g := .user) (by rw [hnone]; rfl)) q
      rw [hop]
      exact hS q
  | down idle ok => exact absurd (ok.isUp.symm.trans hup) (by simp)

/-- The boot process starts to recover. -/
theorem LogInv.toBoot (h : LogInv boot start D₀ V δ) (hup : V.up = false)
    (hp : δ boot = .idle ∨ δ boot = .user) :
    ∃ bl N, LogInv boot start D₀ V (update δ boot (.sys false bl N .booting)) := by
  cases h.situation with
  | sys q up bl N s hq others ok =>
    obtain rfl : up = false := ok.isUp.symm.trans hup
    obtain rfl := h.boot q _ _ _ hq
    rw [hq] at hp
    rcases hp with hp | hp <;> cases hp
  | ops ok => exact absurd (ok.isUp.symm.trans hup) (by simp)
  | down idle ok =>
    obtain ⟨bl, hdisk⟩ := ok.disk
    refine ⟨bl, _, ?_, h.use, h.dirty, h.sb, .sys boot false bl _ .booting
      (update_self ..) (fun q hq => ?_) ⟨ok.isUp, ok.committing, ok.outstanding, ok.cur,
        rfl, ok.lh, rfl, hdisk, ok.dirty⟩, fun q bl N s hq => ?_, h.settled⟩
    · rw [op_update (by rw [idle boot]; rfl)]
      exact h.trace
    · rw [update_of_ne hq]
      exact Or.inl (idle q)
    · by_contra hqb
      rw [update_of_ne hqb, idle q] at hq
      cases hq

omit [DecidableEq Pid] in
/-- A power cut leaves a disk that can be recovered. -/
theorem logInv_cut {m : Machine Pid} {γ : Pid → Ghost Mode} (h : Inv (LogInv boot start D₀) m γ) :
    Inv (LogInv boot start D₀) (powerOn m.disk (.cut :: m.hist))
      fun _ : Pid => (fun _ => none, .idle) := by
  obtain ⟨st, -, hinv⟩ := h
  have hclean : ∀ dev b, ¬DirtyBlock (powerOn m.disk (.cut :: m.hist) : Machine Pid) dev b := by
    rintro dev b ⟨i, -, hd⟩
    simp [powerOn, freshBuf] at hd
  refine ⟨⟨m.disk, fun _ _ => none⟩, coh_powerOn _ _, hinv.trace.cut, ⟨?_, ?_⟩, ?_, hinv.sb,
    .down (fun _ => rfl) ⟨rfl, rfl, rfl, rfl, rfl, hinv.onDisk, fun b => hclean _ b⟩, ?_,
    fun _ hh => by cases hh⟩
  · simp [view, powerOn, taken]
  · intro dev b
    simpa [view, powerOn, pinned] using hclean dev b
  · exact fun dev b hd => absurd hd (hclean dev b)
  · intro p bl N s hp
    cases hp

end

/-! ## Every interleaving -/

section

variable {start : ℕ} {boot : Pid} {disk : ℕ → ℕ → Bytes}

omit [DecidableEq Pid] in
/-- The invariant holds when the power comes on for the first time. -/
theorem logInv_start (hfmt : Formatted start (disk ROOTDEV)) :
    Inv (LogInv boot start (disk ROOTDEV)) (powerOn disk [] : Machine Pid)
      fun _ => (fun _ => none, .idle) := by
  have hclean : ∀ dev b, ¬DirtyBlock (powerOn disk [] : Machine Pid) dev b := by
    rintro dev b ⟨i, -, hd⟩
    simp [powerOn, freshBuf] at hd
  have hempty : headBlocks (disk ROOTDEV start) = [] := by
    simp [headBlocks, hfmt.empty]
  refine ⟨⟨disk, fun _ _ => none⟩, coh_powerOn _ _, traceOk_nil, ⟨?_, ?_⟩, ?_, hfmt.sb,
    .down (fun _ => rfl) ⟨rfl, rfl, rfl, rfl, rfl, ⟨[], hempty, List.nodup_nil, by simp, by decide,
      by simp, fun _ _ _ => rfl⟩, fun b => hclean _ b⟩, ?_, fun _ hh => by cases hh⟩
  · simp [view, powerOn, taken]
  · intro dev b
    simpa [view, powerOn, pinned] using hclean dev b
  · exact fun dev b hd => absurd hd (hclean dev b)
  · intro p bl N s hp
    cases hp

/-- Every call that keeps the rules keeps the invariant, and so does a power cut. -/
theorem log_sound (hgeo : Geometry start) (D₀ : ℕ → Bytes)
    {ok : Machine Pid → Pid → Client → Call → Prop}
    (hok : ∀ m p l k, ok m p l k → usesLog start boot m p l k) :
    Sound (protocol cutPower ok) (Inv (LogInv boot start D₀)) (Tolerated start) (Idle OpMode) where
  restart m m' γ hI hcut := by
    have hcut : m' = powerOn m.disk (.cut :: m.hist) := hcut
    subst hcut
    exact ⟨_, logInv_cut hI, fun p => ⟨heldOk_idle, Or.inl rfl⟩⟩
  call m γ p l k hI hl hk := by
    have hE : ∀ m e, e ≠ tooBig → Tolerated start (m : Machine Pid) e := tolerated_of_ne start
    have hJ : Stable (LogInv boot start D₀ : View Pid → _ → Prop) := logInv_stable boot start D₀
    have hk := hok m p l k hk
    have hsame : Inv (LogInv boot start D₀) m (update γ p (γ p)) := by
      rwa [update_eq_self]
    have hdone : ∀ (H : Slot → Option Hold) (op : Option ℕ) (g : Mode), HeldOk l H →
        OpMode p op g → Idle OpMode p { l with op } (H, g) := fun H op g hH hg =>
      ⟨⟨hH.held, hH.loaded, hH.saved⟩, hg⟩
    cases k with
    | beginOp =>
      obtain ⟨st, hc, hinv⟩ := hI
      have hp : (γ p).2 = .idle ∨ (γ p).2 = .user := by simpa only [OpMode, hk.2] using hl.2
      refine ⟨((γ p).1, .user), ⟨st, ?_, ?_⟩, wp_seq advances_beginOp ?_⟩
      · rw [(update_ghost γ p _).1]
        simpa using hc
      · rw [(update_ghost γ p _).2]
        exact hinv.toUser hk.1 hp
      · rintro op _ rfl
        exact hdone _ _ _ hl.1 rfl
    | endOp =>
      obtain ⟨op, hop⟩ := Option.ne_none_iff_exists'.mp hk
      have hp : (γ p).2 = .inOp op := by simpa only [OpMode, hop] using hl.2
      refine ⟨γ p, hsame, ?_⟩
      have hγ : γ p = ((γ p).1, .inOp op) := by rw [← hp]
      rw [hγ]
      refine wp_seq (R := fun _ z => z = ((γ p).1, .idle)) ?_ ?_
      · rw [hop]
        exact advances_endOp hgeo
      · rintro _ _ rfl
        exact hdone _ _ _ hl.1 (Or.inl rfl)
    | bread dev b => exact ⟨γ p, hsame, wp_call_bread hE hJ hk.2 hl⟩
    | modify i d => exact ⟨γ p, hsame, wp_call_modify hk hl⟩
    | logWrite i =>
      obtain ⟨hi, hop, hdev, hhome⟩ := hk
      obtain ⟨op, hop⟩ := Option.ne_none_iff_exists'.mp hop
      have hp : (γ p).2 = .inOp op := by simpa only [OpMode, hop] using hl.2
      obtain ⟨y, hy, hph⟩ := hl.1.get hi
      obtain ⟨st, hc, -⟩ := hI
      obtain ⟨⟨h1, h2⟩, -⟩ := hc.carries i p y hy
      refine ⟨γ p, hsame, ?_⟩
      have hγ : γ p = ((γ p).1, .inOp op) := by rw [← hp]
      rw [hγ]
      refine wp_seq (R := fun _ z =>
        z = (update (γ p).1 i (some ⟨y.dev, y.b, .clean⟩), .inOp op)) ?_ ?_
      · rw [hop]
        exact advances_logWrite hy hph (h1 ▸ hdev) (h2 ▸ hhome)
      · rintro _ _ rfl
        refine ⟨hl.1.save hi, ?_⟩
        simp only [OpMode, hop]
    | bwrite i => exact hk.elim
    | brelse i => exact ⟨γ p, hsame, wp_call_brelse hE hJ hk.1 hk.2 hl⟩
    | initlog =>
      obtain ⟨rfl, hup⟩ := hk
      obtain ⟨st, hc, hinv⟩ := hI
      -- no operation can be open while the system is down
      have hop : l.op = none := by
        by_contra hop
        obtain ⟨op, hop⟩ := Option.ne_none_iff_exists'.mp hop
        have hp : (γ p).2 = .inOp op := by simpa only [OpMode, hop] using hl.2
        exact absurd ((hinv.ops_inv hp).isUp.symm.trans hup) (by simp)
      have hp : (γ p).2 = .idle ∨ (γ p).2 = .user := by simpa only [OpMode, hop] using hl.2
      obtain ⟨bl, N, hboot⟩ := hinv.toBoot hup hp
      refine ⟨((γ p).1, .sys false bl N .booting), ⟨st, ?_, ?_⟩,
        wp_seq (advances_initlog hgeo) ?_⟩
      · rw [(update_ghost γ p _).1]
        simpa using hc
      · rw [(update_ghost γ p _).2]
        exact hboot
      · rintro _ _ rfl
        exact ⟨hl.1, by simp only [OpMode, hop, true_or]⟩

/-- The invariant holds in everything that can be reached. -/
theorem log_holds (hfmt : Formatted start (disk ROOTDEV))
    {ok : Machine Pid → Pid → Client → Call → Prop}
    (hok : ∀ m p l k, ok m p l k → usesLog start boot m p l k)
    {c : Config (Machine Pid) Pid Client} (hc : Reach (protocol cutPower ok) (logStart disk) c) :
    Holds (Inv (LogInv boot start (disk ROOTDEV))) (Tolerated start) (Idle OpMode) c := by
  refine wp_pool (log_sound hfmt.geometry (disk ROOTDEV) hok) ?_ hc
  exact ⟨_, logInv_start hfmt, fun p => ⟨heldOk_idle, Or.inl rfl⟩⟩

/-- The disk holds exactly a prefix of the commits of the history `h`: every transaction whose
header was written is in it, each operation has all its writes in it or none, and only operations
that had ended do. -/
def HoldsPrefix (start : ℕ) (D₀ disk : ℕ → Bytes) (h : List (Ev Pid)) : Prop :=
  ∃ k, (journal start h).done.length ≤ k ∧ k ≤ (journal start h).commits.length ∧
    (∀ b, ¬InLog start b → disk b = apply ((journal start h).commits.take k).flatten D₀ b) ∧
    (∀ op, ofOp op ((journal start h).commits.take k).flatten = ofOp op (journal start h).all ∨
      ofOp op ((journal start h).commits.take k).flatten = []) ∧
    ∀ w ∈ ((journal start h).commits.take k).flatten, Ended w.op h

/-- Crash atomicity: whenever a recovery is complete, whatever happened before it, the disk holds a
prefix of the commits. -/
theorem recovery_atomic (hfmt : Formatted start (disk ROOTDEV))
    (c : Config (Machine Pid) Pid Client) (h : List (Ev Pid))
    (hc : Reach (logProtocol start boot) (logStart disk) c) (hh : c.shared.hist = .recovered :: h) :
    HoldsPrefix start (disk ROOTDEV) (c.shared.disk ROOTDEV) h := by
  obtain ⟨γ, ⟨st, -, hinv⟩, -⟩ := log_holds hfmt (fun _ _ _ _ hk => hk) hc
  have htake : (journal start h).commits.take (journal start h).done.length =
      (journal start h).done := by simp [Journal.commits]
  have hhist : (view c.shared st).hist = .recovered :: h := hh
  refine ⟨(journal start h).done.length, le_rfl, by simp [Journal.commits], ?_⟩
  rw [htake]
  refine ⟨fun b hb => ?_, fun op => ?_, fun w hw => ?_⟩
  · have hdisk := hinv.settled h hh
    rw [hhist] at hdisk
    exact hdisk.rest b hb (by simp)
  · have hp := hinv.trace.placed op
    rw [hhist] at hp
    rcases hp with ⟨-, -, h3⟩ | ⟨-, -, h3⟩ | ⟨-, -, h3⟩
    · exact Or.inr h3
    · exact Or.inr h3
    · exact h3
  · have hend := hinv.trace.oldEnded w
    rw [hhist] at hend
    obtain ⟨p, last, hmem⟩ := hend (List.mem_append_right _ hw)
    exact ⟨p, last, (List.mem_cons.mp hmem).resolve_left (by simp)⟩

/-- At every moment of every run, in the middle of a commit or of a recovery too, the disk stands for just the
transactions whose header has been written. -/
theorem disk_holds_commits (hfmt : Formatted start (disk ROOTDEV)) {c : Config (Machine Pid) Pid Client}
    (hc : Reach (logProtocol start boot) (logStart disk) c) :
    ∃ bl, OnDisk start (c.shared.disk ROOTDEV) ((journal start c.shared.hist).base (disk ROOTDEV)) bl := by
  obtain ⟨γ, ⟨st, -, hinv⟩, -⟩ := log_holds hfmt (fun _ _ _ _ hk => hk) hc
  cases hinv.situation with
  | ops ok => exact ⟨[], ok.disk⟩
  | down _ ok => exact ok.disk
  | sys p up bl N s _ _ ok =>
    have hstage := ok.stage
    cases s with
    | writing t => exact ⟨[], hstage.2.2.2.2.2.2.1⟩
    | booted => exact ⟨bl, hstage.2.2.2.1 ▸ hstage.2.2.2.2.1⟩
    | _ => exact ⟨_, hstage.2.2.1 ▸ hstage.2.2.2.1⟩

end

/-! ## A run -/

/-- An empty file system of which only the superblock is written; the log is at block 2. -/
def blankDisk (_ b : ℕ) : Bytes :=
  if b = 1 then Bytes.setWord 4 (Bytes.setWord 4 (fun _ => 0) 12 LOGSIZE) 16 2 else fun _ => 0

theorem formatted_blankDisk : Formatted 2 (blankDisk ROOTDEV) :=
  ⟨⟨by decide, by decide⟩, ⟨by decide, by decide⟩, by decide⟩

/-- A process that boots, logs one block in an operation and ends it; `bread` gives it buffer 2. -/
def loggedOnce : Option (Machine Unit × (Unit → Client)) :=
  runCalls (logProtocol 2 ())
    [((), .initlog), ((), .beginOp), ((), .bread ROOTDEV 40), ((), .modify 2 fun _ => 7),
      ((), .logWrite 2), ((), .brelse 2), ((), .endOp)]
    (powerOn blankDisk []) fun _ => Client.idle

/-- The same, with a power cut and a recovery after it. -/
def rebooted : Option (Machine Unit × (Unit → Client)) :=
  loggedOnce.bind fun x =>
    runCalls (logProtocol 2 ()) [((), .initlog)] (powerOn x.1.disk (.cut :: x.1.hist))
      fun _ => Client.idle

/-- The recovery comes to its end, with one transaction committed. -/
theorem rebooted_recovered : (rebooted.elim false fun x => match x.1.hist with
    | .recovered :: h => (journal 2 h).done.length == 1
    | _ => false) = true := by
  decide +kernel

/-- Crash atomicity on that run. -/
theorem recovery_atomic_rebooted : ∃ (m : Machine Unit) (h : List (Ev Unit)),
    m.hist = .recovered :: h ∧ (journal 2 h).done.length = 1 ∧
      HoldsPrefix 2 (blankDisk ROOTDEV) (m.disk ROOTDEV) h := by
  have hrun := rebooted_recovered
  cases h1 : loggedOnce with
  | none => simp [rebooted, h1] at hrun
  | some x =>
    cases h2 : rebooted with
    | none => simp [h2] at hrun
    | some y =>
      simp only [h2, Option.elim_some] at hrun
      split at hrun
      next h hh =>
        have hreach : Reach (logProtocol 2 ()) (logStart blankDisk) _ := reach_runCalls _ h1
        have hcut := hreach.tail (Step.cut (P := logProtocol 2 ()) rfl)
        rw [rebooted, h1, Option.bind_some] at h2
        have hdone := hcut.trans (reach_runCalls (logProtocol 2 ()) h2)
        exact ⟨y.1, h, hh, by simpa using hrun, recovery_atomic formatted_blankDisk _ h hdone hh⟩
      · cases hrun

theorem disk_holds_commits_once : ∃ x, loggedOnce = some x ∧
    ∃ bl, OnDisk 2 (x.1.disk ROOTDEV) ((journal 2 x.1.hist).base (blankDisk ROOTDEV)) bl := by
  have hrun := rebooted_recovered
  cases h : loggedOnce with
  | none => simp [rebooted, h] at hrun
  | some x => exact ⟨x, rfl, disk_holds_commits formatted_blankDisk (reach_runCalls (logProtocol 2 ()) h)⟩

end Xv6.Bio
