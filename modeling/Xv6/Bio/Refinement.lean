import Xv6.Bio.Rules

/-!
# The buffer cache is a block store

Whatever the processes do with `bread`, `log_write`, `bwrite` and `brelse`, the history they leave
is one the plain block store permits, and the store it leaves is the one the cache stands for. The
commits that `end_op` runs, and recovery, are covered: they are users of the cache like any other.
-/

namespace Xv6.Bio

open Conc Lib

variable {Pid : Type} [DecidableEq Pid]

/-- How the cache may be used: only by the holder of a buffer, of a block of a real device, and a
change is saved before the buffer is released. -/
def usesCache (_ : Machine Pid) (_ : Pid) (l : Client) : Call → Prop
  | .bread dev _ => dev ≠ NODEV
  | .modify i _ | .logWrite i | .bwrite i => i ∈ l.held
  | .brelse i => i ∈ l.held ∧ i ∉ l.unsaved
  | .beginOp | .endOp | .initlog => True

/-- The processes that use the cache; the power is never cut. -/
def cacheProtocol (Pid : Type) : Protocol (Machine Pid) Pid Client :=
  protocol (fun _ _ => False) usesCache

/-- The configuration after `binit`, over the given disks. -/
def cacheStart (disk : ℕ → ℕ → Bytes) : Config (Machine Pid) Pid Client :=
  ⟨powerOn disk [], fun _ => .ret Client.idle⟩

/-- The cache stands for the block store `st`. -/
structure Refines (disk : ℕ → ℕ → Bytes) (c : Config (Machine Pid) Pid Client)
    (st : Store Pid) : Prop where
  /-- The history is one of the store's: a block is taken only when it is free, what `bread`
  returns is what was stored last, and only the holder stores. -/
  run : Store.Run disk c.shared.hist st
  /-- A buffer a process has got carries a block of which it is the holder, with the contents of
  the store unless the process has changed them since. -/
  held : ∀ p l i, c.thread p = .ret l → i ∈ l.held →
    st.holder (c.shared.buf i).dev (c.shared.buf i).blockno = some p ∧
      (i ∉ l.unsaved → (c.shared.buf i).data =
        st.content (c.shared.buf i).dev (c.shared.buf i).blockno)
  /-- No block has two buffers. -/
  unique : ∀ i j dev b, Carries c.shared i dev b → Carries c.shared j dev b → dev ≠ NODEV → i = j
  /-- The list has every buffer exactly once. -/
  ring : RingOk c.shared

/-- The view invariant: the history leads to the store, and the log is on a real device. -/
def Follows (disk : ℕ → ℕ → Bytes) (V : View Pid) (_ : Pid → Unit) : Prop :=
  Store.Run disk V.hist V.st ∧ V.log.dev ≠ NODEV

omit [DecidableEq Pid] in
theorem follows_stable (disk : ℕ → ℕ → Bytes) :
    Stable (Follows disk : View Pid → (Pid → Unit) → Prop) where
  took _ _ _ h hfree := ⟨.cons h.1 (.took hfree), h.2⟩
  got _ _ _ h hheld := ⟨.cons h.1 (.got hheld), h.2⟩
  released _ _ _ h hheld := ⟨.cons h.1 (.released hheld), h.2⟩

/-! ## The code of the log as a user of the cache

Each function gives back every buffer it takes. -/

section

variable {disk : ℕ → ℕ → Bytes} {p : Pid} {H : Slot → Option Hold}

/-- What is shown of each function of `log.c`: it leaves the process with the buffers it had. -/
abbrev Returns (disk : ℕ → ℕ → Bytes) (p : Pid) (H : Slot → Option Hold) {α : Type}
    (x : Prog (Machine Pid) α) : Prop :=
  wp (Inv (Follows disk)) (fun _ _ => True) p x (H, ()) fun _ z => z = (H, ())

/-- A section that changes neither the cache nor the history and keeps the log on its device. -/
theorem returns_modifies {f : Machine Pid → Machine Pid}
    (hf : ∀ m, (f m).buf = m.buf ∧ (f m).links = m.links ∧ (f m).disk = m.disk ∧
      (f m).hist = m.hist ∧ (m.log.dev ≠ NODEV → (f m).log.dev ≠ NODEV)) :
    Returns disk p H (Prog.modifies f) := by
  refine wp_local (fun _ _ _ _ _ _ _ _ => trivial) fun m γ st _ m' hc hj hg hok => ?_
  obtain ⟨-, rfl⟩ := Outcome.ok.inj hok
  obtain ⟨hb, hl, hd, hh, hdev⟩ := hf m
  refine ⟨hb, hl, hd, (), ⟨?_, hdev hj.2⟩, rfl⟩
  have : (view (f m) st).hist = (view m st).hist := hh
  rw [this]
  exact hj.1

/-- Reading the log's parameters, which name a real device. -/
theorem returns_reads_log {α : Type} {k : Log → Prog (Machine Pid) α}
    (hk : ∀ log : Log, log.dev ≠ NODEV → Returns disk p H (k log)) :
    Returns disk p H (Prog.reads (fun m : Machine Pid => m.log) >>= k) := by
  refine wp_seq (R := fun log z => log.dev ≠ NODEV ∧ z = (H, ())) ?_ ?_
  · exact wp_reads fun m γ hI _ => let ⟨_, _, hj⟩ := hI; ⟨hj.2, rfl⟩
  · rintro log _ ⟨hdev, rfl⟩
    exact hk log hdev

/-- A write by the holder is one of the store's. -/
private theorem follows_stored {V : View Pid} {δ : Pid → Unit} {dev b : ℕ} {v : Bytes}
    (hj : Follows disk V δ) (hh : V.st.holder dev b = some p) :
    Follows disk (V.stored p dev b v) (Function.update δ p ()) :=
  ⟨.cons hj.1 (.stored hh), hj.2⟩

theorem returns_installBlock (t b : ℕ) : Returns disk p H (installBlock p t b) := by
  refine returns_reads_log fun log hdev => ?_
  refine wp_bind.mpr (wp_bread (fun _ _ _ => trivial) (follows_stable disk) hdev fun s hs => ?_)
  refine wp_bind.mpr (wp_bread (fun _ _ _ => trivial) (follows_stable disk) hdev fun d hd => ?_)
  obtain ⟨hne, hd⟩ := slot_ne hd
  refine wp_copy (fun _ _ _ => trivial) (follows_stable disk) hs hd hne (P := fun _ => True)
    (fun _ _ _ _ _ => trivial) fun V δ v _ _ hj _ hh _ => ?_
  exact ⟨(), follows_stored hj hh, rfl⟩

theorem returns_writeLogBlock (t b : ℕ) : Returns disk p H (writeLogBlock p t b) := by
  refine returns_reads_log fun log hdev => ?_
  refine wp_bind.mpr (wp_bread (fun _ _ _ => trivial) (follows_stable disk) hdev fun d hd => ?_)
  refine wp_bind.mpr (wp_bread (fun _ _ _ => trivial) (follows_stable disk) hdev fun s hs => ?_)
  obtain ⟨hne, hs⟩ := slot_ne hs
  rw [Function.update_comm hne]
  refine wp_copy (fun _ _ _ => trivial) (follows_stable disk) hs hd hne.symm (P := fun _ => True)
    (fun _ _ _ _ _ => trivial) fun V δ v _ _ hj _ hh _ => ?_
  exact ⟨(), follows_stored hj hh, rfl⟩

theorem returns_forTail {body : ℕ → ℕ → Prog (Machine Pid) Unit}
    (hbody : ∀ t b, Returns disk p H (body t b)) : Returns disk p H (forTail body LOGSIZE 0) := by
  refine wp_forTail (L := fun _ z => z = (H, ())) ?_ (fun _ _ hz _ => hz) (fun _ hz => hz)
    (by simp) rfl
  rintro t c _ rfl -
  exact hbody t c

theorem returns_writeHead : Returns disk p H (writeHead p) := by
  refine returns_reads_log fun log hdev => ?_
  refine wp_bind.mpr (wp_bread (fun _ _ _ => trivial) (follows_stable disk) hdev fun i hi => ?_)
  exact wp_rewrite (fun _ _ _ => trivial) (follows_stable disk) hi (P := fun _ => True)
    (fun _ _ _ _ _ _ => trivial) fun V δ v _ _ hj _ hh _ => ⟨(), follows_stored hj hh, rfl⟩

theorem returns_readHead : Returns disk p H (readHead p) := by
  refine returns_reads_log fun log hdev => ?_
  refine wp_bind.mpr (wp_bread (fun _ _ _ => trivial) (follows_stable disk) hdev fun i hi => ?_)
  refine wp_seq (R := fun _ z =>
    z = (Function.update H i (some ⟨log.dev, log.start, .clean⟩), ())) ?_ ?_
  · refine wp_local (fun _ _ _ _ _ _ _ _ => trivial) fun m γ st _ m' hc hj hg hok => ?_
    obtain rfl := readHeadStep_ok hok
    exact ⟨rfl, rfl, rfl, (), hj, rfl⟩
  · rintro _ _ rfl
    refine wp_brelse (fun _ _ _ => trivial) (follows_stable disk) (Function.update_self ..) ?_
    rw [Function.update_idem, ← hi, Function.update_eq_self]

/-- Running one function of the log after another. -/
theorem Returns.andThen {α β : Type} {x : Prog (Machine Pid) α} {k : α → Prog (Machine Pid) β}
    (hx : Returns disk p H x) (hk : ∀ a, Returns disk p H (k a)) :
    Returns disk p H (x >>= k) := by
  refine wp_seq hx ?_
  rintro a _ rfl
  exact hk a

theorem returns_clear : Returns disk p H (Prog.modifies fun m : Machine Pid => m.setLh []) :=
  returns_modifies fun _ => ⟨rfl, rfl, rfl, rfl, id⟩

theorem returns_recoverFromLog : Returns disk p H (recoverFromLog p) :=
  returns_readHead.andThen fun _ => (returns_forTail returns_installBlock).andThen fun _ =>
    returns_clear.andThen fun _ => returns_writeHead

theorem returns_initlog : Returns disk p H (initlog p ROOTDEV) := by
  refine wp_bind.mpr (wp_bread (fun _ _ _ => trivial) (follows_stable disk) rootdev_ne
    fun i hi => ?_)
  refine wp_bind.mpr (wp_reads fun _ _ _ _ => ?_)
  refine wp_bind.mpr (wp_brelse (fun _ _ _ => trivial) (follows_stable disk)
    (Function.update_self ..) ?_)
  rw [Function.update_idem, ← hi, Function.update_eq_self]
  refine Returns.andThen ?_ fun _ => returns_recoverFromLog.andThen fun _ => ?_
  · exact returns_modifies fun _ => ⟨rfl, rfl, rfl, rfl, fun _ => rootdev_ne⟩
  · refine wp_local (fun _ _ _ _ _ _ _ _ => trivial) fun m γ st _ m' hc hj hg hok => ?_
    obtain ⟨-, rfl⟩ := Outcome.ok.inj hok
    exact ⟨rfl, rfl, rfl, (), ⟨.cons hj.1 .recovered, hj.2⟩, rfl⟩

theorem returns_commit : Returns disk p H (commit p) := by
  refine wp_bind.mpr (wp_reads fun m _ _ _ => ?_)
  split
  · exact (returns_forTail returns_writeLogBlock).andThen fun _ => returns_writeHead.andThen
      fun _ => (returns_forTail returns_installBlock).andThen fun _ => returns_clear.andThen
      fun _ => returns_writeHead
  · rfl

theorem returns_endOp (op : ℕ) : Returns disk p H (endOp p op) := by
  refine Returns.andThen ?_ fun doCommit => ?_
  · refine wp_local (fun _ _ _ _ _ _ _ _ => trivial) fun m γ st _ m' hc hj hg hok => ?_
    obtain ⟨-, -, rfl⟩ := endOpStep_ok hok
    exact ⟨rfl, rfl, rfl, (), ⟨.cons hj.1 .ended, hj.2⟩, rfl⟩
  · split
    · exact returns_commit.andThen fun _ => returns_modifies fun _ => ⟨rfl, rfl, rfl, rfl, id⟩
    · rfl

theorem returns_beginOp : Returns disk p H (beginOp p) := by
  refine wp_local (fun _ _ _ _ _ _ _ _ => trivial) fun m γ st _ m' hc hj hg hok => ?_
  obtain ⟨-, -, -, rfl⟩ := beginOpStep_ok hok
  exact ⟨rfl, rfl, rfl, (), ⟨.cons hj.1 .began, hj.2⟩, rfl⟩

theorem returns_logWriteTest : Returns disk p H (Prog.atomic logWriteTest) := by
  refine wp_local (fun _ _ _ _ _ _ _ _ => trivial) fun m γ st _ m' hc hj hg hok => ?_
  obtain ⟨rfl, -⟩ := logWriteTest_ok hok
  exact ⟨rfl, rfl, rfl, (), hj, rfl⟩

end

/-! ## Every interleaving -/

/-- Nothing is known of the operation a process is in. -/
abbrev anyOp (_ : Pid) (_ : Option ℕ) (_ : Unit) : Prop := True

/-- Every call keeps the cache in step with the store. -/
theorem cache_sound (disk : ℕ → ℕ → Bytes) :
    Sound (cacheProtocol Pid) (Inv (Follows disk)) (fun _ _ => True) (Idle anyOp) where
  restart _ _ _ _ h := h.elim
  call m γ p l k hI hl hk := by
    refine ⟨γ p, by rwa [Function.update_eq_self], ?_⟩
    generalize γ p = x at hl
    obtain ⟨H, ⟨⟩⟩ := x
    have hdone : ∀ op, Idle anyOp p { l with op } (H, ()) := fun op =>
      ⟨⟨hl.1.held, hl.1.loaded, hl.1.saved⟩, trivial⟩
    cases k with
    | beginOp =>
      refine wp_seq returns_beginOp ?_
      rintro op _ rfl
      exact hdone _
    | endOp =>
      refine wp_seq (returns_endOp _) ?_
      rintro _ _ rfl
      exact hdone _
    | bread dev b => exact wp_call_bread (fun _ _ _ => trivial) (follows_stable disk) hk hl
    | modify i d => exact wp_call_modify hk hl
    | logWrite i =>
      obtain ⟨y, hy, hph⟩ := hl.1.get hk
      refine wp_seq (R := fun _ z =>
        z = (Function.update H i (some ⟨y.dev, y.b, .clean⟩), ())) (wp_seq returns_logWriteTest ?_) ?_
      · rintro _ _ rfl
        exact wp_logWriteStep (fun _ _ _ => trivial) hy hph
          fun V δ d _ hj _ hh _ => ⟨(), ⟨.cons hj.1 (.logged hh), hj.2⟩, rfl⟩
      · rintro _ _ rfl
        exact ⟨hl.1.save hk, trivial⟩
    | bwrite i =>
      obtain ⟨y, hy, hph⟩ := hl.1.get hk
      refine wp_seq (R := fun _ z =>
        z = (Function.update H i (some ⟨y.dev, y.b, .clean⟩), ())) ?_ ?_
      · exact wp_bwrite (fun _ _ _ => trivial) hy hph
          fun V δ d _ _ hj _ hh _ => ⟨(), follows_stored hj hh, rfl⟩
      · rintro _ _ rfl
        exact ⟨hl.1.save hk, trivial⟩
    | brelse i =>
      exact wp_call_brelse (fun _ _ _ => trivial) (follows_stable disk) hk.1 hk.2 hl
    | initlog =>
      refine wp_seq returns_initlog ?_
      rintro _ _ rfl
      exact hdone _

end Xv6.Bio
