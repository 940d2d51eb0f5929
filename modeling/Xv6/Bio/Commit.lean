import Xv6.Bio.LogInv

/-!
# `log.c` keeps the invariant of the log

Each function of `log.c` takes the log from one stage to the next; operations keep the open
transaction consistent. Together with power cuts this makes `LogInv` an invariant of every
interleaving.
-/

namespace Xv6.Bio

open Conc Lib
open Function (update update_self update_of_ne update_idem update_eq_self update_eq_self_iff update_comm comp_update)

variable {Pid : Type} [DecidableEq Pid]

/-- `log_write` may complain of a big transaction only when its operations have logged
`LOGSIZE - 1` blocks. -/
abbrev Tolerated (start : ℕ) (m : Machine Pid) (e : Fault) : Prop :=
  e = tooBig → LOGSIZE - 1 ≤ (journal start m.hist).blocks.length

section

variable {start : ℕ} {D₀ N : ℕ → Bytes} {V V' : View Pid} {δ : Pid → Mode} {p boot : Pid}
  {up : Bool}  {bl bl' : List ℕ} {s s' : Stage} {b op : ℕ} {d : Bytes}

omit [DecidableEq Pid] in
theorem tolerated_of_ne (start : ℕ) (m : Machine Pid) (e : Fault) (h : e ≠ tooBig) :
    Tolerated start m e := fun he => absurd he h

theorem not_quiet_sys {u : Bool} : ¬(Mode.sys up bl N s).Quiet u := by
  rintro (h | ⟨h, -⟩) <;> cases h

theorem not_quiet_inOp {u : Bool} : ¬(Mode.inOp op).Quiet u := by
  rintro (h | ⟨h, -⟩) <;> cases h

section

omit [DecidableEq Pid]

/-- While a process commits or recovers, the others have nothing to do with the log. -/
theorem LogInv.sys_inv (h : LogInv boot start D₀ V δ) (hp : δ p = .sys up bl N s) :
    (∀ q, q ≠ p → (δ q).Quiet up) ∧ SysOk start D₀ (core start V) up bl N s := by
  cases h.situation with
  | sys q up' bl' N' s' hq others ok =>
    rcases eq_or_ne p q with rfl | hpq
    · rw [hp] at hq
      cases hq
      exact ⟨others, ok⟩
    · have := others p hpq
      rw [hp] at this
      exact absurd this not_quiet_sys
  | ops ok =>
    have := ok.noSys p
    rw [hp] at this
    exact absurd this (by simp [Mode.op, not_quiet_sys])
  | down idle ok =>
    rw [idle p] at hp
    cases hp

/-- While a process is in an operation, nobody commits. -/
theorem LogInv.ops_inv (h : LogInv boot start D₀ V δ) (hp : δ p = .inOp op) : OpsOk start D₀ (core start V) δ := by
  cases h.situation with
  | sys q up' bl' N' s' hq others ok =>
    rcases eq_or_ne p q with rfl | hpq
    · rw [hp] at hq
      cases hq
    · have := others p hpq
      rw [hp] at this
      exact absurd this not_quiet_inOp
  | ops ok => exact ok
  | down idle ok =>
    rw [idle p] at hp
    cases hp

/-- A process that was started while the system was up sees no commit only if operations may
run. -/
theorem LogInv.user_inv (h : LogInv boot start D₀ V δ) (hp : δ p = .user)
    (hcommit : V.log.committing = false) : OpsOk start D₀ (core start V) δ := by
  cases h.situation with
  | sys q up' bl' N' s' hq others ok =>
    rcases eq_or_ne p q with rfl | hpq
    · rw [hp] at hq
      cases hq
    · rcases others p hpq with hi | ⟨-, hup⟩
      · rw [hp] at hi
        cases hi
      · have := ok.committing.symm.trans hcommit
        rw [hup] at this
        cases this
  | ops ok => exact ok
  | down idle ok =>
    rw [idle p] at hp
    cases hp

end

/-- A change of mode that keeps the operation. -/
theorem op_update {g : Mode} (hg : g.op = (δ p).op) : (fun q => (update δ p g q).op) = fun q => (δ q).op := by
  funext q
  rcases eq_or_ne q p with rfl | hq
  · simp [hg]
  · simp [hq]

/-- A change of mode that does not start a recovery. -/
theorem LogInv.boot_update (h : LogInv boot start D₀ V δ) {g : Mode}
    (hg : ∀ bl N s, g ≠ .sys false bl N s) (q : Pid) (bl : List ℕ) (N : ℕ → Bytes) (s : Stage)
    (hq : update δ p g q = .sys false bl N s) : q = boot := by
  rcases eq_or_ne q p with rfl | hqp
  · rw [update_self] at hq
    exact absurd hq (hg bl N s)
  · rw [update_of_ne hqp] at hq
    exact h.boot q bl N s hq

section

omit [DecidableEq Pid]

theorem core_stored (h : b = start → headN d = 0) :
    core start (V.stored p ROOTDEV b d) = (core start V).store b d := by
  have hj : journal start (Ev.stored p ROOTDEV b d :: V.hist) = journal start V.hist := by
    simp only [journal, Journal.step, true_and]
    rw [if_neg]
    rintro ⟨hb, hn⟩
    have := h hb
    omega
  simp only [core, View.stored, Core.store, Store.put, hj, update_self, true_and]

theorem core_committed (hd : 0 < headN d) :
    core start (V.stored p ROOTDEV start d) = (core start V).commit start d := by
  simp [core, View.stored, Core.commit, Core.store, Store.put, journal, Journal.step, hd]

/-- Reading blocks does not concern the log. -/
theorem logInv_stable (boot : Pid) (start : ℕ) (D₀ : ℕ → Bytes) :
    Stable (LogInv boot start D₀ : View Pid → (Pid → Mode) → Prop) where
  took _ _ _ h _ := ⟨h.trace.quiet rfl, h.use.took, h.dirty, h.sb, h.situation, h.boot,
    fun _ h => by cases h⟩
  got _ _ _ h _ := ⟨h.trace.quiet rfl, h.use.got, h.dirty, h.sb, h.situation, h.boot,
    fun _ h => by cases h⟩
  released _ _ _ h _ := ⟨h.trace.quiet rfl, h.use.released, h.dirty, h.sb, h.situation, h.boot,
    fun _ h => by cases h⟩

end

/-- A process that commits or recovers goes on to another stage. -/
theorem LogInv.sysStep (h : LogInv boot start D₀ V δ) (hp : δ p = .sys up bl N s)
    (htrace : TraceOk start V'.hist fun q => (δ q).op) (huse : UseOk V')
    (hdirty : ∀ dev b, V'.dirty dev b → V.dirty dev b) (hsb : V'.disk ROOTDEV 1 = V.disk ROOTDEV 1)
    (hsettled : Settled start D₀ V') (hok : SysOk start D₀ (core start V') up bl' N s') :
    LogInv boot start D₀ V' (update δ p (.sys up bl' N s')) := by
  obtain ⟨others, -⟩ := h.sys_inv hp
  have hop : (fun q => (update δ p (.sys up bl' N s') q).op) = fun q => (δ q).op :=
    op_update (by rw [hp]; rfl)
  refine ⟨by rwa [hop], huse, fun dev b hd => h.dirty dev b (hdirty dev b hd), by
    rw [hsb]; exact h.sb, ?_, fun q bl N s hq => ?_, hsettled⟩
  · refine .sys p up bl' N s' (update_self ..) (fun q hq => ?_) hok
    rw [update_of_ne hq]
    exact others q hq
  · rcases eq_or_ne q p with rfl | hqp
    · rw [update_self] at hq
      cases hq
      exact h.boot q _ _ _ hp
    · rw [update_of_ne hqp] at hq
      exact h.boot q bl N s hq

/-- The same for a write to the disk that commits nothing. -/
theorem LogInv.storeStep (h : LogInv boot start D₀ V δ) (hp : δ p = .sys up bl N s) (hb : b ≠ 1)
    (hquiet : b = start → headN d = 0)
    (hstage : StageOk start D₀ ((core start V).store b d) up bl' N s') :
    LogInv boot start D₀ (V.stored p ROOTDEV b d) (update δ p (.sys up bl' N s')) := by
  obtain ⟨-, ok⟩ := h.sys_inv hp
  have hcore : core start (V.stored p ROOTDEV b d) = (core start V).store b d :=
    core_stored hquiet
  refine h.sysStep hp (h.trace.quiet (congrArg Core.jr hcore)) h.use.stored
    (fun dev x hx => hx.1) ?_ (fun _ hh => by cases hh) ?_
  · simp [View.stored, hb.symm]
  · rw [hcore]
    exact ⟨ok.isUp, ok.committing, ok.outstanding, ok.cur, hstage⟩

/-- The header write that commits. -/
theorem LogInv.commitStep (h : LogInv boot start D₀ V δ) (hp : δ p = .sys up bl N s) (hstart : start ≠ 1)
    (hd : 0 < headN d)
    (hstage : StageOk start D₀ ((core start V).commit start d) up bl' N s') :
    LogInv boot start D₀ (V.stored p ROOTDEV start d) (update δ p (.sys up bl' N s')) := by
  obtain ⟨-, ok⟩ := h.sys_inv hp
  refine h.sysStep hp (h.trace.committed ok.cur hd) h.use.stored (fun dev x hx => hx.1) ?_
    (fun _ hh => by cases hh) ?_
  · simp [View.stored, hstart.symm]
  · rw [core_committed hd]
    exact ⟨ok.isUp, ok.committing, ok.outstanding, ok.cur, hstage⟩

/-! ## Commit and recovery -/

omit [DecidableEq Pid] in
/-- In the stages that touch the disk the parameters of the log are set. -/
theorem LogInv.logUp (h : LogInv boot start D₀ V δ) (hp : δ p = .sys up bl N s) (hs : s ≠ .booting) :
    LogUp start V.log := by
  obtain ⟨-, ok⟩ := h.sys_inv hp
  have hstage := ok.stage
  cases s with
  | writing t => exact hstage.2.1
  | installing t => exact hstage.1
  | erasing => exact hstage.1
  | finished => exact hstage.1
  | booting => exact absurd rfl hs
  | booted => exact hstage.2.1

/-- Reading the parameters of the log. -/
theorem wp_readLog {α : Type} {H : Slot → Option Hold} (hs : s ≠ .booting)
    {k : Log → Prog (Machine Pid) α} {Q : α → Ghost Mode → Prop}
    (hk : ∀ log : Log, LogUp start log → wp (Inv (LogInv boot start D₀)) (Tolerated start) p (k log)
      (H, .sys up bl N s) Q) :
    wp (Inv (LogInv boot start D₀)) (Tolerated start) p
      (Prog.reads (fun m : Machine Pid => m.log) >>= k) (H, .sys up bl N s) Q := by
  refine wp_bind.mpr (wp_reads fun m γ hI hg => ?_)
  obtain ⟨st, -, hj⟩ := hI
  have hp : (γ p).2 = .sys up bl N s := by rw [hg]
  exact hk m.log (hj.logUp hp hs)

omit [DecidableEq Pid] in
/-- A commit that writes to the log leaves room: every block it lists has a buffer of its own. -/
theorem LogInv.room (h : LogInv boot start D₀ V δ) {t : ℕ} (hp : δ p = .sys up bl N (.writing t))
    (hroom : V.Room ROOTDEV b) (hb : InLog start b) :
    bl.length + 1 ≤ LOGSIZE ∧ ∀ b ∈ bl, Home start b := by
  obtain ⟨-, ok⟩ := h.sys_inv hp
  obtain ⟨-, -, -, -, hnd, hdirty, -⟩ := ok.stage
  have hhome : ∀ c ∈ bl, Home start c := fun c hc => (h.dirty _ _ ((hdirty c).mpr hc)).2
  refine ⟨hroom bl hnd fun c hc => ⟨(hdirty c).mpr hc, ?_⟩, hhome⟩
  rintro rfl
  exact (hhome c hc).2.2 hb

variable {H : Slot → Option Hold} {t : ℕ} {c : Core}

/-- What is shown of the functions of `log.c`: they take the log from stage `s` to stage `s'` and
give back the buffers they take. -/
abbrev Advances (boot : Pid) (start : ℕ) (D₀ : ℕ → Bytes) (p : Pid) (H : Slot → Option Hold) (g g' : Mode)
    (x : Prog (Machine Pid) Unit) : Prop :=
  wp (Inv (LogInv boot start D₀)) (Tolerated start) p x (H, g) fun _ z => z = (H, g')

theorem advances_writeLogBlock (hgeo : Geometry start) (hb : bl[t]? = some b) :
    wp (Inv (LogInv boot start D₀)) (Tolerated start) p (writeLogBlock p t b)
      (H, .sys up bl N (.writing t)) fun _ z =>
        z = (H, .sys up bl N (.writing (t + 1))) ∧ bl.length + 1 ≤ LOGSIZE := by
  refine wp_readLog (by simp) fun log hlog => ?_
  rw [hlog.dev, hlog.start]
  refine wp_bind.mpr (wp_bread (tolerated_of_ne _) (logInv_stable ..) rootdev_ne fun i hi => ?_)
  refine wp_bind.mpr (wp_bread (tolerated_of_ne _) (logInv_stable ..) rootdev_ne fun j hj => ?_)
  obtain ⟨hne, hj⟩ := slot_ne hj
  rw [update_comm hne]
  refine wp_copy (tolerated_of_ne _) (logInv_stable ..) hj hi hne.symm (P := fun v => v = N b) ?_ ?_
  · intro V δ _ hinv hp
    obtain ⟨-, ok⟩ := hinv.sys_inv hp
    obtain ⟨-, -, -, -, -, hdirty, -, hcont, -⟩ := ok.stage
    have hhome := (hinv.dirty _ _ ((hdirty b).mpr (List.mem_of_getElem? hb))).2
    exact hcont b hhome.2.2
  · rintro V δ _ _ hroom hinv hp - rfl
    obtain ⟨-, ok⟩ := hinv.sys_inv hp
    have ht : t < bl.length := (List.getElem?_eq_some_iff.mp hb).1
    -- the first copy goes to the log in any case, and shows that all of them do
    have hin : InLog start (start + t + 1) := by
      obtain ⟨-, -, -, -, -, -, -, -, -, -, -, hfit⟩ := ok.stage
      rcases Nat.eq_zero_or_pos t with rfl | hpos
      · exact ⟨by omega, Nat.add_lt_add_left (by decide : 1 < LOGSIZE) start⟩
      · have := hfit hpos
        exact ⟨by omega, by omega⟩
    obtain ⟨hfit, hhome⟩ := hinv.room hp hroom hin
    have hlo := hgeo.lo
    exact ⟨_, hinv.storeStep hp (by omega) (by omega) (StageOk.writeCopy ok.stage hb hfit hhome),
      rfl, hfit⟩

omit [DecidableEq Pid] in
/-- What a loop reads in `lh` while it writes to the log or installs. -/
theorem LogInv.lh_eq (h : LogInv boot start D₀ V δ) (hp : δ p = .sys up bl N s)
    (hs : (∃ t, s = .writing t) ∨ ∃ t, s = .installing t) : V.log.lh = bl := by
  obtain ⟨-, ok⟩ := h.sys_inv hp
  rcases hs with ⟨t, rfl⟩ | ⟨t, rfl⟩
  · exact ok.stage.2.2.1
  · exact ok.stage.2.1

/-- A loop over the listed blocks that goes through the stages `f t`. -/
theorem advances_forTail {body : ℕ → ℕ → Prog (Machine Pid) Unit} {f : ℕ → Stage}
    (hf : ∀ t, (∃ k, f t = .writing k) ∨ ∃ k, f t = .installing k)
    (hbody : ∀ {t b V δ}, bl[t]? = some b → LogInv boot start D₀ V δ → δ p = .sys up bl N (f t) →
      wp (Inv (LogInv boot start D₀)) (Tolerated start) p (body t b) (H, .sys up bl N (f t)) fun _ z =>
        z = (H, .sys up bl N (f (t + 1))) ∧ bl.length + 1 ≤ LOGSIZE) :
    wp (Inv (LogInv boot start D₀)) (Tolerated start) p (forTail body LOGSIZE 0)
      (H, .sys up bl N (f 0)) fun _ z => ∃ t, bl.length ≤ t ∧ z = (H, .sys up bl N (f t)) := by
  refine wp_forTail (L := fun t z => z = (H, .sys up bl N (f t)) ∧
    (0 < t → bl.length + 1 ≤ LOGSIZE)) ?_ ?_ ?_ (by simp) ⟨rfl, by simp⟩
  · rintro t b _ ⟨rfl, -⟩ ⟨m, γ, ⟨st, -, hj⟩, hg, hb⟩
    have hp : (γ p).2 = .sys up bl N (f t) := by rw [hg]
    have hlh : m.log.lh = bl := hj.lh_eq hp (hf t)
    rw [hlh] at hb
    exact wp_mono (hbody hb hj hp) fun _ _ hz => ⟨hz.1, fun _ => hz.2⟩
  · rintro t _ ⟨rfl, -⟩ ⟨m, γ, ⟨st, -, hj⟩, hg, hb⟩
    have hp : (γ p).2 = .sys up bl N (f t) := by rw [hg]
    have hlh : m.log.lh = bl := hj.lh_eq hp (hf t)
    rw [hlh] at hb
    exact ⟨t, List.getElem?_eq_none_iff.mp hb, rfl⟩
  · rintro _ ⟨rfl, hfit⟩
    have := hfit (by decide)
    exact ⟨LOGSIZE, by omega, rfl⟩

theorem advances_writeLog (hgeo : Geometry start) :
    wp (Inv (LogInv boot start D₀)) (Tolerated start) p (writeLog p)
      (H, .sys up bl N (.writing 0)) fun _ z => ∃ t, bl.length ≤ t ∧
        z = (H, .sys up bl N (.writing t)) :=
  advances_forTail (f := .writing) (fun t => .inl ⟨t, rfl⟩) fun hb _ _ => advances_writeLogBlock hgeo hb

theorem advances_writeHead_commit (hgeo : Geometry start) (ht : bl.length ≤ t) :
    Advances boot start D₀ p H (.sys up bl N (.writing t)) (.sys up bl N (.installing 0))
      (writeHead p) := by
  refine wp_readLog (by simp) fun log hlog => ?_
  rw [hlog.dev, hlog.start]
  refine wp_bind.mpr (wp_bread (tolerated_of_ne _) (logInv_stable ..) rootdev_ne fun i hi => ?_)
  refine wp_rewrite (tolerated_of_ne _) (logInv_stable ..) hi (P := fun v => ∃ d, v = putHead d bl) ?_ ?_
  · intro m st δ _ hinv hp
    have hlh : m.log.lh = bl := hinv.lh_eq hp (Or.inl ⟨t, rfl⟩)
    exact ⟨_, by rw [hlh]⟩
  · rintro V δ _ _ hroom hinv hp - ⟨d, rfl⟩
    obtain ⟨-, ok⟩ := hinv.sys_inv hp
    have hin : InLog start start := ⟨le_rfl, Nat.lt_add_of_pos_right (by decide)⟩
    obtain ⟨hfit, hhome⟩ := hinv.room hp hroom hin
    have hpos : 0 < headN (putHead d bl) := by
      have hsmall : bl.length < LOGSIZE := hfit
      rw [headN_putHead (hsmall.trans (by decide))]
      exact List.length_pos_iff.mpr ok.stage.2.2.2.1
    have hlo := hgeo.lo
    exact ⟨_, hinv.commitStep hp (by omega) hpos (StageOk.commit ok.stage ht hfit hhome), rfl⟩

theorem advances_installBlock (hb : bl[t]? = some b) :
    Advances boot start D₀ p H (.sys up bl N (.installing t)) (.sys up bl N (.installing (t + 1)))
      (installBlock p t b) := by
  refine wp_readLog (by simp) fun log hlog => ?_
  rw [hlog.dev, hlog.start]
  refine wp_bind.mpr (wp_bread (tolerated_of_ne _) (logInv_stable ..) rootdev_ne fun i hi => ?_)
  refine wp_bind.mpr (wp_bread (tolerated_of_ne _) (logInv_stable ..) rootdev_ne fun j hj => ?_)
  obtain ⟨hne, hj⟩ := slot_ne hj
  refine wp_copy (tolerated_of_ne _) (logInv_stable ..) hi hj hne (P := fun v => v = N b) ?_ ?_
  · intro V δ hsync hinv hp
    obtain ⟨-, ok⟩ := hinv.sys_inv hp
    obtain ⟨-, -, -, hdisk, -⟩ := ok.stage
    have ht : t < bl.length := (List.getElem?_eq_some_iff.mp hb).1
    have hfit := hdisk.fits
    have hclean : ¬V.dirty ROOTDEV (start + t + 1) := by
      intro hd
      exact (hinv.dirty _ _ hd).2.2.2 ⟨by omega, by omega⟩
    rw [← hsync _ _ rootdev_ne hclean]
    exact hdisk.copy t b hb
  · rintro V δ _ _ - hinv hp - rfl
    obtain ⟨-, ok⟩ := hinv.sys_inv hp
    obtain ⟨-, -, -, hdisk, -⟩ := ok.stage
    obtain ⟨-, h1, hnl⟩ := hdisk.home b (List.mem_of_getElem? hb)
    have hfit := hdisk.fits
    have hbs : b ≠ start := fun e => hnl ⟨e.ge, by omega⟩
    exact ⟨_, hinv.storeStep hp h1 (fun e => absurd e hbs) (StageOk.install ok.stage hb), rfl⟩

theorem advances_installTrans :
    wp (Inv (LogInv boot start D₀)) (Tolerated start) p (installTrans p)
      (H, .sys up bl N (.installing 0)) fun _ z => ∃ t, bl.length ≤ t ∧
        z = (H, .sys up bl N (.installing t)) :=
  advances_forTail (f := .installing) (fun t => .inr ⟨t, rfl⟩) fun hb hj hp =>
    wp_mono (advances_installBlock hb) fun _ _ hz => ⟨hz, (hj.sys_inv hp).2.stage.2.2.2.1.fits⟩

theorem advances_clear (ht : bl.length ≤ t) :
    Advances boot start D₀ p H (.sys up bl N (.installing t)) (.sys up bl N .erasing)
      (Prog.modifies fun m : Machine Pid => m.setLh []) := by
  refine wp_local (fun _ _ _ _ _ _ _ h => by cases h) fun m γ st _ m' hc hinv hg hok => ?_
  obtain ⟨-, rfl⟩ := Outcome.ok.inj hok
  have hp : (γ p).2 = .sys up bl N (.installing t) := by rw [hg]
  obtain ⟨-, ok⟩ := hinv.sys_inv hp
  refine ⟨rfl, rfl, rfl, _, hinv.sysStep hp hinv.trace (hinv.use.congr rfl rfl rfl rfl)
    (fun _ _ h => h) rfl hinv.settled ?_, rfl⟩
  exact ⟨ok.isUp, ok.committing, ok.outstanding, ok.cur, StageOk.clear ok.stage ht⟩

theorem advances_writeHead_erase (hgeo : Geometry start) :
    Advances boot start D₀ p H (.sys up bl N .erasing) (.sys up [] N .finished) (writeHead p) := by
  refine wp_readLog (by simp) fun log hlog => ?_
  rw [hlog.dev, hlog.start]
  refine wp_bind.mpr (wp_bread (tolerated_of_ne _) (logInv_stable ..) rootdev_ne fun i hi => ?_)
  refine wp_rewrite (tolerated_of_ne _) (logInv_stable ..) hi (P := fun v => ∃ d, v = putHead d []) ?_ ?_
  · intro m st δ _ hinv hp
    have hlh : m.log.lh = [] := (hinv.sys_inv hp).2.stage.2.1
    exact ⟨_, by rw [hlh]⟩
  · rintro V δ _ _ - hinv hp - ⟨d, rfl⟩
    obtain ⟨-, ok⟩ := hinv.sys_inv hp
    have hzero : headN (putHead d []) = 0 := headN_putHead (by decide)
    have hlo := hgeo.lo
    exact ⟨_, hinv.storeStep hp (by omega) (fun _ => hzero) (StageOk.erase ok.stage), rfl⟩

/-- Installing and erasing, as `commit` and `recover_from_log` both end. -/
theorem advances_install (hgeo : Geometry start) :
    Advances boot start D₀ p H (.sys up bl N (.installing 0)) (.sys up [] N .finished) (do
      installTrans p
      Prog.modifies fun m : Machine Pid => m.setLh []
      writeHead p) := by
  refine wp_seq advances_installTrans ?_
  rintro _ _ ⟨t, ht, rfl⟩
  refine wp_seq (advances_clear ht) ?_
  rintro _ _ rfl
  exact advances_writeHead_erase hgeo

theorem advances_readHead :
    Advances boot start D₀ p H (.sys up bl N .booted) (.sys up bl N (.installing 0)) (readHead p) := by
  refine wp_readLog (by simp) fun log hlog => ?_
  rw [hlog.dev, hlog.start]
  refine wp_bind.mpr (wp_bread (tolerated_of_ne _) (logInv_stable ..) rootdev_ne fun i hi => ?_)
  refine wp_seq (R := fun _ z => z = (update H i (some ⟨ROOTDEV, start, .clean⟩),
    .sys up bl N (.installing 0))) (wp_local ?_ ?_) ?_
  · exact fun m γ st e _ _ _ hf => tolerated_of_ne start m e (readHeadStep_fault hf).1
  · intro m γ st _ m' hc hinv hg hok
    have hp : (γ p).2 = .sys up bl N .booted := by rw [hg]
    obtain ⟨-, ok⟩ := hinv.sys_inv hp
    obtain ⟨hup, hlog, hlh, hbase, hdisk, hdirty⟩ := ok.stage
    -- the header has not been logged, so the buffer has what the disk has
    have hγ : (γ p).1 i = some ⟨ROOTDEV, start, .clean⟩ := by simp [hg]
    have hdata : (m.buf i).data = m.disk ROOTDEV start := by
      obtain hu | ⟨-, hd⟩ := hc.data_held hγ (by simp)
      · simp at hu
      · rw [hd]
        exact (hc.synced _ _ rootdev_ne (hdirty start)).symm
    have hblocks : headBlocks (m.buf i).data = bl := by
      rw [hdata]
      exact hdisk.head
    have hsmall : ¬2 ^ 31 ≤ headN (m.buf i).data := by
      rw [← length_headBlocks, hblocks]
      have hlt : bl.length < LOGSIZE := hdisk.fits
      have hlim : LOGSIZE < 2 ^ 31 := by decide
      omega
    obtain rfl := readHeadStep_ok hok
    rw [if_neg hsmall, hblocks]
    refine ⟨rfl, rfl, rfl, _, hinv.sysStep hp hinv.trace (hinv.use.congr rfl rfl rfl rfl)
      (fun _ _ h => h) rfl hinv.settled ?_, rfl⟩
    refine ⟨ok.isUp, ok.committing, ok.outstanding, ok.cur, ?_⟩
    exact ⟨⟨hlog.start, hlog.size, hlog.dev⟩, rfl, hbase, hdisk, fun x hx => absurd hx (hdirty x),
      by simp, fun hu => absurd hu (by simp [hup])⟩
  · rintro _ _ rfl
    refine wp_brelse (tolerated_of_ne _) (logInv_stable ..) (update_self ..) ?_
    rw [update_idem, ← hi, update_eq_self]

theorem advances_recoverFromLog (hgeo : Geometry start) :
    Advances boot start D₀ p H (.sys up bl N .booted) (.sys up [] N .finished) (recoverFromLog p) := by
  refine wp_seq advances_readHead ?_
  rintro _ _ rfl
  exact advances_install hgeo

omit [DecidableEq Pid] in
/-- Nothing is dirty and the disk is in place, so operations can start. -/
theorem opsOk_of_finished (hquiet : ∀ q, (δ q).Quiet true)
    (hup : c.up = true) (hcommit : c.log.committing = false) (hout : c.log.outstanding = 0)
    (hlog : LogUp start c.log) (hlh : c.log.lh = []) (hcur : c.jr.cur = []) (hpend : c.jr.pend = [])
    (hdisk : OnDisk start c.disk (c.jr.base D₀) []) (hdirty : ∀ b, ¬c.dirty b)
    (hsync : ∀ b, ¬c.dirty b → c.disk b = c.content b) : OpsOk start D₀ c δ where
  isUp := hup
  noSys q := Or.inr (hquiet q)
  outstanding := ⟨∅, fun q => by rcases hquiet q with h | ⟨h, -⟩ <;> simp [h, Mode.op], by simp [hout]⟩
  committing := hcommit
  log := hlog
  nodup := by simp [hlh]
  lh b := by simp [hlh, hcur]
  dirty b := by simp [hlh, hdirty b]
  disk := hdisk
  content b hb := by
    rw [hcur, apply_nil, ← hsync b (hdirty b)]
    exact hdisk.rest b hb (by simp)
  pend := hpend

/-- `initlog` in full: from power-on to a system that takes operations. -/
theorem advances_initlog (hgeo : Geometry start) :
    Advances boot start D₀ p H (.sys false bl N .booting) .idle (initlog p ROOTDEV) := by
  refine wp_bind.mpr (wp_bread (tolerated_of_ne _) (logInv_stable ..) rootdev_ne fun i hi => ?_)
  refine wp_seq (R := fun sb z => SbOk start sb ∧
    z = (update H i (some ⟨ROOTDEV, 1, .clean⟩), .sys false bl N .booting)) ?_ ?_
  · refine wp_reads fun m γ hI hg => ⟨?_, rfl⟩
    obtain ⟨st, hc, hinv⟩ := hI
    have hγ : (γ p).1 i = some ⟨ROOTDEV, 1, .clean⟩ := by simp [hg]
    obtain hu | ⟨-, hd⟩ := hc.data_held hγ (by simp)
    · simp at hu
    · have hclean : ¬(view m st).dirty ROOTDEV 1 := fun h => (hinv.dirty _ _ h).2.2.1 rfl
      rw [hd]
      have hsync := hc.synced _ _ rootdev_ne hclean
      exact hsync ▸ hinv.sb
  rintro sb _ ⟨hsb, rfl⟩
  refine wp_bind.mpr (wp_brelse (tolerated_of_ne _) (logInv_stable ..) (update_self ..) ?_)
  rw [update_idem, ← hi, update_eq_self]
  refine wp_seq (R := fun _ z => z = (H, .sys false bl N .booted)) ?_ ?_
  · refine wp_local (fun _ _ _ _ _ _ _ h => by cases h) fun m γ st _ m' hc hinv hg hok => ?_
    obtain ⟨-, rfl⟩ := Outcome.ok.inj hok
    have hp : (γ p).2 = .sys false bl N .booting := by rw [hg]
    obtain ⟨-, ok⟩ := hinv.sys_inv hp
    obtain ⟨hup, hlh, hbase, hdisk, hdirty⟩ := ok.stage
    refine ⟨rfl, rfl, rfl, _, hinv.sysStep hp hinv.trace (hinv.use.congr rfl rfl rfl rfl)
      (fun _ _ h => h) rfl hinv.settled ?_, rfl⟩
    refine ⟨ok.isUp, ok.committing, ok.outstanding, ok.cur, ?_⟩
    exact ⟨hup, ⟨hsb.1, hsb.2, rfl⟩, hlh, hbase, hdisk, hdirty⟩
  rintro _ _ rfl
  refine wp_seq (advances_recoverFromLog hgeo) ?_
  rintro _ _ rfl
  refine wp_local (fun _ _ _ _ _ _ _ h => by cases h) fun m γ st _ m' hc hinv hg hok => ?_
  obtain ⟨-, rfl⟩ := Outcome.ok.inj hok
  have hp : (γ p).2 = .sys false [] N .finished := by rw [hg]
  obtain ⟨others, ok⟩ := hinv.sys_inv hp
  obtain ⟨hlog, hlh, hbase, hdisk, hdirty, -⟩ := ok.stage
  refine ⟨rfl, rfl, rfl, .idle, ?_, rfl⟩
  refine ⟨?_, hinv.use.congr rfl rfl rfl rfl, hinv.dirty, hinv.sb, .ops ?_,
    hinv.boot_update (by simp), fun _ _ => hbase ▸ hdisk⟩
  · rw [op_update (by rw [hp]; rfl)]
    exact hinv.trace.recovered ok.cur
  · refine opsOk_of_finished (fun q => ?_) rfl ok.committing ok.outstanding hlog hlh ok.cur rfl ?_
      hdirty fun b hb => hc.synced _ _ rootdev_ne hb
    · rcases eq_or_ne q p with rfl | hq
      · exact Or.inl (update_self ..)
      · rw [update_of_ne hq]
        exact (others q hq).imp_right fun h => ⟨h.1, rfl⟩
    · exact hbase ▸ hdisk

/-! ## Operations -/

/-- `begin_op` adds the process to those in an operation. -/
theorem advances_beginOp : wp (Inv (LogInv boot start D₀)) (Tolerated start) p (beginOp p) (H, .user)
    fun op z => z = (H, .inOp op) := by
  refine wp_local (fun m γ st e _ _ _ hf => tolerated_of_ne start m e (beginOpStep_fault hf).1) ?_
  intro m γ st op m' hc hinv hg hok
  obtain ⟨hcommit, -, rfl, rfl⟩ := beginOpStep_ok hok
  have hp : (γ p).2 = .user := by rw [hg]
  have ok := hinv.user_inv hp hcommit
  obtain ⟨S, hS, hout⟩ := ok.outstanding
  have hpS : p ∉ S := by
    rw [hS p, hp]
    simp [Mode.op]
  refine ⟨rfl, rfl, rfl, .inOp m.hist.length, ?_, rfl⟩
  have hop : (fun q => (update (fun q => (γ q).2) p (.inOp m.hist.length) q).op) =
      update (fun q => (γ q).2.op) p (some m.hist.length) :=
    comp_update Mode.op _ p _
  refine ⟨?_, hinv.use.congr rfl rfl rfl rfl, hinv.dirty, hinv.sb, .ops ?_,
    hinv.boot_update (by simp), fun _ hh => by cases hh⟩
  · rw [hop]
    exact hinv.trace.began (by rw [hp]; rfl)
  · refine ⟨ok.isUp, fun q => ?_, ⟨insert p S, fun q => ?_, ?_⟩, hcommit,
      ⟨ok.log.start, ok.log.size, ok.log.dev⟩, ok.nodup, ok.lh, ok.dirty, ok.disk, ok.content,
      ok.pend⟩
    · rcases eq_or_ne q p with rfl | hq
      · exact Or.inl (by simp [Mode.op])
      · rw [update_of_ne hq]
        exact ok.noSys q
    · rcases eq_or_ne q p with rfl | hq
      · simp [Mode.op]
      · rw [Finset.mem_insert, update_of_ne hq, hS q]
        simp [hq]
    · have hout' : m.log.outstanding = S.card := hout
      simp [core, view, Machine.note, hout', Finset.card_insert_of_notMem hpS]

/-- The open transaction is closed: its writes are to be committed. -/
def Core.close (c : Core) : Core :=
  { c with
    log := { c.log with outstanding := c.log.outstanding - 1, committing := true }
    jr := { c.jr with pend := c.jr.cur, cur := [] } }

omit [DecidableEq Pid] in
/-- The last operation has ended: either there is something to write, or nothing to do. -/
theorem OpsOk.close (ok : OpsOk start D₀ c δ) (hout : c.log.outstanding - 1 = 0) :
    ∃ N, SysOk start D₀ c.close true [] N .finished ∨
      ∃ bl, SysOk start D₀ c.close true bl N (.writing 0) := by
  by_cases hlh : c.log.lh = []
  · have hcur : c.jr.cur = [] := by
      rw [List.eq_nil_iff_forall_not_mem]
      intro w hw
      have := (ok.lh w.b).mpr ⟨w, hw, rfl⟩
      simp [hlh] at this
    refine ⟨c.jr.base D₀, Or.inl ⟨ok.isUp, rfl, hout, rfl, ?_⟩⟩
    refine ⟨⟨ok.log.start, ok.log.size, ok.log.dev⟩, hlh, rfl, ok.disk, fun b hb => ?_, fun _ => hcur⟩
    have := (ok.dirty b).mp hb
    simp [hlh] at this
  · refine ⟨apply c.jr.cur (c.jr.base D₀), Or.inr ⟨c.log.lh, ok.isUp, rfl, hout, rfl, ?_⟩⟩
    refine ⟨rfl, ⟨ok.log.start, ok.log.size, ok.log.dev⟩, rfl, hlh, ok.nodup, ok.dirty, ok.disk,
      ok.content, rfl, fun b hb => ?_, by simp, by simp⟩
    exact apply_of_not_mem fun w hw hwb => hb ((ok.lh b).mpr ⟨w, hw, hwb⟩)

/-- The first part of `end_op`. The last operation becomes a commit of everything that has been
logged, or of nothing. -/
theorem advances_endOpStep :
    wp (Inv (LogInv boot start D₀)) (Tolerated start) p (Prog.atomic (endOpStep p op)) (H, .inOp op)
      fun last z => (last = false ∧ z = (H, .idle)) ∨ (last = true ∧ ∃ N,
        z = (H, .sys true [] N .finished) ∨ ∃ bl, z = (H, .sys true bl N (.writing 0))) := by
  refine wp_local (fun m γ st e _ _ _ hf => tolerated_of_ne start m e (endOpStep_fault hf).1) ?_
  intro m γ st last m' hc hinv hg hok
  have hp : (γ p).2 = .inOp op := by rw [hg]
  have ok := hinv.ops_inv hp
  obtain ⟨-, hlast, rfl⟩ := endOpStep_ok hok
  obtain ⟨S, hS, hout⟩ := ok.outstanding
  have hout : m.log.outstanding = S.card := hout
  have hpS : p ∈ S := by
    rw [hS p, hp]
    simp [Mode.op]
  have hcard : (S.erase p).card = m.log.outstanding - 1 := by
    have h1 := Finset.card_erase_add_one hpS
    omega
  have hrun : (γ p).2.op = some op := by rw [hp]; rfl
  cases last with
  | false =>
    refine ⟨rfl, rfl, rfl, .idle, ?_, Or.inl ⟨rfl, rfl⟩⟩
    have hop : (fun q => (update (fun q => (γ q).2) p .idle q).op) =
        update (fun q => (γ q).2.op) p none := comp_update Mode.op _ p _
    refine ⟨?_, hinv.use.congr rfl rfl rfl rfl, hinv.dirty, hinv.sb, .ops ?_,
      hinv.boot_update (by simp), fun _ hh => by cases hh⟩
    · rw [hop]
      exact hinv.trace.ended hrun
    · refine ⟨ok.isUp, fun q => ?_, ⟨S.erase p, fun q => ?_, hcard.symm⟩, rfl,
        ⟨ok.log.start, ok.log.size, ok.log.dev⟩, ok.nodup, ok.lh, ok.dirty, ok.disk, ok.content,
        ok.pend⟩
      · rcases eq_or_ne q p with rfl | hq
        · exact Or.inr (Or.inl (update_self ..))
        · rw [update_of_ne hq]
          exact ok.noSys q
      · rcases eq_or_ne q p with rfl | hq
        · simp [Mode.op]
        · rw [Finset.mem_erase, update_of_ne hq, hS q]
          simp [hq]
  | true =>
    have hzero : m.log.outstanding - 1 = 0 := by simpa using hlast
    -- nobody else is in an operation
    have hothers : ∀ q, q ≠ p → (γ q).2.op = none := by
      intro q hq
      have hempty : S.erase p = ∅ := by
        rw [← Finset.card_eq_zero]
        omega
      by_contra hne
      have hmem : q ∈ S.erase p := Finset.mem_erase.mpr ⟨hq, (hS q).mpr hne⟩
      simp [hempty] at hmem
    have henter : ∀ (bl : List ℕ) (N : ℕ → Bytes) (s : Stage),
        SysOk start D₀ (core start (view m st)).close true bl N s →
        LogInv boot start D₀ (view ({ m with log := { m.log with
          outstanding := m.log.outstanding - 1, committing := true } }.note (.ended p op true)) st)
          (update (fun q => (γ q).2) p (.sys true bl N s)) := by
      intro bl N s hs
      refine ⟨?_, hinv.use.congr rfl rfl rfl rfl, hinv.dirty, hinv.sb,
        .sys p true bl N s (update_self ..) (fun q hq => ?_) hs, hinv.boot_update (by simp),
        fun _ hh => by cases hh⟩
      · have hop : (fun q => (update (fun q => (γ q).2) p (.sys true bl N s) q).op) =
            fun _ => none := by
          funext q
          rcases eq_or_ne q p with rfl | hq
          · simp [Mode.op]
          · simp [hq, hothers q hq]
        rw [hop]
        exact hinv.trace.endedLast hrun hothers ok.pend
      · rw [update_of_ne hq]
        exact (ok.noSys q).resolve_left (by simp [hothers q hq])
    obtain ⟨N, hs | ⟨bl, hs⟩⟩ := ok.close hzero
    · exact ⟨rfl, rfl, rfl, _, henter [] N _ hs, Or.inr ⟨rfl, N, Or.inl rfl⟩⟩
    · exact ⟨rfl, rfl, rfl, _, henter bl N _ hs, Or.inr ⟨rfl, N, Or.inr ⟨bl, rfl⟩⟩⟩

theorem advances_commit_writing (hgeo : Geometry start) :
    Advances boot start D₀ p H (.sys true bl N (.writing 0)) (.sys true [] N .finished) (commit p) := by
  refine wp_bind.mpr (wp_reads fun m γ hI hg => ?_)
  obtain ⟨st, -, hinv⟩ := hI
  have hp : (γ p).2 = .sys true bl N (.writing 0) := by rw [hg]
  obtain ⟨-, ok⟩ := hinv.sys_inv hp
  obtain ⟨-, -, hlh, hne, -⟩ := ok.stage
  have hlh : m.log.lh = bl := hlh
  rw [if_pos (by rw [hlh]; exact List.length_pos_iff.mpr hne)]
  refine wp_seq (advances_writeLog hgeo) ?_
  rintro _ _ ⟨t, ht, rfl⟩
  refine wp_seq (advances_writeHead_commit hgeo ht) ?_
  rintro _ _ rfl
  exact advances_install hgeo

theorem advances_commit_empty :
    Advances boot start D₀ p H (.sys true [] N .finished) (.sys true [] N .finished) (commit p) := by
  refine wp_bind.mpr (wp_reads fun m γ hI hg => ?_)
  obtain ⟨st, -, hinv⟩ := hI
  have hp : (γ p).2 = .sys true [] N .finished := by rw [hg]
  have hlh : m.log.lh = [] := (hinv.sys_inv hp).2.stage.2.1
  rw [if_neg (by simp [hlh])]
  rfl

/-- `end_op` in full. -/
theorem advances_endOp (hgeo : Geometry start) : Advances boot start D₀ p H (.inOp op) .idle (endOp p op) := by
  refine wp_seq advances_endOpStep ?_
  rintro last _ (⟨rfl, rfl⟩ | ⟨rfl, N, hz⟩)
  · rfl
  simp only [if_true]
  refine wp_seq (R := fun _ z => z = (H, .sys true [] N .finished)) ?_ ?_
  · rcases hz with rfl | ⟨bl, rfl⟩
    · exact advances_commit_empty
    · exact advances_commit_writing hgeo
  rintro _ _ rfl
  refine wp_local (fun _ _ _ _ _ _ _ h => by cases h) fun m γ st _ m' hc hinv hg hok => ?_
  obtain ⟨-, rfl⟩ := Outcome.ok.inj hok
  have hp : (γ p).2 = .sys true [] N .finished := by rw [hg]
  obtain ⟨others, ok⟩ := hinv.sys_inv hp
  obtain ⟨hlog, hlh, hbase, hdisk, hdirty, hpend⟩ := ok.stage
  refine ⟨rfl, rfl, rfl, .idle, ?_, rfl⟩
  refine ⟨?_, hinv.use.congr rfl rfl rfl rfl, hinv.dirty, hinv.sb, .ops ?_,
    hinv.boot_update (by simp), hinv.settled⟩
  · rw [op_update (by rw [hp]; rfl)]
    exact hinv.trace
  · refine opsOk_of_finished (fun q => ?_) ok.isUp rfl ok.outstanding
      ⟨hlog.start, hlog.size, hlog.dev⟩ hlh ok.cur (hpend rfl) (hbase ▸ hdisk) hdirty
      fun b hb => hc.synced _ _ rootdev_ne hb
    rcases eq_or_ne q p with rfl | hq
    · exact Or.inl (update_self ..)
    · rw [update_of_ne hq]
      exact others q hq

omit [DecidableEq Pid] in
/-- While operations run, the header in memory lists each block of the open transaction once. -/
theorem OpsOk.length_lh (ok : OpsOk start D₀ c δ) : c.log.lh.length = c.jr.blocks.length := by
  have hperm : c.log.lh.Perm c.jr.blocks := by
    refine (List.perm_ext_iff_of_nodup ok.nodup (List.nodup_dedup _)).mpr fun b => ?_
    rw [ok.lh b, List.mem_dedup, List.mem_map]
  exact hperm.length_eq

omit [DecidableEq Pid] in
/-- One more block is logged. -/
theorem OpsOk.logged (ok : OpsOk start D₀ c δ) (op b : ℕ) (d : Bytes) :
    OpsOk start D₀ { c with
      content := update c.content b d
      dirty := fun x => c.dirty x ∨ x = b
      log := { c.log with lh := if b ∈ c.log.lh then c.log.lh else c.log.lh ++ [b] }
      jr := { c.jr with cur := c.jr.cur ++ [⟨op, b, d⟩], all := c.jr.all ++ [⟨op, b, d⟩] } } δ := by
  have hmem : ∀ x, (x ∈ if b ∈ c.log.lh then c.log.lh else c.log.lh ++ [b]) ↔
      x ∈ c.log.lh ∨ x = b := by
    intro x
    split
    next hb => exact ⟨Or.inl, fun h => h.elim id fun e => e ▸ hb⟩
    · simp
  refine ⟨ok.isUp, ok.noSys, ok.outstanding, ok.committing, ⟨ok.log.start, ok.log.size, ok.log.dev⟩,
    ?_, fun x => ?_, fun x => ?_, ok.disk, fun x hx => ?_, ok.pend⟩
  · dsimp only
    split
    · exact ok.nodup
    next hb =>
      refine List.nodup_append.mpr ⟨ok.nodup, by simp, fun y hy z hz => ?_⟩
      rw [List.mem_singleton.mp hz]
      rintro rfl
      exact hb hy
  · rw [hmem x, ok.lh x]
    simp only [List.mem_append, List.mem_singleton, or_and_right, exists_or, exists_eq_left]
    rw [@eq_comm _ x b]
  · simp only [hmem, ok.dirty]
  · simp only [apply_concat]
    rcases eq_or_ne x b with rfl | hxb
    · simp
    · simp only [update_of_ne hxb]
      exact ok.content x hx

/-- `log_write` of a home block by a process in an operation. -/
theorem advances_logWrite {i : Slot} {x : Hold} (hi : H i = some x) (hph : x.phase ≠ .loading)
    (hdev : x.dev = ROOTDEV) (hhome : Home start x.b) :
    wp (Inv (LogInv boot start D₀)) (Tolerated start) p (logWrite p op i) (H, .inOp op) fun _ z =>
      z = (update H i (some ⟨x.dev, x.b, .clean⟩), .inOp op) := by
  refine wp_seq (R := fun _ z => z = (H, .inOp op)) (wp_local ?_ ?_) ?_
  · rintro m γ st e _ hinv hg hf rfl
    have hp : (γ p).2 = .inOp op := by rw [hg]
    have ok := hinv.ops_inv hp
    have hsize : m.log.size = LOGSIZE := ok.log.size
    have hlen : m.log.lh.length = (journal start m.hist).blocks.length := ok.length_lh
    rw [logWriteTest_tooBig, hsize] at hf
    omega
  · intro m γ st _ m' _ hinv hg hok
    obtain ⟨rfl, -⟩ := logWriteTest_ok hok
    refine ⟨rfl, rfl, rfl, .inOp op, ?_, rfl⟩
    rwa [update_eq_self_iff.mpr (by rw [hg])]
  rintro _ _ rfl
  refine wp_logWriteStep (tolerated_of_ne start) hi hph fun V δ d _ hinv hp _ _ => ?_
  have ok := hinv.ops_inv hp
  refine ⟨.inOp op, ?_, rfl⟩
  rw [update_eq_self_iff.mpr hp.symm]
  have hrun : (δ p).op = some op := by rw [hp]; rfl
  refine ⟨hinv.trace.logged hrun, hinv.use.logged, ?_, hinv.sb, .ops ?_, hinv.boot,
    fun _ hh => by cases hh⟩
  · rintro dev b (hd | ⟨rfl, rfl⟩)
    · exact hinv.dirty dev b hd
    · exact ⟨hdev, hhome⟩
  · have hnew := ok.logged op x.b d
    simp only [core, View.logged, hdev, Store.put, update_self, true_and]
    exact hnew

end

end Xv6.Bio
