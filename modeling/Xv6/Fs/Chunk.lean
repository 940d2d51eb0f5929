import Mathlib.Order.Interval.Finset.Nat
import Xv6.Fs.File

/-!
# The transactions of `filewrite`

`filewrite` splits a write into transactions. Each of them locks the inode, writes some bytes at the file's
offset, advances the offset and unlocks the inode; `writeChunk` is one of them.
-/

namespace Xv6.Fs

open Conc Lib Prog

variable {Pid : Type}

/-! ## Locking an inode that is free -/

/-- Entry `i`, which nobody has locked, has inode `X`, which is `L`. -/
structure Rests (n : ℕ) (node : ℕ → Body) (s : State Pid) (i : ISlot) (X : ℕ) (L : Live)
    (owner : ℕ → Option (Loc Pid)) : Prop where
  sits : Sits n node (s.setInode i { s.inode i with d := L.c }) i X L owner
  ref : 1 ≤ (s.inode i).ref
  busy : (s.inode i).busy = false
  cached : (s.inode i).valid = true → (s.inode i).d = L.c
  synced : (s.inode i).valid = false → L.Synced

section

variable {n : ℕ} {node : ℕ → Body} {s s' : State Pid} {i : ISlot} {X : ℕ} {L : Live}
  {owner : ℕ → Option (Loc Pid)}

namespace Rests

theorem congr (h : Rests n node s i X L owner) (hstore : s'.store = s.store) (hsb : s'.sb = s.sb)
    (hinode : s'.inode i = s.inode i) : Rests n node s' i X L owner where
  sits := h.sits.congr hstore hsb (by simp [hinode]) (by simp [hinode])
    (by simp)
  ref := hinode ▸ h.ref
  busy := hinode ▸ h.busy
  cached := hinode ▸ h.cached
  synced := hinode ▸ h.synced

theorem dev (h : Rests n node s i X L owner) : (s.inode i).dev = ROOTDEV := by
  have := h.sits.dev
  rwa [inode_setInode] at this

theorem inum (h : Rests n node s i X L owner) : (s.inode i).inum = X := by
  have := h.sits.inum
  rwa [inode_setInode] at this

end Rests

end

variable [DecidableEq Pid] {p : Pid} {f : FSlot} {ip : ISlot}

@[simp] theorem inode_addLock {s : State Pid} {p : Pid} {i : ISlot} {k : ℤ} : (s.addLock p i k).inode = s.inode := rfl

/-- The state after `ilock`, which has found or loaded `d`. -/
def State.locked (s : State Pid) (p : Pid) (i : ISlot) (d : Dinode) : State Pid :=
  (s.setInode i { s.inode i with busy := true, valid := true, d }).addLock p i 1

/-- The state after `iunlock`. -/
def State.unlocked (s : State Pid) (p : Pid) (i : ISlot) : State Pid :=
  (s.setInode i { s.inode i with busy := false }).addLock p i (-1)

section

variable {n : ℕ} {node : ℕ → Body} {s s' : State Pid} {i : ISlot} {X : ℕ} {L : Live}
  {owner : ℕ → Option (Loc Pid)} {p : Pid}

namespace Rests

theorem sits_locked (h : Rests n node s i X L owner) : Sits n node (s.locked p i L.c) i X L owner :=
  h.sits.congr rfl rfl (by simp [State.locked]) (by simp [State.locked]) (by simp [State.locked])

theorem run_ilock (h : Rests n node s i X L owner) : (ilock p i).run s = .ok () (s.locked p i L.c) := by
  have href := h.ref
  have hlock : ilockStep p i s = .ok () ((s.setInode i { s.inode i with busy := true }).addLock p i 1) := by
    rw [ilockStep, if_neg (by omega), if_neg (by simp [h.busy])]
  rw [ilock, Prog.bind_eq, Prog.run_atomic_bind hlock, Prog.run_atomic]
  -- the entry after the first step
  generalize hs₁ : (s.setInode i { s.inode i with busy := true }).addLock p i 1 = s₁
  have hi : s₁.inode i = { s.inode i with busy := true } := by
    rw [← hs₁]
    exact Function.update_self ..
  cases hv : (s.inode i).valid with
  | true =>
    have hsame : s₁ = s.locked p i L.c := by rw [← hs₁, State.locked, ← h.cached hv, ← hv]
    rw [iloadStep, hi, ← hsame]
    exact if_pos hv
  | false =>
    have hlt := h.sits.sb_ok.iblock h.sits.lt
    have hstart := h.sits.sb_ok.bmapstart_lt
    have hdata := h.sits.sb_ok.dataStart_le
    have hd : Dinode.read (s.block ROOTDEV (IBLOCK X s.sb)) X = L.c := h.sits.body.1.trans (h.synced hv)
    have hblk : ∀ f : Bytes → Outcome (State Pid) Unit, onBlock ROOTDEV (IBLOCK X s.sb) f s₁ =
        f (s.block ROOTDEV (IBLOCK X s.sb)) := by
      intro f
      rw [← hs₁]
      exact onBlock_free (lt_of_lt_of_le (lt_trans hlt.2 hstart) hdata) (h.sits.free _)
    have hsb : s₁.sb = s.sb := by rw [← hs₁]; rfl
    have hdone : s₁.setInode i { s.inode i with busy := true, valid := true, d := L.c } = s.locked p i L.c := by
      rw [← hs₁]
      simp only [State.locked, State.setInode, State.addLock, State.setAux, Function.update_idem]
    simp only [iloadStep, hi, hv, Bool.false_eq_true, if_false, hsb, h.dev, h.inum, hblk, hd, h.sits.ok.type_ne]
    rw [← hdone]
    simp [h.dev, h.inum]

end Rests

/-- An entry that has been changed since it was locked. -/
theorem Alters.inode_eq {d : Dinode} (ha : Alters i (s.locked p i d) s') :
    s'.inode i = { s.inode i with busy := true, valid := true, d := (s'.inode i).d } := by
  conv_lhs => rw [ha.inode]
  simp [State.locked]

theorem run_iunlock (href : 1 ≤ (s.inode i).ref) (hbusy : (s.inode i).busy = true) :
    (iunlock p i).run s = .ok () (s.unlocked p i) := by
  rw [iunlock, Prog.run_atomic, iunlockStep, if_neg]
  · rfl
  · rintro (hfree | hdead)
    · exact hfree hbusy
    · omega

/-- An entry rests after it has been unlocked. -/
theorem Sits.rests_unlocked (h : Sits n node s i X L owner) (href : 1 ≤ (s.inode i).ref)
    (hvalid : (s.inode i).valid = true) : Rests n node (s.unlocked p i) i X L owner := by
  have hi : (s.unlocked p i).inode i = { s.inode i with busy := false } := by
    simp [State.unlocked]
  refine ⟨h.congr rfl rfl ?_ ?_ ?_, by rw [hi]; exact href, by rw [hi], fun _ => by rw [hi]; exact h.d, fun hv => ?_⟩
  · rw [inode_setInode, hi]
  · rw [inode_setInode, hi]
  · rw [inode_setInode, h.d]
  · rw [hi, hvalid] at hv
    cases hv

end

/-! ## One transaction -/

/-- What `filewrite` does with the inode locked. -/
def writeSection (p : Pid) (f : FSlot) (ip : ISlot) (src : List UInt8) : Prog (State Pid) ℤ := do
  ilock p ip
  let off ← Prog.reads fun s : State Pid => (s.file f).off
  let r ← writei p ip src off
  addOff f r
  iunlock p ip
  pure r

/-- One transaction of `filewrite`, which writes the bytes `src`. -/
def writeChunk (p : Pid) (f : FSlot) (ip : ISlot) (src : List UInt8) : Prog (State Pid) ℤ := do
  beginOp p
  let r ← writeSection p f ip src
  endOp p
  pure r

/-- `filewrite` is a sequence of such transactions. -/
theorem filewriteLoop_succ {addr : Bytes} {n fuel i : ℕ} (h : i < n) :
    filewriteLoop p f ip addr n (fuel + 1) i =
      writeChunk p f ip (addr.read i (min (n - i) writeMax)) >>= fun r =>
        if r < 0 then pure i
        else if r ≠ (min (n - i) writeMax : ℕ) then .fail (.panic "short filewrite")
        else filewriteLoop p f ip addr n fuel (i + r.toNat) := by
  rw [filewriteLoop, if_pos h]
  simp only [writeChunk, writeSection, Prog.bind_eq, Prog.bind_assoc, Prog.pure_eq, Prog.ret_bind]

/-- `writeSection` with the blocks it logs. -/
def Logged.writeSection (p : Pid) (f : FSlot) (ip : ISlot) (src : List UInt8) : Prog (Logged.Traced Pid) ℤ := do
  (ilock p ip).quiet
  let off ← (Prog.reads fun s : State Pid => (s.file f).off).quiet
  let r ← Logged.writei p ip src off
  (addOff f r).quiet
  (iunlock p ip).quiet
  pure r

/-- `writeChunk` with the blocks it logs. -/
def Logged.writeChunk (p : Pid) (f : FSlot) (ip : ISlot) (src : List UInt8) : Prog (Logged.Traced Pid) ℤ := do
  (beginOp p).quiet
  let r ← Logged.writeSection p f ip src
  (endOp p).quiet
  pure r

theorem Logged.erases_writeSection {src : List UInt8} :
    Erases (Logged.writeSection p f ip src) (Fs.writeSection p f ip src) :=
  erases_quiet.bind fun _ => erases_quiet.bind fun _ => Logged.erases_writei.bind fun _ => erases_quiet.bind fun _ =>
    erases_quiet.bind fun _ => erases_pure

theorem Logged.erases_writeChunk {src : List UInt8} :
    Erases (Logged.writeChunk p f ip src) (Fs.writeChunk p f ip src) :=
  erases_quiet.bind fun _ => Logged.erases_writeSection.bind fun _ => erases_quiet.bind fun _ => erases_pure

section

variable {node : ℕ → Body} {s : State Pid} {i : ISlot} {X : ℕ} {L : Live} {owner : ℕ → Option (Loc Pid)} {p : Pid}
  {f : FSlot} {src : List UInt8} {F : Fault → Prop} {l : List ℕ}

omit [DecidableEq Pid] in
theorem Live.fits_iff {off n : ℕ} : L.Fits off n ↔ off ≤ L.c.size ∧ off + n ≤ MAXFILE * BSIZE := by
  have hmax : MAXFILE * BSIZE < 2 ^ 32 := by decide
  rw [Live.Fits]
  omega

/-- The end of a transfer: the offset is advanced and the inode unlocked. -/
theorem Sits.ends_advance {α : Type} {a : α} {Q : α → State Pid → Prop} {r : ℤ} (h : Sits 0 node s i X L owner)
    (href : 1 ≤ (s.inode i).ref) (hbusy : (s.inode i).busy = true) (hvalid : (s.inode i).valid = true)
    (hwrap : 0 < r → (s.file f).off + r.toNat < 2 ^ 32)
    (hQ : ∀ s', Rests 0 node s' i X L owner → s'.sb = s.sb →
      s'.file = Function.update s.file f { s.file f with off := (s.file f).off + r.toNat } → Q a s') :
    (do
      addOff f r
      iunlock p i
      pure a : Prog (State Pid) α).Ends F s Q := by
  refine Ends.bind (ends_modifies ?_)
  -- the state with the new offset
  have hstep : ∀ s₁ : State Pid, s₁.store = s.store → s₁.sb = s.sb → s₁.inode = s.inode →
      s₁.file = Function.update s.file f { s.file f with off := (s.file f).off + r.toNat } →
      (do
        iunlock p i
        pure a : Prog (State Pid) α).Ends F s₁ Q := by
    intro s₁ hstore hsb hinode hfile
    have hs₁ : Sits 0 node s₁ i X L owner := h.congr hstore hsb (by rw [hinode]) (by rw [hinode]) (by rw [hinode])
    refine Ends.bind (Ends.of_run (run_iunlock (by rwa [hinode]) (by rwa [hinode])) (ends_pure (hQ _ ?_ hsb hfile)))
    exact hs₁.rests_unlocked (by rwa [hinode]) (by rwa [hinode])
  by_cases hr : 0 < r
  · have huint : uint ((s.file f).off + r.toNat) = (s.file f).off + r.toNat := Nat.mod_eq_of_lt (hwrap hr)
    simp only [hr, if_true, huint]
    exact hstep _ rfl rfl rfl rfl
  · have hz : r.toNat = 0 := by omega
    simp only [hr, if_false]
    refine hstep s rfl rfl rfl ?_
    rw [hz, Nat.add_zero]
    exact (Function.update_eq_self ..).symm

variable {Q : ℤ → Logged.Traced Pid → Prop} (h : Rests 0 node s i X L owner)
    (ht : L.c.type ≠ T_DEV) (hlen : src.length < 2 ^ 32)
    (hbad : ¬L.Fits (s.file f).off src.length → ∀ s', Rests 0 node s' i X L owner → s'.sb = s.sb →
      s'.file = s.file → Q (-1) (s', l))
    (hF : L.Fits (s.file f).off src.length →
      spare s.sb owner < L.need (touched (s.file f).off src.length) → F outOfBlocks)
    (hQ : L.Fits (s.file f).off src.length → ∀ s' M owner' w, Rests 0 node s' i X M owner' → s'.sb = s.sb →
      s'.file = Function.update s.file f { s.file f with off := (s.file f).off + src.length } →
      L.Written s.sb X (s.file f).off src M w →
      spare s.sb owner' + L.need (touched (s.file f).off src.length) = spare s.sb owner → Q src.length (s', l ++ w))

include h ht hlen hbad hF hQ

/-- What `filewrite` does with the inode, if nobody has locked it before. -/
theorem Rests.ends_writeSection :
    (Logged.writeSection p f i src).Ends F (s, l) Q := by
  rw [Live.fits_iff] at hbad hF hQ
  have hlocked : Sits 0 node (s.locked p i L.c) i X L owner := h.sits_locked
  have hmax : MAXFILE * BSIZE < 2 ^ 32 := by decide
  -- what follows the write
  have htail : ∀ r : ℤ, (do
      (addOff f r).quiet
      (iunlock p i).quiet
      pure r : Prog (Logged.Traced Pid) ℤ) = (do
      addOff f r
      iunlock p i
      pure r : Prog (State Pid) ℤ).quiet := fun r => by
    simp only [quiet_bind]
    rfl
  refine Ends.bind (Ends.quiet (Ends.of_run h.run_ilock ?_))
  refine Ends.bind (Ends.quiet (ends_reads ?_))
  refine Ends.bind (hlocked.ends_writei ht (fun h => absurd rfl h) hlen (fun hno => ?_) (fun h1 h2 hs => hF ⟨h1, h2⟩ hs)
    fun h1 h2 s' M owner' w hs' ha hM hspare => ?_)
  · rw [htail]
    have hno : L.c.size < (s.file f).off ∨ MAXFILE * BSIZE < (s.file f).off + src.length := hno
    refine Ends.quiet (hlocked.ends_advance (by simpa [State.locked] using h.ref) (by simp [State.locked])
      (by simp [State.locked]) (fun hpos => absurd hpos (by decide)) fun s' hs' hsb' hfile' => ?_)
    exact hbad (by omega) s' hs' hsb' (hfile'.trans (Function.update_eq_self ..))
  · have hi := ha.inode_eq
    have hoff : s'.file = s.file := ha.file
    rw [htail]
    refine Ends.quiet (hs'.ends_advance (by rw [hi]; exact h.ref) (by rw [hi]) (by rw [hi]) ?_
      fun s'' hs'' hsb'' hfile'' => ?_)
    · intro _
      have hfit : (s.file f).off + src.length ≤ MAXFILE * BSIZE := h2
      rw [hoff, Int.toNat_natCast]
      omega
    · rw [hoff] at hfile''
      exact hQ ⟨h1, h2⟩ s'' M owner' w hs'' (hsb''.trans ha.sb) hfile'' hM hspare

/-- A transaction of `filewrite` on an inode that nobody has locked. -/
theorem Rests.ends_writeChunk :
    (Logged.writeChunk p f i src).Ends F (s, l) Q := by
  have hbegin : Rests 0 node (s.setAux p { s.aux p with ops := (s.aux p).ops + 1 }) i X L owner := h.congr rfl rfl rfl
  refine Ends.bind (Ends.quiet (ends_modifies ?_))
  refine Ends.bind (hbegin.ends_writeSection ht hlen (fun hno s' hs' hsb hfile => ?_) hF
    fun hfits s' M owner' w hs' hsb hfile hM hspare => ?_)
  · exact Ends.bind (Ends.quiet (ends_modifies (ends_pure (hbad hno _ (hs'.congr rfl rfl rfl) hsb hfile))))
  · refine Ends.bind (Ends.quiet (ends_modifies (ends_pure ?_)))
    exact hQ hfits _ M owner' w (hs'.congr rfl rfl rfl) hsb hfile hM hspare

end

/-! ## The number of blocks in a transaction -/

section

variable {node : ℕ → Body} {s : State Pid} {i : ISlot} {X : ℕ} {L M : Live} {owner : ℕ → Option (Loc Pid)} {p : Pid}
  {f : FSlot} {src : List UInt8} {off n : ℕ} {w : List ℕ}

/-- The number of blocks that a write of `n` bytes at `off` logs: the blocks of these bytes; the bitmap, if one
of them has to be allocated; the indirect block, if the address of such a one stands there; and the block of
the inode, if the file grows. -/
def Live.cost (L : Live) (off n : ℕ) : ℕ :=
  (touched off n).card + (if ∃ bn ∈ touched off n, L.addr bn = 0 then 1 else 0) +
    (if ∃ bn ∈ touched off n, NDIRECT ≤ bn ∧ L.addr bn = 0 then 1 else 0) + if L.c.size < off + n then 1 else 0

section

omit [DecidableEq Pid]

/-- The blocks of bytes that are there. -/
theorem Live.addr_ne_of_touched (h : M.Ok 0) (hsize : off + n ≤ M.c.size) {bn : ℕ} (hbn : bn ∈ touched off n) :
    M.addr bn ≠ 0 := by
  obtain ⟨k, hk, rfl⟩ := Finset.mem_image.1 hbn
  rw [Finset.mem_range] at hk
  refine h.full _ ?_
  simp only [BSIZE]
  omega

theorem card_ite {P : Prop} [Decidable P] {b : ℕ} : (if P then {b} else ∅ : Finset ℕ).card = if P then 1 else 0 := by
  split_ifs <;> rfl

theorem mem_ite {P : Prop} [Decidable P] {b c : ℕ} : c ∈ (if P then {b} else ∅ : Finset ℕ) ↔ P ∧ c = b := by
  split_ifs with h <;> simp [h]

theorem Sits.card_logged (h : Sits 0 node s i X M owner) (hM : L.Written s.sb X off src M w) :
    w.toFinset.card = L.cost off src.length := by
  have hsize : off + src.length ≤ M.c.size := by
    rw [hM.size]
    exact le_max_right ..
  have haddr : ∀ bn ∈ touched off src.length, M.addr bn ≠ 0 := fun bn => Live.addr_ne_of_touched h.ok hsize
  have hptr : ∀ bn ∈ touched off src.length, NDIRECT ≤ bn → M.ptr NDIRECT ≠ 0 := fun bn hbn hge =>
    h.ok.ptr_ne hge (haddr bn hbn)
  have hstart := h.sb_ok.bmapstart_lt
  have hiblock := (h.sb_ok.iblock h.lt).2
  -- no block is used twice
  have hinj : ∀ {pos pos'}, M.ptr pos = M.ptr pos' → M.ptr pos ≠ 0 → pos = pos' := by
    intro pos pos' he hne
    have hinj := @Disk.ptr_inj _ _ _ _ _ _ X h.disk pos X pos'
    rw [Function.update_self] at hinj
    exact (hinj he hne).2
  have hset : w.toFinset = (((touched off src.length).image M.addr ∪
      if ∃ bn ∈ touched off src.length, L.addr bn = 0 then {s.sb.bmapstart} else ∅) ∪
      if ∃ bn ∈ touched off src.length, NDIRECT ≤ bn ∧ L.addr bn = 0 then {M.ptr NDIRECT} else ∅) ∪
      if L.c.size < off + src.length then {IBLOCK X s.sb} else ∅ := by
    ext b
    rw [List.mem_toFinset, hM.mem]
    simp only [Finset.mem_union, Finset.mem_image, mem_ite]
    constructor
    · rintro (⟨bn, hbn, rfl⟩ | ⟨bn, hbn, hz, rfl | ⟨hge, rfl⟩⟩ | ⟨hgrow, rfl⟩)
      · exact Or.inl (Or.inl (Or.inl ⟨bn, hbn, rfl⟩))
      · exact Or.inl (Or.inl (Or.inr ⟨⟨bn, hbn, hz⟩, rfl⟩))
      · exact Or.inl (Or.inr ⟨⟨bn, hbn, hge, hz⟩, rfl⟩)
      · exact Or.inr ⟨hgrow, rfl⟩
    · rintro (((⟨bn, hbn, rfl⟩ | ⟨⟨bn, hbn, hz⟩, rfl⟩) | ⟨⟨bn, hbn, hge, hz⟩, rfl⟩) | ⟨hgrow, rfl⟩)
      · exact Or.inl ⟨bn, hbn, rfl⟩
      · exact Or.inr (Or.inl ⟨bn, hbn, hz, Or.inl rfl⟩)
      · exact Or.inr (Or.inl ⟨bn, hbn, hz, Or.inr ⟨hge, rfl⟩⟩)
      · exact Or.inr (Or.inr ⟨hgrow, rfl⟩)
  rw [hset, Finset.card_union_of_disjoint, Finset.card_union_of_disjoint, Finset.card_union_of_disjoint,
    Finset.card_image_of_injOn, card_ite, card_ite, card_ite, Live.cost]
  · exact fun bn hbn bn' _ he => Live.placeOf_inj.1 (hinj he (haddr bn hbn))
  all_goals
    rw [Finset.disjoint_left]
    simp only [Finset.mem_union, Finset.mem_image, mem_ite]
  · rintro b ⟨bn, hbn, rfl⟩ ⟨-, he⟩
    have := (h.ptr_range (haddr bn hbn)).1
    simp only [Live.addr] at he
    omega
  · rintro b (⟨bn, hbn, rfl⟩ | ⟨-, rfl⟩) ⟨⟨bn', hbn', hge, -⟩, he⟩
    · exact Live.placeOf_ne (hinj he (haddr bn hbn))
    · have := (h.ptr_range (hptr bn' hbn' hge)).1
      omega
  · rintro b ((⟨bn, hbn, rfl⟩ | ⟨-, rfl⟩) | ⟨⟨bn', hbn', hge, -⟩, rfl⟩) ⟨-, he⟩
    · have := (h.ptr_range (haddr bn hbn)).1
      simp only [Live.addr] at he
      omega
    · omega
    · have := (h.ptr_range (hptr bn' hbn' hge)).1
      omega

end

/-- The blocks of bytes that stand one after the other. -/
theorem touched_eq_Icc (hn : 0 < n) : touched off n = Finset.Icc (off / BSIZE) ((off + n - 1) / BSIZE) := by
  ext bn
  simp only [touched, Finset.mem_image, Finset.mem_range, Finset.mem_Icc]
  constructor
  · rintro ⟨k, hk, rfl⟩
    simp only [BSIZE]
    omega
  · rintro ⟨h1, h2⟩
    refine ⟨max off (bn * BSIZE) - off, ?_, ?_⟩ <;> simp only [BSIZE] at * <;> omega

/-- A transaction that writes logs as many blocks as it costs. -/
theorem Rests.run_writeChunk (h : Rests 0 node s i X L owner) (src : List UInt8) (ht : L.c.type ≠ T_DEV) (hlen : src.length < 2 ^ 32)
    (hfits : L.Fits (s.file f).off src.length)
    (hroom : L.need (touched (s.file f).off src.length) ≤ spare s.sb owner) :
    ∃ t, (Logged.writeChunk p f i src).run (s, []) = .ok src.length t ∧
      t.2.toFinset.card = L.cost (s.file f).off src.length := by
  have hends : (Logged.writeChunk p f i src).Ends (fun _ => False) (s, []) fun r t =>
      r = src.length ∧ t.2.toFinset.card = L.cost (s.file f).off src.length := by
    refine h.ends_writeChunk ht hlen (fun hno => absurd hfits hno) (fun _ hs => absurd hroom (not_le.2 hs))
      fun _ s' M owner' w hs' hsb _ hM _ => ⟨rfl, ?_⟩
    rw [← hsb] at hM
    exact hs'.sits.card_logged hM
  obtain ⟨r, t, hrun, rfl, hcard⟩ := hends.run_eq
  exact ⟨t, hrun, hcard⟩

/-- A transaction of `filewrite` on a regular file logs at most as many blocks as `begin_op` reserves for it
exactly if there are no more than that many to write, to allocate and to update. -/
theorem transaction_within_iff (h : Rests 0 node s i X L owner) (ht : L.c.type = T_FILE)
    (hsrc : src.length ≤ writeMax) :
    (∀ r t, (Logged.writeChunk p f i src).run (s, []) = .ok r t → t.2.toFinset.card ≤ MAXOPBLOCKS) ↔
      (L.Fits (s.file f).off src.length → L.need (touched (s.file f).off src.length) ≤ spare s.sb owner →
        L.cost (s.file f).off src.length ≤ MAXOPBLOCKS) := by
  have hdev : L.c.type ≠ T_DEV := by
    rw [ht]
    decide
  have hlen : src.length < 2 ^ 32 := hsrc.trans_lt (by decide)
  constructor
  · intro hall hfits hroom
    obtain ⟨t, hrun, hcard⟩ := h.run_writeChunk (p := p) src hdev hlen hfits hroom
    rw [← hcard]
    exact hall _ t hrun
  · intro hcond
    have hends : (Logged.writeChunk p f i src).Ends (fun _ => True) (s, []) fun _ t =>
        t.2.toFinset.card ≤ MAXOPBLOCKS := by
      refine h.ends_writeChunk hdev hlen (fun _ s' _ _ _ => ?_) (fun _ _ => trivial)
        fun hfits s' M owner' w hs' hsb _ hM hspare => ?_
      · simp
      · rw [← hsb] at hM
        rw [List.nil_append, hs'.sits.card_logged hM]
        exact hcond hfits (by omega)
    intro r t hrun
    rw [Ends, hrun] at hends
    exact hends

omit [DecidableEq Pid] in
theorem small_rests {t : Short} (ht : t ≠ 0) : Rests 0 (fun _ => .free) (small Pid t) 0 1 (smallLive t) fun _ => none where
  sits := (small_sits ht).congr rfl rfl rfl rfl rfl
  ref := le_rfl
  busy := rfl
  cached _ := rfl
  synced _ := rfl

theorem transaction_within_iff_small : ∃ t,
    (Logged.writeChunk () 0 0 [97, 98, 99]).run (small Unit T_FILE, []) = .ok 3 t ∧ t.2.toFinset.card ≤ MAXOPBLOCKS := by
  have hrests : Rests 0 (fun _ => .free) (small Unit T_FILE) 0 1 (smallLive T_FILE) fun _ => none :=
    small_rests (by decide)
  obtain ⟨t, hrun, -⟩ := hrests.run_writeChunk (p := ()) (f := 0) [97, 98, 99] (by decide) (by decide)
    ⟨by decide, by decide, by decide⟩ (by decide)
  refine ⟨t, hrun, (transaction_within_iff hrests rfl (by decide)).2 (fun _ _ => ?_) _ t hrun⟩
  show (smallLive T_FILE).cost 0 3 ≤ 10
  decide

/-- The first transaction of a large write to a new file logs sixteen blocks: thirteen for the bytes, the
indirect block, the bitmap and that of the inode. -/
theorem large_write_exceeds : ∃ t, (Logged.writeChunk () 0 0 (Bytes.read (fun _ => 0) 0 (min (6656 - 0) writeMax))).run
    (small Unit T_FILE, []) = .ok 6656 t ∧ t.2.toFinset.card = 16 := by
  have hlen : (Bytes.read (fun _ => 0) 0 (min (6656 - 0) writeMax)).length = 6656 := by
    rw [Bytes.length_read]
    rfl
  have htouched : touched 0 6656 = Finset.Icc 0 12 := touched_eq_Icc (by decide)
  have hrun := (small_rests (t := T_FILE) (by decide)).run_writeChunk (p := ()) (f := 0)
    (Bytes.read (fun _ => 0) 0 (min (6656 - 0) writeMax)) (by decide) (by rw [hlen]; decide)
  rw [hlen] at hrun
  have hoff : ((small Unit T_FILE).file 0).off = 0 := rfl
  rw [hoff, htouched] at hrun
  have hcost : (smallLive T_FILE).cost 0 6656 = 16 := by
    rw [Live.cost, htouched]
    decide
  rw [hcost] at hrun
  exact hrun ⟨by decide, by decide, by decide⟩ (by decide)

end

end Xv6.Fs
