import Xv6.Fs.Alloc

/-!
# Writing without interference

What `bmap` and `writei` do to an inode that is not a device when no other process is active: the bytes of the
file, the blocks that are allocated for it and the blocks that are logged.
-/

namespace Xv6.Fs

open Conc Lib Prog
open Function (update update_self update_idem update_eq_self)

variable {Pid : Type}

/-! ## An inode in the cache -/

/-- Entry `i` of the cache has inode `X`, which is `L`; the others are as in `node`. Nobody holds a block. -/
structure Sits (n : ℕ) (node : ℕ → Body) (s : State Pid) (i : ISlot) (X : ℕ) (L : Live)
    (owner : ℕ → Option (Loc Pid)) : Prop where
  sb_ok : s.sb.Ok
  disk : Disk n s.sb (s.block ROOTDEV) (Function.update node X (.live L)) owner
  free : ∀ b, s.store.holder ROOTDEV b = none
  dev : (s.inode i).dev = ROOTDEV
  inum : (s.inode i).inum = X
  lt : X < s.sb.ninodes
  d : (s.inode i).d = L.c

/-- `s'` is `s` but for the contents of blocks and the copy of the inode in entry `i`. -/
structure Alters (i : ISlot) (s s' : State Pid) : Prop where
  sb : s'.sb = s.sb
  file : s'.file = s.file
  proc : s'.proc = s.proc
  aux : s'.aux = s.aux
  alive : s'.alive = s.alive
  holder : s'.store.holder = s.store.holder
  inode : s'.inode = Function.update s.inode i { s.inode i with d := (s'.inode i).d }

@[simp] theorem inode_setInode {s : State Pid} {i : ISlot} {e : Inode} : (s.setInode i e).inode i = e :=
  update_self ..

namespace Alters

variable {i : ISlot} {s s' s'' : State Pid}

theorem refl : Alters i s s := ⟨rfl, rfl, rfl, rfl, rfl, rfl, (update_eq_self ..).symm⟩

theorem trans (h : Alters i s s') (h' : Alters i s' s'') : Alters i s s'' where
  sb := h'.sb.trans h.sb
  file := h'.file.trans h.file
  proc := h'.proc.trans h.proc
  aux := h'.aux.trans h.aux
  alive := h'.alive.trans h.alive
  holder := h'.holder.trans h.holder
  inode := by
    conv_lhs => rw [h'.inode, h.inode]
    rw [update_idem, update_self]

theorem putBlock {dev b : ℕ} {m : Bytes} : Alters i s (s.putBlock dev b m) :=
  ⟨rfl, rfl, rfl, rfl, rfl, rfl, (update_eq_self ..).symm⟩

theorem setInode {d : Dinode} : Alters i s (s.setInode i { s.inode i with d }) := by
  refine ⟨rfl, rfl, rfl, rfl, rfl, rfl, ?_⟩
  simp only [State.setInode, update_self]

theorem taken {b : ℕ} : Alters i s (s.taken b) := putBlock.trans putBlock

end Alters

theorem ends_bread {s : State Pid} {p : Pid} {dev b : ℕ} {F : Fault → Prop} {Q : Unit → State Pid → Prop}
    (hb : b < FSSIZE) (hfree : s.store.holder dev b = none)
    (hQ : Q () { s with store := s.store.setHolder dev b (some p) }) : (bread p dev b).Ends F s Q := by
  refine ends_atomic ?_
  rw [onBlock_free hb hfree]
  exact hQ

namespace Sits

variable {n : ℕ} {node : ℕ → Body} {s s' : State Pid} {i : ISlot} {X : ℕ} {L M : Live}
  {owner owner' : ℕ → Option (Loc Pid)}

theorem body (h : Sits n node s i X L owner) : BodyOk n s.sb (s.block ROOTDEV) X (.live L) := by
  have := h.disk.body X h.lt
  rwa [update_self] at this

theorem ok (h : Sits n node s i X L owner) : L.Ok n := h.body.2.2.2

theorem ptr_range (h : Sits n node s i X L owner) {pos : ℕ} (hpos : L.ptr pos ≠ 0) :
    s.sb.dataStart ≤ L.ptr pos ∧ L.ptr pos < s.sb.size := by
  have := @Disk.ptr_range _ _ _ _ _ _ X h.disk pos
  rw [update_self] at this
  exact this hpos

theorem ptr_lt (h : Sits n node s i X L owner) (pos : ℕ) : L.ptr pos < FSSIZE := by
  by_cases hpos : L.ptr pos = 0
  · rw [hpos]
    decide
  · exact (h.ptr_range hpos).2.trans_le h.sb_ok.size_le

theorem readable (h : Sits n node s i X L owner) : Readable s i L L.c.size where
  free b := by
    rw [h.dev]
    exact h.free b
  addrs := by rw [h.d]
  on := by
    rw [h.dev]
    exact h.body.2.2.1
  range := h.ptr_lt
  full := h.ok.full
  ind _ := h.ok.ptr_ne
  len_le := h.ok.size_le

theorem congr (h : Sits n node s i X L owner) (hstore : s'.store = s.store) (hsb : s'.sb = s.sb)
    (hdev : (s'.inode i).dev = (s.inode i).dev) (hinum : (s'.inode i).inum = (s.inode i).inum)
    (hd : (s'.inode i).d = (s.inode i).d) : Sits n node s' i X L owner where
  sb_ok := hsb ▸ h.sb_ok
  disk := by
    have hblk : s'.block = s.block := by
      unfold State.block
      rw [hstore]
    rw [hsb, hblk]
    exact h.disk
  free b := by
    rw [hstore]
    exact h.free b
  dev := hdev.trans h.dev
  inum := hinum.trans h.inum
  lt := by
    rw [hsb]
    exact h.lt
  d := hd.trans h.d

/-- The inode is changed, and its blocks. -/
theorem alter (h : Sits n node s i X L owner) (ha : Alters i s s')
    (hdisk : Disk n s.sb (s'.block ROOTDEV) (update (update node X (.live L)) X (.live M)) owner')
    (hd : (s'.inode i).d = M.c) : Sits n node s' i X M owner' where
  sb_ok := ha.sb ▸ h.sb_ok
  disk := by
    rw [update_idem] at hdisk
    rwa [ha.sb]
  free b := by
    rw [ha.holder]
    exact h.free b
  dev := by
    rw [ha.inode, update_self]
    exact h.dev
  inum := by
    rw [ha.inode, update_self]
    exact h.inum
  lt := by
    rw [ha.sb]
    exact h.lt
  d := hd

/-- The state after entry `i` has got the address `b`, which `balloc` has returned. -/
theorem setAddr (h : Sits n node s i X L owner) {j : Fin (NDIRECT + 1)} {b : ℕ} (p : Pid) (hj : L.c.addrs j = 0)
    (hlo : s.sb.dataStart ≤ b) (hhi : b < s.sb.size) (hb : owner b = none) :
    b ≠ 0 ∧ Sits n node ((s.taken b).setInode i { s.inode i with
      d := { (s.inode i).d with addrs := update (s.inode i).d.addrs j b } }) i X (L.setAddr j b fun _ => 0)
      (update (update owner b (some (.pend p))) b (some (.node X j))) := by
  have hdisk := h.disk.taken h.sb_ok (p := p) hlo hhi hb
  have hset := hdisk.setAddr (p := p) h.sb_ok h.lt (update_self ..) (update_self ..) hj block_taken
  rw [block_taken] at hset
  refine ⟨hset.1, h.alter (Alters.taken.trans Alters.setInode) hset.2.2 ?_⟩
  simp only [State.setInode, update_self, h.d]
  rfl

/-- The state after the address `b`, which `balloc` has returned, has been stored in the indirect block. -/
theorem setInd (h : Sits n node s i X L owner) {k b : ℕ} (p : Pid) (hn : L.ptr NDIRECT ≠ 0) (hk : k < NINDIRECT)
    (hz : L.ind k = 0) (hlo : s.sb.dataStart ≤ b) (hhi : b < s.sb.size) (hb : owner b = none) (ha : Alters i s s')
    (hd : (s'.inode i).d = (s.inode i).d)
    (hblk : s'.block ROOTDEV = update ((s.taken b).block ROOTDEV) (L.ptr NDIRECT)
      (((s.taken b).block ROOTDEV (L.ptr NDIRECT)).setWord 4 (4 * k) b)) :
    b ≠ 0 ∧ Sits n node s' i X (L.setInd k b fun _ => 0)
      (update (update owner b (some (.pend p))) b (some (.node X (NDIRECT + 1 + k)))) := by
  have hdisk := h.disk.taken h.sb_ok (p := p) hlo hhi hb
  have hset := hdisk.setInd (p := p) h.sb_ok h.lt (update_self ..) (update_self ..) hn hk hz
  rw [block_taken, ← hblk] at hset
  exact ⟨hset.1, h.alter ha hset.2.2.2 (hd.trans h.d)⟩

variable {F : Fault → Prop} {l : List ℕ} {Q : ℕ → Logged.Traced Pid → Prop} {p : Pid}

theorem ends_bmapAddr (h : Sits n node s i X L owner) {j : Fin (NDIRECT + 1)} (p : Pid)
    (hF : L.c.addrs j = 0 → spare s.sb owner = 0 → F outOfBlocks)
    (hfound : L.c.addrs j ≠ 0 → Q (L.c.addrs j) (s, l))
    (hQ : L.c.addrs j = 0 → ∀ b s' owner', b ≠ 0 → Sits n node s' i X (L.setAddr j b fun _ => 0) owner' →
      Alters i s s' → spare s.sb owner' + 1 = spare s.sb owner → Q b (s', l ++ [s.sb.bmapstart, b])) :
    (Logged.bmapAddr i j).Ends F (s, l) Q := by
  refine Ends.bind (Ends.quiet (ends_reads ?_))
  rw [h.d, h.dev]
  split_ifs with hj
  · refine Ends.bind (ends_balloc h.sb_ok h.disk (fun b _ => h.free b) (hF hj) fun b hlo hhi hb => ?_)
    obtain ⟨hne, hsits⟩ := h.setAddr p hj hlo hhi hb
    refine Ends.bind (Ends.quiet (ends_modifies (ends_pure ?_)))
    refine hQ hj b _ _ hne hsits (Alters.taken.trans Alters.setInode) ?_
    rw [update_idem]
    exact spare_update hlo hhi hb
  · exact ends_pure (hfound hj)

/-- The part of `bmap` that uses the indirect block. -/
theorem ends_bmapInd (h : Sits n node s i X L owner) {bn : ℕ} (hge : ¬bn < NDIRECT) (hk : bn - NDIRECT < NINDIRECT)
    (hn : L.ptr NDIRECT ≠ 0) (hF : L.addr bn = 0 → spare s.sb owner = 0 → F outOfBlocks)
    (hQ : ∀ s' M owner' w, Sits n node s' i X M owner' → Alters i s s' → L.Mapped s.sb bn M w →
      spare s.sb owner' + (if L.addr bn = 0 then 1 else 0) = spare s.sb owner → Q (M.addr bn) (s', l ++ w)) :
    (do
      let dev ← (Prog.reads fun s : State Pid => (s.inode i).dev).quiet
      (bread p dev (L.ptr NDIRECT)).quiet
      let a ← (Prog.reads fun s : State Pid => (s.block dev (L.ptr NDIRECT)).word 4 (4 * (bn - NDIRECT))).quiet
      if a = 0 then do
        let a ← Logged.balloc dev
        (Prog.modifies fun s : State Pid => s.putBlock dev (L.ptr NDIRECT)
          ((s.block dev (L.ptr NDIRECT)).setWord 4 (4 * (bn - NDIRECT)) a)).logs fun _ _ => [L.ptr NDIRECT]
        (brelse dev (L.ptr NDIRECT)).quiet
        pure a
      else do
        (brelse dev (L.ptr NDIRECT)).quiet
        pure a : Prog (Logged.Traced Pid) ℕ).Ends F (s, l) Q := by
  have hfree := h.free (L.ptr NDIRECT)
  have hword : (s.block ROOTDEV (L.ptr NDIRECT)).word 4 (4 * (bn - NDIRECT)) = L.addr bn := by
    rw [h.body.2.2.1.ind hn _ hk, Live.addr_indirect hge]
  refine Ends.bind (Ends.quiet (ends_reads ?_))
  rw [h.dev]
  refine Ends.bind (Ends.quiet (ends_bread (h.ptr_lt _) hfree (Ends.bind (Ends.quiet (ends_reads ?_)))))
  have hsame : ({ s with store := s.store.setHolder ROOTDEV (L.ptr NDIRECT) (some p) } : State Pid).block
      ROOTDEV (L.ptr NDIRECT) = s.block ROOTDEV (L.ptr NDIRECT) := rfl
  rw [hsame, hword]
  by_cases hz : L.addr bn = 0
  · rw [if_pos hz]
    -- the indirect block is held, and is not the one that is allocated
    have hown : owner (L.ptr NDIRECT) ≠ none := by
      have hrefers := h.disk.refers X NDIRECT
      rw [update_self] at hrefers
      exact (hrefers hn).symm ▸ Option.some_ne_none _
    refine Ends.bind (ends_balloc (s := { s with store := s.store.setHolder ROOTDEV (L.ptr NDIRECT) (some p) })
      h.sb_ok h.disk (fun b hb => ?_) (hF hz) fun b hlo hhi hb => ?_)
    · rw [Bio.Store.setHolder_holder_of_ne]
      · exact h.free b
      · rintro - rfl
        exact hown hb
    · have hdone : ∀ s', Alters i s s' → (s'.inode i).d = (s.inode i).d →
          s'.block ROOTDEV = update ((s.taken b).block ROOTDEV) (L.ptr NDIRECT)
            (((s.taken b).block ROOTDEV (L.ptr NDIRECT)).setWord 4 (4 * (bn - NDIRECT)) b) →
          Q b (s', l ++ [s.sb.bmapstart, b] ++ [L.ptr NDIRECT]) := by
        intro s' ha hd hblk
        obtain ⟨hne, hsits⟩ := h.setInd p hn hk (Live.addr_indirect hge ▸ hz) hlo hhi hb ha hd hblk
        have hdone := hQ s' _ _ _ hsits ha (.indirect hge hz hne) ?_
        · rw [Live.addr, Live.ptr_setInd, placeOf, if_neg hge, if_pos (by omega)] at hdone
          rwa [List.append_assoc]
        · rw [update_idem, if_pos hz]
          exact spare_update hlo hhi hb
      refine Ends.bind (Ends.logs (ends_modifies (Ends.bind (Ends.quiet (ends_modifies (ends_pure ?_))))))
      refine hdone _ ⟨rfl, rfl, rfl, rfl, rfl, ?_, (update_eq_self ..).symm⟩ rfl
        (@block_putBlock _ (s.taken b) (L.ptr NDIRECT) ROOTDEV _)
      have hholder : ((s.store.setHolder ROOTDEV (L.ptr NDIRECT) (some p)).setHolder ROOTDEV (L.ptr NDIRECT) none).holder =
          s.store.holder := by rw [setHolder_setHolder hfree]
      exact hholder
  · rw [if_neg hz]
    refine Ends.bind (Ends.quiet (ends_modifies (ends_pure ?_)))
    have hdone := hQ s L owner [] h .refl (.found hz) (by rw [if_neg hz, Nat.add_zero])
    rw [List.append_nil] at hdone
    dsimp only
    rwa [setHolder_setHolder hfree]

/-- `bmap` allocates the blocks that are missing, and logs them, the bitmap and the indirect block if there
are any. -/
theorem ends_bmap (h : Sits n node s i X L owner) {bn : ℕ} (hbn : bn < MAXFILE)
    (hF : spare s.sb owner < L.need {bn} → F outOfBlocks)
    (hQ : ∀ s' M owner' w, Sits n node s' i X M owner' → Alters i s s' → L.Mapped s.sb bn M w →
      spare s.sb owner' + L.need {bn} = spare s.sb owner → Q (M.addr bn) (s', l ++ w)) :
    (Logged.bmap p i bn).Ends F (s, l) Q := by
  rw [Logged.bmap]
  rw [Live.need_singleton] at hF hQ
  by_cases hlt : bn < NDIRECT
  · rw [if_pos hlt]
    have haddr := Live.addr_direct (L := L) hlt
    simp only [not_le.2 hlt, false_and, if_false, Nat.add_zero, haddr] at hF hQ
    refine h.ends_bmapAddr p (fun hj hs => hF (by rw [hs, if_pos hj]; exact Nat.one_pos)) (fun hj => ?_)
      fun hj b s' owner' hb hs' ha hspare => ?_
    · have hdone := hQ s L owner [] h .refl (.found (haddr ▸ hj)) (by rw [if_neg hj, Nat.add_zero])
      rwa [haddr, List.append_nil] at hdone
    · have hdone := hQ s' _ owner' _ hs' ha (.direct hlt (haddr ▸ hj) hb) (by rwa [if_pos hj])
      have hb' : (L.setAddr (Fin.ofNat _ bn) b fun _ => 0).addr bn = b := by
        rw [Live.addr_direct hlt]
        exact update_self ..
      rwa [hb'] at hdone
  · have hk : bn - NDIRECT < NINDIRECT := by
      simp only [MAXFILE] at hbn
      omega
    rw [if_neg hlt, if_pos hk]
    simp only [not_lt.1 hlt, true_and] at hF hQ
    refine Ends.bind (h.ends_bmapAddr p (fun hj hs => hF ?_) (fun hj => ?_) fun hj b s' owner' hb hs' ha hspare => ?_)
    · rw [hs, Live.ptr_last, if_pos hj]
      omega
    · rw [← Live.ptr_last] at hj ⊢
      simp only [hj, if_false, Nat.add_zero] at hF hQ
      exact h.ends_bmapInd hlt hk hj (fun hz hs => hF (by rw [hs, if_pos hz]; exact Nat.one_pos)) hQ
    · rw [← Live.ptr_last] at hj
      have hz : L.addr bn = 0 := by
        rw [Live.addr_indirect hlt]
        exact h.ok.ind_zero hj _
      have hptr : (L.setAddr (Fin.last NDIRECT) b fun _ => 0).ptr NDIRECT = b := by
        rw [Live.ptr_setAddr, Fin.val_last, if_pos rfl]
      have hz' : (L.setAddr (Fin.last NDIRECT) b fun _ => 0).addr bn = 0 := by
        rw [Live.addr, Live.ptr_setAddr, Fin.val_last, if_neg Live.placeOf_ne]
        exact hz
      simp only [hj, hz, if_true] at hF hQ
      have hrest := hs'.ends_bmapInd (p := p) (F := F) (Q := Q) (l := l ++ [s.sb.bmapstart, b]) hlt hk
        (by rwa [hptr]) (fun _ hs => hF (by rw [ha.sb] at hs; omega)) ?_
      · rwa [hptr] at hrest
      · intro s'' M owner'' w hs'' ha' hM hspare'
        rw [ha.sb] at hM hspare'
        rw [if_pos hz'] at hspare'
        rw [List.append_assoc]
        exact hQ s'' M owner'' _ hs'' (ha.trans ha') (hM.afterLast hlt h.ok hj hb) (by omega)

end Sits

/-! ## Writing -/

/-- The numbers of the blocks with the `n` bytes from `off` on. -/
def touched (off n : ℕ) : Finset ℕ := (Finset.range n).image fun k => (off + k) / BSIZE

theorem touched_add {off m r : ℕ} : touched off (m + r) = touched off m ∪ touched (off + m) r := by
  ext bn
  simp only [touched, Finset.mem_union, Finset.mem_image, Finset.mem_range]
  constructor
  · rintro ⟨k, hk, rfl⟩
    by_cases hkm : k < m
    · exact Or.inl ⟨k, hkm, rfl⟩
    · exact Or.inr ⟨k - m, by omega, by congr 1; omega⟩
  · rintro (⟨k, hk, rfl⟩ | ⟨k, hk, rfl⟩)
    · exact ⟨k, by omega, rfl⟩
    · exact ⟨m + k, by omega, by congr 1; omega⟩

theorem touched_block {off m : ℕ} (hpos : 0 < m) (hfit : off % BSIZE + m ≤ BSIZE) :
    touched off m = {off / BSIZE} := by
  ext bn
  simp only [touched, Finset.mem_image, Finset.mem_range, Finset.mem_singleton]
  constructor
  · rintro ⟨k, hk, rfl⟩
    simp only [BSIZE] at *
    omega
  · rintro rfl
    exact ⟨0, hpos, rfl⟩

/-- What `writei` does to an inode when the bytes fit. `need` says that a later write finds the blocks that
this one has allocated. `mem` is the blocks it logs: those it writes to; the bitmap and the indirect block if it
allocates blocks; and that of the inode if the file grows. -/
structure Live.Written (sb : Superblock) (X : ℕ) (L : Live) (off : ℕ) (src : List UInt8) (M : Live)
    (w : List ℕ) : Prop where
  node : M.node = { L.node with data := overwrite L.node.data off src }
  size : M.c.size = max L.c.size (off + src.length)
  synced : L.Synced → M.Synced
  need : ∀ U, L.need (touched off src.length ∪ U) = L.need (touched off src.length) + M.need U
  mem : ∀ b, b ∈ w ↔ (∃ bn ∈ touched off src.length, b = M.addr bn) ∨
    (∃ bn ∈ touched off src.length, L.addr bn = 0 ∧ (b = sb.bmapstart ∨ NDIRECT ≤ bn ∧ b = M.ptr NDIRECT)) ∨
    L.c.size < off + src.length ∧ b = IBLOCK X sb

theorem Logged.writeLoop_nil {p : Pid} {i : ISlot} {fuel off : ℕ} : Logged.writeLoop p i fuel off [] = pure off := by
  cases fuel with
  | zero => rfl
  | succ fuel => rw [Logged.writeLoop, if_pos rfl]

namespace Sits

variable {n : ℕ} {node : ℕ → Body} {s : State Pid} {i : ISlot} {X : ℕ} {L L₀ : Live}
  {owner : ℕ → Option (Loc Pid)} {F : Fault → Prop} {l : List ℕ} {p : Pid}

theorem ends_writeBlock {bn o : ℕ} {bs : List UInt8} {Q : Unit → Logged.Traced Pid → Prop}
    (h : Sits n node s i X L owner) (hb : L.addr bn ≠ 0) (hok : (L.setBlk bn ((L.blk bn).write o bs)).Ok n)
    (hQ : ∀ s', Sits n node s' i X (L.setBlk bn ((L.blk bn).write o bs)) owner → Alters i s s' →
      Q () (s', l ++ [L.addr bn])) :
    ((Prog.atomic fun s : State Pid => onBlock ROOTDEV (L.addr bn)
      (fun d => .ok () (s.putBlock ROOTDEV (L.addr bn) (d.write o bs))) s).logs fun _ _ => [L.addr bn]).Ends
        F (s, l) Q := by
  refine Ends.logs (ends_atomic ?_)
  rw [onBlock_free (b := L.addr bn) (h.ptr_lt _) (h.free _), h.body.2.2.1.blk bn hb]
  refine hQ _ (h.alter .putBlock ?_ h.d) .putBlock
  rw [block_putBlock]
  exact (h.disk.setBlk h.sb_ok h.lt (update_self ..) hb hok).2

/-- The loop of `writei`, when `k` of the bytes of `src` have been written. -/
theorem ends_writeLoop {fuel off k : ℕ} {src : List UInt8} {Q : ℕ → Logged.Traced Pid → Prop}
    (h : Sits n node s i X L owner) (hL : L₀.Wrote off (src.take k) L) (hok : L₀.Ok n) (hoff : off ≤ L₀.c.size)
    (hentry : L₀.Entry off src n) (hmax : off + src.length ≤ MAXFILE * BSIZE) (hk : k ≤ src.length)
    (hfuel : src.length - k ≤ fuel)
    (hF : spare s.sb owner < L.need (touched (off + k) (src.length - k)) → F outOfBlocks)
    (hQ : ∀ s' M owner' w, Sits n node s' i X M owner' → Alters i s s' → L₀.Wrote off src M →
      L.Filled s.sb (touched (off + k) (src.length - k)) M w →
      spare s.sb owner' + L.need (touched (off + k) (src.length - k)) = spare s.sb owner →
      Q (off + src.length) (s', l ++ w)) :
    (Logged.writeLoop p i fuel (off + k) (src.drop k)).Ends F (s, l) Q := by
  induction hr : src.length - k using Nat.strong_induction_on generalizing s l owner L k fuel with
  | _ r ih =>
  subst hr
  rcases hk.eq_or_lt with rfl | hlt
  · -- all is written
    have hnone : touched (off + src.length) (src.length - src.length) = ∅ := by
      rw [Nat.sub_self]
      rfl
    rw [hnone] at hQ
    rw [List.take_length] at hL
    rw [List.drop_length, Logged.writeLoop_nil]
    have hdone := hQ s L owner [] h .refl hL .nil (by simp [Live.need])
    rw [List.append_nil] at hdone
    exact ends_pure hdone
  · obtain ⟨fuel, rfl⟩ : ∃ fuel', fuel = fuel' + 1 := ⟨fuel - 1, by omega⟩
    rw [Logged.writeLoop, if_neg (by rw [List.drop_eq_nil_iff]; omega)]
    rw [List.length_drop]
    generalize hm : min (src.length - k) (BSIZE - (off + k) % BSIZE) = m
    have hm' : 0 < m ∧ k + m ≤ src.length ∧ (off + k) % BSIZE + m ≤ BSIZE := by
      simp only [BSIZE] at *
      omega
    obtain ⟨hpos, hkm, hfit⟩ := hm'
    have hlen : ((src.drop k).take m).length = m := by
      rw [List.length_take, List.length_drop]
      omega
    -- a directory is written in one go
    have hprefix : L₀.Entry off (src.take (k + m)) n := by
      intro hn ht
      obtain ⟨h1, h2, h3⟩ := hentry hn ht
      have hall : k + m = src.length := by
        simp only [DIRENT, BSIZE] at *
        omega
      rw [hall, List.take_length]
      exact ⟨h1, h2, h3⟩
    have hbn : (off + k) / BSIZE < MAXFILE := by
      simp only [MAXFILE, NDIRECT, NINDIRECT, BSIZE] at *
      omega
    -- the block of this iteration, and those of the rest
    have hsplit : touched (off + k) (src.length - k) =
        {(off + k) / BSIZE} ∪ touched (off + (k + m)) (src.length - (k + m)) := by
      have hr : src.length - k = m + (src.length - (k + m)) := by omega
      rw [hr, touched_add, touched_block hpos hfit, Nat.add_assoc]
    refine Ends.bind (Ends.quiet (ends_reads ?_))
    rw [h.dev]
    rw [hsplit] at hF hQ
    refine Ends.bind (h.ends_bmap hbn (fun hs => hF (hs.trans_le (Live.need_mono Finset.subset_union_left)))
      fun s' M owner' w hs' ha hM hspare => ?_)
    have hstep : L.Wrote (off + k) ((src.drop k).take m) _ := Live.Wrote.block hM.grown h.ok hM.same hM.addr
      (by rw [← List.length_pos_iff, hlen]; exact hpos) (by rw [hlen]; exact hfit)
    have hall := hL.next hstep hkm
    have hPok := hall.ok_same hok hoff (Or.inr hprefix) hs'.ok.ind_out hs'.ok.ind_zero
    refine Ends.bind (hs'.ends_writeBlock hM.addr hPok fun s'' hs'' ha' => ?_)
    have hfill := hM.filled (N := M.setBlk ((off + k) / BSIZE) ((M.blk ((off + k) / BSIZE)).write
      ((off + k) % BSIZE) ((src.drop k).take m))) (fun _ => rfl) rfl
    rw [hfill.need_union hPok] at hF hQ
    have hsb : s''.sb = s.sb := (ha.trans ha').sb
    rw [Nat.add_assoc, List.drop_drop]
    refine ih _ (by omega) hs'' hall hkm (by omega) (fun hs => hF ?_) (fun s₃ N owner₃ w' hs₃ ha₃ hN hfill' hspare' => ?_) rfl
    · rw [hsb] at hs
      omega
    · rw [hsb] at hfill' hspare'
      rw [List.append_assoc, List.append_assoc, ← List.append_assoc w]
      exact hQ s₃ N owner₃ _ hs₃ ((ha.trans ha').trans ha₃) hN (hfill.trans hfill' hPok) (by omega)

theorem setSize (h : Sits n node s i X L owner) {size : ℕ} (hok : (L.setC { L.c with size }).Ok n) :
    Sits n node (s.setInode i { s.inode i with d := { (s.inode i).d with size } }) i X (L.setC { L.c with size })
      owner := by
  refine h.alter Alters.setInode ?_ ?_
  · exact h.disk.setLive h.sb_ok h.lt (update_self ..) (fun _ => rfl) rfl (fun _ _ => rfl)
      ⟨h.body.2.2.1.ind, h.body.2.2.1.blk⟩ hok
  · simp only [State.setInode, update_self, h.d]
    rfl

theorem ends_iupdate {Q : Unit → Logged.Traced Pid → Prop} (h : Sits n node s i X L owner)
    (hQ : ∀ s', Sits n node s' i X { L with d := L.c } owner → Alters i s s' → Q () (s', l ++ [IBLOCK X s.sb])) :
    (Logged.iupdate i).Ends F (s, l) Q := by
  have hlt := h.sb_ok.iblock h.lt
  have hstart := h.sb_ok.bmapstart_lt
  have hdata := h.sb_ok.dataStart_le
  refine Ends.logs (ends_atomic ?_)
  simp only [h.dev, h.inum]
  rw [onBlock_free (by omega) (h.free _), h.d]
  refine hQ _ (h.alter .putBlock ?_ h.d) .putBlock
  rw [block_putBlock]
  exact h.disk.iupdate h.sb_ok h.lt (update_self ..)

/-- `writei` to an inode that is not a device. -/
theorem ends_writei {off : ℕ} {src : List UInt8} {Q : ℤ → Logged.Traced Pid → Prop} [DecidableEq Pid]
    (h : Sits n node s i X L owner) (ht : L.c.type ≠ T_DEV) (hentry : L.Entry off src n) (hlen : src.length < 2 ^ 32)
    (hbad : L.c.size < off ∨ MAXFILE * BSIZE < off + src.length → Q (-1) (s, l))
    (hF : off ≤ L.c.size → off + src.length ≤ MAXFILE * BSIZE →
      spare s.sb owner < L.need (touched off src.length) → F outOfBlocks)
    (hQ : off ≤ L.c.size → off + src.length ≤ MAXFILE * BSIZE → ∀ s' M owner' w, Sits n node s' i X M owner' →
      Alters i s s' → L.Written s.sb X off src M w →
      spare s.sb owner' + L.need (touched off src.length) = spare s.sb owner → Q src.length (s', l ++ w)) :
    (Logged.writei p i src off).Ends F (s, l) Q := by
  have hsize := h.ok.size_le
  refine Ends.bind (Ends.quiet (ends_reads ?_))
  rw [h.d, if_neg ht]
  by_cases hoff : L.c.size < off
  · rw [if_pos (Or.inl hoff)]
    exact ends_pure (hbad (Or.inl hoff))
  by_cases hmax : MAXFILE * BSIZE < off + src.length
  · have hfail := hbad (Or.inr hmax)
    split_ifs with h1 h2
    · exact ends_pure hfail
    · exact ends_pure hfail
    · simp only [uint, MAXFILE, NDIRECT, NINDIRECT, BSIZE] at *
      omega
  have hwrap : uint (off + src.length) = off + src.length := by
    simp only [uint, MAXFILE, NDIRECT, NINDIRECT, BSIZE] at *
    omega
  rw [not_lt] at hoff hmax
  have hF := hF hoff hmax
  have hQ := hQ hoff hmax
  rw [hwrap, if_neg (by omega), if_neg (by omega)]
  have hstart : L.Wrote off (src.take 0) L := .nil
  refine Ends.bind (h.ends_writeLoop hstart h.ok hoff hentry hmax (Nat.zero_le _) le_rfl hF
    fun s' M owner' w hs' ha hM hfill hspare => ?_)
  rw [Nat.add_zero, Nat.sub_zero] at hfill hspare
  have hMsize : M.c.size = L.c.size := by rw [hM.c]
  have hdata := hM.bytes_data h.ok hoff
  refine Ends.bind (Ends.quiet (ends_reads ?_))
  rw [hs'.d, hMsize]
  by_cases hgrow : 0 < src.length ∧ L.c.size < off + src.length
  · rw [if_pos hgrow]
    have hmax' : max L.c.size (off + src.length) = off + src.length := by omega
    have hok' := hM.ok h.ok hoff (Or.inr hentry) hs'.ok.ind_out hs'.ok.ind_zero (Or.inr rfl) (by omega)
    rw [hmax'] at hok' hdata
    refine Ends.bind (Ends.quiet (ends_modifies ?_))
    refine Ends.bind ((hs'.setSize hok').ends_iupdate fun s'' hs'' ha' => ends_pure ?_)
    have hsb : s'.sb = s.sb := ha.sb
    have ha'' : Alters i s s'' := (ha.trans Alters.setInode).trans ha'
    rw [List.append_assoc]
    refine hQ s'' _ owner' _ hs'' ha'' ⟨hM.node_eq hdata, hmax'.symm, fun _ => rfl,
      fun U => hfill.need_union hs'.ok, fun b => ?_⟩ hspare
    have hib : IBLOCK X (State.setInode s' i { s'.inode i with
        d := { (s'.inode i).d with size := off + src.length } }).sb = IBLOCK X s.sb := congrArg _ hsb
    rw [List.mem_append, hfill.mem, List.mem_singleton, hib, or_assoc]
    simp only [hgrow.2, true_and]
    rfl
  · rw [if_neg hgrow]
    have hin : off + src.length ≤ L.c.size := by omega
    rw [max_eq_left hin] at hdata
    refine ends_pure (hQ s' M owner' w hs' ha ⟨hM.node_eq (by rw [hMsize, hdata]; rfl), ?_, fun hs => ?_,
      fun U => hfill.need_union hs'.ok, fun b => ?_⟩ hspare)
    · rw [hMsize, max_eq_left hin]
    · rw [Live.Synced, hM.d, hM.same hin]
      exact hs
    · simp only [hfill.mem, not_lt.2 hin, false_and, or_false]

end Sits

end Xv6.Fs
