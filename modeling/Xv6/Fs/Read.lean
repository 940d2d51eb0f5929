import Xv6.Fs.Node

/-!
# Reading without interference

What `bmap`, `readi` and `dirlookup` return for an inode whose blocks are all there, when no other
process is active. They leave the state as it is: nothing has to be allocated.
-/

namespace Xv6.Fs

open Conc Lib

variable {Pid : Type} {s : State Pid} {p : Pid} {i : ISlot} {L : Live} {len : ℕ}

/-- The entry `i` of the cache stands for an inode with the first `len` bytes of `L`. -/
structure Readable (s : State Pid) (i : ISlot) (L : Live) (len : ℕ) : Prop where
  free : ∀ b, s.store.holder (s.inode i).dev b = none
  addrs : (s.inode i).d.addrs = L.c.addrs
  on : L.On (s.block (s.inode i).dev)
  range : ∀ pos, L.ptr pos < FSSIZE
  full : ∀ bn, bn * BSIZE < len → L.addr bn ≠ 0
  ind : ∀ bn, NDIRECT ≤ bn → L.addr bn ≠ 0 → L.ptr NDIRECT ≠ 0
  len_le : len ≤ MAXFILE * BSIZE

theorem onBlock_free {α : Type} {dev b : ℕ} {f : Bytes → Outcome (State Pid) α} (hb : b < FSSIZE)
    (hfree : s.store.holder dev b = none) : onBlock dev b f s = f (s.block dev b) := by
  rw [onBlock, if_neg (by omega), hfree]

/-- A block that was free is free again after it has been held. -/
theorem setHolder_setHolder {st : Bio.Store Pid} {dev b : ℕ} {q : Option Pid} (hfree : st.holder dev b = none) :
    (st.setHolder dev b q).setHolder dev b none = st := by
  cases st with
  | mk content holder =>
    have hrow : Function.update (holder dev) b none = holder dev := Function.update_eq_self_iff.2 hfree.symm
    simp [Bio.Store.setHolder, hrow]

theorem run_bmapAddr {j : Fin (NDIRECT + 1)} (hne : (s.inode i).d.addrs j ≠ 0) :
    (bmapAddr i j).run s = .ok ((s.inode i).d.addrs j) s := by
  rw [bmapAddr, Prog.bind_eq, Prog.run_reads_bind, if_neg hne]
  rfl

namespace Readable

theorem run_bmap (h : Readable s i L len) {bn : ℕ} (hbn : bn * BSIZE < len) :
    (bmap p i bn).run s = .ok (L.addr bn) s := by
  have hne := h.full bn hbn
  have hlen := h.len_le
  rw [bmap]
  by_cases hd : bn < NDIRECT
  · have haddr : (s.inode i).d.addrs (Fin.ofNat _ bn) = L.addr bn := by
      rw [h.addrs, Live.addr_direct hd]
    rw [if_pos hd, run_bmapAddr (by rwa [haddr]), haddr]
  · have hj : bn - NDIRECT < NINDIRECT := by
      simp only [MAXFILE, BSIZE] at *
      omega
    have hlast : (s.inode i).d.addrs (Fin.last NDIRECT) = L.ptr NDIRECT := by
      rw [h.addrs]
      rfl
    have hptr := h.ind bn (by omega) hne
    have hfree := h.free (L.ptr NDIRECT)
    have hword : (s.block (s.inode i).dev (L.ptr NDIRECT)).word 4 (4 * (bn - NDIRECT)) = L.addr bn := by
      rw [h.on.ind hptr _ hj, Live.addr_indirect hd]
    rw [if_neg hd, if_pos hj]
    simp only [Prog.bind_eq]
    rw [Prog.run_bind_ok (run_bmapAddr (by rwa [hlast])), hlast, Prog.run_reads_bind, bread]
    -- the indirect block is held while its entry is read
    rw [Prog.run_atomic_bind (onBlock_free (h.range NDIRECT) hfree), Prog.run_reads_bind]
    have hsame : ({ s with store := s.store.setHolder (s.inode i).dev (L.ptr NDIRECT) (some p) } : State Pid).block
        (s.inode i).dev (L.ptr NDIRECT) = s.block (s.inode i).dev (L.ptr NDIRECT) := rfl
    rw [hsame, hword, if_neg hne, brelse, Prog.run_modifies_bind]
    dsimp only
    rw [setHolder_setHolder hfree]
    rfl

theorem run_readLoop (h : Readable s i L len) {fuel off n : ℕ} (hn : n ≤ fuel) (hlen : off + n ≤ len) :
    (readLoop p i fuel off n).run s = .ok (L.bytes off n) s := by
  induction fuel generalizing off n with
  | zero =>
    obtain rfl : n = 0 := by omega
    rfl
  | succ fuel ih =>
    rw [readLoop]
    split_ifs with hz
    · subst hz
      rfl
    · have hbn : off / BSIZE * BSIZE < len := by
        simp only [BSIZE]
        omega
      have hm : off % BSIZE + min n (BSIZE - off % BSIZE) ≤ BSIZE := by
        simp only [BSIZE]
        omega
      have hblk : s.block (s.inode i).dev (L.ptr (placeOf (off / BSIZE))) = L.blk (off / BSIZE) :=
        h.on.blk _ (h.full _ hbn)
      obtain ⟨k, hk⟩ : ∃ k, n = min n (BSIZE - off % BSIZE) + k := ⟨n - min n (BSIZE - off % BSIZE), by omega⟩
      have hpos : 0 < min n (BSIZE - off % BSIZE) := by
        simp only [BSIZE]
        omega
      generalize min n (BSIZE - off % BSIZE) = m at hk hm hpos ⊢
      subst hk
      simp only [Prog.bind_eq]
      rw [Prog.run_reads_bind, Prog.run_bind_ok (h.run_bmap hbn),
        Prog.run_atomic_bind (onBlock_free (h.range _) (h.free _)), hblk, L.read_blk hm,
        Nat.add_sub_cancel_left, Prog.run_bind_ok (ih (by omega) (by omega)), L.bytes_add]
      rfl

variable [DecidableEq Pid]

theorem run_readi (h : Readable s i L len) {off n : ℕ} {con : Option (List UInt8)} (hn : off + n ≤ len)
    (htype : (s.inode i).d.type ≠ T_DEV) (hsize : len ≤ (s.inode i).d.size) :
    (readi p i off n con).run s = .ok (some (L.bytes off n)) s := by
  have hmax : len ≤ 71680 := h.len_le
  have huint : uint (off + n) = off + n := Nat.mod_eq_of_lt (by omega)
  simp only [readi, Prog.bind_eq]
  rw [Prog.run_reads_bind, if_neg htype, huint, if_neg (by omega), if_neg (by omega),
    Prog.run_bind_ok (h.run_readLoop le_rfl hn)]
  rfl

theorem run_readDirent (h : Readable s i L len) {off : ℕ} {msg : String} (hoff : off + DIRENT ≤ len)
    (htype : (s.inode i).d.type ≠ T_DEV) (hsize : len ≤ (s.inode i).d.size) :
    (readDirent p i off msg).run s = .ok (L.dirent off) s := by
  rw [readDirent, Prog.bind_eq, Prog.run_bind_ok (h.run_readi hoff htype hsize)]
  dsimp only
  rw [if_pos L.length_bytes]
  rfl

/-- The loop of `dirlookup` finds the first entry with the name. -/
theorem run_dirScan (h : Readable s i L len) {name : List UInt8} {fuel j k : ℕ}
    (htype : (s.inode i).d.type ≠ T_DEV) (hsize : len ≤ (s.inode i).d.size) (hk : DIRENT * (k + 1) ≤ len)
    (hjk : j ≤ k) (hfuel : k < j + fuel)
    (hbefore : ∀ l, j ≤ l → l < k → namecmp name (L.dirent (DIRENT * l)).name ≠ 0)
    (hinum : (L.dirent (DIRENT * k)).inum ≠ 0) (hname : namecmp name (L.dirent (DIRENT * k)).name = 0) :
    (dirScan p i name fuel (DIRENT * j)).run s = .ok (some ((L.dirent (DIRENT * k)).inum, DIRENT * k)) s := by
  induction fuel generalizing j with
  | zero => omega
  | succ fuel ih =>
    have hj : DIRENT * j + DIRENT ≤ len := by
      simp only [DIRENT] at *
      omega
    simp only [dirScan, Prog.bind_eq]
    rw [Prog.run_reads_bind, if_pos (by simp only [DIRENT] at *; omega),
      Prog.run_bind_ok (h.run_readDirent hj htype hsize)]
    rcases hjk.eq_or_lt with rfl | hlt
    · rw [if_pos ⟨hinum, hname⟩]
      rfl
    · rw [if_neg fun hc => hbefore j le_rfl hlt hc.2, ← Nat.mul_succ]
      exact ih hlt (by omega) fun l hl => hbefore l (by omega)

theorem run_dirlookup (h : Readable s i L len) {name : List UInt8} {k : ℕ} {t : State Pid} {i' : ISlot}
    (htype : (s.inode i).d.type = T_DIR) (hsize : len ≤ (s.inode i).d.size) (hk : DIRENT * (k + 1) ≤ len)
    (hbefore : ∀ l < k, namecmp name (L.dirent (DIRENT * l)).name ≠ 0)
    (hinum : (L.dirent (DIRENT * k)).inum ≠ 0) (hname : namecmp name (L.dirent (DIRENT * k)).name = 0)
    (higet : igetStep p (s.inode i).dev (L.dirent (DIRENT * k)).inum s = .ok i' t) :
    (dirlookup p i name).run s = .ok (some (i', DIRENT * k)) t := by
  have hdev : (s.inode i).d.type ≠ T_DEV := by
    rw [htype]
    decide
  have hfuel : k < 0 + ((s.inode i).d.size / DIRENT + 1) := by
    simp only [DIRENT] at *
    omega
  simp only [dirlookup, Prog.bind_eq]
  have hscan : (dirScan p i name ((s.inode i).d.size / DIRENT + 1) 0).run s =
      .ok (some ((L.dirent (DIRENT * k)).inum, DIRENT * k)) s :=
    h.run_dirScan hdev hsize hk (Nat.zero_le k) hfuel (fun l _ => hbefore l) hinum hname
  rw [Prog.run_reads_bind, if_neg (not_not.2 htype), Prog.run_bind_ok hscan]
  dsimp only
  rw [iget, Prog.run_atomic_bind higet]
  rfl

end Readable

end Xv6.Fs
