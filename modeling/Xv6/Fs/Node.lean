import Xv6.Fs.Transfer

/-!
# Inodes with their contents

`Live` is everything there is to know about an allocated inode: its copy in memory, its copy on disk,
the addresses in its indirect block and the contents of its blocks. It is what the holder of the
inode's lock may rely on. `Node` is what a user sees of it: type, devices, links and bytes.

The places at which an inode can refer to a block are numbered: `0` to `NDIRECT - 1` are the direct
addresses, `NDIRECT` the indirect block, and what follows are the addresses in the indirect block.
-/

namespace Xv6.Fs

variable {data src : List UInt8} {off : ℕ}

open Lib
open Function (update update_self update_of_ne update_apply)

/-- An inode as a user sees it. -/
@[ext] structure Node where
  type : Short
  major : Short
  minor : Short
  nlink : Short
  data : List UInt8

/-- The bytes of a file after `src` has been written at `off`. -/
def overwrite (data : List UInt8) (off : ℕ) (src : List UInt8) : List UInt8 :=
  data.take off ++ src ++ data.drop (off + src.length)

theorem length_overwrite (h : off ≤ data.length) :
    (overwrite data off src).length = max data.length (off + src.length) := by
  simp [overwrite]
  omega

theorem getD_overwrite (h : off ≤ data.length) (o : ℕ) :
    (overwrite data off src).getD o 0 =
      if o < off ∨ off + src.length ≤ o then data.getD o 0 else src.getD (o - off) 0 := by
  simp only [overwrite, List.getD_eq_getElem?_getD, List.append_assoc]
  by_cases h1 : o < off
  · rw [if_pos (Or.inl h1), List.getElem?_append_left (by simp; omega), List.getElem?_take_of_lt h1]
  · rw [List.getElem?_append_right (by simp; omega)]
    have hlen : (data.take off).length = off := by simp [h]
    rw [hlen]
    by_cases h2 : off + src.length ≤ o
    · rw [if_pos (Or.inr h2), List.getElem?_append_right (by omega), List.getElem?_drop]
      congr 2
      omega
    · rw [if_neg (by omega), List.getElem?_append_left (by omega)]

theorem take_drop_overwrite_of_le {o k : ℕ} (h : off ≤ data.length) (hk : o + k ≤ off) :
    ((overwrite data off src).drop o).take k = (data.drop o).take k := by
  have hsame : (overwrite data off src).take (o + k) = data.take (o + k) := by
    rw [overwrite, List.append_assoc, List.take_append_of_le_length (by simp; omega), List.take_take,
      min_eq_left hk]
  have hl : ∀ l : List UInt8, (l.drop o).take k = (l.take (o + k)).drop o := fun l => by
    rw [List.drop_take, Nat.add_sub_cancel_left]
  rw [hl, hl, hsame]

theorem take_drop_overwrite_self (h : off ≤ data.length) :
    ((overwrite data off src).drop off).take src.length = src := by
  have hlen : (data.take off).length = off := by simp [h]
  rw [overwrite, List.append_assoc, List.drop_left' hlen, List.take_left' rfl]

theorem overwrite_append {src' : List UInt8} (h : off ≤ data.length) :
    overwrite (overwrite data off src) (off + src.length) src' = overwrite data off (src ++ src') := by
  have hlen : (data.take off ++ src).length = off + src.length := by simp [h]
  have hdrop : (data.drop (off + src.length)).drop src'.length = data.drop (off + (src ++ src').length) := by
    rw [List.drop_drop, List.length_append, Nat.add_assoc]
  rw [overwrite, overwrite, overwrite, List.take_left' hlen, ← List.drop_drop, List.drop_left' hlen, hdrop,
    List.append_assoc (data.take off)]

/-- The directory entry at `off`. -/
def direntAt (data : List UInt8) (off : ℕ) : Dirent := .ofBytes ((data.drop off).take DIRENT)

theorem direntAt_overwrite {o : ℕ} (h : off ≤ data.length) (hoff : off % DIRENT = 0)
    (hsrc : src.length = DIRENT) (ho : o % DIRENT = 0) :
    direntAt (overwrite data off src) o = if o = off then .ofBytes src else direntAt data o := by
  have hlen : (data.take off).length = off := by simp [h]
  split_ifs with heq
  · subst heq
    have hdrop : (overwrite data o src).drop o = src ++ data.drop (o + src.length) := by
      rw [overwrite, List.append_assoc, List.drop_left' hlen]
    rw [direntAt, hdrop, List.take_left' hsrc]
  · have hsep : o + DIRENT ≤ off ∨ off + DIRENT ≤ o := by
      simp only [DIRENT] at *
      omega
    rw [direntAt, direntAt]
    congr 1
    refine List.ext_getElem? fun k => ?_
    by_cases hk : k < DIRENT
    · rw [List.getElem?_take_of_lt hk, List.getElem?_take_of_lt hk, List.getElem?_drop, List.getElem?_drop, overwrite,
        List.append_assoc]
      rcases hsep with hsep | hsep
      · rw [List.getElem?_append_left (by omega), List.getElem?_take_of_lt (by omega)]
      · rw [List.getElem?_append_right (by omega), List.getElem?_append_right (by omega), List.getElem?_drop, hlen]
        congr 1
        omega
    · rw [List.getElem?_eq_none (by simp; omega), List.getElem?_eq_none (by simp; omega)]

structure Live where
  c : Dinode
  d : Dinode
  ind : ℕ → ℕ
  blk : ℕ → Bytes

/-- The place that has the address of the `bn`th block. -/
def placeOf (bn : ℕ) : ℕ := if bn < NDIRECT then bn else bn + 1

namespace Live

variable (L : Live)

/-- The address at a place; zero if there is none. -/
def ptr (pos : ℕ) : ℕ :=
  if h : pos < NDIRECT + 1 then L.c.addrs ⟨pos, h⟩ else L.ind (pos - (NDIRECT + 1))

/-- The address of the `bn`th block. -/
def addr (bn : ℕ) : ℕ := L.ptr (placeOf bn)

def byte (o : ℕ) : UInt8 := L.blk (o / BSIZE) (o % BSIZE)

/-- The `n` bytes from `off` on. -/
def bytes (off n : ℕ) : List UInt8 := (List.range n).map fun k => L.byte (off + k)

def node : Node := ⟨L.c.type, L.c.major, L.c.minor, L.c.nlink, L.bytes 0 L.c.size⟩

/-- The directory entry at `off`. -/
def dirent (off : ℕ) : Dirent := .ofBytes (L.bytes off DIRENT)

/-- The copies in memory and on disk agree. -/
def Synced : Prop := L.d = L.c

/-- What holds of every allocated inode at all times: there is a block for every byte below its size,
and a directory consists of entries with i-numbers below `ninodes`. With zero for `ninodes` nothing is
said about directories. -/
structure Ok (ninodes : ℕ) : Prop where
  type_ne : L.c.type ≠ 0
  size_le : L.c.size ≤ MAXFILE * BSIZE
  full : ∀ bn, bn * BSIZE < L.c.size → L.addr bn ≠ 0
  ind_out : ∀ j, NINDIRECT ≤ j → L.ind j = 0
  ind_zero : L.ptr NDIRECT = 0 → ∀ j, L.ind j = 0
  dir_size : ninodes ≠ 0 → L.c.type = T_DIR → L.c.size % DIRENT = 0
  dir_inum : ninodes ≠ 0 → L.c.type = T_DIR → ∀ off < L.c.size, off % DIRENT = 0 → (L.dirent off).inum < ninodes

/-- The blocks have the contents that `L` says. -/
structure On (blk : ℕ → Bytes) : Prop where
  ind : L.ptr NDIRECT ≠ 0 → ∀ j < NINDIRECT, (blk (L.ptr NDIRECT)).word 4 (4 * j) = L.ind j
  blk : ∀ bn, L.addr bn ≠ 0 → blk (L.addr bn) = L.blk bn

/-- Change the copy in memory, but not the addresses. -/
def setC (c : Dinode) : Live := { L with c := { c with addrs := L.c.addrs } }

/-- Store the address `b` of a block with contents `m` at a direct place, or that of an indirect
block. -/
def setAddr (j : Fin (NDIRECT + 1)) (b : ℕ) (m : Bytes) : Live :=
  { L with
    c := { L.c with addrs := Function.update L.c.addrs j b }
    blk := if j.val < NDIRECT then Function.update L.blk j m else L.blk }

/-- Store the address `b` of a block with contents `m` in the indirect block. -/
def setInd (j b : ℕ) (m : Bytes) : Live :=
  { L with ind := Function.update L.ind j b, blk := Function.update L.blk (NDIRECT + j) m }

def setBlk (bn : ℕ) (m : Bytes) : Live := { L with blk := Function.update L.blk bn m }

variable {L} {j : Fin (NDIRECT + 1)} {b bn : ℕ} {m : Bytes} {c : Dinode} {n k off : ℕ} {blk : ℕ → Bytes}

theorem placeOf_ne : placeOf bn ≠ NDIRECT := by
  simp only [placeOf, NDIRECT]
  split <;> omega

theorem placeOf_inj {bn' : ℕ} : placeOf bn = placeOf bn' ↔ bn = bn' := by
  simp only [placeOf, NDIRECT]
  split <;> split <;> omega

theorem addr_direct (h : bn < NDIRECT) : L.addr bn = L.c.addrs (Fin.ofNat _ bn) := by
  rw [addr, placeOf, if_pos h, ptr, dif_pos (by omega)]
  congr 1
  exact Fin.ext (Nat.mod_eq_of_lt (by omega)).symm

theorem addr_indirect (h : ¬bn < NDIRECT) : L.addr bn = L.ind (bn - NDIRECT) := by
  rw [addr, placeOf, if_neg h, ptr, dif_neg (by omega), Nat.add_sub_add_right]

theorem ptr_last : L.ptr NDIRECT = L.c.addrs (Fin.last NDIRECT) := by
  rw [ptr, dif_pos (by omega)]
  rfl

theorem Ok.ptr_ne (h : L.Ok n) (hge : NDIRECT ≤ bn) (hb : L.addr bn ≠ 0) : L.ptr NDIRECT ≠ 0 := by
  intro hz
  rw [addr_indirect (by omega)] at hb
  exact hb (h.ind_zero hz _)

@[simp] theorem ptr_setBlk (pos : ℕ) : (L.setBlk bn m).ptr pos = L.ptr pos := rfl

theorem ptr_setAddr (pos : ℕ) : (L.setAddr j b m).ptr pos = if pos = j then b else L.ptr pos := by
  simp only [setAddr, ptr]
  by_cases h : pos < NDIRECT + 1
  · simp only [dif_pos h, update_apply, Fin.ext_iff]
  · have hne : pos ≠ j := fun he => h (he ▸ j.isLt)
    simp only [dif_neg h, if_neg hne]

theorem ptr_setInd {j : ℕ} (pos : ℕ) :
    (L.setInd j b m).ptr pos = if pos = NDIRECT + 1 + j then b else L.ptr pos := by
  simp only [setInd, ptr]
  by_cases h : pos < NDIRECT + 1
  · have hne : pos ≠ NDIRECT + 1 + j := by omega
    simp only [dif_pos h, if_neg hne]
  · have hiff : pos - (NDIRECT + 1) = j ↔ pos = NDIRECT + 1 + j := by omega
    simp only [dif_neg h, update_apply, hiff]

theorem blk_setAddr : (L.setAddr j b m).blk bn = if placeOf bn = j then m else L.blk bn := by
  have hj := j.isLt
  have hplace : placeOf bn = j ↔ j.val < NDIRECT ∧ bn = j := by
    rw [placeOf]
    split <;> omega
  simp only [setAddr, hplace]
  by_cases hlt : j.val < NDIRECT
  · simp only [hlt, if_true, true_and, update_apply]
  · simp only [hlt, if_false, false_and]

/-- The contents after the address of block `b` has been stored; a new indirect block must agree with
what the inode is known to list. -/
theorem On.setAddr (h : L.On blk)
    (hind : j.val = NDIRECT → ∀ k < NINDIRECT, (blk b).word 4 (4 * k) = L.ind k) :
    (L.setAddr j b (blk b)).On blk := by
  refine ⟨fun hn k hk => ?_, fun bn hbn => ?_⟩
  · rw [ptr_setAddr] at hn ⊢
    split at hn
    next he =>
      rw [if_pos he]
      exact hind he.symm k hk
    next he =>
      rw [if_neg he]
      exact h.ind hn k hk
  · rw [blk_setAddr]
    rw [addr, ptr_setAddr] at hbn ⊢
    split at hbn
    next he => rw [if_pos he, if_pos he]
    next he =>
      rw [if_neg he, if_neg he]
      exact h.blk bn hbn

theorem blk_setInd : (L.setInd k b m).blk bn = if placeOf bn = NDIRECT + 1 + k then m else L.blk bn := by
  have hplace : placeOf bn = NDIRECT + 1 + k ↔ bn = NDIRECT + k := by
    rw [placeOf]
    split <;> omega
  simp only [setInd, hplace, update_apply]

/-- The contents after the address of block `b` has been stored in the indirect block. -/
theorem On.setInd (h : L.On blk) (hn : L.ptr NDIRECT ≠ 0)
    (hne : ∀ bn, L.ptr (placeOf bn) ≠ 0 → L.ptr (placeOf bn) ≠ L.ptr NDIRECT) (hb : b ≠ L.ptr NDIRECT)
    (hlt : b < 256 ^ 4) :
    (L.setInd k b (blk b)).On (update blk (L.ptr NDIRECT)
      ((blk (L.ptr NDIRECT)).setWord 4 (4 * k) b)) := by
  have hind : (L.setInd k b (blk b)).ptr NDIRECT = L.ptr NDIRECT := rfl
  refine ⟨fun _ k' hk' => ?_, fun bn hbn => ?_⟩
  · rw [hind, update_self]
    simp only [Live.setInd, update_apply]
    split
    next he =>
      subst he
      rw [Bytes.word_setWord_self, Nat.mod_eq_of_lt hlt]
    next he =>
      rw [Bytes.word_setWord_of_disjoint (by omega)]
      exact h.ind hn k' hk'
  · rw [blk_setInd]
    rw [addr, ptr_setInd] at hbn ⊢
    split at hbn
    next he => rw [if_pos he, if_pos he, update_of_ne hb]
    next he =>
      rw [if_neg he, if_neg he, update_of_ne (hne bn hbn)]
      exact h.blk bn hbn

/-- The contents after block `bn` has been overwritten. -/
theorem On.setBlk (h : L.On blk) (hind : L.ptr NDIRECT ≠ 0 → L.ptr NDIRECT ≠ L.addr bn)
    (hne : ∀ bn', L.addr bn' ≠ 0 → bn' ≠ bn → L.addr bn' ≠ L.addr bn) :
    (L.setBlk bn m).On (update blk (L.addr bn) m) := by
  refine ⟨fun hn k hk => ?_, fun bn' hbn' => ?_⟩
  · rw [ptr_setBlk] at hn ⊢
    rw [update_of_ne (hind hn)]
    exact h.ind hn k hk
  · have haddr : (L.setBlk bn m).addr bn' = L.addr bn' := rfl
    rw [haddr] at hbn' ⊢
    simp only [Live.setBlk]
    rcases eq_or_ne bn' bn with rfl | hbb
    · rw [update_self, update_self]
    · rw [update_of_ne (hne bn' hbn' hbb), update_of_ne hbb]
      exact h.blk bn' hbn'

@[simp] theorem addr_setC : (L.setC c).addr bn = L.addr bn := rfl

theorem bytes_congr {L' : Live}
    (h : ∀ o, off ≤ o → o < off + n → L'.byte o = L.byte o) : L'.bytes off n = L.bytes off n := by
  refine List.map_congr_left fun k hk => ?_
  rw [List.mem_range] at hk
  exact h _ (by omega) (by omega)

theorem length_bytes : (L.bytes off n).length = n := by
  simp [bytes]

theorem bytes_add : L.bytes off (n + k) = L.bytes off n ++ L.bytes (off + n) k := by
  simp only [bytes, List.range_add, List.map_append, List.map_map, Function.comp_def, Nat.add_assoc]

/-- Bytes within one block. -/
theorem read_blk (h : off % BSIZE + n ≤ BSIZE) : (L.blk (off / BSIZE)).read (off % BSIZE) n = L.bytes off n := by
  refine List.map_congr_left fun k hk => ?_
  rw [List.mem_range] at hk
  have h1 : (off + k) / BSIZE = off / BSIZE := by
    simp only [BSIZE] at *
    omega
  have h2 : (off + k) % BSIZE = off % BSIZE + k := by
    simp only [BSIZE] at *
    omega
  rw [byte, h1, h2]

/-- The bytes before block `bn` do not depend on the contents of that block. -/
theorem byte_update {L' : Live} (h : L'.blk = update L.blk bn m) {o : ℕ}
    (ho : o / BSIZE ≠ bn) : L'.byte o = L.byte o := by
  rw [byte, byte, h, update_of_ne ho]

/-- `L'` is `L` with more blocks. -/
structure Grown (L L' : Live) : Prop where
  c : L'.c = { L.c with addrs := L'.c.addrs }
  d : L'.d = L.d
  addr : ∀ bn, L.addr bn ≠ 0 → L'.addr bn = L.addr bn ∧ L'.blk bn = L.blk bn

namespace Grown

variable {L' L'' : Live} {n : ℕ}

theorem refl (L : Live) : Grown L L := ⟨rfl, rfl, fun _ _ => ⟨rfl, rfl⟩⟩

theorem trans (h : Grown L L') (h' : Grown L' L'') : Grown L L'' where
  c := by rw [h'.c, h.c]
  d := h'.d.trans h.d
  addr bn hbn := by
    obtain ⟨h1, h2⟩ := h.addr bn hbn
    obtain ⟨h3, h4⟩ := h'.addr bn (by rwa [h1])
    exact ⟨h3.trans h1, h4.trans h2⟩

theorem byte (h : Grown L L') {o : ℕ} (ho : L.addr (o / BSIZE) ≠ 0) : L'.byte o = L.byte o := by
  rw [Live.byte, Live.byte, (h.addr _ ho).2]

theorem bytes (h : Grown L L') (hok : L.Ok n) (hk : off + k ≤ L.c.size) : L'.bytes off k = L.bytes off k :=
  bytes_congr fun o _ ho' => h.byte (hok.full _ (by simp only [BSIZE]; omega))

theorem ok (h : Grown L L') (hok : L.Ok n) (hout : ∀ j, NINDIRECT ≤ j → L'.ind j = 0)
    (hzero : L'.ptr NDIRECT = 0 → ∀ j, L'.ind j = 0) : L'.Ok n := by
  have hsize : L'.c.size = L.c.size := by rw [h.c]
  have htype : L'.c.type = L.c.type := by rw [h.c]
  refine ⟨by rw [htype]; exact hok.type_ne, by rw [hsize]; exact hok.size_le, fun bn hbn => ?_,
    hout, hzero, by rw [htype, hsize]; exact hok.dir_size, fun hn ht off hoff hmod => ?_⟩
  · rw [hsize] at hbn
    rw [(h.addr bn (hok.full bn hbn)).1]
    exact hok.full bn hbn
  · rw [htype] at ht
    rw [hsize] at hoff
    have hdir := hok.dir_size hn ht
    have hsame : L'.bytes off DIRENT = L.bytes off DIRENT := h.bytes hok (by simp only [DIRENT] at *; omega)
    rw [dirent, hsame]
    exact hok.dir_inum hn ht off hoff hmod

end Grown

theorem grown_setAddr (hz : L.c.addrs j = 0) : Grown L (L.setAddr j b m) where
  c := rfl
  d := rfl
  addr bn hbn := by
    have hne : placeOf bn ≠ j := by
      intro he
      rw [addr, ptr, he, dif_pos j.isLt] at hbn
      exact hbn hz
    refine ⟨by rw [addr, ptr_setAddr, if_neg hne, addr], ?_⟩
    simp only [setAddr]
    split
    next hj =>
      refine update_of_ne (fun he => hne ?_) ..
      rw [he, placeOf, if_pos hj]
    next => rfl

theorem grown_setInd {j : ℕ} (hz : L.ind j = 0) : Grown L (L.setInd j b m) where
  c := rfl
  d := rfl
  addr bn hbn := by
    have hne : placeOf bn ≠ NDIRECT + 1 + j := by
      intro he
      rw [addr, ptr, he, dif_neg (by omega)] at hbn
      rw [Nat.add_sub_cancel_left] at hbn
      exact hbn hz
    refine ⟨by rw [addr, ptr_setInd, if_neg hne, addr], update_of_ne (fun he => hne ?_) ..⟩
    rw [he, placeOf, if_neg (by omega)]
    omega

/-! ## Writing -/

section

variable {L M N : Live} {off n : ℕ} {src : List UInt8}

/-- `M` is `L` after `src` has been written at `off`, apart from the size. -/
structure Wrote (L : Live) (off : ℕ) (src : List UInt8) (M : Live) : Prop where
  c : M.c = { L.c with addrs := M.c.addrs }
  d : M.d = L.d
  same : off + src.length ≤ L.c.size → M.c = L.c
  keep : ∀ bn, L.addr bn ≠ 0 → M.addr bn ≠ 0
  full : ∀ k < src.length, M.addr ((off + k) / BSIZE) ≠ 0
  inn : ∀ k < src.length, M.byte (off + k) = src.getD k 0
  out : ∀ o, L.addr (o / BSIZE) ≠ 0 → o < off ∨ off + src.length ≤ o → M.byte o = L.byte o

theorem bytes_slice (h : off + k ≤ n) : L.bytes off k = ((L.bytes 0 n).drop off).take k := by
  have hsplit : L.bytes 0 n = L.bytes 0 off ++ (L.bytes off k ++ L.bytes (off + k) (n - (off + k))) := by
    have hn : n = off + (k + (n - (off + k))) := by omega
    conv_lhs => rw [hn, bytes_add, bytes_add, Nat.zero_add]
  rw [hsplit, List.drop_left' length_bytes, List.take_left' length_bytes]

theorem dirent_eq (h : off + DIRENT ≤ n) : L.dirent off = direntAt (L.bytes 0 n) off := by
  rw [dirent, direntAt, bytes_slice h]

namespace Wrote

theorem nil : Wrote L off [] L :=
  ⟨rfl, rfl, fun _ => rfl, fun _ h => h, by simp, by simp, fun _ _ _ => rfl⟩

theorem append {m : ℕ} (h : Wrote L off (src.take m) M) (h' : Wrote M (off + m) (src.drop m) N) (hm : m ≤ src.length) :
    Wrote L off src N := by
  have htake : (src.take m).length = m := by simp [hm]
  have hdrop : (src.drop m).length = src.length - m := by simp
  have hsize : M.c.size = L.c.size := by rw [h.c]
  have hfull := h.full
  have hinn := h.inn
  have hfull' := h'.full
  have hinn' := h'.inn
  rw [htake] at hfull hinn
  rw [hdrop] at hfull' hinn'
  refine ⟨by rw [h'.c, h.c], h'.d.trans h.d, fun hle => ?_, fun bn hbn => h'.keep bn (h.keep bn hbn), fun k hk => ?_,
    fun k hk => ?_, fun o ho hout => ?_⟩
  · rw [h'.same (by omega), h.same (by omega)]
  · by_cases hkm : k < m
    · exact h'.keep _ (hfull k hkm)
    · have hk' := hfull' (k - m) (by omega)
      rwa [show off + m + (k - m) = off + k by omega] at hk'
  · by_cases hkm : k < m
    · rw [h'.out _ (hfull k hkm) (Or.inl (by omega)), hinn k hkm]
      simp [List.getD_eq_getElem?_getD, hkm]
    · have hk' := hinn' (k - m) (by omega)
      rw [show off + m + (k - m) = off + k by omega] at hk'
      rw [hk']
      simp [List.getD_eq_getElem?_getD, List.getElem?_drop, show m + (k - m) = k by omega]
  · rw [h'.out o (h.keep _ ho) (by omega), h.out o ho (by omega)]

theorem next {m : ℕ} (h : Wrote L off (src.take k) M) (h' : Wrote M (off + k) ((src.drop k).take m) N)
    (hm : k + m ≤ src.length) : Wrote L off (src.take (k + m)) N := by
  have h1 : Wrote L off ((src.take (k + m)).take k) M := by rwa [List.take_take, min_eq_left (by omega)]
  have h2 : Wrote M (off + k) ((src.take (k + m)).drop k) N := by rwa [List.drop_take, Nat.add_sub_cancel_left]
  exact h1.append h2 (by rw [List.length_take]; omega)

/-- One block is written, which the inode had or has just got. -/
theorem block (h : Grown L M) (hok : L.Ok n) (hsame : L.addr (off / BSIZE) ≠ 0 → M = L) (hb : M.addr (off / BSIZE) ≠ 0)
    (hne : src ≠ []) (hle : off % BSIZE + src.length ≤ BSIZE) :
    Wrote L off src (M.setBlk (off / BSIZE) ((M.blk (off / BSIZE)).write (off % BSIZE) src)) := by
  have hpos : 0 < src.length := List.length_pos_iff.2 hne
  have hdiv : ∀ k < src.length, (off + k) / BSIZE = off / BSIZE ∧ (off + k) % BSIZE = off % BSIZE + k := by
    intro k hk
    simp only [BSIZE] at *
    omega
  refine ⟨h.c, h.d, fun hin => ?_, fun bn hbn => ?_, fun k hk => ?_, fun k hk => ?_, fun o ho hout => ?_⟩
  · have hM := hsame (hok.full _ (by simp only [BSIZE]; omega))
    rw [hM]
    rfl
  · have haddr : (M.setBlk (off / BSIZE) ((M.blk (off / BSIZE)).write (off % BSIZE) src)).addr bn = M.addr bn := rfl
    rw [haddr, (h.addr bn hbn).1]
    exact hbn
  · rw [(hdiv k hk).1]
    exact hb
  · rw [byte, (hdiv k hk).1, (hdiv k hk).2]
    simp only [setBlk, update_self]
    exact Bytes.write_of_mem hk
  · rw [byte, byte, ← (h.addr _ ho).2]
    simp only [setBlk]
    by_cases hblk : o / BSIZE = off / BSIZE
    · rw [hblk, update_self]
      refine Bytes.write_of_not_mem ?_
      simp only [BSIZE] at *
      omega
    · rw [update_of_ne hblk]

/-- What is read after the write, within the blocks that were there. -/
theorem bytes_data (h : Wrote L off src M) (hok : L.Ok n) (hoff : off ≤ L.c.size) :
    M.bytes 0 (max L.c.size (off + src.length)) = overwrite (L.bytes 0 L.c.size) off src := by
  have hlen : (L.bytes 0 L.c.size).length = L.c.size := length_bytes
  refine List.ext_getElem ?_ fun o ho ho' => ?_
  · rw [length_bytes, length_overwrite (by omega), hlen]
  · rw [length_bytes] at ho
    have hget : (overwrite (L.bytes 0 L.c.size) off src)[o] = (overwrite (L.bytes 0 L.c.size) off src).getD o 0 :=
      (List.getD_eq_getElem _ 0 ho').symm
    have hM : (M.bytes 0 (max L.c.size (off + src.length)))[o] = M.byte o := by simp [bytes]
    rw [hget, getD_overwrite (by omega), hM]
    by_cases hout : o < off ∨ off + src.length ≤ o
    · have hin : o < L.c.size := by omega
      rw [if_pos hout, h.out o (hok.full _ (by simp only [BSIZE]; omega)) hout]
      simp [bytes, List.getD_eq_getElem?_getD, hin]
    · have hk := h.inn (o - off) (by omega)
      rw [if_neg hout, ← hk, show off + (o - off) = o by omega]

end Wrote

/-- An inode may be written to at `off`: directories are written entry by entry. -/
def Entry (L : Live) (off : ℕ) (src : List UInt8) (ninodes : ℕ) : Prop :=
  ninodes ≠ 0 → L.c.type = T_DIR → off % DIRENT = 0 ∧ src.length = DIRENT ∧ (Dirent.ofBytes src).inum < ninodes

namespace Wrote

/-- Whatever the size is then, up to the end of what was written. -/
theorem ok (h : Wrote L off src M) (hok : L.Ok n) (hoff : off ≤ L.c.size) (hentry : src = [] ∨ L.Entry off src n)
    (hout : ∀ j, NINDIRECT ≤ j → M.ind j = 0) (hzero : M.ptr NDIRECT = 0 → ∀ j, M.ind j = 0) {size : ℕ}
    (hsize : size = L.c.size ∨ size = max L.c.size (off + src.length)) (hmax : size ≤ MAXFILE * BSIZE)  :
    (M.setC { M.c with size }).Ok n := by
  have htype : M.c.type = L.c.type := by rw [h.c]
  have hle : size ≤ max L.c.size (off + src.length) := by omega
  have hdata := h.bytes_data hok hoff
  have hlen : (L.bytes 0 L.c.size).length = L.c.size := length_bytes
  have hdir : n ≠ 0 → L.c.type = T_DIR → size % DIRENT = 0 := by
    intro hn ht
    have hold := hok.dir_size hn ht
    rcases hentry with rfl | he
    · simp only [List.length_nil, Nat.add_zero] at hsize
      have : size = L.c.size := by omega
      rwa [this]
    · obtain ⟨h1, h2, -⟩ := he hn ht
      simp only [DIRENT] at *
      omega
  refine ⟨?_, hmax, fun bn hbn => ?_, hout, hzero, fun hn ht => hdir hn (htype ▸ ht), fun hn ht o ho hmod => ?_⟩
  · exact htype ▸ hok.type_ne
  · have hbn : bn * BSIZE < size := hbn
    rw [addr_setC]
    by_cases hold : bn * BSIZE < L.c.size
    · exact h.keep bn (hok.full bn hold)
    · have hk := h.full (bn * BSIZE - off) (by omega)
      rwa [show off + (bn * BSIZE - off) = bn * BSIZE by omega, Nat.mul_div_cancel _ (by decide)] at hk
  · have ht : L.c.type = T_DIR := htype ▸ ht
    have ho : o < size := ho
    have hfit : o + DIRENT ≤ size := by
      have := hdir hn ht
      simp only [DIRENT] at *
      omega
    have hM : (M.setC { M.c with size }).dirent o = M.dirent o := rfl
    rw [hM, dirent_eq (hfit.trans hle), hdata]
    rcases hentry with rfl | he
    · have hsame : overwrite (L.bytes 0 L.c.size) off [] = L.bytes 0 L.c.size := by
        simp [overwrite]
      simp only [List.length_nil, Nat.add_zero] at hle
      rw [hsame, ← dirent_eq (by omega)]
      exact hok.dir_inum hn ht o (by omega) hmod
    · obtain ⟨h1, h2, h3⟩ := he hn ht
      rw [direntAt_overwrite (by omega) h1 h2 hmod]
      split_ifs with heq
      · exact h3
      · have hin : o < L.c.size := by
          have := hok.dir_size hn ht
          simp only [DIRENT] at *
          omega
        have hin' : o + DIRENT ≤ L.c.size := by
          have := hok.dir_size hn ht
          simp only [DIRENT] at *
          omega
        rw [← dirent_eq hin']
        exact hok.dir_inum hn ht o hin hmod

/-- What a user sees, if the size is up to date. -/
theorem node_eq {P : Live} (h : Wrote L off src M) (hdata : M.bytes 0 P.c.size = data)
    (hc : P.c = { M.c with size := P.c.size } := by rfl) (hblk : P.blk = M.blk := by rfl) :
    P.node = { L.node with data } := by
  have hbytes : P.bytes 0 P.c.size = M.bytes 0 P.c.size := bytes_congr fun o _ _ => by rw [byte, byte, hblk]
  rw [node, node, hbytes, hdata, hc, h.c]

theorem ok_same (h : Wrote L off src M) (hok : L.Ok n) (hoff : off ≤ L.c.size) (hentry : src = [] ∨ L.Entry off src n)
    (hout : ∀ j, NINDIRECT ≤ j → M.ind j = 0) (hzero : M.ptr NDIRECT = 0 → ∀ j, M.ind j = 0) : M.Ok n := by
  have hall := h.ok hok hoff hentry hout hzero (Or.inl rfl) hok.size_le
  have hsame : M.setC { M.c with size := L.c.size } = M := by
    have hsize : L.c.size = M.c.size := by rw [h.c]
    rw [hsize]
    rfl
  rwa [hsame] at hall

end Wrote

end

end Live

/-- An inode that is being truncated: its copies, the addresses its indirect block lists, and the
addresses it still owns, by place. -/
structure Trunc where
  c : Dinode
  d : Dinode
  ind : ℕ → ℕ
  own : ℕ → ℕ

/-- The state of an i-number. -/
inductive Body where
  | free
  | live (L : Live)
  | trunc (T : Trunc)

namespace Body

/-- The address of the block that the inode owns at a place; zero if there is none. -/
def ptr : Body → ℕ → ℕ
  | .free, _ => 0
  | .live L, pos => L.ptr pos
  | .trunc T, pos => T.own pos

end Body

end Xv6.Fs
