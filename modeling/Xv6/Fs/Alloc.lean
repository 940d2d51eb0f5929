import Mathlib.Data.Finset.Card
import Xv6.Fs.Disk
import Xv6.Fs.Logged
import Xv6.Fs.Read

/-!
# Allocating blocks without interference

What `balloc` does when no other process is active, and how the blocks of an inode change when some of them
are allocated and written to: which are new, and which are logged.
-/

namespace Xv6.Fs

open Conc Lib Prog

variable {Pid : Type}

/-- What `balloc` does when every block is in use. -/
def outOfBlocks : Fault := .panic "balloc: out of blocks"

/-! ## Free blocks -/

/-- The number of free data blocks. -/
def spare (sb : Superblock) (owner : ℕ → Option (Loc Pid)) : ℕ :=
  ((Finset.range sb.size).filter fun b => sb.dataStart ≤ b ∧ (owner b).isNone).card

section

variable {sb : Superblock} {owner : ℕ → Option (Loc Pid)} {b : ℕ}

/-- A free block is taken. -/
theorem spare_update {o : Loc Pid} (hlo : sb.dataStart ≤ b) (hhi : b < sb.size) (hb : owner b = none) :
    spare sb (Function.update owner b (some o)) + 1 = spare sb owner := by
  have hmem : b ∈ (Finset.range sb.size).filter fun b => sb.dataStart ≤ b ∧ (owner b).isNone := by
    simp [hlo, hhi, hb]
  rw [spare, spare, ← Finset.card_erase_add_one hmem]
  congr 2
  ext b'
  rcases eq_or_ne b' b with rfl | hbb
  · simp
  · simp [hbb]

theorem exists_of_spare (h : spare sb owner ≠ 0) : ∃ b, sb.dataStart ≤ b ∧ b < sb.size ∧ owner b = none := by
  obtain ⟨b, hb⟩ := Finset.card_ne_zero.1 h
  simp only [Finset.mem_filter, Finset.mem_range, Option.isNone_iff_eq_none] at hb
  exact ⟨b, hb.2.1, hb.1, hb.2.2⟩

end

theorem freeBit_isSome {size b : ℕ} {m : Bytes} {fuel bi k : ℕ} (hk : bi ≤ k) (hfuel : k < bi + fuel)
    (hsize : b + k < size) (hbit : m.bit k = false) : freeBit size b m fuel bi ≠ none := by
  induction fuel generalizing bi with
  | zero => omega
  | succ fuel ih =>
    rw [freeBit, if_pos (by omega)]
    split_ifs with hset
    · rcases hk.eq_or_lt with rfl | hlt
      · rw [hbit] at hset
        cases hset
      · exact ih hlt (by omega)
    · simp

/-- The state after `balloc` has returned `b`. -/
def State.taken (s : State Pid) (b : ℕ) : State Pid :=
  (s.putBlock ROOTDEV (BBLOCK b s.sb) ((s.block ROOTDEV (BBLOCK b s.sb)).setBit (b % BPB))).putBlock ROOTDEV b
    fun _ => 0

section

variable {s : State Pid} {b n : ℕ} {node : ℕ → Body} {owner : ℕ → Option (Loc Pid)}

theorem block_putBlock {dev : ℕ} {m : Bytes} : (s.putBlock dev b m).block dev = Function.update (s.block dev) b m :=
  Bio.Store.put_content

theorem block_taken : (s.taken b).block ROOTDEV b = fun _ => 0 := Bio.Store.put_content_self

/-- The bitmap is one block. -/
theorem Superblock.Ok.bblock_eq {sb : Superblock} (hsb : sb.Ok) (hb : b < sb.size) : BBLOCK b sb = sb.bmapstart := by
  have := hsb.size_le
  simp only [BBLOCK, BPB, BSIZE, FSSIZE] at *
  omega

/-- A data block is free exactly if its bit is clear. -/
theorem Disk.bit_eq_false {sb : Superblock} {blk : ℕ → Bytes} (h : Disk n sb blk node owner) (hb : b < sb.size) :
    bitOf sb blk b = false ↔ sb.dataStart ≤ b ∧ owner b = none := by
  have := h.bits b hb
  rw [← Bool.not_eq_true, this]
  simp

theorem Disk.taken {p : Pid} (hsb : s.sb.Ok) (h : Disk n s.sb (s.block ROOTDEV) node owner)
    (hlo : s.sb.dataStart ≤ b) (hhi : b < s.sb.size) (hb : owner b = none) :
    Disk n s.sb ((s.taken b).block ROOTDEV) node (Function.update owner b (some (.pend p))) := by
  have hmark := (h.mark hsb (p := p) hhi ((h.bit_eq_false hhi).2 ⟨hlo, hb⟩)).2
  have hzero := hmark.writePend hsb (b := b) (p := p) (m := fun _ => 0) (by simp)
  have hblk : (s.taken b).block ROOTDEV = Function.update (Function.update (s.block ROOTDEV) (BBLOCK b s.sb)
      ((s.block ROOTDEV (BBLOCK b s.sb)).setBit (b % BPB))) b fun _ => 0 := by
    rw [State.taken, block_putBlock, block_putBlock]
  rwa [hblk]

variable {F : Fault → Prop} {l : List ℕ} {Q : ℕ → Logged.Traced Pid → Prop}

theorem ends_bzero {Q : Unit → Logged.Traced Pid → Prop} (hb : b < FSSIZE) (hfree : s.store.holder ROOTDEV b = none)
    (hQ : Q () (s.putBlock ROOTDEV b fun _ => 0, l ++ [b])) : (Logged.bzero ROOTDEV b).Ends F (s, l) Q := by
  refine Ends.logs (ends_atomic ?_)
  rw [onBlock_free hb hfree]
  exact hQ

/-- `balloc` takes a free block, and logs the bitmap and the block. -/
theorem ends_balloc (hsb : s.sb.Ok) (h : Disk n s.sb (s.block ROOTDEV) node owner)
    (hfree : ∀ b, owner b = none → s.store.holder ROOTDEV b = none) (hF : spare s.sb owner = 0 → F outOfBlocks)
    (hQ : ∀ b, s.sb.dataStart ≤ b → b < s.sb.size → owner b = none → Q b (s.taken b, l ++ [s.sb.bmapstart, b])) :
    (Logged.balloc ROOTDEV).Ends F (s, l) Q := by
  have hsize := hsb.size_le
  have hdata := hsb.dataStart_le
  have hstart := hsb.bmapstart_lt
  have hpos : 0 < s.sb.size := by
    simp only [Superblock.dataStart] at hstart
    omega
  have hfuel : (s.sb.size + BPB - 1) / BPB = 1 := by
    simp only [BPB, BSIZE, FSSIZE] at *
    omega
  have hbmap : BBLOCK 0 s.sb = s.sb.bmapstart := hsb.bblock_eq hpos
  refine Ends.bind (Ends.quiet (ends_reads ?_))
  rw [hfuel]
  refine Ends.bind (Ends.logs (ends_atomic ?_))
  rw [ballocStep, hbmap, onBlock_free (by omega) (hfree _ (h.owner_meta hstart))]
  cases hf : freeBit s.sb.size 0 (s.block ROOTDEV s.sb.bmapstart) BPB 0 with
  | none =>
    show F outOfBlocks
    refine hF ?_
    by_contra hne
    obtain ⟨b, hlo, hhi, hb⟩ := exists_of_spare hne
    have hbit := (h.bit_eq_false hhi).2 ⟨hlo, hb⟩
    have hlt : b < BPB := by
      simp only [BPB, BSIZE, FSSIZE] at *
      omega
    rw [bitOf, hsb.bblock_eq hhi, Nat.mod_eq_of_lt hlt] at hbit
    exact freeBit_isSome (Nat.zero_le b) (by omega) (by omega) hbit hf
  | some b =>
    obtain ⟨-, hk, hhi, hbit⟩ := freeBit_spec hf
    have hhi : b < s.sb.size := by omega
    have hmod : b % BPB = b := Nat.mod_eq_of_lt (by omega)
    obtain ⟨hlo, hb⟩ := (h.bit_eq_false hhi).1 (by rwa [bitOf, hsb.bblock_eq hhi, hmod])
    have hdone := hQ b hlo hhi hb
    rw [State.taken, hsb.bblock_eq hhi, hmod] at hdone
    simp only [Nat.zero_add]
    refine Ends.bind (ends_bzero (by omega) (hfree b hb) (ends_pure ?_))
    rwa [List.append_assoc]

end

/-! ## The blocks of a file -/

namespace Live

variable {L M N : Live} {T U : Finset ℕ} {sb : Superblock} {w w' : List ℕ} {bn n : ℕ}

/-- The number of blocks that have to be allocated for the block numbers in `T`: those that have no block,
and the indirect block. -/
def need (L : Live) (T : Finset ℕ) : ℕ :=
  (T.filter fun bn => L.addr bn = 0).card + if (∃ bn ∈ T, NDIRECT ≤ bn) ∧ L.ptr NDIRECT = 0 then 1 else 0

/-- `M` is what `L` becomes when the blocks with numbers in `T` are allocated, where they are not there, and
written to, and `w` are the blocks logged for it. -/
structure Filled (sb : Superblock) (L : Live) (T : Finset ℕ) (M : Live) (w : List ℕ) : Prop where
  addr : ∀ bn ∈ T, M.addr bn ≠ 0
  other : ∀ bn, L.addr bn ≠ 0 ∨ bn ∉ T → M.addr bn = L.addr bn
  ind : L.ptr NDIRECT ≠ 0 ∨ (∀ bn ∈ T, bn < NDIRECT) → M.ptr NDIRECT = L.ptr NDIRECT
  mem : ∀ b, b ∈ w ↔ (∃ bn ∈ T, b = M.addr bn) ∨
    ∃ bn ∈ T, L.addr bn = 0 ∧ (b = sb.bmapstart ∨ NDIRECT ≤ bn ∧ b = M.ptr NDIRECT)

theorem need_mono (h : T ⊆ U) : L.need T ≤ L.need U := by
  refine Nat.add_le_add (Finset.card_le_card (Finset.filter_subset_filter _ h)) ?_
  split_ifs with h1 h2
  · exact le_rfl
  · obtain ⟨⟨bn, hbn, hge⟩, hz⟩ := h1
    exact absurd ⟨⟨bn, h hbn, hge⟩, hz⟩ h2
  · exact Nat.zero_le _
  · exact le_rfl

namespace Filled

theorem nil : Filled sb L ∅ L [] where
  addr _ h := absurd h (Finset.notMem_empty _)
  other _ _ := rfl
  ind _ := rfl
  mem b := by simp

/-- A block that the second part of a write has to allocate was not there before the first. -/
theorem addr_eq_zero_iff (h : Filled sb L T M w) : M.addr bn = 0 ↔ L.addr bn = 0 ∧ bn ∉ T := by
  refine ⟨fun hz => ?_, fun ⟨hz, hT⟩ => (h.other bn (Or.inr hT)).trans hz⟩
  have hT : bn ∉ T := fun hT => h.addr bn hT hz
  exact ⟨(h.other bn (Or.inr hT)).symm.trans hz, hT⟩

theorem ptr_ne (h : Filled sb L T M w) (hM : M.Ok n) (hT : bn ∈ T) (hge : NDIRECT ≤ bn) : M.ptr NDIRECT ≠ 0 :=
  hM.ptr_ne hge (h.addr bn hT)

theorem trans (h : Filled sb L T M w) (h' : Filled sb M U N w') (hM : M.Ok n) :
    Filled sb L (T ∪ U) N (w ++ w') := by
  have hT : ∀ bn ∈ T, N.addr bn = M.addr bn := fun bn hbn => h'.other bn (Or.inl (h.addr bn hbn))
  have hind : ∀ bn ∈ T, NDIRECT ≤ bn → N.ptr NDIRECT = M.ptr NDIRECT := fun bn hbn hge =>
    h'.ind (Or.inl (h.ptr_ne hM hbn hge))
  refine ⟨fun bn hbn => ?_, fun bn hbn => ?_, fun hi => ?_, fun b => ?_⟩
  · rcases Finset.mem_union.1 hbn with hbn | hbn
    · rw [hT bn hbn]
      exact h.addr bn hbn
    · exact h'.addr bn hbn
  · rw [Finset.notMem_union] at hbn
    have h1 := h.other bn (hbn.imp_right And.left)
    rw [h'.other bn (hbn.imp (fun hne => by rwa [h1]) And.right), h1]
  · have h1 := h.ind (hi.imp_right fun hall bn hbn => hall bn (Finset.mem_union_left _ hbn))
    rw [h'.ind (hi.imp (fun hne => by rwa [h1]) fun hall bn hbn => hall bn (Finset.mem_union_right _ hbn)), h1]
  · rw [List.mem_append, h.mem, h'.mem]
    constructor
    · rintro ((⟨bn, hbn, rfl⟩ | ⟨bn, hbn, hz, hb⟩) | ⟨bn, hbn, rfl⟩ | ⟨bn, hbn, hz, hb⟩)
      · exact Or.inl ⟨bn, Finset.mem_union_left _ hbn, (hT bn hbn).symm⟩
      · refine Or.inr ⟨bn, Finset.mem_union_left _ hbn, hz, hb.imp_right fun ⟨hge, hb⟩ => ⟨hge, ?_⟩⟩
        rw [hb, hind bn hbn hge]
      · exact Or.inl ⟨bn, Finset.mem_union_right _ hbn, rfl⟩
      · exact Or.inr ⟨bn, Finset.mem_union_right _ hbn, (h.addr_eq_zero_iff.1 hz).1, hb⟩
    · rintro (⟨bn, hbn, rfl⟩ | ⟨bn, hbn, hz, hb⟩)
      · rcases Finset.mem_union.1 hbn with hbn | hbn
        · exact Or.inl (Or.inl ⟨bn, hbn, hT bn hbn⟩)
        · exact Or.inr (Or.inl ⟨bn, hbn, rfl⟩)
      · by_cases hin : bn ∈ T
        · refine Or.inl (Or.inr ⟨bn, hin, hz, hb.imp_right fun ⟨hge, hb⟩ => ⟨hge, ?_⟩⟩)
          rw [hb, hind bn hin hge]
        · have hU := (Finset.mem_union.1 hbn).resolve_left hin
          exact Or.inr (Or.inr ⟨bn, hU, h.addr_eq_zero_iff.2 ⟨hz, hin⟩, hb⟩)

/-- The blocks needed for a write are those needed for its parts. -/
theorem need_union (h : Filled sb L T M w) (hM : M.Ok n) : L.need (T ∪ U) = L.need T + M.need U := by
  have hcard : ((T ∪ U).filter fun bn => L.addr bn = 0).card =
      (T.filter fun bn => L.addr bn = 0).card + (U.filter fun bn => M.addr bn = 0).card := by
    rw [← Finset.card_union_of_disjoint]
    · congr 1
      ext bn
      simp only [Finset.mem_filter, Finset.mem_union, h.addr_eq_zero_iff]
      tauto
    · rw [Finset.disjoint_left]
      intro bn h1 h2
      exact (h.addr_eq_zero_iff.1 (Finset.mem_filter.1 h2).2).2 (Finset.mem_filter.1 h1).1
  have hind : (if (∃ bn ∈ T ∪ U, NDIRECT ≤ bn) ∧ L.ptr NDIRECT = 0 then 1 else 0) =
      (if (∃ bn ∈ T, NDIRECT ≤ bn) ∧ L.ptr NDIRECT = 0 then 1 else 0) +
        if (∃ bn ∈ U, NDIRECT ≤ bn) ∧ M.ptr NDIRECT = 0 then 1 else 0 := by
    by_cases hT : ∃ bn ∈ T, NDIRECT ≤ bn
    · obtain ⟨bn, hbn, hge⟩ := hT
      have hne := h.ptr_ne hM hbn hge
      have hTU : ∃ bn ∈ T ∪ U, NDIRECT ≤ bn := ⟨bn, Finset.mem_union_left _ hbn, hge⟩
      have hT : ∃ bn ∈ T, NDIRECT ≤ bn := ⟨bn, hbn, hge⟩
      simp only [hTU, hT, hne, true_and, and_false, if_false, Nat.add_zero]
    · have hsame := h.ind (Or.inr fun bn hbn => not_le.1 fun hge => hT ⟨bn, hbn, hge⟩)
      have hiff : (∃ bn ∈ T ∪ U, NDIRECT ≤ bn) ↔ ∃ bn ∈ U, NDIRECT ≤ bn := by
        simp only [Finset.mem_union, or_and_right, exists_or, hT, false_or]
      simp only [hiff, hT, hsame, false_and, if_false, Nat.zero_add]
  rw [need, need, need, hcard, hind]
  omega

end Filled

/-- `M` is what `L` becomes when `bmap` has been called for block number `bn`, and `w` are the blocks it
logs. -/
structure Mapped (sb : Superblock) (L : Live) (bn : ℕ) (M : Live) (w : List ℕ) : Prop where
  grown : L.Grown M
  addr : M.addr bn ≠ 0
  same : L.addr bn ≠ 0 → M = L
  other : ∀ bn', bn' ≠ bn → M.addr bn' = L.addr bn'
  ind : L.ptr NDIRECT ≠ 0 ∨ bn < NDIRECT → M.ptr NDIRECT = L.ptr NDIRECT
  mem : ∀ b, b ∈ w ↔
    L.addr bn = 0 ∧ (b = sb.bmapstart ∨ b = M.addr bn ∨ NDIRECT ≤ bn ∧ b = M.ptr NDIRECT)

theorem need_singleton : L.need {bn} =
    (if L.addr bn = 0 then 1 else 0) + if NDIRECT ≤ bn ∧ L.ptr NDIRECT = 0 then 1 else 0 := by
  simp only [need, Finset.filter_singleton, Finset.mem_singleton, exists_eq_left]
  split_ifs <;> simp

namespace Mapped

variable {b : ℕ} {m : Bytes}

theorem found (h : L.addr bn ≠ 0) : Mapped sb L bn L [] where
  grown := .refl L
  addr := h
  same _ := rfl
  other _ _ := rfl
  ind _ := rfl
  mem b := by simp [h]

/-- The block is written to after it has been mapped. -/
theorem filled (h : Mapped sb L bn M w) (haddr : ∀ bn', N.addr bn' = M.addr bn')
    (hptr : N.ptr NDIRECT = M.ptr NDIRECT) : Filled sb L {bn} N (w ++ [M.addr bn]) where
  addr bn' hbn' := by
    rw [Finset.mem_singleton.1 hbn', haddr]
    exact h.addr
  other bn' hbn' := by
    rw [haddr]
    rcases eq_or_ne bn' bn with rfl | he
    · rw [h.same (hbn'.resolve_right (by simp))]
    · exact h.other bn' he
  ind hi := by
    rw [hptr]
    exact h.ind (hi.imp_right fun hall => hall bn (Finset.mem_singleton_self bn))
  mem b := by
    simp only [List.mem_append, h.mem, List.mem_singleton, Finset.mem_singleton, exists_eq_left, haddr, hptr]
    tauto

/-- A direct block is allocated. -/
theorem direct (hlt : bn < NDIRECT) (hz : L.addr bn = 0) (hb : b ≠ 0) :
    Mapped sb L bn (L.setAddr (Fin.ofNat _ bn) b m) [sb.bmapstart, b] := by
  have hval : ((Fin.ofNat (NDIRECT + 1) bn : Fin (NDIRECT + 1)) : ℕ) = bn := Nat.mod_eq_of_lt (by omega)
  have haddr : ∀ bn', (L.setAddr (Fin.ofNat _ bn) b m).addr bn' = if bn' = bn then b else L.addr bn' := by
    intro bn'
    have hplace : placeOf bn' = bn ↔ bn' = bn := by
      have hbn : placeOf bn = bn := if_pos hlt
      conv_lhs => rw [← hbn, placeOf_inj]
    rw [Live.addr, ptr_setAddr, hval]
    simp only [hplace, Live.addr]
  have hind : (L.setAddr (Fin.ofNat _ bn) b m).ptr NDIRECT = L.ptr NDIRECT := by
    rw [ptr_setAddr, hval, if_neg (by omega)]
  refine ⟨grown_setAddr (addr_direct hlt ▸ hz), ?_, fun hne => absurd hz hne, fun bn' hne => ?_, fun _ => hind, fun b' => ?_⟩
  · rw [haddr, if_pos rfl]
    exact hb
  · rw [haddr, if_neg hne]
  · rw [haddr, if_pos rfl]
    simp [hz, not_le.2 hlt]

/-- A block is allocated whose address stands in the indirect block. -/
theorem indirect (hge : ¬bn < NDIRECT) (hz : L.addr bn = 0) (hb : b ≠ 0) :
    Mapped sb L bn (L.setInd (bn - NDIRECT) b m) ([sb.bmapstart, b] ++ [L.ptr NDIRECT]) := by
  have haddr : ∀ bn', (L.setInd (bn - NDIRECT) b m).addr bn' = if bn' = bn then b else L.addr bn' := by
    intro bn'
    have hplace : placeOf bn' = NDIRECT + 1 + (bn - NDIRECT) ↔ bn' = bn := by
      have hbn : placeOf bn = NDIRECT + 1 + (bn - NDIRECT) := by
        rw [placeOf, if_neg hge]
        omega
      rw [← hbn, placeOf_inj]
    rw [Live.addr, ptr_setInd]
    simp only [hplace, Live.addr]
  have hind : (L.setInd (bn - NDIRECT) b m).ptr NDIRECT = L.ptr NDIRECT := rfl
  refine ⟨grown_setInd (addr_indirect hge ▸ hz), ?_, fun hne => absurd hz hne, fun bn' hne => ?_, fun _ => hind, fun b' => ?_⟩
  · rw [haddr, if_pos rfl]
    exact hb
  · rw [haddr, if_neg hne]
  · rw [haddr, if_pos rfl, hind]
    simp [hz, not_lt.1 hge]

/-- The indirect block is allocated first. -/
theorem afterLast (hge : ¬bn < NDIRECT) (hok : L.Ok n) (hz : L.ptr NDIRECT = 0) (hb : b ≠ 0)
    (h : Mapped sb (L.setAddr (Fin.last NDIRECT) b m) bn M w) : Mapped sb L bn M ([sb.bmapstart, b] ++ w) := by
  have haddr : ∀ bn', (L.setAddr (Fin.last NDIRECT) b m).addr bn' = L.addr bn' := by
    intro bn'
    rw [Live.addr, ptr_setAddr, Fin.val_last, if_neg placeOf_ne, Live.addr]
  have hptr : (L.setAddr (Fin.last NDIRECT) b m).ptr NDIRECT = b := by
    rw [ptr_setAddr, Fin.val_last, if_pos rfl]
  have hMptr : M.ptr NDIRECT = b := (h.ind (Or.inl (by rwa [hptr]))).trans hptr
  have hLz : L.addr bn = 0 := by
    rw [addr_indirect hge]
    exact hok.ind_zero hz _
  refine ⟨(grown_setAddr (ptr_last ▸ hz)).trans h.grown, h.addr, fun hne => absurd hLz hne,
    fun bn' hne => (h.other bn' hne).trans (haddr bn'), fun hi => ?_, fun b' => ?_⟩
  · exact (hi.elim (fun hne => hne hz) hge).elim
  · rw [List.mem_append, h.mem, haddr, hMptr]
    simp only [List.mem_cons, List.not_mem_nil, or_false, hLz, true_and, not_lt.1 hge]
    tauto

end Mapped

end Live

end Xv6.Fs
