import Xv6.Fs.Node

/-!
# The file system on disk

`Disk` says that the blocks of the disk hold the inodes in `node`, and that `owner` tells of each block
in use who uses it: an inode, at one of its places, or a process that has taken it from the bitmap and
not yet used it. Since `owner` is a function, no block is used twice. The first argument is the bound for
i-numbers in directories, or zero if these may hold anything.

For each thing the code does to the disk there is one lemma that says what becomes of `node` and
`owner`.
-/

namespace Xv6.Fs

open Lib
open Function (update update_self update_of_ne)

variable {Pid : Type}

/-- The use of a block. -/
inductive Loc (Pid : Type) where
  | node (inum pos : ℕ)
  | pend (p : Pid)

variable (n : ℕ) (sb : Superblock) (blk : ℕ → Bytes)

/-- Inode `inum` as it is on disk. -/
def dinodeOf (inum : ℕ) : Dinode := .read (blk (IBLOCK inum sb)) inum

/-- The bit of block `b` in the free map. -/
def bitOf (b : ℕ) : Bool := (blk (BBLOCK b sb)).bit (b % BPB)

/-- What the disk has of the inode `inum`. -/
def BodyOk (inum : ℕ) : Body → Prop
  | .free => (dinodeOf sb blk inum).type = 0
  | .live L => dinodeOf sb blk inum = L.d ∧ L.d.type ≠ 0 ∧ L.On blk ∧ L.Ok n
  | .trunc T => dinodeOf sb blk inum = T.d ∧ T.d.type ≠ 0 ∧
      (T.own NDIRECT ≠ 0 → ∀ j < NINDIRECT, (blk (T.own NDIRECT)).word 4 (4 * j) = T.ind j)

structure Disk (node : ℕ → Body) (owner : ℕ → Option (Loc Pid)) : Prop where
  sb_block : Superblock.ofBytes (blk 1) = sb
  body : ∀ X < sb.ninodes, BodyOk n sb blk X (node X)
  out : ∀ X, sb.ninodes ≤ X → node X = .free
  refers : ∀ X pos, (node X).ptr pos ≠ 0 → owner ((node X).ptr pos) = some (.node X pos)
  owned : ∀ b X pos, owner b = some (.node X pos) → (node X).ptr pos = b
  range : ∀ b, owner b ≠ none → sb.dataStart ≤ b ∧ b < sb.size
  bits : ∀ b < sb.size, bitOf sb blk b = true ↔ b < sb.dataStart ∨ owner b ≠ none

variable {n sb blk} {node : ℕ → Body} {owner : ℕ → Option (Loc Pid)} {X b : ℕ} {blk' : ℕ → Bytes}

/-! ## The regions of the disk -/

namespace Superblock.Ok

variable (hsb : sb.Ok)

include hsb in
theorem iblock (hX : X < sb.ninodes) : 1 < IBLOCK X sb ∧ IBLOCK X sb < sb.bmapstart := by
  have h1 := hsb.inodestart_gt
  have h2 := hsb.iblock_lt
  simp only [IBLOCK, IPB, BSIZE] at *
  omega

include hsb in
theorem bblock (hb : b < sb.size) : sb.bmapstart ≤ BBLOCK b sb ∧ BBLOCK b sb < sb.dataStart := by
  have h := hsb.bblock_lt
  simp only [BBLOCK, BPB, BSIZE] at *
  omega

include hsb in
theorem bmapstart_lt : sb.bmapstart < sb.dataStart := by
  have h := hsb.bblock_lt
  simp only [BBLOCK, BPB, BSIZE] at h
  omega

include hsb in
theorem dataStart_le : sb.dataStart ≤ FSSIZE := by
  have h := hsb.size_le
  simp only [dataStart] at *
  omega

end Superblock.Ok

/-- Blocks that agree below the data blocks have the same inodes. -/
theorem dinodeOf_congr (h : blk' (IBLOCK X sb) = blk (IBLOCK X sb)) : dinodeOf sb blk' X = dinodeOf sb blk X := by
  rw [dinodeOf, dinodeOf, h]

theorem bitOf_congr (h : blk' (BBLOCK b sb) = blk (BBLOCK b sb)) : bitOf sb blk' b = bitOf sb blk b := by
  rw [bitOf, bitOf, h]

/-- The body of an inode depends on its own copy on disk and on the blocks it owns. -/
theorem BodyOk.congr {B : Body} (h : BodyOk n sb blk X B)
    (hd : dinodeOf sb blk' X = dinodeOf sb blk X)
    (hb : ∀ pos, B.ptr pos ≠ 0 → blk' (B.ptr pos) = blk (B.ptr pos)) : BodyOk n sb blk' X B := by
  cases B with
  | free => simpa only [BodyOk, hd] using h
  | live L =>
    obtain ⟨h1, h2, h3, h4⟩ := h
    refine ⟨hd.trans h1, h2, ⟨fun hne j hj => ?_, fun bn hne => ?_⟩, h4⟩
    · have hsame : blk' (L.ptr NDIRECT) = blk (L.ptr NDIRECT) := hb NDIRECT hne
      rw [hsame, h3.ind hne j hj]
    · have hsame : blk' (L.addr bn) = blk (L.addr bn) := hb (placeOf bn) hne
      rw [hsame, h3.blk bn hne]
  | trunc T =>
    obtain ⟨h1, h2, h3⟩ := h
    refine ⟨hd.trans h1, h2, fun hne j hj => ?_⟩
    have hsame : blk' (T.own NDIRECT) = blk (T.own NDIRECT) := hb NDIRECT hne
    rw [hsame, h3 hne j hj]

/-! ## Changing one inode -/

/-- Any change that concerns at most one inode and the blocks it owns. -/
theorem Disk.replace (h : Disk n sb blk node owner) {B : Body}
    {owner' : ℕ → Option (Loc Pid)} (hX : X < sb.ninodes) (hsb : blk' 1 = blk 1)
    (hB : BodyOk n sb blk' X B)
    (hd : ∀ Y < sb.ninodes, Y ≠ X → dinodeOf sb blk' Y = dinodeOf sb blk Y)
    (hb : ∀ b Y pos, Y ≠ X → owner b = some (.node Y pos) → blk' b = blk b)
    (hrefers : ∀ pos, B.ptr pos ≠ 0 → owner' (B.ptr pos) = some (.node X pos))
    (howned : ∀ b pos, owner' b = some (.node X pos) → B.ptr pos = b)
    (hkeep : ∀ b Y pos, Y ≠ X → (owner' b = some (.node Y pos) ↔ owner b = some (.node Y pos)))
    (hrange : ∀ b, owner' b ≠ none → sb.dataStart ≤ b ∧ b < sb.size)
    (hbits : ∀ b < sb.size, bitOf sb blk' b = true ↔ b < sb.dataStart ∨ owner' b ≠ none) :
    Disk n sb blk' (update node X B) owner' where
  sb_block := by rw [hsb, h.sb_block]
  body Y hY := by
    rcases eq_or_ne Y X with rfl | hYX
    · rwa [update_self]
    · rw [update_of_ne hYX]
      refine (h.body Y hY).congr (hd Y hY hYX) fun pos hpos => ?_
      exact hb _ Y pos hYX (h.refers Y pos hpos)
  out Y hY := by
    have hYX : Y ≠ X := by omega
    rw [update_of_ne hYX, h.out Y hY]
  refers Y pos hpos := by
    rcases eq_or_ne Y X with rfl | hYX
    · rw [update_self] at hpos ⊢
      exact hrefers pos hpos
    · rw [update_of_ne hYX] at hpos ⊢
      exact (hkeep _ Y pos hYX).mpr (h.refers Y pos hpos)
  owned b Y pos hown := by
    rcases eq_or_ne Y X with rfl | hYX
    · rw [update_self]
      exact howned b pos hown
    · rw [update_of_ne hYX]
      exact h.owned b Y pos ((hkeep b Y pos hYX).mp hown)
  range := hrange
  bits := hbits

theorem freeBit_spec {size : ℕ} {m : Bytes} {fuel bi k : ℕ} (h : freeBit size b m fuel bi = some k) :
    bi ≤ k ∧ k < bi + fuel ∧ b + k < size ∧ m.bit k = false := by
  induction fuel generalizing bi with
  | zero => simp [freeBit] at h
  | succ fuel ih =>
    rw [freeBit] at h
    split at h
    next hlt =>
      split at h
      next hbit =>
        obtain ⟨h1, h2, h3, h4⟩ := ih h
        exact ⟨by omega, by omega, h3, h4⟩
      next hbit =>
        obtain rfl := Option.some.inj h
        exact ⟨le_refl _, by omega, hlt, by simpa using hbit⟩
    next => cases h

section

variable (hsb : sb.Ok) (h : Disk n sb blk node owner) {L : Live} {pos : ℕ} {p : Pid}

include h in
theorem Disk.owner_meta (hb : b < sb.dataStart) : owner b = none := by
  by_contra hne
  have := (h.range b hne).1
  omega

include h in
/-- An inode's address is that of a data block. -/
theorem Disk.ptr_range (hpos : (node X).ptr pos ≠ 0) :
    sb.dataStart ≤ (node X).ptr pos ∧ (node X).ptr pos < sb.size :=
  h.range _ (by simp [h.refers X pos hpos])

include h in
/-- No block is used twice. -/
theorem Disk.ptr_inj {Y pos' : ℕ} (he : (node X).ptr pos = (node Y).ptr pos')
    (hpos : (node X).ptr pos ≠ 0) : X = Y ∧ pos = pos' := by
  have h1 := h.refers X pos hpos
  have h2 := h.refers Y pos' (by rwa [← he])
  rw [he, h2] at h1
  simp only [Option.some.injEq, Loc.node.injEq] at h1
  exact ⟨h1.1.symm, h1.2.symm⟩

include hsb h in
/-- A live inode fits the format on disk. -/
theorem Disk.fits (hX : X < sb.ninodes) (hL : node X = .live L) : L.c.Fits := by
  have hbody := h.body X hX
  rw [hL] at hbody
  refine ⟨?_, fun j => ?_⟩
  · have hle := hbody.2.2.2.size_le
    simp only [MAXFILE, NDIRECT, NINDIRECT, BSIZE] at hle
    omega
  · by_cases hz : L.c.addrs j = 0
    · omega
    · have hptr : (node X).ptr j = L.c.addrs j := by
        rw [hL]
        simp [Body.ptr, Live.ptr, j.isLt]
      have hr := @Disk.ptr_range _ _ _ _ _ _ X h j (by rwa [hptr])
      have := hsb.size_le
      rw [hptr] at hr
      simp only [FSSIZE] at this
      omega

include hsb h in
/-- Change the contents of blocks an inode owns, and what is in memory of it, but not its addresses. -/
theorem Disk.setLive {L' : Live} (hX : X < sb.ninodes)
    (hL : node X = .live L) (hptr : ∀ pos, L'.ptr pos = L.ptr pos) (hd : L'.d = L.d)
    (hblk : ∀ b, (∀ pos, owner b ≠ some (.node X pos)) → blk' b = blk b)
    (hon : L'.On blk') (hok : L'.Ok n) :
    Disk n sb blk' (update node X (.live L')) owner := by
  have hmeta : ∀ b < sb.dataStart, blk' b = blk b :=
    fun b hb => hblk b fun pos => by simp [h.owner_meta hb]
  have hstart := hsb.bmapstart_lt
  have hdin : ∀ Y < sb.ninodes, dinodeOf sb blk' Y = dinodeOf sb blk Y := fun Y hY =>
    dinodeOf_congr (hmeta _ (lt_trans (hsb.iblock hY).2 hstart))
  have hbody := h.body X hX
  rw [hL] at hbody
  refine h.replace hX (hmeta 1 ?_) ?_ (fun Y hY _ => hdin Y hY) ?_ ?_ ?_ ?_ h.range ?_
  · have := hsb.iblock hX
    omega
  · exact ⟨by rw [hdin X hX, hbody.1, hd], by rw [hd]; exact hbody.2.1, hon, hok⟩
  · intro b Y pos hYX hown
    refine hblk b fun pos' => ?_
    rw [hown]
    simp only [ne_eq, Option.some.injEq, Loc.node.injEq, not_and]
    exact fun hY => absurd hY hYX
  · intro pos hpos
    have := h.refers X pos
    simp only [Body.ptr, hptr, hL] at hpos this ⊢
    exact this hpos
  · intro b pos hown
    have := h.owned b X pos hown
    simpa only [Body.ptr, hptr, hL] using this
  · exact fun _ _ _ _ => Iff.rfl
  · intro b hb
    rw [bitOf_congr (hmeta _ (hsb.bblock hb).2)]
    exact h.bits b hb

include hsb h in
/-- A process gives a block it has taken to an inode, at a place that has none. -/
theorem Disk.attach {L' : Live} (hX : X < sb.ninodes)
    (hL : node X = .live L) (hb : owner b = some (.pend p)) (hzero : L.ptr pos = 0)
    (hptr : ∀ pos', L'.ptr pos' = if pos' = pos then b else L.ptr pos') (hd : L'.d = L.d)
    (hblk : ∀ b, (∀ pos, owner b ≠ some (.node X pos)) → blk' b = blk b)
    (hon : L'.On blk') (hok : L'.Ok n) :
    Disk n sb blk' (update node X (.live L'))
      (update owner b (some (.node X pos))) := by
  have hmeta : ∀ b < sb.dataStart, blk' b = blk b :=
    fun b hb => hblk b fun pos => by simp [h.owner_meta hb]
  have hstart := hsb.bmapstart_lt
  have hdin : ∀ Y < sb.ninodes, dinodeOf sb blk' Y = dinodeOf sb blk Y := fun Y hY =>
    dinodeOf_congr (hmeta _ (lt_trans (hsb.iblock hY).2 hstart))
  have hbody := h.body X hX
  rw [hL] at hbody
  have hne : ∀ b', owner b' ≠ some (.pend p) → b' ≠ b := by
    rintro b' hb' rfl
    exact hb' hb
  refine h.replace hX (hmeta 1 ?_) ?_ (fun Y hY _ => hdin Y hY) ?_ ?_ ?_ ?_ ?_ ?_
  · have := hsb.iblock hX
    omega
  · exact ⟨by rw [hdin X hX, hbody.1, hd], by rw [hd]; exact hbody.2.1, hon, hok⟩
  · intro b' Y pos' hYX hown
    refine hblk b' fun pos'' => ?_
    rw [hown]
    simp only [ne_eq, Option.some.injEq, Loc.node.injEq, not_and]
    exact fun hY => absurd hY hYX
  · intro pos' hpos'
    simp only [Body.ptr, hptr] at hpos' ⊢
    by_cases he : pos' = pos
    · rw [if_pos he, he, update_self]
    · rw [if_neg he] at hpos' ⊢
      have := h.refers X pos'
      simp only [Body.ptr, hL] at this
      rw [update_of_ne (hne _ (by simp [this hpos'])), this hpos']
  · intro b' pos' hown
    simp only [Body.ptr, hptr]
    rcases eq_or_ne b' b with rfl | hbb
    · rw [update_self] at hown
      simp only [Option.some.injEq, Loc.node.injEq, true_and] at hown
      rw [if_pos hown.symm]
    · rw [update_of_ne hbb] at hown
      have hat := h.owned b' X pos' hown
      simp only [Body.ptr, hL] at hat
      have hne0 : b' ≠ 0 := by
        have := (h.range b' (by simp [hown])).1
        omega
      rw [if_neg, hat]
      rintro rfl
      exact hne0 (hat.symm.trans hzero)
  · intro b' Y pos' hYX
    rcases eq_or_ne b' b with rfl | hbb
    · rw [update_self, hb]
      simp [Ne.symm hYX]
    · rw [update_of_ne hbb]
  · intro b' hb'
    rcases eq_or_ne b' b with rfl | hbb
    · exact h.range b' (by simp [hb])
    · rw [update_of_ne hbb] at hb'
      exact h.range b' hb'
  · intro b' hb'
    rw [bitOf_congr (hmeta _ (hsb.bblock hb').2), h.bits b' hb']
    rcases eq_or_ne b' b with rfl | hbb
    · simp [hb]
    · rw [update_of_ne hbb]

include hsb h in
/-- The address of a block a process has taken and zeroed is stored in an inode. -/
theorem Disk.setAddr {j : Fin (NDIRECT + 1)} (hX : X < sb.ninodes) (hL : node X = .live L)
    (hb : owner b = some (.pend p)) (hj : L.c.addrs j = 0) (hzero : blk b = fun _ => 0) :
    b ≠ 0 ∧ (L.setAddr j b (blk b)).Ok n ∧ Disk n sb blk (update node X (.live (L.setAddr j b (blk b))))
      (update owner b (some (.node X j))) := by
  have hbody := h.body X hX
  rw [hL] at hbody
  have hbok := hbody.2.2.2
  have hne : b ≠ 0 := by
    have h1 := (h.range b (by simp [hb])).1
    have h2 := hsb.bmapstart_lt
    omega
  have hptr0 : L.ptr j = 0 := by rw [Live.ptr, dif_pos j.isLt, hj]
  have hok : (L.setAddr j b (blk b)).Ok n := by
    refine (Live.grown_setAddr hj).ok hbok hbok.ind_out fun hn => ?_
    rw [Live.ptr_setAddr] at hn
    split at hn
    · exact absurd hn hne
    · exact hbok.ind_zero hn
  have hon : (L.setAddr j b (blk b)).On blk := by
    refine hbody.2.2.1.setAddr fun hn k _ => ?_
    -- a new indirect block lists nothing
    rw [hzero, hbok.ind_zero (by rw [← hn, hptr0]) k]
    rfl
  exact ⟨hne, hok, h.attach hsb hX hL hb hptr0 (fun pos => Live.ptr_setAddr pos) rfl (fun _ _ => rfl) hon hok⟩

include hsb h in
/-- The address of a block a process has taken is stored in the indirect block of an inode. -/
theorem Disk.setInd {k : ℕ} (hX : X < sb.ninodes) (hL : node X = .live L)
    (hb : owner b = some (.pend p)) (hn : L.ptr NDIRECT ≠ 0) (hk : k < NINDIRECT) (hz : L.ind k = 0) :
    b ≠ 0 ∧ owner (L.ptr NDIRECT) = some (.node X NDIRECT) ∧ (L.setInd k b (blk b)).Ok n ∧
      Disk n sb (update blk (L.ptr NDIRECT) ((blk (L.ptr NDIRECT)).setWord 4 (4 * k) b))
        (update node X (.live (L.setInd k b (blk b))))
        (update owner b (some (.node X (NDIRECT + 1 + k)))) := by
  have hbody := h.body X hX
  rw [hL] at hbody
  have hrange := h.range b (by simp [hb])
  have hptr : ∀ pos, (node X).ptr pos = L.ptr pos := fun pos => by rw [hL]; rfl
  have hind : owner (L.ptr NDIRECT) = some (.node X NDIRECT) := by
    have := h.refers X NDIRECT
    rw [hptr] at this
    exact this hn
  have hne : b ≠ 0 := by
    have := hsb.bmapstart_lt
    omega
  have hptr0 : L.ptr (NDIRECT + 1 + k) = 0 := by
    rw [Live.ptr, dif_neg (by omega), Nat.add_sub_cancel_left, hz]
  have hok : (L.setInd k b (blk b)).Ok n := by
    refine (Live.grown_setInd hz).ok hbody.2.2.2 (fun j hj => ?_) fun hn' => absurd hn' hn
    have hjk : j ≠ k := by omega
    simpa only [Live.setInd, update_of_ne hjk] using hbody.2.2.2.ind_out j hj
  refine ⟨hne, hind, hok, h.attach hsb hX hL hb hptr0 (fun pos => Live.ptr_setInd pos) rfl (fun b' hb' => ?_)
    (hbody.2.2.1.setInd hn (fun bn hbn he => ?_) ?_ ?_) hok⟩
  · refine update_of_ne ?_ ..
    rintro rfl
    exact hb' NDIRECT hind
  · have hinj := @Disk.ptr_inj _ _ _ _ _ _ X h (placeOf bn) X NDIRECT
    rw [hptr, hptr] at hinj
    exact Live.placeOf_ne (hinj he hbn).2
  · rintro rfl
    simp [hind] at hb
  · have := hsb.size_le
    simp only [FSSIZE] at this
    omega

include hsb h in
/-- A block of an inode is overwritten. -/
theorem Disk.setBlk {bn : ℕ} {m : Bytes} (hX : X < sb.ninodes) (hL : node X = .live L)
    (hb : L.addr bn ≠ 0) (hok : (L.setBlk bn m).Ok n) :
    owner (L.addr bn) = some (.node X (placeOf bn)) ∧
      Disk n sb (update blk (L.addr bn) m) (update node X (.live (L.setBlk bn m))) owner := by
  have hbody := h.body X hX
  rw [hL] at hbody
  have hptr : ∀ pos, (node X).ptr pos = L.ptr pos := fun pos => by rw [hL]; rfl
  have hinj : ∀ pos, L.ptr pos ≠ 0 → pos ≠ placeOf bn → L.ptr pos ≠ L.addr bn := by
    intro pos hpos hne he
    have hinj := @Disk.ptr_inj _ _ _ _ _ _ X h pos X (placeOf bn)
    rw [hptr, hptr] at hinj
    exact hne (hinj he hpos).2
  have hown : owner (L.addr bn) = some (.node X (placeOf bn)) := by
    have hrefers := h.refers X (placeOf bn)
    rw [hptr] at hrefers
    exact hrefers hb
  refine ⟨hown, h.setLive hsb hX hL (fun _ => rfl) rfl (fun b' hb' => ?_) ?_ hok⟩
  · refine update_of_ne ?_ ..
    rintro rfl
    exact hb' _ hown
  · exact hbody.2.2.1.setBlk (fun hne => hinj _ hne Live.placeOf_ne.symm)
      fun bn' hbn' hne => hinj _ hbn' fun he => hne (Live.placeOf_inj.1 he)

include hsb h in
/-- A process takes a free block from the bitmap. -/
theorem Disk.mark (hb : b < sb.size) (hbit : bitOf sb blk b = false) :
    owner b = none ∧ Disk n sb (update blk (BBLOCK b sb) ((blk (BBLOCK b sb)).setBit (b % BPB)))
      node (update owner b (some (.pend p))) := by
  obtain ⟨hbmap, hdata⟩ := hsb.bblock hb
  have hnone : ¬(b < sb.dataStart ∨ owner b ≠ none) := by
    rw [← h.bits b hb, hbit]
    simp
  rw [not_or, not_not] at hnone
  obtain ⟨hge, hnone⟩ := hnone
  have hsame : ∀ b', b' ≠ BBLOCK b sb →
      update blk (BBLOCK b sb) ((blk (BBLOCK b sb)).setBit (b % BPB)) b' = blk b' :=
    fun b' hb' => update_of_ne hb' ..
  have hne : ∀ b', owner b' ≠ none → b' ≠ b := by
    rintro b' hb' rfl
    exact hb' hnone
  refine ⟨hnone, ?_, fun Y hY => ?_, h.out, fun Y pos hpos => ?_, fun b' Y pos hown => ?_,
    fun b' hb' => ?_, fun b' hb' => ?_⟩
  · rw [hsame 1 ?_, h.sb_block]
    have := hsb.iblock hsb.root_lt
    omega
  · have hi := hsb.iblock hY
    refine (h.body Y hY).congr (dinodeOf_congr (hsame _ (by omega))) fun pos hpos => hsame _ ?_
    have := (h.ptr_range hpos).1
    omega
  · rw [update_of_ne (hne _ (by simp [h.refers Y pos hpos]))]
    exact h.refers Y pos hpos
  · rcases eq_or_ne b' b with rfl | hbb
    · simp at hown
    · rw [update_of_ne hbb] at hown
      exact h.owned b' Y pos hown
  · rcases eq_or_ne b' b with rfl | hbb
    · exact ⟨not_lt.mp hge, hb⟩
    · rw [update_of_ne hbb] at hb'
      exact h.range b' hb'
  · rcases eq_or_ne b' b with rfl | hbb
    · rw [bitOf, update_self, Bytes.bit_setBit]
      simp
    · have hbit' : bitOf sb (update blk (BBLOCK b sb)
          ((blk (BBLOCK b sb)).setBit (b % BPB))) b' = bitOf sb blk b' := by
        by_cases hblk : BBLOCK b' sb = BBLOCK b sb
        · have hmod : b % BPB ≠ b' % BPB := by
            simp only [BBLOCK, BPB, BSIZE] at hblk ⊢
            omega
          rw [bitOf, bitOf, hblk, update_self, Bytes.bit_setBit]
          simp [hmod]
        · exact bitOf_congr (hsame _ hblk)
      rw [hbit', update_of_ne hbb]
      exact h.bits b' hb'

include hsb h in
/-- A process overwrites a block it has taken. -/
theorem Disk.writePend {m : Bytes} (hb : owner b = some (.pend p)) : Disk n sb (update blk b m) node owner := by
  have hdata := (h.range b (by simp [hb])).1
  have hsame : ∀ b', b' ≠ b → update blk b m b' = blk b' :=
    fun b' hb' => update_of_ne hb' ..
  have hstart := hsb.bmapstart_lt
  have hroot := hsb.iblock hsb.root_lt
  refine ⟨?_, fun Y hY => ?_, h.out, h.refers, h.owned, h.range, fun b' hb' => ?_⟩
  · rw [hsame 1 (by omega), h.sb_block]
  · have hi := hsb.iblock hY
    refine (h.body Y hY).congr (dinodeOf_congr (hsame _ (by omega))) fun pos hpos => hsame _ ?_
    intro he
    have := h.refers Y pos hpos
    rw [he, hb] at this
    cases this
  · have := hsb.bblock hb'
    rw [bitOf_congr (hsame _ (by omega))]
    exact h.bits b' hb'

include hsb h in
/-- Replace inode `X` on disk. -/
theorem Disk.writeInode {B : Body} {d : Dinode} (hX : X < sb.ninodes) (hd : d.Fits)
    (hB : ∀ blk', dinodeOf sb blk' X = d →
      (∀ pos, (node X).ptr pos ≠ 0 → blk' ((node X).ptr pos) = blk ((node X).ptr pos)) →
      BodyOk n sb blk' X B)
    (hptr : ∀ pos, B.ptr pos = (node X).ptr pos) :
    Disk n sb (update blk (IBLOCK X sb) (Dinode.write (blk (IBLOCK X sb)) X d))
      (update node X B) owner := by
  have hi := hsb.iblock hX
  have hstart := hsb.bmapstart_lt
  have hsame : ∀ b', b' ≠ IBLOCK X sb → update blk (IBLOCK X sb)
      (Dinode.write (blk (IBLOCK X sb)) X d) b' = blk b' := fun b' hb' => update_of_ne hb' ..
  have hself : dinodeOf sb (update blk (IBLOCK X sb)
      (Dinode.write (blk (IBLOCK X sb)) X d)) X = d := by
    rw [dinodeOf, update_self, Dinode.read_write hd]
  have hdata : ∀ b', owner b' ≠ none → b' ≠ IBLOCK X sb := by
    intro b' hb'
    have := (h.range b' hb').1
    omega
  refine h.replace hX (hsame 1 (by omega)) (hB _ hself fun pos hpos => ?_) ?_ ?_ ?_ ?_
    (fun _ _ _ _ => Iff.rfl) h.range ?_
  · exact hsame _ (hdata _ (by simp [h.refers X pos hpos]))
  · intro Y hY hYX
    by_cases hblk : IBLOCK Y sb = IBLOCK X sb
    · have hmod : Y % IPB ≠ X % IPB := by
        simp only [IBLOCK, IPB, BSIZE] at hblk ⊢
        omega
      rw [dinodeOf, dinodeOf, hblk, update_self, Dinode.read_write_of_ne hmod]
    · exact dinodeOf_congr (hsame _ hblk)
  · intro b' Y pos _ hown
    exact hsame b' (hdata b' (by simp [hown]))
  · intro pos hpos
    rw [hptr] at hpos ⊢
    exact h.refers X pos hpos
  · intro b' pos hown
    rw [hptr]
    exact h.owned b' X pos hown
  · intro b' hb'
    have := hsb.bblock hb'
    rw [bitOf_congr (hsame _ (by omega))]
    exact h.bits b' hb'

include hsb h in
/-- `iupdate` of an inode in use. -/
theorem Disk.iupdate (hX : X < sb.ninodes) (hL : node X = .live L) :
    Disk n sb (update blk (IBLOCK X sb) (Dinode.write (blk (IBLOCK X sb)) X L.c))
      (update node X (.live { L with d := L.c })) owner := by
  have hbody := h.body X hX
  rw [hL] at hbody
  refine h.writeInode hsb hX (h.fits hsb hX hL) (fun blk' hd hblk => ?_) fun pos => by rw [hL]; rfl
  rw [hL] at hblk
  refine ⟨hd, hbody.2.2.2.type_ne, ⟨fun hne j hj => ?_, fun bn hne => ?_⟩, ?_⟩
  · exact (congrArg (fun m : Bytes => m.word 4 (4 * j)) (hblk NDIRECT hne)).trans
      (hbody.2.2.1.ind hne j hj)
  · exact (hblk (placeOf bn) hne).trans (hbody.2.2.1.blk bn hne)
  · obtain ⟨h1, h2, h3, h4, h5, h6, h7⟩ := hbody.2.2.2
    exact ⟨h1, h2, h3, h4, h5, h6, h7⟩

end

end Xv6.Fs
