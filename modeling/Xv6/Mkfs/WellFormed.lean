import Xv6.Mkfs.Image

/-!
# When the image is well formed

`mkfs` tests neither of its counters against the limits in the superblock, and rounds the size of the root
directory after its blocks have been laid out.
-/

namespace Xv6.Mkfs

open Lib Fs

variable {s : Img} {L : ℕ → Live} {data : ℕ → List UInt8} {i b bn : ℕ} {files : List InFile}

/-! ## Well-formed images -/

/-- `mkfs` has handed out the inode `i`. -/
def Allocated (s : Img) (i : ℕ) : Prop := 0 < i ∧ i < s.freeinode

/-- The address of block `bn` of the inode `i`, as it is in the image. -/
def addrAt (s : Img) (i bn : ℕ) : ℕ :=
  let d := dinodeOf sb s.disk i
  if bn < NDIRECT then d.addrs (Fin.ofNat _ bn)
  else if d.addrs (Fin.last NDIRECT) = 0 ∨ MAXFILE ≤ bn then 0
  else (s.disk (d.addrs (Fin.last NDIRECT))).word 4 (4 * (bn - NDIRECT))

/-- The inode `i` refers to the block `b`. -/
def Uses (s : Img) (i b : ℕ) : Prop :=
  b ≠ 0 ∧ ((dinodeOf sb s.disk i).addrs (Fin.last NDIRECT) = b ∨ ∃ bn, addrAt s i bn = b)

structure WellFormed (s : Img) : Prop where
  inum : ∀ i, Allocated s i → i < sb.ninodes
  low : ∀ b < nmeta, bitOf sb s.disk b = true
  used : ∀ i b, Allocated s i → Uses s i b → b < sb.size ∧ bitOf sb s.disk b = true
  shared : ∀ i i' b, Allocated s i → Allocated s i' → Uses s i b → Uses s i' b → i = i'
  full : ∀ i bn, Allocated s i → bn < ((dinodeOf sb s.disk i).size + (BSIZE - 1)) / BSIZE → addrAt s i bn ≠ 0

/-! ## The counter of inodes -/

/-- Code that hands out no inode. -/
def Quiet {α : Type} (x : M α) : Prop := ∀ s, Exec.wp (fun _ => True) x (fun _ s' => s'.freeinode = s.freeinode) s

section

variable {α β : Type} {d : Dinode}

theorem Quiet.pure {a : α} : Quiet (Pure.pure a : M α) := fun _ => rfl

theorem Quiet.throw {e : Stop} : Quiet (MonadExcept.throw e : M α) := fun _ => trivial

theorem Quiet.bind {x : M α} {f : α → M β} (hx : Quiet x) (hf : ∀ a, Quiet (f a)) : Quiet (x >>= f) := by
  intro s
  rw [Exec.wp_bind]
  exact Exec.wp_mono (hx s) fun a s' hs => Exec.wp_mono (hf a s') fun _ _ h => h.trans hs

theorem Quiet.ite {p : Prop} [Decidable p] {x y : M α} (hx : Quiet x) (hy : Quiet y) : Quiet (if p then x else y) := by
  split_ifs
  · exact hx
  · exact hy

theorem quiet_rsect {sec : ℕ} : Quiet (rsect sec) := by
  intro s
  rw [rsect, Exec.wp_bind, Exec.wp_get]
  split_ifs
  · rfl
  · trivial

theorem quiet_wsect {sec : ℕ} {m : Bytes} : Quiet (wsect sec m) := fun _ => rfl

theorem quiet_nextBlock : Quiet nextBlock := fun _ => rfl

theorem quiet_winode : Quiet (winode i d) := .bind quiet_rsect fun _ => quiet_wsect

theorem quiet_rinode : Quiet (rinode i) := .bind quiet_rsect fun _ => .pure

theorem quiet_address {j : Fin (NDIRECT + 1)} : Quiet (address d j) :=
  .ite (.bind quiet_nextBlock fun _ => .pure) .pure

theorem quiet_locate {fbn : ℕ} : Quiet (locate d fbn) :=
  .ite (.bind quiet_address fun _ => .pure) <| .bind quiet_address fun _ => .bind quiet_rsect fun _ =>
    .ite (.bind quiet_nextBlock fun _ => .bind quiet_wsect fun _ => .pure) .pure

theorem quiet_iappendLoop {fuel off : ℕ} {p : List UInt8} : Quiet (iappendLoop fuel d off p) := by
  induction fuel generalizing d off p with
  | zero => exact .pure
  | succ fuel ih =>
    exact .ite .pure <| .ite (.bind quiet_locate fun _ => .bind quiet_rsect fun _ => .bind quiet_wsect fun _ => ih)
      .throw

theorem quiet_iappend {p : List UInt8} : Quiet (iappend i p) :=
  .bind quiet_rinode fun _ => .bind quiet_iappendLoop fun _ => quiet_winode

theorem quiet_iappendAll {cs : List (List UInt8)} : Quiet (iappendAll i cs) := by
  induction cs with
  | nil => exact .pure
  | cons c cs ih => exact .bind quiet_iappend fun _ => ih

theorem wp_freeinode_ialloc {type : Short} :
    Exec.wp (fun _ => True) (ialloc type) (fun i s' => i = s.freeinode ∧ s'.freeinode = s.freeinode + 1) s := by
  simp only [ialloc, nextInode, Exec.wp_bind, Exec.wp_get, Exec.wp_modify, Exec.wp_pure]
  exact Exec.wp_mono (quiet_winode _) fun _ _ h => ⟨rfl, h⟩

theorem wp_freeinode_addFile {f : InFile} :
    Exec.wp (fun _ => True) (addFile f) (fun _ s' => s'.freeinode = s.freeinode + 1) s := by
  rw [addFile]
  split_ifs
  · trivial
  cases f.chunks with
  | none => trivial
  | some cs =>
    dsimp only
    rw [Exec.wp_bind]
    refine Exec.wp_mono wp_freeinode_ialloc fun _ s₁ h => ?_
    exact Exec.wp_mono (Quiet.bind quiet_iappend (fun _ => quiet_iappendAll) s₁) fun _ _ h' => h'.trans h.2

theorem wp_freeinode_addFiles :
    Exec.wp (fun _ => True) (addFiles files) (fun _ s' => s'.freeinode = s.freeinode + files.length) s := by
  induction files generalizing s with
  | nil => rfl
  | cons f files ih =>
    rw [addFiles, Exec.wp_bind]
    refine Exec.wp_mono wp_freeinode_addFile fun _ s₁ h => Exec.wp_mono ih fun _ s₂ h' => ?_
    rw [List.length_cons]
    omega

theorem quiet_fixRoot : Quiet fixRoot := .bind quiet_rinode fun _ => quiet_winode

theorem quiet_balloc {used : ℕ} : Quiet (balloc used) := .ite quiet_wsect .throw

/-- Every file gets an inode, whether there is room for it or not. -/
theorem freeinode_of_makes (h : Makes files s) : s.freeinode = files.length + 2 := by
  refine Exec.wp_ok (E := fun _ => True) (Q := fun _ s => s.freeinode = files.length + 2) ?_ h
  rw [main, Exec.wp_bind]
  refine Exec.wp_mono (quiet_wsect _) fun _ s₁ h₁ => ?_
  rw [Exec.wp_bind]
  refine Exec.wp_mono wp_freeinode_ialloc fun i s₂ h₂ => ?_
  have hi : s₁.freeinode = 1 := h₁
  rw [if_pos (h₂.1.trans hi), Exec.wp_bind]
  refine Exec.wp_mono (quiet_iappend _) fun _ s₃ h₃ => ?_
  rw [Exec.wp_bind]
  refine Exec.wp_mono (quiet_iappend _) fun _ s₄ h₄ => ?_
  rw [Exec.wp_bind]
  refine Exec.wp_mono wp_freeinode_addFiles fun _ s₅ h₅ => ?_
  have hend : Quiet (do fixRoot; let s ← get; balloc s.freeblock : M Unit) :=
    .bind quiet_fixRoot fun _ => .bind (fun _ => rfl) fun _ => quiet_balloc
  refine Exec.wp_mono (hend s₅) fun _ s₆ h₆ => ?_
  have := h₂.2
  omega

end

/-! ## The finished image -/

theorem bit_bits {n k : ℕ} : (bits n).bit k = decide (k < n) := by
  induction n with
  | zero => simp [bits, Bytes.bit]
  | succ n ih =>
    rw [bits, Bytes.bit_setBit, ih]
    by_cases hk : k = n
    · simp [hk]
    · have : n ≠ k := Ne.symm hk
      simp [this]
      omega

theorem finish_disk (hb : nmeta ≤ b) : (finish s).disk b = s.disk b := by
  have hroot := iblock_lt (i := ROOTINO) (by decide)
  have hm := bmapstart_lt
  rw [finish]
  dsimp only
  rw [Function.update_of_ne (by omega), Function.update_of_ne (by omega)]

theorem finish_bit (hb : b < FSSIZE) : bitOf sb (finish s).disk b = decide (b < s.freeblock) := by
  have hlt : b < BPB := hb.trans (by decide)
  have hblock : BBLOCK b sb = sb.bmapstart := by rw [BBLOCK, Nat.div_eq_of_lt hlt, Nat.zero_add]
  rw [bitOf, hblock, Nat.mod_eq_of_lt hlt, finish]
  dsimp only
  rw [Function.update_self, bit_bits]

section

variable (h : Built s L data) (hlim : s.freeinode ≤ limit)

include h hlim

theorem finish_dinode (hi : Allocated s i) :
    dinodeOf sb (finish s).disk i =
      { (L i).c with size := if i = ROOTINO then rounded (data i).length else (data i).length } := by
  have hib := iblock_lt (hi.2.trans_le hlim)
  have hroot := h.table i hi.1 hi.2
  rw [← h.size i]
  have hmap : dinodeOf sb (finish s).disk i = dinodeOf sb
      (Function.update s.disk (IBLOCK ROOTINO sb) (Dinode.write (s.disk (IBLOCK ROOTINO sb)) ROOTINO
        { dinodeOf sb s.disk ROOTINO with size := rounded (dinodeOf sb s.disk ROOTINO).size })) i := by
    refine dinodeOf_congr ?_
    rw [finish]
    dsimp only
    exact Function.update_of_ne (by omega) _ _
  rw [hmap]
  split_ifs with he
  · subst he
    rw [hroot]
    refine dinodeOf_winode_self (h.store.fits h.bound rfl ?_)
    have hmax : (data ROOTINO).length ≤ 71680 := h.max ROOTINO
    rw [h.size]
    simp only [rounded, BSIZE]
    omega
  · rw [dinodeOf_winode_of_ne he, hroot]

theorem finish_addr (hi : Allocated s i) : addrAt (finish s) i bn = (L i).addr bn := by
  have hptr : (L i).c.addrs (Fin.last NDIRECT) = (L i).ptr NDIRECT := rfl
  rw [addrAt, finish_dinode h hlim hi]
  dsimp only
  rw [hptr]
  split_ifs with hbn hz
  · rw [Live.addr, placeOf, if_pos hbn, Live.ptr, dif_pos (by omega)]
    congr 1
    exact Fin.ext (Nat.mod_eq_of_lt (by omega))
  · by_contra hne
    have hlt := (h.store.full i bn).1 (Ne.symm hne)
    obtain hz | hle := hz
    · refine h.store.ind i ?_ hz
      exact (Nat.mul_le_mul_right _ (Nat.le_of_not_lt hbn)).trans_lt hlt
    · have := (Nat.mul_le_mul_right BSIZE hle).trans_lt hlt
      exact absurd (h.max i) (Nat.not_le.2 this)
  · obtain ⟨hne, hlt⟩ := not_or.1 hz
    obtain ⟨j, rfl⟩ : ∃ j, bn = NDIRECT + j := ⟨_, (Nat.add_sub_cancel' (Nat.le_of_not_lt hbn)).symm⟩
    have hj : j < NINDIRECT := by
      simp only [MAXFILE] at hlt
      omega
    rw [finish_disk (h.store.range i NDIRECT hne).1, Nat.add_sub_cancel_left, (h.store.on i).ind hne j hj, Live.addr,
      placeOf, if_neg hbn, Live.ptr, dif_neg (by omega)]
    congr 1
    omega

theorem finish_uses (hi : Allocated s i) : Uses (finish s) i b ↔ ∃ pos, (L i).ptr pos = b ∧ b ≠ 0 := by
  have hlast : (dinodeOf sb (finish s).disk i).addrs (Fin.last NDIRECT) = (L i).ptr NDIRECT := by
    rw [finish_dinode h hlim hi]
    rfl
  rw [Uses, hlast]
  constructor
  · rintro ⟨hb, hl | ⟨bn, hbn⟩⟩
    · exact ⟨NDIRECT, hl, hb⟩
    · rw [finish_addr h hlim hi] at hbn
      exact ⟨_, hbn, hb⟩
  · rintro ⟨pos, hpos, hb⟩
    refine ⟨hb, ?_⟩
    by_cases hl : pos = NDIRECT
    · exact .inl (hl ▸ hpos)
    · -- every other place has the address of a block
      obtain ⟨bn, rfl⟩ : ∃ bn, pos = placeOf bn := by
        by_cases hlt : pos < NDIRECT
        · exact ⟨pos, by rw [placeOf, if_pos hlt]⟩
        · refine ⟨pos - 1, ?_⟩
          rw [placeOf, if_neg (by omega)]
          omega
      exact .inr ⟨bn, (finish_addr h hlim hi).trans hpos⟩

/-- The image is well formed but for the number of inodes and the last block of the root directory. -/
theorem wellFormed_finish (hn : s.freeinode ≤ NINODES) (hroot : (data ROOTINO).length % BSIZE ≠ 0) :
    WellFormed (finish s) where
  inum i hi := hi.2.trans_le hn
  low b hb := by
    have := nmeta_lt
    have := h.store.fb_ge
    rw [finish_bit (by omega)]
    simp
    omega
  used i b hi hb := by
    obtain ⟨pos, rfl, hne⟩ := (finish_uses h hlim hi).1 hb
    have hlt := (h.store.range i pos hne).2
    have hfs := h.bound
    refine ⟨hlt.trans_le hfs, ?_⟩
    rw [finish_bit (by omega)]
    simpa using hlt
  shared i i' b hi hi' hb hb' := by
    obtain ⟨pos, hpos, hne⟩ := (finish_uses h hlim hi).1 hb
    obtain ⟨pos', hpos', -⟩ := (finish_uses h hlim hi').1 hb'
    exact (h.store.inj i pos i' pos' (hpos.trans hpos'.symm) (by rwa [hpos])).1
  full i bn hi hbn := by
    rw [finish_dinode h hlim hi] at hbn
    rw [finish_addr h hlim hi, h.store.full]
    dsimp only at hbn
    split_ifs at hbn with he
    · subst he
      simp only [rounded, BSIZE] at hbn hroot ⊢
      omega
    · simp only [BSIZE] at hbn ⊢
      omega

theorem not_wellFormed_finish (hroot : (data ROOTINO).length % BSIZE = 0) (halloc : Allocated s ROOTINO) :
    ¬ WellFormed (finish s) := by
  intro hw
  have hfull := hw.full ROOTINO ((data ROOTINO).length / BSIZE) halloc
  rw [finish_dinode h hlim halloc, finish_addr h hlim halloc, h.store.full] at hfull
  have := hfull (by simp only [rounded, BSIZE, if_true]; omega)
  simp only [BSIZE] at this hroot
  omega

end

theorem length_addAll {fi : ℕ} (hfi : ROOTINO < fi) :
    (addAll fi data files ROOTINO).length = (data ROOTINO).length + DIRENT * files.length := by
  induction files generalizing fi data with
  | nil => rfl
  | cons f files ih =>
    rw [addAll, ih (by omega), addData_root (by omega), List.length_append, length_entry, List.length_cons,
      Nat.mul_succ]
    omega

/-- The image that `mkfs` leaves when there is room for its inodes. -/
theorem Makes.finish (h : Makes files s) (hlim : files.length + 2 ≤ limit) :
    ∃ s₁ L, Built s₁ L (addAll 2 rootData files) ∧ s₁.freeinode = files.length + 2 ∧ s = Mkfs.finish s₁ := by
  have hwp : Exec.wp (fun _ => ¬ False) (main files)
      (fun _ s => ∃ s₁ L, Built s₁ L (addAll 2 rootData files) ∧ s₁.freeinode = files.length + 2 ∧ s = Mkfs.finish s₁)
      blank := wp_main hlim False.elim fun s₁ L hb hfi => ⟨s₁, L, hb, hfi, rfl⟩
  exact Exec.wp_ok hwp h

/-- An image that `mkfs` has written with status 0 is well formed exactly when there are at most
`NINODES - 2` files and the directory entries do not fill their last block. -/
theorem makes_wellFormed_iff (h : Makes files s) :
    WellFormed s ↔ files.length + 2 ≤ NINODES ∧ DIRENT * (files.length + 2) % BSIZE ≠ 0 := by
  have hfi := freeinode_of_makes h
  by_cases hn : files.length + 2 ≤ NINODES
  · have hlim : files.length + 2 ≤ limit := hn.trans (by decide)
    obtain ⟨s₁, L, hb, hfi₁, rfl⟩ := h.finish hlim
    have hlen : (addAll 2 rootData files ROOTINO).length = DIRENT * (files.length + 2) := by
      rw [length_addAll (by decide), length_rootData, ← Nat.mul_add, Nat.add_comm]
    constructor
    · intro hw
      refine ⟨hn, fun hz => not_wellFormed_finish hb (by omega) (by rw [hlen, hz]) ⟨by decide, ?_⟩ hw⟩
      rw [hfi₁]
      exact (by decide : ROOTINO < 2).trans_le (Nat.le_add_left _ _)
    · rintro ⟨-, hz⟩
      exact wellFormed_finish hb (by omega) (by omega) (by rwa [hlen])
  · refine ⟨fun hw => absurd ?_ hn, fun h => absurd h.1 hn⟩
    have hlast := hw.inum (files.length + 1) ⟨Nat.succ_pos _, by omega⟩
    have hsb : sb.ninodes = NINODES := rfl
    omega

/-- When the files fit and their names are plain, `mkfs` succeeds. -/
theorem exists_makes (hlim : files.length + 2 ≤ limit) (hfit : Fit files) : ∃ s, Makes files s := by
  have hwp : Exec.wp (fun _ => ¬ True) (main files) (fun _ _ => True) blank :=
    wp_main hlim (fun _ => hfit) fun _ _ _ _ => trivial
  simp only [not_true_eq_false] at hwp
  obtain ⟨⟨⟩, s, hs, -⟩ := Exec.wp_returns hwp
  exact ⟨s, hs⟩

/-- An empty file with a name of one character. -/
def emptyFile (c : Fin 30) : InFile where
  arg := [UInt8.ofNat (97 + c)]
  chunks := some []
  chunk_ne := by simp
  chunk_le := by simp
  arg_ne := by
    have hne : ∀ c : Fin 30, UInt8.ofNat (97 + c) ≠ 0 := by decide
    simpa using hne c

/-- Thirty empty files. With `.` and `..` their entries fill a block. -/
def thirty : List InFile := (List.finRange 30).map emptyFile

theorem fit_thirty : Fit thirty := by
  refine ⟨fun f hf => ?_, by decide⟩
  obtain ⟨c, -, rfl⟩ := List.mem_map.1 hf
  refine ⟨?_, by simp [emptyFile], by simp [emptyFile, InFile.bytes]⟩
  clear hf
  revert c
  decide

theorem makes_wellFormed_iff_thirty : ∃ s, Makes thirty s ∧
    (WellFormed s ↔ thirty.length + 2 ≤ NINODES ∧ DIRENT * (thirty.length + 2) % BSIZE ≠ 0) := by
  obtain ⟨s, hs⟩ := exists_makes (by decide) fit_thirty
  exact ⟨s, hs, makes_wellFormed_iff hs⟩

/-- The root directory of thirty files has a hole. -/
theorem thirty_not_wellFormed : ∃ s, Makes thirty s ∧ ¬ WellFormed s := by
  obtain ⟨s, hs⟩ := exists_makes (by decide) fit_thirty
  obtain ⟨s₁, L, hb, hfi, rfl⟩ := hs.finish (by decide)
  have hlen : (addAll 2 rootData thirty ROOTINO).length = BSIZE := by
    rw [length_addAll (by decide), length_rootData]
    decide
  have hfi' : s₁.freeinode = 32 := hfi
  refine ⟨_, hs, not_wellFormed_finish hb (by rw [hfi']; decide) (by rw [hlen, Nat.mod_self]) ⟨by decide, ?_⟩⟩
  rw [hfi']
  decide

end Xv6.Mkfs
