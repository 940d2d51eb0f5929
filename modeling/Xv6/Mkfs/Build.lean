import Xv6.Fs.Disk
import Xv6.Mkfs.Main

/-!
# What `mkfs` has built

The invariant of `mkfs`: the inodes it has handed out, with their contents, and the blocks below the
counter `freeblock`, each of which belongs to one place of one inode. Blocks from the counter on are
still zero.
-/

namespace Xv6.Mkfs

open Lib Fs
open Function (update update_self update_of_ne update_eq_self)

/-! ## Pointers -/

section

variable {fb : ℕ} {L : ℕ → Live} {cur : ℕ} {L' : Live} {disk disk' : ℕ → Bytes}

/-- Every block that an inode refers to has been handed out, for one place of one inode. -/
structure Ptrs (fb : ℕ) (L : ℕ → Live) : Prop where
  range : ∀ i pos, (L i).ptr pos ≠ 0 → nmeta ≤ (L i).ptr pos ∧ (L i).ptr pos < fb
  inj : ∀ i pos i' pos', (L i).ptr pos = (L i').ptr pos' → (L i).ptr pos ≠ 0 → i = i' ∧ pos = pos'

/-- The inode `cur` gets the next block at the place `pos₀`. -/
theorem Ptrs.add {pos₀ : ℕ} (h : Ptrs fb L) (hfb : nmeta ≤ fb)
    (hptr : ∀ pos, L'.ptr pos = if pos = pos₀ then fb else (L cur).ptr pos) :
    Ptrs (fb + 1) (update L cur L') := by
  have hcases : ∀ i pos, (update L cur L' i).ptr pos = if i = cur ∧ pos = pos₀ then fb else (L i).ptr pos := by
    intro i pos
    rcases eq_or_ne i cur with rfl | hi
    · simp [hptr]
    · simp [hi]
  refine ⟨fun i pos hne => ?_, fun i pos i' pos' heq hne => ?_⟩
  · rw [hcases] at hne ⊢
    split_ifs at hne ⊢ with hc
    · exact ⟨hfb, Nat.lt_succ_self fb⟩
    · obtain ⟨hge, hlt⟩ := h.range i pos hne
      exact ⟨hge, hlt.trans (Nat.lt_succ_self fb)⟩
  · rw [hcases] at heq hne
    rw [hcases] at heq
    split_ifs at heq hne with hc hc' hc'
    · exact ⟨hc.1.trans hc'.1.symm, hc.2.trans hc'.2.symm⟩
    · have := (h.range i' pos' (heq ▸ hne)).2
      omega
    · have := (h.range i pos hne).2
      omega
    · exact h.inj i pos i' pos' heq hne

theorem Ptrs.keep (h : Ptrs fb L) (hptr : ∀ pos, L'.ptr pos = (L cur).ptr pos) : Ptrs fb (update L cur L') := by
  have hcases : ∀ i pos, (update L cur L' i).ptr pos = (L i).ptr pos := by
    intro i pos
    rcases eq_or_ne i cur with rfl | hi
    · simp [hptr]
    · simp [hi]
  refine ⟨fun i pos => ?_, fun i pos i' pos' => ?_⟩
  · rw [hcases]
    exact h.range i pos
  · rw [hcases, hcases]
    exact h.inj i pos i' pos'

theorem on_congr {L : Live} (h : L.On disk) (hd : ∀ pos, L.ptr pos ≠ 0 → disk' (L.ptr pos) = disk (L.ptr pos)) :
    L.On disk' := by
  refine ⟨fun hn j hj => ?_, fun bn hbn => ?_⟩
  · rw [hd NDIRECT hn]
    exact h.ind hn j hj
  · rw [Live.addr, hd _ hbn]
    exact h.blk bn hbn

end

/-! ## The invariant -/

theorem nmeta_eq : nmeta = 59 := rfl

theorem word_zero {o : ℕ} : Bytes.word 4 (fun _ => 0) o = 0 := rfl

/-- The blocks of inodes with room for `cap i` bytes each. -/
structure Store (disk : ℕ → Bytes) (fb : ℕ) (L : ℕ → Live) (cap : ℕ → ℕ) : Prop extends Ptrs fb L where
  fb_ge : nmeta ≤ fb
  on : ∀ i, (L i).On disk
  full : ∀ i bn, (L i).addr bn ≠ 0 ↔ bn * BSIZE < cap i
  ind : ∀ i, NDIRECT * BSIZE < cap i → (L i).ptr NDIRECT ≠ 0
  zero : ∀ b, fb ≤ b → disk b = fun _ => 0

/-- The blocks that `len` bytes take, with the indirect block. -/
def blocksOf (len : ℕ) : ℕ := (len + (BSIZE - 1)) / BSIZE + if NDIRECT * BSIZE < len then 1 else 0

section

variable {s : Img} {L : ℕ → Live} {cap : ℕ → ℕ} {cur off : ℕ} {L' : Live} {disk : ℕ → Bytes} {fb : ℕ} {k : ℕ}
  {s' : Img}

theorem Store.ind_zero (h : Store disk fb L cap) {i : ℕ} (hn : (L i).ptr NDIRECT = 0) (j : ℕ) : (L i).ind j = 0 := by
  by_contra hj
  have haddr : (L i).addr (NDIRECT + j) ≠ 0 := by
    have hplace : placeOf (NDIRECT + j) = NDIRECT + 1 + j := by
      rw [placeOf, if_neg (by omega)]
      omega
    rw [Live.addr, hplace, Live.ptr, dif_neg (by omega), Nat.add_sub_cancel_left]
    exact hj
  exact h.ind i ((Nat.mul_le_mul_right _ (Nat.le_add_right _ _)).trans_lt ((h.full i _).1 haddr)) hn

/-- The inode `cur` gets room for more bytes without a new block. -/
theorem Store.extend (h : Store disk fb L cap) {cap' : ℕ}
    (hcap : ∀ bn, bn * BSIZE < cap cur ↔ bn * BSIZE < cap') : Store disk fb L (update cap cur cap') := by
  refine ⟨h.toPtrs, h.fb_ge, h.on, fun i bn => ?_, fun i hi => ?_, h.zero⟩
  · rcases eq_or_ne i cur with rfl | hi
    · rw [update_self, h.full, hcap]
    · rw [update_of_ne hi, h.full]
  · rcases eq_or_ne i cur with rfl | hic
    · rw [update_self, ← hcap] at hi
      exact h.ind i hi
    · rw [update_of_ne hic] at hi
      exact h.ind i hi

/-- What becomes of the other inodes when the blocks of `cur` change. -/
theorem Store.on_other (h : Store disk fb L cap) {disk' : ℕ → Bytes} (hL' : L'.On disk')
    (hd : ∀ i, i ≠ cur → ∀ pos, (L i).ptr pos ≠ 0 → disk' ((L i).ptr pos) = disk ((L i).ptr pos)) (i : ℕ) :
    (update L cur L' i).On disk' := by
  rcases eq_or_ne i cur with rfl | hi
  · rwa [update_self]
  · rw [update_of_ne hi]
    exact on_congr (h.on i) (hd i hi)

/-- The next block becomes the block at the end of `cur`, by a direct address. -/
theorem Store.direct (h : Store disk fb L cap) {j : Fin (NDIRECT + 1)} (hj : j.val < NDIRECT)
    (hcap : cap cur = j * BSIZE) :
    Store disk (fb + 1) (update L cur ((L cur).setAddr j fb (disk fb)))
      (update cap cur (cap cur + 1)) := by
  have hfb := h.fb_ge
  refine ⟨h.toPtrs.add hfb fun pos => Live.ptr_setAddr pos, by omega, h.on_other ((h.on cur).setAddr ?_) ?_,
    fun i bn => ?_, fun i hi => ?_, fun b hb => h.zero b (by omega)⟩
  · intro he
    omega
  · exact fun _ _ _ _ => rfl
  · rcases eq_or_ne i cur with rfl | hi
    · rw [update_self, update_self, Live.addr, Live.ptr_setAddr]
      have hplace : placeOf bn = j ↔ bn = j := by
        rw [placeOf]
        split_ifs <;> omega
      by_cases hbn : bn = j
      · rw [if_pos (hplace.2 hbn), hcap, hbn]
        rw [nmeta_eq] at hfb
        omega
      · rw [if_neg fun he => hbn (hplace.1 he), ← Live.addr, h.full, hcap]
        simp only [BSIZE]
        omega
    · rw [update_of_ne hi, update_of_ne hi, h.full]
  · rcases eq_or_ne i cur with rfl | hic
    · rw [update_self, hcap] at hi
      simp only [NDIRECT, BSIZE] at hi hj
      omega
    · rw [update_of_ne hic] at hi ⊢
      exact h.ind i hi

/-- The next block becomes the indirect block of `cur`. -/
theorem Store.indirect (h : Store disk fb L cap) (hn : (L cur).ptr NDIRECT = 0) :
    Store disk (fb + 1) (update L cur ((L cur).setAddr (Fin.last NDIRECT) fb (disk fb))) cap := by
  have hfb := h.fb_ge
  refine ⟨h.toPtrs.add hfb fun pos => Live.ptr_setAddr pos, by omega, h.on_other ((h.on cur).setAddr ?_) ?_,
    fun i bn => ?_, fun i hi => ?_, fun b hb => h.zero b (by omega)⟩
  · intro _ k _
    rw [h.ind_zero hn, h.zero fb le_rfl, word_zero]
  · exact fun _ _ _ _ => rfl
  · rcases eq_or_ne i cur with rfl | hi
    · rw [update_self, Live.addr, Live.ptr_setAddr, Fin.val_last, if_neg Live.placeOf_ne, ← Live.addr, h.full]
    · rw [update_of_ne hi, h.full]
  · rcases eq_or_ne i cur with rfl | hic
    · exact absurd hn (h.ind i hi)
    · rw [update_of_ne hic]
      exact h.ind i hi

/-- The next block becomes the block at the end of `cur`, by an address in its indirect block. -/
theorem Store.byIndirect (h : Store disk fb L cap) (hn : (L cur).ptr NDIRECT ≠ 0) (hfb : fb < 256 ^ 4)
    (hcap : cap cur = (NDIRECT + k) * BSIZE) :
    Store (update disk ((L cur).ptr NDIRECT) ((disk ((L cur).ptr NDIRECT)).setWord 4 (4 * k) fb)) (fb + 1)
      (update L cur ((L cur).setInd k fb (disk fb))) (update cap cur (cap cur + 1)) := by
  have hge := h.fb_ge
  have hlt : (L cur).ptr NDIRECT < fb := (h.range cur NDIRECT hn).2
  refine ⟨h.toPtrs.add hge fun pos => Live.ptr_setInd pos, by omega,
    h.on_other ((h.on cur).setInd hn (fun bn hbn heq => ?_) (by omega) hfb) fun i hi pos hpos => ?_,
    fun i bn => ?_, fun i hi => ?_, fun b hb => ?_⟩
  · exact Live.placeOf_ne (h.inj cur _ cur _ heq hbn).2
  · exact update_of_ne (fun heq => hi (h.inj i _ cur _ heq hpos).1) _ _
  · rcases eq_or_ne i cur with rfl | hi
    · rw [update_self, update_self, Live.addr, Live.ptr_setInd]
      have hplace : placeOf bn = NDIRECT + 1 + k ↔ bn = NDIRECT + k := by
        rw [placeOf]
        split_ifs <;> omega
      by_cases hbn : bn = NDIRECT + k
      · rw [if_pos (hplace.2 hbn), hcap, hbn]
        rw [nmeta_eq] at hge
        omega
      · rw [if_neg fun he => hbn (hplace.1 he), ← Live.addr, h.full, hcap]
        simp only [BSIZE]
        omega
    · rw [update_of_ne hi, update_of_ne hi, h.full]
  · rcases eq_or_ne i cur with rfl | hic
    · rw [update_self]
      exact hn
    · rw [update_of_ne hic] at hi ⊢
      exact h.ind i hi
  · rw [update_of_ne (by omega)]
    exact h.zero b (by omega)

/-- New contents of a block of `cur`. -/
theorem Store.write (h : Store disk fb L cap) {bn : ℕ} {m : Bytes} (hbn : (L cur).addr bn ≠ 0) :
    Store (update disk ((L cur).addr bn) m) fb (update L cur ((L cur).setBlk bn m)) cap := by
  have hlt : (L cur).addr bn < fb := (h.range cur _ hbn).2
  have hon : ((L cur).setBlk bn m).On (update disk ((L cur).addr bn) m) := by
    refine ⟨fun hn j hj => ?_, fun bn' hbn' => ?_⟩
    · rw [Live.ptr_setBlk] at hn ⊢
      have hne : (L cur).ptr NDIRECT ≠ (L cur).addr bn := fun heq =>
        Live.placeOf_ne (h.inj cur _ cur _ heq hn).2.symm
      rw [update_of_ne hne]
      exact (h.on cur).ind hn j hj
    · rcases eq_or_ne bn' bn with rfl | heq
      · simp [Live.setBlk, Live.addr, Live.ptr]
      · have hne : (L cur).addr bn' ≠ (L cur).addr bn := fun he =>
          heq (Live.placeOf_inj.1 (h.inj cur _ cur _ he hbn').2)
        change update disk ((L cur).addr bn) m ((L cur).addr bn') = update (L cur).blk bn m bn'
        rw [update_of_ne hne, update_of_ne heq]
        exact (h.on cur).blk bn' hbn'
  refine ⟨h.toPtrs.keep fun pos => rfl, h.fb_ge, h.on_other hon fun i hi pos hpos => ?_, fun i bn' => ?_,
    fun i hi => ?_, fun b hb => ?_⟩
  · exact update_of_ne (fun heq => hi (h.inj i _ cur _ heq hpos).1) _ _
  · rcases eq_or_ne i cur with rfl | hi
    · rw [update_self]
      exact h.full i bn'
    · rw [update_of_ne hi]
      exact h.full i bn'
  · rcases eq_or_ne i cur with rfl | hic
    · rw [update_self]
      exact h.ind i hi
    · rw [update_of_ne hic]
      exact h.ind i hi
  · rw [update_of_ne (by omega)]
    exact h.zero b hb

/-! ## Counting blocks -/

theorem blocksOf_succ_of_dvd (h : off % BSIZE = 0) : blocksOf off + 1 ≤ blocksOf (off + 1) := by
  simp only [blocksOf, BSIZE, NDIRECT] at *
  split_ifs <;> omega

theorem blocksOf_succ_indirect : blocksOf (NDIRECT * BSIZE + 1) = blocksOf (NDIRECT * BSIZE) + 2 := by
  decide

theorem blocksOf_add {n : ℕ} (h : 0 < n) (hn : off % BSIZE + n ≤ BSIZE) : blocksOf (off + n) = blocksOf (off + 1) := by
  simp only [blocksOf, BSIZE, NDIRECT] at *
  split_ifs <;> omega

theorem blocksOf_mono {m n : ℕ} (h : m ≤ n) : blocksOf m ≤ blocksOf n := by
  simp only [blocksOf, BSIZE, NDIRECT] at *
  split_ifs <;> omega

/-! ## The code -/

/-- What the calls of `iappend` leave alone: the blocks before the data, and the inodes handed out. -/
structure Keeps (s s' : Img) : Prop where
  sectors : s'.sectors = s.sectors
  freeinode : s'.freeinode = s.freeinode
  low : ∀ b < nmeta, s'.disk b = s.disk b

theorem Keeps.refl : Keeps s s := ⟨rfl, rfl, fun _ _ => rfl⟩

theorem Keeps.trans {s'' : Img} (h : Keeps s s') (h' : Keeps s' s'') : Keeps s s'' :=
  ⟨h'.sectors.trans h.sectors, h'.freeinode.trans h.freeinode, fun b hb => (h'.low b hb).trans (h.low b hb)⟩

-- the code fails only when the files do not fit, which is `¬ F`
variable {F : Prop} {Q : Dinode × ℕ → Img → Prop} {p : List UInt8}

theorem wp_rsect {sec : ℕ} {Q : Bytes → Img → Prop} (hs : s.sectors = FSSIZE) (hsec : sec ≤ FSSIZE + 1)
    (hok : sec < FSSIZE → Q (s.disk sec) s) (hF : FSSIZE ≤ sec → ¬ F) : Exec.wp (fun _ => ¬ F) (rsect sec) Q s := by
  have hsector : sector sec = sec := Nat.mod_eq_of_lt (by simp only [FSSIZE] at hsec; omega)
  rw [rsect, Exec.wp_bind, Exec.wp_get, hsector, hs]
  split_ifs with hlt
  · exact hok hlt
  · exact hF (Nat.le_of_not_lt hlt)

theorem wp_wsect {sec : ℕ} {m : Bytes} {Q : Unit → Img → Prop} (hs : s.sectors = FSSIZE) (hsec : sec < FSSIZE)
    (hok : Q () { s with disk := update s.disk sec m }) : Exec.wp (fun _ => ¬ F) (wsect sec m) Q s := by
  have hsector : sector sec = sec := Nat.mod_eq_of_lt (by simp only [FSSIZE] at hsec; omega)
  have hmax : max s.sectors (sec + 1) = s.sectors := max_eq_left (by omega)
  rw [wsect, Exec.wp_modify, hsector, hmax]
  exact hok

theorem wp_address {din : Dinode} {j : Fin (NDIRECT + 1)} {Q : Dinode → Img → Prop}
    (hz : din.addrs j = 0 →
      Q { din with addrs := update din.addrs j s.freeblock } { s with freeblock := s.freeblock + 1 })
    (hnz : din.addrs j ≠ 0 → Q din s) : Exec.wp (fun _ => ¬ F) (address din j) Q s := by
  rw [address]
  split_ifs with h
  · exact hz h
  · exact hnz h

/-- What `locate` does: the inode has room for one more byte at its end, and `k` blocks at most have been
taken. -/
structure Located (L : ℕ → Live) (cap : ℕ → ℕ) (cur : ℕ) (s : Img) (k : ℕ) (L' : Live) (s' : Img) : Prop where
  store : Store s'.disk s'.freeblock (Function.update L cur L') (Function.update cap cur (cap cur + 1))
  keeps : Keeps s s'
  grown : Live.Grown (L cur) L'
  count : s'.freeblock ≤ s.freeblock + k
  bound : s'.freeblock ≤ FSSIZE ∨ s'.freeblock = L'.addr (cap cur / BSIZE) + 1

/-- The last block of the inode is not full. -/
theorem Store.located (h : Store s.disk s.freeblock L cap) (hfb : s.freeblock ≤ FSSIZE)
    (hne : (L cur).addr (cap cur / BSIZE) ≠ 0) : Located L cap cur s k (L cur) s := by
  have hlt := (h.full cur _).1 hne
  have hmod : cap cur % BSIZE ≠ 0 := by
    simp only [BSIZE] at *
    omega
  refine ⟨?_, .refl, .refl _, Nat.le_add_right _ _, .inl hfb⟩
  rw [update_eq_self]
  refine h.extend fun bn => ?_
  simp only [BSIZE] at *
  omega

theorem Store.dvd (h : Store disk fb L cap) (hz : (L cur).addr (cap cur / BSIZE) = 0) :
    cap cur = cap cur / BSIZE * BSIZE := by
  have := mt (h.full cur (cap cur / BSIZE)).2 (not_not.2 hz)
  simp only [BSIZE] at *
  omega

/-- The blocks that one more byte takes. -/
def need (off : ℕ) : ℕ := blocksOf (off + 1) - blocksOf off

theorem one_le_need (h : off % BSIZE = 0) : 1 ≤ need off := by
  have := blocksOf_succ_of_dvd h
  rw [need]
  omega

theorem wp_locate_direct (h : Store s.disk s.freeblock L cap)
    (hfb : s.freeblock ≤ FSSIZE) (hbn : cap cur / BSIZE < NDIRECT)
    (hQ : ∀ L' s', Located L cap cur s (need (cap cur)) L' s' → Q (L'.c, L'.addr (cap cur / BSIZE)) s') :
    Exec.wp (fun _ => ¬ F) (locate (L cur).c (cap cur / BSIZE)) Q s := by
  generalize hj : Fin.ofNat (NDIRECT + 1) (cap cur / BSIZE) = j
  have hjv : j.val = cap cur / BSIZE := by
    rw [← hj]
    exact Nat.mod_eq_of_lt (by omega)
  have haddr : ∀ L' : Live, L'.addr (cap cur / BSIZE) = L'.c.addrs j := fun L' => by
    rw [Live.addr, placeOf, if_pos hbn, ← hjv, Live.ptr, dif_pos j.isLt]
  rw [locate, if_pos hbn, Exec.wp_bind, hj]
  refine wp_address (fun hz => ?_) fun hnz => ?_
  · have hdvd : cap cur = j * BSIZE := by
      rw [hjv]
      exact h.dvd ((haddr _).trans hz)
    have hcount : 1 ≤ need (cap cur) := one_le_need (by rw [hdvd, Nat.mul_mod_left])
    have hL' := haddr ((L cur).setAddr j s.freeblock (s.disk s.freeblock))
    rw [Exec.wp_pure]
    refine hL' ▸ hQ ((L cur).setAddr j s.freeblock (s.disk s.freeblock)) _
      ⟨h.direct (by omega) hdvd, ⟨rfl, rfl, fun _ _ => rfl⟩, Live.grown_setAddr hz, ?_, .inr ?_⟩
    · show s.freeblock + 1 ≤ _
      omega
    · rw [hL']
      simp [Live.setAddr]
  · rw [Exec.wp_pure, ← haddr]
    exact hQ _ _ (h.located hfb ((haddr _).symm ▸ hnz))

/-- `locate` from the point where there is an indirect block. -/
theorem wp_locate_tail (h : Store s.disk s.freeblock L cap)
    (hs : s.sectors = FSSIZE) (hn : (L cur).ptr NDIRECT ≠ 0)
    (hfb : s.freeblock ≤ FSSIZE ∨ s.freeblock = (L cur).ptr NDIRECT + 1 ∧ (L cur).ptr NDIRECT ≤ FSSIZE)
    (hbn : NDIRECT ≤ cap cur / BSIZE) (hmax : cap cur / BSIZE < MAXFILE) (hk : cap cur % BSIZE = 0 → 1 ≤ k)
    (hF : FSSIZE ≤ (L cur).ptr NDIRECT → ¬ F)
    (hQ : ∀ L' s', Located L cap cur s k L' s' → Q (L'.c, L'.addr (cap cur / BSIZE)) s') :
    Exec.wp (fun _ => ¬ F) (do
      let indirect ← rsect ((L cur).c.addrs (Fin.last NDIRECT))
      let o := 4 * (cap cur / BSIZE - NDIRECT)
      if indirect.word 4 o = 0 then do
        let b ← nextBlock
        wsect ((L cur).c.addrs (Fin.last NDIRECT)) (indirect.setWord 4 o b)
        pure ((L cur).c, (indirect.setWord 4 o b).word 4 o)
      else pure ((L cur).c, indirect.word 4 o)) Q s := by
  obtain ⟨j, hj⟩ : ∃ j, cap cur / BSIZE = NDIRECT + j := ⟨_, (Nat.add_sub_cancel' hbn).symm⟩
  have hjlt : j < NINDIRECT := by
    simp only [MAXFILE] at hmax
    omega
  have hptr : (L cur).c.addrs (Fin.last NDIRECT) = (L cur).ptr NDIRECT := rfl
  have haddr : ∀ L' : Live, L'.addr (cap cur / BSIZE) = L'.ind j := fun L' => by
    rw [hj, Live.addr, placeOf, if_neg (by omega), Live.ptr, dif_neg (by omega)]
    congr 1
    omega
  have hlt := (h.range cur NDIRECT hn).2
  rw [hptr, Exec.wp_bind]
  refine wp_rsect hs (by omega) (fun hsec => ?_) hF
  have hword : (s.disk ((L cur).ptr NDIRECT)).word 4 (4 * j) = (L cur).ind j := (h.on cur).ind hn j hjlt
  have hfb' : s.freeblock ≤ FSSIZE := by omega
  simp only [hj, Nat.add_sub_cancel_left, hword]
  split_ifs with hz
  · have hdvd : cap cur = (NDIRECT + j) * BSIZE := by
      have := h.dvd ((haddr _).trans hz)
      rwa [hj] at this
    have hlt' : s.freeblock < 256 ^ 4 := by
      simp only [FSSIZE] at hfb'
      omega
    simp only [nextBlock, Exec.wp_bind, Exec.wp_get, Exec.wp_modify, Exec.wp_pure]
    refine wp_wsect hs hsec ?_
    rw [Bytes.word_setWord_self, Nat.mod_eq_of_lt hlt']
    have hL' := haddr ((L cur).setInd j s.freeblock (s.disk s.freeblock))
    have hind : ((L cur).setInd j s.freeblock (s.disk s.freeblock)).ind j = s.freeblock := by simp [Live.setInd]
    have hQ' := hQ ((L cur).setInd j s.freeblock (s.disk s.freeblock))
      { s with
        disk := update s.disk ((L cur).ptr NDIRECT)
          ((s.disk ((L cur).ptr NDIRECT)).setWord 4 (4 * j) s.freeblock)
        freeblock := s.freeblock + 1 }
      ⟨h.byIndirect hn hlt' hdvd, ⟨rfl, rfl, fun b hb => ?_⟩, Live.grown_setInd hz, ?_, .inr ?_⟩
    · rwa [hL', hind] at hQ'
    · exact update_of_ne (by have := (h.range cur NDIRECT hn).1; omega) _ _
    · have := hk (by rw [hdvd, Nat.mul_mod_left])
      show s.freeblock + 1 ≤ _
      omega
    · rw [hL', hind]
  · rw [Exec.wp_pure, ← haddr]
    exact hQ _ _ (h.located hfb' ((haddr _).symm ▸ hz))

theorem wp_locate (h : Store s.disk s.freeblock L cap) (hs : s.sectors = FSSIZE)
    (hfb : s.freeblock ≤ FSSIZE) (hmax : cap cur / BSIZE < MAXFILE)
    (hF : F → s.freeblock + need (cap cur) ≤ FSSIZE)
    (hQ : ∀ L' s', Located L cap cur s (need (cap cur)) L' s' → Q (L'.c, L'.addr (cap cur / BSIZE)) s') :
    Exec.wp (fun _ => ¬ F) (locate (L cur).c (cap cur / BSIZE)) Q s := by
  by_cases hbn : cap cur / BSIZE < NDIRECT
  · exact wp_locate_direct h hfb hbn hQ
  · have hbn' : NDIRECT ≤ cap cur / BSIZE := Nat.le_of_not_lt hbn
    rw [locate, if_neg hbn, Exec.wp_bind]
    refine wp_address (fun hz => ?_) fun hnz => ?_
    · -- the indirect block is new
      have hcap : cap cur = NDIRECT * BSIZE := by
        have := mt (h.ind cur) (not_not.2 hz)
        simp only [NDIRECT, BSIZE] at *
        omega
      have hneed : need (cap cur) = 2 := by
        rw [need, hcap, blocksOf_succ_indirect]
        omega
      have hge := h.fb_ge
      have hst := h.indirect hz
      have hgrown : Live.Grown (L cur) ((L cur).setAddr (Fin.last NDIRECT) s.freeblock (s.disk s.freeblock)) :=
        Live.grown_setAddr hz
      have hupd : update L cur ((L cur).setAddr (Fin.last NDIRECT) s.freeblock (s.disk s.freeblock)) cur =
        (L cur).setAddr (Fin.last NDIRECT) s.freeblock (s.disk s.freeblock) := update_self ..
      have hptr : ((L cur).setAddr (Fin.last NDIRECT) s.freeblock (s.disk s.freeblock)).ptr NDIRECT = s.freeblock := by
        rw [Live.ptr_setAddr, Fin.val_last, if_pos rfl]
      have htail := wp_locate_tail (F := F) (Q := Q) (k := 1) (s := { s with freeblock := s.freeblock + 1 }) hst hs (by rw [hupd, hptr, nmeta_eq] at *; omega)
        (.inr (by rw [hupd, hptr]; exact ⟨rfl, hfb⟩)) hbn' hmax (fun _ => le_rfl)
        (by rw [hupd, hptr]; intro hle hf; have := hF hf; omega) ?_
      · rw [hupd] at htail
        exact htail
      · intro L' s' hl
        refine hQ L' s' ⟨by simpa using hl.store, ⟨hl.keeps.sectors, hl.keeps.freeinode, hl.keeps.low⟩,
          hgrown.trans (hupd ▸ hl.grown), ?_, hl.bound⟩
        have := hl.count
        rw [hneed]
        dsimp only at this
        omega
    · exact wp_locate_tail h hs hnz (.inl hfb) hbn' hmax one_le_need
        (fun hle => absurd (h.range cur NDIRECT hnz).2 (by omega)) hQ

/-! ## Appending -/

/-- What `iappend` does to the blocks: the inode `cur` has the bytes `p` more. -/
structure Appended (L : ℕ → Live) (cap : ℕ → ℕ) (cur : ℕ) (s : Img) (p : List UInt8) (L' : Live) (s' : Img) :
    Prop where
  store : Store s'.disk s'.freeblock (Function.update L cur L') (Function.update cap cur (cap cur + p.length))
  keeps : Keeps s s'
  c : L'.c = { (L cur).c with addrs := L'.c.addrs }
  bytes : L'.bytes 0 (cap cur + p.length) = (L cur).bytes 0 (cap cur) ++ p
  count : s'.freeblock ≤ s.freeblock + (blocksOf (cap cur + p.length) - blocksOf (cap cur))
  bound : s'.freeblock ≤ FSSIZE
  size : cap cur ≤ MAXFILE * BSIZE → cap cur + p.length ≤ MAXFILE * BSIZE

theorem Appended.nil (h : Store s.disk s.freeblock L cap) (hfb : s.freeblock ≤ FSSIZE) :
    Appended L cap cur s [] (L cur) s where
  store := by simpa using h
  keeps := .refl
  c := rfl
  bytes := by simp
  count := by simp
  bound := hfb
  size := by simp

theorem Appended.trans {p' : List UInt8} {L'' : Live} {s'' : Img} (h : Appended L cap cur s p L' s')
    (h' : Appended (update L cur L') (update cap cur (cap cur + p.length)) cur s' p' L'' s'') :
    Appended L cap cur s (p ++ p') L'' s'' where
  store := by simpa [Nat.add_assoc] using h'.store
  keeps := h.keeps.trans h'.keeps
  c := by
    have := h'.c
    rw [update_self, h.c] at this
    exact this
  bytes := by
    have := h'.bytes
    rw [update_self, update_self, h.bytes, List.append_assoc] at this
    rwa [List.length_append, ← Nat.add_assoc]
  count := by
    have hc := h.count
    have hc' := h'.count
    have hm := blocksOf_mono (Nat.le_add_right (cap cur) p.length)
    have hm' := blocksOf_mono (Nat.le_add_right (cap cur + p.length) p'.length)
    rw [update_self] at hc'
    rw [List.length_append, ← Nat.add_assoc]
    omega
  bound := h'.bound
  size hle := by
    have := h'.size
    rw [update_self] at this
    rw [List.length_append, ← Nat.add_assoc]
    exact this (h.size hle)

/-- The bytes of the inode after `p` has been written to its last block. -/
theorem Located.bytes (h : Store s.disk s.freeblock L cap)
    (hl : Located L cap cur s k L' s') (hp : cap cur % BSIZE + p.length ≤ BSIZE) :
    (L'.setBlk (cap cur / BSIZE) ((L'.blk (cap cur / BSIZE)).write (cap cur % BSIZE) p)).bytes 0
      (cap cur + p.length) = (L cur).bytes 0 (cap cur) ++ p := by
  generalize hL₂ : L'.setBlk (cap cur / BSIZE) ((L'.blk (cap cur / BSIZE)).write (cap cur % BSIZE) p) = L₂
  have hblk : L₂.blk (cap cur / BSIZE) = (L'.blk (cap cur / BSIZE)).write (cap cur % BSIZE) p := by
    rw [← hL₂, Live.setBlk]
    exact update_self ..
  have hold : L₂.bytes 0 (cap cur) = (L cur).bytes 0 (cap cur) := by
    refine Live.bytes_congr fun o _ ho => ?_
    have hbyte : L'.byte o = (L cur).byte o := by
      refine hl.grown.byte ((h.full cur _).2 ?_)
      simp only [BSIZE]
      omega
    rw [← hbyte]
    by_cases hob : o / BSIZE = cap cur / BSIZE
    · rw [Live.byte, Live.byte, hob, hblk]
      refine Bytes.write_of_not_mem (.inl ?_)
      simp only [BSIZE] at *
      omega
    · exact Live.byte_update (by rw [← hL₂, Live.setBlk]) hob
  rw [Live.bytes_add, hold, Nat.zero_add, ← Live.read_blk hp, hblk, Bytes.read_write_self]

/-- One round of the loop of `iappend`, and what follows it. -/
theorem wp_append_block {α : Type} {n1 : ℕ} {k : Dinode → M α} {Q : α → Img → Prop}
    (h : Store s.disk s.freeblock L cap) (hs : s.sectors = FSSIZE) (hfb : s.freeblock ≤ FSSIZE)
    (hmax : cap cur / BSIZE < MAXFILE) (hp : p ≠ [])
    (hn1 : n1 = min p.length ((cap cur / BSIZE + 1) * BSIZE - cap cur))
    (hF : F → s.freeblock + need (cap cur) ≤ FSSIZE)
    (hQ : ∀ L' s', Appended L cap cur s (p.take n1) L' s' → Exec.wp (fun _ => ¬ F) (k L'.c) Q s') :
    Exec.wp (fun _ => ¬ F) (do
      let r ← locate (L cur).c (cap cur / BSIZE)
      let buf ← rsect r.2
      wsect r.2 (buf.write (cap cur - cap cur / BSIZE * BSIZE) (p.take n1))
      k r.1) Q s := by
  have hpos : 0 < p.length := List.length_pos_iff.2 hp
  have hlen : (p.take n1).length = n1 := by
    rw [List.length_take]
    omega
  have hle : cap cur % BSIZE + n1 ≤ BSIZE ∧ 0 < n1 := by
    simp only [BSIZE] at *
    omega
  have hoff : cap cur - cap cur / BSIZE * BSIZE = cap cur % BSIZE := by
    simp only [BSIZE]
    omega
  rw [Exec.wp_bind]
  refine wp_locate h hs hfb hmax hF fun L₁ s₁ hl => ?_
  have hst := hl.store
  have hne : L₁.addr (cap cur / BSIZE) ≠ 0 := by
    have := (hst.full cur (cap cur / BSIZE)).2
    rw [update_self, update_self] at this
    refine this ?_
    simp only [BSIZE]
    omega
  obtain ⟨hge, hlt⟩ : nmeta ≤ L₁.addr (cap cur / BSIZE) ∧ L₁.addr (cap cur / BSIZE) < s₁.freeblock := by
    have := hst.range cur (placeOf (cap cur / BSIZE))
    rw [update_self] at this
    exact this hne
  have hblk : s₁.disk (L₁.addr (cap cur / BSIZE)) = L₁.blk (cap cur / BSIZE) := by
    have := (hst.on cur).blk (cap cur / BSIZE)
    rw [update_self] at this
    exact this hne
  have hcount := hl.count
  have hneed : need (cap cur) ≤ 2 := by
    simp only [need, blocksOf, BSIZE, NDIRECT]
    split_ifs <;> omega
  rw [Exec.wp_bind]
  refine wp_rsect (hl.keeps.sectors.trans hs) (by omega) (fun hsec => ?_) fun hle hf => ?_
  · rw [Exec.wp_bind]
    refine wp_wsect (hl.keeps.sectors.trans hs) hsec ?_
    rw [hoff, hblk]
    have hbound : s₁.freeblock ≤ FSSIZE := hl.bound.elim id fun he => by omega
    refine hQ (L₁.setBlk (cap cur / BSIZE) ((L₁.blk (cap cur / BSIZE)).write (cap cur % BSIZE) (p.take n1))) _
      ⟨?_, ⟨hl.keeps.sectors, hl.keeps.freeinode, fun b hb => ?_⟩, hl.grown.c, ?_, ?_, hbound, fun _ => ?_⟩
    · have hne' : (update L cur L₁ cur).addr (cap cur / BSIZE) ≠ 0 := by rwa [update_self]
      have hsame : ∀ bn, bn * BSIZE < update cap cur (cap cur + 1) cur ↔ bn * BSIZE < cap cur + n1 := by
        intro bn
        rw [update_self]
        simp only [BSIZE] at *
        omega
      have hw := (hst.write (m := (L₁.blk (cap cur / BSIZE)).write (cap cur % BSIZE) (p.take n1)) hne').extend hsame
      simpa [hlen] using hw
    · exact (update_of_ne (by omega) _ _).trans (hl.keeps.low b hb)
    · exact hl.bytes h (by rw [hlen]; exact hle.1)
    · rw [hlen, blocksOf_add hle.2 hle.1]
      exact hl.count
    · rw [hlen]
      simp only [MAXFILE, NDIRECT, NINDIRECT, BSIZE] at *
      omega
  · have := hF hf
    omega

theorem wp_iappendLoop {fuel : ℕ}
    (h : Store s.disk s.freeblock L cap) (hs : s.sectors = FSSIZE) (hfb : s.freeblock ≤ FSSIZE)
    (hfuel : p.length ≤ fuel)
    (hF : F → s.freeblock + (blocksOf (cap cur + p.length) - blocksOf (cap cur)) ≤ FSSIZE ∧
      cap cur + p.length ≤ MAXFILE * BSIZE)
    (hQ : ∀ L' s', Appended L cap cur s p L' s' → Q (L'.c, cap cur + p.length) s') :
    Exec.wp (fun _ => ¬ F) (iappendLoop fuel (L cur).c (cap cur) p) Q s := by
  induction fuel generalizing s L cap p Q with
  | zero =>
    obtain rfl : p = [] := List.length_eq_zero_iff.1 (Nat.le_zero.1 hfuel)
    exact hQ _ _ (.nil h hfb)
  | succ fuel ih =>
    rw [iappendLoop]
    by_cases hp : p = []
    · subst hp
      rw [if_pos rfl]
      exact hQ _ _ (.nil h hfb)
    · have hpos : 0 < p.length := List.length_pos_iff.2 hp
      rw [if_neg hp]
      by_cases hmax : cap cur / BSIZE < MAXFILE
      · rw [if_pos hmax]
        generalize hn1 : min p.length ((cap cur / BSIZE + 1) * BSIZE - cap cur) = n1
        have hn1pos : 0 < n1 := by
          simp only [BSIZE] at *
          omega
        have hlen : (p.take n1).length = n1 := by
          rw [List.length_take]
          omega
        dsimp only
        refine wp_append_block (k := fun din => iappendLoop fuel din (cap cur + n1) (p.drop n1)) h hs hfb hmax hp
          hn1.symm (fun hf => ?_) fun L₁ s₁ ha => ?_
        · have := (hF hf).1
          have hm : blocksOf (cap cur + 1) ≤ blocksOf (cap cur + p.length) := blocksOf_mono (by omega)
          rw [need]
          omega
        · have hcap : update cap cur (cap cur + (p.take n1).length) cur = cap cur + n1 := by
            rw [update_self, hlen]
          have hcur : update L cur L₁ cur = L₁ := update_self ..
          have hcount := ha.count
          have hloop := ih (p := p.drop n1) (Q := Q) ha.store (ha.keeps.sectors.trans hs) ha.bound (by rw [List.length_drop]; omega) ?_ ?_
          · rwa [hcap, hcur] at hloop
          · intro hf
            obtain ⟨h1, h2⟩ := hF hf
            have hm : blocksOf (cap cur) ≤ blocksOf (cap cur + n1) := blocksOf_mono (by omega)
            have hm' : blocksOf (cap cur + n1) ≤ blocksOf (cap cur + p.length) := blocksOf_mono (by omega)
            have heq : cap cur + n1 + (p.drop n1).length = cap cur + p.length := by
              rw [List.length_drop]
              omega
            rw [hcap, heq]
            rw [hlen] at hcount
            exact ⟨by omega, h2⟩
          · intro L' s' ha'
            have htrans := ha.trans ha'
            rw [List.take_append_drop] at htrans
            have heq : cap cur + n1 + (p.drop n1).length = cap cur + p.length := by
              rw [List.length_drop]
              omega
            rw [hcap, heq]
            exact hQ L' s' htrans
      · rw [if_neg hmax]
        intro hf
        have := (hF hf).2
        simp only [MAXFILE, NDIRECT, NINDIRECT, BSIZE] at *
        omega

end

end Xv6.Mkfs
