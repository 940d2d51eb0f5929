import Xv6.Mkfs.Build

/-!
# The image that `mkfs` writes

The whole program, for at most as many files as there is room for in the inode blocks: which inodes it
makes, with which contents, and when it succeeds.
-/

namespace Xv6.Mkfs

open Lib Fs
open Function (update update_self update_of_ne update_idem)

variable {s : Img} {L : ℕ → Live} {data : ℕ → List UInt8} {i : ℕ} {F : Prop} {Q : Unit → Img → Prop}
  {disk : ℕ → Bytes} {d : Dinode} {fb : ℕ} {cap : ℕ → ℕ}

/-- The type of the inode `i`: the first is the root directory. -/
def typeOf (i : ℕ) : Short := if i = ROOTINO then T_DIR else T_FILE

/-- The image between two calls of `iappend`: the inodes below `freeinode` have the contents `data`. -/
structure Built (s : Img) (L : ℕ → Live) (data : ℕ → List UInt8) : Prop where
  store : Store s.disk s.freeblock L fun i => (data i).length
  sectors : s.sectors = FSSIZE
  bound : s.freeblock ≤ FSSIZE
  super : s.disk 1 = sbBytes
  table : ∀ i, 0 < i → i < s.freeinode → dinodeOf sb s.disk i = (L i).c
  type : ∀ i, 0 < i → i < s.freeinode → (L i).c.type = typeOf i
  size : ∀ i, (L i).c.size = (data i).length
  bytes : ∀ i, (L i).bytes 0 (data i).length = data i
  max : ∀ i, (data i).length ≤ MAXFILE * BSIZE
  fresh : ∀ i, s.freeinode ≤ i → data i = [] ∧ ∀ pos, (L i).ptr pos = 0

/-- The inodes whose place is within the inode blocks. -/
abbrev limit : ℕ := ninodeblocks * IPB

theorem iblock_lt (hi : i < limit) : 1 < IBLOCK i sb ∧ IBLOCK i sb < sb.bmapstart := by
  have h32 : sb.inodestart = 32 := rfl
  have h58 : sb.bmapstart = 58 := rfl
  have hl : limit = 208 := rfl
  rw [IBLOCK, h32, h58]
  simp only [IPB, BSIZE] at *
  omega

theorem bmapstart_lt : sb.bmapstart < nmeta := by decide

theorem nmeta_lt : nmeta < FSSIZE := by decide

/-! ## Reading and writing inodes -/

theorem wp_rinode {Q : Dinode → Img → Prop} (hs : s.sectors = FSSIZE) (hi : i < limit)
    (hQ : Q (dinodeOf sb s.disk i) s) : Exec.wp (fun _ => ¬ F) (rinode i) Q s := by
  have hlt := iblock_lt hi
  have hm := bmapstart_lt
  have hf := nmeta_lt
  rw [rinode, Exec.wp_bind]
  exact wp_rsect hs (by omega) (fun _ => hQ) fun h => absurd h (by omega)

theorem wp_winode (hs : s.sectors = FSSIZE) (hi : i < limit)
    (hQ : Q () { s with disk := update s.disk (IBLOCK i sb) (Dinode.write (s.disk (IBLOCK i sb)) i d) }) :
    Exec.wp (fun _ => ¬ F) (winode i d) Q s := by
  have hlt := iblock_lt hi
  have hm := bmapstart_lt
  have hf := nmeta_lt
  rw [winode, Exec.wp_bind]
  exact wp_rsect hs (by omega) (fun _ => wp_wsect hs (by omega) hQ) fun h => absurd h (by omega)

theorem dinodeOf_winode_self (hd : d.Fits) :
    dinodeOf sb (update disk (IBLOCK i sb) (Dinode.write (disk (IBLOCK i sb)) i d)) i = d := by
  rw [dinodeOf, update_self, Dinode.read_write hd]

theorem dinodeOf_winode_of_ne {j : ℕ} (hij : j ≠ i) :
    dinodeOf sb (update disk (IBLOCK i sb) (Dinode.write (disk (IBLOCK i sb)) i d)) j =
      dinodeOf sb disk j := by
  rw [dinodeOf, dinodeOf]
  by_cases hb : IBLOCK j sb = IBLOCK i sb
  · rw [hb, update_self, Dinode.read_write_of_ne]
    simp only [IBLOCK, IPB, BSIZE] at *
    omega
  · rw [update_of_ne hb]

/-- The data blocks do not depend on the inode blocks. -/
theorem Store.low {disk' : ℕ → Bytes} (h : Store disk fb L cap)
    (hd : ∀ b, nmeta ≤ b → disk' b = disk b) : Store disk' fb L cap :=
  ⟨h.toPtrs, h.fb_ge, fun i => on_congr (h.on i) fun pos hpos => hd _ (h.range i pos hpos).1, h.full, h.ind,
    fun b hb => (hd b (h.fb_ge.trans hb)).trans (h.zero b hb)⟩

/-- A change of an inode that leaves its addresses alone. -/
theorem Store.setC (h : Store disk fb L cap) {c : Dinode}
    (hc : c.addrs = (L i).c.addrs) : Store disk fb (update L i { L i with c }) cap := by
  have hptr : ∀ pos, ({ L i with c } : Live).ptr pos = (L i).ptr pos := fun pos => by
    simp only [Live.ptr, hc]
  have hon : ({ L i with c } : Live).On disk := by
    refine ⟨fun hn j hj => ?_, fun bn hbn => ?_⟩
    · rw [hptr] at hn ⊢
      exact (h.on i).ind hn j hj
    · rw [Live.addr, hptr] at hbn ⊢
      exact (h.on i).blk bn hbn
  refine ⟨h.toPtrs.keep hptr, h.fb_ge, h.on_other hon fun _ _ _ _ => rfl, fun j bn => ?_, fun j hj => ?_, h.zero⟩
  · rcases eq_or_ne j i with rfl | hji
    · rw [update_self, Live.addr, hptr]
      exact h.full j bn
    · rw [update_of_ne hji]
      exact h.full j bn
  · rcases eq_or_ne j i with rfl | hji
    · rw [update_self, hptr]
      exact h.ind j hj
    · rw [update_of_ne hji]
      exact h.ind j hj

theorem length_update (p : List UInt8) :
    (fun j => (update data i (data i ++ p) j).length) =
      update (fun j => (data j).length) i ((data i).length + p.length) := by
  funext j
  rcases eq_or_ne j i with rfl | hj
  · simp
  · simp [hj]

theorem Store.fits (h : Store disk fb L cap) (hfb : fb ≤ FSSIZE)
    {c : Dinode} (hc : c.addrs = (L i).c.addrs) (hsize : c.size < 2 ^ 32) : c.Fits := by
  refine ⟨hsize, fun j => ?_⟩
  by_cases hz : c.addrs j = 0
  · rw [hz]
    decide
  · have hptr : (L i).ptr j = c.addrs j := by rw [hc, Live.ptr, dif_pos j.isLt]
    have hlt := (h.range i j (by rwa [hptr])).2
    have hF : FSSIZE < 2 ^ 32 := by decide
    omega

/-- `winode` at the end of `iappend`. -/
theorem Built.append {p : List UInt8} {L' : Live} {s' : Img} (h : Built s L data) (hi : 0 < i)
    (hlt : i < s.freeinode) (hlim : s.freeinode ≤ limit)
    (ha : Appended L (fun j => (data j).length) i s p L' s') :
    Built
      { s' with
        disk := update s'.disk (IBLOCK i sb)
          (Dinode.write (s'.disk (IBLOCK i sb)) i { L'.c with size := (data i).length + p.length }) }
      (update L i { L' with c := { L'.c with size := (data i).length + p.length } })
      (update data i (data i ++ p)) := by
  have hib := iblock_lt (hlt.trans_le hlim)
  have hm := bmapstart_lt
  have hsize : (data i).length + p.length ≤ MAXFILE * BSIZE := ha.size (h.max i)
  have hst := ha.store
  have hcur : update L i L' i = L' := update_self ..
  have hc : ({ L'.c with size := (data i).length + p.length } : Dinode).addrs = (update L i L' i).c.addrs := by
    rw [hcur]
  have hfits := hst.fits ha.bound hc (hsize.trans_lt (by decide))
  have hstore := hst.setC hc
  rw [hcur, update_idem] at hstore
  have hkeep : ∀ j, j < s.freeinode → dinodeOf sb s'.disk j = dinodeOf sb s.disk j := fun j hj =>
    dinodeOf_congr (ha.keeps.low _ ((iblock_lt (hj.trans_le hlim)).2.trans hm))
  constructor
  case store =>
    rw [length_update]
    exact hstore.low fun b hb => update_of_ne (by omega) _ _
  case sectors => exact ha.keeps.sectors.trans h.sectors
  case bound => exact ha.bound
  case super =>
    dsimp only
    rw [update_of_ne (Nat.ne_of_lt hib.1), ha.keeps.low 1 (by decide), h.super]
  case table =>
    intro j hj hjlt
    have hjlt' : j < s.freeinode := ha.keeps.freeinode ▸ hjlt
    rcases eq_or_ne j i with rfl | hji
    · rw [update_self]
      exact dinodeOf_winode_self hfits
    · rw [update_of_ne hji]
      exact (dinodeOf_winode_of_ne hji).trans ((hkeep j hjlt').trans (h.table j hj hjlt'))
  case type =>
    intro j hj hjlt
    have hjlt' : j < s.freeinode := ha.keeps.freeinode ▸ hjlt
    rcases eq_or_ne j i with rfl | hji
    · rw [update_self, ← h.type j hj hjlt', ha.c]
    · rw [update_of_ne hji]
      exact h.type j hj hjlt'
  case size =>
    intro j
    rcases eq_or_ne j i with rfl | hji
    · simp
    · rw [update_of_ne hji, update_of_ne hji]
      exact h.size j
  case bytes =>
    intro j
    rcases eq_or_ne j i with rfl | hji
    · rw [update_self, update_self, List.length_append]
      exact ha.bytes.trans (congrArg (· ++ p) (h.bytes j))
    · rw [update_of_ne hji, update_of_ne hji]
      exact h.bytes j
  case max =>
    intro j
    rcases eq_or_ne j i with rfl | hji
    · rw [update_self, List.length_append]
      exact hsize
    · rw [update_of_ne hji]
      exact h.max j
  case fresh =>
    intro j hj
    have hj' : s.freeinode ≤ j := ha.keeps.freeinode ▸ hj
    rw [update_of_ne (by omega), update_of_ne (by omega)]
    exact h.fresh j hj'

theorem wp_iappend {p : List UInt8} (h : Built s L data) (hi : 0 < i)
    (hlt : i < s.freeinode) (hlim : s.freeinode ≤ limit)
    (hF : F → s.freeblock + (blocksOf ((data i).length + p.length) - blocksOf (data i).length) ≤ FSSIZE ∧
      (data i).length + p.length ≤ MAXFILE * BSIZE)
    (hQ : ∀ s' L', Built s' (update L i L') (update data i (data i ++ p)) →
      s'.freeinode = s.freeinode →
      s'.freeblock ≤ s.freeblock + (blocksOf ((data i).length + p.length) - blocksOf (data i).length) → Q () s') :
    Exec.wp (fun _ => ¬ F) (iappend i p) Q s := by
  rw [iappend, Exec.wp_bind]
  refine wp_rinode h.sectors (hlt.trans_le hlim) ?_
  rw [h.table i hi hlt, h.size, Exec.wp_bind]
  refine wp_iappendLoop h.store h.sectors h.bound le_rfl hF fun L' s' ha => ?_
  refine wp_winode (ha.keeps.sectors.trans h.sectors) (hlt.trans_le hlim) ?_
  exact hQ _ _ (h.append hi hlt hlim ha) ha.keeps.freeinode ha.count

/-! ## Inodes and files -/

theorem wp_ialloc {type : Short} {Q : ℕ → Img → Prop} (h : Built s L data)
    (hlim : s.freeinode < limit) (ht : type = typeOf s.freeinode)
    (hQ : ∀ s' L', Built s' L' data → s'.freeinode = s.freeinode + 1 → s'.freeblock = s.freeblock →
      Q s.freeinode s') : Exec.wp (fun _ => ¬ F) (ialloc type) Q s := by
  obtain ⟨hdata, hptr⟩ := h.fresh s.freeinode le_rfl
  have hib := iblock_lt hlim
  have hm := bmapstart_lt
  have hc : ({ Dinode.fresh type with nlink := 1 } : Dinode).addrs = (L s.freeinode).c.addrs := by
    funext j
    have := hptr j
    rw [Live.ptr, dif_pos j.isLt] at this
    exact this.symm
  have hfits : ({ Dinode.fresh type with nlink := 1 } : Dinode).Fits :=
    h.store.fits h.bound hc (Nat.two_pow_pos 32)
  simp only [ialloc, nextInode, Exec.wp_bind, Exec.wp_get, Exec.wp_modify, Exec.wp_pure]
  refine wp_winode (s := { s with freeinode := s.freeinode + 1 }) h.sectors hlim ?_
  refine hQ _ (update L s.freeinode { L s.freeinode with c := { Dinode.fresh type with nlink := 1 } }) ?_
    rfl rfl
  constructor
  case store => exact (h.store.setC hc).low fun b hb => update_of_ne (by omega) _ _
  case sectors => exact h.sectors
  case bound => exact h.bound
  case super =>
    dsimp only
    rw [update_of_ne (Nat.ne_of_lt hib.1), h.super]
  case table =>
    intro j hj hjlt
    by_cases hji : j = s.freeinode
    · subst hji
      rw [update_self]
      exact dinodeOf_winode_self hfits
    · rw [update_of_ne hji]
      exact (dinodeOf_winode_of_ne hji).trans (h.table j hj (by dsimp only at hjlt; omega))
  case type =>
    intro j hj hjlt
    by_cases hji : j = s.freeinode
    · subst hji
      rw [update_self]
      exact ht
    · rw [update_of_ne hji]
      exact h.type j hj (by dsimp only at hjlt; omega)
  case size =>
    intro j
    by_cases hji : j = s.freeinode
    · subst hji
      rw [update_self, hdata]
      rfl
    · rw [update_of_ne hji]
      exact h.size j
  case bytes =>
    intro j
    by_cases hji : j = s.freeinode
    · subst hji
      rw [hdata]
      rfl
    · rw [update_of_ne hji]
      exact h.bytes j
  case max => exact h.max
  case fresh =>
    intro j hj
    dsimp only at hj
    rw [update_of_ne (by omega)]
    exact h.fresh j (by omega)

theorem wp_iappendAll {cs : List (List UInt8)} (h : Built s L data) (hi : 0 < i)
    (hlt : i < s.freeinode) (hlim : s.freeinode ≤ limit)
    (hF : F → s.freeblock + (blocksOf ((data i).length + cs.flatten.length) - blocksOf (data i).length) ≤ FSSIZE ∧
      (data i).length + cs.flatten.length ≤ MAXFILE * BSIZE)
    (hQ : ∀ s' L', Built s' L' (update data i (data i ++ cs.flatten)) → s'.freeinode = s.freeinode →
      s'.freeblock ≤ s.freeblock + (blocksOf ((data i).length + cs.flatten.length) - blocksOf (data i).length) →
      Q () s') :
    Exec.wp (fun _ => ¬ F) (iappendAll i cs) Q s := by
  induction cs generalizing s L data with
  | nil =>
    refine hQ s L ?_ rfl (by simp)
    simpa using h
  | cons c cs ih =>
    rw [List.flatten_cons, List.length_append] at *
    have hm : blocksOf (data i).length ≤ blocksOf ((data i).length + c.length) := blocksOf_mono (by omega)
    have hm' : blocksOf ((data i).length + c.length) ≤ blocksOf ((data i).length + (c.length + cs.flatten.length)) :=
      blocksOf_mono (by omega)
    rw [iappendAll, Exec.wp_bind]
    refine wp_iappend h hi hlt hlim (fun hf => ?_) fun s₁ L₁ h₁ hfi hfb => ?_
    · obtain ⟨h1, h2⟩ := hF hf
      omega
    · have hlen : (update data i (data i ++ c) i).length = (data i).length + c.length := by
        rw [update_self, List.length_append]
      refine ih h₁ (hfi ▸ hlt) (hfi ▸ hlim) (fun hf => ?_) fun s₂ L₂ h₂ hfi' hfb' => ?_
      · obtain ⟨h1, h2⟩ := hF hf
        rw [hlen, Nat.add_assoc]
        omega
      · rw [hlen, Nat.add_assoc] at hfb'
        refine hQ s₂ L₂ ?_ (hfi'.trans hfi) (by omega)
        simpa [List.append_assoc] using h₂

/-- The bytes of a directory entry. -/
def entry (inum : ℕ) (name : List UInt8) : List UInt8 := Dirent.bytes ⟨inum, strncpy DIRSIZ name⟩

@[simp] theorem length_entry {inum : ℕ} {name : List UInt8} : (entry inum name).length = DIRENT := by
  rw [entry, Dirent.bytes, List.length_append, Bytes.length_le, length_strncpy]
  rfl

/-- The contents after a file has been added at the inode `fi`. -/
def addData (fi : ℕ) (data : ℕ → List UInt8) (f : InFile) : ℕ → List UInt8 :=
  Function.update (Function.update data ROOTINO (data ROOTINO ++ entry fi f.name)) fi f.bytes

/-- A file that `mkfs` can add. -/
structure Addable (f : InFile) : Prop where
  arg : slash ∉ f.arg
  chunks : f.chunks ≠ none
  size : f.bytes.length ≤ MAXFILE * BSIZE

theorem wp_addFile {f : InFile} {U : ℕ} (h : Built s L data) (hroot : ROOTINO < s.freeinode)
    (hlim : s.freeinode < limit) (hcount : s.freeblock ≤ nmeta + blocksOf (data ROOTINO).length + U)
    (hF : F → Addable f ∧ nmeta + blocksOf ((data ROOTINO).length + DIRENT) + U + blocksOf f.bytes.length ≤ FSSIZE ∧
      (data ROOTINO).length + DIRENT ≤ MAXFILE * BSIZE)
    (hQ : ∀ s' L', Built s' L' (addData s.freeinode data f) → s'.freeinode = s.freeinode + 1 →
      s'.freeblock ≤ nmeta + blocksOf ((data ROOTINO).length + DIRENT) + (U + blocksOf f.bytes.length) → Q () s') :
    Exec.wp (fun _ => ¬ F) (addFile f) Q s := by
  have hm : blocksOf (data ROOTINO).length ≤ blocksOf ((data ROOTINO).length + DIRENT) := blocksOf_mono (by omega)
  rw [addFile]
  split_ifs with hslash
  · exact fun hf => (hF hf).1.arg hslash
  cases hcs : f.chunks with
  | none => exact fun hf => (hF hf).1.chunks hcs
  | some cs =>
    have hbytes : f.bytes = cs.flatten := by rw [InFile.bytes, hcs, Option.getD_some]
    have hdata : data s.freeinode = [] := (h.fresh _ le_rfl).1
    have hne : s.freeinode ≠ ROOTINO := by omega
    dsimp only
    rw [Exec.wp_bind]
    refine wp_ialloc h hlim (by rw [typeOf, if_neg hne]) fun s₁ L₁ h₁ hfi₁ hfb₁ => ?_
    rw [Exec.wp_bind, link, ← entry]
    refine wp_iappend h₁ (by decide) (by omega) (by omega) (fun hf => ?_) fun s₂ L₂ h₂ hfi₂ hfb₂ => ?_
    · obtain ⟨-, h1, h2⟩ := hF hf
      rw [length_entry]
      omega
    · have hcur : update data ROOTINO (data ROOTINO ++ entry s.freeinode f.name) s.freeinode = [] := by
        rw [update_of_ne hne, hdata]
      rw [length_entry] at hfb₂
      have hzero : blocksOf 0 = 0 := rfl
      refine wp_iappendAll h₂ (Nat.pos_of_ne_zero fun h0 => ?_) (by omega) (by omega) (fun hf => ?_)
        fun s₃ L₃ h₃ hfi₃ hfb₃ => ?_
      · rw [h0] at hroot
        exact absurd hroot (by decide)
      · obtain ⟨ha, h1, h2⟩ := hF hf
        have := ha.size
        rw [hcur, ← hbytes, List.length_nil, Nat.zero_add]
        omega
      · rw [hcur, ← hbytes, List.length_nil, Nat.zero_add, hzero] at hfb₃
        rw [hcur, List.nil_append, ← hbytes] at h₃
        exact hQ s₃ L₃ h₃ (by omega) (by omega)

/-- The contents after all files have been added. -/
def addAll : ℕ → (ℕ → List UInt8) → List InFile → ℕ → List UInt8
  | _, data, [] => data
  | fi, data, f :: fs => addAll (fi + 1) (addData fi data f) fs

/-- The blocks that the contents of the files take. -/
def fileBlocks (files : List InFile) : ℕ := (files.map fun f => blocksOf f.bytes.length).sum

theorem addData_root {fi : ℕ} {f : InFile} (hfi : fi ≠ ROOTINO) :
    addData fi data f ROOTINO = data ROOTINO ++ entry fi f.name := by
  rw [addData, update_of_ne (Ne.symm hfi), update_self]

theorem wp_addFiles {files : List InFile} {U : ℕ} (h : Built s L data)
    (hroot : ROOTINO < s.freeinode) (hlim : s.freeinode + files.length ≤ limit)
    (hcount : s.freeblock ≤ nmeta + blocksOf (data ROOTINO).length + U)
    (hF : F → (∀ f ∈ files, Addable f) ∧
      nmeta + blocksOf ((data ROOTINO).length + DIRENT * files.length) + U + fileBlocks files ≤ FSSIZE ∧
      (data ROOTINO).length + DIRENT * files.length ≤ MAXFILE * BSIZE)
    (hQ : ∀ s' L', Built s' L' (addAll s.freeinode data files) → s'.freeinode = s.freeinode + files.length →
      Q () s') :
    Exec.wp (fun _ => ¬ F) (addFiles files) Q s := by
  induction files generalizing s L data U with
  | nil => exact hQ s L h rfl
  | cons f files ih =>
    have hlen : (addData s.freeinode data f ROOTINO).length = (data ROOTINO).length + DIRENT := by
      rw [addData_root (by omega), List.length_append, length_entry]
    rw [List.length_cons] at *
    have hmul : DIRENT * (files.length + 1) = DIRENT * files.length + DIRENT := Nat.mul_succ ..
    have hm : blocksOf ((data ROOTINO).length + DIRENT) ≤
        blocksOf ((data ROOTINO).length + DIRENT * (files.length + 1)) := blocksOf_mono (by omega)
    have hsum : fileBlocks (f :: files) = blocksOf f.bytes.length + fileBlocks files := rfl
    rw [addFiles, Exec.wp_bind]
    refine wp_addFile h hroot (by omega) hcount (fun hf => ?_) fun s₁ L₁ h₁ hfi hfb => ?_
    · obtain ⟨ha, h1, h2⟩ := hF hf
      exact ⟨ha f List.mem_cons_self, by omega, by omega⟩
    · refine ih h₁ (by omega) (by omega) (by rw [hlen]; exact hfb) (fun hf => ?_) fun s₂ L₂ h₂ hfi' => ?_
      · obtain ⟨ha, h1, h2⟩ := hF hf
        have heq : (data ROOTINO).length + DIRENT + DIRENT * files.length =
            (data ROOTINO).length + DIRENT * (files.length + 1) := by omega
        rw [hlen, heq]
        exact ⟨fun f hf => ha f (List.mem_cons_of_mem _ hf), by omega, h2⟩
      · rw [hfi] at h₂
        exact hQ s₂ L₂ h₂ (by omega)

/-! ## The whole program -/

/-- The size of the root directory as `main` rounds it. -/
def rounded (len : ℕ) : ℕ := (len / BSIZE + 1) * BSIZE

/-- What `main` does after the last file: it rounds the size of the root directory and writes the bitmap. -/
def finish (s : Img) : Img :=
  { s with
    disk := Function.update
      (Function.update s.disk (IBLOCK ROOTINO sb) (Dinode.write (s.disk (IBLOCK ROOTINO sb)) ROOTINO
        { dinodeOf sb s.disk ROOTINO with size := rounded (dinodeOf sb s.disk ROOTINO).size }))
      sb.bmapstart (bits s.freeblock) }

/-- The contents of the inodes before any file: the root directory. -/
def rootData : ℕ → List UInt8 :=
  Function.update (fun _ => []) ROOTINO (entry ROOTINO [dot] ++ entry ROOTINO [dot, dot])

theorem length_rootData : (rootData ROOTINO).length = DIRENT * 2 := by
  rw [rootData, update_self, List.length_append, length_entry, length_entry]
  rfl

/-- An inode that nothing has been written to. -/
def blankLive : Live := ⟨.fresh 0, .fresh 0, fun _ => 0, fun _ _ => 0⟩

theorem blankLive_ptr {pos : ℕ} : blankLive.ptr pos = 0 := by
  rw [Live.ptr]
  split_ifs <;> rfl

theorem built_blank : Built { blank with disk := update blank.disk 1 sbBytes } (fun _ => blankLive)
    fun _ => [] := by
  have hptr : ∀ pos, blankLive.ptr pos = 0 := fun _ => blankLive_ptr
  have hzero : ∀ b, nmeta ≤ b → update blank.disk 1 sbBytes b = fun _ => 0 := fun b hb => by
    rw [nmeta_eq] at hb
    rw [update_of_ne (by omega)]
    rfl
  refine ⟨⟨⟨fun _ pos hne => absurd (hptr pos) hne, fun _ pos _ _ _ hne => absurd (hptr pos) hne⟩, le_rfl,
    fun _ => ⟨fun hn => absurd (hptr _) hn, fun _ hbn => absurd (hptr _) hbn⟩, fun _ bn => ?_, fun _ h => ?_, hzero⟩,
    rfl, nmeta_lt.le, ?_, fun i hi hlt => ?_, fun i hi hlt => ?_, fun _ => rfl, fun _ => rfl,
    fun _ => Nat.zero_le _, fun _ _ => ⟨rfl, hptr⟩⟩
  · simp [Live.addr, hptr]
  · simp at h
  · exact update_self (f := blank.disk) 1 sbBytes
  · have : i < 1 := hlt
    omega
  · have : i < 1 := hlt
    omega

/-- The files that fit on the disk. -/
structure Fit (files : List InFile) : Prop where
  addable : ∀ f ∈ files, Addable f
  blocks : nmeta + blocksOf (DIRENT * (files.length + 2)) + fileBlocks files ≤ FSSIZE

theorem wp_fixRoot (hs : s.sectors = FSSIZE)
    (hQ : Q () { s with
      disk := update s.disk (IBLOCK ROOTINO sb) (Dinode.write (s.disk (IBLOCK ROOTINO sb)) ROOTINO
        { dinodeOf sb s.disk ROOTINO with size := rounded (dinodeOf sb s.disk ROOTINO).size }) }) :
    Exec.wp (fun _ => ¬ F) fixRoot Q s := by
  rw [fixRoot, Exec.wp_bind]
  exact wp_rinode hs (by decide) (wp_winode hs (by decide) hQ)

theorem wp_main {files : List InFile} (hlim : files.length + 2 ≤ limit) (hF : F → Fit files)
    (hQ : ∀ s L, Built s L (addAll 2 rootData files) → s.freeinode = files.length + 2 → Q () (finish s)) :
    Exec.wp (fun _ => ¬ F) (main files) Q blank := by
  have hl : limit = 208 := rfl
  have hb0 : blocksOf 0 = 0 := rfl
  have hb1 : blocksOf DIRENT = 1 := by decide
  have hb2 : blocksOf (DIRENT * 2) = 1 := by decide
  have hn := nmeta_eq
  have hfs : FSSIZE = 1000 := rfl
  have hmax : DIRENT * 2 ≤ MAXFILE * BSIZE := by decide
  have hd : DIRENT + DIRENT = DIRENT * 2 := by decide
  have hroot : ROOTINO = 1 := rfl
  rw [main, Exec.wp_bind]
  refine wp_wsect rfl (by decide) ?_
  rw [Exec.wp_bind]
  refine wp_ialloc built_blank (by decide) rfl fun s₁ L₁ h₁ hfi₁ hfb₁ => ?_
  have hfi₁' : s₁.freeinode = 2 := hfi₁
  have hfb₁' : s₁.freeblock = nmeta := hfb₁
  change Exec.wp _ (if ROOTINO = ROOTINO then (do
    link ROOTINO [dot]
    link ROOTINO [dot, dot]
    addFiles files
    fixRoot
    let s ← get
    balloc s.freeblock) else throw .abort) Q s₁
  rw [if_pos rfl, Exec.wp_bind, link, ← entry]
  -- the entries `.` and `..`
  refine wp_iappend h₁ (by decide) (by omega) (by omega) (fun _ => ?_) fun s₂ L₂ h₂ hfi₂ hfb₂ => ?_
  · rw [length_entry, List.length_nil, Nat.zero_add, hb0, hb1]
    exact ⟨by omega, by omega⟩
  rw [length_entry, List.length_nil, Nat.zero_add, hb0, hb1] at hfb₂
  have hdata₂ : (update (fun _ => []) ROOTINO ([] ++ entry ROOTINO [dot]) : ℕ → List UInt8) ROOTINO =
      entry ROOTINO [dot] := by
    rw [update_self, List.nil_append]
  rw [Exec.wp_bind, link, ← entry]
  refine wp_iappend h₂ (by decide) (by omega) (by omega) (fun _ => ?_) fun s₃ L₃ h₃ hfi₃ hfb₃ => ?_
  · rw [hdata₂, length_entry, length_entry, hd, hb1, hb2]
    exact ⟨by omega, hmax⟩
  rw [hdata₂, length_entry, length_entry, hd, hb1, hb2] at hfb₃
  have hdata₃ : (update (update (fun _ => []) ROOTINO ([] ++ entry ROOTINO [dot])) ROOTINO
      (entry ROOTINO [dot] ++ entry ROOTINO [dot, dot]) : ℕ → List UInt8) = rootData := update_idem ..
  rw [hdata₂, hdata₃] at h₃
  -- the files
  rw [Exec.wp_bind]
  refine wp_addFiles (U := 0) h₃ (by omega) (by omega) (by rw [length_rootData, hb2]; omega) (fun hf => ?_)
    fun s₄ L₄ h₄ hfi₄ => ?_
  · have heq : DIRENT * 2 + DIRENT * files.length = DIRENT * (files.length + 2) := by
      rw [← Nat.mul_add, Nat.add_comm]
    have hle : DIRENT * (files.length + 2) ≤ MAXFILE * BSIZE :=
      (Nat.mul_le_mul_left _ hlim).trans (by decide)
    rw [length_rootData, heq]
    exact ⟨(hF hf).addable, (hF hf).blocks, hle⟩
  have hfi : s₃.freeinode = 2 := by omega
  rw [hfi] at h₄
  rw [Exec.wp_bind]
  refine wp_fixRoot h₄.sectors ?_
  rw [Exec.wp_bind, Exec.wp_get, balloc, if_pos]
  · exact wp_wsect h₄.sectors (by decide) (hQ s₄ L₄ h₄ (by omega))
  · exact h₄.bound.trans_lt (by decide)

end Xv6.Mkfs
