import Mathlib.Data.List.TakeWhile
import Xv6.Fs.Read
import Xv6.Mkfs.WellFormed

/-!
# `mkfs` and the kernel agree on the format

What the kernel's `dirlookup` and `readi` find on an image that `mkfs` has written.
-/

namespace Xv6.Mkfs

open Fs Conc

/-! ## Names -/

theorem strncmp_strncpy {n : ℕ} {a b : List UInt8} (ha : ∀ c ∈ a, c ≠ 0) (hb : ∀ c ∈ b, c ≠ 0) :
    strncmp n a (strncpy n b) = 0 ↔ a.take n = b.take n := by
  have hcut : ∀ {t : List UInt8}, (∀ c ∈ t, c ≠ 0) → cut n t = t.take n := by
    intro t ht
    rw [cut, List.takeWhile_eq_self_iff.2 (by simpa using ht)]
  rw [strncmp_eq_zero_iff, cut_strncpy, hcut ha, hcut hb]

/-- The entries of the root directory: i-numbers and names. -/
def entries (fi : ℕ) : List InFile → List (ℕ × List UInt8)
  | [] => []
  | f :: fs => (fi, f.name) :: entries (fi + 1) fs

def rootEntries (files : List InFile) : List (ℕ × List UInt8) :=
  (ROOTINO, [dot]) :: (ROOTINO, [dot, dot]) :: entries 2 files

section

variable {files : List InFile} {data : ℕ → List UInt8} {fi : ℕ}

theorem addAll_root (hfi : ROOTINO < fi) :
    addAll fi data files ROOTINO = data ROOTINO ++ (entries fi files).flatMap fun e => entry e.1 e.2 := by
  induction files generalizing fi data with
  | nil => simp [addAll, entries]
  | cons f files ih => rw [addAll, ih (by omega), addData_root (by omega), entries, List.flatMap_cons, List.append_assoc]

theorem addAll_of_lt {i : ℕ} (hi : i < fi) (hr : i ≠ ROOTINO) : addAll fi data files i = data i := by
  induction files generalizing fi data with
  | nil => rfl
  | cons f files ih =>
    rw [addAll, ih (by omega), addData, Function.update_of_ne (by omega), Function.update_of_ne hr]

theorem addAll_file (hfi : ROOTINO < fi) {k : ℕ} {f : InFile} (hk : files[k]? = some f) :
    addAll fi data files (fi + k) = f.bytes := by
  induction files generalizing fi data k with
  | nil => simp at hk
  | cons g files ih =>
    rw [addAll]
    cases k with
    | zero =>
      obtain rfl : g = f := by simpa using hk
      have hlast : addAll (fi + 1) (addData fi data g) files fi = addData fi data g fi :=
        addAll_of_lt (Nat.lt_succ_self fi) (by omega)
      exact hlast.trans (Function.update_self ..)
    | succ k =>
      have hrest : addAll (fi + 1) (addData fi data g) files (fi + 1 + k) = f.bytes :=
        ih (by omega) (by simpa using hk)
      rwa [Nat.add_right_comm, Nat.add_assoc] at hrest

theorem root_eq : addAll 2 rootData files ROOTINO = (rootEntries files).flatMap fun e => entry e.1 e.2 := by
  rw [addAll_root (by decide), rootData, Function.update_self]
  simp [rootEntries]

theorem getElem?_entries {k : ℕ} : (entries fi files)[k]? = files[k]?.map fun f => (fi + k, f.name) := by
  induction files generalizing fi k with
  | nil => rfl
  | cons f files ih =>
    cases k with
    | zero => rfl
    | succ k =>
      rw [entries, List.getElem?_cons_succ, List.getElem?_cons_succ, ih, Nat.add_right_comm, Nat.add_assoc]

end

/-- One of several pieces of equal length. -/
theorem take_drop_flatMap {α β : Type} {g : α → List β} {n : ℕ} (hg : ∀ a, (g a).length = n) {as : List α} {k : ℕ}
    {a : α} (ha : as[k]? = some a) : ((as.flatMap g).drop (n * k)).take n = g a := by
  induction as generalizing k with
  | nil => simp at ha
  | cons b as ih =>
    rw [List.flatMap_cons]
    cases k with
    | zero =>
      obtain rfl : b = a := by simpa using ha
      rw [Nat.mul_zero, List.drop_zero, List.take_left' (hg b)]
    | succ k =>
      have hdrop : (g b ++ as.flatMap g).drop (n * (k + 1)) = (as.flatMap g).drop (n * k) := by
        rw [Nat.mul_succ, Nat.add_comm, ← List.drop_drop, List.drop_left' (hg b)]
      rw [hdrop]
      exact ih (by simpa using ha)

/-- The directory entry in the `k`th place of a directory that consists of the entries `es`. -/
theorem dirent_of_entries {L : Live} {es : List (ℕ × List UInt8)} {k : ℕ} {e : ℕ × List UInt8}
    (hL : L.bytes 0 (es.flatMap fun e => entry e.1 e.2).length = es.flatMap fun e => entry e.1 e.2)
    (he : es[k]? = some e) (hinum : e.1 < 2 ^ 16) : L.dirent (DIRENT * k) = ⟨e.1, strncpy DIRSIZ e.2⟩ := by
  have hlen : (es.flatMap fun e => entry e.1 e.2).length = DIRENT * es.length := by
    clear hL he
    induction es with
    | nil => rfl
    | cons e es ih => rw [List.flatMap_cons, List.length_append, ih, length_entry, List.length_cons, Nat.mul_succ, Nat.add_comm]
  obtain ⟨hk, -⟩ := List.getElem?_eq_some_iff.1 he
  obtain ⟨r, hr⟩ : ∃ r, DIRENT * es.length = DIRENT * k + (DIRENT + r) :=
    ⟨DIRENT * es.length - DIRENT * k - DIRENT, by simp only [DIRENT]; omega⟩
  have hpiece := take_drop_flatMap (g := fun e : ℕ × List UInt8 => entry e.1 e.2) (fun _ => length_entry) he
  rw [← hL, hlen, hr, L.bytes_add, List.drop_left' L.length_bytes, L.bytes_add, List.take_left' L.length_bytes,
    Nat.zero_add] at hpiece
  rw [Live.dirent, hpiece, entry, Dirent.ofBytes_bytes hinum]

/-! ## The kernel on the image -/

section

variable {Pid : Type} {st t : State Pid} {img s : Img} {L : ℕ → Live} {data : ℕ → List UInt8} {i : ISlot} {X : ℕ}

/-- The kernel runs on the image: the blocks of its disk are those of the image, nobody holds one of them,
and the superblock has been read. -/
structure Carries (st : State Pid) (img : Img) : Prop where
  disk : ∀ b < FSSIZE, st.block ROOTDEV b = img.disk b
  free : ∀ b, st.store.holder ROOTDEV b = none
  super : st.sb = .ofBytes (st.block ROOTDEV 1)

/-- The entry `i` of the inode cache is for the inode `X` of the image; what it has in memory is what the
disk has. -/
structure Caches (st : State Pid) (img : Img) (i : ISlot) (X : ℕ) : Prop where
  ref : 0 < (st.inode i).ref
  dev : (st.inode i).dev = ROOTDEV
  inum : (st.inode i).inum = X
  copy : (st.inode i).valid → (st.inode i).d = dinodeOf sb img.disk X

/-- A process has the root directory locked, in the entry `root` of the inode cache; no other inode is
locked, and there is an unused entry. -/
structure Mounted (st : State Pid) (img : Img) (root : ISlot) : Prop extends Carries st img where
  locked : Caches st img root ROOTINO ∧ (st.inode root).valid
  cached : ∀ i, 0 < (st.inode i).ref → (st.inode i).dev = ROOTDEV → Caches st img i (st.inode i).inum
  idle : ∀ i ≠ root, 0 < (st.inode i).ref → (st.inode i).busy = false
  room : ∃ i, (st.inode i).ref = 0

theorem ofBytes_sbBytes : Superblock.ofBytes sbBytes = sb := by decide

theorem Carries.congr (h : Carries st img) (hstore : t.store = st.store) (hsb : t.sb = st.sb) : Carries t img := by
  have hblock : t.block = st.block := by
    funext dev b
    rw [State.block, State.block, hstore]
  refine ⟨?_, ?_, ?_⟩
  · rw [hblock]
    exact h.disk
  · rw [hstore]
    exact h.free
  · rw [hblock, hsb]
    exact h.super

/-- The kernel has the superblock that `mkfs` has written. -/
theorem Carries.sb_eq (h : Carries st (finish s)) (hb : Built s L data) : st.sb = sb := by
  have hroot := iblock_lt (i := ROOTINO) (by decide)
  have hm : sb.bmapstart = 58 := rfl
  rw [h.super, h.disk 1 (by decide), ← ofBytes_sbBytes, ← hb.super, finish]
  dsimp only
  rw [Function.update_of_ne (by omega), Function.update_of_ne (by omega)]

/-- A valid entry can be read up to the end of what `mkfs` has written to the inode. -/
theorem Carries.readable (h : Carries st (finish s)) (hb : Built s L data) (hlim : s.freeinode ≤ limit)
    (hX : Allocated s X) (hdev : (st.inode i).dev = ROOTDEV) (hd : (st.inode i).d = dinodeOf sb (finish s).disk X) :
    Readable st i (L X) (data X).length := by
  have hfs := hb.bound
  have hrange : ∀ pos, (L X).ptr pos < FSSIZE := by
    intro pos
    by_cases hz : (L X).ptr pos = 0
    · rw [hz]
      decide
    · exact (hb.store.range X pos hz).2.trans_le hfs
  refine ⟨?_, ?_, on_congr (hb.store.on X) fun pos hne => ?_, hrange, fun bn => (hb.store.full X bn).2,
    fun bn hbn hne => hb.store.ind X ?_, hb.max X⟩
  · rw [hdev]
    exact h.free
  · rw [hd, finish_dinode hb hlim hX]
  · rw [hdev, h.disk _ (hrange pos), finish_disk (hb.store.range X pos hne).1]
  · exact (Nat.mul_le_mul_right _ hbn).trans_lt ((hb.store.full X bn).1 hne)

variable [DecidableEq Pid] {p : Pid} {root : ISlot}

/-- `iget` of an inode that is not locked. -/
theorem Mounted.iget (h : Mounted st img root) (hX : X ≠ ROOTINO) :
    ∃ i t, igetStep p ROOTDEV X st = .ok i t ∧ t.store = st.store ∧ t.sb = st.sb ∧ Caches t img i X ∧
      (t.inode i).busy = false := by
  unfold igetStep
  dsimp only
  split
  next i hi =>
    have hfound := List.find?_some hi
    simp only [decide_eq_true_eq] at hfound
    obtain ⟨href, hdev, rfl⟩ := hfound
    have hc := h.cached i href hdev
    refine ⟨i, _, rfl, rfl, rfl, ⟨?_, ?_, ?_, ?_⟩, ?_⟩
    · simp only [State.setInode, State.setMarked, State.setAux, Function.update_self] at href ⊢
      omega
    · simpa [State.setInode] using hdev
    · simp [State.setInode]
    · simpa [State.setInode, State.setMarked, State.setAux] using hc.copy
    · have hne : i ≠ root := by
        rintro rfl
        exact hX h.locked.1.inum
      simpa [State.setInode, State.setMarked, State.setAux] using h.idle i hne href
  next =>
    split
    next i hi =>
      refine ⟨i, _, rfl, rfl, rfl, ⟨?_, ?_, ?_, ?_⟩, ?_⟩ <;> simp [State.setInode]
    next hnone =>
      obtain ⟨i, hi⟩ := h.room
      have := List.find?_eq_none.1 hnone i (List.mem_finRange i)
      exact absurd (decide_eq_true hi) this

/-- `ilock` of an inode of the image. -/
theorem Carries.ilock (h : Carries st (finish s)) (hb : Built s L data) (hlim : s.freeinode ≤ limit)
    (hX : Allocated s X) (hc : Caches st (finish s) i X) (hbusy : (st.inode i).busy = false) :
    ∃ t, (ilock p i).run st = .ok () t ∧ Carries t (finish s) ∧ (t.inode i).dev = ROOTDEV ∧
      (t.inode i).d = dinodeOf sb (finish s).disk X := by
  have href := hc.ref
  have htype : (dinodeOf sb (finish s).disk X).type ≠ 0 := by
    rw [finish_dinode hb hlim hX]
    dsimp only
    rw [hb.type X hX.1 hX.2, typeOf]
    split_ifs <;> decide
  have hlock : ilockStep p i st = .ok () ((st.setInode i { st.inode i with busy := true }).addLock p i 1) := by
    rw [ilockStep, if_neg (by omega), if_neg (by rw [hbusy]; decide)]
  simp only [Fs.ilock, Prog.bind_eq]
  rw [Prog.run_atomic_bind hlock, Prog.run_atomic]
  have hinode : ((st.setInode i { st.inode i with busy := true }).addLock p i 1).inode i =
      { st.inode i with busy := true } := by
    simp [State.setInode, State.addLock, State.setAux]
  have hcarries : Carries ((st.setInode i { st.inode i with busy := true }).addLock p i 1) (finish s) :=
    h.congr rfl rfl
  generalize (st.setInode i { st.inode i with busy := true }).addLock p i 1 = t at hinode hcarries ⊢
  have hdev : (t.inode i).dev = ROOTDEV := by rw [hinode, hc.dev]
  have hinum : (t.inode i).inum = X := by rw [hinode, hc.inum]
  rw [iloadStep]
  by_cases hv : (st.inode i).valid
  · refine ⟨t, ?_, hcarries, hdev, ?_⟩
    · rw [hinode]
      exact if_pos hv
    · rw [hinode]
      exact hc.copy hv
  · have hib := iblock_lt (hX.2.trans_le hlim)
    have hfs : IBLOCK X sb < FSSIZE := hib.2.trans (bmapstart_lt.trans nmeta_lt)
    have hread : Dinode.read (t.block ROOTDEV (IBLOCK X sb)) X = dinodeOf sb (finish s).disk X := by
      rw [hcarries.disk _ hfs, dinodeOf]
    refine ⟨t.setInode i { t.inode i with d := dinodeOf sb (finish s).disk X, valid := true }, ?_,
      hcarries.congr rfl rfl, ?_, ?_⟩
    · have hv' : ¬ (t.inode i).valid := by rwa [hinode]
      dsimp only
      rw [if_neg hv', hdev, hinum, hcarries.sb_eq hb, onBlock_free hfs (hcarries.free _), hread, if_neg htype]
    · simpa [State.setInode] using hdev
    · simp [State.setInode]

/-- Look a name up in the directory `root`, and read the file from its beginning to its end: the result
has its size and what `readi` returns. -/
def lookupRead (p : Pid) (root : ISlot) (name : List UInt8) :
    Prog (State Pid) (Option (ℕ × Option (List UInt8))) := do
  match ← dirlookup p root name with
  | none => pure none
  | some (i, _) => do
    ilock p i
    let size ← Prog.reads fun s : State Pid => (s.inode i).d.size
    let bs ← readi p i 0 size none
    pure (some (size, bs))

end

/-- A list of input files that fits. -/
structure Fitting (files : List InFile) : Prop where
  count : files.length ≤ NINODES - 2
  size : ∀ f ∈ files, f.bytes.length ≤ MAXFILE * BSIZE
  blocks : nmeta + blocksOf (DIRENT * (files.length + 2)) + fileBlocks files ≤ FSSIZE
  name : ∀ f ∈ files, f.name ≠ []
  distinct : (([dot] :: [dot, dot] :: files.map InFile.name).map (List.take DIRSIZ)).Nodup

theorem InFile.name_ne_zero {f : InFile} : ∀ c ∈ f.name, c ≠ 0 := by
  intro c hc
  rw [InFile.name] at hc
  split_ifs at hc
  · exact f.arg_ne c (List.mem_of_mem_tail hc)
  · exact f.arg_ne c hc

section

variable {files : List InFile} {l : ℕ} {e : ℕ × List UInt8}

theorem map_snd_rootEntries : (rootEntries files).map Prod.snd = [dot] :: [dot, dot] :: files.map InFile.name := by
  have hentries : ∀ fi, (entries fi files).map Prod.snd = files.map InFile.name := by
    induction files with
    | nil => exact fun _ => rfl
    | cons f files ih => exact fun fi => congrArg (f.name :: ·) (ih (fi + 1))
  rw [rootEntries, List.map_cons, List.map_cons, hentries]

theorem rootEntries_inum (he : (rootEntries files)[l]? = some e) : e.1 < files.length + 2 := by
  match l, he with
  | 0, he | 1, he =>
    obtain rfl : _ = e := Option.some.inj he
    exact Nat.lt_add_left _ (by decide)
  | l + 2, he =>
    rw [rootEntries, List.getElem?_cons_succ, List.getElem?_cons_succ, getElem?_entries] at he
    obtain ⟨f, hf, rfl⟩ := Option.map_eq_some_iff.1 he
    obtain ⟨hl, -⟩ := List.getElem?_eq_some_iff.1 hf
    dsimp only
    omega

theorem rootEntries_name (he : (rootEntries files)[l]? = some e) : ∀ c ∈ e.2, c ≠ 0 := by
  have hmem : e.2 ∈ (rootEntries files).map Prod.snd := List.mem_map_of_mem (List.mem_of_getElem? he)
  rw [map_snd_rootEntries, List.mem_cons, List.mem_cons, List.mem_map] at hmem
  rcases hmem with h | h | ⟨f, -, h⟩
  · rw [h]
    simp [dot]
  · rw [h]
    simp [dot]
  · rw [← h]
    exact f.name_ne_zero

/-- Of the entries of the root directory only one has a given name. -/
theorem Fitting.namecmp_iff (hfit : Fitting files) {k : ℕ} {e' : ℕ × List UInt8}
    (he : (rootEntries files)[l]? = some e) (he' : (rootEntries files)[k]? = some e') :
    namecmp e'.2 (strncpy DIRSIZ e.2) = 0 ↔ l = k := by
  have hnames : ∀ {j : ℕ} {e : ℕ × List UInt8}, (rootEntries files)[j]? = some e →
      (([dot] :: [dot, dot] :: files.map InFile.name).map (List.take DIRSIZ))[j]? = some (e.2.take DIRSIZ) := by
    intro j e he
    rw [← map_snd_rootEntries, List.map_map, List.getElem?_map, he]
    rfl
  obtain ⟨hl, -⟩ := List.getElem?_eq_some_iff.1 (hnames he)
  rw [namecmp, strncmp_strncpy (rootEntries_name he') (rootEntries_name he), ← List.getElem?_inj hl hfit.distinct,
    hnames he, hnames he', Option.some.injEq]
  exact eq_comm

variable {Pid : Type} [DecidableEq Pid] {st : State Pid} {p : Pid} {root : ISlot} {s : Img} {L : ℕ → Live} {k : ℕ}
  {f : InFile}

/-- `dirlookup` finds the inode of the `k`th file. -/
theorem Mounted.dirlookup (h : Mounted st (finish s) root) (hfit : Fitting files)
    (hb : Built s L (addAll 2 rootData files)) (hfi : s.freeinode = files.length + 2) (hk : files[k]? = some f) :
    ∃ i t, (dirlookup p root f.name).run st = .ok (some (i, DIRENT * (k + 2))) t ∧ Carries t (finish s) ∧
      Caches t (finish s) i (2 + k) ∧ (t.inode i).busy = false := by
  have hcount : files.length ≤ 198 := hfit.count
  have hl : limit = 208 := rfl
  obtain ⟨hklt, -⟩ := List.getElem?_eq_some_iff.1 hk
  have hrd := h.locked.1.copy h.locked.2
  have halloc : Allocated s ROOTINO := ⟨by decide, by simp only [ROOTINO]; omega⟩
  have hread := h.readable hb (by omega) halloc h.locked.1.dev hrd
  rw [finish_dinode hb (by omega) halloc, if_pos rfl] at hrd
  have hlen : (addAll 2 rootData files ROOTINO).length = DIRENT * (files.length + 2) := by
    rw [length_addAll (by decide), length_rootData, ← Nat.mul_add, Nat.add_comm]
  have htype : (st.inode root).d.type = T_DIR := by
    rw [hrd]
    exact hb.type ROOTINO halloc.1 halloc.2
  have hsize : (addAll 2 rootData files ROOTINO).length ≤ (st.inode root).d.size := by
    rw [hrd]
    simp only [rounded, BSIZE]
    omega
  have hbytes := hb.bytes ROOTINO
  rw [root_eq] at hbytes
  have hdirent : ∀ {l : ℕ} {e : ℕ × List UInt8}, (rootEntries files)[l]? = some e →
      (L ROOTINO).dirent (DIRENT * l) = ⟨e.1, strncpy DIRSIZ e.2⟩ := fun he =>
    dirent_of_entries hbytes he ((rootEntries_inum he).trans (by omega))
  have hentry : (rootEntries files)[k + 2]? = some (2 + k, f.name) := by
    rw [rootEntries, List.getElem?_cons_succ, List.getElem?_cons_succ, getElem?_entries, hk]
    rfl
  obtain ⟨i, t, higet, hstore, hsb, hc, hbusy⟩ := h.iget (p := p) (show 2 + k ≠ ROOTINO by simp only [ROOTINO]; omega)
  refine ⟨i, t, hread.run_dirlookup htype hsize ?_ (fun l hl => ?_) ?_ ?_ ?_, h.congr hstore hsb, hc, hbusy⟩
  · rw [hlen]
    exact Nat.mul_le_mul_left _ (by omega)
  · obtain ⟨hk2, -⟩ := List.getElem?_eq_some_iff.1 hentry
    obtain ⟨e, he⟩ : ∃ e, (rootEntries files)[l]? = some e := ⟨_, List.getElem?_eq_getElem (hl.trans hk2)⟩
    rw [hdirent he]
    exact fun hz => hl.ne ((hfit.namecmp_iff he hentry).1 hz)
  · rw [hdirent hentry]
    dsimp only
    omega
  · rw [hdirent hentry]
    exact (hfit.namecmp_iff hentry hentry).2 rfl
  · rw [hdirent hentry, h.locked.1.dev]
    exact higet

/-- The inode of the `k`th file can be locked and read. -/
theorem Carries.read (h : Carries st (finish s)) (hb : Built s L (addAll 2 rootData files))
    (hfi : s.freeinode = files.length + 2) (hlim : files.length + 2 ≤ limit) (hk : files[k]? = some f) {i : ISlot}
    (hc : Caches st (finish s) i (2 + k)) (hbusy : (st.inode i).busy = false) :
    ∃ t, (Fs.ilock p i).run st = .ok () t ∧ (t.inode i).d.size = f.bytes.length ∧
      (readi p i 0 f.bytes.length none).run t = .ok (some f.bytes) t := by
  obtain ⟨hklt, -⟩ := List.getElem?_eq_some_iff.1 hk
  have hX : Allocated s (2 + k) := ⟨by omega, by omega⟩
  have hne : 2 + k ≠ ROOTINO := by
    simp only [ROOTINO]
    omega
  have hdata : addAll 2 rootData files (2 + k) = f.bytes := addAll_file (by decide) hk
  obtain ⟨t, hlock, hcarries, hdev, hd⟩ := h.ilock (p := p) hb (by omega) hX hc hbusy
  have hread := hcarries.readable hb (by omega) hX hdev hd
  have hbytes := hb.bytes (2 + k)
  rw [finish_dinode hb (by omega) hX, if_neg hne, hdata] at hd
  rw [hdata] at hread hbytes
  have htype : (t.inode i).d.type ≠ T_DEV := by
    rw [hd]
    dsimp only
    rw [hb.type _ hX.1 hX.2, typeOf, if_neg hne]
    decide
  have hsize : (t.inode i).d.size = f.bytes.length := by rw [hd]
  refine ⟨t, hlock, hsize, ?_⟩
  rw [hread.run_readi (Nat.zero_add _).le htype hsize.ge, hbytes]

/-- For every list of files that fits, on the image that `mkfs` writes the kernel finds each name in the
root directory, and reads the bytes of that file. If the files can be opened and the arguments have no
slash, there is such an image. -/
theorem lookupRead_of_makes (hfit : Fitting files) :
    (∀ img, Makes files img → ∀ (st : State Pid) (root : ISlot) (p : Pid), Mounted st img root → ∀ f ∈ files,
      ∃ t, (lookupRead p root f.name).run st = .ok (some (f.bytes.length, some f.bytes)) t) ∧
    ((∀ f ∈ files, slash ∉ f.arg ∧ f.chunks ≠ none) → ∃ img, Makes files img) := by
  have hlim : files.length + 2 ≤ limit := (Nat.add_le_add_right hfit.count 2).trans (by decide)
  constructor
  · intro img himg st root p hm f hf
    obtain ⟨s, L, hb, hfi, rfl⟩ := himg.finish hlim
    obtain ⟨k, hk⟩ := List.mem_iff_getElem?.1 hf
    obtain ⟨i, t, hlookup, hcarries, hc, hbusy⟩ := hm.dirlookup (p := p) hfit hb hfi hk
    obtain ⟨u, hlock, hsize, hread⟩ := hcarries.read (p := p) hb hfi hlim hk hc hbusy
    refine ⟨u, ?_⟩
    simp only [lookupRead, Prog.bind_eq]
    rw [Prog.run_bind_ok hlookup]
    dsimp only
    rw [Prog.run_bind_ok hlock, Prog.run_reads_bind, hsize, Prog.run_bind_ok hread]
    rfl
  · intro hplain
    exact exists_makes hlim ⟨fun f hf => ⟨(hplain f hf).1, (hplain f hf).2, hfit.size f hf⟩, hfit.blocks⟩

end

/-- The kernel has started, and a process has locked the root directory. -/
def booted (img : Img) : State ℕ where
  store := ⟨fun _ => img.disk, fun _ _ => none⟩
  sb := .ofBytes (img.disk 1)
  inode i := if i = 0 then ⟨ROOTDEV, ROOTINO, 1, true, true, dinodeOf sb img.disk ROOTINO⟩
    else ⟨0, 0, 0, false, false, .fresh 0⟩
  file _ := ⟨.none, 0, false, false, 0, 0⟩
  proc _ := ⟨.unused, fun _ => none, none, 0⟩
  aux _ := ⟨0, fun _ => 0, none⟩
  alive _ := true

theorem mounted_booted {img : Img} : Mounted (booted img) img 0 := by
  have hroot : Caches (booted img) img 0 ROOTINO := ⟨Int.one_pos, rfl, rfl, fun _ => rfl⟩
  have hcases : ∀ i, 0 < ((booted img).inode i).ref → i = 0 := by
    intro i href
    by_contra hi
    simp [booted, hi] at href
  refine ⟨⟨fun _ _ => rfl, fun _ => rfl, rfl⟩, ⟨hroot, rfl⟩, fun i href _ => ?_, fun i hi href => absurd (hcases i href) hi,
    1, rfl⟩
  obtain rfl := hcases i href
  exact hroot

/-- A file `a` of three bytes, from the argument `_a`. -/
def sample : InFile where
  arg := [underscore, 97]
  chunks := some [[1, 2], [3]]
  chunk_ne := by simp
  chunk_le := by decide
  arg_ne := by simp [underscore]

theorem lookupRead_of_makes_sample : ∃ img, Makes [sample] img ∧
    ∃ t, (lookupRead 0 0 [97]).run (booted img) = .ok (some (3, some [1, 2, 3])) t := by
  have hfit : Fitting [sample] := ⟨by decide, by decide, by decide, by decide, by decide⟩
  obtain ⟨hall, hex⟩ := @lookupRead_of_makes [sample] ℕ _ hfit
  obtain ⟨img, himg⟩ := hex (by decide)
  exact ⟨img, himg, hall img himg (booted img) 0 0 mounted_booted sample List.mem_cons_self⟩

end Xv6.Mkfs
