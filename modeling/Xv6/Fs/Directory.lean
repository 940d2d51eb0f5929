import Xv6.Fs.File
import Xv6.Lib.Slots

/-!
# Directories as finite maps

The contents of a directory are a table of slots in the sense of `Xv6.Lib.Slots`: an entry with a non-zero
i-number binds its name. `dirlookup`, `dirlink` and the way `sys_unlink` clears an entry are the operations of
such a table, first on the bytes of the directory and then on the finite map that they are.
-/

namespace Xv6.Fs

open Conc Lib Prog
open Function (update update_self update_of_ne)

/-! ## The bytes of a directory -/

namespace Directory

/-- What a name is in a directory. -/
def key (name : List UInt8) : List UInt8 := cut DIRSIZ name

/-- What an entry binds. -/
def slotOf (de : Dirent) : Option (List UInt8 × ℕ) := if de.inum = 0 then none else some (key de.name, de.inum)

def slotAt (data : List UInt8) (j : ℕ) : Option (List UInt8 × ℕ) := slotOf (direntAt data (DIRENT * j))

/-- What is bound to a name: the i-number, and the offset of the entry. -/
def bound (data : List UInt8) (k : List UInt8) : Option (ℕ × ℕ) :=
  (Slots.find (slotAt data) (data.length / DIRENT) k).map fun r => (r.2, DIRENT * r.1)

/-- A directory consists of entries, and no two of those in use have the same name. -/
structure WellFormed (data : List UInt8) : Prop where
  entries : data.length % DIRENT = 0
  distinct : Slots.Distinct (slotAt data) (data.length / DIRENT)

/-- There is a free entry, or the directory can grow. -/
def HasRoom (data : List UInt8) : Prop :=
  (∃ j < data.length / DIRENT, slotAt data j = none) ∨ data.length < MAXFILE * BSIZE

/-- The slot for a new entry: the first free one, or the end. -/
def free (data : List UInt8) : ℕ := Slots.gap (slotAt data) (data.length / DIRENT) 0

/-- The directory with a new entry. -/
def linked (data name : List UInt8) (inum : ℕ) : List UInt8 :=
  overwrite data (DIRENT * free data) (Dirent.bytes ⟨inum, strncpy DIRSIZ name⟩)

/-- The directory without the entry at `off`. -/
def cleared (data : List UInt8) (off : ℕ) : List UInt8 := overwrite data off (List.replicate DIRENT 0)

section

variable {data name src k : List UInt8} {j inum off : ℕ}

theorem namecmp_eq_zero_iff {s t : List UInt8} : namecmp s t = 0 ↔ key s = key t := strncmp_eq_zero_iff

theorem length_bytes_dirent (inum : ℕ) (name : List UInt8) : (Dirent.bytes ⟨inum, strncpy DIRSIZ name⟩).length = DIRENT := by
  rw [Dirent.bytes, List.length_append, Bytes.length_le, length_strncpy]
  rfl

theorem slotAt_overwrite (hj : DIRENT * j ≤ data.length) (hsrc : src.length = DIRENT) :
    slotAt (overwrite data (DIRENT * j) src) = update (slotAt data) j (slotOf (.ofBytes src)) := by
  funext l
  rw [slotAt, direntAt_overwrite hj (Nat.mul_mod_right ..) hsrc (Nat.mul_mod_right ..)]
  by_cases hl : l = j
  · rw [hl, if_pos rfl, update_self]
  · rw [if_neg (fun h => hl (Nat.eq_of_mul_eq_mul_left (by decide) h)), update_of_ne hl, slotAt]

theorem free_le : free data ≤ data.length / DIRENT := by
  have := (Slots.gap_spec (e := slotAt data) (m := data.length / DIRENT) (j := 0)).2.1
  rwa [Nat.zero_add] at this

theorem slotAt_free (h : free data < data.length / DIRENT) : slotAt data (free data) = none :=
  Slots.gap_spec.2.2 (by rwa [Nat.zero_add])

theorem HasRoom.le (h : HasRoom data) (hlen : data.length % DIRENT = 0) (hmax : data.length ≤ MAXFILE * BSIZE) :
    DIRENT * free data + DIRENT ≤ MAXFILE * BSIZE := by
  have hle := @free_le data
  rcases h with ⟨j, hj, hnone⟩ | hlt
  · have hfree : free data < 0 + data.length / DIRENT := Slots.gap_lt (Nat.zero_le j) (by omega) hnone
    simp only [DIRENT] at *
    omega
  · simp only [DIRENT, MAXFILE, NDIRECT, NINDIRECT, BSIZE] at *
    omega

/-- The slots of a directory after an entry has been written. -/
theorem length_overwrite_entry (hwf : data.length % DIRENT = 0) (hj : DIRENT * j ≤ data.length)
    (hsrc : src.length = DIRENT) : (overwrite data (DIRENT * j) src).length % DIRENT = 0 ∧
      (overwrite data (DIRENT * j) src).length / DIRENT = max (data.length / DIRENT) (j + 1) := by
  rw [length_overwrite hj, hsrc]
  simp only [DIRENT] at *
  omega

theorem find_of_bound (h : bound data k = some (inum, off)) :
    ∃ j, off = DIRENT * j ∧ Slots.find (slotAt data) (data.length / DIRENT) k = some (j, inum) := by
  obtain ⟨⟨j, v⟩, hj, he⟩ := Option.map_eq_some_iff.1 h
  obtain ⟨rfl, rfl⟩ := Prod.mk.inj he
  exact ⟨j, rfl, hj⟩

theorem slotOf_new (hinum : inum ≠ 0) (hlt : inum < 2 ^ 16) :
    slotOf (.ofBytes (Dirent.bytes ⟨inum, strncpy DIRSIZ name⟩)) = some (key name, inum) := by
  rw [Dirent.ofBytes_bytes hlt, slotOf, if_neg hinum, key, cut_strncpy]
  rfl

theorem slotOf_zero : slotOf (.ofBytes (List.replicate DIRENT 0)) = none := by decide

/-- What happens to one name in the table happens to it in the map. -/
theorem bound_of_find {data' : List UInt8} {r : Option (ℕ × ℕ)}
    (h : Slots.find (slotAt data') (data'.length / DIRENT) =
      update (Slots.find (slotAt data) (data.length / DIRENT)) k r) :
    bound data' = update (bound data) k (r.map fun r => (r.2, DIRENT * r.1)) := by
  funext k'
  rw [bound, h]
  by_cases hk : k' = k
  · rw [hk, update_self, update_self]
  · rw [update_of_ne hk, update_of_ne hk, bound]

/-- A new name is bound, and no other name is affected. -/
theorem WellFormed.link (h : WellFormed data) (hnew : bound data (key name) = none) (hinum : inum ≠ 0)
    (hlt : inum < 2 ^ 16) : WellFormed (linked data name inum) ∧
      bound (linked data name inum) = update (bound data) (key name) (some (inum, DIRENT * free data)) := by
  have hle := @free_le data
  have hoff : DIRENT * free data ≤ data.length := by
    simp only [DIRENT] at *
    omega
  have hnone := Option.map_eq_none_iff.1 hnew
  obtain ⟨hmod, hdiv⟩ := length_overwrite_entry h.entries hoff (length_bytes_dirent inum name)
  have hslots := slotAt_overwrite hoff (length_bytes_dirent inum name)
  rw [slotOf_new hinum hlt] at hslots
  refine ⟨⟨hmod, ?_⟩, ?_⟩
  · rw [linked, hdiv, hslots]
    exact h.distinct.insert hnone hle
  · have hfind := Slots.find_insert (v := inum) h.distinct hnone hle slotAt_free
    rw [← hdiv, ← hslots] at hfind
    exact bound_of_find hfind

/-- The entry of a bound name is cleared: no other name is affected. -/
theorem WellFormed.clear (h : WellFormed data) (hk : bound data k = some (inum, off)) :
    off + DIRENT ≤ data.length ∧ WellFormed (cleared data off) ∧
      bound (cleared data off) = update (bound data) k none := by
  obtain ⟨j, rfl, hj⟩ := find_of_bound hk
  obtain ⟨hlt, -⟩ := (Slots.find_eq_some_iff h.distinct).1 hj
  have hoff : DIRENT * j + DIRENT ≤ data.length := by
    simp only [DIRENT] at *
    omega
  have hle : DIRENT * j ≤ data.length := by omega
  have hzero : (List.replicate DIRENT (0 : UInt8)).length = DIRENT := rfl
  obtain ⟨hmod, hdiv⟩ := length_overwrite_entry h.entries hle hzero
  have hslots := slotAt_overwrite hle hzero
  rw [slotOf_zero] at hslots
  rw [max_eq_left (by omega)] at hdiv
  refine ⟨hoff, ⟨hmod, ?_⟩, ?_⟩
  · rw [cleared, hdiv, hslots]
    exact h.distinct.erase
  · have hfind := Slots.find_erase h.distinct hj
    nth_rewrite 1 [← hdiv] at hfind
    rw [← hslots] at hfind
    exact bound_of_find hfind

end

end Directory

/-- An entry is in one block. -/
theorem touched_entry {off : ℕ} (hoff : off % DIRENT = 0) : touched off DIRENT = {off / BSIZE} := by
  refine touched_block (by decide) ?_
  simp only [DIRENT, BSIZE] at *
  omega

theorem Live.need_entry_le {L : Live} {off : ℕ} (hoff : off % DIRENT = 0) : L.need (touched off DIRENT) ≤ 2 := by
  rw [touched_entry hoff, Live.need_singleton]
  split_ifs <;> omega

/-- Nothing has to be allocated for an entry that is there. -/
theorem Live.Ok.need_entry {L : Live} {n off : ℕ} (h : L.Ok n) (hoff : off % DIRENT = 0) (hlt : off + DIRENT ≤ L.c.size) :
    L.need (touched off DIRENT) = 0 := by
  have haddr : L.addr (off / BSIZE) ≠ 0 := h.full _ (by simp only [BSIZE, DIRENT] at *; omega)
  rw [touched_entry hoff, Live.need_singleton, if_neg haddr, if_neg fun hc => h.ptr_ne hc.1 haddr hc.2]

variable {Pid : Type}

/-! ## Entries of the inode cache -/

/-- What `iget` does when every entry of the cache is in use. -/
def noInodes : Fault := .panic "iget: no inodes"

/-- The number of entries that are not in use. -/
def idle (s : State Pid) : ℕ := (Finset.univ.filter fun j : ISlot => (s.inode j).ref = 0).card

/-- The entry that `iget` returns has the inode already, or no entry has it and the entry is not in use. -/
def State.Gets (s : State Pid) (dev inum : ℕ) (j : ISlot) : Prop :=
  (0 < (s.inode j).ref ∧ (s.inode j).dev = dev ∧ (s.inode j).inum = inum) ∨
    ((s.inode j).ref = 0 ∧ ∀ l, 0 < (s.inode l).ref → (s.inode l).dev = dev → (s.inode l).inum ≠ inum)

/-- The entry after `iget` has returned it. -/
def Inode.gotten (ip : Inode) (dev inum : ℕ) : Inode :=
  if 0 < ip.ref then { ip with ref := ip.ref + 1 }
  else { ip with dev, inum, ref := 1, busy := false, valid := false }

/-- The state after a reference to an entry has been dropped. -/
def State.dropped (s : State Pid) (j : ISlot) : State Pid :=
  s.setInode j { s.inode j with ref := (s.inode j).ref - 1 }

variable [DecidableEq Pid]

/-- The state after `iget`. -/
def State.gotten (s : State Pid) (p : Pid) (dev inum : ℕ) (j : ISlot) : State Pid :=
  (s.setMarked p none).setInode j ((s.inode j).gotten dev inum)

section

variable {s : State Pid} {p : Pid} {dev inum : ℕ} {j : ISlot} {F : Fault → Prop}

theorem ends_iget {Q : ISlot → State Pid → Prop} (hF : idle s = 0 → F noInodes)
    (hQ : ∀ j, s.Gets dev inum j → Q j (s.gotten p dev inum j)) : (iget p dev inum).Ends F s Q := by
  refine ends_atomic ?_
  have hsame : ∀ l, (s.setMarked p none).inode l = s.inode l := fun _ => rfl
  simp only [igetStep, hsame]
  split
  next j hj =>
    have hfound := List.find?_some hj
    simp only [decide_eq_true_eq] at hfound
    have hgot := hQ j (Or.inl hfound)
    rwa [State.gotten, Inode.gotten, if_pos hfound.1] at hgot
  next hnone =>
    have hno : ∀ l, 0 < (s.inode l).ref → (s.inode l).dev = dev → (s.inode l).inum ≠ inum := by
      intro l href hdev hinum
      have := List.find?_eq_none.1 hnone l (List.mem_finRange l)
      exact this (decide_eq_true ⟨href, hdev, hinum⟩)
    split
    next j hj =>
      have hfree := List.find?_some hj
      simp only [decide_eq_true_eq] at hfree
      have hgot := hQ j (Or.inr ⟨hfree, hno⟩)
      rwa [State.gotten, Inode.gotten, if_neg (by omega)] at hgot
    next hfull =>
      refine hF (Finset.card_eq_zero.2 (Finset.filter_eq_empty_iff.2 fun l _ hl => ?_))
      exact List.find?_eq_none.1 hfull l (List.mem_finRange l) (decide_eq_true hl)

/-- A reference that is not the last one to an inode without links is dropped. -/
theorem run_iput (h : ¬((s.inode j).ref = 1 ∧ (s.inode j).valid ∧ (s.inode j).d.nlink = 0)) :
    (iput p j).run s = .ok () (s.dropped j) := by
  have hstep : iputStep p j s = .ok false (s.dropped j) := by
    rw [iputStep]
    exact if_neg h
  rw [iput, Prog.bind_eq, Prog.run_atomic_bind hstep]
  rfl

theorem inode_gotten : (s.gotten p dev inum j).inode = update s.inode j ((s.inode j).gotten dev inum) := rfl

theorem idle_le_gotten : idle s ≤ idle (s.gotten p dev inum j) + 1 := by
  have hsub : (Finset.univ.filter fun l : ISlot => (s.inode l).ref = 0) ⊆
      insert j (Finset.univ.filter fun l : ISlot => ((s.gotten p dev inum j).inode l).ref = 0) := by
    intro l hl
    by_cases hlj : l = j
    · rw [hlj]
      exact Finset.mem_insert_self ..
    · refine Finset.mem_insert_of_mem ?_
      rw [Finset.mem_filter, inode_gotten, update_of_ne hlj]
      exact Finset.mem_filter.1 hl
  exact (Finset.card_le_card hsub).trans (Finset.card_insert_le ..)

namespace State.Gets

omit [DecidableEq Pid] in
theorem entry (h : s.Gets dev inum j) : ((s.inode j).gotten dev inum).dev = dev ∧
    ((s.inode j).gotten dev inum).inum = inum ∧ 1 ≤ ((s.inode j).gotten dev inum).ref := by
  rw [Inode.gotten]
  rcases h with ⟨href, hdev, hinum⟩ | ⟨href, -⟩
  · rw [if_pos href]
    exact ⟨hdev, hinum, by dsimp only; omega⟩
  · rw [if_neg (by omega)]
    exact ⟨rfl, rfl, le_rfl⟩

/-- A reference that `iget` has just returned is never the last one to an inode without links. -/
theorem not_last (h : s.Gets dev inum j) : ¬(((s.gotten p dev inum j).inode j).ref = 1 ∧
    ((s.gotten p dev inum j).inode j).valid ∧ ((s.gotten p dev inum j).inode j).d.nlink = 0) := by
  rw [inode_gotten, update_self, Inode.gotten]
  rcases h with ⟨href, -⟩ | ⟨href, -⟩
  · rw [if_pos href]
    dsimp only
    omega
  · rw [if_neg (by omega)]
    simp

/-- A reference that is dropped at once. -/
theorem ref_dropped (h : s.Gets dev inum j) (l : ISlot) :
    (((s.gotten p dev inum j).dropped j).inode l).ref = (s.inode l).ref := by
  rcases eq_or_ne l j with rfl | hl
  · rw [State.dropped, inode_setInode, inode_gotten, update_self, Inode.gotten]
    dsimp only
    rcases h with ⟨href, -⟩ | ⟨href, -⟩
    · rw [if_pos href]
      dsimp only
      omega
    · rw [if_neg (by omega)]
      dsimp only
      omega
  · rw [State.dropped, State.setInode]
    dsimp only
    rw [update_of_ne hl, inode_gotten, update_of_ne hl]

end State.Gets

omit [DecidableEq Pid] in
theorem idle_congr {s' : State Pid} (h : ∀ l, (s'.inode l).ref = (s.inode l).ref) : idle s' = idle s := by
  simp only [idle, h]

end

/-! ## A directory in the cache -/

/-- Entry `i` is in use and has inode `X`, which is `L`. -/
structure Kept (n : ℕ) (node : ℕ → Body) (s : State Pid) (i : ISlot) (X : ℕ) (L : Live)
    (owner : ℕ → Option (Loc Pid)) : Prop extends Sits n node s i X L owner where
  ref : 1 ≤ (s.inode i).ref

section

variable {n : ℕ} {node : ℕ → Body} {s s' : State Pid} {i j : ISlot} {X : ℕ} {L M : Live}
  {owner owner' : ℕ → Option (Loc Pid)} {p : Pid} {F : Fault → Prop} {name : List UInt8} {dev inum : ℕ}

namespace Kept

theorem gotten (h : Kept n node s i X L owner) (hj : s.Gets dev inum j) :
    Kept n node (s.gotten p dev inum j) i X L owner := by
  have href := h.ref
  rcases eq_or_ne i j with rfl | hij
  · have he : (s.gotten p dev inum i).inode i = { s.inode i with ref := (s.inode i).ref + 1 } := by
      rw [inode_gotten, update_self, Inode.gotten, if_pos (by omega)]
    exact ⟨h.toSits.congr rfl rfl (by rw [he]) (by rw [he]) (by rw [he]), by rw [he]; dsimp only; omega⟩
  · have he : (s.gotten p dev inum j).inode i = s.inode i := by
      rw [inode_gotten, update_of_ne hij]
    exact ⟨h.toSits.congr rfl rfl (by rw [he]) (by rw [he]) (by rw [he]), by rwa [he]⟩

omit [DecidableEq Pid] in
theorem dropped (h : Kept n node s i X L owner) (href : 1 ≤ ((s.dropped j).inode i).ref) :
    Kept n node (s.dropped j) i X L owner := by
  refine ⟨h.toSits.congr rfl rfl ?_ ?_ ?_, href⟩ <;> by_cases hij : i = j
  all_goals first | (subst hij; simp [State.dropped]) | simp [State.dropped, State.setInode, hij]

end Kept

namespace Sits

theorem data_length : L.node.data.length = L.c.size := L.length_bytes

theorem run_readDirent (h : Sits n node s i X L owner) (ht : L.c.type = T_DIR) {off : ℕ} {msg : String}
    (hoff : off + DIRENT ≤ L.c.size) : (readDirent p i off msg).run s = .ok (direntAt L.node.data off) s := by
  have hdev : (s.inode i).d.type ≠ T_DEV := by
    rw [h.d, ht]
    decide
  rw [h.readable.run_readDirent hoff hdev (by rw [h.d]), L.dirent_eq hoff]
  rfl

omit [DecidableEq Pid] in
/-- The entry at `j` is before the end, and the next one follows. -/
theorem dirent_step {j m size : ℕ} (hm : DIRENT * (j + (m + 1)) = size) :
    DIRENT * j < size ∧ DIRENT * j + DIRENT ≤ size ∧ DIRENT * (j + 1 + m) = size ∧
      DIRENT * j + DIRENT = DIRENT * (j + 1) := by
  simp only [DIRENT] at *
  omega

/-- The loop of `dirlookup` over the `m` entries from `j` on. -/
theorem run_dirScan (h : Sits n node s i X L owner) (ht : L.c.type = T_DIR) (name : List UInt8) {fuel j m : ℕ}
    (hm : DIRENT * (j + m) = L.c.size) (hfuel : m < fuel) :
    (dirScan p i name fuel (DIRENT * j)).run s = .ok ((Slots.scan (Directory.slotAt L.node.data)
      (Directory.key name) m j).map fun r => (r.2, DIRENT * r.1)) s := by
  induction fuel generalizing j m with
  | zero => omega
  | succ fuel ih =>
    simp only [dirScan, Prog.bind_eq]
    rw [Prog.run_reads_bind, h.d]
    cases m with
    | zero =>
      rw [if_neg (by rw [← hm]; exact lt_irrefl _)]
      rfl
    | succ m =>
      obtain ⟨hlt, hj, hnext, hstep⟩ := dirent_step hm
      have hrest := ih hnext (by omega)
      rw [if_pos hlt, Prog.run_bind_ok (h.run_readDirent ht hj), hstep]
      -- the entry is free, has the name, or has another name
      generalize hde : direntAt L.node.data (DIRENT * j) = de
      have hslot : Directory.slotAt L.node.data j = Directory.slotOf de := by rw [Directory.slotAt, hde]
      by_cases hz : de.inum = 0
      · rw [if_neg (fun hc => hc.1 hz), hrest, Slots.scan_succ]
        rw [hslot, Directory.slotOf, if_pos hz]
        exact fun _ => (Option.some_ne_none _).symm
      · rw [Directory.slotOf, if_neg hz] at hslot
        by_cases hname : namecmp name de.name = 0
        · rw [Directory.namecmp_eq_zero_iff] at hname
          rw [if_pos ⟨hz, Directory.namecmp_eq_zero_iff.2 hname⟩, Slots.scan_hit (by rw [hslot, ← hname])]
          rfl
        · rw [if_neg (fun hc => hname hc.2), hrest, Slots.scan_succ]
          intro v hv
          rw [hslot] at hv
          exact hname (Directory.namecmp_eq_zero_iff.2 (Prod.mk.inj (Option.some.inj hv)).1.symm)

/-- The second loop of `dirlink` over the `m` entries from `j` on. -/
theorem run_dirEmpty (h : Sits n node s i X L owner) (ht : L.c.type = T_DIR) {fuel j m : ℕ}
    (hm : DIRENT * (j + m) = L.c.size) (hfuel : m < fuel) :
    (dirEmpty p i fuel (DIRENT * j)).run s = .ok (DIRENT * Slots.gap (Directory.slotAt L.node.data) m j) s := by
  induction fuel generalizing j m with
  | zero => omega
  | succ fuel ih =>
    simp only [dirEmpty, Prog.bind_eq]
    rw [Prog.run_reads_bind, h.d]
    cases m with
    | zero =>
      rw [if_neg (by rw [← hm]; exact lt_irrefl _)]
      rfl
    | succ m =>
      obtain ⟨hlt, hj, hnext, hstep⟩ := dirent_step hm
      have hrest := ih hnext (by omega)
      rw [if_pos hlt, Prog.run_bind_ok (h.run_readDirent ht hj), hstep, Slots.gap,
        Directory.slotAt, Directory.slotOf]
      by_cases hz : (direntAt L.node.data (DIRENT * j)).inum = 0
      · rw [if_pos hz, if_pos hz]
        rfl
      · rw [if_neg hz, if_neg hz]
        exact hrest

end Sits

namespace Kept

/-- `dirlookup` returns what the name is bound to. -/
theorem ends_dirlookup {Q : Option (ISlot × ℕ) → State Pid → Prop} (h : Kept n node s i X L owner)
    (ht : L.c.type = T_DIR) (hlen : L.node.data.length % DIRENT = 0) (hF : idle s = 0 → F noInodes)
    (hnone : Directory.bound L.node.data (Directory.key name) = none → Q none s)
    (hsome : ∀ inum off, Directory.bound L.node.data (Directory.key name) = some (inum, off) →
      ∀ j, s.Gets ROOTDEV inum j → Q (some (j, off)) (s.gotten p ROOTDEV inum j)) :
    (dirlookup p i name).Ends F s Q := by
  have hdata : L.node.data.length = L.c.size := Sits.data_length
  have hm : DIRENT * (0 + L.c.size / DIRENT) = L.c.size := by
    rw [hdata] at hlen
    simp only [DIRENT] at *
    omega
  have hscan := h.toSits.run_dirScan (p := p) ht name hm (Nat.lt_succ_self _)
  have hbound : (Slots.scan (Directory.slotAt L.node.data) (Directory.key name) (L.c.size / DIRENT) 0).map
      (fun r => (r.2, DIRENT * r.1)) = Directory.bound L.node.data (Directory.key name) := by
    rw [Directory.bound, hdata]
    rfl
  rw [hbound] at hscan
  refine Ends.bind (ends_reads ?_)
  rw [h.d, h.dev, if_neg (not_not.2 ht)]
  refine Ends.bind (Ends.of_run hscan ?_)
  cases hb : Directory.bound L.node.data (Directory.key name) with
  | none => exact ends_pure (hnone hb)
  | some r => exact Ends.bind (ends_iget hF fun j hj => ends_pure (hsome r.1 r.2 hb j hj))

end Kept

namespace Kept

/-- An entry of the directory is written. -/
theorem ends_writeEntry {src : List UInt8} {off : ℕ} {Q : ℤ → State Pid → Prop} (h : Kept 0 node s i X L owner)
    (ht : L.c.type = T_DIR) (hsrc : src.length = DIRENT) (hoff : off ≤ L.c.size)
    (hmax : off + DIRENT ≤ MAXFILE * BSIZE) (hF : spare s.sb owner < L.need (touched off DIRENT) → F outOfBlocks)
    (hQ : ∀ s' M owner', Kept 0 node s' i X M owner' → s'.sb = s.sb → idle s' = idle s →
      M.node = { L.node with data := overwrite L.node.data off src } →
      spare s.sb owner' + L.need (touched off DIRENT) = spare s.sb owner → Q DIRENT s') :
    (writei p i src off).Ends F s Q := by
  have hdev : L.c.type ≠ T_DEV := by
    rw [ht]
    decide
  refine Logged.erases_writei.ends (h.toSits.ends_writei (l := []) hdev (fun h => absurd rfl h) (by rw [hsrc]; decide)
    (fun hno => ?_) (fun _ _ hs => hF (by rwa [← hsrc])) fun _ _ s' M owner' w hs' ha hM hspare => ?_)
  · rw [hsrc] at hno
    omega
  · have href : ∀ l, (s'.inode l).ref = (s.inode l).ref := by
      intro l
      rw [ha.inode]
      by_cases hl : l = i
      · rw [hl, update_self]
      · rw [update_of_ne hl]
    rw [hsrc] at hspare ⊢
    exact hQ s' M owner' ⟨hs', by rw [href]; exact h.ref⟩ ha.sb (idle_congr href) hM.node hspare

/-- `dirlink` leaves a directory that has the name as it is, and adds an entry to one that has not. -/
theorem ends_dirlink {Q : ℤ → State Pid → Prop} (h : Kept 0 node s i X L owner) (ht : L.c.type = T_DIR)
    (hlen : L.node.data.length % DIRENT = 0)
    (hroom : Directory.bound L.node.data (Directory.key name) = none → Directory.HasRoom L.node.data)
    (hF : idle s = 0 → F noInodes) (hF' : spare s.sb owner < 2 → F outOfBlocks)
    (hold : Directory.bound L.node.data (Directory.key name) ≠ none → ∀ s', Kept 0 node s' i X L owner →
      s'.sb = s.sb → idle s' = idle s → Q (-1) s')
    (hnew : Directory.bound L.node.data (Directory.key name) = none → ∀ s' M owner', Kept 0 node s' i X M owner' →
      s'.sb = s.sb → idle s' = idle s → M.node = { L.node with data := Directory.linked L.node.data name inum } →
      spare s.sb owner ≤ spare s.sb owner' + 2 → Q 0 s') :
    (dirlink p i name inum).Ends F s Q := by
  refine Ends.bind (h.ends_dirlookup ht hlen hF (fun hb => ?_) fun inum' off hb j hj => ?_)
  · have hsize : L.node.data.length = L.c.size := Sits.data_length
    have hle := @Directory.free_le L.node.data
    have hmax := (hroom hb).le hlen (by rw [hsize]; exact h.ok.size_le)
    have hoff : DIRENT * Directory.free L.node.data ≤ L.c.size := by
      simp only [DIRENT] at *
      omega
    have hm : DIRENT * (0 + L.c.size / DIRENT) = L.c.size := by
      rw [hsize] at hlen
      simp only [DIRENT] at *
      omega
    have hgap : Slots.gap (Directory.slotAt L.node.data) (L.c.size / DIRENT) 0 = Directory.free L.node.data := by
      rw [Directory.free, hsize]
    have hneed := Live.need_entry_le (L := L) (Nat.mul_mod_right DIRENT (Directory.free L.node.data))
    refine Ends.bind (ends_reads ?_)
    rw [h.d]
    refine Ends.bind (Ends.of_run (h.toSits.run_dirEmpty ht hm (Nat.lt_succ_self _)) ?_)
    rw [hgap]
    refine Ends.bind (h.ends_writeEntry ht (Directory.length_bytes_dirent inum name) hoff hmax (fun hs => hF' (by omega))
      fun s' M owner' hs' hsb hidle hM hspare => ?_)
    rw [if_neg (not_not.2 rfl)]
    exact ends_pure (hnew hb s' M owner' hs' hsb hidle hM (by omega))
  · have href : ∀ l, (((s.gotten p ROOTDEV inum' j).dropped j).inode l).ref = (s.inode l).ref := hj.ref_dropped
    refine Ends.bind (Ends.of_run (run_iput hj.not_last) (ends_pure (hold (by simp [hb]) _ ?_ rfl (idle_congr href))))
    exact (h.gotten hj).dropped (by rw [href]; exact h.ref)

end Kept

end

/-! ## Sequences of operations -/

namespace Directory

/-- What is done to a directory. -/
inductive Op where
  | lookup (name : List UInt8)
  | link (name : List UInt8) (inum : ℕ)
  | clear (name : List UInt8)

/-- What the caller gets: the device and the i-number of the inode that `dirlookup` has returned, and `*poff`;
the result of `dirlink`; whether there was an entry to clear. -/
inductive Answer where
  | found (r : Option (ℕ × ℕ × ℕ))
  | linked (r : ℤ)
  | cleared (hit : Bool)

/-- The code. An entry is cleared as in `sys_unlink`. -/
def perform (p : Pid) (i : ISlot) : Op → Prog (State Pid) Answer
  | .lookup name => do
    match ← dirlookup p i name with
    | none => pure (.found none)
    | some (ip, off) => do
      let e ← Prog.reads fun s : State Pid => s.inode ip
      pure (.found (some (e.dev, e.inum, off)))
  | .link name inum => do
    let r ← dirlink p i name inum
    pure (.linked r)
  | .clear name => do
    match ← dirlookup p i name with
    | none => pure (.cleared false)
    | some (_, off) => do
      let r ← writei p i (List.replicate DIRENT 0) off
      if r ≠ DIRENT then .fail (.panic "unlink: writei") else pure (.cleared true)

def performAll (p : Pid) (i : ISlot) : List Op → Prog (State Pid) (List Answer)
  | [] => pure []
  | op :: ops => do
    let a ← perform p i op
    let as ← performAll p i ops
    pure (a :: as)

/-- The bytes of the directory after an operation. -/
def after (data : List UInt8) : Op → List UInt8
  | .lookup _ => data
  | .link name inum => if bound data (key name) = none then linked data name inum else data
  | .clear name =>
    match bound data (key name) with
    | none => data
    | some (_, off) => cleared data off

/-- A new entry has a non-zero i-number of 16 bits, and there is room for it. -/
def Allowed (data : List UInt8) : Op → Prop
  | .link name inum => inum ≠ 0 ∧ inum < 2 ^ 16 ∧ (bound data (key name) = none → HasRoom data)
  | _ => True

def AllAllowed : List UInt8 → List Op → Prop
  | _, [] => True
  | data, op :: ops => Allowed data op ∧ AllAllowed (after data op) ops

/-- The operations of a finite map from names to i-numbers and offsets. Where a new entry goes is left open. -/
inductive Does (m : List UInt8 → Option (ℕ × ℕ)) : Op → Answer → (List UInt8 → Option (ℕ × ℕ)) → Prop
  | lookup (name) : Does m (.lookup name) (.found ((m (key name)).map fun r => (ROOTDEV, r.1, r.2))) m
  | refuse (name inum) (h : m (key name) ≠ none) : Does m (.link name inum) (.linked (-1)) m
  | link (name inum off) (h : m (key name) = none) :
      Does m (.link name inum) (.linked 0) (Function.update m (key name) (some (inum, off)))
  | miss (name) (h : m (key name) = none) : Does m (.clear name) (.cleared false) m
  | clear (name) (h : m (key name) ≠ none) :
      Does m (.clear name) (.cleared true) (Function.update m (key name) none)

inductive DoesAll : (List UInt8 → Option (ℕ × ℕ)) → List Op → List Answer → (List UInt8 → Option (ℕ × ℕ)) → Prop
  | nil (m) : DoesAll m [] [] m
  | cons {m m' m'' op ops a as} (h : Does m op a m') (hs : DoesAll m' ops as m'') :
      DoesAll m (op :: ops) (a :: as) m''

/-- The number of entries that may be added. -/
def links : List Op → ℕ
  | [] => 0
  | .link _ _ :: ops => links ops + 1
  | _ :: ops => links ops

section

variable {node : ℕ → Body} {s : State Pid} {i : ISlot} {X : ℕ} {L : Live} {owner : ℕ → Option (Loc Pid)} {p : Pid}
  {F : Fault → Prop}

/-- One operation: the code does what the map does. -/
theorem ends_perform {op : Op} {Q : Answer → State Pid → Prop} (h : Kept 0 node s i X L owner)
    (ht : L.c.type = T_DIR) (hwf : WellFormed L.node.data) (hop : Allowed L.node.data op)
    (hF : idle s = 0 → F noInodes) (hF' : spare s.sb owner < 2 * links [op] → F outOfBlocks)
    (hQ : ∀ a s' M owner', Kept 0 node s' i X M owner' → s'.sb = s.sb → idle s ≤ idle s' + 1 →
      spare s.sb owner ≤ spare s.sb owner' + 2 * links [op] →
      M.node = { L.node with data := after L.node.data op } → WellFormed M.node.data →
      Does (bound L.node.data) op a (bound M.node.data) → Q a s') :
    (perform p i op).Ends F s Q := by
  cases op with
  | lookup name =>
    refine Ends.bind (h.ends_dirlookup ht hwf.entries hF (fun hb => ends_pure ?_) fun inum off hb j hj => ?_)
    · refine hQ _ s L owner h rfl (by omega) (by omega) rfl hwf ?_
      have := Does.lookup (m := bound L.node.data) name
      rwa [hb] at this
    · have he : (s.gotten p ROOTDEV inum j).inode j = (s.inode j).gotten ROOTDEV inum := by
        rw [inode_gotten, update_self]
      refine Ends.bind (ends_reads (ends_pure ?_))
      rw [he, hj.entry.1, hj.entry.2.1]
      refine hQ _ _ L owner (h.gotten hj) rfl idle_le_gotten (Nat.le_add_right ..) rfl hwf ?_
      have := Does.lookup (m := bound L.node.data) name
      rwa [hb] at this
  | link name inum =>
    obtain ⟨hinum, hlt, hroom⟩ := hop
    refine Ends.bind (h.ends_dirlink ht hwf.entries hroom hF hF' (fun hb s' hs' hsb hidle => ends_pure ?_)
      fun hb s' M owner' hs' hsb hidle hM hspare => ends_pure ?_)
    · refine hQ _ s' L owner hs' hsb (by omega) (Nat.le_add_right ..) ?_ hwf (.refuse name inum hb)
      rw [after, if_neg hb]
    · obtain ⟨hwf', hbound⟩ := hwf.link hb hinum hlt
      have hdata : M.node.data = linked L.node.data name inum := by rw [hM]
      refine hQ _ s' M owner' hs' hsb (by omega) hspare (by rw [after, if_pos hb, hM]) (by rwa [hdata]) ?_
      rw [hdata, hbound]
      exact .link name inum _ hb
  | clear name =>
    refine Ends.bind (h.ends_dirlookup ht hwf.entries hF (fun hb => ends_pure ?_) fun inum off hb j hj => ?_)
    · refine hQ _ s L owner h rfl (by omega) (by omega) ?_ hwf (.miss name hb)
      rw [after, hb]
    · obtain ⟨hoff, hwf', hbound⟩ := hwf.clear hb
      obtain ⟨l, rfl, -⟩ := find_of_bound hb
      rw [Sits.data_length] at hoff
      have hneed := h.ok.need_entry (Nat.mul_mod_right DIRENT l) hoff
      refine Ends.bind ((h.gotten hj).ends_writeEntry ht (List.length_replicate ..) (by omega)
        (hoff.trans h.ok.size_le) (fun hs => ?_) fun s' M owner' hs' hsb hidle hM hspare => ?_)
      · rw [hneed] at hs
        exact absurd hs (Nat.not_lt_zero _)
      · have hdata : M.node.data = cleared L.node.data (DIRENT * l) := by rw [hM]; rfl
        rw [if_neg (not_not.2 rfl)]
        refine ends_pure (hQ _ s' M owner' hs' hsb ?_ ?_ ?_ (by rwa [hdata]) ?_)
        · rw [hidle]
          exact idle_le_gotten
        · rw [hneed] at hspare
          exact hspare.ge
        · rw [after, hb, hM]
          rfl
        · rw [hdata, hbound]
          exact .clear name (by simp [hb])

theorem links_cons {op : Op} {ops : List Op} : links (op :: ops) = links [op] + links ops := by
  cases op <;> simp only [links] <;> omega

theorem ends_performAll {ops : List Op} {Q : List Answer → State Pid → Prop} (h : Kept 0 node s i X L owner)
    (ht : L.c.type = T_DIR) (hwf : WellFormed L.node.data) (hops : AllAllowed L.node.data ops)
    (hF : idle s < ops.length → F noInodes) (hF' : spare s.sb owner < 2 * links ops → F outOfBlocks)
    (hQ : ∀ as s' M owner', Kept 0 node s' i X M owner' →
      M.node = { L.node with data := ops.foldl after L.node.data } → WellFormed M.node.data →
      DoesAll (bound L.node.data) ops as (bound M.node.data) → Q as s') :
    (performAll p i ops).Ends F s Q := by
  induction ops generalizing s L owner Q with
  | nil => exact ends_pure (hQ [] s L owner h rfl hwf (.nil _))
  | cons op ops ih =>
    obtain ⟨hop, hops⟩ := hops
    rw [List.length_cons] at hF
    rw [links_cons] at hF'
    refine Ends.bind (ends_perform h ht hwf hop (fun hz => hF (by omega)) (fun hs => hF' (by omega))
      fun a s' M owner' hs' hsb hidle hspare hM hwf' hdoes => ?_)
    have htype : M.c.type = L.c.type := congrArg Node.type hM
    have hdata : M.node.data = after L.node.data op := by rw [hM]
    refine Ends.bind (ih hs' (htype.trans ht) hwf' (by rwa [hdata]) (fun hi => hF (by omega)) (fun hs => hF' ?_)
      fun as s'' N owner'' hs'' hN hwf'' hall => ends_pure (hQ _ s'' N owner'' hs'' ?_ hwf'' (.cons hdoes hall)))
    · rw [hsb] at hs
      omega
    · rw [hN, hM]
      rfl

end

/-- A directory is a finite map from names, of which the first `DIRSIZ` bytes count, to inodes: in every sequence
of operations that finds room for its new entries, `dirlookup` returns the inode that is bound to the name and the
offset of the entry; `dirlink` refuses a name that is bound and binds one that is not; and clearing the entry that
`dirlookup` has found removes that binding; nothing else changes. (There is a panic if the inode cache has too
few idle entries for the references that the lookups return, or the disk too few free blocks for the new
entries.) -/
theorem directory_is_finite_map {node : ℕ → Body} {s : State Pid} {i : ISlot} {X : ℕ} {L : Live}
    {owner : ℕ → Option (Loc Pid)} (h : Kept 0 node s i X L owner) (ht : L.c.type = T_DIR)
    (hwf : WellFormed L.node.data) (p : Pid) (ops : List Op) (hops : AllAllowed L.node.data ops) :
    (performAll p i ops).Ends
      (fun e => (e = noInodes ∧ idle s < ops.length) ∨ (e = outOfBlocks ∧ spare s.sb owner < 2 * links ops)) s
      fun answers s' => ∃ M owner', Kept 0 node s' i X M owner' ∧
        M.node = { L.node with data := ops.foldl after L.node.data } ∧ WellFormed M.node.data ∧
        DoesAll (bound L.node.data) ops answers (bound M.node.data) :=
  ends_performAll h ht hwf hops (fun hidle => Or.inl ⟨rfl, hidle⟩) (fun hspare => Or.inr ⟨rfl, hspare⟩)
    fun _ _ M owner' hs' hM hwf' hdoes => ⟨M, owner', hs', hM, hwf', hdoes⟩

/-- An empty directory on the small disk, with the other entries of the cache idle. -/
def smallDir : State Unit :=
  { small Unit T_DIR with inode := fun j => ⟨ROOTDEV, 1, if j = 0 then 1 else 0, false, true, .fresh T_DIR⟩ }

theorem directory_is_finite_map_small : ∃ answers s' M owner',
    (performAll () 0 [.link [98] 5, .lookup [98]]).run smallDir = .ok answers s' ∧
      Kept 0 (fun _ => .free) s' 0 1 M owner' ∧ bound M.node.data [98] = some (5, 0) := by
  have hsits : Sits 0 (fun _ => .free) smallDir 0 1 (smallLive T_DIR) fun _ => none :=
    (small_sits (by decide)).congr rfl rfl rfl rfl rfl
  have hdata : (smallLive T_DIR).node.data = [] := rfl
  have hwf : WellFormed (smallLive T_DIR).node.data := ⟨rfl, fun j hj => absurd hj (Nat.not_lt_zero j)⟩
  have hidle : ¬ idle smallDir < 2 := by decide
  have hspare : ¬ spare smallSb (fun _ => (none : Option (Loc Unit))) < 2 := by decide
  have hroom : HasRoom (smallLive T_DIR).node.data := by
    rw [hdata]
    exact Or.inr (by decide)
  have hends := directory_is_finite_map ⟨hsits, le_rfl⟩ rfl hwf () [.link [98] 5, .lookup [98]]
    ⟨⟨by decide, by decide, fun _ => hroom⟩, trivial, trivial⟩
  have hsure : ∀ e : Fault, (e = noInodes ∧ idle smallDir < 2) ∨
      (e = outOfBlocks ∧ spare smallSb (fun _ => (none : Option (Loc Unit))) < 2) → False := by
    rintro e (⟨-, hlt⟩ | ⟨-, hlt⟩)
    · exact hidle hlt
    · exact hspare hlt
  obtain ⟨answers, s', hrun, M, owner', hs', hM, -, -⟩ := (hends.weaken hsure).run_eq
  refine ⟨answers, s', M, owner', hrun, hs', ?_⟩
  rw [hM, hdata]
  decide

end Directory

end Xv6.Fs
