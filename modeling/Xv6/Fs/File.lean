import Xv6.Fs.Write

/-!
# Files as arrays of bytes

`writei` and `readi` in terms of the bytes of an inode, and a small disk to run them on.
-/

namespace Xv6.Fs

open Conc Lib

variable {Pid : Type}

section

variable {node : ℕ → Body} {s : State Pid} {i : ISlot} {X : ℕ} {L : Live} {owner : ℕ → Option (Loc Pid)}

/-- `readi` returns the bytes that are there, up to the end of the file. -/
theorem Sits.run_readi [DecidableEq Pid] {n : ℕ} (h : Sits n node s i X L owner) (ht : L.c.type ≠ T_DEV) {p : Pid}
    {off m : ℕ} {con : Option (List UInt8)} (hoff : off ≤ L.c.size) (hm : off + m < 2 ^ 32) :
    (readi p i off m con).run s = .ok (some ((L.node.data.drop off).take m)) s := by
  have huint : uint (off + m) = off + m := Nat.mod_eq_of_lt hm
  have hdata : L.node.data = L.bytes 0 L.c.size := rfl
  simp only [readi, Prog.bind_eq]
  rw [Prog.run_reads_bind, h.d, if_neg ht, huint, if_neg (by omega), hdata]
  by_cases hlong : L.c.size < off + m
  · have hslice : L.bytes off (L.c.size - off) = ((L.bytes 0 L.c.size).drop off).take (L.c.size - off) :=
      Live.bytes_slice (by omega)
    have hlen : ((L.bytes 0 L.c.size).drop off).length = L.c.size - off := by
      rw [List.length_drop, Live.length_bytes]
    rw [if_pos hlong, Prog.run_bind_ok (h.readable.run_readLoop le_rfl (by omega)), hslice,
      List.take_of_length_le hlen.le, List.take_of_length_le (by omega)]
    rfl
  · have hslice : L.bytes off m = ((L.bytes 0 L.c.size).drop off).take m := Live.bytes_slice (by omega)
    rw [if_neg hlong, Prog.run_bind_ok (h.readable.run_readLoop le_rfl (by omega)), hslice]
    rfl

/-- The bytes that `writei` is asked to write at `off` fit the file. -/
def Live.Fits (L : Live) (off n : ℕ) : Prop := off ≤ L.c.size ∧ off + n < 2 ^ 32 ∧ off + n ≤ MAXFILE * BSIZE

/-- A write that fits. -/
theorem Sits.run_writei [DecidableEq Pid] {p : Pid} {src : List UInt8} {off : ℕ} (h : Sits 0 node s i X L owner)
    (ht : L.c.type ≠ T_DEV) (hlen : src.length < 2 ^ 32) (hfits : L.Fits off src.length)
    (hroom : L.need (touched off src.length) ≤ spare s.sb owner) : ∃ s' M owner' w,
      (writei p i src off).run s = .ok src.length s' ∧ Sits 0 node s' i X M owner' ∧ Alters i s s' ∧
        L.Written s.sb X off src M w := by
  have hends : (writei p i src off).Ends (fun _ => False) s fun r s' => r = src.length ∧ ∃ M owner' w,
      Sits 0 node s' i X M owner' ∧ Alters i s s' ∧ L.Written s.sb X off src M w := by
    refine Logged.erases_writei.ends (h.ends_writei (l := []) ht (fun h => absurd rfl h) hlen (fun hno => ?_)
      (fun _ _ hs => absurd hroom (not_le.2 hs)) fun _ _ s' M owner' w hs' ha hM _ => ⟨rfl, M, owner', w, hs', ha, hM⟩)
    rcases hno with hno | hno
    · exact absurd hfits.1 (not_le.2 hno)
    · exact absurd hfits.2.2 (not_le.2 hno)
  obtain ⟨r, s', hrun, rfl, M, owner', w, hs', ha, hM⟩ := hends.run_eq
  exact ⟨s', M, owner', w, hrun, hs', ha, hM⟩

/-- `writei` and `readi` treat a regular file or a directory without holes as an array of bytes. A write either
replaces the bytes from `off` on, and leaves the file without holes, its copies in memory and on disk in
agreement and all other inodes as they were; or it does not fit and changes nothing. (There is a panic if the
disk has too few free blocks for a write that fits.) A read returns the bytes that are there and changes
nothing. -/
theorem file_is_byte_array [DecidableEq Pid] (h : Sits 0 node s i X L owner)
    (ht : L.c.type = T_FILE ∨ L.c.type = T_DIR) (p : Pid) (off n : ℕ) (hn : n < 2 ^ 32) :
    (∀ src : List UInt8, src.length = n →
      (L.Fits off n → L.need (touched off n) ≤ spare s.sb owner → ∃ s' M owner',
        (writei p i src off).run s = .ok n s' ∧ Sits 0 node s' i X M owner' ∧ Alters i s s' ∧
        M.node = { L.node with data := overwrite L.node.data off src } ∧ M.c.size = max L.c.size (off + n) ∧
        (∀ bn, bn * BSIZE < M.c.size → M.addr bn ≠ 0) ∧
        (dinodeOf s.sb (s.block ROOTDEV) X = (s.inode i).d →
          dinodeOf s'.sb (s'.block ROOTDEV) X = (s'.inode i).d)) ∧
      (L.Fits off n → spare s.sb owner < L.need (touched off n) →
        (writei p i src off).run s = .fault outOfBlocks) ∧
      (¬L.Fits off n → (writei p i src off).run s = .ok (-1) s)) ∧
    (off ≤ L.c.size → off + n < 2 ^ 32 → ∀ con,
      (readi p i off n con).run s = .ok (some ((L.node.data.drop off).take n)) s) := by
  have hdev : L.c.type ≠ T_DEV := by
    rcases ht with ht | ht <;> rw [ht] <;> decide
  refine ⟨?_, fun hoff hwrap con => h.run_readi hdev hoff hwrap⟩
  rintro src rfl
  have hentry : L.Entry off src 0 := fun h => absurd rfl h
  refine ⟨fun hfits hspare => ?_, fun hfits hspare => ?_, fun hbad => ?_⟩
  · obtain ⟨s', M, owner', w, hrun, hs', ha, hM⟩ := h.run_writei (p := p) hdev hn hfits hspare
    refine ⟨s', M, owner', hrun, hs', ha, hM.node, hM.size, hs'.ok.full, fun hsync => ?_⟩
    rw [h.body.1, h.d] at hsync
    rw [hs'.body.1, hs'.d]
    exact hM.synced hsync
  · have hends : (writei p i src off).Ends (fun e => e = outOfBlocks) s fun _ _ => False := by
      refine Logged.erases_writei.ends (h.ends_writei (F := fun e => e = outOfBlocks) (l := []) hdev hentry hn
        (fun hno => ?_) (fun _ _ _ => rfl) fun _ _ s' M owner' w hs' ha hM heq => by omega)
      rcases hno with hno | hno
      · exact absurd hfits.1 (not_le.2 hno)
      · exact absurd hfits.2.2 (not_le.2 hno)
    obtain ⟨e, hrun, rfl⟩ := hends.run_fault
    exact hrun
  · have hno : ∀ {P : Prop}, off ≤ L.c.size → off + src.length ≤ MAXFILE * BSIZE → P := by
      intro P h1 h2
      have hmax : MAXFILE * BSIZE < 2 ^ 32 := by decide
      exact absurd ⟨h1, by omega, h2⟩ hbad
    have hends : (writei p i src off).Ends (fun _ => False) s fun r s' => r = -1 ∧ s' = s :=
      Logged.erases_writei.ends (h.ends_writei (l := []) hdev hentry hn (fun _ => ⟨rfl, rfl⟩)
        (fun h1 h2 => hno h1 h2) fun h1 h2 => hno h1 h2)
    obtain ⟨r, s', hrun, rfl, rfl⟩ := hends.run_eq
    exact hrun

/-- The superblock of a small disk: forty blocks, four of which are not data blocks. -/
def smallSb : Superblock := ⟨40, 36, 8, 0, 2, 2, 3⟩

/-- The superblock and the bitmap of a small disk, with no block in use. -/
def smallBlock : ℕ → Bytes
  | 1 => Bytes.setWords (fun _ => 0) 0 (fun j => [40, 36, 8, 0, 2, 2, 3].getD j 0) 7
  | 3 => fun o => if o = 0 then 15 else 0
  | _ => fun _ => 0

theorem smallSb_ok : smallSb.Ok := ⟨by decide, by decide, by decide, by decide, by decide, by decide⟩

theorem bitOf_smallBlock : ∀ b < 40, bitOf smallSb smallBlock b = decide (b < 4) := by decide

/-- A small disk with one inode, number one, of type `t` and without contents, which is in the first entry of
the cache. -/
def small (Pid : Type) (t : Short) : State Pid where
  store :=
    { content := fun _ => Function.update smallBlock 2 (Dinode.write (fun _ => 0) 1 (.fresh t))
      holder := fun _ _ => none }
  sb := smallSb
  inode := fun _ => ⟨ROOTDEV, 1, 1, false, true, .fresh t⟩
  file := fun _ => ⟨.inode, 1, true, true, 0, 0⟩
  proc := fun _ => ⟨.live, fun _ => none, some 0, 0⟩
  aux := fun _ => ⟨0, fun _ => 0, none⟩
  alive := fun X => X = 1

/-- The inode on the small disk. -/
def smallLive (t : Short) : Live := ⟨.fresh t, .fresh t, fun _ => 0, fun _ _ => 0⟩

theorem ptr_smallLive {t : Short} {pos : ℕ} : (smallLive t).ptr pos = 0 := by
  simp [smallLive, Live.ptr, Dinode.fresh]

theorem small_disk {t : Short} (ht : t ≠ 0) {n : ℕ} : Disk n smallSb ((small Pid t).block ROOTDEV)
    (Function.update (fun _ => .free) 1 (.live (smallLive t))) fun _ => (none : Option (Loc Pid)) where
  sb_block := by
    have h : Superblock.ofBytes (smallBlock 1) = smallSb := by decide
    exact h
  body X hX := by
    have hX : X < 8 := hX
    have hblk : IBLOCK X smallSb = 2 := by
      simp only [IBLOCK, IPB, BSIZE, smallSb]
      omega
    rcases eq_or_ne X 1 with rfl | hone
    · have hd : dinodeOf smallSb ((small Pid t).block ROOTDEV) 1 = .fresh t := by
        rw [dinodeOf, hblk]
        exact Dinode.read_write ⟨by simp [Dinode.fresh], by simp [Dinode.fresh]⟩
      rw [Function.update_self]
      refine ⟨hd, ht, ⟨fun hne => absurd ptr_smallLive hne, fun bn hne => absurd ptr_smallLive hne⟩, ?_⟩
      exact ⟨ht, by simp [smallLive, Dinode.fresh], by simp [smallLive, Dinode.fresh], fun _ _ => rfl, fun _ _ => rfl,
        by simp [smallLive, Dinode.fresh], by simp [smallLive, Dinode.fresh]⟩
    · rw [Function.update_of_ne hone]
      have hd : dinodeOf smallSb ((small Pid t).block ROOTDEV) X = Dinode.read (fun _ => 0) X := by
        rw [dinodeOf, hblk]
        refine Dinode.read_write_of_ne ?_
        simp only [IPB, BSIZE]
        omega
      rw [BodyOk, hd]
      rfl
  out X hX := by
    have hX : 8 ≤ X := hX
    rw [Function.update_of_ne (by omega)]
  refers X pos hne := by
    rcases eq_or_ne X 1 with rfl | hone
    · rw [Function.update_self] at hne
      exact absurd ptr_smallLive hne
    · rw [Function.update_of_ne hone] at hne
      exact absurd rfl hne
  owned b X pos h := by cases h
  range b h := absurd rfl h
  bits b hb := by
    have hb : b < 40 := hb
    have hbit : bitOf smallSb ((small Pid t).block ROOTDEV) b = bitOf smallSb smallBlock b := by
      have hne : BBLOCK b smallSb ≠ 2 := by
        simp only [BBLOCK, BPB, BSIZE, smallSb]
        omega
      exact bitOf_congr (Function.update_of_ne hne (Dinode.write (fun _ => 0) 1 (.fresh t)) smallBlock)
    have hstart : smallSb.dataStart = 4 := rfl
    rw [hbit, bitOf_smallBlock b hb, hstart]
    simp

theorem small_sits {t : Short} (ht : t ≠ 0) {n : ℕ} :
    Sits n (fun _ => .free) (small Pid t) 0 1 (smallLive t) fun _ => (none : Option (Loc Pid)) where
  sb_ok := smallSb_ok
  disk := small_disk ht
  free _ := rfl
  dev := rfl
  inum := rfl
  lt := by
    have h : 1 < smallSb.ninodes := by decide
    exact h
  d := rfl

theorem file_is_byte_array_small : ∃ s' M owner',
    (writei () 0 [97, 98, 99] 0).run (small Unit T_FILE) = .ok 3 s' ∧ Sits 0 (fun _ => .free) s' 0 1 M owner' ∧
      M.node.data = [97, 98, 99] := by
  have hfile := (file_is_byte_array (@small_sits Unit T_FILE (by decide) 0) (Or.inl rfl) () 0 3 (by decide)).1
    [97, 98, 99] rfl
  have hfits : (smallLive T_FILE).Fits 0 3 := ⟨by decide, by decide, by decide⟩
  have hroom : (smallLive T_FILE).need (touched 0 3) ≤ spare smallSb fun _ => (none : Option (Loc Unit)) := by decide
  obtain ⟨s', M, owner', hrun, hs', -, hnode, -⟩ := hfile.1 hfits hroom
  exact ⟨s', M, owner', hrun, hs', by rw [hnode]; rfl⟩

end

end Xv6.Fs
