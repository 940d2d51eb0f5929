import Xv6.Fs.Chunk

/-!
# Processes that share an open file

Any number of processes call `filewrite` and `fileread` on one `struct file` of a regular file. What such a call
does with the inode locked is one section; between the sections of a call the others may move the offset. The
history records the calls and the sections in the order in which they took the lock.
-/

namespace Xv6.Fs.Shared

open Conc Lib Prog
open Function (update update_self update_of_ne update_idem update_eq_self)

variable {Pid : Type} {rs : List (ℕ × ℕ)} {addr : Bytes} {g : Option (List UInt8)} {a b : ℕ} {n : ℤ}

/-! ## Ranges of bytes -/

/-- The ranges, given by offset and length, follow each other without gaps from `a` to `b`. -/
def Tiles : ℕ → List (ℕ × ℕ) → ℕ → Prop
  | a, [], b => a = b
  | a, (o, k) :: rs, b => o = a ∧ Tiles (a + k) rs b

theorem Tiles.snoc {k : ℕ} (h : Tiles a rs b) : Tiles a (rs ++ [(b, k)]) (b + k) := by
  induction rs generalizing a with
  | nil =>
    obtain rfl : a = b := h
    exact ⟨rfl, rfl⟩
  | cons r rs ih => exact ⟨h.1, ih h.2⟩

theorem Tiles.le (h : Tiles a rs b) : ∀ r ∈ rs, a ≤ r.1 := by
  induction rs generalizing a with
  | nil => simp
  | cons r rs ih =>
    obtain ⟨rfl, hrest⟩ := h
    intro x hx
    rcases List.mem_cons.1 hx with rfl | hx
    · exact le_rfl
    · exact (Nat.le_add_right ..).trans (ih hrest x hx)

/-- Ranges that follow each other do not overlap. -/
theorem Tiles.pairwise (h : Tiles a rs b) : rs.Pairwise fun x y => x.1 + x.2 ≤ y.1 := by
  induction rs generalizing a with
  | nil => exact .nil
  | cons r rs ih =>
    obtain ⟨rfl, hrest⟩ := h
    exact .cons (fun y hy => hrest.le y hy) (ih hrest)

/-! ## Calls and their history -/

/-- What happened: `filewrite` was called for the bytes `src`; a section of `filewrite` had the bytes `src` to
write at `off` and returned `r`; the section of `fileread` at `off` returned `r`. -/
inductive Event (Pid : Type) where
  | call (p : Pid) (src : List UInt8)
  | wrote (p : Pid) (off : ℕ) (src : List UInt8) (r : ℤ)
  | got (p : Pid) (off : ℕ) (r : ℤ)

/-- The range of bytes that a section used. -/
def Event.range : Event Pid → Option (ℕ × ℕ)
  | .call _ _ => none
  | .wrote _ off _ r => some (off, r.toNat)
  | .got _ off r => some (off, r.toNat)

def ranges (evs : List (Event Pid)) : List (ℕ × ℕ) := evs.filterMap Event.range

/-- The file stays within its maximal size. -/
def Within (evs : List (Event Pid)) : Prop :=
  ∀ p off src r, .wrote p off src r ∈ evs → off + src.length ≤ MAXFILE * BSIZE

section

variable [DecidableEq Pid]

/-- The bytes that `p` has asked to be written. -/
def asked (p : Pid) (evs : List (Event Pid)) : List UInt8 :=
  evs.flatMap fun
    | .call q src => if q = p then src else []
    | _ => []

/-- The bytes that have been written for `p`, in the order in which that was done. -/
def written (p : Pid) (evs : List (Event Pid)) : List UInt8 :=
  evs.flatMap fun
    | .wrote q _ src r => if q = p ∧ 0 ≤ r then src else []
    | _ => []

end

/-- A call of a process that shares the file. -/
inductive Call where
  | write (addr : Bytes) (n : ℤ)
  | read (n : ℤ)

/-- The state, and what has happened. -/
abbrev Traced (Pid : Type) := State Pid × List (Event Pid)

variable [DecidableEq Pid]

/-- What `fileread` does with the inode locked. -/
def readSection (p : Pid) (f : FSlot) (ip : ISlot) (n : ℤ) (con : Option (List UInt8)) :
    Prog (State Pid) (Option (List UInt8)) := do
  ilock p ip
  let off ← Prog.reads fun s : State Pid => (s.file f).off
  let r ← readi p ip off (n % 2 ^ 32).toNat con
  addOff f (readResult r)
  iunlock p ip
  pure r

def fileread (p : Pid) (f : FSlot) (n : ℤ) (con : Option (List UInt8)) : Prog (Traced Pid) (Option (List UInt8)) := do
  let ff ← (Prog.reads fun s : State Pid => s.file f).quiet
  if ¬ff.readable then pure none
  else match ff.type with
    | .pipe => pure con
    | .inode => ((readSection p f ff.ip n con).logs fun s r => [.got p (s.file f).off (readResult r)]).whole
    | .none => .fail (.panic "fileread")

def filewriteLoop (p : Pid) (f : FSlot) (ip : ISlot) (addr : Bytes) (n : ℕ) : ℕ → ℕ → Prog (Traced Pid) ℕ
  | 0, i => pure i
  | fuel + 1, i =>
    if i < n then do
      let n1 := min (n - i) writeMax
      let src := addr.read i n1
      (beginOp p).quiet
      let r ← ((writeSection p f ip src).logs fun s r => [.wrote p (s.file f).off src r]).whole
      (endOp p).quiet
      if r < 0 then pure i
      else if r ≠ n1 then .fail (.panic "short filewrite")
      else filewriteLoop p f ip addr n fuel (i + r.toNat)
    else pure i

def filewrite (p : Pid) (f : FSlot) (addr : Bytes) (n : ℤ) (out : ℤ) : Prog (Traced Pid) ℤ := do
  let ff ← ((Prog.reads fun s : State Pid => s.file f).logs fun _ _ => [.call p (addr.read 0 n.toNat)]).whole
  if ¬ff.writable then pure (-1)
  else match ff.type with
    | .pipe => pure out
    | .inode => do
      let i ← filewriteLoop p f ff.ip addr n.toNat n.toNat 0
      pure (if (i : ℤ) = n then n else -1)
    | .none => .fail (.panic "filewrite")

theorem erases_filewriteLoop {p : Pid} {f : FSlot} {ip : ISlot} {n fuel i : ℕ} :
    Erases (filewriteLoop p f ip addr n fuel i) (Fs.filewriteLoop p f ip addr n fuel i) := by
  induction fuel generalizing i with
  | zero => exact erases_pure
  | succ fuel ih =>
    by_cases h : i < n
    · rw [filewriteLoop, if_pos h, filewriteLoop_succ h]
      simp only [writeChunk, Prog.bind_eq, Prog.bind_assoc, Prog.pure_eq, Prog.ret_bind]
      refine erases_quiet.bind fun _ => erases_logs.whole.bind fun r => erases_quiet.bind fun _ => ?_
      split_ifs
      · exact erases_pure
      · exact erases_fail
      · exact ih
    · rw [filewriteLoop, if_neg h, Fs.filewriteLoop, if_neg h]
      exact erases_pure

/-- Run alone, the calls do what the code does. -/
theorem erases_filewrite {p : Pid} {f : FSlot} {out : ℤ} :
    Erases (filewrite p f addr n out) (Fs.filewrite p f addr n out) := by
  refine erases_logs.whole.bind fun ff => ?_
  split_ifs
  · cases ff.type with
    | none => exact erases_fail
    | pipe => exact erases_pure
    | inode => exact erases_filewriteLoop.bind fun _ => erases_pure
  · exact erases_pure

/-- Processes that call `filewrite` and `fileread` on the file `f`, in any order. A process is left with its last
call and what it returned. -/
def sharing (Pid : Type) [DecidableEq Pid] (f : FSlot) : Protocol (Traced Pid) Pid (Option (Call × ℤ)) where
  Call := Call
  allowed _ _ _ _ := True
  body p _ k := match k with
    | .write addr n => do
      let r ← filewrite p f addr n (-1)
      pure (some (k, r))
    | .read n => do
      let r ← fileread p f n none
      pure (some (k, readResult r))
  restart _ _ := False
  boot := none

/-! ## Sections -/

section

variable {node : ℕ → Body} {s : State Pid} {i : ISlot} {X : ℕ} {L : Live} {owner : ℕ → Option (Loc Pid)} {p : Pid}
  {f : FSlot} {F : Fault → Prop}

/-- The section of `fileread`: it advances the offset by what it returns, and not beyond the end of the file. -/
theorem ends_readSection (h : Rests 0 node s i X L owner) (ht : L.c.type ≠ T_DEV) (hoff : (s.file f).off ≤ L.c.size)
    {n : ℤ} {con : Option (List UInt8)} :
    (readSection p f i n con).Ends F s fun r s' => Rests 0 node s' i X L owner ∧
      (s.file f).off + (readResult r).toNat ≤ L.c.size ∧
      s'.file = update s.file f { s.file f with off := (s.file f).off + (readResult r).toNat } := by
  have hlocked : Sits 0 node (s.locked p i L.c) i X L owner := h.sits_locked
  have hmax : L.c.size < 2 ^ 32 := hlocked.ok.size_le.trans_lt (by decide)
  -- what `readi` returns
  have hread : ∃ r, (readi p i (s.file f).off (n % 2 ^ 32).toNat con).run (s.locked p i L.c) = .ok r (s.locked p i L.c) ∧
      (s.file f).off + (readResult r).toNat ≤ L.c.size := by
    by_cases hwrap : (s.file f).off + (n % 2 ^ 32).toNat < 2 ^ 32
    · refine ⟨_, hlocked.run_readi ht hoff hwrap, ?_⟩
      have hlen : L.node.data.length = L.c.size := Live.length_bytes
      simp only [readResult, Int.toNat_natCast, List.length_take, List.length_drop]
      omega
    · refine ⟨none, ?_, by simpa [readResult] using hoff⟩
      have huint : uint ((s.file f).off + (n % 2 ^ 32).toNat) < (s.file f).off := by
        simp only [uint]
        omega
      simp only [readi, Prog.bind_eq]
      rw [Prog.run_reads_bind, hlocked.d, if_neg ht, if_pos (Or.inr huint)]
      rfl
  obtain ⟨r, hrun, hle⟩ := hread
  refine Ends.bind (Ends.of_run h.run_ilock ?_)
  refine Ends.bind (ends_reads (Ends.bind (Ends.of_run hrun ?_)))
  refine hlocked.ends_advance (by simpa [State.locked] using h.ref) (by simp [State.locked]) (by simp [State.locked])
    (fun _ => ?_) fun s' hs' _ hfile => ⟨hs', hle, hfile⟩
  have hfit : (s.file f).off + (readResult r).toNat < 2 ^ 32 := by omega
  exact hfit

/-- The section of `filewrite`, for a file whose offset is not beyond its end. -/
theorem ends_writeSection {src : List UInt8} (h : Rests 0 node s i X L owner) (ht : L.c.type ≠ T_DEV)
    (hoff : (s.file f).off ≤ L.c.size) (hlen : src.length < 2 ^ 32) :
    (writeSection p f i src).Ends (fun _ => True) s fun r s' =>
      (MAXFILE * BSIZE < (s.file f).off + src.length ∧ r = -1 ∧ Rests 0 node s' i X L owner ∧ s'.file = s.file) ∨
      ((s.file f).off + src.length ≤ MAXFILE * BSIZE ∧ r = src.length ∧
        s'.file = update s.file f { s.file f with off := (s.file f).off + src.length } ∧
        ∃ M owner', Rests 0 node s' i X M owner' ∧
          M.node = { L.node with data := overwrite L.node.data (s.file f).off src }) := by
  refine Logged.erases_writeSection.ends (h.ends_writeSection (l := []) ht hlen
    (fun hno s' hs' _ hfile => Or.inl ⟨?_, rfl, hs', hfile⟩) (fun _ _ => trivial)
    fun hfits s' M owner' w hs' _ hfile hM _ => Or.inr ⟨hfits.2.2, rfl, hfile, M, owner', hs', hM.node⟩)
  rw [Live.fits_iff] at hno
  omega

end

/-! ## The invariant -/

/-- What is known of the bytes of `p`: how many of those it has asked for are still to come, unless one of its
calls has gone beyond the maximal size. -/
def Known (p : Pid) (evs : List (Event Pid)) : Option (List UInt8) → Prop
  | none => ¬Within evs
  | some rest => asked p evs = written p evs ++ rest

/-- What holds between the sections of all processes. `ff` is the file at the beginning. -/
structure Inv (node : ℕ → Body) (i : ISlot) (X : ℕ) (f : FSlot) (ff : File) (t : Traced Pid)
    (γ : Pid → Option (List UInt8)) : Prop where
  file : t.1.file f = { ff with off := (t.1.file f).off }
  tiles : Tiles ff.off (ranges t.2) (t.1.file f).off
  rests : ∃ L owner, Rests 0 node t.1 i X L owner ∧ L.c.type = T_FILE ∧ (t.1.file f).off ≤ L.c.size ∧
    ∀ p off src r, .wrote p off src r ∈ t.2 → off + src.length ≤ MAXFILE * BSIZE →
      r = src.length ∧ off + src.length ≤ (t.1.file f).off ∧ (L.node.data.drop off).take src.length = src
  known : ∀ p, Known p t.2 (γ p)

section

variable {evs : List (Event Pid)} {e : Event Pid} {p : Pid} {g : Option (List UInt8)}

theorem asked_snoc : asked p (evs ++ [e]) = asked p evs ++ asked p [e] := List.flatMap_append

theorem written_snoc : written p (evs ++ [e]) = written p evs ++ written p [e] := List.flatMap_append

omit [DecidableEq Pid] in
theorem not_within_snoc (h : ¬Within evs) : ¬Within (evs ++ [e]) := fun hall =>
  h fun p off src r hmem => hall p off src r (List.mem_append_left _ hmem)

omit [DecidableEq Pid] in
theorem ranges_snoc {r : ℕ × ℕ} (h : e.range = some r) : ranges (evs ++ [e]) = ranges evs ++ [r] := by
  simp [ranges, h]

/-- An event that does not concern `p`. -/
theorem Known.snoc (h : Known p evs g) (ha : asked p [e] = []) (hw : written p [e] = []) : Known p (evs ++ [e]) g := by
  cases g with
  | none => exact not_within_snoc h
  | some rest =>
    rw [Known, asked_snoc, written_snoc, ha, hw, List.append_nil, List.append_nil]
    exact h

end

variable {node : ℕ → Body} {i : ISlot} {X : ℕ} {f : FSlot} {ff : File} {p : Pid}

theorem Inv.setAux {t : Traced Pid} {γ : Pid → Option (List UInt8)} (h : Inv node i X f ff t γ) {a : Aux} :
    Inv node i X f ff (t.1.setAux p a, t.2) γ := by
  obtain ⟨L, owner, hs, hrest⟩ := h.rests
  exact ⟨h.file, h.tiles, ⟨L, owner, hs.congr rfl rfl rfl, hrest⟩, h.known⟩

/-- One section of `filewrite`, with the bytes of `p` that are to come. -/
theorem wp_writeSection {src rest : List UInt8} {Q : ℤ → Option (List UInt8) → Prop}
    (hlen : src.length < 2 ^ 32) (hg : g = none ∨ g = some (src ++ rest)) (hbad : Q (-1) none)
    (hQ : ∀ g', g' = none ∨ g' = some rest → Q src.length g') :
    wp (Inv node i X f ff) (fun _ _ => True) p
      ((writeSection p f i src).logs fun s r => [.wrote p (s.file f).off src r]).whole g Q := by
  refine wp_whole fun t γ hI hγ => ?_
  obtain ⟨s, evs⟩ := t
  obtain ⟨hfile, htiles, ⟨L, owner, hs, ht, hoff, hwrote⟩, hknown⟩ := hI
  dsimp only at hfile htiles hs hoff hwrote hknown
  have hdev : L.c.type ≠ T_DEV := by
    rw [ht]
    decide
  have hdata : L.node.data.length = L.c.size := Live.length_bytes
  -- what the others know
  have hothers : ∀ {r : ℤ} {g' : Option (List UInt8)}, Known p (evs ++ [.wrote p (s.file f).off src r]) g' →
      ∀ q, Known q (evs ++ [.wrote p (s.file f).off src r]) (update γ p g' q) := by
    intro r g' hp q
    rcases eq_or_ne q p with rfl | hq
    · rwa [update_self]
    · rw [update_of_ne hq]
      exact (hknown q).snoc rfl (by simp [written, Ne.symm hq])
  refine Ends.logs ((ends_writeSection hs hdev hoff hlen).mono ?_)
  rintro r s' (⟨hout, rfl, hs', hfile'⟩ | ⟨hin, rfl, hfile', M, owner', hs', hM⟩)
  · refine ⟨none, ⟨?_, ?_, ⟨L, owner, hs', ht, ?_, ?_⟩, hothers ?_⟩, hbad⟩
    · rw [hfile']
      exact hfile
    · rw [ranges_snoc rfl, hfile']
      exact htiles.snoc
    · rwa [hfile']
    · intro q off bs r hmem hle
      rw [hfile']
      rcases List.mem_append.1 hmem with hmem | hmem
      · exact hwrote q off bs r hmem hle
      · cases List.mem_singleton.1 hmem
        omega
    · exact fun hall => absurd (hall p _ src (-1) (by simp)) (not_le.2 hout)
  · have hnow : (s'.file f).off = (s.file f).off + src.length := by rw [hfile', update_self]
    have htype : M.c.type = L.c.type := congrArg Node.type hM
    have hMdata : M.node.data = overwrite L.node.data (s.file f).off src := by rw [hM]
    have hMlen : M.node.data.length = M.c.size := Live.length_bytes
    have hsize : (s.file f).off + src.length ≤ M.c.size := by
      rw [← hMlen, hMdata, length_overwrite (by omega)]
      exact le_max_right ..
    have hrest : ∃ g', (g' = none ∨ g' = some rest) ∧ Known p (evs ++ [.wrote p (s.file f).off src src.length]) g' := by
      have hp := hknown p
      rw [hγ] at hp
      rcases hg with rfl | rfl
      · exact ⟨none, Or.inl rfl, not_within_snoc hp⟩
      · refine ⟨some rest, Or.inr rfl, ?_⟩
        have hone : written p [.wrote p (s.file f).off src src.length] = src := by simp [written]
        have hnone : asked p [.wrote p (s.file f).off src src.length] = [] := rfl
        have hp : asked p evs = written p evs ++ (src ++ rest) := hp
        rw [Known, asked_snoc, written_snoc, hone, hnone, hp, List.append_nil, List.append_assoc]
    obtain ⟨g', hg', hp⟩ := hrest
    refine ⟨g', ⟨?_, ?_, ⟨M, owner', hs', htype.trans ht, by rwa [hnow], ?_⟩, hothers hp⟩, hQ g' hg'⟩
    · rw [hfile', update_self, hfile]
    · rw [ranges_snoc rfl, hnow]
      exact htiles.snoc
    · intro q off bs r hmem hle
      rw [hnow, hMdata]
      rcases List.mem_append.1 hmem with hmem | hmem
      · obtain ⟨hr, hbefore, hbytes⟩ := hwrote q off bs r hmem hle
        refine ⟨hr, by omega, ?_⟩
        rw [take_drop_overwrite_of_le (by omega) hbefore, hbytes]
      · cases List.mem_singleton.1 hmem
        exact ⟨rfl, le_rfl, take_drop_overwrite_self (by omega)⟩

/-- The section of `fileread`. -/
theorem wp_readSection {con : Option (List UInt8)}
    {Q : Option (List UInt8) → Option (List UInt8) → Prop} (hQ : ∀ r, Q r g) :
    wp (Inv node i X f ff) (fun _ _ => True) p
      ((readSection p f i n con).logs fun s r => [.got p (s.file f).off (readResult r)]).whole g Q := by
  refine wp_whole fun t γ hI hγ => ?_
  obtain ⟨s, evs⟩ := t
  obtain ⟨hfile, htiles, ⟨L, owner, hs, ht, hoff, hwrote⟩, hknown⟩ := hI
  dsimp only at hfile htiles hs hoff hwrote hknown
  have hdev : L.c.type ≠ T_DEV := by
    rw [ht]
    decide
  refine Ends.logs ((ends_readSection hs hdev hoff).mono ?_)
  rintro r s' ⟨hs', hle, hfile'⟩
  have hnow : (s'.file f).off = (s.file f).off + (readResult r).toNat := by rw [hfile', update_self]
  refine ⟨g, ⟨?_, ?_, ⟨L, owner, hs', ht, by rwa [hnow], ?_⟩, fun q => ?_⟩, hQ r⟩
  · rw [hfile', update_self, hfile]
  · rw [ranges_snoc rfl, hnow]
    exact htiles.snoc
  · intro q off bs r hmem hle
    rcases List.mem_append.1 hmem with hmem | hmem
    · obtain ⟨hr, hbefore, hbytes⟩ := hwrote q off bs r hmem hle
      have hnext : off + bs.length ≤ (s'.file f).off := by omega
      exact ⟨hr, hnext, hbytes⟩
    · cases List.mem_singleton.1 hmem
  · rw [← hγ, update_eq_self]
    exact (hknown q).snoc rfl rfl

theorem wp_beginOp {Q : Unit → Option (List UInt8) → Prop} (hQ : Q () g) :
    wp (Inv node i X f ff) (fun _ _ => True) p (beginOp p).quiet g Q := by
  intro t γ hI hγ
  refine ⟨g, ?_, hQ⟩
  rw [← hγ, update_eq_self]
  exact hI.setAux

theorem wp_endOp {Q : Unit → Option (List UInt8) → Prop} (hQ : Q () g) :
    wp (Inv node i X f ff) (fun _ _ => True) p (endOp p).quiet g Q := by
  intro t γ hI hγ
  refine ⟨g, ?_, hQ⟩
  rw [← hγ, update_eq_self]
  exact hI.setAux

/-- The loop of `filewrite`, when `j` of `n` bytes have been written. -/
theorem wp_filewriteLoop {n fuel j : ℕ} {Q : ℕ → Option (List UInt8) → Prop}
    (hj : j ≤ n) (hfuel : n - j ≤ fuel) (hg : g = none ∨ g = some (addr.read j (n - j)))
    (hQ : ∀ k g', g' = none ∨ g' = some [] ∧ k = n → Q k g') :
    wp (Inv node i X f ff) (fun _ _ => True) p (filewriteLoop p f i addr n fuel j) g Q := by
  induction fuel generalizing j g with
  | zero =>
    obtain rfl : j = n := by omega
    exact hQ j g (hg.imp_right fun hg => ⟨by rw [hg, Nat.sub_self]; rfl, rfl⟩)
  | succ fuel ih =>
    rw [filewriteLoop]
    by_cases hlt : j < n
    · rw [if_pos hlt]
      generalize hm : min (n - j) writeMax = m
      have hmax : writeMax = 6656 := rfl
      have hsplit : addr.read j (n - j) = addr.read j m ++ addr.read (j + m) (n - (j + m)) := by
        rw [← Bytes.read_add]
        congr 1
        omega
      have hlen : (addr.read j m).length = m := Bytes.length_read
      rw [hsplit] at hg
      refine wp_bind.mpr (wp_beginOp ?_)
      refine wp_seq (wp_writeSection (Q := fun r g' => r = -1 ∧ g' = none ∨
        r = m ∧ (g' = none ∨ g' = some (addr.read (j + m) (n - (j + m))))) (by omega) hg (Or.inl ⟨rfl, rfl⟩) ?_) ?_
      · intro g' hg'
        rw [hlen]
        exact Or.inr ⟨rfl, hg'⟩
      · intro r g' hr
        refine wp_bind.mpr (wp_endOp ?_)
        rcases hr with ⟨rfl, rfl⟩ | ⟨rfl, hg'⟩
        · rw [if_pos (by decide)]
          exact hQ j none (Or.inl rfl)
        · rw [if_neg (by omega), if_neg (by simp), Int.toNat_natCast]
          exact ih (by omega) (by omega) hg'
    · rw [if_neg hlt]
      obtain rfl : j = n := by omega
      exact hQ j g (hg.imp_right fun hg => ⟨by rw [hg, Nat.sub_self]; rfl, rfl⟩)

/-- What a process knows when it is not in a call: nothing of its bytes is still to come, and its last call, if it
was a `filewrite`, has returned the number of bytes. -/
def Idle (_ : Pid) (l : Option (Call × ℤ)) (g : Option (List UInt8)) : Prop :=
  g = none ∨ g = some [] ∧ ∀ addr n r, l = some (.write addr n, r) → 0 ≤ n → r = n

theorem wp_filewrite {Q : ℤ → Option (List UInt8) → Prop}
    (htype : ff.type = .inode) (hip : ff.ip = i) (hwritable : ff.writable = true) (hg : g = none ∨ g = some [])
    (hQ : ∀ r g', g' = none ∨ g' = some [] ∧ (0 ≤ n → r = n) → Q r g') :
    wp (Inv node i X f ff) (fun _ _ => True) p (filewrite p f addr n (-1)) g Q := by
  refine wp_seq (wp_whole (Q := fun a g' => (∃ off, a = { ff with off }) ∧
    (g' = none ∨ g' = some (addr.read 0 n.toNat))) fun t γ hI hγ => ?_) ?_
  · obtain ⟨s, evs⟩ := t
    refine Ends.logs (ends_reads ?_)
    -- the bytes of the call are to come
    have hrest : ∃ g', (g' = none ∨ g' = some (addr.read 0 n.toNat)) ∧
        Known p (evs ++ [.call p (addr.read 0 n.toNat)]) g' := by
      have hp := hI.known p
      rw [hγ] at hp
      rcases hg with rfl | rfl
      · exact ⟨none, Or.inl rfl, not_within_snoc hp⟩
      · refine ⟨_, Or.inr rfl, ?_⟩
        have hone : asked p [.call p (addr.read 0 n.toNat)] = addr.read 0 n.toNat := by simp [asked]
        have hnone : written p [.call p (addr.read 0 n.toNat)] = [] := rfl
        have hp : asked p evs = written p evs ++ [] := hp
        rw [Known, asked_snoc, written_snoc, hone, hnone, hp, List.append_nil]
    obtain ⟨g', hg', hp⟩ := hrest
    obtain ⟨L, owner, hs, ht, hoff, hwrote⟩ := hI.rests
    refine ⟨g', ⟨hI.file, ?_, ⟨L, owner, hs, ht, hoff, ?_⟩, fun q => ?_⟩, ⟨_, hI.file⟩, hg'⟩
    · have hsame : ranges (evs ++ [.call p (addr.read 0 n.toNat)]) = ranges evs := by simp [ranges, Event.range]
      rw [hsame]
      exact hI.tiles
    · intro q off bs r hmem hle
      rcases List.mem_append.1 hmem with hmem | hmem
      · exact hwrote q off bs r hmem hle
      · cases List.mem_singleton.1 hmem
    · rcases eq_or_ne q p with rfl | hq
      · rwa [update_self]
      · rw [update_of_ne hq]
        exact (hI.known q).snoc (by simp [asked, Ne.symm hq]) rfl
  · rintro _ g' ⟨⟨off, rfl⟩, hg'⟩
    simp only [hwritable, htype, hip, not_true, if_false]
    refine wp_seq (wp_filewriteLoop (Q := fun k g'' => g'' = none ∨ g'' = some [] ∧ k = n.toNat) (Nat.zero_le _) le_rfl
      (by rwa [Nat.sub_zero]) fun k g'' h => h) ?_
    intro k g'' hk
    refine hQ _ g'' (hk.imp_right fun h => ⟨h.1, fun hn => ?_⟩)
    rw [if_pos (by omega)]

theorem wp_fileread {Q : Option (List UInt8) → Option (List UInt8) → Prop}
    (htype : ff.type = .inode) (hip : ff.ip = i) (hQ : ∀ r, Q r g) :
    wp (Inv node i X f ff) (fun _ _ => True) p (fileread p f n none) g Q := by
  refine wp_seq (x := (Prog.reads fun s : State Pid => s.file f).quiet)
    (R := fun a g' => (∃ off, a = { ff with off }) ∧ g' = g) (fun t γ hI hγ => ?_) ?_
  · refine ⟨g, ?_, ⟨_, hI.file⟩, rfl⟩
    rw [← hγ, update_eq_self]
    exact hI
  · rintro _ _ ⟨⟨off, rfl⟩, rfl⟩
    simp only [htype, hip]
    split_ifs
    · exact wp_readSection hQ
    · exact hQ none

theorem sound (htype : ff.type = .inode) (hip : ff.ip = i) (hwritable : ff.writable = true) :
    Sound (sharing Pid f) (Inv node i X f ff) (fun _ _ => True) Idle where
  call t γ p l k hI hidle _ := by
    refine ⟨γ p, by rwa [update_eq_self], ?_⟩
    cases k with
    | write addr n =>
      refine wp_seq (wp_filewrite (Q := fun r g' => g' = none ∨ g' = some [] ∧ (0 ≤ n → r = n)) htype hip hwritable
        (hidle.imp_right And.left) fun r g' h => h) ?_
      intro r g' h
      refine h.imp_right fun ⟨h1, h2⟩ => ⟨h1, fun addr' n' r' he => ?_⟩
      cases he
      exact h2
    | read n =>
      refine wp_seq (wp_fileread (Q := fun r g' => g' = γ p) htype hip fun _ => rfl) ?_
      rintro r _ rfl
      refine hidle.imp_right fun ⟨h1, _⟩ => ⟨h1, fun addr' n' r' he => ?_⟩
      cases he
  restart _ _ _ _ h := h.elim

/-! ## A process on its own -/

section

variable {s : State Pid} {L : Live} {owner : ℕ → Option (Loc Pid)}

/-- The loop of `filewrite`, when `j` of `n` bytes have been written and the rest fits. -/
theorem ends_filewriteLoop {n fuel j : ℕ} (h : Rests 0 node s i X L owner) (ht : L.c.type ≠ T_DEV)
    (hj : j ≤ n) (hfuel : n - j ≤ fuel) (hoff : (s.file f).off ≤ L.c.size)
    (hmax : (s.file f).off + (n - j) ≤ MAXFILE * BSIZE)
    (hroom : L.need (touched (s.file f).off (n - j)) ≤ spare s.sb owner) :
    (Fs.filewriteLoop p f i addr n fuel j).Ends (fun _ => False) s fun k s' => k = n ∧
      s'.file = update s.file f { s.file f with off := (s.file f).off + (n - j) } ∧
      ∃ M owner', Rests 0 node s' i X M owner' ∧
        M.node = { L.node with data := overwrite L.node.data (s.file f).off (addr.read j (n - j)) } := by
  induction fuel generalizing s L owner j with
  | zero =>
    obtain rfl : j = n := by omega
    refine ends_pure ⟨rfl, ?_, L, owner, h, ?_⟩
    · rw [Nat.sub_self, Nat.add_zero]
      exact (update_eq_self ..).symm
    · rw [Nat.sub_self]
      simp [Bytes.read, overwrite]
  | succ fuel ih =>
    rcases hj.eq_or_lt with rfl | hlt
    · rw [Fs.filewriteLoop, if_neg (lt_irrefl j)]
      refine ends_pure ⟨rfl, ?_, L, owner, h, ?_⟩
      · rw [Nat.sub_self, Nat.add_zero]
        exact (update_eq_self ..).symm
      · rw [Nat.sub_self]
        simp [Bytes.read, overwrite]
    · rw [filewriteLoop_succ hlt]
      generalize hm : min (n - j) writeMax = m
      have hmax' : MAXFILE * BSIZE < 2 ^ 32 := by decide
      have hpos : 0 < writeMax := by decide
      have hlen : (addr.read j m).length = m := Bytes.length_read
      have hrest : n - j = m + (n - (j + m)) := by omega
      have hdata : L.node.data.length = L.c.size := Live.length_bytes
      rw [hrest, touched_add] at hroom
      rw [hrest, Bytes.read_add]
      refine Ends.bind (Logged.erases_writeChunk.ends (h.ends_writeChunk (l := []) ht (by omega) (fun hno => ?_)
        (fun _ hs => ?_) fun hfits s' M owner' w hs' hsb hfile hM hspare => ?_))
      · rw [Live.fits_iff, hlen] at hno
        exact (hno ⟨hoff, by omega⟩).elim
      · rw [hlen] at hs
        exact absurd (hroom.trans' (Live.need_mono Finset.subset_union_left)) (not_le.2 hs)
      · have hneed := hM.need (touched ((s.file f).off + m) (n - (j + m)))
        rw [hlen] at hneed hspare hfile
        have hnow : (s'.file f).off = (s.file f).off + m := by rw [hfile, update_self]
        have htype : M.c.type = L.c.type := congrArg Node.type hM.node
        have hMsize := hM.size
        rw [hlen] at hMsize ⊢
        rw [if_neg (by omega), if_neg (by simp), Int.toNat_natCast]
        refine (ih hs' (by rwa [htype]) (by omega) (by omega) (by omega) (by omega) ?_).mono ?_
        · rw [hnow, hsb]
          omega
        · rintro k s'' ⟨hk, hfile'', N, owner'', hs'', hN⟩
          refine ⟨hk, ?_, N, owner'', hs'', ?_⟩
          · rw [hfile'', hnow, hfile, update_idem, update_self, Nat.add_assoc]
          · have happend := @overwrite_append L.node.data (addr.read j m) (s.file f).off
              (addr.read (j + m) (n - (j + m))) (hoff.trans_eq hdata.symm)
            rw [hlen] at happend
            rw [hN, hM.node, hnow]
            simp only [happend]

/-- A `filewrite` that fits. -/
theorem ends_filewrite {n : ℕ} {out : ℤ} {Q : ℤ → State Pid → Prop} (h : Rests 0 node s i X L owner)
    (ht : L.c.type ≠ T_DEV) (htype : (s.file f).type = .inode) (hip : (s.file f).ip = i)
    (hwritable : (s.file f).writable = true) (hoff : (s.file f).off ≤ L.c.size)
    (hmax : (s.file f).off + n ≤ MAXFILE * BSIZE) (hroom : L.need (touched (s.file f).off n) ≤ spare s.sb owner)
    (hQ : ∀ s' M owner', s'.file = update s.file f { s.file f with off := (s.file f).off + n } →
      Rests 0 node s' i X M owner' →
      M.node = { L.node with data := overwrite L.node.data (s.file f).off (addr.read 0 n) } → Q n s') :
    (Fs.filewrite p f addr n out).Ends (fun _ => False) s Q := by
  refine Ends.bind (ends_reads ?_)
  simp only [hwritable, htype, hip, not_true, if_false, Int.toNat_natCast]
  refine Ends.bind ((ends_filewriteLoop h ht (Nat.zero_le n) le_rfl hoff hmax hroom).mono ?_)
  rintro k s' ⟨rfl, hfile, M, owner', hs', hM⟩
  rw [if_pos rfl]
  exact ends_pure (hQ s' M owner' hfile hs' hM)

end

end Xv6.Fs.Shared
