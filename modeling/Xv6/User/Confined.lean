import Xv6.User.Access

/-!
# User pointers are confined

`read` and `write` stay below the size of the process, except for a `read` of a file with a negative
count: `argptr` takes the count for a large unsigned number that wraps around, and `readi` cuts it to
what is left of the file.
-/

namespace Xv6.User

open Fs

variable {α β : Type} {sz : ℕ} {p : Proc} {n : ℤ}

/-- The code uses addresses below `sz` only. -/
def Below (sz : ℕ) (x : Traced α) : Prop := ∀ t, ∀ a ∈ touched x t, a ∈ t ∨ a < sz

theorem below_pure {a : α} : Below sz (pure a : Traced α) := fun _ _ ha => .inl ha

theorem below_throw {msg : String} : Below sz (throw msg : Traced α) := fun _ _ ha => .inl ha

theorem Below.bind {x : Traced α} {f : α → Traced β} (hx : Below sz x) (hf : ∀ a, Below sz (f a)) :
    Below sz (x >>= f) := by
  intro t a ha
  have hxt := hx t
  simp only [touched, Bind.bind, EStateM.bind] at ha hxt
  cases hrun : x t with
  | error e t' =>
    rw [hrun] at ha hxt
    exact hxt a ha
  | ok b t' =>
    rw [hrun] at ha hxt
    exact (hf b t' a ha).elim (hxt a) .inr

theorem below_touch {a : ℕ} (h : uint a < sz) : Below sz (touch a) := by
  intro t b hb
  rcases List.mem_cons.mp hb with rfl | hb
  · exact .inr h
  · exact .inl hb

theorem below_memmove {a m : ℕ} (h : a + m ≤ sz) (hsz : sz < 2 ^ 32) : Below sz (memmove a m) := by
  intro t b hb
  rcases List.mem_append.mp hb with hb | hb
  · obtain ⟨j, hj, rfl⟩ := List.mem_map.mp hb
    have := List.mem_range.mp hj
    right
    simp only [uint]
    omega
  · exact .inl hb

theorem int_of_lt {x : ℕ} (h : x < 2 ^ 31) : int x = x := by
  unfold int
  rw [Int.bmod_eq_of_le] <;> omega

/-! ## Counts that are not negative -/

section

variable {env : Env} {addr : ℕ} {n : ℤ} {off m : ℕ}

theorem below_at {i : ℕ} (h : addr + n.toNat ≤ sz) (hsz : sz < 2 ^ 32) (hi : i < n) :
    Below sz (touch (addr + i)) := by
  refine below_touch ?_
  simp only [uint]
  omega

theorem below_piperead (h : addr + n.toNat ≤ sz) (hsz : sz < 2 ^ 32) : Below sz (piperead env addr n) := by
  have hloop : ∀ avail i, Below sz (pipereadFrom addr n avail i) := by
    intro avail
    induction avail with
    | zero => exact fun i => below_pure
    | succ avail ih =>
      intro i
      rw [pipereadFrom]
      split_ifs with hi
      · exact (below_at h hsz hi).bind fun _ => ih (i + 1)
      · exact below_pure
  unfold piperead
  split
  · exact below_pure
  · exact hloop _ 0

theorem below_pipewrite (h : addr + n.toNat ≤ sz) (hsz : sz < 2 ^ 32) : Below sz (pipewrite env addr n) := by
  have hloop : ∀ fuel i, Below sz (pipewriteFrom env addr n fuel i) := by
    intro fuel
    induction fuel with
    | zero => exact fun i => below_pure
    | succ fuel ih =>
      intro i
      rw [pipewriteFrom]
      split_ifs with hi
      · exact (below_at h hsz hi).bind fun _ => ih (i + 1)
      · exact below_pure
      · exact below_pure
  exact hloop _ 0

theorem below_consoleread (h : addr + n.toNat ≤ sz) (hsz : sz < 2 ^ 32) : Below sz (consoleread env addr n) := by
  have hloop : ∀ m i, m + i = n.toNat → Below sz (consolereadFrom env addr n m i) := by
    intro m
    induction m with
    | zero => exact fun i _ => below_pure
    | succ m ih =>
      intro i hi
      rw [consolereadFrom]
      split
      · exact below_pure
      · split_ifs
        · exact below_pure
        · exact (below_at h hsz (by omega)).bind fun _ => below_pure
        · exact (below_at h hsz (by omega)).bind fun _ => ih (i + 1) (by omega)
  exact hloop _ 0 rfl

theorem below_consolewrite (h : addr + n.toNat ≤ sz) (hsz : sz < 2 ^ 32) : Below sz (consolewrite addr n) := by
  have hloop : ∀ m i, m + i = n.toNat → Below sz (consolewriteFrom addr m i) := by
    intro m
    induction m with
    | zero => exact fun i _ => below_pure
    | succ m ih => exact fun i hi => (below_at h hsz (by omega)).bind fun _ => ih (i + 1) (by omega)
  exact (hloop _ 0 rfl).bind fun _ => below_pure

/-- A step of the loops of `readi` and `writei` moves some bytes. -/
theorem block_pos (hm : m ≠ 0) : 0 < min m (BSIZE - off % BSIZE) := by
  have : off % BSIZE < BSIZE := Nat.mod_lt _ (by decide)
  omega

theorem below_writeLoop {block : ℕ → Bool} (hsz : sz < 2 ^ 32) (fuel : ℕ) :
    ∀ src off m, src + m ≤ sz → Below sz (writeLoop block fuel src off m) := by
  induction fuel with
  | zero => exact fun _ _ _ _ => below_pure
  | succ fuel ih =>
    intro src off m h
    rw [writeLoop]
    split_ifs with hm
    · exact below_pure
    · refine (below_memmove (by omega) hsz).bind fun _ => ih _ _ _ ?_
      simp only [uint]
      omega
    · exact below_throw

theorem below_writei {ip : Ino} {block : ℕ → Bool} {src : ℕ} (h : src + m ≤ sz) (hsz : sz < 2 ^ 31) :
    Below sz (writei ip block src off m) := by
  unfold writei
  split_ifs
  · refine below_consolewrite (n := int m) ?_ (by omega)
    rw [int_of_lt (by omega)]
    exact h
  · exact below_pure
  · exact below_pure
  · exact below_pure
  · exact (below_writeLoop (by omega) _ _ _ _ h).bind fun _ => below_pure

theorem below_filewrite {f : File} (h : addr + n.toNat ≤ sz) (hsz : sz < 2 ^ 31) :
    Below sz (filewrite env f addr n) := by
  have hloop : ∀ fuel k i, Below sz (filewriteLoop env addr n fuel k i) := by
    intro fuel
    induction fuel with
    | zero => exact fun _ _ => below_pure
    | succ fuel ih =>
      intro k i
      rw [filewriteLoop]
      split_ifs with hi
      · refine (below_writei ?_ hsz).bind fun r => ?_
        · simp only [uint]
          omega
        · split_ifs
          · exact below_pure
          · exact below_throw
          · exact ih _ _
      · exact below_pure
  unfold filewrite
  split_ifs
  · split
    · exact below_pipewrite h (by omega)
    · exact (hloop _ _ _).bind fun _ => below_pure
    · exact below_throw
  · exact below_pure

/-- The loop of `readi` uses `m` addresses from `dst` on. -/
theorem readLoop_run (fuel : ℕ) : ∀ dst off m t, m ≤ fuel → ∃ t', readLoop fuel dst off m t = .ok ⟨⟩ t' ∧
    ∀ a, a ∈ t' ↔ a ∈ t ∨ ∃ j < m, a = uint (dst + j) := by
  induction fuel with
  | zero =>
    intro dst off m t hm
    obtain rfl : m = 0 := by omega
    exact ⟨t, rfl, by simp⟩
  | succ fuel ih =>
    intro dst off m t hm
    rw [readLoop]
    rcases eq_or_ne m 0 with rfl | h0
    · exact ⟨t, rfl, by simp⟩
    · rw [if_neg h0]
      have hpos : 0 < min m (BSIZE - off % BSIZE) := block_pos h0
      have hle : min m (BSIZE - off % BSIZE) ≤ m := min_le_left _ _
      generalize min m (BSIZE - off % BSIZE) = b at hpos hle ⊢
      obtain ⟨t', hrun, hmem⟩ := ih (uint (dst + b)) (uint (off + b)) (m - b)
        (((List.range b).map fun j => uint (dst + j)) ++ t) (by omega)
      refine ⟨t', hrun, fun a => ?_⟩
      rw [hmem, List.mem_append, List.mem_map, or_assoc, or_left_comm]
      refine or_congr_right ⟨?_, ?_⟩
      · rintro (⟨j, hj, rfl⟩ | ⟨j, hj, rfl⟩)
        · exact ⟨j, by have := List.mem_range.mp hj; omega, rfl⟩
        · exact ⟨b + j, by omega, by simp only [uint]; omega⟩
      · rintro ⟨j, hj, rfl⟩
        by_cases hjb : j < b
        · exact .inl ⟨j, List.mem_range.mpr hjb, rfl⟩
        · exact .inr ⟨j - b, by omega, by simp only [uint]; omega⟩

theorem below_readi {ip : Ino} {dst : ℕ} (h : dst + m ≤ sz) (hsz : sz < 2 ^ 31) :
    Below sz (readi env ip dst off m) := by
  unfold readi
  split_ifs with _ _ _ hlt
  · refine below_consoleread (n := int m) ?_ (by omega)
    rw [int_of_lt (by omega)]
    exact h
  · exact below_pure
  · exact below_pure
  all_goals
    refine Below.bind (fun t a ha => ?_) fun _ => below_pure
    obtain ⟨t', hrun, hmem⟩ := readLoop_run _ dst off _ t le_rfl
    rw [touched, hrun] at ha
    refine ((hmem a).mp ha).imp_right ?_
    rintro ⟨j, hj, rfl⟩
    simp only [uint] at hlt ⊢
    omega

theorem below_fileread {f : File} (hn : 0 ≤ n) (h : addr + n.toNat ≤ sz) (hsz : sz < 2 ^ 31) :
    Below sz (fileread env f addr n) := by
  have hunsigned : unsigned n = n.toNat := by
    unfold unsigned
    omega
  unfold fileread
  split_ifs
  · split
    · exact below_piperead h (by omega)
    · exact below_readi (by omega) hsz
    · exact below_throw
  · exact below_pure

end

/-! ## Negative counts -/

section

variable {env : Env} {f : File} {addr : ℕ} {n : ℤ}

theorem quiet_piperead (hn : n < 0) : Below sz (piperead env addr n) := by
  unfold piperead
  split
  · exact below_pure
  · rename_i avail _
    cases avail with
    | zero => exact below_pure
    | succ avail =>
      rw [pipereadFrom, if_neg (by omega)]
      exact below_pure

/-- A negative count is a large unsigned one, which is cut to the rest of the file. -/
theorem readi_negative {ip : Ino} {off : ℕ} {t : List ℕ} (hn : n < 0) (hlow : -2 ^ 31 ≤ n)
    (htype : ip.type ≠ T_DEV) :
    ∀ a, a ∈ touched (readi env ip addr off (unsigned n)) t ↔
      a ∈ t ∨ (off ≤ ip.size ∧ off < -n ∧ ∃ j < ip.size - off, a = uint (addr + j)) := by
  have hsize := ip.size_le
  have hunsigned : unsigned n = (2 ^ 32 + n).toNat := by
    unfold unsigned
    omega
  simp only [MAXFILE, NDIRECT, NINDIRECT, BSIZE] at hsize
  intro a
  unfold readi
  rw [if_neg htype]
  by_cases hbad : ip.size < off ∨ uint (off + unsigned n) < off
  · rw [if_pos hbad]
    have hnot : ¬(off ≤ ip.size ∧ off < -n ∧ ∃ j < ip.size - off, a = uint (addr + j)) := by
      rintro ⟨hle, hlt, -⟩
      simp only [uint, hunsigned] at hbad
      omega
    simp only [hnot, or_false]
    rfl
  · have hcut : ip.size < uint (off + unsigned n) := by
      simp only [uint, hunsigned] at hbad ⊢
      omega
    have hrest : off ≤ ip.size ∧ (off : ℤ) < -n := by
      simp only [uint, hunsigned] at hbad
      omega
    rw [if_neg hbad]
    simp only [if_pos hcut]
    obtain ⟨t', hrun, hmem⟩ := readLoop_run (ip.size - off) addr off (ip.size - off) t le_rfl
    have htouched : touched (do
        readLoop (ip.size - off) addr off (ip.size - off)
        pure ((ip.size - off : ℕ) : ℤ)) t = t' := by
      simp only [touched, Bind.bind, EStateM.bind, hrun]
      rfl
    rw [htouched, hmem]
    simp only [hrest, true_and]

theorem cast_unsigned : ((unsigned n : ℕ) : ℤ) = n % 2 ^ 32 := by
  unfold unsigned
  omega

theorem cast_two_pow : ((2 ^ 32 : ℕ) : ℤ) = 2 ^ 32 := by norm_cast

theorem int_unsigned_eq_bmod : int (unsigned n) = Int.bmod n (2 ^ 32) := by
  unfold int
  rw [cast_unsigned, ← cast_two_pow, Int.emod_bmod]

theorem int_unsigned (hlow : -2 ^ 31 ≤ n) (hhigh : n < 2 ^ 31) : int (unsigned n) = n :=
  int_unsigned_eq_bmod.trans (Int.bmod_eq_of_le (by omega) (by omega))

/-- The console ignores a negative count. -/
theorem below_readi_dev {ip : Ino} {off : ℕ} (hn : n < 0) (hlow : -2 ^ 31 ≤ n) (hsz : addr ≤ sz)
    (hsz' : sz < 2 ^ 32) (htype : ip.type = T_DEV) : Below sz (readi env ip addr off (unsigned n)) := by
  unfold readi
  rw [if_pos htype, int_unsigned hlow (by omega)]
  split_ifs
  · exact below_consoleread (by omega) hsz'
  · exact below_pure

/-- What is left of the file. -/
theorem fileread_negative (hn : n < 0) (hlow : -2 ^ 31 ≤ n) (hlt : addr < sz) (hsz : sz < 2 ^ 31) :
    (∀ a ∈ touched (fileread env f addr n) [], a < sz) ↔
      ¬(f.readable = true ∧ f.type = .inode ∧ (env.ino 0).type ≠ T_DEV ∧
        env.off 0 ≤ (env.ino 0).size ∧ env.off 0 < -n ∧
        sz < addr + ((env.ino 0).size - env.off 0)) := by
  have hbelow : ∀ {x : Traced ℤ}, Below sz x → ∀ a ∈ touched x [], a < sz := fun hx a ha =>
    (hx [] a ha).resolve_left (List.not_mem_nil)
  unfold fileread
  by_cases hread : f.readable = true
  · rw [if_neg (not_not.mpr hread)]
    cases htype : f.type with
    | none => exact iff_of_true (hbelow below_throw) (by simp)
    | pipe => exact iff_of_true (hbelow (quiet_piperead hn)) (by simp)
    | inode =>
      by_cases hdev : (env.ino 0).type = T_DEV
      · refine iff_of_true (hbelow ?_) fun h => h.2.2.1 hdev
        exact below_readi_dev hn hlow hlt.le (by omega) hdev
      · have hsize := (env.ino 0).size_le
        simp only [MAXFILE, NDIRECT, NINDIRECT, BSIZE] at hsize
        simp only [readi_negative hn hlow hdev, List.not_mem_nil, false_or]
        constructor
        · rintro hall ⟨-, -, -, hoff, hneg, hover⟩
          -- the first address that is too high is among those used
          have := hall sz ⟨hoff, hneg, sz - addr, by omega, by simp only [uint]; omega⟩
          omega
        · rintro hfits a ⟨hoff, hneg, j, hj, rfl⟩
          have hle : ¬sz < addr + ((env.ino 0).size - env.off 0) := fun hover =>
            hfits ⟨hread, trivial, hdev, hoff, hneg, hover⟩
          simp only [uint]
          omega
  · rw [if_pos hread]
    exact iff_of_true (hbelow below_pure) fun h => hread h.1

end

/-! ## The calls -/

/-- A `read` with a negative count, of a file whose rest does not fit into the user's memory. -/
def Overruns (d : Dir) (p : Proc) (env : Env) : Prop :=
  d = .read ∧ ∃ f addr n, p.args = some (f, addr, n) ∧ n < 0 ∧ f.readable = true ∧ f.type = .inode ∧
    (env.ino 0).type ≠ T_DEV ∧ env.off 0 ≤ (env.ino 0).size ∧ env.off 0 < -n ∧
    p.sz < addr + ((env.ino 0).size - env.off 0)

theorem int_range {x : ℕ} : -2 ^ 31 ≤ int x ∧ int x < 2 ^ 31 := by
  unfold int
  exact ⟨Int.le_bmod (by decide), Int.bmod_lt (by decide)⟩

theorem Proc.argint_range {k : ℕ} (h : p.argint k = some n) : -2 ^ 31 ≤ n ∧ n < 2 ^ 31 := by
  unfold Proc.argint Proc.fetchint at h
  split_ifs at h
  rw [← Option.some.inj h]
  exact int_range

theorem Proc.argptr_spec {k addr : ℕ} (h : p.argptr k n = some addr) :
    addr < p.sz ∧ uint (addr + unsigned n) ≤ p.sz := by
  unfold Proc.argptr at h
  split at h
  · cases h
  · split_ifs at h with hbad
    rw [← Option.some.inj h]
    omega

/-- What the checks establish. -/
theorem Proc.args_spec {f : File} {addr : ℕ} (hsz : p.sz < 2 ^ 31)
    (h : p.args = some (f, addr, n)) :
    addr < p.sz ∧ -2 ^ 31 ≤ n ∧ (0 ≤ n → addr + n.toNat ≤ p.sz) := by
  unfold Proc.args at h
  split at h
  · rename_i f' n' _ hn
    obtain ⟨a, ha, heq⟩ := Option.map_eq_some_iff.mp h
    simp only [Prod.mk.injEq] at heq
    obtain ⟨rfl, rfl, rfl⟩ := heq
    obtain ⟨hlow, hhigh⟩ := Proc.argint_range hn
    obtain ⟨hlt, hle⟩ := Proc.argptr_spec ha
    refine ⟨hlt, hlow, fun hpos => ?_⟩
    simp only [uint, unsigned] at hle
    omega
  · cases h

/-- The addresses that `read` and `write` use are below the size of the process, unless the call is a
`read` with a negative count that overruns. -/
theorem confined_iff {p : Proc} {env : Env} {d : Dir} (hsz : p.sz < Vm.KERNBASE) :
    (∀ a ∈ touched (d.run p env) [], a < p.sz) ↔ ¬Overruns d p env := by
  have hsz' : p.sz < 2 ^ 31 := hsz
  have hbelow : ∀ {x : Traced ℤ}, Below p.sz x → ∀ a ∈ touched x [], a < p.sz := fun hx a ha =>
    (hx [] a ha).resolve_left (List.not_mem_nil)
  cases hargs : p.args with
  | none =>
    have hnone : d.run p env = pure (-1) := by
      cases d <;> simp [Dir.run, sysRead, sysWrite, hargs]
    rw [hnone]
    refine iff_of_true (hbelow below_pure) ?_
    rintro ⟨-, f, addr, n, hsome, -⟩
    rw [hargs] at hsome
    cases hsome
  | some args =>
    obtain ⟨f, addr, n⟩ := args
    obtain ⟨hlt, hlow, hfits⟩ := Proc.args_spec hsz' hargs
    cases d with
    | write =>
      have hrun : Dir.write.run p env = filewrite env f addr n := by simp [Dir.run, sysWrite, hargs]
      rw [hrun]
      refine iff_of_true (hbelow (below_filewrite ?_ hsz')) (by rintro ⟨⟨⟩, -⟩)
      by_cases hn : 0 ≤ n
      · exact hfits hn
      · omega
    | read =>
      have hrun : Dir.read.run p env = fileread env f addr n := by simp [Dir.run, sysRead, hargs]
      have hover : Overruns .read p env ↔ n < 0 ∧ f.readable = true ∧ f.type = .inode ∧
          (env.ino 0).type ≠ T_DEV ∧ env.off 0 ≤ (env.ino 0).size ∧ env.off 0 < -n ∧
          p.sz < addr + ((env.ino 0).size - env.off 0) := by
        simp [Overruns, hargs]
      rw [hrun, hover]
      by_cases hn : 0 ≤ n
      · exact iff_of_true (hbelow (below_fileread hn (hfits hn) hsz')) fun h => by omega
      · rw [fileread_negative (by omega) hlow hlt hsz']
        have hneg : n < 0 := by omega
        simp only [hneg, true_and]

/-- A process of one page reads 200 bytes to address 4000, with the count -1. -/
def longRead : Proc × Env where
  fst :=
    { sz := 4096
      esp := 0
      ofile := fun _ => some ⟨.inode, true, false⟩
      mem := fun o => if o = 8 then 0xA0 else if o = 9 then 0x0F else if o < 12 then 0 else 0xFF }
  snd :=
    { ino := fun _ => ⟨2, 0, 200, by decide⟩
      off := fun _ => 0
      block := fun _ _ => true
      avail := none
      room := fun _ => true
      input := fun _ => none }

theorem confined_iff_longRead : longRead.1.sz < Vm.KERNBASE ∧
    ((∀ a ∈ touched (Dir.write.run longRead.1 longRead.2) [], a < 4096) ↔
      ¬Overruns .write longRead.1 longRead.2) :=
  ⟨by decide, confined_iff (by decide)⟩

/-- The bytes behind the end of user memory are overwritten. -/
theorem read_overruns : longRead.1.sz = 4096 ∧ 4100 ∈ touched (sysRead longRead.1 longRead.2) [] := by
  decide +kernel

end Xv6.User
