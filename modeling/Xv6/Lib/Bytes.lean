import Mathlib.Data.List.Basic
import Mathlib.Algebra.Order.Group.Nat

/-!
# Byte-addressed memory and little-endian words

A piece of memory (a disk block, a structure on the stack) is a function from offsets to bytes.
`read` and `write` copy runs of bytes; `word` and `setWord` read and write unsigned integers of a
given number of bytes, least significant byte first, as the x86 does. The laws are the two that
every proof about records in memory needs: what was written is read back, and disjoint fields do
not disturb each other.
-/

namespace Xv6.Lib

/-- Memory contents by offset. -/
abbrev Bytes := ℕ → UInt8

namespace Bytes

/-- The `n` bytes from offset `o` on. -/
def read (m : Bytes) (o n : ℕ) : List UInt8 := (List.range n).map fun i => m (o + i)

/-- Copy the bytes `bs` to offset `o`. -/
def write (m : Bytes) (o : ℕ) (bs : List UInt8) : Bytes :=
  fun i => if o ≤ i ∧ i < o + bs.length then bs.getD (i - o) 0 else m i

/-- The first `k` bytes of `v`, least significant first. -/
def le : ℕ → ℕ → List UInt8
  | 0, _ => []
  | k + 1, v => UInt8.ofNat v :: le k (v / 256)

/-- The number with the given bytes, least significant first. -/
def ofLe : List UInt8 → ℕ
  | [] => 0
  | b :: bs => b.toNat + 256 * ofLe bs

/-- The unsigned integer of `k` bytes at offset `o`. -/
def word (k : ℕ) (m : Bytes) (o : ℕ) : ℕ := ofLe (m.read o k)

/-- Store `v` as an unsigned integer of `k` bytes at offset `o`. -/
def setWord (k : ℕ) (m : Bytes) (o v : ℕ) : Bytes := m.write o (le k v)

variable {m : Bytes} {o o' k k' n v : ℕ} {bs : List UInt8}

@[simp] theorem length_read : (m.read o n).length = n := by simp [read]

theorem read_add : m.read o (n + k) = m.read o n ++ m.read (o + n) k := by
  simp only [read, List.range_add, List.map_append, List.map_map, Function.comp_def, Nat.add_assoc]

@[simp] theorem length_le : (le k v).length = k := by
  induction k generalizing v with
  | zero => rfl
  | succ k ih => simp [le, ih]

theorem write_of_not_mem {i : ℕ} (h : i < o ∨ o + bs.length ≤ i) : m.write o bs i = m i := by
  rw [write, if_neg]
  omega

theorem write_of_mem {i : ℕ} (h : i < bs.length) : m.write o bs (o + i) = bs.getD i 0 := by
  rw [write, if_pos (by omega), Nat.add_sub_cancel_left]

/-- Reading a run of bytes that a write does not touch. -/
theorem read_write_of_disjoint (h : o' + n ≤ o ∨ o + bs.length ≤ o') : (m.write o bs).read o' n = m.read o' n := by
  refine List.map_congr_left fun i hi => write_of_not_mem ?_
  rw [List.mem_range] at hi
  omega

/-- Reading back what was written. -/
theorem read_write_self : (m.write o bs).read o bs.length = bs := by
  refine List.ext_getElem (by simp) fun i hi hi' => ?_
  simp only [read, List.getElem_map, List.getElem_range]
  rw [write_of_mem hi', List.getD_eq_getElem?_getD, List.getElem?_eq_getElem hi', Option.getD_some]

theorem ofLe_le : ofLe (le k v) = v % 256 ^ k := by
  induction k generalizing v with
  | zero => simp [le, ofLe, Nat.mod_one]
  | succ k ih =>
    have hb : (UInt8.ofNat v).toNat = v % 256 := by simp
    rw [le, ofLe, ih, hb, Nat.pow_succ, Nat.mul_comm (256 ^ k) 256, Nat.mod_mul]

theorem ofLe_lt : ofLe bs < 256 ^ bs.length := by
  induction bs with
  | nil => simp [ofLe]
  | cons b bs ih =>
    simp only [ofLe, List.length_cons, Nat.pow_succ]
    have hb := b.toNat_lt
    omega

theorem word_lt : m.word k o < 256 ^ k := by
  have h := @ofLe_lt (m.read o k)
  rwa [length_read] at h

/-- A stored integer is read back modulo its width. -/
theorem word_setWord_self : (m.setWord k o v).word k o = v % 256 ^ k := by
  have h := @read_write_self m o (le k v)
  rw [length_le] at h
  rw [word, setWord, h, ofLe_le]

/-- Fields that do not overlap are independent. -/
theorem word_setWord_of_disjoint (h : o' + k' ≤ o ∨ o + k ≤ o') : (m.setWord k o v).word k' o' = m.word k' o' := by
  rw [word, setWord, read_write_of_disjoint (by rwa [length_le]), word]

/-- Store the first `n` values of `f` as consecutive 32-bit words from offset `o` on. -/
def setWords (m : Bytes) (o : ℕ) (f : ℕ → ℕ) : ℕ → Bytes
  | 0 => m
  | n + 1 => (setWords m o f n).setWord 4 (o + 4 * n) (f n)

variable {f : ℕ → ℕ}

theorem word_setWords_of_disjoint (h : o' + k' ≤ o ∨ o + 4 * n ≤ o') :
    (m.setWords o f n).word k' o' = m.word k' o' := by
  induction n with
  | zero => rfl
  | succ n ih => rw [setWords, word_setWord_of_disjoint (by omega), ih (by omega)]

/-- Each word of an array that was stored is read back. -/
theorem word_setWords {j : ℕ} (h : j < n) : (m.setWords o f n).word 4 (o + 4 * j) = f j % 256 ^ 4 := by
  induction n with
  | zero => omega
  | succ n ih =>
    rw [setWords]
    rcases Nat.lt_succ_iff_lt_or_eq.mp h with hlt | rfl
    · rw [word_setWord_of_disjoint (by omega), ih hlt]
    · exact word_setWord_self

end Bytes

end Xv6.Lib
