import Xv6.Lib.Bytes
import Mathlib.Data.Nat.Bitwise

/-!
# Bitmaps in memory

Bit `k` of a bitmap is bit `k % 8` of byte `k / 8`. It is tested, set and cleared as C code does it,
with the mask `1 << (k % 8)`.
-/

namespace Xv6.Lib.Bytes

/-- The mask `1 << (k % 8)`. -/
def bitMask (k : ℕ) : UInt8 := UInt8.ofNat (2 ^ (k % 8))

/-- Bit `k` of the bitmap. -/
def bit (m : Bytes) (k : ℕ) : Bool := m (k / 8) &&& bitMask k ≠ 0

def setBit (m : Bytes) (k : ℕ) : Bytes := Function.update m (k / 8) (m (k / 8) ||| bitMask k)

def clearBit (m : Bytes) (k : ℕ) : Bytes := Function.update m (k / 8) (m (k / 8) &&& ~~~bitMask k)

variable {m : Bytes} {k j : ℕ}

theorem toNat_bitMask : (bitMask k).toNat = 2 ^ (k % 8) := by
  have h : 2 ^ (k % 8) < 2 ^ 8 := Nat.pow_lt_pow_right (by decide) (by omega)
  rw [bitMask, UInt8.toNat_ofNat', Nat.mod_eq_of_lt h]

theorem bit_eq_testBit : m.bit k = (m (k / 8)).toNat.testBit (k % 8) := by
  have h : m (k / 8) &&& bitMask k = 0 ↔ (m (k / 8)).toNat.testBit (k % 8) = false := by
    rw [← UInt8.toNat_inj, UInt8.toNat_and, toNat_bitMask, Nat.and_two_pow]
    cases (m (k / 8)).toNat.testBit (k % 8) <;> simp
  rw [bit, Bool.eq_iff_iff, decide_eq_true_eq, ne_eq, h, Bool.not_eq_false]

theorem testBit_or_bitMask (x : UInt8) :
    (x ||| bitMask k).toNat.testBit j = (x.toNat.testBit j || decide (k % 8 = j)) := by
  rw [UInt8.toNat_or, toNat_bitMask, Nat.testBit_or, Nat.testBit_two_pow]

/-- Setting a bit changes no other. -/
theorem bit_setBit : (m.setBit k).bit j = (m.bit j || decide (k = j)) := by
  rw [bit_eq_testBit, bit_eq_testBit, setBit]
  by_cases hb : j / 8 = k / 8
  · rw [hb, Function.update_self, testBit_or_bitMask]
    have : k % 8 = j % 8 ↔ k = j := by omega
    simp only [this]
  · have hne : k ≠ j := fun h => hb (by rw [h])
    rw [Function.update_of_ne hb]
    simp [hne]

end Xv6.Lib.Bytes
