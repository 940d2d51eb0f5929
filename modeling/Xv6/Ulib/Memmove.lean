import Xv6.Lib.Bytes

/-!
# Two functions called `memmove`

The kernel's in `string.c` copies from the end if the ranges overlap so that it has to; the user
library's in `ulib.c` always copies from the beginning. Memory is indexed by address, and pointers wrap.
-/

namespace Xv6.Ulib

open Lib

/-- A pointer after arithmetic. -/
abbrev pointer (p : ℕ) : ℕ := p % 2 ^ 32

/-- `while(n-- > 0) *d++ = *s++;` -/
def copyUp (m : Bytes) : ℕ → ℕ → ℕ → Bytes
  | 0, _, _ => m
  | n + 1, d, s => copyUp (Function.update m d (m s)) n (pointer (d + 1)) (pointer (s + 1))

/-- `--p`. -/
def pred (p : ℕ) : ℕ := if p = 0 then 2 ^ 32 - 1 else p - 1

/-- `while(n-- > 0) *--d = *--s;` -/
def copyDown (m : Bytes) : ℕ → ℕ → ℕ → Bytes
  | 0, _, _ => m
  | n + 1, d, s => copyDown (Function.update m (pred d) (m (pred s))) n (pred d) (pred s)

/-- `memmove` of `string.c`. -/
def Kernel.memmove (m : Bytes) (dst src n : ℕ) : Bytes :=
  if src < dst ∧ pointer (src + n) > dst then copyDown m n (pointer (dst + n)) (pointer (src + n))
  else copyUp m n dst src

/-- `memmove` of `ulib.c`, whose `n` is an `int`. -/
def User.memmove (m : Bytes) (dst src : ℕ) (n : ℤ) : Bytes := copyUp m n.toNat dst src

/-- Memory in which the bytes from `dst` on are what the bytes from `src` on were. -/
def moved (m : Bytes) (dst src n : ℕ) : Bytes :=
  fun x => if dst ≤ x ∧ x < dst + n then m (src + (x - dst)) else m x

section

variable {m : Bytes} {dst src n : ℕ}

/-- A pointer wraps at most when there is nothing left to copy. -/
theorem copyUp_pointer (hdst : dst + n ≤ 2 ^ 32) (hsrc : src + n ≤ 2 ^ 32) :
    copyUp m n (pointer dst) (pointer src) = copyUp m n dst src := by
  cases n with
  | zero => rfl
  | succ n => rw [pointer, pointer, Nat.mod_eq_of_lt (by omega), Nat.mod_eq_of_lt (by omega)]

/-- Copying up repeats the bytes from `src` to `dst` if the source begins in front of the destination. -/
theorem copyUp_eq (hdst : dst + n ≤ 2 ^ 32) (hsrc : src + n ≤ 2 ^ 32) : copyUp m n dst src =
    fun x => if dst ≤ x ∧ x < dst + n then m (src + (x - dst) % (dst - src)) else m x := by
  induction n generalizing m dst src with
  | zero =>
    funext x
    rw [copyUp, if_neg (by omega)]
  | succ n ih =>
    rw [copyUp, copyUp_pointer (by omega) (by omega), ih (by omega) (by omega), Nat.add_sub_add_right]
    funext x
    by_cases hx : dst + 1 ≤ x ∧ x < dst + 1 + n
    · obtain ⟨j, rfl⟩ : ∃ j, x = dst + 1 + j := ⟨x - (dst + 1), by omega⟩
      rw [if_pos hx, if_pos (by omega), Nat.add_sub_cancel_left, show dst + 1 + j - dst = j + 1 by omega,
        Function.update_apply]
      rcases Nat.eq_zero_or_pos (dst - src) with hk | hk
      · rw [hk, Nat.mod_zero, Nat.mod_zero, if_neg (by omega), Nat.add_right_comm, Nat.add_assoc]
      · -- the byte that has just been stored is read if a period is complete
        rw [← Nat.mod_add_mod j]
        have hlt := Nat.mod_lt j hk
        generalize j % (dst - src) = r at hlt
        split_ifs with hend
        · rw [show r + 1 = dst - src by omega, Nat.mod_self, Nat.add_zero]
        · rw [Nat.mod_eq_of_lt (by omega), Nat.add_right_comm, Nat.add_assoc]
    · rw [if_neg hx, Function.update_apply]
      split_ifs with hxd hin hin
      · rw [hxd, Nat.sub_self, Nat.zero_mod, Nat.add_zero]
      · omega
      · omega
      · rfl

theorem copyDown_eq (hdst : dst + n ≤ 2 ^ 32) (hlt : src < dst) :
    copyDown m n (pointer (dst + n)) (pointer (src + n)) = moved m dst src n := by
  induction n generalizing m with
  | zero =>
    funext x
    rw [moved, if_neg (by omega)]
    rfl
  | succ n ih =>
    have hpred : ∀ p, pred (pointer (p + (n + 1))) = pointer (p + n) := by
      intro p
      simp only [pred, pointer]
      split_ifs <;> omega
    have hd : pointer (dst + n) = dst + n := Nat.mod_eq_of_lt (by omega)
    have hs : pointer (src + n) = src + n := Nat.mod_eq_of_lt (by omega)
    rw [copyDown, hpred, hpred, ih (by omega), hd, hs]
    funext x
    by_cases hin : dst ≤ x ∧ x < dst + n
    · rw [moved, moved, if_pos hin, if_pos (by omega), Function.update_of_ne (by omega)]
    · rw [moved, moved, if_neg hin, Function.update_apply]
      split_ifs with hlast hin' hin'
      · rw [hlast, Nat.add_sub_cancel_left]
      · omega
      · omega
      · rfl

theorem memmove_kernel (hdst : dst + n ≤ 2 ^ 32) (hsrc : src + n ≤ 2 ^ 32) :
    Kernel.memmove m dst src n = moved m dst src n := by
  unfold Kernel.memmove
  split_ifs with hdown
  · exact copyDown_eq hdst hdown.1
  · rw [copyUp_eq hdst hsrc]
    funext x
    refine if_ctx_congr Iff.rfl (fun hx => ?_) fun _ => rfl
    -- without overlap, or with the destination in front, no byte is read after it has been stored
    rcases le_or_gt dst src with hle | hlt
    · rw [Nat.sub_eq_zero_of_le hle, Nat.mod_zero]
    · have hend : pointer (src + n) = src + n := Nat.mod_eq_of_lt (by omega)
      rw [hend] at hdown
      rw [Nat.mod_eq_of_lt (by omega)]

/-- Both functions move the bytes if and only if the destination does not begin inside the source, or the
source repeats itself from one to the other. -/
theorem memmove_agree_iff (hdst : dst + n ≤ 2 ^ 32) (hsrc : src + n ≤ 2 ^ 32) :
    (Kernel.memmove m dst src n = moved m dst src n ∧ User.memmove m dst src n = moved m dst src n) ↔
      dst ≤ src ∨ src + n ≤ dst ∨ ∀ i < n, m (src + i % (dst - src)) = m (src + i) := by
  have huser : User.memmove m dst src n = moved m dst src n ↔
      ∀ i < n, m (src + i % (dst - src)) = m (src + i) := by
    rw [User.memmove, Int.toNat_natCast, copyUp_eq hdst hsrc]
    constructor
    · intro heq i hi
      have hbyte := congrFun heq (dst + i)
      dsimp only [moved] at hbyte
      rwa [if_pos (by omega), if_pos (by omega), Nat.add_sub_cancel_left] at hbyte
    · intro hall
      funext x
      exact if_ctx_congr Iff.rfl (fun hx => hall (x - dst) (by omega)) fun _ => rfl
  rw [and_iff_right (memmove_kernel hdst hsrc), huser]
  constructor
  · exact fun hall => .inr (.inr hall)
  · rintro (hle | hle | hall) i hi
    · rw [Nat.sub_eq_zero_of_le hle, Nat.mod_zero]
    · rw [Nat.mod_eq_of_lt (by omega)]
    · exact hall i hi

end

theorem memmove_agree_iff_apart : (4 + 2 ≤ 2 ^ 32 ∧ 0 + 2 ≤ 2 ^ 32) ∧
    ((Kernel.memmove UInt8.ofNat 4 0 2 = moved UInt8.ofNat 4 0 2 ∧
      User.memmove UInt8.ofNat 4 0 (2 : ℕ) = moved UInt8.ofNat 4 0 2) ↔
      4 ≤ 0 ∨ 0 + 2 ≤ 4 ∨ ∀ i < 2, UInt8.ofNat (0 + i % (4 - 0)) = UInt8.ofNat (0 + i)) :=
  ⟨by decide, memmove_agree_iff (by decide) (by decide)⟩

/-- Two bytes are moved up by one: the second copy reads what the first has stored. -/
theorem memmove_overlap : User.memmove UInt8.ofNat 1 0 2 2 = 0 ∧ moved UInt8.ofNat 1 0 2 2 = 1 ∧
    Kernel.memmove UInt8.ofNat 1 0 2 2 = 1 := by
  decide

end Xv6.Ulib
