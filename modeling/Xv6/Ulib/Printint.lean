import Mathlib.Data.Nat.Digits.Lemmas

/-!
# Printing numbers

`printint` of the kernel's `console.c` and of the user library's `printf.c`, and `atoi` of `ulib.c`. Both
store the digits of a number, least significant first, in a buffer of 16 bytes and print them from the
end. A store outside the buffer and a read outside the table of digits are `none`.
-/

namespace Xv6.Ulib

/-- The size of `buf`. -/
abbrev BUF : ℕ := 16

/-- The do-while loop: the characters that are stored, if there is room for them. -/
def convert (digits : List Char) (base : ℕ) : ℕ → ℕ → Option (List Char)
  | 0, _ => none
  | room + 1, x => do
    let c ← digits[x % base]?
    if x / base ≠ 0 then do
      let cs ← convert digits base room (x / base)
      pure (c :: cs)
    else pure [c]

/-- `buf[i++] = c`. -/
def put (buf : List Char) (c : Char) : Option (List Char) := if buf.length < BUF then some (buf ++ [c]) else none

/-- `printint` of `printf.c`. -/
def User.printint (xx : BitVec 32) (base : ℕ) (sgn : Bool) : Option (List Char) := do
  let neg := sgn && decide (xx.toInt < 0)
  let x := if neg then -xx else xx
  let buf ← convert "0123456789ABCDEF".toList base BUF x.toNat
  let buf ← if neg then put buf '-' else pure buf
  pure buf.reverse

/-- `printint` of `console.c`; its test assigns to `sign`. -/
def Kernel.printint (xx : BitVec 32) (base : ℕ) (sign : Bool) : Option (List Char) := do
  let (sign, x) :=
    if sign then
      let sign := decide (xx.toInt < 0)
      (sign, if sign then -xx else xx)
    else (sign, xx)
  let buf ← convert "0123456789abcdef".toList base BUF x.toNat
  let buf ← if sign then put buf '-' else pure buf
  pure buf.reverse

def atoiFrom (n : BitVec 32) : List Char → BitVec 32
  | [] => n
  | c :: s => if '0' ≤ c ∧ c ≤ '9' then atoiFrom (n * 10 + BitVec.ofNat 32 c.toNat - 48) s else n

def atoi (s : List Char) : BitVec 32 := atoiFrom 0 s

/-! ## Numerals -/

/-- The value that is printed. -/
def value (xx : BitVec 32) (sign : Bool) : ℤ := if sign then xx.toInt else xx.toNat

/-- The places of a number, least significant first; 0 has one. -/
def places (base x : ℕ) : List ℕ := if x = 0 then [0] else base.digits x

/-- The digits of a number without leading zeros, behind a sign if it is negative. -/
def numeral (digits : List Char) (base : ℕ) (v : ℤ) : List Char :=
  (if v < 0 then ['-'] else []) ++ ((places base v.natAbs).map fun d => digits.getD d ' ').reverse

section

variable {digits : List Char} {base x room : ℕ}

theorem places_div (hbase : 1 < base) :
    places base x = if x / base ≠ 0 then x % base :: places base (x / base) else [x % base] := by
  unfold places
  split_ifs with hx hdiv hdiv
  · simp [hx] at hdiv
  · rw [hx, Nat.zero_mod]
  · rw [Nat.digits_def' hbase (Nat.pos_of_ne_zero hx)]
  · rw [Nat.digits_def' hbase (Nat.pos_of_ne_zero hx), not_not.mp hdiv, Nat.digits_zero]

theorem length_places (hbase : 1 < base) (hx : x < base ^ room) (hroom : 0 < room) :
    (places base x).length ≤ room := by
  unfold places
  split_ifs
  · exact hroom
  · exact (Nat.digits_length_le_iff hbase x).mpr hx

/-- The loop stores the places. -/
theorem convert_eq (hbase : 1 < base) (hdigits : base ≤ digits.length) (hx : x < base ^ room) (hroom : 0 < room) :
    convert digits base room x = some ((places base x).map fun d => digits.getD d ' ') := by
  induction room generalizing x with
  | zero => omega
  | succ room ih =>
    have hlt : x % base < digits.length := (Nat.mod_lt x (by omega)).trans_le hdigits
    have hchar : digits[x % base]? = some (digits.getD (x % base) ' ') := by
      rw [List.getD_eq_getElem?_getD, List.getElem?_eq_getElem hlt, Option.getD_some]
    rw [convert, hchar, places_div hbase]
    dsimp only [Option.bind_eq_bind, Option.bind_some]
    split_ifs with hdiv
    · have hless : x / base < base ^ room := Nat.div_lt_of_lt_mul (by rwa [← Nat.pow_succ'])
      have hmore : 0 < room := by
        by_contra hnot
        rw [Nat.eq_zero_of_not_pos hnot, Nat.pow_zero] at hless
        exact hdiv (Nat.lt_one_iff.mp hless)
      rw [ih hless hmore]
      rfl
    · rfl

theorem atoiFrom_append {n : BitVec 32} {s : List Char} {c : Char} (hs : ∀ d ∈ s, '0' ≤ d ∧ d ≤ '9')
    (hc : '0' ≤ c ∧ c ≤ '9') :
    atoiFrom n (s ++ [c]) = atoiFrom n s * 10 + BitVec.ofNat 32 c.toNat - 48 := by
  induction s generalizing n with
  | nil => simp [atoiFrom, hc]
  | cons d s ih =>
    rw [List.cons_append, atoiFrom, if_pos (hs d List.mem_cons_self), atoiFrom, if_pos (hs d List.mem_cons_self)]
    exact ih fun e he => hs e (List.mem_cons_of_mem _ he)

theorem digit_user : ∀ d < 10, '0' ≤ "0123456789ABCDEF".toList.getD d ' ' ∧ "0123456789ABCDEF".toList.getD d ' ' ≤ '9' ∧
    ("0123456789ABCDEF".toList.getD d ' ').toNat = 48 + d := by
  decide

/-- `atoi` evaluates places from the most significant on. -/
theorem atoi_reverse {l : List ℕ} (hl : ∀ d ∈ l, d < 10) :
    atoi ((l.map fun d => "0123456789ABCDEF".toList.getD d ' ').reverse) = BitVec.ofNat 32 (Nat.ofDigits 10 l) := by
  induction l with
  | nil => rfl
  | cons d l ih =>
    obtain ⟨hlow, hhigh, hnat⟩ := digit_user d (hl d List.mem_cons_self)
    have hrest : ∀ e ∈ l, e < 10 := fun e he => hl e (List.mem_cons_of_mem _ he)
    rw [List.map_cons, List.reverse_cons, atoi, atoiFrom_append (fun e he => ?_) ⟨hlow, hhigh⟩, ← atoi, ih hrest, hnat,
      Nat.ofDigits_cons]
    · refine BitVec.eq_of_toNat_eq ?_
      have hten : (10 : BitVec 32).toNat = 10 := rfl
      have hzero : (48 : BitVec 32).toNat = 48 := rfl
      simp only [BitVec.toNat_sub, BitVec.toNat_add, BitVec.toNat_mul, BitVec.toNat_ofNat, hten, hzero]
      omega
    · rw [List.mem_reverse, List.mem_map] at he
      obtain ⟨f, hf, rfl⟩ := he
      exact ⟨(digit_user f (hrest f hf)).1, (digit_user f (hrest f hf)).2.1⟩

theorem ofDigits_places : Nat.ofDigits base (places base x) = x := by
  unfold places
  split_ifs with hx
  · simp [hx]
  · exact Nat.ofDigits_digits base x

theorem places_lt (hbase : 1 < base) {d : ℕ} (hd : d ∈ places base x) : d < base := by
  unfold places at hd
  split_ifs at hd
  · rw [List.mem_singleton.mp hd]
    omega
  · exact Nat.digits_lt_base hbase hd

/-- The two tables are the same up to letter case. -/
theorem toLower_digit : ∀ d < 16, ("0123456789ABCDEF".toList.getD d ' ').toLower = "0123456789abcdef".toList.getD d ' ' := by
  decide

theorem toLower_numeral (hbase : 1 < base) (hle : base ≤ 16) {v : ℤ} :
    (numeral "0123456789ABCDEF".toList base v).map Char.toLower = numeral "0123456789abcdef".toList base v := by
  have hdigits : ((places base v.natAbs).map fun d => "0123456789ABCDEF".toList.getD d ' ').map Char.toLower =
      (places base v.natAbs).map fun d => "0123456789abcdef".toList.getD d ' ' := by
    rw [List.map_map]
    exact List.map_congr_left fun d hd => toLower_digit d ((places_lt hbase hd).trans_le hle)
  unfold numeral
  rw [List.map_append, List.map_reverse, hdigits]
  split_ifs <;> rfl

end

/-! ## What is printed -/

section

variable {xx : BitVec 32} {base : ℕ} {sign : Bool}

/-- The number whose digits are stored. Negation wraps, so this holds for the least number as well. -/
theorem toNat_magnitude (xx : BitVec 32) (sign : Bool) :
    (if sign && decide (xx.toInt < 0) then -xx else xx).toNat = (value xx sign).natAbs := by
  have hint := BitVec.toInt_eq_toNat_cond xx
  cases sign with
  | false => simp [value]
  | true =>
    simp only [value, Bool.true_and, if_true, decide_eq_true_eq]
    split_ifs with hneg
    · rw [BitVec.toNat_neg]
      omega
    · omega

theorem neg_iff : (sign && decide (xx.toInt < 0)) = true ↔ value xx sign < 0 := by
  cases sign <;> simp [value]

/-- What both functions do once they know the sign. -/
theorem print_eq {digits : List Char} (hbase : 1 < base) (hdigits : base ≤ digits.length) (hroom : 2 ^ 32 ≤ base ^ 15) :
    (do
      let buf ← convert digits base BUF (if sign && decide (xx.toInt < 0) then -xx else xx).toNat
      let buf ← if sign && decide (xx.toInt < 0) then put buf '-' else pure buf
      pure buf.reverse) = some (numeral digits base (value xx sign)) := by
  have hlt := (if sign && decide (xx.toInt < 0) then -xx else xx).isLt
  have hfits := hlt.trans_le hroom
  rw [convert_eq hbase hdigits (hfits.trans_le (Nat.pow_le_pow_right (by omega) (by decide))) (by decide)]
  have hlen := length_places hbase hfits (by decide)
  rw [toNat_magnitude] at hlen ⊢
  unfold numeral
  dsimp only [Option.bind_eq_bind, Option.bind_some]
  by_cases hneg : value xx sign < 0
  · rw [if_pos (neg_iff.mpr hneg), if_pos hneg, put, if_pos (by rw [List.length_map]; exact Nat.lt_succ_of_le hlen)]
    simp
  · rw [if_neg (mt neg_iff.mp hneg), if_neg hneg]
    rfl

/-- Numbers are printed exactly: neither function leaves its buffer, both print the numeral without
leading zeros of the value, and so they print the same up to letter case; and `atoi` reads back what the
user library prints in base 10, unless it is negative. -/
theorem printint_exact (hbase : base = 10 ∨ base = 16) :
    ∃ u k, User.printint xx base sign = some u ∧ Kernel.printint xx base sign = some k ∧
      u = numeral "0123456789ABCDEF".toList base (value xx sign) ∧
      k = numeral "0123456789abcdef".toList base (value xx sign) ∧ u.map Char.toLower = k ∧
      (base = 10 → 0 ≤ value xx sign → atoi u = xx) := by
  have hone : 1 < base := by omega
  have hle : base ≤ 16 := by omega
  have huser : base ≤ "0123456789ABCDEF".toList.length := hle
  have hkernel : base ≤ "0123456789abcdef".toList.length := hle
  have hroom : 2 ^ 32 ≤ base ^ 15 := by
    rcases hbase with rfl | rfl
    · decide
    · decide
  refine ⟨_, _, print_eq hone huser hroom, ?_, rfl, rfl, toLower_numeral hone hle, fun hten hpos => ?_⟩
  · rw [← print_eq hone hkernel hroom, Kernel.printint]
    cases sign <;> rfl
  · subst hten
    rw [numeral, if_neg (by omega), List.nil_append, atoi_reverse fun d hd => places_lt hone hd, ofDigits_places]
    refine BitVec.eq_of_toNat_eq ?_
    have hmag := toNat_magnitude xx sign
    rw [if_neg (mt neg_iff.mp (by omega))] at hmag
    rw [← hmag, BitVec.ofNat_toNat]
    rfl

end

theorem printint_exact_min : (10 = 10 ∨ 10 = 16) ∧
    ∃ u k, User.printint (BitVec.intMin 32) 10 true = some u ∧ Kernel.printint (BitVec.intMin 32) 10 true = some k ∧
      u = numeral "0123456789ABCDEF".toList 10 (value (BitVec.intMin 32) true) ∧
      k = numeral "0123456789abcdef".toList 10 (value (BitVec.intMin 32) true) ∧ u.map Char.toLower = k ∧
      (10 = 10 → 0 ≤ value (BitVec.intMin 32) true → atoi u = BitVec.intMin 32) :=
  ⟨.inl rfl, printint_exact (.inl rfl)⟩

end Xv6.Ulib
