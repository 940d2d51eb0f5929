import Mathlib.Data.List.TakeWhile
import Mathlib.Tactic.Common

/-!
# The tokens of `sh`

`gettoken` and `peek` of `sh.c` move a pointer over the line; a pointer is an offset into the buffer. The
tokens that are ahead of a pointer are those of the rest of the line, and `gettoken` takes the first.
-/

namespace Xv6.Sh

abbrev Str := List UInt8

abbrev LT : UInt8 := 0x3C

abbrev BAR : UInt8 := 0x7C

abbrev GT : UInt8 := 0x3E

abbrev AMP : UInt8 := 0x26

abbrev SEMI : UInt8 := 0x3B

abbrev LPAREN : UInt8 := 0x28

abbrev RPAREN : UInt8 := 0x29

/-- `" \t\r\n\v"` -/
def whitespace : Str := [0x20, 0x09, 0x0D, 0x0A, 0x0B]

/-- `"<|>&;()"` -/
def symbols : Str := [LT, BAR, GT, AMP, SEMI, LPAREN, RPAREN]

def white (c : UInt8) : Bool := c ∈ whitespace

def inWord (c : UInt8) : Bool := c ∉ whitespace ∧ c ∉ symbols

/-- `while(s < es && p(*s)) s++`, where `es` is `n` bytes ahead. -/
def advance (m : Str) (p : UInt8 → Bool) : ℕ → ℕ → ℕ
  | 0, s => s
  | n + 1, s => if p (m.getD s 0) then advance m p n (s + 1) else s

def skipWhite (m : Str) (es s : ℕ) : ℕ := advance m white (es - s) s

/-- `gettoken`: what it returns, `*q` and `*eq`, and the new `*ps`. -/
def gettoken (m : Str) (es ps : ℕ) : UInt8 × (ℕ × ℕ) × ℕ :=
  let q := skipWhite m es ps
  let c := m.getD q 0
  let r : UInt8 × ℕ :=
    if c = 0 then (0, q)
    else if c ∈ [BAR, LPAREN, RPAREN, SEMI, AMP, LT] then (c, q + 1)
    else if c = GT then if m.getD (q + 1) 0 = GT then (0x2B, q + 2) else (GT, q + 1)
    else (0x61, advance m inWord (es - q) q)
  (r.1, (q, r.2), skipWhite m es r.2)

/-- `peek`: what it returns, and the new `*ps`. -/
def peek (m : Str) (es ps : ℕ) (toks : Str) : Bool × ℕ :=
  let s := skipWhite m es ps
  (m.getD s 0 ≠ 0 ∧ m.getD s 0 ∈ toks, s)

/-! ## Tokens of a string -/

inductive Token
  | bar
  | lparen
  | rparen
  | semi
  | amp
  | lt
  | gt
  | gtgt
  | word (w : Str)
  deriving DecidableEq

/-- What `gettoken` returns for the token. -/
def Token.code : Token → UInt8
  | .bar => BAR
  | .lparen => LPAREN
  | .rparen => RPAREN
  | .semi => SEMI
  | .amp => AMP
  | .lt => LT
  | .gt => GT
  | .gtgt => 0x2B
  | .word _ => 0x61

/-- The character that `peek` finds at a symbol. -/
def Token.first : Token → Option UInt8
  | .gtgt => some GT
  | .word _ => none
  | t => some t.code

/-- The token of one character. -/
def symbol (c : UInt8) : Option Token :=
  if c = BAR then some .bar
  else if c = LPAREN then some .lparen
  else if c = RPAREN then some .rparen
  else if c = SEMI then some .semi
  else if c = AMP then some .amp
  else if c = LT then some .lt
  else if c = GT then some .gt
  else none

/-- The tokens of a string. -/
def lex : Str → List Token
  | [] => []
  | c :: s =>
    if white c then lex s
    else if c = GT ∧ s.head? = some GT then .gtgt :: lex s.tail
    else match symbol c with
      | some t => t :: lex s
      | none => .word (c :: s.takeWhile inWord) :: lex (s.dropWhile inWord)
termination_by s => s.length
decreasing_by
  all_goals simp only [List.length_cons, List.length_tail]
  all_goals first | omega | exact Nat.lt_succ_of_le (List.dropWhile_suffix _).length_le

/-- The word `w` stands in the line from `q` to `e`, and does not go on. -/
def Span (line : Str) (q e : ℕ) (w : Str) : Prop :=
  ∃ b, line.drop q = w ++ b ∧ e = q + w.length ∧ w ≠ [] ∧ (∀ c ∈ w, inWord c) ∧ ∀ c ∈ b.head?, ¬ inWord c

theorem lex_white {c : UInt8} {s : Str} (hc : white c) : lex (c :: s) = lex s := by
  rw [lex, if_pos hc]

theorem lex_dropWhile (s : Str) : lex (s.dropWhile white) = lex s := by
  induction s with
  | nil => rfl
  | cons c s ih =>
    by_cases hc : white c
    · rw [List.dropWhile_cons_of_pos hc, ih, lex_white hc]
    · rw [List.dropWhile_cons_of_neg hc]

theorem symbol_none {c : UInt8} (h : symbol c = none) : c ∉ symbols := by
  simp only [symbol] at h
  split_ifs at h
  simp only [symbols, List.mem_cons, not_or]
  tauto

section

variable {line : Str} {p : UInt8 → Bool} {ps : ℕ}

/-- A loop over the line stops behind the longest stretch that it is for. -/
theorem advance_eq : advance (line ++ [0]) p (line.length - ps) ps = ps + ((line.drop ps).takeWhile p).length := by
  generalize hn : line.length - ps = n
  induction n generalizing ps with
  | zero => simp [advance, List.drop_eq_nil_of_le (by omega : line.length ≤ ps)]
  | succ n ih =>
    have hlt : ps < line.length := by omega
    have hget : (line ++ [0]).getD ps 0 = (line)[ps] := by
      simp [List.getElem?_append_left hlt, List.getElem?_eq_getElem hlt]
    rw [advance, hget, List.drop_eq_getElem_cons hlt]
    by_cases hp : p (line)[ps]
    · rw [if_pos hp, List.takeWhile_cons_of_pos hp, ih (by omega), List.length_cons]
      omega
    · rw [if_neg hp, List.takeWhile_cons_of_neg hp]
      rfl

theorem drop_takeWhile (s : Str) : s.drop (s.takeWhile p).length = s.dropWhile p := by
  induction s with
  | nil => rfl
  | cons c s ih =>
    by_cases hc : p c
    · rw [List.takeWhile_cons_of_pos hc, List.dropWhile_cons_of_pos hc, List.length_cons, List.drop_succ_cons, ih]
    · rw [List.takeWhile_cons_of_neg hc, List.dropWhile_cons_of_neg hc, List.length_nil, List.drop_zero]

theorem drop_advance : line.drop (advance (line ++ [0]) p (line.length - ps) ps) = (line.drop ps).dropWhile p := by
  rw [advance_eq, ← List.drop_drop, drop_takeWhile]

theorem advance_le (hps : ps ≤ line.length) : advance (line ++ [0]) p (line.length - ps) ps ≤ line.length := by
  have : ((line.drop ps).takeWhile p).length ≤ (line.drop ps).length := (List.takeWhile_prefix p).length_le
  rw [advance_eq]
  rw [List.length_drop] at this
  omega

theorem getD_append_zero {q : ℕ} : (line ++ [0]).getD q 0 = ((line.drop q).head?).getD 0 := by
  rw [List.head?_drop, List.getD_eq_getElem?_getD]
  rcases Nat.lt_trichotomy q line.length with h | rfl | h
  · rw [List.getElem?_append_left h]
  · simp
  · rw [List.getElem?_eq_none (by simp; omega), List.getElem?_eq_none (by omega)]

theorem skipWhite_le (hps : ps ≤ line.length) : skipWhite (line ++ [0]) line.length ps ≤ line.length :=
  advance_le hps

/-- The tokens ahead are the same behind white space. -/
theorem lex_skipWhite : lex (line.drop (skipWhite (line ++ [0]) line.length ps)) = lex (line.drop ps) := by
  rw [skipWhite, drop_advance, lex_dropWhile]

theorem not_white_skipWhite {c : UInt8} {s : Str}
    (h : line.drop (skipWhite (line ++ [0]) line.length ps) = c :: s) : ¬ white c := by
  rw [skipWhite, drop_advance] at h
  have := List.head?_dropWhile_not white (line.drop ps)
  rw [h] at this
  simpa using this

theorem eq_length_of_drop {q : ℕ} (hq : q ≤ line.length) (h : line.drop q = []) : q = line.length :=
  Nat.le_antisymm hq (List.drop_eq_nil_iff.mp h)

end

section

variable {line : Str} {ps : ℕ} {c : UInt8} {s : Str}

theorem lex_cons (hc : ¬ white c) : ∃ t ts, lex (c :: s) = t :: ts ∧ ∀ a ∈ symbols, a ∈ t.first ↔ a = c := by
  rw [lex, if_neg hc]
  split_ifs with hgt
  · exact ⟨_, _, rfl, fun a _ => by rw [hgt.1]; exact ⟨fun h => (Option.some.inj h).symm, fun h => h ▸ rfl⟩⟩
  · cases hsym : symbol c with
    | none =>
      refine ⟨_, _, rfl, fun a ha => ⟨nofun, ?_⟩⟩
      rintro rfl
      exact absurd ha (symbol_none hsym)
    | some t =>
      have hfirst : t.first = some c := by
        simp only [symbol] at hsym
        split_ifs at hsym with h h h h h h h <;> cases hsym <;> exact congrArg some h.symm
      exact ⟨_, _, rfl, fun a _ => by rw [hfirst, Option.mem_some_iff, eq_comm]⟩

/-- The next token is one that `peek` is asked for. -/
def Starts (toks : Str) (ts : List Token) : Prop := ∃ c ∈ ts.head?.bind Token.first, c ∈ toks

instance (toks : Str) (ts : List Token) : Decidable (Starts toks ts) :=
  inferInstanceAs (Decidable (∃ c ∈ ts.head?.bind Token.first, c ∈ toks))

/-- `peek` looks at the first character of the next token. -/
theorem peek_spec {toks : Str} (hline : 0 ∉ line) (hps : ps ≤ line.length) (htoks : toks ⊆ symbols) :
    ∃ ps' ≤ line.length, lex (line.drop ps') = lex (line.drop ps) ∧
      peek (line ++ [0]) line.length ps toks = (decide (Starts toks (lex (line.drop ps))), ps') := by
  refine ⟨_, skipWhite_le hps, lex_skipWhite, ?_⟩
  rw [peek, Prod.mk.injEq]
  refine ⟨decide_eq_decide.mpr ?_, rfl⟩
  rw [getD_append_zero, ← lex_skipWhite]
  cases hdrop : line.drop (skipWhite (line ++ [0]) line.length ps) with
  | nil => simp [lex, Starts]
  | cons c s =>
    obtain ⟨t, ts, hlex, hfirst⟩ := lex_cons (s := s) (not_white_skipWhite hdrop)
    have hne : c ≠ 0 := fun h => hline (h ▸ List.mem_of_mem_drop (hdrop ▸ List.mem_cons_self))
    rw [hlex]
    simp only [Starts, List.head?_cons, Option.getD_some, Option.bind_some, ne_eq, hne, not_false_eq_true, true_and]
    constructor
    · exact fun hc => ⟨c, (hfirst c (htoks hc)).mpr rfl, hc⟩
    · rintro ⟨a, ha, hmem⟩
      rwa [← (hfirst a (htoks hmem)).mp ha]

/-- Where there are no more tokens, white space goes up to the end of the line. -/
theorem skipWhite_of_lex_nil (hps : ps ≤ line.length) (h : lex (line.drop ps) = []) :
    skipWhite (line ++ [0]) line.length ps = line.length := by
  refine eq_length_of_drop (skipWhite_le hps) ?_
  rw [← lex_skipWhite] at h
  cases hdrop : line.drop (skipWhite (line ++ [0]) line.length ps) with
  | nil => rfl
  | cons c s =>
    obtain ⟨t, ts, hlex, -⟩ := lex_cons (s := s) (not_white_skipWhite hdrop)
    rw [hdrop, hlex] at h
    cases h

theorem gettoken_nil (hps : ps ≤ line.length) (h : lex (line.drop ps) = []) :
    gettoken (line ++ [0]) line.length ps = (0, (line.length, line.length), line.length) := by
  have hend : skipWhite (line ++ [0]) line.length line.length = line.length := by
    rw [skipWhite, Nat.sub_self, advance]
  rw [gettoken, skipWhite_of_lex_nil hps h, getD_append_zero, List.drop_length]
  simp [hend]

/-- What `gettoken` does once it stands at a token. -/
theorem gettoken_eq {r : UInt8 × ℕ} (hz : c ≠ 0)
    (hdrop : line.drop (skipWhite (line ++ [0]) line.length ps) = c :: s)
    (hr : r = if c ∈ [BAR, LPAREN, RPAREN, SEMI, AMP, LT] then (c, skipWhite (line ++ [0]) line.length ps + 1)
      else if c = GT then
        if (s.head?).getD 0 = GT then (0x2B, skipWhite (line ++ [0]) line.length ps + 2)
        else (GT, skipWhite (line ++ [0]) line.length ps + 1)
      else (0x61, skipWhite (line ++ [0]) line.length ps + ((c :: s).takeWhile inWord).length)) :
    gettoken (line ++ [0]) line.length ps =
      (r.1, (skipWhite (line ++ [0]) line.length ps, r.2), skipWhite (line ++ [0]) line.length r.2) := by
  have hnext : line.drop (skipWhite (line ++ [0]) line.length ps + 1) = s := by
    rw [← List.drop_drop, hdrop]
    rfl
  rw [gettoken]
  simp only [getD_append_zero, hdrop, hnext, advance_eq, List.head?_cons, Option.getD_some, if_neg hz, ← hr]

/-- The symbols of one character, as `gettoken` tells them apart. -/
theorem symbol_code {t : Token} {q n : ℕ} (hsym : symbol c = some t)
    (hgt : c = GT → s.head? ≠ some GT) :
    (if c ∈ [BAR, LPAREN, RPAREN, SEMI, AMP, LT] then (c, q + 1)
      else if c = GT then if (s.head?).getD 0 = GT then (0x2B, q + 2) else (GT, q + 1)
      else (0x61, q + n)) = (t.code, q + 1) := by
  rcases eq_or_ne c GT with rfl | hc
  · have hs : (s.head?).getD 0 ≠ GT := by
      cases s with
      | nil => decide
      | cons d s => exact fun h => hgt rfl (congrArg some h)
    rw [if_neg (by decide), if_pos rfl, if_neg hs]
    cases hsym
    rfl
  · simp only [symbol, if_neg hc] at hsym
    split_ifs at hsym <;> cases hsym <;> simp_all [Token.code]

/-- `gettoken` takes the next token. -/
theorem gettoken_cons {t : Token} {ts : List Token} (hline : 0 ∉ line) (hps : ps ≤ line.length)
    (h : lex (line.drop ps) = t :: ts) :
    ∃ q e, ∃ ps' ≤ line.length, gettoken (line ++ [0]) line.length ps = (t.code, (q, e), ps') ∧
      lex (line.drop ps') = ts ∧ ∀ w, t = .word w → Span line q e w := by
  rw [← lex_skipWhite] at h
  have hq : skipWhite (line ++ [0]) line.length ps ≤ line.length := skipWhite_le hps
  cases hdrop : line.drop (skipWhite (line ++ [0]) line.length ps) with
  | nil =>
    rw [hdrop, lex] at h
    cases h
  | cons c s =>
    have hwhite : ¬ white c := not_white_skipWhite hdrop
    have hz : c ≠ 0 := fun h => hline (h ▸ List.mem_of_mem_drop (hdrop ▸ List.mem_cons_self))
    have hget := gettoken_eq hz hdrop rfl
    rw [hdrop, lex, if_neg hwhite] at h
    generalize skipWhite (line ++ [0]) line.length ps = q at hdrop hget hq
    -- what is left when the token takes `n` characters
    have hrest : ∀ n ≤ (c :: s).length, skipWhite (line ++ [0]) line.length (q + n) ≤ line.length ∧
        lex (line.drop (skipWhite (line ++ [0]) line.length (q + n))) = lex ((c :: s).drop n) := by
      intro n hn
      have hlen : (line.drop q).length = (c :: s).length := congrArg List.length hdrop
      rw [List.length_drop] at hlen
      refine ⟨skipWhite_le (by omega), ?_⟩
      rw [lex_skipWhite, ← List.drop_drop, hdrop]
    split_ifs at h with hgt
    · obtain ⟨rfl, hs⟩ := hgt
      obtain ⟨rfl, rfl⟩ := List.cons.inj h
      obtain ⟨s, rfl⟩ : ∃ s', s = GT :: s' := by
        cases s with
        | nil => cases hs
        | cons d s => exact ⟨s, by rw [Option.some.inj hs]⟩
      have hr := hrest 2 (by simp)
      have hhead : ((GT :: s).head?).getD 0 = GT := rfl
      rw [if_neg (by decide), if_pos rfl, if_pos hhead] at hget
      exact ⟨_, _, _, hr.1, hget, hr.2, nofun⟩
    · cases hsym : symbol c with
      | some t' =>
        rw [hsym] at h
        obtain ⟨rfl, rfl⟩ := List.cons.inj h
        have hr := hrest 1 (by simp)
        rw [symbol_code hsym fun hc hs => hgt ⟨hc, hs⟩] at hget
        refine ⟨_, _, _, hr.1, hget, hr.2, fun w hw => ?_⟩
        rw [hw] at hsym
        simp only [symbol] at hsym
        split_ifs at hsym <;> cases hsym
      | none =>
        rw [hsym] at h
        obtain ⟨rfl, rfl⟩ := List.cons.inj h
        have hword : inWord c := by
          simp only [inWord, decide_eq_true_iff]
          exact ⟨by simpa [white] using hwhite, symbol_none hsym⟩
        have hout : c ∉ [BAR, LPAREN, RPAREN, SEMI, AMP, LT] ∧ c ≠ GT := by
          have := symbol_none hsym
          simp only [symbols, List.mem_cons, not_or, List.not_mem_nil] at this ⊢
          tauto
        have htake : (c :: s).takeWhile inWord = c :: s.takeWhile inWord := List.takeWhile_cons_of_pos hword
        have hr := hrest ((c :: s).takeWhile inWord).length (List.takeWhile_prefix inWord).length_le
        rw [if_neg hout.1, if_neg hout.2] at hget
        refine ⟨_, _, _, hr.1, hget, ?_, ?_⟩
        · rw [hr.2, drop_takeWhile, List.dropWhile_cons_of_pos hword]
        · rintro w hw
          obtain rfl : c :: s.takeWhile inWord = w := Token.word.inj hw
          refine ⟨s.dropWhile inWord, ?_, by rw [htake], by simp, ?_, fun d hd => ?_⟩
          · rw [hdrop, List.cons_append, List.takeWhile_append_dropWhile]
          · rw [← htake]
            exact fun d hd => List.mem_takeWhile_imp hd
          · have := List.head?_dropWhile_not inWord s
            rw [Option.mem_def.mp hd] at this
            simpa using this

end

end Xv6.Sh
