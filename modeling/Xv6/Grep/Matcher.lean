import Mathlib.Data.List.Basic

/-!
# The patterns of `grep`

The matcher of `grep.c`, and the language of a pattern. A string is the list of its characters in front
of the NUL.
-/

namespace Xv6.Grep

abbrev CARET : UInt8 := 94

abbrev STAR : UInt8 := 42

abbrev DOLLAR : UInt8 := 36

abbrev DOT : UInt8 := 46

mutual

/-- Search for `re` at the beginning of `text`. -/
def matchhere (re text : List UInt8) : Bool :=
  match re with
  | [] => true
  | c :: re =>
    if re.head? = some STAR then matchstar c re.tail text
    else if c = DOLLAR ∧ re = [] then text = []
    else
      match text with
      | [] => false
      | t :: text => if c = DOT ∨ c = t then matchhere re text else false
termination_by (re.length, text.length, 0)
decreasing_by
  · simp only [List.length_tail, List.length_cons]
    exact Prod.Lex.left _ _ (by omega)
  · exact Prod.Lex.left _ _ (by simp)

/-- Search for `c*re` at the beginning of `text`. -/
def matchstar (c : UInt8) (re text : List UInt8) : Bool :=
  if matchhere re text then true
  else
    match text with
    | [] => false
    | t :: text => if t = c ∨ c = DOT then matchstar c re text else false
termination_by (re.length, text.length, 1)
decreasing_by
  · exact Prod.Lex.right _ (Prod.Lex.right _ (by decide))
  · exact Prod.Lex.right _ (Prod.Lex.left _ _ (by simp))

end

/-- The loop of `match`. -/
def matchFrom (re : List UInt8) : List UInt8 → Bool
  | [] => matchhere re []
  | t :: text => if matchhere re (t :: text) then true else matchFrom re text

/-- The source's `match`. -/
def matchRe (re text : List UInt8) : Bool :=
  if re.head? = some CARET then matchhere re.tail text else matchFrom re text

/-! ## The language of a pattern -/

inductive Item where
  /-- zero or more of a character -/
  | star (c : UInt8)
  | char (c : UInt8)
  /-- the end of the text -/
  | eot

def parse : List UInt8 → List Item
  | [] => []
  | [c] => if c = DOLLAR then [.eot] else [.char c]
  | c :: d :: re => if d = STAR then .star c :: parse re else .char c :: parse (d :: re)

/-- A dot stands for any character. -/
def Fits (c t : UInt8) : Prop := c = DOT ∨ c = t

/-- The word `u`, in front of the rest of the text. -/
def Item.Denotes : Item → List UInt8 → List UInt8 → Prop
  | .star c, u, _ => ∀ t ∈ u, Fits c t
  | .char c, u, _ => ∃ t, u = [t] ∧ Fits c t
  | .eot, u, rest => u = [] ∧ rest = []

def Denotes : List Item → List UInt8 → List UInt8 → Prop
  | [], w, _ => w = []
  | i :: is, w, rest => ∃ u v, w = u ++ v ∧ i.Denotes u (v ++ rest) ∧ Denotes is v rest

/-- Some word at the beginning of the text is denoted. -/
def Begins (is : List Item) (text : List UInt8) : Prop := ∃ w rest, text = w ++ rest ∧ Denotes is w rest

section

variable {c : UInt8} {is : List Item} {re text : List UInt8}

theorem begins_cons {i : Item} : Begins (i :: is) text ↔ ∃ u v, text = u ++ v ∧ i.Denotes u v ∧ Begins is v := by
  constructor
  · rintro ⟨_, rest, rfl, u, v, rfl, hi, his⟩
    exact ⟨u, v ++ rest, List.append_assoc u v rest, hi, v, rest, rfl, his⟩
  · rintro ⟨u, _, rfl, hi, w, rest, rfl, his⟩
    exact ⟨u ++ w, rest, (List.append_assoc u w rest).symm, u, w, rfl, hi, his⟩

theorem begins_char : Begins (.char c :: is) text ↔ ∃ t v, text = t :: v ∧ Fits c t ∧ Begins is v := by
  rw [begins_cons]
  constructor
  · rintro ⟨_, v, rfl, ⟨t, rfl, ht⟩, his⟩
    exact ⟨t, v, rfl, ht, his⟩
  · rintro ⟨t, v, rfl, ht, his⟩
    exact ⟨[t], v, rfl, ⟨t, rfl, ht⟩, his⟩

theorem begins_eot : Begins [.eot] text ↔ text = [] := by
  rw [begins_cons]
  constructor
  · rintro ⟨_, _, rfl, ⟨rfl, rfl⟩, -⟩
    rfl
  · rintro rfl
    exact ⟨[], [], rfl, ⟨rfl, rfl⟩, [], [], rfl, rfl⟩

/-- A star is used up, or it takes one more character. -/
theorem begins_star : Begins (.star c :: is) text ↔
    Begins is text ∨ ∃ t v, text = t :: v ∧ Fits c t ∧ Begins (.star c :: is) v := by
  simp only [begins_cons]
  constructor
  · rintro ⟨u, v, rfl, hu, his⟩
    cases u with
    | nil => exact .inl his
    | cons t u =>
      obtain ⟨ht, hu⟩ := List.forall_mem_cons.mp hu
      exact .inr ⟨t, u ++ v, rfl, ht, u, v, rfl, hu, his⟩
  · rintro (his | ⟨t, _, rfl, ht, u, v, rfl, hu, his⟩)
    · exact ⟨[], text, rfl, nofun, his⟩
    · exact ⟨t :: u, v, rfl, List.forall_mem_cons.mpr ⟨ht, hu⟩, his⟩

/-! ## The matcher -/

/-- The loop of `matchstar` goes over the text. -/
theorem matchstar_iff (hre : ∀ text, matchhere re text = true ↔ Begins (parse re) text) :
    matchstar c re text = true ↔ Begins (.star c :: parse re) text := by
  induction text with
  | nil =>
    rw [matchstar, begins_star, ← hre]
    simp
  | cons t text ih =>
    rw [matchstar, begins_star, ← hre]
    have hone : (∃ t' v, t :: text = t' :: v ∧ Fits c t' ∧ Begins (.star c :: parse re) v) ↔
        (t = c ∨ c = DOT) ∧ matchstar c re text = true := by
      rw [ih]
      constructor
      · rintro ⟨t', v, heq, hfits, hv⟩
        obtain ⟨rfl, rfl⟩ := List.cons.inj heq
        exact ⟨hfits.symm.imp_left Eq.symm, hv⟩
      · rintro ⟨hfits, hv⟩
        exact ⟨t, text, rfl, hfits.symm.imp_right Eq.symm, hv⟩
    rw [hone]
    split_ifs with hhere hfits
    · exact iff_of_true rfl (.inl hhere)
    · rw [or_iff_right hhere, and_iff_right hfits]
    · rw [or_iff_right hhere]
      exact iff_of_false nofun fun hboth => hfits hboth.1

theorem matchhere_nil : matchhere [] text = true ↔ Begins (parse []) text := by
  rw [matchhere.eq_def]
  exact iff_of_true rfl ⟨[], text, rfl, rfl⟩

/-- A character that is not followed by a star and is not a final dollar. -/
theorem matchhere_char (hstar : re.head? ≠ some STAR) (hend : ¬(c = DOLLAR ∧ re = []))
    (hre : ∀ text, matchhere re text = true ↔ Begins (parse re) text) :
    matchhere (c :: re) text = true ↔ Begins (.char c :: parse re) text := by
  rw [matchhere.eq_def]
  dsimp only
  rw [if_neg hstar, if_neg hend, begins_char]
  cases text with
  | nil => exact iff_of_false nofun fun ⟨_, _, heq, _⟩ => nomatch heq
  | cons t text =>
    dsimp only
    rw [Bool.if_false_right, Bool.and_eq_true, decide_eq_true_iff, hre]
    constructor
    · rintro ⟨hfits, hv⟩
      exact ⟨t, text, rfl, hfits, hv⟩
    · rintro ⟨t', v, heq, hfits, hv⟩
      obtain ⟨rfl, rfl⟩ := List.cons.inj heq
      exact ⟨hfits, hv⟩

theorem matchhere_iff : matchhere re text = true ↔ Begins (parse re) text := by
  -- the cases of `parse` are those of `matchhere`
  induction re using parse.induct generalizing text with
  | case1 => exact matchhere_nil
  | case2 =>
    rw [matchhere.eq_def, parse, if_pos rfl, begins_eot]
    exact decide_eq_true_iff
  | case3 c hc =>
    rw [parse, if_neg hc]
    exact matchhere_char nofun (fun hend => hc hend.1) fun text => matchhere_nil
  | case4 c re ih =>
    rw [matchhere.eq_def, parse, if_pos rfl]
    exact matchstar_iff fun text => ih
  | case5 c d re hd ih =>
    rw [parse, if_neg hd]
    exact matchhere_char (fun heq => hd (Option.some.inj heq)) nofun fun text => ih

theorem matchFrom_iff : matchFrom re text = true ↔ ∃ pre rest, text = pre ++ rest ∧ Begins (parse re) rest := by
  induction text with
  | nil =>
    rw [matchFrom, matchhere_iff]
    constructor
    · exact fun h => ⟨[], [], rfl, h⟩
    · rintro ⟨pre, rest, heq, h⟩
      rwa [(List.append_eq_nil_iff.mp heq.symm).2] at h
  | cons t text ih =>
    rw [matchFrom, Bool.if_true_left, Bool.or_eq_true, decide_eq_true_iff, matchhere_iff, ih]
    constructor
    · rintro (h | ⟨pre, rest, rfl, h⟩)
      · exact ⟨[], t :: text, rfl, h⟩
      · exact ⟨t :: pre, rest, rfl, h⟩
    · rintro ⟨pre, rest, heq, h⟩
      cases pre with
      | nil => exact .inl (heq ▸ h)
      | cons t' pre => exact .inr ⟨pre, rest, (List.cons.inj heq).2, h⟩

/-- The items of a pattern, without the caret at its beginning. -/
def items (re : List UInt8) : List Item := parse (if re.head? = some CARET then re.tail else re)

/-- `match` finds a part of the text that is in the language of the pattern, at the beginning if there is
a caret. -/
theorem matchRe_iff (re text : List UInt8) : matchRe re text = true ↔
    ∃ pre w rest, text = pre ++ w ++ rest ∧ (re.head? = some CARET → pre = []) ∧ Denotes (items re) w rest := by
  unfold matchRe items
  split_ifs with hcaret
  · rw [matchhere_iff]
    constructor
    · rintro ⟨w, rest, rfl, hw⟩
      exact ⟨[], w, rest, rfl, fun _ => rfl, hw⟩
    · rintro ⟨pre, w, rest, rfl, hpre, hw⟩
      exact ⟨w, rest, by rw [hpre hcaret]; rfl, hw⟩
  · rw [matchFrom_iff]
    constructor
    · rintro ⟨pre, _, rfl, w, rest, rfl, hw⟩
      exact ⟨pre, w, rest, (List.append_assoc _ _ _).symm, fun h => absurd h hcaret, hw⟩
    · rintro ⟨pre, w, rest, rfl, -, hw⟩
      exact ⟨pre, w ++ rest, List.append_assoc _ _ _, w, rest, rfl, hw⟩

end

end Xv6.Grep
