import Mathlib.Data.List.Forall2

/-!
# Splitting a command line into words

`strtok` of `xvsh.c` and the loop of `process_one_cmd` that calls it. A pointer is an offset into the
buffer, and the words are cut by zero bytes that `strtok` stores into it. The loop replaces the words
that start with `&`, `|` or `>` by null pointers and remembers where they were.
-/

namespace Xv6.Xvsh

abbrev SP : UInt8 := 0x20

/-- The label `cont` of `strtok`: skip the delimiters from `p` on. -/
def skip (m : List UInt8) : ℕ → ℕ → ℕ
  | 0, p => p
  | fuel + 1, p => if m.getD p 0 = SP then skip m fuel (p + 1) else p

/-- The second loop of `strtok`: the first delimiter or zero byte from `p` on. -/
def scan (m : List UInt8) : ℕ → ℕ → ℕ
  | 0, p => p
  | fuel + 1, p => if m.getD p 0 = SP ∨ m.getD p 0 = 0 then p else scan m fuel (p + 1)

/-- The buffer, and the static variable `last` of `strtok`. -/
structure Lex where
  buf : List UInt8
  last : Option ℕ

/-- `strtok(s, " ")`. -/
def strtok (x : Lex) (s : Option ℕ) : Option ℕ × Lex :=
  match s.or x.last with
  | none => (none, x)
  | some s =>
    let tok := skip x.buf x.buf.length s
    if x.buf.getD tok 0 = 0 then (none, { x with last := none })
    else
      let e := scan x.buf x.buf.length (tok + 1)
      if x.buf.getD e 0 = 0 then (some tok, { x with last := none })
      else (some tok, ⟨x.buf.set e 0, some (e + 1)⟩)

/-- The variables of `process_one_cmd`. -/
structure Tokens where
  lex : Lex
  tok : List (Option ℕ)
  bg : ℕ
  pip : ℕ
  red : ℕ
  pipPos : ℕ
  redPos : ℕ

abbrev AMP : UInt8 := 0x26

abbrev BAR : UInt8 := 0x7C

abbrev GT : UInt8 := 0x3E

/-- The `switch` on the first character `c` of the word at `p`. -/
def Tokens.put (t : Tokens) (c : UInt8) (p : ℕ) : Tokens :=
  let i := t.tok.length
  if c = AMP then { t with bg := i, tok := t.tok ++ [none] }
  else if c = BAR then { t with pip := 2, pipPos := i + 1, tok := t.tok ++ [none] }
  else if c = GT then { t with red := 3, redPos := i + 1, tok := t.tok ++ [none] }
  else { t with tok := t.tok ++ [some p] }

/-- The loop of `process_one_cmd` that checks for special symbols. -/
def tokenize : ℕ → Tokens → Tokens
  | 0, t => t
  | fuel + 1, t =>
    match strtok t.lex none with
    | (none, lex) => { t with lex, tok := t.tok ++ [none] }
    | (some p, lex) => tokenize fuel ({ t with lex }.put (lex.buf.getD p 0) p)

/-- The first half of `process_one_cmd`; `pip_pos` and `red_pos` are left from earlier commands. -/
def parse (pipPos redPos : ℕ) (buf : List UInt8) : Tokens :=
  let r := strtok ⟨buf, none⟩ (some 0)
  tokenize buf.length ⟨r.2, [r.1], 0, 0, 0, pipPos, redPos⟩

/-- The string at `p`. -/
def str (m : List UInt8) (p : ℕ) : List UInt8 := (m.drop p).takeWhile (· ≠ 0)

/-! ## What is to come out -/

/-- The maximal runs of characters other than spaces. -/
def words (line : List UInt8) : List (List UInt8) := (line.splitOnP (· == SP)).filter (· ≠ [])

/-- The same variables, with strings for pointers. -/
structure View where
  tok : List (Option (List UInt8))
  bg : ℕ
  pip : ℕ
  red : ℕ
  pipPos : ℕ
  redPos : ℕ

def Tokens.view (t : Tokens) : View :=
  ⟨t.tok.map (Option.map (str t.lex.buf)), t.bg, t.pip, t.red, t.pipPos, t.redPos⟩

def View.put (v : View) (w : List UInt8) : View :=
  let i := v.tok.length
  if w.head? = some AMP then { v with bg := i, tok := v.tok ++ [none] }
  else if w.head? = some BAR then { v with pip := 2, pipPos := i + 1, tok := v.tok ++ [none] }
  else if w.head? = some GT then { v with red := 3, redPos := i + 1, tok := v.tok ++ [none] }
  else { v with tok := v.tok ++ [some w] }

def View.close (v : View) : View := { v with tok := v.tok ++ [none] }

/-- What the words of a line amount to. -/
def classify (pipPos redPos : ℕ) (ws : List (List UInt8)) : View :=
  (ws.tail.foldl View.put ⟨[ws.head?], 0, 0, 0, pipPos, redPos⟩).close

variable {m w pre : List UInt8} {t : Tokens} {v : View} {ws : List (List UInt8)} {p : Option ℕ} {x : Lex} {n : ℕ}

/-! ## Words -/

section

variable {l w : List UInt8}

/-- The characters of a word. -/
def Word (w : List UInt8) : Prop := w ≠ [] ∧ ∀ c ∈ w, c ≠ SP ∧ c ≠ 0

theorem words_nil : words [] = [] := by simp [words]

theorem words_space : words (SP :: l) = words l := by
  simp [words, List.splitOnP_cons_eq_if_modifyHead]

theorem words_spaces {n : ℕ} : words (List.replicate n SP ++ l) = words l := by
  induction n with
  | zero => rfl
  | succ n ih => rw [List.replicate_succ, List.cons_append, words_space, ih]

theorem Word.not_space (hw : Word w) : ∀ c ∈ w, (c == SP) = false := fun c hc => by
  simpa using (hw.2 c hc).1

theorem words_single (hw : Word w) : words w = [w] := by
  rw [words, List.splitOnP_eq_singleton hw.not_space]
  simp [hw.1]

theorem words_cons (hw : Word w) : words (w ++ SP :: l) = w :: words l := by
  rw [words, List.splitOnP_append_cons_of_forall_mem hw.not_space SP rfl]
  simp [hw.1, words]

theorem word_cons {c : UInt8} (hc : c ≠ SP) (hz : c ≠ 0) (hw : w = [] ∨ Word w) : Word (c :: w) := by
  refine ⟨by simp, fun a ha => ?_⟩
  rcases List.mem_cons.mp ha with rfl | ha
  · exact ⟨hc, hz⟩
  · rcases hw with rfl | hw
    · cases ha
    · exact hw.2 a ha

/-- A word goes up to the end or to a space. -/
theorem word_cases {c : UInt8} (hl : ∀ a ∈ c :: l, a ≠ 0) (hc : c ≠ SP) :
    Word (c :: l) ∨ ∃ w t, Word w ∧ c :: l = w ++ SP :: t := by
  have hz : c ≠ 0 := hl c List.mem_cons_self
  induction l generalizing c with
  | nil => exact .inl (word_cons hc hz (.inl rfl))
  | cons d l ih =>
    by_cases hd : d = SP
    · exact .inr ⟨[c], l, word_cons hc hz (.inl rfl), by rw [hd]; rfl⟩
    · have hl' : ∀ a ∈ d :: l, a ≠ 0 := fun a ha => hl a (List.mem_cons_of_mem _ ha)
      rcases ih hl' hd (hl' d List.mem_cons_self) with hw | ⟨w, t, hw, heq⟩
      · exact .inl (word_cons hc hz (.inr hw))
      · exact .inr ⟨c :: w, t, word_cons hc hz (.inr hw), by rw [heq]; rfl⟩

/-- A line has spaces only, ends in its first word, or goes on behind it. -/
theorem line_cases (hl : ∀ c ∈ l, c ≠ 0) :
    ∃ n, l = List.replicate n SP ∨ (∃ w, Word w ∧ l = List.replicate n SP ++ w) ∨
      ∃ w t, Word w ∧ l = List.replicate n SP ++ (w ++ SP :: t) := by
  induction l with
  | nil => exact ⟨0, .inl rfl⟩
  | cons c l ih =>
    by_cases hc : c = SP
    · obtain ⟨n, hn⟩ := ih fun a ha => hl a (List.mem_cons_of_mem _ ha)
      refine ⟨n + 1, ?_⟩
      simp only [hc, List.replicate_succ, List.cons_append, List.cons.injEq, true_and]
      exact hn
    · exact ⟨0, .inr (word_cases hl hc |>.imp (fun hw => ⟨_, hw, rfl⟩) id)⟩

end

/-! ## `strtok` -/

section

variable {m : List UInt8} {p : ℕ} {t : List UInt8} {c : UInt8}

theorem getD_of_drop (h : m.drop p = c :: t) : m.getD p 0 = c := by
  rw [List.getD_eq_getElem?_getD, ← List.head?_drop, h]
  rfl

theorem drop_add {u : List UInt8} (h : m.drop p = u ++ t) : m.drop (p + u.length) = t := by
  rw [← List.drop_drop, h, List.drop_left]

theorem skip_eq {n fuel : ℕ} (h : m.drop p = List.replicate n SP ++ c :: t)
    (hc : c ≠ SP) (hfuel : n ≤ fuel) : skip m fuel p = p + n := by
  induction n generalizing fuel p with
  | zero =>
    have hp : m.getD p 0 = c := getD_of_drop h
    cases fuel with
    | zero => rfl
    | succ fuel =>
      rw [skip, hp, if_neg hc]
      rfl
  | succ n ih =>
    obtain ⟨fuel, rfl⟩ : ∃ f, fuel = f + 1 := ⟨fuel - 1, by omega⟩
    have hp : m.getD p 0 = SP := getD_of_drop h
    have hnext : m.drop (p + 1) = List.replicate n SP ++ c :: t := drop_add (u := [SP]) h
    rw [skip, hp, if_pos rfl, ih hnext (by omega)]
    omega

theorem scan_eq {fuel : ℕ} (h : m.drop p = w ++ c :: t)
    (hw : ∀ a ∈ w, a ≠ SP ∧ a ≠ 0) (hc : c = SP ∨ c = 0) (hfuel : w.length ≤ fuel) :
    scan m fuel p = p + w.length := by
  induction w generalizing fuel p with
  | nil =>
    have hp : m.getD p 0 = c := getD_of_drop h
    cases fuel with
    | zero => rfl
    | succ fuel =>
      rw [scan, hp, if_pos hc]
      rfl
  | cons a w ih =>
    obtain ⟨fuel, rfl⟩ : ∃ f, fuel = f + 1 := ⟨fuel - 1, by rw [List.length_cons] at hfuel; omega⟩
    have hp : m.getD p 0 = a := getD_of_drop h
    have ha := hw a List.mem_cons_self
    have hnext : m.drop (p + 1) = w ++ c :: t := drop_add (u := [a]) h
    rw [scan, hp, if_neg (by tauto), ih hnext (fun b hb => hw b (List.mem_cons_of_mem _ hb))
      (by rw [List.length_cons] at hfuel; omega), List.length_cons]
    omega

end

/-- The buffer: what has been dealt with, and the rest of the line. -/
def buffer (pre rest : List UInt8) : List UInt8 := pre ++ (rest ++ [0])

section

variable {pre rest : List UInt8} {last : Option ℕ} {s : Option ℕ}

theorem strtok_none {n : ℕ} (hs : s.or last = some pre.length) (hrest : rest = List.replicate n SP) :
    strtok ⟨buffer pre rest, last⟩ s = (none, ⟨buffer pre rest, none⟩) := by
  have hdrop : (buffer pre rest).drop pre.length = List.replicate n SP ++ 0 :: [] := by
    rw [buffer, List.drop_left, hrest]
  have hskip : skip (buffer pre rest) (buffer pre rest).length pre.length = pre.length + n :=
    skip_eq hdrop (by decide) (by simp [buffer, hrest]; omega)
  have hend : (buffer pre rest).getD (pre.length + n) 0 = 0 := by
    have := drop_add hdrop
    rw [List.length_replicate] at this
    exact getD_of_drop this
  simp only [strtok, hs, hskip, hend, if_true]

/-- `strtok` finds a word that ends with `c`. -/
theorem strtok_find {n : ℕ} {c : UInt8} {t : List UInt8}
    (hs : s.or last = some pre.length) (hw : Word w) (hc : c = SP ∨ c = 0)
    (hrest : rest ++ [0] = List.replicate n SP ++ (w ++ c :: t)) :
    strtok ⟨buffer pre rest, last⟩ s = (some (pre.length + n),
      if c = 0 then ⟨buffer pre rest, none⟩
      else ⟨(buffer pre rest).set (pre.length + n + w.length) 0, some (pre.length + n + w.length + 1)⟩) := by
  obtain ⟨a, w', rfl⟩ := List.exists_cons_of_ne_nil hw.1
  obtain ⟨ha, hz⟩ := hw.2 a List.mem_cons_self
  have hlen : (buffer pre rest).length = pre.length + (n + (w'.length + 1 + (t.length + 1))) := by
    rw [buffer, hrest]
    simp only [List.length_append, List.length_replicate, List.length_cons]
  have hdrop : (buffer pre rest).drop pre.length = List.replicate n SP ++ a :: (w' ++ c :: t) := by
    rw [buffer, List.drop_left, hrest]
    rfl
  have hskip : skip (buffer pre rest) (buffer pre rest).length pre.length = pre.length + n :=
    skip_eq hdrop ha (by omega)
  have hstart : (buffer pre rest).drop (pre.length + n) = a :: (w' ++ c :: t) := by
    have := drop_add hdrop
    rwa [List.length_replicate] at this
  have hinner : (buffer pre rest).drop (pre.length + n + 1) = w' ++ c :: t := drop_add (u := [a]) hstart
  have hscan : scan (buffer pre rest) (buffer pre rest).length (pre.length + n + 1) =
      pre.length + n + 1 + w'.length :=
    scan_eq hinner (fun b hb => hw.2 b (List.mem_cons_of_mem _ hb)) hc (by omega)
  have hend : (buffer pre rest).getD (pre.length + n + 1 + w'.length) 0 = c := getD_of_drop (drop_add hinner)
  have hplace : pre.length + n + (a :: w').length = pre.length + n + 1 + w'.length := by
    rw [List.length_cons]
    omega
  simp only [strtok, hs, hskip, getD_of_drop hstart, hz, if_false, hscan, hend, hplace]
  split_ifs <;> rfl

end

/-! ## The loop -/

/-- A pointer into `m`, and the string it points to. -/
def Points (m : List UInt8) (p : Option ℕ) (w : Option (List UInt8)) : Prop :=
  (p = none ∧ w = none) ∨
    ∃ p' w' t, p = some p' ∧ w = some w' ∧ m.drop p' = w' ++ 0 :: t ∧ ∀ c ∈ w', c ≠ 0

theorem Points.extend {x : List UInt8} {w : Option (List UInt8)} (h : Points m p w) : Points (m ++ x) p w := by
  obtain h | ⟨p', w', t, rfl, rfl, hdrop, hw⟩ := h
  · exact .inl h
  · refine .inr ⟨p', w', t ++ x, rfl, rfl, ?_, hw⟩
    have hle : p' ≤ m.length := by
      by_contra hlt
      rw [List.drop_eq_nil_of_le (by omega)] at hdrop
      simp at hdrop
    rw [List.drop_append_of_le_length hle, hdrop, List.append_assoc]
    rfl

theorem Points.str {w : Option (List UInt8)} (h : Points m p w) : p.map (Xvsh.str m) = w := by
  obtain ⟨rfl, rfl⟩ | ⟨p', w', t, rfl, rfl, hdrop, hw⟩ := h
  · rfl
  · rw [Option.map_some, Xvsh.str, hdrop, List.takeWhile_append_of_pos (by simpa using hw)]
    simp

/-- The variables, with the strings the pointers lead to in `m`. -/
structure Shows (m : List UInt8) (t : Tokens) (v : View) : Prop where
  tok : List.Forall₂ (Points m) t.tok v.tok
  rest : t.bg = v.bg ∧ t.pip = v.pip ∧ t.red = v.red ∧ t.pipPos = v.pipPos ∧ t.redPos = v.redPos

theorem Shows.view (h : Shows t.lex.buf t v) : t.view = v := by
  obtain ⟨htok, hbg, hpip, hred, hpos, hpos'⟩ := h
  have hmap : t.tok.map (Option.map (str t.lex.buf)) = v.tok :=
    List.forall₂_eq_eq_eq ▸ List.forall₂_map_left_iff.2 (htok.imp fun _ _ => Points.str)
  rw [Tokens.view, hmap, hbg, hpip, hred, hpos, hpos']

theorem Shows.extend {x : List UInt8} (h : Shows m t v) : Shows (m ++ x) t v :=
  ⟨h.tok.imp fun _ _ => Points.extend, h.rest⟩

theorem Shows.push {w : Option (List UInt8)}
    (h : Shows m t v) (hp : Points m p w) :
    Shows m { t with tok := t.tok ++ [p] } { v with tok := v.tok ++ [w] } :=
  ⟨List.rel_append h.tok (.cons hp .nil), h.rest⟩

theorem Shows.put {p : ℕ} {c : UInt8}
    (h : Shows m t v) (hp : Points m (some p) (some w)) (hc : w.head? = some c) :
    Shows m (t.put c p) (v.put w) := by
  have hlen : t.tok.length = v.tok.length := h.tok.length_eq
  have hnull : List.Forall₂ (Points m) (t.tok ++ [none]) (v.tok ++ [none]) := (h.push (.inl ⟨rfl, rfl⟩)).tok
  obtain ⟨hbg, hpip, hred, hpos, hpos'⟩ := h.rest
  simp only [Tokens.put, View.put, hc, Option.some.injEq, hlen]
  split_ifs
  · exact ⟨hnull, rfl, hpip, hred, hpos, hpos'⟩
  · exact ⟨hnull, hbg, rfl, hred, rfl, hpos'⟩
  · exact ⟨hnull, hbg, hpip, rfl, hpos, rfl⟩
  · exact h.push hp

/-- What is ahead of `strtok`: the words that it will find beyond the part `m` of the buffer that is
settled. -/
inductive Ahead : Lex → List UInt8 → List (List UInt8) → Prop
  | more {pre rest : List UInt8} : (∀ c ∈ rest, c ≠ 0) →
      Ahead ⟨buffer pre rest, some pre.length⟩ pre (words rest)
  | done {m : List UInt8} : Ahead ⟨m, none⟩ m []

theorem Ahead.settled (h : Ahead x m ws) : ∃ y, x.buf = m ++ y := by
  cases h with
  | more => exact ⟨_, rfl⟩
  | done => exact ⟨[], (List.append_nil _).symm⟩

theorem Points.find (hw : Word w) :
    Points (pre ++ (List.replicate n SP ++ (w ++ [0]))) (some (pre.length + n)) (some w) := by
  refine .inr ⟨_, _, [], rfl, rfl, ?_, fun c hc => (hw.2 c hc).2⟩
  have := drop_add (m := pre ++ (List.replicate n SP ++ (w ++ [0]))) (p := pre.length) List.drop_left
  rwa [List.length_replicate] at this

theorem cut_length : (pre ++ (List.replicate n SP ++ (w ++ [0]))).length = pre.length + n + w.length + 1 := by
  simp
  omega

theorem buffer_cut {t : List UInt8} :
    (buffer pre (List.replicate n SP ++ (w ++ SP :: t))).set (pre.length + n + w.length) 0 =
      buffer (pre ++ (List.replicate n SP ++ (w ++ [0]))) t := by
  have hlen : pre.length + n + w.length = (pre ++ (List.replicate n SP ++ w)).length := by
    simp only [List.length_append, List.length_replicate]
    omega
  have hsplit : buffer pre (List.replicate n SP ++ (w ++ SP :: t)) =
      (pre ++ (List.replicate n SP ++ w)) ++ SP :: (t ++ [0]) := by
    simp [buffer]
  rw [hlen, hsplit, List.set_append_right _ _ (Nat.le_refl _), Nat.sub_self, List.set_cons_zero]
  simp [buffer]

theorem strtok_nil (h : Ahead x m []) :
    ∃ x' y, strtok x none = (none, x') ∧ x'.buf = m ++ y ∧ Ahead x' x'.buf [] := by
  generalize hws : ([] : List (List UInt8)) = ws at h
  cases h with
  | done => exact ⟨_, [], rfl, (List.append_nil _).symm, .done⟩
  | @more pre rest hz =>
    obtain ⟨n, hn | ⟨w, hw, rfl⟩ | ⟨w, t, hw, rfl⟩⟩ := line_cases hz
    · exact ⟨_, _, strtok_none rfl hn, rfl, hws ▸ .done⟩
    · rw [words_spaces, words_single hw] at hws
      simp at hws
    · rw [words_spaces, words_cons hw] at hws
      simp at hws

theorem strtok_cons (h : Ahead x m (w :: ws)) :
    ∃ p x' y, strtok x none = (some p, x') ∧ Word w ∧ Ahead x' (m ++ y) ws ∧
      Points (m ++ y) (some p) (some w) := by
  generalize hws : w :: ws = ws' at h
  cases h with
  | done => simp at hws
  | @more pre rest hz =>
    obtain ⟨n, rfl | ⟨v, hw, rfl⟩ | ⟨v, t, hw, rfl⟩⟩ := line_cases hz
    · have := words_spaces (n := n) (l := [])
      rw [List.append_nil] at this
      simp [this, words_nil] at hws
    · rw [words_spaces, words_single hw, List.cons.injEq] at hws
      obtain ⟨rfl, rfl⟩ := hws
      refine ⟨_, _, _, strtok_find rfl hw (.inr rfl) (List.append_assoc _ _ _), hw, ?_, Points.find hw⟩
      rw [if_pos rfl, buffer, List.append_assoc (List.replicate n SP)]
      exact .done
    · rw [words_spaces, words_cons hw, List.cons.injEq] at hws
      obtain ⟨rfl, rfl⟩ := hws
      refine ⟨_, _, _, strtok_find (n := n) (t := t ++ [0]) rfl hw (.inl rfl) (by simp), hw, ?_, Points.find hw⟩
      rw [if_neg (by decide), buffer_cut, ← cut_length]
      exact .more fun c hc => hz c (by simp [hc])

theorem Word.head? (hw : Word w) {p : ℕ} (hp : Points m (some p) (some w)) : w.head? = some (m.getD p 0) := by
  obtain ⟨h, _⟩ | ⟨p', w', t, h, h', hdrop, -⟩ := hp
  · simp at h
  · obtain ⟨rfl, rfl⟩ : p = p' ∧ w = w' := by simpa using And.intro h h'
    obtain ⟨a, w, rfl⟩ := List.exists_cons_of_ne_nil hw.1
    rw [getD_of_drop (by simpa using hdrop)]
    rfl

theorem tokenize_view {fuel : ℕ}
    (hx : Ahead t.lex m ws) (ht : Shows m t v) (hfuel : ws.length < fuel) :
    (tokenize fuel t).view = (ws.foldl View.put v).close := by
  induction ws generalizing fuel t v m with
  | nil =>
    obtain ⟨fuel, rfl⟩ := Nat.exists_eq_add_one_of_ne_zero (by omega : fuel ≠ 0)
    obtain ⟨x', y, hnil, hbuf, -⟩ := strtok_nil hx
    have hpush := (ht.push (p := none) (w := none) (.inl ⟨rfl, rfl⟩)).extend (x := y)
    simp only [tokenize, hnil]
    refine Shows.view (v := v.close) ?_
    rw [hbuf]
    exact ⟨hpush.tok, hpush.rest⟩
  | cons w ws ih =>
    obtain ⟨fuel, rfl⟩ := Nat.exists_eq_add_one_of_ne_zero (by omega : fuel ≠ 0)
    obtain ⟨p, x', y, hcons, hw, hx', hp⟩ := strtok_cons hx
    have hhead : w.head? = some (x'.buf.getD p 0) := by
      obtain ⟨z, hz⟩ := hx'.settled
      rw [hz]
      exact hw.head? hp.extend
    have hput : Shows (m ++ y) ({ t with lex := x' }.put (x'.buf.getD p 0) p) (v.put w) :=
      Shows.put (t := { t with lex := x' }) ⟨ht.extend.tok, ht.rest⟩ hp hhead
    simp only [tokenize, hcons, List.foldl_cons]
    refine ih ?_ hput (by simpa using hfuel)
    have : ({ t with lex := x' }.put (x'.buf.getD p 0) p).lex = x' := by
      simp only [Tokens.put]
      split_ifs <;> rfl
    rwa [this]

theorem strtok_first : strtok ⟨m, none⟩ (some 0) = strtok ⟨m, some 0⟩ none := rfl

theorem words_length {line : List UInt8} : (words line).length ≤ line.length + 1 := by
  refine Nat.le_trans (List.length_filter_le _ _) ?_
  induction line with
  | nil => simp
  | cons c line ih =>
    rw [List.splitOnP_cons_eq_if_modifyHead]
    split_ifs
    · simpa using ih
    · simpa using Nat.le_succ_of_le ih

/-- The variables of `process_one_cmd` after its loop, for every command line. -/
theorem parse_view {line : List UInt8} (hline : ∀ c ∈ line, c ≠ 0) {pipPos redPos : ℕ} :
    (parse pipPos redPos (line ++ [0])).view = classify pipPos redPos (words line) := by
  have hx : Ahead ⟨buffer [] line, some ([] : List UInt8).length⟩ [] (words line) := .more hline
  change Ahead ⟨line ++ [0], some 0⟩ [] (words line) at hx
  have hlen : (words line).length ≤ line.length + 1 := words_length
  rw [parse, strtok_first]
  cases hws : words line with
  | nil =>
    rw [hws] at hx
    obtain ⟨x', y, hnil, -, hx'⟩ := strtok_nil hx
    rw [hnil]
    exact tokenize_view (v := ⟨[none], 0, 0, 0, pipPos, redPos⟩) hx'
      ⟨.cons (.inl ⟨rfl, rfl⟩) .nil, rfl, rfl, rfl, rfl, rfl⟩ (by simp)
  | cons w ws =>
    rw [hws] at hx hlen
    obtain ⟨p, x', y, hcons, -, hx', hp⟩ := strtok_cons hx
    rw [hcons]
    refine tokenize_view (v := ⟨[some w], 0, 0, 0, pipPos, redPos⟩) hx' ⟨.cons hp .nil, rfl, rfl, rfl, rfl, rfl⟩ ?_
    rw [List.length_cons] at hlen
    rw [List.length_append]
    simp
    omega

/-! ## The variables in terms of the words -/

/-- A word that the loop replaces by a null pointer. -/
def Special (w : List UInt8) : Prop := w.head? = some AMP ∨ w.head? = some BAR ∨ w.head? = some GT

instance (w : List UInt8) : Decidable (Special w) := inferInstanceAs (Decidable (_ ∨ _ ∨ _))

section

variable {v : View} {w : List UInt8} {ws : List (List UInt8)}

theorem put_tok : (v.put w).tok = v.tok ++ [if Special w then none else some w] := by
  simp only [View.put, Special]
  split_ifs <;> simp_all

theorem foldl_put_tok : (ws.foldl View.put v).tok = v.tok ++ ws.map fun w => if Special w then none else some w := by
  induction ws generalizing v with
  | nil => simp
  | cons w ws ih => rw [List.foldl_cons, ih, put_tok, List.map_cons, List.append_assoc, List.singleton_append]

theorem put_pip : (v.put w).pip = 2 ↔ v.pip = 2 ∨ w.head? = some BAR := by
  have hne : AMP ≠ BAR := by decide
  simp only [View.put]
  split_ifs <;> simp_all

theorem put_red : (v.put w).red = 3 ↔ v.red = 3 ∨ w.head? = some GT := by
  have hne : AMP ≠ GT := by decide
  have hne' : BAR ≠ GT := by decide
  simp only [View.put]
  split_ifs <;> simp_all

theorem foldl_put_pip : (ws.foldl View.put v).pip = 2 ↔ v.pip = 2 ∨ ∃ w ∈ ws, w.head? = some BAR := by
  induction ws generalizing v with
  | nil => simp
  | cons w ws ih => rw [List.foldl_cons, ih, put_pip, List.exists_mem_cons_iff, or_assoc]

theorem foldl_put_red : (ws.foldl View.put v).red = 3 ↔ v.red = 3 ∨ ∃ w ∈ ws, w.head? = some GT := by
  induction ws generalizing v with
  | nil => simp
  | cons w ws ih => rw [List.foldl_cons, ih, put_red, List.exists_mem_cons_iff, or_assoc]

theorem foldl_put_plain (h : ∀ w ∈ ws, ¬ Special w) :
    ws.foldl View.put v = { v with tok := v.tok ++ ws.map some } := by
  induction ws generalizing v with
  | nil => simp
  | cons w ws ih =>
    have hw : ¬ Special w := h w List.mem_cons_self
    have hput : v.put w = { v with tok := v.tok ++ [some w] } := by
      simp only [Special, not_or] at hw
      simp only [View.put, hw.1, hw.2.1, hw.2.2, if_false]
    rw [List.foldl_cons, hput, ih fun w' hw' => h w' (List.mem_cons_of_mem _ hw')]
    simp

variable {pipPos redPos : ℕ}

theorem classify_head : (classify pipPos redPos ws).tok.head? = some ws.head? := by
  simp [classify, View.close, foldl_put_tok]

theorem classify_pip : (classify pipPos redPos ws).pip = 2 ↔ ∃ w ∈ ws.tail, w.head? = some BAR := by
  simp [classify, View.close, foldl_put_pip]

theorem classify_red : (classify pipPos redPos ws).red = 3 ↔ ∃ w ∈ ws.tail, w.head? = some GT := by
  simp [classify, View.close, foldl_put_red]

/-- A line with one bar: the array holds both commands, with null pointers behind each. -/
theorem classify_pipe {a bar : List UInt8} {as bs : List (List UInt8)} (has : ∀ w ∈ as, ¬ Special w)
    (hbar : bar.head? = some BAR) (hbs : ∀ w ∈ bs, ¬ Special w) :
    classify pipPos redPos (a :: as ++ bar :: bs) =
      ⟨(a :: as).map some ++ none :: bs.map some ++ [none], 0, 2, 0, as.length + 2, redPos⟩ := by
  have hput : ∀ v : View, v.put bar = { v with pip := 2, pipPos := v.tok.length + 1, tok := v.tok ++ [none] } := by
    intro v
    simp only [View.put, hbar, Option.some.injEq, if_neg (by decide : ¬ BAR = AMP), if_true]
  rw [classify, List.cons_append, List.tail_cons, List.foldl_append, foldl_put_plain has, List.foldl_cons, hput,
    foldl_put_plain hbs]
  simp [View.close]

end

end Xv6.Xvsh
