import Xv6.Xvsh.Shell

/-!
# From the terminal to the array of words

`main` reads a line into `buf` and looks for its end with `strlen`; `process_one_cmd` counts spaces to
size the array `tok`, fills it with `strtok` and hands its entries to `strcmp`, `exec` and `open`.
-/

namespace Xv6.Xvsh

/-! ## The buffer of `main` -/

abbrev MAXLINE : ℕ := 256

/-- `strlen`, or `none` if it runs out of the buffer. -/
def strlen (buf : List UInt8) : Option ℕ := buf.findIdx? (· = 0)

/-- The loop of `main`: the strings that `process_one_cmd` is called with. An input of `none` is a `read`
that fails. An output of `none` is an access outside `buf`, and ends the run. -/
def main : List UInt8 → List (Option (List UInt8)) → List (Option Str)
  | _, [] => []
  | buf, input :: inputs =>
    let bytes := input.getD []
    let buf := bytes ++ buf.drop bytes.length
    if input = some [] then []
    else if bytes.length = 1 then main buf inputs
    else
      match strlen buf with
      | none => [none]
      | some 0 => [none]
      -- whatever `process_one_cmd` stores into the buffer, `memset` clears all of it
      | some (i + 1) => some (str (buf.set i 0) 0) :: main (List.replicate MAXLINE 0) inputs

section

variable {line rest : List UInt8}

theorem findIdx?_zero (hline : 0 ∉ line) : strlen (line ++ 0 :: rest) = some line.length := by
  have hnone : line.findIdx? (· = 0) = none := by
    rw [List.findIdx?_eq_none_iff]
    intro c hc
    simpa using fun h : c = 0 => hline (h ▸ hc)
  simp [strlen, List.findIdx?_append, hnone, List.findIdx?_cons]

theorem strlen_eq_some {buf : List UInt8} {n : ℕ} (h : strlen buf = some n) :
    ∃ line rest, buf = line ++ 0 :: rest ∧ line.length = n ∧ 0 ∉ line := by
  obtain ⟨hn, hz, hlt⟩ := List.findIdx?_eq_some_iff_getElem.mp h
  refine ⟨buf.take n, buf.drop (n + 1), ?_, by simp; omega, fun hmem => ?_⟩
  · have hz' : buf[n] = 0 := by simpa using hz
    rw [← hz', ← List.drop_eq_getElem_cons hn, List.take_append_drop]
  · obtain ⟨j, hj, hj'⟩ := List.getElem_of_mem hmem
    rw [List.length_take] at hj
    have := hlt j (by omega)
    rw [List.getElem_take] at hj'
    simp [hj'] at this

/-- The string at the start of a buffer, once the byte before its zero byte is overwritten. -/
theorem str_set {c : UInt8} (hline : 0 ∉ line) : str ((line ++ c :: rest).set line.length 0) 0 = line := by
  rw [List.set_append_right _ _ (Nat.le_refl _), Nat.sub_self, List.set_cons_zero, str, List.drop_zero,
    List.takeWhile_append_of_pos fun c hc => ?_]
  · simp
  · simpa using fun h : c = 0 => hline (h ▸ hc)

end

/-- A read that `main` handles: at least one character and the newline, and no zero byte. -/
structure Input (input : List UInt8) : Prop where
  two : 2 ≤ input.length
  fits : input.length ≤ MAXLINE
  newline : input.getLast? = some 0x0A
  nonzero : 0 ∉ input

section

variable {buf input : List UInt8} {inputs : List (List UInt8)}

theorem main_cons_good (hin : Input input) (hz : buf.drop input.length = 0 :: buf.drop (input.length + 1)) :
    main buf ((input :: inputs).map some) =
      some input.dropLast :: main (List.replicate MAXLINE 0) (inputs.map some) := by
  have htwo := hin.two
  obtain ⟨line, c, rfl⟩ := List.eq_nil_or_concat input |>.resolve_left fun h => by simp [h] at htwo
  have hlen : strlen (line.concat c ++ buf.drop (line.concat c).length) = some (line.length + 1) := by
    rw [hz, findIdx?_zero hin.nonzero, List.length_concat]
  have hline : 0 ∉ line := fun h => hin.nonzero (by simp [h])
  have hne : (line.concat c).length ≠ 1 := by omega
  rw [List.map_cons, main]
  simp only [Option.getD_some, hlen, if_neg hne]
  rw [if_neg (by simp), List.concat_eq_append, List.append_assoc, List.singleton_append, str_set hline,
    List.dropLast_concat]

/-- If there is no zero byte right behind the input, `process_one_cmd` does not get the line. -/
theorem main_cons_bad (hin : Input input) (hz : ∀ rest, buf.drop input.length ≠ 0 :: rest) :
    (main buf ((input :: inputs).map some)).head? ≠ some (some input.dropLast) := by
  have htwo := hin.two
  have hne : input.length ≠ 1 := by omega
  have hne' : input ≠ [] := by
    rintro rfl
    simp at htwo
  rw [List.map_cons, main]
  simp only [Option.getD_some, if_neg hne, Option.some.injEq, if_neg hne']
  split
  · simp
  · simp
  · rename_i i hlen
    obtain ⟨line, rest, heq, hn, hline⟩ := strlen_eq_some hlen
    obtain ⟨line, c, rfl⟩ := List.eq_nil_or_concat line |>.resolve_left fun h => by simp [h] at hn
    obtain rfl : i = line.length := by simpa using hn.symm
    have hcut : 0 ∉ line := fun h => hline (by simp [h])
    rw [heq, List.concat_eq_append, List.append_assoc, List.singleton_append, str_set hcut]
    simp only [List.head?_cons, ne_eq, Option.some.injEq]
    intro hdrop
    -- the string is as long as the line only if the zero byte stands right behind the input
    have hlength : (line.concat c).length = input.length := by
      rw [List.length_concat, hdrop, List.length_dropLast]
      omega
    exact hz rest (List.append_inj heq hlength.symm).2

/-- One iteration hands over its line just if a zero byte stands behind the input, inside `buf`. -/
theorem main_cons_iff (hin : Input input) (hbuf : buf.length = MAXLINE) :
    main buf ((input :: inputs).map some) = (input :: inputs).map (fun i => some i.dropLast) ↔
      (input.length < MAXLINE ∧ buf.getD input.length 0 = 0) ∧
        main (List.replicate MAXLINE 0) (inputs.map some) = inputs.map fun i => some i.dropLast := by
  by_cases hz : input.length < MAXLINE ∧ buf.getD input.length 0 = 0
  · obtain ⟨hlt, hzero⟩ := hz
    have hdrop : buf.drop input.length = 0 :: buf.drop (input.length + 1) := by
      have hlt' : input.length < buf.length := hbuf ▸ hlt
      rw [List.getD_eq_getElem?_getD, List.getElem?_eq_getElem hlt', Option.getD_some] at hzero
      rw [List.drop_eq_getElem_cons hlt', hzero]
    rw [main_cons_good hin hdrop, List.map_cons, List.cons.injEq]
    simp only [true_and, hlt, hzero, and_self]
  · refine iff_of_false (fun h => ?_) fun h => hz h.1
    refine main_cons_bad hin (fun rest hdrop => hz ⟨?_, getD_of_drop hdrop⟩) (congrArg List.head? h)
    by_contra hge
    rw [List.drop_eq_nil_of_le (by omega)] at hdrop
    simp at hdrop

/-- Every line after the first is read into a buffer of zeros. -/
theorem main_cleared_iff (hin : ∀ i ∈ inputs, Input i) :
    main (List.replicate MAXLINE 0) (inputs.map some) = inputs.map (fun i => some i.dropLast) ↔
      ∀ i ∈ inputs, i.length < MAXLINE := by
  induction inputs with
  | nil => simp [main]
  | cons i inputs ih =>
    rw [main_cons_iff (hin i List.mem_cons_self) List.length_replicate,
      ih fun j hj => hin j (List.mem_cons_of_mem _ hj), List.forall_mem_cons]
    have hzero : (List.replicate MAXLINE (0 : UInt8)).getD i.length 0 = 0 := by
      rw [List.getD_eq_getElem?_getD, List.getElem?_replicate]
      split_ifs <;> rfl
    rw [and_iff_left hzero]

end

/-- `process_one_cmd` gets the lines that were read, and nothing outside `buf` is accessed, just if every
line leaves room for a zero byte and the buffer happens to hold one behind the first line. -/
theorem main_hands_over_iff (buf : List UInt8) (hbuf : buf.length = MAXLINE) (inputs : List (List UInt8))
    (hin : ∀ i ∈ inputs, Input i) :
    main buf (inputs.map some) = inputs.map (fun i => some i.dropLast) ↔
      (∀ i ∈ inputs, i.length < MAXLINE) ∧ ∀ i ∈ inputs.head?, buf.getD i.length 0 = 0 := by
  cases inputs with
  | nil => simp [main]
  | cons i inputs =>
    have hrest : ∀ j ∈ inputs, Input j := fun j hj => hin j (List.mem_cons_of_mem _ hj)
    rw [main_cons_iff (hin i List.mem_cons_self) hbuf, main_cleared_iff hrest, List.forall_mem_cons]
    simp only [List.head?_cons, Option.mem_some_iff, forall_eq']
    tauto

theorem main_hands_over_iff_twice :
    main (List.replicate MAXLINE 0) [some [0x6C, 0x73, 0x0A], some [0x77, 0x0A]] =
      [some [0x6C, 0x73], some [0x77]] :=
  (main_hands_over_iff (List.replicate MAXLINE 0) List.length_replicate [[0x6C, 0x73, 0x0A], [0x77, 0x0A]]
    (by simp only [List.forall_mem_cons]
        exact ⟨⟨by decide, by decide, rfl, by decide⟩, ⟨by decide, by decide, rfl, by decide⟩, by simp⟩)).mpr
    ⟨by decide, by decide⟩

/-- A first line `ls` in a buffer that holds other bytes, and a line that fills the buffer. -/
theorem main_garbage_and_full :
    main ([0, 0, 0] ++ List.replicate 252 0x41 ++ [0]) [some [0x6C, 0x73, 0x0A]] =
        [some ([0x6C, 0x73, 0x0A] ++ List.replicate 251 0x41)] ∧
      main (List.replicate MAXLINE 0) [some (List.replicate 255 0x41 ++ [0x0A])] = [none] := by
  decide +kernel

/-! ## The array `tok` -/

/-- The loop of `process_one_cmd` that counts spaces; it stops at `buf[0]` without looking at it. -/
def countSpaces (m : List UInt8) : ℕ → ℕ → ℕ
  | 0, n => n
  | i + 1, n => countSpaces m i (if m.getD (i + 1) 0 = SP then n + 1 else n)

/-- `num_tok`, with `i = strlen(buf) - 1` at the start. -/
def numTok (m : List UInt8) : ℕ := countSpaces m ((strlen m).getD 0 - 1) 1

/-- The variables when the loop over the words starts. -/
def start (pipPos redPos : ℕ) (buf : List UInt8) : Tokens :=
  let r := strtok ⟨buf, none⟩ (some 0)
  ⟨r.2, [r.1], 0, 0, 0, pipPos, redPos⟩

/-- A maximal run of characters other than spaces, which starts at `p`. -/
def Run (line : List UInt8) (p : ℕ) (w : List UInt8) : Prop :=
  ∃ a b, line = a ++ (w ++ b) ∧ a.length = p ∧ Word w ∧ (∀ c ∈ a.getLast?, c = SP) ∧ ∀ c ∈ b.head?, c = SP

/-- The entry for a word in any place but the first. -/
def entry (p : ℕ) (w : List UInt8) : Option ℕ := if Special w then none else some p

def entries (ps : List ℕ) (ws : List (List UInt8)) : List (Option ℕ) :=
  (ps.take 1).map some ++ List.zipWith entry ps.tail ws.tail

section

variable {line m : List UInt8} {x : Lex} {ws : List (List UInt8)} {w : List UInt8}

theorem countSpaces_eq {i n : ℕ} (hi : i < m.length) : countSpaces m i n = n + ((m.take (i + 1)).tail).count SP := by
  induction i generalizing n with
  | zero => cases m <;> simp [countSpaces]
  | succ i ih =>
    have hne : m.take (i + 1) ≠ [] := List.ne_nil_of_length_pos (by rw [List.length_take]; omega)
    rw [countSpaces, ih (by omega), List.take_succ_eq_append_getElem hi, List.tail_append_of_ne_nil hne,
      List.count_append, List.count_singleton, List.getD_eq_getElem?_getD, List.getElem?_eq_getElem hi,
      Option.getD_some]
    by_cases hsp : m[i + 1] = SP <;> (simp [hsp]; try omega)

theorem words_length_le : (words line).length ≤ 1 + line.count SP := by
  refine Nat.le_trans (List.length_filter_le _ _) ?_
  induction line with
  | nil => simp
  | cons c line ih =>
    rw [List.splitOnP_cons_eq_if_modifyHead, List.count_cons]
    split_ifs with hc <;> simp <;> omega

/-- A space in the first place separates nothing. -/
theorem words_length_le_numTok (hline : 0 ∉ line) (hne : line ≠ []) :
    (words line).length ≤ numTok (line ++ [0]) := by
  obtain ⟨c, l, rfl⟩ := List.exists_cons_of_ne_nil hne
  have hnum : numTok (c :: l ++ [0]) = 1 + l.count SP := by
    rw [numTok, findIdx?_zero hline, Option.getD_some, countSpaces_eq (by simp only [List.length_append, List.length_cons, List.length_nil]; omega)]
    simp
  rw [hnum]
  by_cases hc : c = SP
  · rw [hc, words_space]
    exact words_length_le
  · have : (words (c :: l)).length ≤ 1 + (c :: l).count SP := words_length_le
    rwa [List.count_cons_of_ne hc] at this

/-- What is ahead of `strtok`, as `Ahead`, where the part of `line` that is dealt with ends in a space. -/
inductive Rest (line : List UInt8) : Lex → List UInt8 → List (List UInt8) → Prop
  | more {a pre rest : List UInt8} : line = a ++ rest → a.length = pre.length → (∀ c ∈ a.getLast?, c = SP) →
      (∀ c ∈ rest, c ≠ 0) → Rest line ⟨buffer pre rest, some pre.length⟩ pre (words rest)
  | done {m : List UInt8} : Rest line ⟨m, none⟩ m []

theorem Rest.ahead (h : Rest line x m ws) : Ahead x m ws := by
  cases h with
  | more _ _ _ hz => exact .more hz
  | done => exact .done

theorem getLast?_spaces {a : List UInt8} (n : ℕ) (ha : ∀ c ∈ a.getLast?, c = SP) :
    ∀ c ∈ (a ++ List.replicate n SP).getLast?, c = SP := by
  cases n with
  | zero => simpa using ha
  | succ n =>
    rw [List.replicate_succ', ← List.append_assoc, List.getLast?_concat]
    simp

/-- `strtok` finds the next run. -/
theorem strtok_run (h : Rest line x m (w :: ws)) :
    ∃ p x' y, strtok x none = (some p, x') ∧ Rest line x' (m ++ y) ws ∧ Run line p w ∧
      m.length ≤ p ∧ p < (m ++ y).length ∧ Points (m ++ y) (some p) (some w) := by
  generalize hws : w :: ws = ws' at h
  cases h with
  | done => simp at hws
  | @more a pre rest hline hlen hlast hz =>
    obtain ⟨n, rfl | ⟨v, hw, rfl⟩ | ⟨v, t, hw, rfl⟩⟩ := line_cases hz
    · have := words_spaces (n := n) (l := [])
      rw [List.append_nil] at this
      simp [this, words_nil] at hws
    · rw [words_spaces, words_single hw, List.cons.injEq] at hws
      obtain ⟨rfl, rfl⟩ := hws
      refine ⟨_, _, _, strtok_find rfl hw (.inr rfl) (List.append_assoc _ _ _), ?_, ?_, Nat.le_add_right _ _, ?_,
        Points.find hw⟩
      · rw [if_pos rfl, buffer, List.append_assoc (List.replicate n SP)]
        exact .done
      · exact ⟨a ++ List.replicate n SP, [], by simp [hline], by simp [hlen], hw, getLast?_spaces n hlast, by simp⟩
      · rw [cut_length]
        omega
    · rw [words_spaces, words_cons hw, List.cons.injEq] at hws
      obtain ⟨rfl, rfl⟩ := hws
      refine ⟨_, _, _, strtok_find (n := n) (t := t ++ [0]) rfl hw (.inl rfl) (by simp), ?_, ?_,
        Nat.le_add_right _ _, ?_, Points.find hw⟩
      · rw [if_neg (by decide), buffer_cut, ← cut_length]
        refine .more (a := a ++ (List.replicate n SP ++ (w ++ [SP]))) (by simp [hline]) ?_ ?_
          fun c hc => hz c (by simp [hc])
        · simp [hlen]
        · simp [← List.append_assoc]
      · exact ⟨a ++ List.replicate n SP, SP :: t, by simp [hline], by simp [hlen], hw, getLast?_spaces n hlast,
          by simp⟩
      · rw [cut_length]
        omega

theorem put_eq {t : Tokens} {p : ℕ} {c : UInt8} (hw : w.head? = some c) :
    (t.put c p).tok = t.tok ++ [entry p w] ∧ (t.put c p).lex = t.lex := by
  simp only [Tokens.put, entry, Special, hw, Option.some.injEq]
  split_ifs <;> simp_all

/-- The loop finds the runs one after the other, and stops. -/
theorem tokenize_runs {t : Tokens} (hx : Rest line t.lex m ws) :
    ∃ t' ps y, (∀ fuel, ws.length < fuel → tokenize fuel t = t') ∧ t'.lex.buf = m ++ y ∧
      t'.tok = t.tok ++ List.zipWith entry ps ws ++ [none] ∧ ps.Pairwise (· < ·) ∧ (∀ p ∈ ps, m.length ≤ p) ∧
      List.Forall₂ (fun p w => Run line p w ∧ Points t'.lex.buf (some p) (some w)) ps ws := by
  induction ws generalizing t m with
  | nil =>
    obtain ⟨x', y, hnil, hbuf, -⟩ := strtok_nil hx.ahead
    refine ⟨{ t with lex := x', tok := t.tok ++ [none] }, [], y, fun fuel hfuel => ?_, hbuf, by simp, .nil, by simp,
      .nil⟩
    obtain ⟨fuel, rfl⟩ := Nat.exists_eq_add_one_of_ne_zero (by omega : fuel ≠ 0)
    simp only [tokenize, hnil]
  | cons w ws ih =>
    obtain ⟨p, x', y, hcons, hx', hrun, hle, hlt, hp⟩ := strtok_run hx
    have hhead : w.head? = some (x'.buf.getD p 0) := by
      obtain ⟨z, hz⟩ := hx'.ahead.settled
      obtain ⟨-, -, -, -, hw, -, -⟩ := hrun
      rw [hz]
      exact hw.head? hp.extend
    obtain ⟨htok, hlex⟩ := put_eq (t := { t with lex := x' }) (p := p) hhead
    replace hx' : Rest line ({ t with lex := x' }.put (x'.buf.getD p 0) p).lex (m ++ y) ws := by rwa [hlex]
    obtain ⟨t', ps, z, hend, hbuf, htok', hsorted, hps, hall⟩ := ih hx'
    have hthere : Points t'.lex.buf (some p) (some w) := hbuf ▸ hp.extend
    refine ⟨t', p :: ps, y ++ z, fun fuel hfuel => ?_, by rw [hbuf, List.append_assoc], ?_,
      List.pairwise_cons.mpr ⟨fun q hq => by have := hps q hq; omega, hsorted⟩, fun q hq => ?_, .cons ⟨hrun, hthere⟩ hall⟩
    · obtain ⟨fuel, rfl⟩ := Nat.exists_eq_add_one_of_ne_zero (by omega : fuel ≠ 0)
      simp only [tokenize, hcons]
      exact hend fuel (by simpa using hfuel)
    · rw [htok', htok]
      simp
    · rcases List.mem_cons.mp hq with rfl | hq
      · exact hle
      · have := hps q hq
        rw [List.length_append] at this
        omega

end

theorem words_ne_nil_of_char {line : List UInt8} (hline : ∀ c ∈ line, c ≠ 0) (hword : ∃ c ∈ line, c ≠ SP) : words line ≠ [] := by
  obtain ⟨c, hc, hsp⟩ := hword
  obtain ⟨n, rfl | ⟨w, hw, rfl⟩ | ⟨w, t, hw, rfl⟩⟩ := line_cases hline
  · exact absurd (List.eq_of_mem_replicate hc) hsp
  · simp [words_spaces, words_single hw]
  · simp [words_spaces, words_cons hw]

/-- The array `tok` after the loop of `process_one_cmd`: a pointer to each maximal run of characters other
than spaces, which is cut off by a zero byte, or null for a special word, and a null pointer at the end;
it has the room that was allocated for it. -/
theorem parse_runs (line : List UInt8) (hline : ∀ c ∈ line, c ≠ 0) (hword : ∃ c ∈ line, c ≠ SP)
    (pipPos redPos : ℕ) :
    (∀ fuel, (words line).length ≤ fuel →
      tokenize fuel (start pipPos redPos (line ++ [0])) = parse pipPos redPos (line ++ [0])) ∧
    (parse pipPos redPos (line ++ [0])).tok.length ≤ numTok (line ++ [0]) + 1 ∧
    ∃ ps : List ℕ, ps.Pairwise (· < ·) ∧
      List.Forall₂ (fun p w => Run line p w ∧
        Points (parse pipPos redPos (line ++ [0])).lex.buf (some p) (some w)) ps (words line) ∧
      (parse pipPos redPos (line ++ [0])).tok = entries ps (words line) ++ [none] := by
  have hzero : 0 ∉ line := fun h => hline 0 h rfl
  have hne : line ≠ [] := by
    rintro rfl
    simp at hword
  have hnum := words_length_le_numTok hzero hne
  have hlen : (words line).length ≤ line.length + 1 := words_length
  have hx : Rest line ⟨buffer [] line, some ([] : List UInt8).length⟩ [] (words line) :=
    .more (a := []) rfl rfl (by simp) hline
  obtain ⟨w, ws, hws⟩ := List.exists_cons_of_ne_nil (words_ne_nil_of_char hline hword)
  rw [hws] at hx hnum hlen ⊢
  -- the first word is found by the call before the loop
  obtain ⟨p, x', y, hcons, hx', hrun, -, hlt, hp⟩ := strtok_run hx
  change strtok ⟨line ++ [0], none⟩ (some 0) = (some p, x') at hcons
  have hstart : start pipPos redPos (line ++ [0]) = ⟨x', [some p], 0, 0, 0, pipPos, redPos⟩ := by
    rw [start, hcons]
  obtain ⟨t', ps, z, hend, hbuf, htok, hsorted, hps, hall⟩ :=
    tokenize_runs (t := ⟨x', [some p], 0, 0, 0, pipPos, redPos⟩) hx'
  have hparse : parse pipPos redPos (line ++ [0]) = t' := by
    change tokenize _ (start pipPos redPos (line ++ [0])) = t'
    rw [hstart]
    exact hend _ (by rw [List.length_append]; simp at hlen ⊢; omega)
  have hlength : ps.length = ws.length := hall.length_eq
  rw [hparse, hstart]
  refine ⟨fun fuel hfuel => hend fuel hfuel, ?_, p :: ps, ?_, ?_, ?_⟩
  · rw [htok]
    simp [hlength]
    simp at hnum
    omega
  · refine List.pairwise_cons.mpr ⟨fun q hq => ?_, hsorted⟩
    have := hps q hq
    omega
  · exact .cons ⟨hrun, hbuf ▸ hp.extend⟩ hall
  · rw [htok]
    rfl

theorem parse_runs_spaces :
    ∃ ps, List.Forall₂ (fun p w => Run [SP, 0x61, SP, SP, BAR, SP] p w ∧
        Points (parse 0 0 [SP, 0x61, SP, SP, BAR, SP, 0]).lex.buf (some p) (some w)) ps [[0x61], [BAR]] ∧
      (parse 0 0 [SP, 0x61, SP, SP, BAR, SP, 0]).tok = entries ps [[0x61], [BAR]] ++ [none] :=
  have ⟨ps, _, hall, htok⟩ := (parse_runs [SP, 0x61, SP, SP, BAR, SP] (by simp [SP, BAR]) ⟨0x61, by simp, by decide⟩ 0 0).2.2
  have hwords : words [SP, 0x61, SP, SP, BAR, SP] = [[0x61], [BAR]] := by decide
  ⟨ps, hwords ▸ hall, hwords ▸ htok⟩

/-! ## The entries that are used -/

/-- The entries of `tok` that go to `strcmp`, then to `exec` as the path and to `open`, in
`process_one_cmd` and the processes it forks. -/
def passed (text : Str) (v : View) : List (Option Str) :=
  v.tok.getD 0 none ::
    if exitCheck text v.tok then []
    else if v.pip = 2 then [v.tok.getD 0 none, v.tok.getD v.pipPos none]
    else if v.red = 3 then [v.tok.getD v.redPos none, v.tok.getD 0 none]
    else [v.tok.getD 0 none]

/-- Some way through the code calls `exec` or `open` with the path `s`. -/
def Code.Uses (s : Str) : Code → Prop
  | .malloc k => ∃ r, (k r).Uses s
  | .pipe k => ∃ r, (k r).Uses s
  | .fork k => ∃ r, (k r).Uses s
  | .exec path _ k => s = path ∨ k.Uses s
  | .openFile path k => s = path ∨ k.Uses s
  | .close _ k => k.Uses s
  | .dup _ k => k.Uses s
  | .print k => k.Uses s
  | .wait k => k.Uses s
  | _ => False

/-- The paths in the code of `process_one_cmd` are the strings of the entries `passed`, after the first
one, which `strcmp` gets. -/
theorem uses_processTokens {s text : Str} {v : View} :
    (processTokens text v).Uses s ↔ ∃ t ∈ (passed text v).tail, s = t.getD text := by
  have hfork : ∀ P : Forked → Prop, (∃ r, P r) ↔ P .failed ∨ P .child ∨ P .parent := by
    intro P
    constructor
    · rintro ⟨r, h⟩
      cases r <;> simp [h]
    · rintro (h | h | h) <;> exact ⟨_, h⟩
  simp only [processTokens, passed, List.tail_cons]
  split_ifs with hexit hpip hred
  · simp [Code.Uses]
  · simp [processPipe, hfork, Code.Uses, Option.exists, Xvsh.path]
  · simp [processRedirect, hfork, Code.Uses, Xvsh.path]
  · by_cases hbg : v.bg = 0 <;> simp [processNormal, hfork, Code.Uses, Xvsh.path, hbg]

/-- The word behind the last one that starts with `c`. -/
def operand (c : UInt8) (ws : List (List UInt8)) : Option (List UInt8) :=
  (ws.reverse.takeWhile (·.head? ≠ some c)).getLast?

/-- The words of a line in which no word that is needed is missing: there is a first one, and unless it
says `exit`, the last bar has an operand, or without a bar the last `>`. -/
def HasOperands : List (List UInt8) → Prop
  | [] => False
  | w :: ws => w = [0x65, 0x78, 0x69, 0x74] ∨
    if ∃ b ∈ ws, b.head? = some BAR then ∃ o ∈ operand BAR ws, ¬ Special o
    else if ∃ g ∈ ws, g.head? = some GT then ∃ o ∈ operand GT ws, ¬ Special o
    else True

section

variable {c : UInt8} {ws : List (List UInt8)} {v : View} {as bs : List (List UInt8)}

theorem exists_last (h : ∃ w ∈ ws, w.head? = some c) :
    ∃ as w bs, ws = as ++ w :: bs ∧ w.head? = some c ∧ ∀ b ∈ bs, b.head? ≠ some c := by
  induction ws with
  | nil => simp at h
  | cons x ws ih =>
    by_cases hrest : ∃ w ∈ ws, w.head? = some c
    · obtain ⟨as, w, bs, rfl, hw, hbs⟩ := ih hrest
      exact ⟨x :: as, w, bs, rfl, hw, hbs⟩
    · obtain ⟨w, hw, hc⟩ := h
      rcases List.mem_cons.mp hw with rfl | hw
      · exact ⟨[], w, ws, rfl, hc, fun b hb heq => hrest ⟨b, hb, heq⟩⟩
      · exact absurd ⟨w, hw, hc⟩ hrest

theorem operand_eq {w : List UInt8} (hw : w.head? = some c)
    (hbs : ∀ b ∈ bs, b.head? ≠ some c) : operand c (as ++ w :: bs) = bs.head? := by
  rw [operand, List.reverse_append, List.reverse_cons, List.append_assoc, List.takeWhile_append_of_pos]
  · simp [hw]
  · simpa using hbs

/-- Words that do not start with a bar leave `pip_pos` as it is. -/
theorem foldl_put_pipPos (h : ∀ w ∈ ws, w.head? ≠ some BAR) : (ws.foldl View.put v).pipPos = v.pipPos := by
  induction ws generalizing v with
  | nil => rfl
  | cons w ws ih =>
    have hw := h w List.mem_cons_self
    rw [List.foldl_cons, ih fun x hx => h x (List.mem_cons_of_mem _ hx)]
    simp only [View.put, hw, if_false]
    split_ifs <;> rfl

theorem foldl_put_redPos (h : ∀ w ∈ ws, w.head? ≠ some GT) : (ws.foldl View.put v).redPos = v.redPos := by
  induction ws generalizing v with
  | nil => rfl
  | cons w ws ih =>
    have hw := h w List.mem_cons_self
    rw [List.foldl_cons, ih fun x hx => h x (List.mem_cons_of_mem _ hx)]
    simp only [View.put, hw, if_false]
    split_ifs <;> rfl

theorem foldl_put_bar {w : List UInt8} (hw : w.head? = some BAR)
    (hbs : ∀ b ∈ bs, b.head? ≠ some BAR) :
    ((as ++ w :: bs).foldl View.put v).pipPos = v.tok.length + as.length + 1 := by
  rw [List.foldl_append, List.foldl_cons, foldl_put_pipPos hbs]
  simp only [View.put, hw, Option.some.injEq, if_neg (by decide : ¬ BAR = AMP), if_true, foldl_put_tok]
  simp

theorem foldl_put_gt {w : List UInt8} (hw : w.head? = some GT)
    (hbs : ∀ b ∈ bs, b.head? ≠ some GT) :
    ((as ++ w :: bs).foldl View.put v).redPos = v.tok.length + as.length + 1 := by
  rw [List.foldl_append, List.foldl_cons, foldl_put_redPos hbs]
  simp only [View.put, hw, Option.some.injEq, if_neg (by decide : ¬ GT = AMP), if_neg (by decide : ¬ GT = BAR),
    if_true, foldl_put_tok]
  simp

variable {pipPos redPos : ℕ} {w : List UInt8}

theorem classify_tok :
    (classify pipPos redPos (w :: ws)).tok =
      some w :: (ws.map (fun w => if Special w then none else some w) ++ [none]) := by
  simp [classify, View.close, foldl_put_tok]

/-- The entry behind the last word that starts with `c` is there just if the operand is and stays a word. -/
theorem classify_operand {x : List UInt8} (hx : x.head? = some c)
    (hbs : ∀ b ∈ bs, b.head? ≠ some c) :
    (classify pipPos redPos (w :: (as ++ x :: bs))).tok.getD (as.length + 2) none ≠ none ↔
      ∃ o ∈ operand c (as ++ x :: bs), ¬ Special o := by
  rw [operand_eq hx hbs, classify_tok]
  cases bs with
  | nil => simp
  | cons b bs => by_cases hb : Special b <;> simp [hb]

theorem classify_bar (h : ∃ b ∈ ws, b.head? = some BAR) :
    (classify pipPos redPos (w :: ws)).tok.getD (classify pipPos redPos (w :: ws)).pipPos none ≠ none ↔
      ∃ o ∈ operand BAR ws, ¬ Special o := by
  obtain ⟨as, x, bs, rfl, hx, hbs⟩ := exists_last h
  have hpos : (classify pipPos redPos (w :: (as ++ x :: bs))).pipPos = as.length + 2 := by
    rw [classify, View.close, List.tail_cons, foldl_put_bar hx hbs]
    simp
    omega
  rw [hpos]
  exact classify_operand hx hbs

theorem classify_gt (h : ∃ b ∈ ws, b.head? = some GT) :
    (classify pipPos redPos (w :: ws)).tok.getD (classify pipPos redPos (w :: ws)).redPos none ≠ none ↔
      ∃ o ∈ operand GT ws, ¬ Special o := by
  obtain ⟨as, x, bs, rfl, hx, hbs⟩ := exists_last h
  have hpos : (classify pipPos redPos (w :: (as ++ x :: bs))).redPos = as.length + 2 := by
    rw [classify, View.close, List.tail_cons, foldl_put_gt hx hbs]
    simp
    omega
  rw [hpos]
  exact classify_operand hx hbs

theorem passed_classify {text : Str} :
    (∀ t ∈ passed text (classify pipPos redPos ws), t ≠ none) ↔ HasOperands ws := by
  cases ws with
  | nil => simp [passed, HasOperands, classify, View.close]
  | cons w ws =>
    have hfirst : (classify pipPos redPos (w :: ws)).tok.getD 0 none = some w := by
      rw [classify_tok]
      rfl
    have hexit : exitCheck text (classify pipPos redPos (w :: ws)).tok = true ↔ w = [0x65, 0x78, 0x69, 0x74] := by
      rw [exitCheck, decide_eq_true_iff, path, hfirst, Option.getD_some]
    have hpip : (classify pipPos redPos (w :: ws)).pip = 2 ↔ ∃ b ∈ ws, b.head? = some BAR := classify_pip
    have hred : (classify pipPos redPos (w :: ws)).red = 3 ↔ ∃ g ∈ ws, g.head? = some GT := classify_red
    simp only [passed, hfirst, HasOperands]
    by_cases hw : w = [0x65, 0x78, 0x69, 0x74]
    · rw [if_pos (hexit.mpr hw)]
      simp [hw]
    · rw [if_neg fun h => hw (hexit.mp h), or_iff_right hw]
      by_cases hbar : ∃ b ∈ ws, b.head? = some BAR
      · rw [if_pos (hpip.mpr hbar), if_pos hbar, ← @classify_bar ws pipPos redPos w hbar]
        simp
      · rw [if_neg fun h => hbar (hpip.mp h), if_neg hbar]
        by_cases hgt : ∃ g ∈ ws, g.head? = some GT
        · rw [if_pos (hred.mpr hgt), if_pos hgt, ← @classify_gt ws pipPos redPos w hgt]
          simp
        · rw [if_neg fun h => hgt (hred.mp h), if_neg hgt]
          simp

end

/-- No null pointer is passed just if the line is complete. -/
theorem passed_parse_iff (text : Str) (pipPos redPos : ℕ) (line : List UInt8) (hline : ∀ c ∈ line, c ≠ 0) :
    (∀ t ∈ passed text (parse pipPos redPos (line ++ [0])).view, t ≠ none) ↔ HasOperands (words line) := by
  rw [parse_view hline, passed_classify]

theorem passed_parse_iff_redirect :
    (passed [] (parse 0 0 [0x61, SP, GT, SP, 0x62, 0]).view).all Option.isSome = true := by
  have hwords : words [0x61, SP, GT, SP, 0x62] = [[0x61], [GT], [0x62]] := by decide
  have hops : HasOperands (words [0x61, SP, GT, SP, 0x62]) := by
    rw [hwords]
    refine .inr ?_
    rw [if_neg (by decide), if_pos (by decide)]
    exact ⟨[0x62], by decide, by decide⟩
  have hall := (passed_parse_iff [] 0 0 [0x61, SP, GT, SP, 0x62] (by simp [SP, GT])).mpr hops
  exact List.all_eq_true.mpr fun t ht => Option.isSome_iff_ne_none.mpr (hall t ht)

/-- A line of one space, a line that ends in a bar and one that ends in `>`, and what is passed. -/
theorem passed_missing :
    passed [] (parse 0 0 [SP, 0]).view = [none, none] ∧
      passed [] (parse 0 0 [0x61, SP, BAR, 0]).view = [some [0x61], some [0x61], none] ∧
      passed [] (parse 0 0 [0x61, SP, GT, 0]).view = [some [0x61], none, some [0x61]] := by
  decide

end Xv6.Xvsh
