import Xv6.Grep.Matcher

/-!
# The lines of `grep`

`grep` reads its input in pieces of any size into a buffer, prints the lines that match, and keeps what
is behind the last newline for the next round. It forgets what it has read if there is no newline at all.
-/

namespace Xv6.Grep

abbrev NL : UInt8 := 10

/-- `sizeof(buf)`. -/
abbrev BUF : ℕ := 1024

/-- `strchr`: where the character is, if it comes before the NUL. -/
def strchr : List UInt8 → UInt8 → Option ℕ
  | [], _ => none
  | x :: s, c => if x = 0 then none else if x = c then some 0 else (strchr s c).map (· + 1)

/-- The string that begins here. -/
def string (s : List UInt8) : List UInt8 := s.takeWhile (· ≠ 0)

/-- The inner loop of `grep`; what is printed is added to `out`. -/
def scan (pattern : List UInt8) : ℕ → List UInt8 → ℕ → List UInt8 → Option (List UInt8 × ℕ × List UInt8)
  | 0, _, _, _ => none
  | fuel + 1, buf, p, out =>
    match strchr (buf.drop p) NL with
    | none => some (buf, p, out)
    | some k =>
      let q := p + k
      let buf := buf.set q 0
      if matchRe pattern (string (buf.drop p)) then
        let buf := buf.set q NL
        scan pattern fuel buf (q + 1) (out ++ (buf.drop p).take (q + 1 - p))
      else scan pattern fuel buf (q + 1) out

/-- `memmove(buf, p, m)`. The bytes move down, so the user library's function will do. -/
def moveDown (buf : List UInt8) (p m : ℕ) : List UInt8 := (buf.drop p).take m ++ buf.drop m

/-- The outer loop, for the pieces that `read` returns. -/
def grepFrom (pattern : List UInt8) : List (List UInt8) → List UInt8 → ℕ → List UInt8 → Option (List UInt8)
  | [], _, _, out => some out
  | chunk :: chunks, buf, m, out => do
    let buf := buf.take m ++ chunk ++ buf.drop (m + chunk.length)
    let m := m + chunk.length
    let buf := buf.set m 0
    let (buf, p, out) ← scan pattern BUF buf 0 out
    let m := if p = 0 then 0 else m
    if m > 0 then grepFrom pattern chunks (moveDown buf p (m - p)) (m - p) out
    else grepFrom pattern chunks buf m out

/-- What `grep` prints. -/
def grep (pattern : List UInt8) (chunks : List (List UInt8)) : Option (List UInt8) :=
  grepFrom pattern chunks (List.replicate BUF 0) 0 []

/-- Pieces that `read` may return: each has at least one byte, and no more than `grep` asks for when it
has kept `m` bytes. -/
inductive Reads : ℕ → List (List UInt8) → Prop where
  | done {m : ℕ} : Reads m []
  /-- what is behind the last newline is kept -/
  | lines {m : ℕ} {u tail : List UInt8} {chunks : List (List UInt8)}
      (hlen : (u ++ NL :: tail).length ≤ BUF - m - 1) (htail : NL ∉ tail) (hrest : Reads tail.length chunks) :
      Reads m ((u ++ NL :: tail) :: chunks)
  /-- without a newline nothing is kept -/
  | part {m : ℕ} {chunk : List UInt8} {chunks : List (List UInt8)} (hpos : chunk ≠ [])
      (hlen : chunk.length ≤ BUF - m - 1) (hchunk : NL ∉ chunk) (hrest : Reads 0 chunks) : Reads m (chunk :: chunks)

/-- A text of lines. -/
def text (lines : List (List UInt8)) : List UInt8 := lines.flatMap (· ++ [NL])

/-- The lines that match, each with its newline. -/
def selected (pattern : List UInt8) (lines : List (List UInt8)) : List UInt8 :=
  text (lines.filter fun l => matchRe pattern l)

/-! ## Lines -/

section

variable {pattern s l tail junk out u v x : List UInt8} {lines lines' : List (List UInt8)} {p : ℕ}

@[simp] theorem text_nil : text [] = [] := rfl

@[simp] theorem text_cons : text (l :: lines) = l ++ NL :: text lines := by simp [text]

@[simp] theorem text_append : text (lines ++ lines') = text lines ++ text lines' := by simp [text]

theorem mem_text {c : UInt8} (hl : l ∈ lines) (hc : c ∈ l) : c ∈ text lines :=
  List.mem_flatMap.mpr ⟨l, hl, List.mem_append_left _ hc⟩

/-- A text that ends with a newline consists of lines. -/
theorem exists_lines (u : List UInt8) : ∃ lines, u ++ [NL] = text lines ∧ ∀ l ∈ lines, NL ∉ l := by
  induction u with
  | nil => exact ⟨[[]], rfl, by simp⟩
  | cons c u ih =>
    obtain ⟨lines, hu, hlines⟩ := ih
    by_cases hc : c = NL
    · refine ⟨[] :: lines, by rw [List.cons_append, hu, hc]; rfl, ?_⟩
      exact List.forall_mem_cons.mpr ⟨List.not_mem_nil, hlines⟩
    · cases lines with
      | nil => simp at hu
      | cons l lines =>
        refine ⟨(c :: l) :: lines, by rw [List.cons_append, hu]; simp, ?_⟩
        obtain ⟨hl, hlines⟩ := List.forall_mem_cons.mp hlines
        exact List.forall_mem_cons.mpr ⟨List.not_mem_cons_of_ne_of_not_mem (Ne.symm hc) hl, hlines⟩

/-- Lines are where they are: a text that begins with some lines goes on with the others. -/
theorem lines_append (hlines : ∀ l ∈ lines, NL ∉ l) (hlines' : ∀ l ∈ lines', NL ∉ l)
    (heq : text lines = text lines' ++ x) : ∃ rest, lines = lines' ++ rest ∧ x = text rest := by
  induction lines' generalizing lines with
  | nil => exact ⟨lines, rfl, heq.symm⟩
  | cons l' lines' ih =>
    cases lines with
    | nil => simp at heq
    | cons l lines =>
      obtain ⟨hl, hlines⟩ := List.forall_mem_cons.mp hlines
      obtain ⟨hl', hrest'⟩ := List.forall_mem_cons.mp hlines'
      rw [text_cons, text_cons, List.append_assoc, List.cons_append] at heq
      obtain ⟨rfl, hrest⟩ : l = l' ∧ text lines = text lines' ++ x := by
        rcases List.append_eq_append_iff.mp heq with ⟨a, rfl, ha⟩ | ⟨a, rfl, ha⟩
        · cases a with
          | nil => simpa using ha
          | cons c a => simp_all
        · cases a with
          | nil => simpa using ha.symm
          | cons c a => simp_all
      obtain ⟨rest, rfl, hx⟩ := ih hlines hrest' hrest
      exact ⟨rest, rfl, hx⟩

/-! ## One round -/

theorem strchr_append (hnl : NL ∉ l) (hnul : 0 ∉ l) : strchr (l ++ s) NL = (strchr s NL).map (· + l.length) := by
  induction l with
  | nil => simp
  | cons c l ih =>
    rw [List.mem_cons, not_or] at hnl hnul
    rw [List.cons_append, strchr, if_neg (Ne.symm hnul.1), if_neg (Ne.symm hnl.1), ih hnl.2 hnul.2]
    simp [Option.map_map, Function.comp_def, Nat.add_assoc]

theorem string_append (hnul : 0 ∉ l) : string (l ++ 0 :: s) = l := by
  have hall : ∀ c ∈ l, decide (c ≠ 0) = true := fun c hc => decide_eq_true fun h => hnul (h ▸ hc)
  rw [string, List.takeWhile_append_of_pos hall]
  simp

theorem selected_cons : selected pattern (l :: lines)
    = (if matchRe pattern l then l ++ [NL] else []) ++ selected pattern lines := by
  unfold selected
  by_cases h : matchRe pattern l <;> simp [h]

/-- The inner loop prints the lines that match. It leaves alone what is behind the last newline. -/
theorem scan_eq {fuel : ℕ} (hfuel : lines.length < fuel) (hlines : ∀ l ∈ lines, NL ∉ l ∧ 0 ∉ l)
    (htail : NL ∉ tail) (hnul : 0 ∉ tail) (u out : List UInt8) :
    ∃ v, v.length = u.length + (text lines).length ∧
      scan pattern fuel (u ++ text lines ++ tail ++ 0 :: junk) u.length out
        = some (v ++ tail ++ 0 :: junk, v.length, out ++ selected pattern lines) := by
  induction lines generalizing fuel u out with
  | nil =>
    obtain ⟨fuel, rfl⟩ := Nat.exists_eq_succ_of_ne_zero (Nat.ne_zero_of_lt hfuel)
    refine ⟨u, by simp, ?_⟩
    rw [scan]
    simp [strchr_append htail hnul, strchr, selected]
  | cons l lines ih =>
    obtain ⟨fuel, rfl⟩ := Nat.exists_eq_succ_of_ne_zero (Nat.ne_zero_of_lt hfuel)
    obtain ⟨⟨hl, hl0⟩, hlines⟩ := List.forall_mem_cons.mp hlines
    have hfuel : lines.length < fuel := Nat.lt_of_succ_lt_succ hfuel
    -- the rest of the buffer, and the two states of the newline
    set rest := text lines ++ tail ++ 0 :: junk with hrest
    have hbuf : u ++ text (l :: lines) ++ tail ++ 0 :: junk = u ++ (l ++ NL :: rest) := by simp [hrest]
    have hset (a b : UInt8) : (u ++ (l ++ a :: rest)).set (u.length + l.length) b = u ++ (l ++ b :: rest) := by
      simp
    have hdrop (a : UInt8) : (u ++ (l ++ a :: rest)).drop u.length = l ++ a :: rest := List.drop_left
    have hnext (a : UInt8) (out : List UInt8) : ∃ v, v.length = u.length + (text (l :: lines)).length ∧
        scan pattern fuel (u ++ (l ++ a :: rest)) (u.length + l.length + 1) out
          = some (v ++ tail ++ 0 :: junk, v.length, out ++ selected pattern lines) := by
      obtain ⟨v, hv, hscan⟩ := ih hfuel hlines (u ++ l ++ [a]) out
      refine ⟨v, by rw [hv]; simp; omega, ?_⟩
      rw [← hscan]
      simp [hrest, Nat.add_assoc]
    rw [hbuf, scan, hdrop, strchr_append hl hl0]
    simp only [strchr, Option.map_some, Nat.zero_add, if_neg (by decide : ¬ NL = 0), if_true, hset, hdrop,
      string_append hl0]
    rw [selected_cons]
    split_ifs with hm
    · obtain ⟨v, hv, hscan⟩ := hnext NL (out ++ (l ++ [NL]))
      have hline : (l ++ NL :: rest).take (u.length + l.length + 1 - u.length) = l ++ [NL] := by
        rw [Nat.add_assoc, Nat.add_sub_cancel_left, List.take_length_add_append]
        rfl
      exact ⟨v, hv, by rw [hline, hscan, List.append_assoc out]⟩
    · obtain ⟨v, hv, hscan⟩ := hnext 0 out
      exact ⟨v, hv, by rw [List.nil_append, hscan]⟩

end

/-! ## The whole input -/

section

variable {pattern carry chunk junk tail : List UInt8} {chunks lines : List (List UInt8)} {m : ℕ}

/-- The buffer after a `read`. -/
theorem fill_eq (hbuf : (carry ++ junk).length = BUF) (hlen : carry.length + chunk.length < BUF) :
    ((carry ++ junk).take carry.length ++ chunk ++ (carry ++ junk).drop (carry.length + chunk.length)).set
        (carry.length + chunk.length) 0
      = carry ++ chunk ++ 0 :: junk.drop (chunk.length + 1) := by
  have hjunk : chunk.length < junk.length := by
    rw [List.length_append] at hbuf
    omega
  rw [List.take_left, List.drop_length_add_append, List.drop_eq_getElem_cons hjunk,
    List.set_append_right _ _ (by simp)]
  simp only [List.length_append, Nat.sub_self, List.set_cons_zero]

theorem length_le_length_text (lines : List (List UInt8)) : lines.length ≤ (text lines).length := by
  induction lines with
  | nil => simp
  | cons l lines ih =>
    rw [text_cons, List.length_cons, List.length_append, List.length_cons]
    omega

/-- One round of `grep`. What is behind the last newline is kept if there was a newline, and is lost if
there was none. -/
theorem grepFrom_cons (hbuf : (carry ++ junk).length = BUF) (hlen : carry.length + chunk.length < BUF)
    (hchunk : carry ++ chunk = text lines ++ tail) (hlines : ∀ l ∈ lines, NL ∉ l ∧ 0 ∉ l)
    (htail : NL ∉ tail) (hnul : 0 ∉ tail) (out : List UInt8) :
    let kept := if lines = [] then [] else tail
    ∃ junk', (kept ++ junk').length = BUF ∧
      grepFrom pattern (chunk :: chunks) (carry ++ junk) carry.length out
        = grepFrom pattern chunks (kept ++ junk') kept.length (out ++ selected pattern lines) := by
  intro kept
  have hlength : carry.length + chunk.length = (text lines).length + tail.length := by
    simpa using congrArg List.length hchunk
  have hcount := length_le_length_text lines
  obtain ⟨v, hv, hscan⟩ := @scan_eq pattern tail (junk.drop (chunk.length + 1)) lines BUF (by omega) hlines htail
    hnul [] out
  simp only [List.length_nil, Nat.zero_add, List.nil_append] at hv hscan
  rw [grepFrom, fill_eq hbuf hlen, hchunk]
  simp only [hscan, Option.bind_eq_bind, Option.bind_some]
  have hnext : (v ++ tail ++ 0 :: junk.drop (chunk.length + 1)).length = BUF := by
    rw [List.length_append] at hbuf
    simp only [List.length_append, List.length_cons, List.length_drop]
    omega
  by_cases hpos : lines = []
  · obtain rfl : v = [] := by simpa [hpos] using hv
    exact ⟨[] ++ tail ++ 0 :: junk.drop (chunk.length + 1), by simpa [kept, hpos] using hnext, by simp [kept, hpos]⟩
  · have hkept : kept = tail := if_neg hpos
    have hv0 : 0 < v.length := by
      have := List.length_pos_iff.mpr hpos
      omega
    rw [if_neg (Nat.ne_of_gt hv0), if_pos (by omega), hlength, hv, Nat.add_sub_cancel_left, ← hv, moveDown, hkept]
    refine ⟨_, ?_, by rw [List.append_assoc v, List.drop_left, List.take_left]⟩
    rw [List.length_append, List.length_drop, ← List.append_assoc, hnext]
    omega

/-- The lines that `grep` sees, when it has kept `carry`. -/
structure Seen (carry : List UInt8) (chunks seen : List (List UInt8)) : Prop where
  lines : ∀ l ∈ seen, NL ∉ l
  whole : (∀ c ∈ chunks, NL ∈ c) → ∃ tail, NL ∉ tail ∧ carry ++ chunks.flatten = text seen ++ tail
  short : (∃ c ∈ chunks, NL ∉ c) → (text seen).length < (carry ++ chunks.flatten).length

variable {seen : List (List UInt8)}

theorem Seen.length_le (h : Seen carry chunks seen) : (text seen).length ≤ (carry ++ chunks.flatten).length := by
  by_cases hall : ∀ c ∈ chunks, NL ∈ c
  · obtain ⟨tail, -, heq⟩ := h.whole hall
    rw [heq, List.length_append]
    exact Nat.le_add_right _ _
  · exact Nat.le_of_lt (h.short (by simpa using hall))

theorem Seen.lines_cons {u : List UInt8} (h : Seen tail chunks seen) (hu : carry ++ u ++ [NL] = text lines)
    (hlines : ∀ l ∈ lines, NL ∉ l) : Seen carry ((u ++ NL :: tail) :: chunks) (lines ++ seen) := by
  have heq : carry ++ ((u ++ NL :: tail) :: chunks).flatten = text lines ++ (tail ++ chunks.flatten) := by
    simp [← hu]
  refine ⟨fun l hl => (List.mem_append.mp hl).elim (hlines l) (h.lines l), fun hall => ?_, fun hsome => ?_⟩
  · obtain ⟨tail', htail', heq'⟩ := h.whole fun c hc => hall c (List.mem_cons_of_mem _ hc)
    exact ⟨tail', htail', by rw [heq, heq', text_append, List.append_assoc]⟩
  · have hrest : ∃ c ∈ chunks, NL ∉ c := by simpa using hsome
    have hlt := h.short hrest
    rw [heq, text_append, List.length_append]
    simpa using hlt

theorem Seen.part_cons (h : Seen [] chunks seen) (hpos : chunk ≠ []) (hchunk : NL ∉ chunk) :
    Seen carry (chunk :: chunks) seen := by
  refine ⟨h.lines, fun hall => absurd (hall chunk List.mem_cons_self) hchunk, fun _ => ?_⟩
  have hle := h.length_le
  have hlt := List.length_pos_iff.mpr hpos
  rw [List.nil_append] at hle
  rw [List.flatten_cons, List.length_append, List.length_append]
  omega

/-- `grep` prints the lines it sees that match, whatever the pattern. -/
theorem exists_seen (hreads : Reads m chunks) (hm : carry.length = m) (hnl : NL ∉ carry) (hnul : 0 ∉ carry)
    (hnuls : 0 ∉ chunks.flatten) :
    ∃ seen, Seen carry chunks seen ∧ ∀ pattern junk out, (carry ++ junk).length = BUF →
      grepFrom pattern chunks (carry ++ junk) m out = some (out ++ selected pattern seen) := by
  induction hreads generalizing carry with
  | done => exact ⟨[], ⟨by simp, fun _ => ⟨carry, hnl, by simp⟩, by simp⟩, by simp [grepFrom, selected]⟩
  | @lines m u tail chunks hlen htail hrest ih =>
    subst hm
    obtain ⟨lines, hu, hlines⟩ := exists_lines (carry ++ u)
    have hchunk : carry ++ (u ++ NL :: tail) = text lines ++ tail := by simp [← hu]
    rw [List.flatten_cons, List.mem_append, not_or] at hnuls
    have hnone : 0 ∉ text lines ++ tail := by
      rw [← hchunk, List.mem_append]
      exact not_or.mpr ⟨hnul, hnuls.1⟩
    rw [List.mem_append, not_or] at hnone
    obtain ⟨seen, hseen, hgrep⟩ := ih rfl htail hnone.2 hnuls.2
    refine ⟨lines ++ seen, hseen.lines_cons hu hlines, fun pattern junk out hbuf => ?_⟩
    have hlt : carry.length + (u ++ NL :: tail).length < BUF := by
      rw [List.length_append, List.length_cons] at hlen ⊢
      omega
    have hne : lines ≠ [] := by
      rintro rfl
      simp at hu
    obtain ⟨junk', hbuf', heq⟩ := @grepFrom_cons pattern carry _ junk tail chunks lines hbuf hlt hchunk
      (fun l hl => ⟨hlines l hl, fun h => hnone.1 (mem_text hl h)⟩) htail hnone.2 out
    rw [if_neg hne] at heq hbuf'
    rw [heq, hgrep pattern junk' _ hbuf', List.append_assoc]
    simp [selected]
  | @part m chunk chunks hpos hlen hchunk hrest ih =>
    subst hm
    rw [List.flatten_cons, List.mem_append, not_or] at hnuls
    obtain ⟨seen, hseen, hgrep⟩ := @ih [] rfl List.not_mem_nil List.not_mem_nil hnuls.2
    refine ⟨seen, hseen.part_cons hpos hchunk, fun pattern junk out hbuf => ?_⟩
    have hlt : carry.length + chunk.length < BUF := by
      have := List.length_pos_iff.mpr hpos
      omega
    obtain ⟨junk', hbuf', heq⟩ := @grepFrom_cons pattern carry chunk junk (carry ++ chunk) chunks [] hbuf hlt rfl
      (by simp) (by simp [hnl, hchunk]) (by simp [hnul, hnuls.1]) out
    rw [if_pos rfl] at heq hbuf'
    rw [heq, List.length_nil, hgrep pattern junk' _ hbuf']
    simp [selected]

theorem selected_nil_pattern (lines : List (List UInt8)) : selected [] lines = text lines := by
  have hall (l : List UInt8) : matchRe [] l = true := by
    cases l <;> simp [matchRe, matchFrom, matchhere.eq_def]
  rw [selected, List.filter_eq_self.mpr fun l _ => hall l]

/-- `grep` prints the lines that match for every pattern exactly if every `read` returns a newline. A piece
without one is forgotten, and so is what was kept before it. -/
theorem grep_exact_iff (hreads : Reads 0 chunks) (htext : chunks.flatten = text lines)
    (hlines : ∀ l ∈ lines, NL ∉ l ∧ 0 ∉ l) :
    (∀ pattern, grep pattern chunks = some (selected pattern lines)) ↔ ∀ c ∈ chunks, NL ∈ c := by
  have hnuls : 0 ∉ chunks.flatten := by
    rw [htext, text, List.mem_flatMap]
    rintro ⟨l, hl, h0⟩
    simp [(hlines l hl).2, show (0 : UInt8) ≠ NL by decide] at h0
  obtain ⟨seen, hseen, hgrep⟩ := @exists_seen [] _ _ hreads rfl List.not_mem_nil List.not_mem_nil hnuls
  have hprints (pattern : List UInt8) : grep pattern chunks = some (selected pattern seen) :=
    hgrep pattern (List.replicate BUF 0) [] (by simp)
  constructor
  · intro hall
    by_contra hsome
    have hlt := hseen.short (by simpa using hsome)
    have heq : text seen = text lines := by
      simpa [hprints, selected_nil_pattern] using hall []
    rw [List.nil_append, htext, heq] at hlt
    exact Nat.lt_irrefl _ hlt
  · intro hall pattern
    obtain ⟨tail, htail, heq⟩ := hseen.whole hall
    rw [List.nil_append, htext] at heq
    obtain ⟨rest, rfl, hrest⟩ := lines_append (fun l hl => (hlines l hl).1) hseen.lines heq
    obtain rfl : rest = [] := by
      cases rest with
      | nil => rfl
      | cons l rest => simp [hrest] at htail
    rw [hprints, List.append_nil]

/-- Two lines that come in one piece, and a third. -/
theorem grep_exact_iff_two : (∀ pattern, grep pattern [[97, NL, 98, NL], [99, NL]]
      = some (selected pattern [[97], [98], [99]])) ↔ ∀ c ∈ [[97, NL, 98, NL], [99, NL]], NL ∈ c :=
  grep_exact_iff (@Reads.lines 0 [97, NL, 98] [] _ (by decide) (by decide)
    (@Reads.lines 0 [99] [] _ (by decide) (by decide) .done)) rfl (by decide)

/-- The line `a` comes in two pieces, without its newline and the newline alone. `grep` prints an empty
line. -/
theorem grep_splits_line : Reads 0 [[97], [NL]] ∧ [[97], [NL]].flatten = text [[97]] ∧
    grep [] [[97], [NL]] = some [NL] ∧ selected [] [[97]] = [97, NL] := by
  have hreads : Reads 0 [[97], [NL]] := .part (by decide) (by decide) (by decide)
    (@Reads.lines 0 [] [] _ (by decide) (by decide) .done)
  refine ⟨hreads, rfl, ?_, selected_nil_pattern _⟩
  obtain ⟨junk, hbuf, hfirst⟩ := @grepFrom_cons [] [] [97] (List.replicate BUF 0) [97] [[NL]] [] (by simp)
    (by decide) rfl (by simp) (by decide) (by decide) []
  obtain ⟨junk', -, hsecond⟩ := @grepFrom_cons [] [] [NL] junk [] [] [[]] hbuf (by decide) rfl (by decide)
    (by decide) (by decide) ([] ++ selected [] [])
  exact (hfirst.trans hsecond).trans (by rw [selected_nil_pattern, selected_nil_pattern]; rfl)

end

end Xv6.Grep
