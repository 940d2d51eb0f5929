import Mathlib.Data.List.Induction
import Xv6.Console.Input

/-!
# The line discipline of the console

The ring buffer holds the completed characters that are still unread, and behind them the current line.
-/

namespace Xv6.Console

variable {s : State} {u : List UInt8}

open Lib

/-! ## Reads -/

theorem Piece.extend {n : ℕ} {s out s' : List UInt8} (h : Piece n s out s') (x : List UInt8) :
    Piece n (s ++ x) out (s' ++ x) := by
  cases h with
  | full hp hl =>
    rw [List.append_assoc]
    exact .full hp hl
  | line hp hl =>
    rw [List.append_assoc]
    exact .line hp hl
  | stop hp hne hl =>
    rw [List.append_assoc]
    exact .stop hp hne hl
  | eof hn => exact .eof hn

/-- What is completed later does not change the reads so far. -/
theorem Pieces.extend {rs : List (ℕ × List UInt8)} {s s' : List UInt8} (h : Pieces rs s s')
    (x : List UInt8) : Pieces rs (s ++ x) (s' ++ x) := by
  induction h with
  | nil => exact .nil
  | snoc _ hp ih => exact ih.snoc (hp.extend x)

theorem plain_append {l : List UInt8} {c : UInt8} (h : Plain l) (hLF : c ≠ LF) (hD : c ≠ ctrlD) :
    Plain (l ++ [c]) := by
  intro a ha
  rcases List.mem_append.mp ha with ha | ha
  · exact h a ha
  · rw [List.mem_singleton.mp ha]
    exact ⟨hLF, hD⟩

/-! ## Keys -/

/-- The characters that a key completes when the current line is `l`. -/
def Key.completes (l : List UInt8) : Key → List UInt8
  | .char c fills => if c = LF ∨ c = ctrlD ∨ fills then l ++ [c] else []
  | .erase | .kill => []

/-- The line after a key. -/
def Key.line (l : List UInt8) : Key → List UInt8
  | .char c fills => if c = LF ∨ c = ctrlD ∨ fills then [] else l ++ [c]
  | .erase => l.dropLast
  | .kill => []

theorem edit_eq {d l : List UInt8} {k : Key} : edit (d, l) k = (d ++ k.completes l, k.line l) := by
  cases k with
  | char c fills =>
    simp only [edit, Key.completes, Key.line]
    split_ifs <;> simp
  | erase => simp [edit, Key.completes, Key.line]
  | kill => simp [edit, Key.completes, Key.line]

theorem edited_snoc {keys : List Key} {k : Key} :
    edited (keys ++ [k]) = ((edited keys).1 ++ k.completes (edited keys).2, k.line (edited keys).2) := by
  rw [edited, List.foldl_append]
  exact edit_eq

/-! ## The buffer -/

/-- The buffer holds `u`, which is completed, and behind it the current line `l`. -/
structure Holds (s : Input) (u l : List UInt8) : Prop where
  queued : Queued INPUT_BUF s.buf s.r s.e (u ++ l)
  write : s.w = s.r + BitVec.ofNat 32 u.length
  plain : Plain l
  full : u.length + l.length = INPUT_BUF → l = []

namespace Holds

variable {s : Input} {u l : List UInt8} {c : UInt8}

theorem count (h : Holds s u l) : (s.e - s.r).toNat = u.length + l.length := by
  rw [h.queued.count (by decide), List.length_append]

theorem length_le (h : Holds s u l) : u.length + l.length ≤ INPUT_BUF := by
  have := h.queued.length_le
  rwa [List.length_append] at this

theorem split (h : Holds s u l) :
    Queued INPUT_BUF s.buf s.r s.w u ∧ Queued INPUT_BUF s.buf s.w s.e l := h.queued.split h.write

theorem unread (h : Holds s u l) : (s.w - s.r).toNat = u.length := h.split.1.count (by decide)

theorem line (h : Holds s u l) : (s.e - s.w).toNat = l.length := h.split.2.count (by decide)

theorem empty_iff (h : Holds s u l) : s.e = s.w ↔ l = [] := by
  rw [eq_comm]
  exact h.split.2.empty_iff (by decide)

/-- A character of the line is taken back. -/
theorem erase (h : Holds s u (l ++ [c])) : Holds { s with e := s.e - 1 } u l := by
  have hq := h.queued
  rw [← List.append_assoc] at hq
  have hle := h.length_le
  rw [List.length_append, List.length_singleton] at hle
  exact ⟨hq.unpush, h.write, fun a ha => h.plain a (List.mem_append_left _ ha), fun heq => by omega⟩

theorem last (h : Holds s u (l ++ [c])) : s.before s.e = c := by
  have hq := h.queued
  rw [← List.append_assoc] at hq
  exact hq.last

/-- The current line has no newline in it, so all of it is removed. -/
theorem killLine (h : Holds s u l) : Holds (s.killLine l.length) u [] := by
  induction l using List.reverseRecOn generalizing s with
  | nil => exact h
  | append_singleton l c ih =>
    have hne : s.e ≠ s.w := fun heq => by simpa using h.empty_iff.mp heq
    have hc : c ≠ LF := (h.plain c (by simp)).1
    rw [List.length_append, List.length_singleton, Input.killLine, h.last, if_pos ⟨hne, hc⟩]
    exact ih h.erase

/-- A character that is accepted. -/
theorem insert (h : Holds s u l) (hroom : u.length + l.length < INPUT_BUF) :
    if c = LF ∨ c = ctrlD ∨ u.length + l.length + 1 = INPUT_BUF then
      Holds (s.insert c) (u ++ (l ++ [c])) [] else Holds (s.insert c) u (l ++ [c]) := by
  have hpush := h.queued.push (by decide) (by rwa [List.length_append]) c
  rw [List.append_assoc] at hpush
  have hfull : s.e + 1 = s.r + BitVec.ofNat 32 INPUT_BUF ↔ u.length + l.length + 1 = INPUT_BUF := by
    rw [hpush.full_iff (by decide)]
    simp [Nat.add_assoc]
  unfold Input.insert
  simp only [hfull]
  split_ifs with hdone
  · refine ⟨by rwa [List.append_nil], hpush.counter, fun a ha => absurd ha List.not_mem_nil, fun _ => rfl⟩
  · push Not at hdone
    refine ⟨hpush, h.write, plain_append h.plain hdone.1 hdone.2.1, fun heq => ?_⟩
    rw [List.length_append, List.length_singleton] at heq
    exact absurd heq hdone.2.2

/-- The oldest unread character is taken. -/
theorem take (h : Holds s (c :: u) l) : s.buf (s.r.toNat % INPUT_BUF) = c ∧ Holds { s with r := s.r + 1 } u l := by
  obtain ⟨hc, hq⟩ := h.queued.pop
  refine ⟨hc, hq, ?_, h.plain, fun heq => ?_⟩
  · rw [h.write, List.length_cons, BitVec.ofNat_add, BitVec.add_assoc, BitVec.add_comm 1]
    rfl
  · have hle := h.length_le
    rw [List.length_cons] at hle
    omega

/-- What `consoleintr` does is what the key says. -/
theorem consoleintr (h : Holds s u l) (c : UInt8) :
    Holds (s.consoleintr c) (u ++ (s.key c).elim [] (Key.completes l)) ((s.key c).elim l (Key.line l)) := by
  unfold Input.consoleintr Input.key
  by_cases hP : c = ctrlP
  · simpa only [if_pos hP, Option.elim, List.append_nil] using h
  rw [if_neg hP, if_neg hP]
  by_cases hU : c = ctrlU
  · rw [if_pos hU, if_pos hU, h.line]
    simpa only [Option.elim, Key.completes, Key.line, List.append_nil] using h.killLine
  rw [if_neg hU, if_neg hU]
  by_cases hH : c = ctrlH ∨ c = DEL
  · simp only [if_pos hH, Option.elim, Key.completes, Key.line, List.append_nil]
    cases l using List.reverseRecOn with
    | nil =>
      rw [if_neg (not_not.mpr (h.empty_iff.mpr rfl))]
      exact h
    | append_singleton l a =>
      have hne : s.e ≠ s.w := fun heq => by simpa using h.empty_iff.mp heq
      rw [if_pos hne, List.dropLast_concat]
      exact h.erase
  rw [if_neg hH, if_neg hH]
  by_cases hacc : c ≠ 0 ∧ s.room
  · have hroom : u.length + l.length < INPUT_BUF := by
      have := hacc.2
      rw [Input.room, h.count] at this
      exact of_decide_eq_true this
    rw [if_pos hacc, if_pos hacc, h.count]
    generalize (if c = CR then LF else c) = c'
    have hinsert := h.insert (c := c') hroom
    simp only [Option.elim, Key.completes, Key.line, decide_eq_true_eq]
    split_ifs at hinsert ⊢
    · exact hinsert
    · rw [List.append_nil]
      exact hinsert
  · rw [if_neg hacc, if_neg hacc]
    simpa only [Option.elim, List.append_nil] using h

end Holds

/-! ## Runs -/

/-- The call of `consoleread` under way has stored `got`, which nothing ends. -/
def Reader.Fits (rd : Reader) : Prop := Plain rd.got ∧ rd.got.length + rd.n = rd.target ∧ 0 < rd.target

/-- The unread characters `u` are what the reads have left, apart from those already stored by the call
under way. -/
structure Inv (s : State) (u : List UInt8) : Prop where
  holds : Holds s.input u (edited s.keys).2
  reader : ∀ rd, s.reader = some rd → rd.Fits
  pieces : Pieces s.reads (edited s.keys).1 ((s.reader.elim [] Reader.got) ++ u)

theorem inv_start {buf : ℕ → UInt8} {i : BitVec 32} : Inv (start buf i) [] where
  holds := ⟨.nil rfl, by simp [start], nofun, nofun⟩
  reader := nofun
  pieces := .nil

theorem Inv.intr (h : Inv s u) (c : UInt8) :
    ∃ u', Inv { s with input := s.input.consoleintr c, keys := s.keys ++ (s.input.key c).toList } u' := by
  have hholds := h.holds.consoleintr c
  refine ⟨u ++ (s.input.key c).elim [] (Key.completes (edited s.keys).2), ?_, h.reader, ?_⟩
  · cases hk : s.input.key c with
    | none =>
      rw [hk] at hholds
      simpa using hholds
    | some k =>
      rw [hk] at hholds
      simp only [Option.toList_some, edited_snoc]
      exact hholds
  · cases hk : s.input.key c with
    | none => simpa using h.pieces
    | some k =>
      simp only [Option.toList_some, edited_snoc, Option.elim, ← List.append_assoc]
      exact h.pieces.extend _

/-- A round of `consoleread`. -/
theorem Inv.round {rd : Reader} (h : Inv s u) (hrd : s.reader = some rd) :
    (consoleread s.input rd = .sleep ∧ u = []) ∨
    (∃ input rd', consoleread s.input rd = .more input rd' ∧
      ∃ u', Inv { s with input, reader := some rd' } u') ∨
    (∃ input out, consoleread s.input rd = .done input out ∧
      ∃ u', Inv { s with input, reader := none, reads := s.reads ++ [(rd.target, out)] } u') := by
  obtain ⟨hplain, hcount, hpos⟩ := h.reader rd hrd
  have hpieces := h.pieces
  rw [hrd] at hpieces
  simp only [Option.elim] at hpieces
  unfold consoleread
  by_cases hn : rd.n = 0
  · rw [if_pos hn]
    refine .inr (.inr ⟨_, _, rfl, u, h.holds, nofun, ?_⟩)
    exact hpieces.snoc (.full hplain (by omega))
  rw [if_neg hn]
  by_cases hempty : s.input.r = s.input.w
  · rw [if_pos hempty]
    exact .inl ⟨rfl, (h.holds.split.1.empty_iff (by decide)).mp hempty⟩
  rw [if_neg hempty]
  obtain ⟨c, u', rfl⟩ : ∃ c u', u = c :: u' := by
    cases u with
    | nil => exact absurd ((h.holds.split.1.empty_iff (by decide)).mpr rfl) hempty
    | cons c u' => exact ⟨c, u', rfl⟩
  obtain ⟨hc, htake⟩ := h.holds.take
  simp only [hc]
  rcases eq_or_ne c ctrlD with rfl | hD
  · rw [if_pos rfl]
    refine .inr (.inr ⟨_, _, rfl, ?_⟩)
    by_cases hlt : rd.n < rd.target
    · -- the read has bytes, and the character stays for the next one
      rw [if_pos hlt]
      refine ⟨ctrlD :: u', ?_, nofun, hpieces.snoc (.stop hplain ?_ (by omega))⟩
      · rw [BitVec.add_sub_cancel]
        exact h.holds
      · rintro hnil
        rw [hnil] at hcount
        simp at hcount
        omega
    · have hgot : rd.got = [] := List.eq_nil_of_length_eq_zero (by omega)
      rw [if_neg hlt, hgot]
      rw [hgot] at hpieces
      exact ⟨u', htake, nofun, hpieces.snoc (.eof hpos)⟩
  rw [if_neg hD]
  rcases eq_or_ne c LF with rfl | hLF
  · rw [if_pos rfl]
    exact .inr (.inr ⟨_, _, rfl, u', htake, nofun, hpieces.snoc (.line hplain (by omega))⟩)
  · rw [if_neg hLF]
    refine .inr (.inl ⟨_, _, rfl, u', htake, ?_, ?_⟩)
    · rintro _ ⟨⟩
      refine ⟨plain_append hplain hLF hD, ?_, hpos⟩
      simp only [List.length_append, List.length_singleton]
      omega
    · simpa using hpieces

theorem Inv.step {s' : State} {a : Act} (h : Inv s u) (hs : step s a = some s') : ∃ u', Inv s' u' := by
  cases a with
  | intr c =>
    obtain rfl := Option.some.inj hs
    exact h.intr c
  | read n =>
    simp only [Console.step] at hs
    cases hrd : s.reader with
    | some rd => simp [hrd] at hs
    | none =>
      rw [hrd] at hs
      simp only at hs
      split_ifs at hs with hn
      obtain rfl := Option.some.inj hs
      refine ⟨u, h.holds, ?_, ?_⟩
      · rintro _ ⟨⟩
        exact ⟨nofun, Nat.zero_add n, hn⟩
      · have := h.pieces
        rwa [hrd] at this
  | round =>
    simp only [Console.step] at hs
    cases hrd : s.reader with
    | none => simp [hrd] at hs
    | some rd =>
      simp only [hrd] at hs
      obtain ⟨hr, -⟩ | ⟨input, rd', hr, hinv⟩ | ⟨input, out, hr, hinv⟩ := h.round hrd
      · simp [hr] at hs
      · rw [hr] at hs
        obtain rfl := Option.some.inj hs
        exact hinv
      · rw [hr] at hs
        obtain rfl := Option.some.inj hs
        exact hinv

theorem Inv.run {s' : State} {acts : List Act} (hs : run s acts = some s') :
    ∀ {u : List UInt8}, Inv s u → ∃ u', Inv s' u' := by
  induction acts generalizing s with
  | nil =>
    intro u h
    obtain rfl := Option.some.inj hs
    exact ⟨u, h⟩
  | cons a acts ih =>
    intro u h
    obtain ⟨s₁, h₁, hrest⟩ := Option.bind_eq_some_iff.mp hs
    obtain ⟨u₁, hinv⟩ := h.step h₁
    exact ih hrest hinv

/-- The console's indices never pass each other, and the reads return the completed lines, in order and
cut at newlines and at `C('D')`. What the buffer holds is the rest, and behind it the current line. -/
theorem line_discipline {buf : ℕ → UInt8} {i : BitVec 32} {acts : List Act} {s : State}
    (h : run (start buf i) acts = some s) :
    (s.input.w - s.input.r).toNat + (s.input.e - s.input.w).toNat = (s.input.e - s.input.r).toNat ∧
      (s.input.e - s.input.r).toNat ≤ INPUT_BUF ∧
      ((s.input.e - s.input.r).toNat = INPUT_BUF → s.input.w = s.input.e) ∧
      ∃ u, Queued INPUT_BUF s.input.buf s.input.r s.input.w u ∧
        Queued INPUT_BUF s.input.buf s.input.w s.input.e (edited s.keys).2 ∧
        (∀ rd, s.reader = some rd → rd.Fits) ∧
        Pieces s.reads (edited s.keys).1 ((s.reader.elim [] Reader.got) ++ u) := by
  obtain ⟨u, hinv⟩ := Inv.run h inv_start
  have hholds := hinv.holds
  refine ⟨?_, ?_, fun hfull => ?_, u, hholds.split.1, hholds.split.2, hinv.reader, hinv.pieces⟩
  · rw [hholds.unread, hholds.line, hholds.count]
  · rw [hholds.count]
    exact hholds.length_le
  · rw [hholds.count] at hfull
    exact (hholds.empty_iff.mpr (hholds.full hfull)).symm

/-- `a`, backspace, `b` and return are typed while a read waits. -/
def typing : List Act := [.read 10, .intr 97, .intr ctrlH, .intr 98, .intr CR, .round, .round]

theorem line_discipline_typing : ∃ s, run (start (fun _ => 0) (-1)) typing = some s ∧
    s.reads = [(10, [98, LF])] ∧ (s.input.e - s.input.r).toNat ≤ INPUT_BUF := by
  have hreads : (run (start (fun _ => 0) (-1)) typing).map State.reads = some [(10, [98, LF])] := by
    decide
  obtain ⟨s, hs, hreads⟩ := Option.map_eq_some_iff.mp hreads
  exact ⟨s, hs, hreads, (line_discipline hs).2.1⟩

end Xv6.Console
