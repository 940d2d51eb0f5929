import Mathlib.Algebra.BigOperators.Group.List.Basic
import Mathlib.Algebra.Ring.Nat
import Mathlib.Data.List.Chain

/-!
# Memory as a row of cells

All memory that has been obtained is a row of cells without gaps, each of which is free or in use. The
allocator takes a part of a free cell, makes a cell free and joins it with its neighbours, and adds a
cell at the end. Addresses are in bytes, sizes in units of 8 bytes, and each cell has a unit for its
header.
-/

namespace Xv6.Umalloc

/-- A cell, and the number of bytes that were asked for if it is in use. -/
structure Cell where
  size : ℕ
  owner : Option ℕ

/-- The size of a row. -/
def units (cs : List Cell) : ℕ := (cs.map Cell.size).sum

/-- The addresses of the free cells of a row that starts at `a`. -/
def freeAt : ℕ → List Cell → List ℕ
  | _, [] => []
  | a, c :: cs => if c.owner = none then a :: freeAt (a + 8 * c.size) cs else freeAt (a + 8 * c.size) cs

/-- The blocks in use: the address behind the header, and the number of bytes that were asked for. -/
def usedAt : ℕ → List Cell → List (ℕ × ℕ)
  | _, [] => []
  | a, c :: cs =>
    match c.owner with
    | none => usedAt (a + 8 * c.size) cs
    | some n => (a + 8, n) :: usedAt (a + 8 * c.size) cs

/-- The addresses and sizes of all cells. -/
def cellsAt : ℕ → List Cell → List (ℕ × ℕ)
  | _, [] => []
  | a, c :: cs => (a, c.size) :: cellsAt (a + 8 * c.size) cs

/-- The cell is not empty, and if it is in use, it has room for what was asked for. -/
structure Cell.Fine (c : Cell) : Prop where
  pos : 1 ≤ c.size
  room : ∀ n, c.owner = some n → n + 8 ≤ 8 * c.size

/-- No two free cells are neighbours. -/
abbrev Apart (cs : List Cell) : Prop := cs.IsChain fun c d => c.owner ≠ none ∨ d.owner ≠ none

structure Tidy (cs : List Cell) : Prop where
  fine : ∀ c ∈ cs, c.Fine
  apart : Apart cs

section

variable {a x : ℕ} {c d : Cell} {cs pre post : List Cell}

@[simp] theorem units_nil : units [] = 0 := rfl

@[simp] theorem units_cons : units (c :: cs) = c.size + units cs := by simp [units]

@[simp] theorem units_append : units (pre ++ post) = units pre + units post := by simp [units]

theorem addr_cons : a + 8 * c.size + 8 * units cs = a + 8 * units (c :: cs) := by
  rw [units_cons]
  omega

@[simp] theorem freeAt_append : freeAt a (pre ++ post) = freeAt a pre ++ freeAt (a + 8 * units pre) post := by
  induction pre generalizing a with
  | nil => simp [freeAt]
  | cons c pre ih =>
    simp only [List.cons_append, freeAt, ih, addr_cons]
    split_ifs <;> simp

@[simp] theorem usedAt_append : usedAt a (pre ++ post) = usedAt a pre ++ usedAt (a + 8 * units pre) post := by
  induction pre generalizing a with
  | nil => simp [usedAt]
  | cons c pre ih =>
    simp only [List.cons_append, usedAt, ih, addr_cons]
    split <;> simp

theorem mem_freeAt : x ∈ freeAt a cs ↔
    ∃ pre c post, cs = pre ++ c :: post ∧ c.owner = none ∧ x = a + 8 * units pre := by
  constructor
  · intro hx
    induction cs generalizing a with
    | nil => cases hx
    | cons c cs ih =>
      have hrest : x ∈ freeAt (a + 8 * c.size) cs → ∃ pre d post, c :: cs = pre ++ d :: post ∧
          d.owner = none ∧ x = a + 8 * units pre := by
        intro hx
        obtain ⟨pre, d, post, rfl, hd, rfl⟩ := ih hx
        exact ⟨c :: pre, d, post, rfl, hd, by rw [addr_cons]⟩
      rw [freeAt] at hx
      split_ifs at hx with hc
      · rcases List.mem_cons.mp hx with rfl | hx
        · exact ⟨[], c, cs, rfl, hc, rfl⟩
        · exact hrest hx
      · exact hrest hx
  · rintro ⟨pre, c, post, rfl, hc, rfl⟩
    simp [freeAt, hc]

theorem mem_usedAt {n : ℕ} : (x, n) ∈ usedAt a cs ↔
    ∃ pre c post, cs = pre ++ c :: post ∧ c.owner = some n ∧ x = a + 8 * units pre + 8 := by
  constructor
  · intro hx
    induction cs generalizing a with
    | nil => cases hx
    | cons c cs ih =>
      have hrest : (x, n) ∈ usedAt (a + 8 * c.size) cs → ∃ pre d post, c :: cs = pre ++ d :: post ∧
          d.owner = some n ∧ x = a + 8 * units pre + 8 := by
        intro hx
        obtain ⟨pre, d, post, rfl, hd, rfl⟩ := ih hx
        exact ⟨c :: pre, d, post, rfl, hd, by rw [addr_cons]⟩
      rw [usedAt] at hx
      split at hx
      · exact hrest hx
      · rename_i m hm
        rcases List.mem_cons.mp hx with heq | hx
        · obtain ⟨rfl, rfl⟩ := Prod.mk.inj heq
          exact ⟨[], c, cs, rfl, hm, rfl⟩
        · exact hrest hx
  · rintro ⟨pre, c, post, rfl, hc, rfl⟩
    simp [usedAt, hc]

/-- Free cells lie within the row. -/
theorem bounds_freeAt (hfine : ∀ c ∈ cs, c.Fine) (hx : x ∈ freeAt a cs) : a ≤ x ∧ x + 8 ≤ a + 8 * units cs := by
  obtain ⟨pre, c, post, rfl, -, rfl⟩ := mem_freeAt.mp hx
  have := (hfine c (by simp)).pos
  simp only [units_append, units_cons]
  omega

theorem sorted_freeAt (hfine : ∀ c ∈ cs, c.Fine) : (freeAt a cs).Pairwise (· < ·) := by
  induction cs generalizing a with
  | nil => exact .nil
  | cons c cs ih =>
    have hrest := ih (a := a + 8 * c.size) fun d hd => hfine d (List.mem_cons_of_mem _ hd)
    rw [freeAt]
    split_ifs
    · refine List.pairwise_cons.mpr ⟨fun x hx => ?_, hrest⟩
      have := (bounds_freeAt (fun d hd => hfine d (List.mem_cons_of_mem _ hd)) hx).1
      have := (hfine c List.mem_cons_self).pos
      omega
    · exact hrest

/-- There are no more free cells than units. -/
theorem length_freeAt (hfine : ∀ c ∈ cs, c.Fine) : (freeAt a cs).length ≤ units cs := by
  induction cs generalizing a with
  | nil => exact le_rfl
  | cons c cs ih =>
    have hrest := ih (a := a + 8 * c.size) fun d hd => hfine d (List.mem_cons_of_mem _ hd)
    have := (hfine c List.mem_cons_self).pos
    rw [freeAt, units_cons]
    split_ifs
    · rw [List.length_cons]
      omega
    · omega

end

section

variable {a : ℕ} {c : Cell} {cs pre post : List Cell} {x : ℕ × ℕ}

@[simp] theorem cellsAt_append :
    cellsAt a (pre ++ post) = cellsAt a pre ++ cellsAt (a + 8 * units pre) post := by
  induction pre generalizing a with
  | nil => simp [cellsAt]
  | cons c pre ih =>
    simp only [List.cons_append, cellsAt, ih, addr_cons]

theorem mem_cellsAt : x ∈ cellsAt a cs ↔ ∃ pre c post, cs = pre ++ c :: post ∧ x = (a + 8 * units pre, c.size) := by
  constructor
  · intro hx
    induction cs generalizing a with
    | nil => cases hx
    | cons c cs ih =>
      rcases List.mem_cons.mp hx with rfl | hx
      · exact ⟨[], c, cs, rfl, rfl⟩
      · obtain ⟨pre, d, post, rfl, rfl⟩ := ih hx
        exact ⟨c :: pre, d, post, rfl, by rw [addr_cons]⟩
  · rintro ⟨pre, c, post, rfl, rfl⟩
    simp [cellsAt]

theorem bounds_cellsAt (hfine : ∀ c ∈ cs, c.Fine) (hx : x ∈ cellsAt a cs) :
    a ≤ x.1 ∧ 1 ≤ x.2 ∧ x.1 + 8 * x.2 ≤ a + 8 * units cs := by
  obtain ⟨pre, c, post, rfl, rfl⟩ := mem_cellsAt.mp hx
  have := (hfine c (by simp)).pos
  simp only [units_append, units_cons]
  omega

end

/-! ## Cells that become free -/

/-- What comes of `n` free units in front of a row: they are joined with the first cell if that is
free. -/
def joinUp (n : ℕ) : List Cell → ℕ × List Cell
  | [] => (n, [])
  | d :: post => if d.owner = none then (n + d.size, post) else (n, d :: post)

/-- A cell between two rows becomes free and is joined with the cells next to it that are free. -/
def release (pre : List Cell) (c : Cell) (post : List Cell) : List Cell :=
  let u := joinUp c.size post
  match pre.getLast? with
  | none => pre ++ ⟨u.1, none⟩ :: u.2
  | some d => if d.owner = none then pre.dropLast ++ ⟨d.size + u.1, none⟩ :: u.2 else pre ++ ⟨u.1, none⟩ :: u.2

section

variable {a n : ℕ} {c d : Cell} {pre post : List Cell}

theorem units_joinUp : (joinUp n post).1 + units (joinUp n post).2 = n + units post := by
  cases post with
  | nil => rfl
  | cons d post =>
    rw [joinUp]
    split_ifs
    · simp only [units_cons]
      omega
    · rfl

theorem le_joinUp : n ≤ (joinUp n post).1 := by
  cases post with
  | nil => exact le_rfl
  | cons d post =>
    rw [joinUp]
    split_ifs <;> simp

theorem usedAt_joinUp : usedAt (a + 8 * (joinUp n post).1) (joinUp n post).2 = usedAt (a + 8 * n) post := by
  cases post with
  | nil => rfl
  | cons d post =>
    rw [joinUp]
    split_ifs with hd
    · simp only [usedAt, hd]
      congr 1
      omega
    · rfl

theorem freeAt_joinUp :
    ∃ D, freeAt (a + 8 * n) post = D ++ freeAt (a + 8 * (joinUp n post).1) (joinUp n post).2 := by
  cases post with
  | nil => exact ⟨[], rfl⟩
  | cons d post =>
    rw [joinUp]
    split_ifs with hd
    · refine ⟨[a + 8 * n], ?_⟩
      rw [freeAt, if_pos hd, List.singleton_append, Nat.mul_add, Nat.add_assoc]
    · exact ⟨[], rfl⟩

theorem mem_cellsAt_joinUp {x : ℕ × ℕ} (hx : x ∈ cellsAt (a + 8 * (joinUp n post).1) (joinUp n post).2) :
    x ∈ cellsAt (a + 8 * n) post := by
  cases post with
  | nil => exact hx
  | cons d post =>
    rw [joinUp] at hx
    split_ifs at hx
    · refine List.mem_cons_of_mem _ ?_
      rwa [Nat.mul_add, ← Nat.add_assoc] at hx
    · exact hx

/-- The first cell behind is in use. -/
theorem head_joinUp (h : Apart post) : ∀ d ∈ (joinUp n post).2.head?, d.owner ≠ none := by
  cases post with
  | nil => nofun
  | cons d post =>
    rw [joinUp]
    split_ifs with hd
    · intro e he
      exact ((List.isChain_cons.mp h).1 e he).resolve_left (not_not_intro hd)
    · rintro _ ⟨⟩
      exact hd

theorem mem_joinUp (hd : d ∈ (joinUp n post).2) : d ∈ post := by
  cases post with
  | nil => exact hd
  | cons e post =>
    rw [joinUp] at hd
    split_ifs at hd
    · exact List.mem_cons_of_mem _ hd
    · exact hd

theorem isChain_joinUp (h : Apart post) : Apart (joinUp n post).2 := by
  cases post with
  | nil => exact .nil
  | cons e post =>
    rw [joinUp]
    split_ifs
    · exact (List.isChain_cons.mp h).2
    · exact h

/-- The result of a release, in two cases. -/
theorem release_joined (hd : d.owner = none) : release (pre ++ [d]) c post =
    pre ++ ⟨d.size + (joinUp c.size post).1, none⟩ :: (joinUp c.size post).2 := by
  simp [release, hd]

theorem release_alone (hpre : ∀ d ∈ pre.getLast?, d.owner ≠ none) :
    release pre c post = pre ++ ⟨(joinUp c.size post).1, none⟩ :: (joinUp c.size post).2 := by
  unfold release
  split
  · rfl
  · rw [if_neg (hpre _ ‹_›)]

/-- Either the cell in front is free, or there is none. -/
theorem release_cases (pre : List Cell) :
    (∃ pre' d, pre = pre' ++ [d] ∧ d.owner = none) ∨ ∀ d ∈ pre.getLast?, d.owner ≠ none := by
  rcases List.eq_nil_or_concat' pre with rfl | ⟨pre', d, rfl⟩
  · exact .inr nofun
  · by_cases hd : d.owner = none
    · exact .inl ⟨pre', d, rfl, hd⟩
    · right
      intro e he
      rw [List.getLast?_concat] at he
      obtain rfl := Option.some.inj he
      exact hd

/-- There is now a free cell that is as large as the one released. -/
theorem exists_release (pre : List Cell) (c : Cell) (post : List Cell) :
    ∃ d ∈ release pre c post, d.owner = none ∧ c.size ≤ d.size := by
  have hsize := @le_joinUp c.size post
  rcases release_cases pre with ⟨pre', d, rfl, hd⟩ | hpre
  · rw [release_joined hd]
    exact ⟨⟨d.size + (joinUp c.size post).1, none⟩, by simp, rfl, hsize.trans (Nat.le_add_left _ _)⟩
  · rw [release_alone hpre]
    exact ⟨⟨(joinUp c.size post).1, none⟩, by simp, rfl, hsize⟩

theorem units_release : units (release pre c post) = units pre + c.size + units post := by
  have hup := @units_joinUp c.size post
  rcases release_cases pre with ⟨pre', d, rfl, hd⟩ | hpre
  · rw [release_joined hd]
    simp only [units_append, units_cons, units_nil]
    omega
  · rw [release_alone hpre]
    simp only [units_append, units_cons]
    omega

theorem usedAt_release :
    usedAt a (release pre c post) = usedAt a pre ++ usedAt (a + 8 * units pre + 8 * c.size) post := by
  rw [← usedAt_joinUp]
  rcases release_cases pre with ⟨pre', d, rfl, hd⟩ | hpre
  · rw [release_joined hd]
    simp only [usedAt_append, usedAt, hd, units_append, units_cons, units_nil, List.append_nil]
    congr 2
    omega
  · rw [release_alone hpre]
    simp only [usedAt_append, usedAt]

theorem fine_free (h : 1 ≤ n) : Cell.Fine ⟨n, none⟩ := ⟨h, nofun⟩

theorem fine_used {req : ℕ} (h : req + 8 ≤ 8 * n) : Cell.Fine ⟨n, some req⟩ := by
  refine ⟨by simp only; omega, ?_⟩
  rintro _ ⟨⟩
  exact h

theorem Tidy.release (h : Tidy (pre ++ c :: post)) : Tidy (release pre c post) := by
  obtain ⟨hpre, hpost, -⟩ := List.isChain_append.mp h.apart
  have hpost' := (List.isChain_cons.mp hpost).2
  obtain ⟨hfine, hfinec⟩ := List.forall_mem_append.mp h.fine
  obtain ⟨hc, hfine'⟩ := List.forall_mem_cons.mp hfinec
  have hpos := hc.pos.trans (@le_joinUp c.size post)
  have hrow : ∀ n, Apart (⟨n, none⟩ :: (joinUp c.size post).2) := fun n =>
    List.isChain_cons.mpr ⟨fun d hd => .inr (head_joinUp hpost' d hd), isChain_joinUp hpost'⟩
  have hrest : ∀ e ∈ (joinUp c.size post).2, e.Fine := fun e he => hfine' e (mem_joinUp he)
  rcases release_cases pre with ⟨pre', d, rfl, hd⟩ | hlast
  · rw [release_joined hd]
    obtain ⟨hpre', -, hseam⟩ := List.isChain_append.mp hpre
    refine ⟨List.forall_mem_append.mpr ⟨(List.forall_mem_append.mp hfine).1,
      List.forall_mem_cons.mpr ⟨fine_free (by omega), hrest⟩⟩,
      List.isChain_append.mpr ⟨hpre', hrow _, fun x hx y hy => .inl ?_⟩⟩
    exact (hseam x hx d rfl).resolve_right (not_not_intro hd)
  · rw [release_alone hlast]
    exact ⟨List.forall_mem_append.mpr ⟨hfine, List.forall_mem_cons.mpr ⟨fine_free hpos, hrest⟩⟩,
      List.isChain_append.mpr ⟨hpre, hrow _, fun x hx y hy => .inl (hlast x hx)⟩⟩

end

/-! ## Cells that are taken -/

/-- The last `n` units of a cell are taken for a request of `req` bytes. -/
def carve (pre : List Cell) (c : Cell) (post : List Cell) (n req : ℕ) : List Cell :=
  if c.size = n then pre ++ ⟨n, some req⟩ :: post
  else pre ++ ⟨c.size - n, none⟩ :: ⟨n, some req⟩ :: post

section

variable {a n req : ℕ} {c : Cell} {cs pre post : List Cell}

theorem usedAt_carve (hn : n ≤ c.size) : usedAt a (carve pre c post n req) =
    usedAt a pre ++ (a + 8 * (units pre + (c.size - n)) + 8, req) ::
      usedAt (a + 8 * units pre + 8 * c.size) post := by
  unfold carve
  split_ifs with heq
  · simp only [usedAt_append, usedAt, heq, Nat.sub_self, Nat.add_zero]
  · simp only [usedAt_append, usedAt]
    congr 3
    · omega
    · omega

theorem mem_cellsAt_carve : (a + 8 * (units pre + (c.size - n)), n) ∈ cellsAt a (carve pre c post n req) := by
  unfold carve
  split_ifs with heq
  · simp [cellsAt, heq]
  · simp [cellsAt, Nat.mul_add, Nat.add_assoc]

theorem Tidy.carve (h : Tidy (pre ++ c :: post)) (hc : c.owner = none) (hn : n ≤ c.size)
    (hroom : req + 8 ≤ 8 * n) : Tidy (carve pre c post n req) := by
  obtain ⟨hpre, hpost, hseam⟩ := List.isChain_append.mp h.apart
  obtain ⟨hfine, hfinec⟩ := List.forall_mem_append.mp h.fine
  have hused : Apart (⟨n, some req⟩ :: post) :=
    List.isChain_cons.mpr ⟨fun d _ => .inl nofun, (List.isChain_cons.mp hpost).2⟩
  have hfine' : ∀ e ∈ (⟨n, some req⟩ :: post : List Cell), e.Fine :=
    List.forall_mem_cons.mpr ⟨fine_used hroom, (List.forall_mem_cons.mp hfinec).2⟩
  unfold Umalloc.carve
  split_ifs with heq
  · refine ⟨List.forall_mem_append.mpr ⟨hfine, hfine'⟩, List.isChain_append.mpr ⟨hpre, hused, ?_⟩⟩
    rintro x - _ ⟨⟩
    exact .inr nofun
  · refine ⟨List.forall_mem_append.mpr ⟨hfine, List.forall_mem_cons.mpr ⟨fine_free (by omega), hfine'⟩⟩,
      List.isChain_append.mpr ⟨hpre, List.isChain_cons.mpr ⟨?_, hused⟩, ?_⟩⟩
    · rintro _ ⟨⟩
      exact .inr nofun
    · rintro x hx _ ⟨⟩
      exact .inl ((hseam x hx c rfl).resolve_right (not_not_intro hc))

/-- A cell in use is added at the end. -/
theorem Tidy.extend (h : Tidy cs) (hpos : 1 ≤ n) : Tidy (cs ++ [⟨n, some 0⟩]) := by
  refine ⟨List.forall_mem_append.mpr ⟨h.fine, ?_⟩,
    List.isChain_append.mpr ⟨h.apart, List.isChain_singleton _, ?_⟩⟩
  · rw [List.forall_mem_singleton]
    exact fine_used (by omega)
  · rintro x - _ ⟨⟩
    exact .inr nofun

end

end Xv6.Umalloc
