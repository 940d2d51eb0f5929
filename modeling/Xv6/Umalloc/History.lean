import Xv6.Umalloc.Search

/-!
# All histories of a heap

A program calls `malloc` and `free` in any order, frees only blocks that it has, and writes into its
blocks. The free list stays in order, and free blocks and blocks in use fill the memory that has been
obtained.
-/

namespace Xv6.Umalloc

open Lib Exec

/-- A program: its heap, and the pointers that it has, with the numbers of bytes asked for. -/
structure World where
  heap : Heap
  live : List (ℕ × ℕ)

/-- A request whose size in whole units, with the header, is a positive `int`. -/
def Fits (nbytes : ℕ) : Prop := ((nbytes + HEADER - 1) / HEADER + 1) * HEADER < 2 ^ 31

instance (nbytes : ℕ) : Decidable (Fits nbytes) := inferInstanceAs (Decidable (_ < _))

/-- Memory changes inside blocks of the program at most. -/
def World.Writes (w : World) (mem : ℕ → Header) : Prop :=
  ∀ x, (∀ b ∈ w.live, x < b.1 ∨ b.1 + b.2 ≤ x) → mem x = w.heap.mem x

inductive Step (base : ℕ) (w : World) : World → Prop where
  | malloc {nbytes ap : ℕ} {s : Heap} (hfits : Fits nbytes) (hrun : malloc base nbytes w.heap = .ok (some ap) s) :
      Step base w ⟨s, (ap, nbytes) :: w.live⟩
  | refused {nbytes : ℕ} {s : Heap} (hfits : Fits nbytes) (hrun : malloc base nbytes w.heap = .ok none s) :
      Step base w ⟨s, w.live⟩
  | free {b : ℕ × ℕ} {s : Heap} (hlive : b ∈ w.live) (hrun : free b.1 w.heap = .ok ⟨⟩ s) :
      Step base w ⟨s, w.live.erase b⟩
  | write {mem : ℕ → Header} (hwrites : w.Writes mem) : Step base w ⟨{ w.heap with mem := mem }, w.live⟩

/-- The worlds that a program with `base` below its heap may come to. -/
inductive Reachable (base start : ℕ) : World → Prop where
  | init {s : Heap} (h : Fresh base start s) : Reachable base start ⟨s, []⟩
  | step {w w' : World} (h : Reachable base start w) (hstep : Step base w w') : Reachable base start w'

/-! ## The heap of a world -/

/-- A block by its address: where it begins, and its number of bytes. -/
def Heap.block (s : Heap) (a : ℕ) : ℕ × ℕ := (a, 8 * (s.mem a).size)

/-- All blocks, when the free ones are those of the list. -/
def World.blocks (w : World) (l : List ℕ) : List (ℕ × ℕ) :=
  l.map w.heap.block ++ w.live.map fun b => w.heap.block (b.1 - HEADER)

def Separate (b c : ℕ × ℕ) : Prop := b.1 + b.2 ≤ c.1 ∨ c.1 + c.2 ≤ b.1

/-- The free blocks are those of the list. -/
structure WellFormed (base start : ℕ) (w : World) (l : List ℕ) : Prop where
  circle : Circle (fun a => (w.heap.mem a).ptr) base l
  freep : w.heap.freep ∈ base :: l
  increasing : (base :: l).Pairwise (· < ·)
  apart : ∀ a ∈ l, ∀ b ∈ l, a + 8 * (w.heap.mem a).size ≠ b
  disjoint : (w.blocks l).Pairwise Separate
  tile : ∀ x, start ≤ x ∧ x < w.heap.brk ↔ ∃ b ∈ w.blocks l, b.1 ≤ x ∧ x < b.1 + b.2
  room : ∀ b ∈ w.live, b.2 + HEADER ≤ 8 * (w.heap.mem (b.1 - HEADER)).size

/-! ## Cells and blocks -/

section

variable {a start x : ℕ} {cs : List Cell} {f : ℕ → ℕ}

/-- The cells of a row are the free ones and those in use. -/
theorem perm_cellsAt (hf : ∀ x ∈ cellsAt a cs, f x.1 = x.2) :
    (cellsAt a cs).Perm ((freeAt a cs).map (fun x => (x, f x)) ++
      (usedAt a cs).map fun b => (b.1 - 8, f (b.1 - 8))) := by
  induction cs generalizing a with
  | nil => exact .nil
  | cons c cs ih =>
    have hrest := ih (a := a + 8 * c.size) fun x hx => hf x (List.mem_cons_of_mem _ hx)
    have hsize : f a = c.size := hf (a, c.size) List.mem_cons_self
    rw [cellsAt, freeAt, usedAt]
    cases hc : c.owner with
    | none =>
      rw [if_pos rfl, List.map_cons, hsize]
      exact hrest.cons _
    | some n =>
      rw [if_neg (by simp), List.map_cons, Nat.add_sub_cancel, hsize]
      exact (hrest.cons _).trans List.perm_middle.symm

theorem disjoint_cellsAt : (cellsAt a cs).Pairwise fun b c => b.1 + 8 * b.2 ≤ c.1 := by
  induction cs generalizing a with
  | nil => exact .nil
  | cons c cs ih =>
    refine List.pairwise_cons.mpr ⟨fun x hx => ?_, ih⟩
    obtain ⟨pre, d, post, rfl, rfl⟩ := mem_cellsAt.mp hx
    exact Nat.le_add_right _ _

theorem tile_cellsAt : a ≤ x ∧ x < a + 8 * units cs ↔ ∃ b ∈ cellsAt a cs, b.1 ≤ x ∧ x < b.1 + 8 * b.2 := by
  induction cs generalizing a with
  | nil =>
    simp only [units_nil, cellsAt, List.not_mem_nil, false_and, exists_false, iff_false]
    omega
  | cons c cs ih =>
    simp only [cellsAt, List.mem_cons, or_and_right, exists_or, exists_eq_left, ← ih, units_cons]
    omega

/-- Free cells are not next to each other. -/
theorem Apart.freeAt (h : Apart cs) (hfine : ∀ c ∈ cs, c.Fine) (hf : ∀ x ∈ cellsAt a cs, f x.1 = x.2) {y : ℕ}
    (hx : x ∈ freeAt a cs) (hy : y ∈ freeAt a cs) : x + 8 * f x ≠ y := by
  obtain ⟨pre, c, post, rfl, hc, rfl⟩ := mem_freeAt.mp hx
  have hsize : f (a + 8 * units pre) = c.size := hf (_, c.size) (by simp [cellsAt])
  obtain ⟨hpre, hcpost⟩ := List.forall_mem_append.mp hfine
  rintro rfl
  rw [hsize, freeAt_append, Umalloc.freeAt, if_pos hc] at hy
  have hcpos := (hfine c (by simp)).pos
  rcases List.mem_append.mp hy with hy | hy
  · have := (bounds_freeAt hpre hy).2
    omega
  rcases List.mem_cons.mp hy with hy | hy
  · omega
  -- the cell right behind is in use, and the next one is further away
  cases post with
  | nil => cases hy
  | cons d post =>
    have hd : d.owner ≠ none :=
      ((List.isChain_cons_cons.mp (List.isChain_append.mp h).2.1).1).resolve_left (not_not_intro hc)
    have hdpos := (hfine d (by simp)).pos
    rw [Umalloc.freeAt, if_neg hd] at hy
    have := (bounds_freeAt (fun e he => hfine e (by simp [he])) hy).1
    omega

/-- A cell is in front of a given one, is that one, or comes behind it. -/
theorem outside_cellsAt {pre post : List Cell} {c : Cell} {b : ℕ × ℕ} (hfine : ∀ c ∈ pre, c.Fine)
    (hb : b ∈ cellsAt start (pre ++ c :: post)) :
    b.1 ≤ start + 8 * units pre ∨ start + 8 * units pre + 8 * c.size ≤ b.1 := by
  rw [cellsAt_append, cellsAt] at hb
  rcases List.mem_append.mp hb with hb | hb
  · have := bounds_cellsAt hfine hb
    omega
  rcases List.mem_cons.mp hb with rfl | hb
  · exact .inl le_rfl
  · obtain ⟨pre', d, post', rfl, rfl⟩ := mem_cellsAt.mp hb
    exact .inr (Nat.le_add_right _ _)

end

/-! ## What every step preserves -/

/-- The blocks of the program are the cells in use. -/
def Inv (base start : ℕ) (w : World) : Prop :=
  ∃ cs, Kept base start w.heap cs ∧ (usedAt start cs).Perm w.live

section

variable {base start nbytes : ℕ} {w w' : World} {s s' : Heap} {b : ℕ × ℕ} {cs : List Cell} {l : List ℕ}

theorem Kept.formed_of_mem {c : Cell} (h : Kept base start s cs) (hc : c ∈ cs) : Formed base start s cs := by
  cases h with
  | fresh _ => cases hc
  | formed h => exact h

/-- Only the headers of the cells and `base` matter. -/
theorem Formed.congr (h : Formed base start s cs) (hbase : s'.mem base = s.mem base)
    (hcells : ∀ x ∈ cellsAt start cs, s'.mem x.1 = s.mem x.1) (hfreep : s'.freep = s.freep) (hbrk : s'.brk = s.brk) :
    Formed base start s' cs := by
  refine ⟨h.circle.congr fun x hx => ?_, hbase ▸ h.zero, fun x hx => hcells x hx ▸ h.sized x hx, hfreep ▸ h.freep,
    hbrk ▸ h.brk, h.pos, h.below, hbrk ▸ h.limit, h.tidy⟩
  rcases List.mem_cons.mp hx with rfl | hx
  · rw [hbase]
  · obtain ⟨pre, c, post, rfl, -, rfl⟩ := mem_freeAt.mp hx
    rw [hcells (_, c.size) (by simp [cellsAt])]

/-- Headers are outside the blocks of the program. -/
theorem Formed.outside (h : Formed base start s cs) (hb : b ∈ usedAt start cs) {x : ℕ}
    (hx : x = base ∨ ∃ d ∈ cellsAt start cs, x = d.1) : x < b.1 ∨ b.1 + b.2 ≤ x := by
  obtain ⟨pre, c, post, rfl, hc, hb1⟩ := mem_usedAt.mp hb
  have hroom := (h.tidy.fine c (by simp)).room b.2 hc
  have hbelow := h.below
  rcases hx with rfl | ⟨d, hd, rfl⟩
  · omega
  · have := outside_cellsAt (List.forall_mem_append.mp h.tidy.fine).1 hd
    omega

theorem Inv.malloc (h : Inv base start w) (hfits : Fits nbytes) :
    wp (fun _ => False) (malloc base nbytes)
      (fun r s => Inv base start ⟨s, (r.map fun ap => (ap, nbytes)).toList ++ w.live⟩) w.heap := by
  obtain ⟨cs, hkept, hlive⟩ := h
  exact wp_malloc hkept hfits (fun s' hs' _ => ⟨cs, .formed hs', hlive⟩)
    fun ap s' cs' hs' hused _ => ⟨cs', .formed hs', hused.trans (hlive.cons _)⟩

theorem Inv.free (h : Inv base start w) (hb : b ∈ w.live) :
    wp (fun _ => False) (free b.1) (fun _ s => Inv base start ⟨s, w.live.erase b⟩) w.heap := by
  obtain ⟨cs, hkept, hlive⟩ := h
  obtain ⟨pre, c, post, rfl, hc, hb1⟩ := mem_usedAt.mp (hlive.mem_iff.mpr hb)
  have hformed := hkept.formed_of_mem (c := c) (by simp)
  refine wp_free hformed (by simp [hc]) hb1 fun s' hs' _ _ _ => ⟨_, .formed hs', ?_⟩
  rw [usedAt_append, usedAt, hc, ← hb1] at hlive
  rw [usedAt_release]
  exact (List.perm_cons b).mp (List.perm_middle.symm.trans (hlive.trans (List.perm_cons_erase hb)))

theorem Inv.write (h : Inv base start w) {mem : ℕ → Header} (hwrites : w.Writes mem) :
    Inv base start ⟨{ w.heap with mem := mem }, w.live⟩ := by
  obtain ⟨cs, hkept, hlive⟩ := h
  refine ⟨cs, ?_, hlive⟩
  cases hkept with
  | fresh h => exact .fresh ⟨h.freep, h.brk, h.pos, h.below, h.limit⟩
  | formed h =>
    refine .formed (h.congr (hwrites base fun b hb => ?_) (fun x hx => hwrites x.1 fun b hb => ?_) rfl rfl)
    · exact h.outside (hlive.mem_iff.mpr hb) (.inl rfl)
    · exact h.outside (hlive.mem_iff.mpr hb) (.inr ⟨x, hx, rfl⟩)

theorem Inv.step (h : Inv base start w) (hstep : Step base w w') : Inv base start w' := by
  cases hstep with
  | malloc hfits hrun => exact wp_ok (h.malloc hfits) hrun
  | refused hfits hrun => exact wp_ok (h.malloc hfits) hrun
  | free hlive hrun => exact wp_ok (h.free hlive) hrun
  | write hwrites => exact h.write hwrites

theorem Reachable.inv (h : Reachable base start w) : Inv base start w := by
  induction h with
  | init h => exact ⟨[], .fresh h, .nil⟩
  | step _ hstep ih => exact ih.step hstep

/-! ## What the invariant says of memory -/

theorem Formed.perm_blocks (h : Formed base start w.heap cs) (hlive : (usedAt start cs).Perm w.live) :
    (w.blocks (freeAt start cs)).Perm ((cellsAt start cs).map fun b => (b.1, 8 * b.2)) := by
  have hcells := (perm_cellsAt (f := fun a => (w.heap.mem a).size) h.sized).map fun b => (b.1, 8 * b.2)
  rw [List.map_append, List.map_map, List.map_map] at hcells
  exact (hcells.trans ((hlive.map _).append_left _)).symm

theorem Formed.wellFormed (h : Formed base start w.heap cs) (hlive : (usedAt start cs).Perm w.live) :
    WellFormed base start w (freeAt start cs) := by
  have hblocks := h.perm_blocks hlive
  refine ⟨h.circle, h.freep, h.sorted, fun a ha b hb => ?_, ?_, fun x => ?_, fun b hb => ?_⟩
  · exact h.tidy.apart.freeAt (f := fun a => (w.heap.mem a).size) h.tidy.fine h.sized ha hb
  · refine (hblocks.pairwise_iff fun hbc => Or.symm hbc).mpr ?_
    exact List.pairwise_map.mpr (disjoint_cellsAt.imp .inl)
  · rw [h.brk, tile_cellsAt]
    simp only [hblocks.mem_iff, List.mem_map]
    constructor
    · rintro ⟨b, hb, hin⟩
      exact ⟨_, ⟨b, hb, rfl⟩, hin⟩
    · rintro ⟨_, ⟨b, hb, rfl⟩, hin⟩
      exact ⟨b, hb, hin⟩
  · obtain ⟨pre, c, post, rfl, hc, hb1⟩ := mem_usedAt.mp (hlive.mem_iff.mpr hb)
    have hsize : (w.heap.mem (b.1 - HEADER)).size = c.size := by
      rw [hb1, Nat.add_sub_cancel]
      exact h.sized (_, c.size) (by simp [cellsAt])
    rw [hsize]
    exact (h.tidy.fine c (by simp)).room b.2 hc

/-- In every history the heap is well formed, and every further call returns. -/
theorem heap_wellFormed (h : Reachable base start w) :
    ((Fresh base start w.heap ∧ w.live = []) ∨ ∃ l, WellFormed base start w l) ∧
      (∀ nbytes, Fits nbytes → ∃ r s, malloc base nbytes w.heap = .ok r s) ∧
      ∀ b ∈ w.live, ∃ s, free b.1 w.heap = .ok ⟨⟩ s := by
  have hinv := h.inv
  refine ⟨?_, fun nbytes hfits => ?_, fun b hb => ?_⟩
  · obtain ⟨cs, hkept, hlive⟩ := hinv
    cases hkept with
    | fresh h => exact .inl ⟨h, hlive.nil_eq.symm⟩
    | formed h => exact .inr ⟨_, h.wellFormed hlive⟩
  · obtain ⟨r, s, hrun, -⟩ := wp_returns (hinv.malloc hfits)
    exact ⟨r, s, hrun⟩
  · obtain ⟨_, s, hrun, -⟩ := wp_returns (hinv.free hb)
    exact ⟨s, hrun⟩

end

/-- A program that has called nothing yet and whose requests are all granted. -/
def fresh : Heap := ⟨fun _ => ⟨0, 0⟩, 0, 16, fun _ => true, []⟩

theorem fresh_fresh : Fresh 8 16 fresh := ⟨rfl, rfl, by decide, by decide, by decide⟩

/-- The pointer that a call returns, if it returns one. -/
def pointer : EStateM.Result Fault Heap (Option ℕ) → Option ℕ
  | .ok r _ => r
  | .error _ _ => none

theorem exists_of_pointer {s : Heap} {base nbytes ap : ℕ} (h : pointer (malloc base nbytes s) = some ap) :
    ∃ s', malloc base nbytes s = .ok (some ap) s' := by
  cases hrun : malloc base nbytes s with
  | ok r s' =>
    rw [hrun] at h
    exact ⟨s', by rw [show r = some ap from h]⟩
  | error e s' =>
    rw [hrun] at h
    cases h

theorem malloc_fresh : ∃ s, malloc 8 1 fresh = .ok (some 32776) s := exists_of_pointer (by decide +kernel)

theorem heap_wellFormed_one : ∃ w, (Reachable 8 16 w ∧ w.live = [(32776, 1)]) ∧
    (Fresh 8 16 w.heap ∧ w.live = [] ∨ ∃ l, WellFormed 8 16 w l) := by
  obtain ⟨s, hs⟩ := malloc_fresh
  have hreach : Reachable 8 16 ⟨s, [(32776, 1)]⟩ := .step (.init fresh_fresh) (.malloc (by decide) hs)
  exact ⟨_, ⟨hreach, rfl⟩, (heap_wellFormed hreach).1⟩

end Xv6.Umalloc
