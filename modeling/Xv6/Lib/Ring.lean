import Mathlib.Data.List.Nodup
import Mathlib.Logic.Function.Basic

/-!
# Circular doubly linked lists

`Links P` are the `next` and `prev` fields of the nodes `P`. `IsRing L h l` says that following
`next` from the head node `h` visits exactly the nodes of `l`, in order, and comes back to `h`, and
that `prev` is the way back. `unlink` and `pushFront` are the usual pointer surgery, one field
assignment after the other; each keeps the ring and changes the list it stands for as expected.
-/

namespace Xv6.Lib

/-- The link fields of a set of nodes. -/
structure Links (P : Type) where
  next : P → P
  prev : P → P

namespace Links

variable {P : Type} [DecidableEq P]

/-- `b->next->prev = b->prev; b->prev->next = b->next;` -/
def unlink (L : Links P) (b : P) : Links P :=
  let L := { L with prev := Function.update L.prev (L.next b) (L.prev b) }
  { L with next := Function.update L.next (L.prev b) (L.next b) }

/-- `b->next = h->next; b->prev = h; h->next->prev = b; h->next = b;` -/
def pushFront (L : Links P) (h b : P) : Links P :=
  let L := { L with next := Function.update L.next b (L.next h) }
  let L := { L with prev := Function.update L.prev b h }
  let L := { L with prev := Function.update L.prev (L.next h) b }
  { L with next := Function.update L.next h b }

/-- The nodes visited by following `step` from `x` until the node `h`, at most `n` of them. -/
def walk (step : P → P) (h : P) : ℕ → P → List P
  | 0, _ => []
  | n + 1, x => if x = h then [] else x :: walk step h n (step x)

/-- `b` follows `a`, seen from both sides. -/
def Adj (L : Links P) (a b : P) : Prop := L.next a = b ∧ L.prev b = a

/-- The nodes strictly between `a` and `c` are `xs`, in order. -/
def Path (L : Links P) : P → List P → P → Prop
  | a, [], c => L.Adj a c
  | a, x :: xs, c => L.Adj a x ∧ L.Path x xs c

/-- The ring through the head `h` has the nodes `l`, each once. -/
structure IsRing (L : Links P) (h : P) (l : List P) : Prop where
  nodup : (h :: l).Nodup
  path : L.Path h l h

variable {L M : Links P} {a b c h : P} {l xs ys : List P}

section

omit [DecidableEq P]

theorem path_append : L.Path a (xs ++ b :: ys) c ↔ L.Path a xs b ∧ L.Path b ys c := by
  induction xs generalizing a with
  | nil => exact Iff.rfl
  | cons x xs ih => simp only [List.cons_append, Path, ih, and_assoc]

/-- A path only depends on the `next` fields of its sources and the `prev` fields of its targets. -/
theorem Path.congr (h : L.Path a xs c) (hn : ∀ x ∈ a :: xs, M.next x = L.next x)
    (hp : ∀ x ∈ xs ++ [c], M.prev x = L.prev x) : M.Path a xs c := by
  induction xs generalizing a with
  | nil =>
    refine ⟨?_, ?_⟩
    · rw [hn a (by simp), h.1]
    · rw [hp c (by simp), h.2]
  | cons x xs ih =>
    obtain ⟨hx, hxs⟩ := h
    refine ⟨⟨?_, ?_⟩, ih hxs ?_ ?_⟩
    · rw [hn a (by simp), hx.1]
    · rw [hp x (by simp), hx.2]
    · exact fun y hy => hn y (List.mem_cons_of_mem _ hy)
    · exact fun y hy => hp y (by simp only [List.cons_append]; exact List.mem_cons_of_mem _ hy)

/-- An empty ring: the head points at itself. -/
theorem isRing_nil (hn : L.next h = h) (hp : L.prev h = h) : L.IsRing h [] :=
  ⟨by simp, hn, hp⟩

end

/-- Inserting a node that is not in the ring puts it right after the head. -/
theorem IsRing.pushFront (hr : L.IsRing h l) (hb : b ∉ h :: l) : (L.pushFront h b).IsRing h (b :: l) := by
  obtain ⟨hnd, hpath⟩ := hr
  have hbh : b ≠ h := fun e => hb (by simp [e])
  have hbl : b ∉ l := fun e => hb (by simp [e])
  refine ⟨?_, ?_⟩
  · simp only [List.nodup_cons, List.mem_cons, not_or] at hnd ⊢
    exact ⟨⟨hbh.symm, hnd.1⟩, hbl, hnd.2⟩
  -- the only old link that changes is the one leaving the head
  cases l with
  | nil =>
    have hn : L.next h = h := hpath.1
    refine ⟨⟨?_, ?_⟩, ?_, ?_⟩
    · simp [Links.pushFront]
    · simp [Links.pushFront, hn, hbh, hbh.symm]
    · simp [Links.pushFront, hn, hbh]
    · simp [Links.pushFront, hn, hbh.symm]
  | cons x xs =>
    obtain ⟨⟨hn, _⟩, hxs⟩ := hpath
    have hxh : x ≠ h := fun e => by simp [e] at hnd
    have hxb : x ≠ b := fun e => hbl (by simp [e])
    refine ⟨⟨?_, ?_⟩, ⟨?_, ?_⟩, hxs.congr ?_ ?_⟩
    · simp [Links.pushFront]
    · simp [Links.pushFront, hn, hbh.symm, hxb.symm]
    · simp [Links.pushFront, hn, hbh]
    · simp [Links.pushFront, hn, hbh.symm]
    · intro y hy
      have hyb : y ≠ b := fun e => hbl (e ▸ hy)
      have hyh : y ≠ h := fun e => by
        rw [List.nodup_cons] at hnd
        exact hnd.1 (e ▸ hy)
      simp [Links.pushFront, hyb, hyh]
    · intro y hy
      have hyb : y ≠ b := by
        rcases List.mem_append.mp hy with hy | hy
        · exact fun e => hbl (by rw [← e]; exact List.mem_cons_of_mem _ hy)
        · rw [List.mem_singleton] at hy
          exact hy ▸ hbh.symm
      have hyx : y ≠ x := by
        rcases List.mem_append.mp hy with hy | hy
        · intro e
          simp only [List.nodup_cons, List.mem_cons, not_or] at hnd
          exact hnd.2.1 (e ▸ hy)
        · rw [List.mem_singleton] at hy
          exact hy ▸ hxh.symm
      simp [Links.pushFront, hn, hyb, hyx, hbh.symm]

omit [DecidableEq P] in
theorem Path.prev_mem (hx : L.Path a xs b) : L.prev b ∈ a :: xs := by
  induction xs generalizing a with
  | nil => simp [hx.2]
  | cons x xs ih => exact List.mem_cons_of_mem _ (ih hx.2)

omit [DecidableEq P] in
theorem Path.next_mem (hy : L.Path b ys c) : L.next b ∈ ys ++ [c] := by
  cases ys with
  | nil => simp [hy.1]
  | cons y ys => simp [hy.1.1]

/-- `unlink` writes one `next` field, that of the node before `b`. -/
theorem unlink_next (hab : L.next b ≠ b) (x : P) :
    (L.unlink b).next x = if x = L.prev b then L.next b else L.next x := by
  simp only [unlink, Function.update_of_ne hab.symm, Function.update_apply]

/-- `unlink` writes one `prev` field, that of the node after `b`. -/
theorem unlink_prev (x : P) : (L.unlink b).prev x = if x = L.next b then L.prev b else L.prev x := by
  simp only [unlink, Function.update_apply]

/-- Closing the gap around `b` joins the path before it to the path after it. -/
theorem Path.unlink (hb : L.next b ≠ b) (hx : L.Path a xs b) (hy : L.Path b ys c)
    (hsrc : (a :: (xs ++ ys)).Nodup) (htgt : (xs ++ (ys ++ [c])).Nodup) :
    (L.unlink b).Path a (xs ++ ys) c := by
  induction xs generalizing a with
  | nil =>
    have hpa : L.prev b = a := hx.2
    cases ys with
    | nil =>
      have hnc : L.next b = c := hy.1
      refine ⟨?_, ?_⟩
      · rw [unlink_next hb, if_pos hpa.symm, hnc]
      · rw [unlink_prev, if_pos hnc.symm, hpa]
    | cons y ys =>
      obtain ⟨⟨hny, _⟩, hys⟩ := hy
      refine ⟨⟨?_, ?_⟩, hys.congr ?_ ?_⟩
      · rw [unlink_next hb, if_pos hpa.symm, hny]
      · rw [unlink_prev, if_pos hny.symm, hpa]
      · intro z hz
        rw [unlink_next hb, hpa, if_neg]
        rintro rfl
        simp only [List.nil_append, List.nodup_cons] at hsrc
        exact hsrc.1 hz
      · intro z hz
        rw [unlink_prev, hny, if_neg]
        rintro rfl
        simp only [List.nil_append, List.cons_append, List.nodup_cons] at htgt
        exact htgt.1 hz
  | cons x xs ih =>
    obtain ⟨hax, hxs⟩ := hx
    have hq := hxs.prev_mem
    have hr := hy.next_mem
    have hsrc' := List.nodup_cons.mp hsrc
    have htgt' := List.nodup_cons.mp htgt
    refine ⟨⟨?_, ?_⟩, ih hxs hsrc'.2 htgt'.2⟩
    · rw [unlink_next hb, if_neg, hax.1]
      intro e
      exact hsrc'.1 (e ▸ List.mem_append_left ys hq)
    · rw [unlink_prev, if_neg, hax.2]
      intro e
      exact htgt'.1 (e ▸ List.mem_append_right xs hr)

/-- Unlinking a node of the ring removes it from the list. -/
theorem IsRing.unlink (hr : L.IsRing h (xs ++ b :: ys)) : (L.unlink b).IsRing h (xs ++ ys) := by
  obtain ⟨hnd, hpath⟩ := hr
  have hperm : (h :: (xs ++ b :: ys)).Perm (b :: h :: (xs ++ ys)) :=
    (List.Perm.cons h List.perm_middle).trans (List.Perm.swap b h _)
  obtain ⟨hbn, hsrc⟩ := List.nodup_cons.mp (hperm.nodup_iff.mp hnd)
  rw [path_append] at hpath
  have htgt : (xs ++ (ys ++ [h])).Nodup := by
    rw [← List.append_assoc, (List.perm_append_singleton h (xs ++ ys)).nodup_iff]
    exact hsrc
  have hb : L.next b ≠ b := by
    intro e
    have hmem := hpath.2.next_mem
    rw [e] at hmem
    refine hbn ?_
    simp only [List.mem_append, List.mem_cons, List.not_mem_nil, or_false] at hmem ⊢
    tauto
  exact ⟨hsrc, Path.unlink hb hpath.1 hpath.2 hsrc htgt⟩

/-! ## Walking the ring -/

private theorem walk_path (hx : L.Path a xs h) (hh : h ∉ xs) {n : ℕ} (hn : xs.length ≤ n) :
    walk L.next h n (L.next a) = xs := by
  induction xs generalizing a n with
  | nil =>
    cases n with
    | zero => rfl
    | succ n => simp [walk, hx.1]
  | cons x xs ih =>
    obtain ⟨m, rfl⟩ : ∃ m, n = m + 1 := ⟨n - 1, by simp only [List.length_cons] at hn; omega⟩
    obtain ⟨⟨hax, _⟩, hxs⟩ := hx
    have hxh : x ≠ h := fun e => hh (by simp [e])
    rw [hax, walk, if_neg hxh, ih hxs (fun e => hh (List.mem_cons_of_mem _ e))]
    simpa using hn

/-- Following `next` from the head visits the nodes of the list in order. -/
theorem IsRing.walk_next (hr : L.IsRing h l) {n : ℕ} (hn : l.length ≤ n) : walk L.next h n (L.next h) = l :=
  walk_path hr.path (List.nodup_cons.mp hr.nodup).1 hn

omit [DecidableEq P] in
/-- Swapping the two link fields reverses every path. -/
theorem Path.reverse (hx : L.Path a xs c) : (Links.mk L.prev L.next).Path c xs.reverse a := by
  induction xs generalizing a with
  | nil => exact ⟨hx.2, hx.1⟩
  | cons x xs ih =>
    rw [List.reverse_cons, path_append]
    exact ⟨ih hx.2, hx.1.2, hx.1.1⟩

/-- Following `prev` from the head visits the nodes of the list backwards. -/
theorem IsRing.walk_prev (hr : L.IsRing h l) {n : ℕ} (hn : l.length ≤ n) :
    walk L.prev h n (L.prev h) = l.reverse := by
  have hh : h ∉ l.reverse := by simpa using (List.nodup_cons.mp hr.nodup).1
  exact walk_path hr.path.reverse hh (by simpa using hn)

end Links

end Xv6.Lib
