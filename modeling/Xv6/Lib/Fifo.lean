import Mathlib.Data.Nat.ModEq

/-!
# Ring buffers with free-running counters

A ring buffer of `N` places that is addressed through two counters of `k` bits, of which one counts
the elements put in and the other those taken out. The counters wrap around, and an element's place
is its counter modulo `N`; this is sound because `N` divides `2 ^ k`.
-/

namespace Xv6.Lib

variable {α : Type} {k N : ℕ}

/-- The ring buffer holds the elements `u`, oldest first. -/
structure Queued (N : ℕ) (data : ℕ → α) (r w : BitVec k) (u : List α) : Prop where
  length_le : u.length ≤ N
  counter : w = r + BitVec.ofNat k u.length
  get : ∀ j (h : j < u.length), data ((r + BitVec.ofNat k j).toNat % N) = u[j]

/-- The place of the element `j` counts on. -/
theorem place_add (hN : N ∣ 2 ^ k) (r : BitVec k) (j : ℕ) :
    (r + BitVec.ofNat k j).toNat % N = (r.toNat + j) % N := by
  simp [BitVec.toNat_add, Nat.mod_mod_of_dvd _ hN]

namespace Queued

variable {data : ℕ → α} {r w : BitVec k} {u : List α}

theorem nil (hr : r = w) : Queued N data r w [] where
  length_le := Nat.zero_le N
  counter := by simp [hr]
  get j h := absurd h (Nat.not_lt_zero j)

/-- The number of elements is the difference of the counters. -/
theorem count (h : Queued N data r w u) (hk : N < 2 ^ k) : (w - r).toNat = u.length := by
  have hu := Nat.lt_of_le_of_lt h.length_le hk
  rw [h.counter, BitVec.add_comm, BitVec.add_sub_cancel, BitVec.toNat_ofNat, Nat.mod_eq_of_lt hu]

theorem empty_iff (h : Queued N data r w u) (hk : N < 2 ^ k) : r = w ↔ u = [] := by
  rw [← List.length_eq_zero_iff, ← h.count hk]
  constructor
  · rintro rfl
    simp
  · intro h0
    have hw : w - r = 0#k := BitVec.eq_of_toNat_eq (by simpa using h0)
    rw [← BitVec.sub_add_cancel w r, hw, BitVec.zero_add]

theorem full_iff (h : Queued N data r w u) (hk : N < 2 ^ k) : w = r + BitVec.ofNat k N ↔ u.length = N := by
  constructor
  · rintro rfl
    rw [← h.count hk, BitVec.add_comm, BitVec.add_sub_cancel, BitVec.toNat_ofNat,
      Nat.mod_eq_of_lt hk]
  · intro hu
    rw [h.counter, hu]

/-- Put an element in. -/
theorem push (h : Queued N data r w u) (hN : N ∣ 2 ^ k) (hu : u.length < N) (x : α) :
    Queued N (Function.update data (w.toNat % N) x) r (w + 1) (u ++ [x]) where
  length_le := by
    rw [List.length_append]
    exact hu
  counter := by simp [h.counter, BitVec.ofNat_add, BitVec.add_assoc]
  get j hj := by
    have hw : w.toNat % N = (r.toNat + u.length) % N := by rw [h.counter, place_add hN]
    rw [place_add hN, hw]
    rcases Nat.lt_or_ge j u.length with hlt | hge
    · have hne : (r.toNat + j) % N ≠ (r.toNat + u.length) % N := by
        intro heq
        have := Nat.ModEq.add_left_cancel' _ heq
        rw [Nat.ModEq, Nat.mod_eq_of_lt (hlt.trans hu), Nat.mod_eq_of_lt hu] at this
        omega
      rw [Function.update_of_ne hne, ← place_add hN, h.get j hlt, List.getElem_append_left hlt]
    · have hj' : j = u.length := by
        rw [List.length_append, List.length_singleton] at hj
        omega
      subst hj'
      rw [Function.update_self, List.getElem_append_right (Nat.le_refl _)]
      simp

/-- Take the oldest element out. -/
theorem pop {x : α} (h : Queued N data r w (x :: u)) :
    data (r.toNat % N) = x ∧ Queued N data (r + 1) w u where
  left := by simpa using h.get 0 (Nat.zero_lt_succ _)
  right :=
    { length_le := Nat.le_of_succ_le h.length_le
      counter := by
        rw [h.counter, List.length_cons, BitVec.ofNat_add, BitVec.add_assoc, BitVec.add_comm 1]
        rfl
      get := fun j hj => by
        have := h.get (j + 1) (Nat.succ_lt_succ hj)
        rwa [BitVec.ofNat_add, BitVec.add_comm (BitVec.ofNat k j), ← BitVec.add_assoc] at this }

/-- Take the newest element back. -/
theorem unpush {x : α} (h : Queued N data r w (u ++ [x])) : Queued N data r (w - 1) u where
  length_le := by
    have := h.length_le
    rw [List.length_append] at this
    omega
  counter := by
    rw [h.counter, List.length_append, BitVec.ofNat_add, ← BitVec.add_assoc]
    exact BitVec.add_sub_cancel _ _
  get j hj := by
    have := h.get j (by rw [List.length_append]; omega)
    rwa [List.getElem_append_left hj] at this

/-- The newest element. -/
theorem last {x : α} (h : Queued N data r w (u ++ [x])) : data ((w - 1).toNat % N) = x := by
  have hget := h.get u.length (by simp)
  rw [h.unpush.counter]
  simpa using hget

/-- The older and the newer elements. -/
theorem split {v : List α} {m : BitVec k} (h : Queued N data r w (u ++ v))
    (hm : m = r + BitVec.ofNat k u.length) : Queued N data r m u ∧ Queued N data m w v where
  left :=
    { length_le := by
        have := h.length_le
        rw [List.length_append] at this
        omega
      counter := hm
      get := fun j hj => by
        have := h.get j (by rw [List.length_append]; omega)
        rwa [List.getElem_append_left hj] at this }
  right :=
    { length_le := by
        have := h.length_le
        rw [List.length_append] at this
        omega
      counter := by rw [h.counter, hm, List.length_append, BitVec.ofNat_add, BitVec.add_assoc]
      get := fun j hj => by
        have := h.get (u.length + j) (by rw [List.length_append]; omega)
        rw [BitVec.ofNat_add, ← BitVec.add_assoc, ← hm] at this
        rw [this, List.getElem_append_right (Nat.le_add_right _ _)]
        simp }

end Queued

end Xv6.Lib
