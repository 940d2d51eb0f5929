import Mathlib.Order.Nat

/-!
# Finite maps in tables of slots

A table is a row of slots, each of which is free or binds a key to a value. A key is looked up from the first
slot on; a new key goes to a free slot or to a new slot at the end; a key is removed by freeing its slot. As
long as no two slots bind one key, the table is a finite map.
-/

namespace Xv6.Lib.Slots

open Function (update update_self update_of_ne)

variable {K V : Type} {e : ℕ → Option (K × V)}

/-- No two of the first `n` slots bind one key. -/
def Distinct (e : ℕ → Option (K × V)) (n : ℕ) : Prop :=
  ∀ j < n, ∀ l < n, ∀ k v w, e j = some (k, v) → e l = some (k, w) → j = l

theorem Distinct.erase {n j : ℕ} (hd : Distinct e n) : Distinct (update e j none) n := by
  intro a ha b hb k' w w' hea heb
  have hkeep : ∀ {l : ℕ} {u : V}, update e j none l = some (k', u) → e l = some (k', u) := by
    intro l u hl
    by_cases hlj : l = j
    · rw [hlj, update_self] at hl
      cases hl
    · rwa [update_of_ne hlj] at hl
  exact hd a ha b hb k' w w' (hkeep hea) (hkeep heb)

/-- The first free slot of the `m` slots from `j` on, or the slot that follows them. -/
def gap (e : ℕ → Option (K × V)) : ℕ → ℕ → ℕ
  | 0, j => j
  | m + 1, j => if (e j).isNone then j else gap e m (j + 1)

theorem gap_spec {m j : ℕ} : j ≤ gap e m j ∧ gap e m j ≤ j + m ∧ (gap e m j < j + m → e (gap e m j) = none) := by
  induction m generalizing j with
  | zero => exact ⟨le_rfl, le_rfl, fun h => absurd h (lt_irrefl j)⟩
  | succ m ih =>
    rw [gap]
    split_ifs with hfree
    · exact ⟨le_rfl, by omega, fun _ => Option.isNone_iff_eq_none.1 hfree⟩
    · obtain ⟨hlo, hhi, hnone⟩ := @ih (j + 1)
      exact ⟨by omega, by omega, fun h => hnone (by omega)⟩

theorem gap_lt {m j l : ℕ} (hlo : j ≤ l) (hhi : l < j + m) (hl : e l = none) : gap e m j < j + m := by
  induction m generalizing j with
  | zero => omega
  | succ m ih =>
    rw [gap]
    split_ifs with hfree
    · omega
    · rcases hlo.eq_or_lt with rfl | hlt
      · exact absurd (Option.isNone_iff_eq_none.2 hl) hfree
      · have := ih (j := j + 1) hlt (by omega)
        omega

variable [DecidableEq K]

/-- The first of the `m` slots from `j` on that binds `k`, and what it binds `k` to. -/
def scan (e : ℕ → Option (K × V)) (k : K) : ℕ → ℕ → Option (ℕ × V)
  | 0, _ => none
  | m + 1, j =>
    match e j with
    | none => scan e k m (j + 1)
    | some (k', v) => if k' = k then some (j, v) else scan e k m (j + 1)

/-- The slot among the first `n` that binds `k`, and what it binds `k` to. -/
def find (e : ℕ → Option (K × V)) (n : ℕ) (k : K) : Option (ℕ × V) := scan e k n 0

section

variable {e : ℕ → Option (K × V)} {k : K} {v : V} {n m j l : ℕ}

theorem scan_succ (h : ∀ v, e j ≠ some (k, v)) : scan e k (m + 1) j = scan e k m (j + 1) := by
  rw [scan]
  split
  next => rfl
  next k' v he =>
    rw [if_neg]
    rintro rfl
    exact h v he

theorem scan_hit (h : e j = some (k, v)) : scan e k (m + 1) j = some (j, v) := by
  rw [scan, h]
  exact if_pos rfl

theorem scan_eq_some (h : scan e k m j = some (l, v)) : j ≤ l ∧ l < j + m ∧ e l = some (k, v) := by
  induction m generalizing j with
  | zero => cases h
  | succ m ih =>
    by_cases hit : ∃ w, e j = some (k, w)
    · obtain ⟨w, hw⟩ := hit
      rw [scan_hit hw] at h
      obtain ⟨rfl, rfl⟩ := Prod.mk.inj (Option.some.inj h)
      exact ⟨le_rfl, by omega, hw⟩
    · rw [scan_succ (not_exists.1 hit)] at h
      obtain ⟨hlo, hhi, he⟩ := ih h
      exact ⟨by omega, by omega, he⟩

theorem scan_ne_none (hlo : j ≤ l) (hhi : l < j + m) (he : e l = some (k, v)) : scan e k m j ≠ none := by
  induction m generalizing j with
  | zero => omega
  | succ m ih =>
    by_cases hit : ∃ w, e j = some (k, w)
    · obtain ⟨w, hw⟩ := hit
      rw [scan_hit hw]
      exact Option.some_ne_none _
    · rw [scan_succ (not_exists.1 hit)]
      rcases hlo.eq_or_lt with rfl | hlt
      · exact absurd ⟨v, he⟩ hit
      · exact ih hlt (by omega)

theorem find_eq_none_iff : find e n k = none ↔ ∀ j < n, ∀ v, e j ≠ some (k, v) := by
  constructor
  · intro h j hj v he
    exact scan_ne_none (Nat.zero_le j) (by omega) he h
  · intro h
    by_contra hne
    obtain ⟨⟨l, v⟩, hl⟩ := Option.ne_none_iff_exists'.1 hne
    obtain ⟨-, hlt, he⟩ := scan_eq_some hl
    exact h l (by omega) v he

theorem find_eq_some_iff (hd : Distinct e n) : find e n k = some (j, v) ↔ j < n ∧ e j = some (k, v) := by
  constructor
  · intro h
    obtain ⟨-, hlt, he⟩ := scan_eq_some h
    exact ⟨by omega, he⟩
  · rintro ⟨hj, he⟩
    have hne : find e n k ≠ none := fun hnone => find_eq_none_iff.1 hnone j hj v he
    obtain ⟨⟨l, w⟩, hl⟩ := Option.ne_none_iff_exists'.1 hne
    obtain ⟨-, hlt, he'⟩ := scan_eq_some hl
    -- the first slot that binds `k` is the only one
    obtain rfl : j = l := hd j hj l (by omega) k v w he he'
    rw [he] at he'
    obtain ⟨-, rfl⟩ := Prod.mk.inj (Option.some.inj he')
    exact hl

/-- Two tables with the same bindings are the same map. -/
theorem find_congr {e' : ℕ → Option (K × V)} {n' : ℕ} {k' : K} (hd : Distinct e n) (hd' : Distinct e' n')
    (h : ∀ j v, (j < n ∧ e j = some (k, v)) ↔ (j < n' ∧ e' j = some (k', v))) : find e n k = find e' n' k' := by
  refine Option.ext fun r => ?_
  obtain ⟨j, v⟩ := r
  rw [find_eq_some_iff hd, find_eq_some_iff hd', h]

theorem Distinct.insert (hd : Distinct e n) (hk : find e n k = none) (hj : j ≤ n) :
    Distinct (update e j (some (k, v))) (max n (j + 1)) := by
  have hnone := find_eq_none_iff.1 hk
  intro a ha b hb k' w w' hea heb
  by_cases haj : a = j <;> by_cases hbj : b = j
  · rw [haj, hbj]
  · rw [haj, update_self] at hea
    obtain ⟨rfl, -⟩ := Prod.mk.inj (Option.some.inj hea)
    rw [update_of_ne hbj] at heb
    exact absurd heb (hnone b (by omega) w')
  · rw [hbj, update_self] at heb
    obtain ⟨rfl, -⟩ := Prod.mk.inj (Option.some.inj heb)
    rw [update_of_ne haj] at hea
    exact absurd hea (hnone a (by omega) w)
  · rw [update_of_ne haj] at hea
    rw [update_of_ne hbj] at heb
    exact hd a (by omega) b (by omega) k' w w' hea heb

/-- A new key in a free slot, or in a new slot at the end. -/
theorem find_insert (hd : Distinct e n) (hk : find e n k = none) (hj : j ≤ n) (hfree : j < n → e j = none) :
    find (update e j (some (k, v))) (max n (j + 1)) = update (find e n) k (some (j, v)) := by
  have hd' : Distinct (update e j (some (k, v))) (max n (j + 1)) := hd.insert hk hj
  funext k'
  rcases eq_or_ne k' k with rfl | hkk
  · rw [update_self, find_eq_some_iff hd', update_self]
    exact ⟨by omega, rfl⟩
  · rw [update_of_ne hkk]
    refine find_congr hd' hd fun l w => ?_
    rcases eq_or_ne l j with rfl | hl
    · rw [update_self]
      constructor
      · rintro ⟨-, he⟩
        exact absurd (Prod.mk.inj (Option.some.inj he)).1.symm hkk
      · rintro ⟨hln, he⟩
        rw [hfree hln] at he
        cases he
    · rw [update_of_ne hl]
      have hlt : l < max n (j + 1) ↔ l < n := by omega
      rw [hlt]

/-- A slot is freed. -/
theorem find_erase (hd : Distinct e n) (hk : find e n k = some (j, v)) :
    find (update e j none) n = update (find e n) k none := by
  obtain ⟨hj, he⟩ := (find_eq_some_iff hd).1 hk
  funext k'
  rcases eq_or_ne k' k with rfl | hkk
  · rw [update_self, find_eq_none_iff]
    intro l hl w hw
    by_cases hlj : l = j
    · rw [hlj, update_self] at hw
      cases hw
    · rw [update_of_ne hlj] at hw
      exact hlj (hd l hl j hj k' w v hw he)
  · rw [update_of_ne hkk]
    refine find_congr hd.erase hd fun l w => ?_
    rcases eq_or_ne l j with rfl | hlj
    · rw [update_self, he]
      constructor
      · rintro ⟨-, h⟩
        cases h
      · rintro ⟨-, h⟩
        exact absurd (Prod.mk.inj (Option.some.inj h)).1.symm hkk
    · rw [update_of_ne hlj]

end

end Xv6.Lib.Slots
