import Xv6.Vm.Outline
import Xv6.Vm.SpaceRules

/-!
# `copyout`

What a user reaches through the page tables, and the rule for `copyout`: the bytes it has copied are
where the user sees them, and nothing else has changed.
-/

namespace Xv6.Vm

open Lib Exec

/-- The page that a user reaches through an entry. -/
def reached (e : Option ℕ) : Option ℕ := (e.filter fun w => present w && user w).map frame

/-- The page that a user reaches at page `i` of an address space. -/
def Phys.reach (s : Phys) (r i : ℕ) : Option ℕ := reached (s.entry r i)

theorem reached_eq_some {e : Option ℕ} {x : ℕ} :
    reached e = some x ↔ ∃ w, e = some w ∧ present w = true ∧ user w = true ∧ frame w = x := by
  cases e with
  | none => simp [reached]
  | some w => simp [reached, Option.filter_eq_some_iff, and_assoc]

section

variable {ι κ : Type} {K : Image} {E : Fault → Prop} {s s' : Phys} {ρ : Roots ι κ}
  {ω : ℕ → Option (Place ι κ)} {g : ι} {r : ℕ} {P : Plan}

theorem uint_lt {a : ℕ} : uint a < 2 ^ 32 := Nat.mod_lt _ (by decide)

theorem div_page_lt {va : ℕ} (hva : va < 2 ^ 32) : va / PGSIZE < 2 ^ 20 := by
  simp only [PGSIZE]
  omega

/-- The state `s'` after code that has written to user pages of `g`. -/
structure Wrote (K : Image) (ρ : Roots ι κ) (g : ι) (r : ℕ) (s : Phys) (ω : ℕ → Option (Place ι κ))
    (s' : Phys) (P : Plan) : Prop where
  inv : Inv K s' ρ ω
  others : Others s s' ρ g
  steady : Steady (· ≠ g) s s' ω ω
  sees : Sees s' r P

theorem Wrote.refl (h : Inv K s ρ ω) (hP : Sees s r P) : Wrote K ρ g r s ω s P := ⟨h, .refl, .refl, hP⟩

theorem Wrote.trans {s'' : Phys} (h : Wrote K ρ g r s ω s' P) (h' : Wrote K ρ g r s' ω s'' P) :
    Wrote K ρ g r s ω s'' P :=
  ⟨h'.inv, h.others.trans h'.others, h.steady.trans h'.steady, h'.sees⟩

theorem Wrote.changed (h : Wrote K ρ g r s ω s' P) : Changed K ρ g s ω P s' ω P :=
  ⟨h.inv, .refl, h.others, h.steady⟩

/-- A page that is mapped for the user may be overwritten. -/
theorem Inv.write {i w : ℕ} (h : Inv K s ρ ω) (hr : ρ.dir g = some r) (hP : Sees s r P)
    (hi : i < 2 ^ 19) (hentry : P.entry i = some w) (hp : present w = true) (bs : Bytes) :
    Wrote K ρ g r s ω (s.setPage (frame w) bs) P := by
  have hplace : ω (frame w) = some (.page g i) := by
    refine (h.place _ (.page g i)).mp ((at_page_iff hr hi).mpr ?_)
    rw [Phys.mapped, ← hP.entry i (by omega), hentry]
    simp [hp]
  have hsame := h.setPage_same (x := frame w) (by simp [hplace]) (by simp [hplace]) bs
  refine ⟨h.same hsame rfl, hsame.others, steady_setPage fun g' j hg' hpl => ?_, hsame.sees hr rfl hP⟩
  exact hg' (Place.page.inj (Option.some.inj (hpl.symm.trans hplace))).1

/-! ## What the user reaches -/

/-- What a user reaches is a page of the user part. -/
theorem Inv.reach_place (h : Inv K s ρ ω) (hr : ρ.dir g = some r) {i x : ℕ} (hi : i < 2 ^ 20)
    (hx : s.reach r i = some x) : i < 2 ^ 19 ∧ ω x = some (.page g i) := by
  obtain ⟨w, hw, hp, hu, rfl⟩ := reached_eq_some.mp hx
  have hlow : i < 2 ^ 19 := by
    by_contra hge
    have := h.kernel g r i w hr (not_lt.mp hge) hi hw
    rw [hu] at this
    cases this
  refine ⟨hlow, (h.place _ _).mp ((at_page_iff hr hlow).mpr ?_)⟩
  rw [Phys.mapped, hw]
  simp [hp]

theorem Inv.reach_inj (h : Inv K s ρ ω) (hr : ρ.dir g = some r) {i j x : ℕ} (hi : i < 2 ^ 20)
    (hj : j < 2 ^ 20) (hx : s.reach r i = some x) (hx' : s.reach r j = some x) : i = j := by
  have hpl := (h.reach_place hr hi hx).2.symm.trans (h.reach_place hr hj hx').2
  exact (Place.page.inj (Option.some.inj hpl)).2

/-! ## Copying -/

/-- The first `n` bytes of `bs` have been copied to the address `va` of the user, and nothing else has
changed. -/
structure Copied (s s' : Phys) (r va : ℕ) (bs : List UInt8) (n : ℕ) : Prop where
  dest : ∀ k < n, ∃ x, s.reach r ((va + k) / PGSIZE) = some x ∧
    bs[k]? = some (s'.mem x ((va + k) % PGSIZE))
  rest : ∀ x o, (∀ k < n, s.reach r ((va + k) / PGSIZE) = some x → (va + k) % PGSIZE ≠ o) →
    s'.mem x o = s.mem x o
  free : s'.free = s.free
  grant : s'.grant = s.grant

section

variable {s₁ : Phys} {va m n : ℕ} {bs : List UInt8}

theorem copied_nothing : Copied s s r va bs 0 where
  dest _ hk := absurd hk (Nat.not_lt_zero _)
  rest _ _ _ := rfl
  free := rfl
  grant := rfl

theorem Copied.eq_of_nothing (h : Copied s s' r va bs 0) : s' = s := by
  have hmem : s'.mem = s.mem := by
    funext x o
    exact h.rest x o fun k hk => absurd hk (Nat.not_lt_zero k)
  obtain ⟨_, _, _⟩ := s
  obtain ⟨_, _, _⟩ := s'
  simp only [Phys.mk.injEq]
  exact ⟨hmem, h.free, h.grant⟩

theorem Copied.append (h : Copied s s₁ r va bs m) (h' : Copied s₁ s' r (va + m) (bs.drop m) n)
    (hn : va + (m + n) ≤ 2 ^ 32) (hreach : ∀ i < 2 ^ 20, s₁.reach r i = s.reach r i)
    (hinj : ∀ i j x, i < 2 ^ 20 → j < 2 ^ 20 → s.reach r i = some x → s.reach r j = some x → i = j) :
    Copied s s' r va bs (m + n) where
  dest k hk := by
    by_cases hkm : k < m
    · obtain ⟨x, hx, hbyte⟩ := h.dest k hkm
      refine ⟨x, hx, hbyte.trans (congrArg some ?_)⟩
      -- the second copy does not come back to this byte
      refine (h'.rest x _ fun k' hk' hx' heq => ?_).symm
      rw [hreach _ (by simp only [PGSIZE]; omega)] at hx'
      have := hinj _ _ x (by simp only [PGSIZE]; omega) (by simp only [PGSIZE]; omega) hx hx'
      simp only [PGSIZE] at this heq
      omega
    · obtain ⟨k', rfl⟩ : ∃ k', k = m + k' := ⟨k - m, by omega⟩
      obtain ⟨x, hx, hbyte⟩ := h'.dest k' (by omega)
      rw [Nat.add_assoc] at hx hbyte
      rw [hreach _ (by simp only [PGSIZE]; omega)] at hx
      rw [List.getElem?_drop] at hbyte
      exact ⟨x, hx, hbyte⟩
  rest x o hx := by
    refine (h'.rest x o fun k hk hx' => ?_).trans (h.rest x o fun k hk => hx k (by omega))
    rw [Nat.add_assoc] at hx' ⊢
    rw [hreach _ (by simp only [PGSIZE]; omega)] at hx'
    exact hx (m + k) (by omega) hx'
  free := h'.free.trans h.free
  grant := h'.grant.trans h.grant

/-- One round of the loop of `copyout`: as much as fits on the page. -/
theorem copied_chunk {x : ℕ} (hx : s.reach r (va / PGSIZE) = some x) :
    Copied s (s.setPage x ((s.mem x).write (va % PGSIZE) (bs.take (PGSIZE - va % PGSIZE)))) r va bs
      (min (PGSIZE - va % PGSIZE) bs.length) := by
  have hpage : ∀ k < min (PGSIZE - va % PGSIZE) bs.length,
      (va + k) / PGSIZE = va / PGSIZE ∧ (va + k) % PGSIZE = va % PGSIZE + k := by
    intro k hk
    simp only [PGSIZE] at hk ⊢
    omega
  refine ⟨fun k hk => ⟨x, by rw [(hpage k hk).1, hx], ?_⟩, fun y o hy => ?_, rfl, rfl⟩
  · have hlen : k < (bs.take (PGSIZE - va % PGSIZE)).length := by rwa [List.length_take]
    rw [(hpage k hk).2, Phys.setPage_mem, Function.update_self, Bytes.write_of_mem hlen,
      List.getD_eq_getElem?_getD, List.getElem?_take_of_lt (by omega),
      List.getElem?_eq_getElem (by omega)]
    rfl
  · rcases eq_or_ne y x with rfl | hyx
    · rw [Phys.setPage_mem, Function.update_self]
      refine Bytes.write_of_not_mem ?_
      rw [List.length_take]
      by_contra hin
      obtain ⟨k, rfl⟩ : ∃ k, o = va % PGSIZE + k := ⟨o - va % PGSIZE, by omega⟩
      have hk : k < min (PGSIZE - va % PGSIZE) bs.length := by omega
      exact hy k hk (by rw [(hpage k hk).1, hx]) (hpage k hk).2
    · exact congrFun (Function.update_of_ne hyx _ _) o

end

/-- How `copyout` ends: all has been copied, or a part of it, up to a page which the user does not
reach. -/
def CopyEnds (s s' : Phys) (r va : ℕ) (bs : List UInt8) (b : Bool) : Prop :=
  if b then Copied s s' r va bs bs.length ∧ va + bs.length ≤ 2 ^ 32
  else ∃ n < bs.length, Copied s s' r va bs n ∧ va + n < 2 ^ 32 ∧
    s.table r ((va + n) / PGSIZE / 1024) ≠ none ∧ s.reach r ((va + n) / PGSIZE) = none

/-- A round of the loop, and what comes after it. -/
theorem CopyEnds.chunk {s₁ : Phys} {va m : ℕ} {bs : List UInt8} {b : Bool} (hm : va + m ≤ 2 ^ 32)
    (hchunk : Copied s s₁ r va bs (min m bs.length)) (hends : CopyEnds s₁ s' r (va + m) (bs.drop m) b)
    (hentry : ∀ i < 2 ^ 20, s₁.entry r i = s.entry r i) (htable : ∀ d < 1024, s₁.table r d = s.table r d)
    (hinj : ∀ i j x, i < 2 ^ 20 → j < 2 ^ 20 → s.reach r i = some x → s.reach r j = some x → i = j) :
    CopyEnds s s' r va bs b := by
  have hreach : ∀ i < 2 ^ 20, s₁.reach r i = s.reach r i := fun i hi => by
    rw [Phys.reach, hentry i hi, Phys.reach]
  unfold CopyEnds at hends ⊢
  by_cases hlen : bs.length ≤ m
  · -- this was the last round
    rw [List.drop_eq_nil_of_le hlen] at hends
    cases b with
    | false =>
      obtain ⟨n, hn, -⟩ := hends
      exact absurd hn (Nat.not_lt_zero n)
    | true =>
      obtain rfl := hends.1.eq_of_nothing
      rw [min_eq_right hlen] at hchunk
      exact ⟨hchunk, by omega⟩
  · rw [min_eq_left (by omega)] at hchunk
    rw [List.length_drop] at hends
    cases b with
    | false =>
      obtain ⟨n, hn, hcopied, hlt, ht, hr⟩ := hends
      rw [Nat.add_assoc] at hlt ht hr
      rw [htable _ (by simp only [PGSIZE]; omega)] at ht
      rw [hreach _ (by simp only [PGSIZE]; omega)] at hr
      exact ⟨m + n, by omega, hchunk.append hcopied (by omega) hreach hinj, hlt, ht, hr⟩
    | true =>
      obtain ⟨hcopied, hle⟩ := hends
      have hsum : m + (bs.length - m) = bs.length := by omega
      have hall := hchunk.append hcopied (by omega) hreach hinj
      rw [hsum] at hall
      exact ⟨hall, by omega⟩

theorem wp_copyoutFrom {Q : Bool → Phys → Prop} (hr : ρ.dir g = some r) (fuel : ℕ) {va : ℕ}
    {bs : List UInt8} (h : Inv K s ρ ω) (hP : Sees s r P) (hva : va < 2 ^ 32)
    (hfuel : bs.length ≤ fuel) (hE : P.copyout fuel va bs.length = none → E .null)
    (hQ : ∀ (b : Bool) (s' : Phys), P.copyout fuel va bs.length = some b →
      Wrote K ρ g r s ω s' P → CopyEnds s s' r va bs b → Q b s') : wp E (copyoutFrom r fuel va bs) Q s := by
  induction fuel generalizing va bs s with
  | zero =>
    obtain rfl : bs = [] := List.eq_nil_of_length_eq_zero (by omega)
    exact hQ true s rfl (.refl h hP) ⟨copied_nothing, hva.le⟩
  | succ fuel ih =>
    cases bs with
    | nil => exact hQ true s rfl (.refl h hP) ⟨copied_nothing, hva.le⟩
    | cons b bs =>
      have hdown : PGROUNDDOWN va < 2 ^ 32 := lt_of_le_of_lt (Nat.div_mul_le_self va PGSIZE) hva
      have hpage : PGROUNDDOWN va / 4096 = va / PGSIZE := Nat.mul_div_cancel _ (by decide)
      have hi : va / PGSIZE < 2 ^ 20 := div_page_lt hva
      have hmod : va - PGROUNDDOWN va = va % PGSIZE := by
        simp only [PGROUNDDOWN, PGSIZE]
        omega
      rw [copyoutFrom, uva2ka]
      rw [List.length_cons, Plan.copyout] at hE hQ
      simp only [wp_bind]
      refine wp_walkpgdir_find hdown ?_
      rw [hpage]
      have hentry := hP.entry (va / PGSIZE) hi
      cases ht : s.table r (va / PGSIZE / 1024) with
      | none =>
        rw [Phys.entry, ht, Option.map_none] at hentry
        simp only [hentry] at hE
        exact hE trivial
      | some t =>
        rw [Phys.entry, ht] at hentry
        simp only [Option.map_some, load, wp_bind, wp_get, wp_pure] at hentry ⊢
        have hs : s.entry r (va / PGSIZE) = some ((s.mem t).word 4 (4 * (va / PGSIZE % 1024))) := by
          rw [Phys.entry, ht]
          rfl
        generalize (s.mem t).word 4 (4 * (va / PGSIZE % 1024)) = w at hentry hs ⊢
        simp only [hentry] at hE hQ
        -- the copy ends here if the user does not reach the page
        have hstop : (present w && user w) = false → CopyEnds s s r va (b :: bs) false := fun hbad =>
          ⟨0, Nat.succ_pos _, copied_nothing, hva, by simp [ht], by simp [Phys.reach, reached, hs, Option.filter, hbad]⟩
        by_cases hp : present w = true
        · by_cases hu : user w = true
          · rw [if_pos (by simp [hp, hu])] at hE hQ
            simp only [hp, hu, not_true_eq_false, if_false, wp_pure, wp_bind, wp_modify, hmod]
            have hreach : s.reach r (va / PGSIZE) = some (frame w) :=
              reached_eq_some.mpr ⟨w, hs, hp, hu, rfl⟩
            obtain ⟨hlow, hplace⟩ := h.reach_place hr hi hreach
            have hwrite := h.write hr hP hlow hentry hp
              ((s.mem (frame w)).write (va % PGSIZE) ((b :: bs).take (PGSIZE - va % PGSIZE)))
            have hchunk := @copied_chunk s r va (b :: bs) (frame w) hreach
            have hlen : ((b :: bs).drop (PGSIZE - va % PGSIZE)).length =
                bs.length + 1 - (PGSIZE - va % PGSIZE) := by
              rw [List.length_drop, List.length_cons]
            rw [← hlen] at hE hQ
            have hnext : uint (PGROUNDDOWN va + PGSIZE) = va + (PGSIZE - va % PGSIZE) := by
              simp only [uint, PGROUNDDOWN, PGSIZE] at hlow ⊢
              omega
            have hpos : 0 < PGSIZE - va % PGSIZE := by
              simp only [PGSIZE]
              omega
            refine ih hwrite.inv hwrite.sees uint_lt ?_ hE fun b' s' heq h' hends =>
              hQ b' s' heq (hwrite.trans h') ?_
            · rw [List.length_cons] at hfuel
              omega
            · rw [hnext] at hends
              refine .chunk ?_ hchunk hends (fun i hi => ?_) (fun d hd => ?_) fun i j x hi hj =>
                h.reach_inj hr hi hj
              · simp only [PGSIZE] at hlow ⊢
                omega
              · rw [← hwrite.sees.entry i hi, hP.entry i hi]
              · refine table_setPage fun hxr => ?_
                rw [hxr, h.dir_place hr] at hplace
                cases hplace
          · rw [if_neg (by simp [hu])] at hQ
            simp only [hp, hu, Bool.false_eq_true, not_true_eq_false, not_false_eq_true, if_false, if_true,
              wp_pure]
            exact hQ false s rfl (.refl h hP) (hstop (by simp [hu]))
        · rw [if_neg (by simp [hp])] at hQ
          simp only [hp, Bool.false_eq_true, not_false_eq_true, if_true, wp_pure]
          exact hQ false s rfl (.refl h hP) (hstop (by simp [hp]))

end

end Xv6.Vm
