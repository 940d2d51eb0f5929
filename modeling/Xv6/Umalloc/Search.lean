import Xv6.Umalloc.Rules

/-!
# The search for a block

The loop of `malloc` goes round the free list until it finds a block that is large enough. If it comes
back to where it began, it asks for memory, and then the next round succeeds.
-/

namespace Xv6.Umalloc

open Lib Exec
open Function (update update_self update_of_ne)

open Vm (uint KERNBASE)

/-! ## Taking a block -/

section

variable {E : Fault → Prop} {s s' : Heap} {base start p prevp n : ℕ} {cs pre post : List Cell} {c : Cell} {A : List ℕ}
  {Q : Option ℕ → Heap → Prop}

/-- The element in front of a free cell on the list. -/
theorem Formed.spot_of_ptr (h : Formed base start s cs) (hprev : prevp ∈ base :: freeAt start cs)
    (hptr : (s.mem prevp).ptr = p) (hp : p ∈ freeAt start cs) :
    ∃ A pre c post, cs = pre ++ c :: post ∧ c.owner = none ∧ p = start + 8 * units pre ∧
      Spot base start pre A prevp := by
  obtain ⟨pre, c, post, rfl, hc, rfl⟩ := mem_freeAt.mp hp
  have hlist : base :: freeAt start (pre ++ c :: post) = (base :: freeAt start pre) ++
      (start + 8 * units pre) :: freeAt (start + 8 * units pre + 8 * c.size) post := by
    rw [freeAt_append, freeAt, if_pos hc, List.cons_append]
  obtain ⟨X, Y, hXY⟩ := List.append_of_mem hprev
  have hnext : (s.mem prevp).ptr = Y.headD base := h.circle.next_eq hXY
  rw [hptr] at hnext
  -- the cell is not `base`, so it comes right behind
  obtain ⟨Y, rfl⟩ : ∃ Y', Y = (start + 8 * units pre) :: Y' := by
    cases Y with
    | nil =>
      have := h.below
      rw [List.headD_nil] at hnext
      omega
    | cons y Y => exact ⟨Y, by rw [List.headD_cons] at hnext; rw [hnext]⟩
  have hsplit : base :: freeAt start pre = X ++ [prevp] := by
    have hnot := h.notMem hlist
    rw [List.mem_append, not_or] at hnot
    rw [hlist, List.append_cons X] at hXY
    exact ((List.append_cons_inj_of_notMem hnot.1 hnot.2).mp hXY).1
  refine ⟨X, pre, c, post, rfl, hc, rfl, hsplit, ?_⟩
  have hmem : prevp ∈ base :: freeAt start pre := by rw [hsplit]; simp
  have hbelow := h.below
  rcases List.mem_cons.mp hmem with rfl | hmem
  · omega
  · exact (bounds_freeAt (List.forall_mem_append.mp h.tidy.fine).1 hmem).2

/-- A free cell and the element in front of it. -/
theorem Spot.taken (hc : c.owner = none) (hspot : Spot base start pre A p) :
    base :: freeAt start (pre ++ c :: post) =
      A ++ p :: ([start + 8 * units pre] ++ freeAt (start + 8 * units pre + 8 * c.size) post) := by
  rw [freeAt_append, freeAt, if_pos hc, ← List.cons_append, hspot.list, List.append_assoc]
  rfl

/-- The cell is taken as a whole: it leaves the list. -/
theorem Formed.take_all {req : ℕ} (h : Formed base start s (pre ++ c :: post)) (hc : c.owner = none)
    (hspot : Spot base start pre A p) (hreq : req + 8 ≤ 8 * c.size) :
    Formed base start { s.put p ⟨(s.mem (start + 8 * units pre)).ptr, (s.mem p).size⟩ with freep := p }
      (carve pre c post c.size req) := by
  have hrow : carve pre c post c.size req = pre ++ ⟨c.size, some req⟩ :: post := if_pos rfl
  have hle := hspot.le
  have hlist : base :: freeAt start (pre ++ c :: post) = _ := hspot.taken hc
  have hlist' : base :: freeAt start (pre ++ ⟨c.size, some req⟩ :: post) =
      A ++ p :: ([] ++ freeAt (start + 8 * units pre + 8 * c.size) post) := hspot.split nofun
  have hsize : ∀ x, ((update s.mem p ⟨(s.mem (start + 8 * units pre)).ptr, (s.mem p).size⟩) x).size =
      (s.mem x).size := fun x => by
    by_cases hx : x = p
    · rw [hx, update_self]
    · rw [update_of_ne hx]
  have hnext : (s.mem (start + 8 * units pre)).ptr = _ :=
    h.circle.next_eq (A := A ++ [p]) (B := freeAt (start + 8 * units pre + 8 * c.size) post) (by rw [hlist]; simp)
  have hne : ∀ x ∈ A ++ freeAt (start + 8 * units pre + 8 * c.size) post, x ≠ p := by
    rintro x hx rfl
    refine h.notMem hlist ?_
    rcases List.mem_append.mp hx with hx | hx <;> simp [hx]
  rw [hrow]
  refine ⟨?_, (hsize base).trans h.zero, fun x hx => (hsize x.1).trans (h.sized x ?_), ?_, ?_, h.pos, h.below, h.limit,
    hrow ▸ h.tidy.carve hc le_rfl hreq⟩
  · refine h.circle.splice hlist hlist' (fun x hx => ?_) ?_
    · simp only [put_mem, update_of_ne (hne x hx)]
    · simp [Linked, hnext]
  · simpa [cellsAt] using hx
  · rw [hlist']
    simp
  · rw [put_brk, h.brk]
    simp

/-- The end of the cell is taken: the list stays as it is. -/
theorem Formed.take_end {req : ℕ} (h : Formed base start s (pre ++ c :: post)) (hc : c.owner = none)
    (hlt : n < c.size) (hreq : req + 8 ≤ 8 * n) (hp : p = start + 8 * units pre)
    (hprev : prevp ∈ base :: freeAt start (pre ++ c :: post)) {x : ℕ} :
    Formed base start { (s.put p ⟨(s.mem p).ptr, c.size - n⟩).put (p + 8 * (c.size - n)) ⟨x, n⟩ with freep := prevp }
      (carve pre c post n req) := by
  have hrow : carve pre c post n req = pre ++ ⟨c.size - n, none⟩ :: ⟨n, some req⟩ :: post :=
    if_neg (by omega)
  have hlist : freeAt start (pre ++ ⟨c.size - n, none⟩ :: ⟨n, some req⟩ :: post) = freeAt start (pre ++ c :: post) := by
    simp only [freeAt_append, freeAt, hc, if_true, reduceCtorEq, if_false]
    congr 3
    omega
  have hother : ∀ y, y ≠ p + 8 * (c.size - n) → y ≠ p →
      ((s.put p ⟨(s.mem p).ptr, c.size - n⟩).put (p + 8 * (c.size - n)) ⟨x, n⟩).mem y = s.mem y := by
    intro y hy hyp
    simp only [put_mem]
    rw [update_of_ne hy, update_of_ne hyp]
  have hself : ((s.put p ⟨(s.mem p).ptr, c.size - n⟩).put (p + 8 * (c.size - n)) ⟨x, n⟩).mem p =
      ⟨(s.mem p).ptr, c.size - n⟩ := by
    simp only [put_mem]
    rw [update_of_ne (by omega), update_self]
  have hbelow := h.below
  -- what is taken is not on the list
  have hout : ∀ y ∈ base :: freeAt start (pre ++ c :: post), y ≠ p + 8 * (c.size - n) := by
    intro y hy
    rw [freeAt_append, freeAt, if_pos hc, ← hp] at hy
    rcases List.mem_cons.mp hy with rfl | hy
    · omega
    rcases List.mem_append.mp hy with hy | hy
    · have := (bounds_freeAt (List.forall_mem_append.mp h.tidy.fine).1 hy).2
      omega
    rcases List.mem_cons.mp hy with rfl | hy
    · omega
    · have := (h.behind (hp ▸ hy)).1
      omega
  rw [hrow]
  refine ⟨?_, ?_, fun y hy => ?_, ?_, ?_, h.pos, h.below, h.limit, hrow ▸ h.tidy.carve hc hlt.le hreq⟩
  · rw [hlist]
    refine h.circle.congr fun y hy => ?_
    by_cases hyp : y = p
    · rw [hyp]
      exact (congrArg Header.ptr hself :)
    · exact congrArg Header.ptr (hother y (hout y hy) hyp)
  · exact (congrArg Header.size (hother base (by omega) (by omega))).trans h.zero
  · rw [cellsAt_append, cellsAt, cellsAt, ← hp] at hy
    rcases List.mem_append.mp hy with hy | hy
    · obtain ⟨hsize, hle⟩ := h.front hy
      exact (congrArg Header.size (hother y.1 (by omega) (by omega))).trans hsize
    rcases List.mem_cons.mp hy with rfl | hy
    · exact congrArg Header.size hself
    rcases List.mem_cons.mp hy with rfl | hy
    · simp only [put_mem, update_self]
    · have haddr : p + 8 * (c.size - n) + 8 * n = start + 8 * units pre + 8 * c.size := by omega
      obtain ⟨hsize, hge⟩ := h.back (haddr ▸ hy)
      exact (congrArg Header.size (hother y.1 (by omega) (by omega))).trans hsize
  · rw [hlist]
    exact hprev
  · rw [put_brk, put_brk, h.brk]
    simp only [units_append, units_cons]
    omega

theorem wp_take {Q : ℕ → Heap → Prop} (h : Formed base start s (pre ++ c :: post)) (hc : c.owner = none)
    (hp : p = start + 8 * units pre) (hspot : Spot base start pre A prevp) (hpos : 1 ≤ n) (hn : n ≤ c.size)
    (hQ : ∀ s', (∀ req, req + 8 ≤ 8 * n → Formed base start s' (carve pre c post n req)) → s'.brk = s.brk →
      s'.asked = s.asked → Q (start + 8 * (units pre + (c.size - n)) + 8) s') : wp E (take n prevp p) Q s := by
  obtain ⟨-, hle⟩ := h.size_pos
  have hple := hspot.le
  have hsize : (s.mem p).size = c.size := h.sized (p, c.size) (by simp [cellsAt, hp])
  have hlimit := h.limit
  have hplus : plus (p + 8 * (c.size - n)) 1 = start + 8 * (units pre + (c.size - n)) + 8 := by
    rw [plus_eq (by omega) hlimit]
    omega
  unfold take
  rw [wp_bind, wp_size (by omega), hsize]
  split_ifs with heq
  · rw [heq, Nat.sub_self, Nat.mul_zero, Nat.add_zero] at hplus
    subst heq
    rw [wp_bind, wp_ptr (by omega), wp_bind, wp_setPtr (by omega), wp_bind, wp_modify, wp_pure, hplus, hp]
    have := hQ _ (fun req hreq => h.take_all hc hspot hreq) rfl rfl
    rwa [Nat.sub_self] at this
  · have huint : uint (c.size + 2 ^ 32 - n) = c.size - n := by
      simp only [uint, KERNBASE] at hlimit ⊢
      omega
    have hadv : plus p (c.size - n) = p + 8 * (c.size - n) := plus_eq (by omega) hlimit
    have hmem : prevp ∈ base :: freeAt start (pre ++ c :: post) := by
      rw [hspot.taken hc]
      simp
    rw [wp_bind, wp_size (by omega), hsize, huint, wp_bind, wp_setSize (by omega), wp_bind,
      wp_size (s := s.put _ _) (by simp only [put_brk]; omega), put_mem, update_self]
    dsimp only
    rw [hadv, wp_bind, wp_setSize (s := s.put _ _) (by simp only [put_brk]; omega), wp_bind, wp_modify, wp_pure, hplus]
    exact hQ _ (fun req hreq => h.take_end hc (by omega) hreq hp hmem) rfl rfl

/-- A round of the loop of `malloc`. -/
theorem wp_mallocFrom_step {fuel : ℕ} (hp : p + 8 ≤ s.brk)
    (hfound : n ≤ (s.mem p).size → wp E (take n prevp p) (fun ap => Q (some ap)) s)
    (hmiss : (s.mem p).size < n → p = s.freep → wp E (do
      match ← morecore n with
      | none => pure none
      | some p => do mallocFrom n fuel p (← ptr p)) Q s)
    (hgo : (s.mem p).size < n → p ≠ s.freep → wp E (mallocFrom n fuel p (s.mem p).ptr) Q s) :
    wp E (mallocFrom n (fuel + 1) prevp p) Q s := by
  rw [mallocFrom, wp_bind, wp_size hp]
  split_ifs with hsize
  · rw [map_eq_pure_bind, wp_bind]
    exact hfound hsize
  · rw [wp_bind, wp_get]
    split_ifs with heq
    · exact hmiss (not_le.mp hsize) heq
    · rw [wp_bind, wp_ptr hp]
      exact hgo (not_le.mp hsize) heq

/-- The search of `malloc` ends at a block that is large enough, or it comes back to `freep` and all
blocks are too small. -/
theorem wp_tour {T : List ℕ} {fuel : ℕ}
    (hlinked : Linked (fun a => (s.mem a).ptr) (prevp :: T ++ [s.freep])) (hnot : s.freep ∉ T)
    (hbound : ∀ x ∈ s.freep :: T, x + 8 ≤ s.brk)
    (hfound : ∀ q ∈ prevp :: T, n ≤ (s.mem (s.mem q).ptr).size →
      wp E (take n q (s.mem q).ptr) (fun ap => Q (some ap)) s)
    (hmiss : (∀ x ∈ s.freep :: T, (s.mem x).size < n) → wp E (do
      match ← morecore n with
      | none => pure none
      | some p => do mallocFrom n fuel p (← ptr p)) Q s) :
    wp E (mallocFrom n (fuel + T.length + 1) prevp (s.mem prevp).ptr) Q s := by
  induction T generalizing prevp with
  | nil =>
    have hnext : (s.mem prevp).ptr = s.freep := (List.isChain_cons_cons.mp hlinked).1
    refine wp_mallocFrom_step (hnext ▸ hbound _ List.mem_cons_self) (hfound prevp List.mem_cons_self)
      (fun hlt _ => hmiss ?_) fun _ hne => absurd hnext hne
    rw [List.forall_mem_singleton, ← hnext]
    exact hlt
  | cons y T ih =>
    obtain ⟨hnext, hrest⟩ := List.isChain_cons_cons.mp hlinked
    have hnext' : (s.mem prevp).ptr = y := hnext
    refine wp_mallocFrom_step (hnext' ▸ hbound y (by simp)) (hfound prevp List.mem_cons_self)
      (fun _ heq => absurd (by simp [← heq, hnext']) hnot) fun hlt _ => ?_
    rw [hnext'] at hlt ⊢
    refine ih hrest (fun h => hnot (List.mem_cons_of_mem _ h)) (fun x hx => hbound x ?_)
      (fun q hq => hfound q (List.mem_cons_of_mem _ hq)) fun hsmall => hmiss fun x hx => ?_
    · rcases List.mem_cons.mp hx with rfl | hx <;> simp [*]
    · rcases List.mem_cons.mp hx with rfl | hx
      · exact hsmall _ List.mem_cons_self
      · rcases List.mem_cons.mp hx with rfl | hx
        · exact hlt
        · exact hsmall x (List.mem_cons_of_mem _ hx)

/-- `n` units of a free cell have been taken; `ap` is the address behind their header. -/
structure Took (base start n : ℕ) (cs : List Cell) (s : Heap) (ap : ℕ) (s' : Heap) : Prop where
  cell : ∃ pre c post, cs = pre ++ c :: post ∧ c.owner = none ∧ n ≤ c.size ∧
    ap = start + 8 * (units pre + (c.size - n)) + 8 ∧
    ∀ req, req + 8 ≤ 8 * n → Formed base start s' (carve pre c post n req)
  brk : s'.brk = s.brk
  asked : s'.asked = s.asked

/-- The next element of the free list. -/
theorem Formed.next_mem (h : Formed base start s cs) (hp : p ∈ base :: freeAt start cs) :
    (s.mem p).ptr ∈ base :: freeAt start cs := by
  obtain ⟨X, Y, hXY⟩ := List.append_of_mem hp
  have hnext : (s.mem p).ptr = Y.headD base := h.circle.next_eq hXY
  rw [hnext]
  cases Y with
  | nil => exact List.mem_cons_self
  | cons y Y =>
    rw [hXY]
    simp

/-- Once round the free list. -/
theorem wp_round {fuel : ℕ} (h : Formed base start s cs) (hpos : 1 ≤ n)
    (hfound : ∀ ap s', Took base start n cs s ap s' → Q (some ap) s')
    (hmiss : (∀ c ∈ cs, c.owner = none → c.size < n) → wp E (do
      match ← morecore n with
      | none => pure none
      | some p => do mallocFrom n fuel p (← ptr p)) Q s) :
    wp E (mallocFrom n (fuel + (freeAt start cs).length + 1) s.freep (s.mem s.freep).ptr) Q s := by
  obtain ⟨X, Y, hXY⟩ := List.append_of_mem h.freep
  have hmem : ∀ x, x ∈ s.freep :: (Y ++ X) ↔ x ∈ base :: freeAt start cs := by
    intro x
    rw [hXY]
    exact mem_rotate
  have hlen : (Y ++ X).length = (freeAt start cs).length := by
    have hsum := congrArg List.length hXY
    rw [List.length_cons, List.length_append, List.length_cons] at hsum
    rw [List.length_append]
    omega
  have hnot : s.freep ∉ Y ++ X := fun hin => h.notMem hXY (List.mem_append.mpr (List.mem_append.mp hin).symm)
  rw [← hlen]
  refine wp_tour (h.circle.rotate hXY) hnot (fun x hx => h.bound ((hmem x).mp hx)) (fun q hq hle => ?_)
    fun hsmall => hmiss fun c hc hfree => ?_
  · have hq' := (hmem q).mp hq
    -- `base` has size 0, so the block is one of the cells
    have hcell : (s.mem q).ptr ∈ freeAt start cs := by
      rcases List.mem_cons.mp (h.next_mem hq') with heq | hcell
      · rw [heq, h.zero] at hle
        omega
      · exact hcell
    obtain ⟨A, pre, c, post, rfl, hc, hp, hspot⟩ := h.spot_of_ptr hq' rfl hcell
    have hsize : (s.mem (s.mem q).ptr).size = c.size := by
      rw [hp]
      exact h.sized (_, c.size) (by simp [cellsAt])
    rw [hsize] at hle
    exact wp_take h hc hp hspot hpos hle fun s' hs' hbrk hasked =>
      hfound _ s' ⟨⟨pre, c, post, rfl, hc, hle, rfl, hs'⟩, hbrk, hasked⟩
  · obtain ⟨pre, post, rfl⟩ := List.append_of_mem hc
    have hsize : (s.mem (start + 8 * units pre)).size = c.size := h.sized (_, c.size) (by simp [cellsAt])
    rw [← hsize]
    exact hsmall _ ((hmem _).mpr (List.mem_cons_of_mem _ (mem_freeAt.mpr ⟨pre, c, post, rfl, hfree, rfl⟩)))

/-- A released cell makes the list longer by at most one. -/
theorem length_release {a : ℕ} : (freeAt a (release cs c [])).length ≤ (freeAt a cs).length + 1 := by
  rcases release_cases cs with ⟨pre, d, rfl, hd⟩ | hlast
  · simp [release_joined hd, joinUp, freeAt, hd]
  · simp [release_alone hlast, joinUp, freeAt]

theorem Formed.called {m : ℤ} (h : Formed base start s cs) : Formed base start (s.called m s.brk) cs :=
  ⟨h.circle, h.zero, h.sized, h.freep, h.brk, h.pos, h.below, h.limit, h.tidy⟩

/-- The loop of `malloc` for a number of units that fits in an `int` in bytes. -/
theorem wp_mallocFrom (h : Formed base start s cs) (hpos : 1 ≤ n) (hn : 8 * n < 2 ^ 31)
    (hfound : ∀ ap s', Took base start n cs s ap s' → Q (some ap) s')
    (hfail : (∀ c ∈ cs, c.owner = none → c.size < n) → ¬s.Grants (8 * atLeast n) →
      Q none (s.called (8 * atLeast n) s.brk))
    (hmore : (∀ c ∈ cs, c.owner = none → c.size < n) → s.Grants (8 * atLeast n) → ∀ s₁ ap s',
      s₁.asked = s.asked ++ [(8 * atLeast n : ℤ)] →
      Took base start n (release cs ⟨atLeast n, some 0⟩ []) s₁ ap s' → Q (some ap) s') :
    wp E (mallocFrom n s.spins s.freep (s.mem s.freep).ptr) Q s := by
  have hspins := h.length
  obtain ⟨fuel, hfuel⟩ : ∃ fuel, s.spins = fuel + (freeAt start cs).length + 1 :=
    ⟨s.spins - (freeAt start cs).length - 1, by omega⟩
  rw [hfuel]
  refine wp_round h hpos hfound fun hsmall => wp_bind.mpr ?_
  refine wp_morecore h hn (fun hg => hfail hsmall hg) fun hg s₁ h₁ hasked => ?_
  -- the second round finds the new memory
  have hlen := @length_release cs ⟨atLeast n, some 0⟩ start
  obtain ⟨fuel', hfuel'⟩ : ∃ fuel', fuel = fuel' + (freeAt start (release cs ⟨atLeast n, some 0⟩ [])).length + 1 :=
    ⟨fuel - (freeAt start (release cs ⟨atLeast n, some 0⟩ [])).length - 1, by omega⟩
  dsimp only
  rw [wp_bind, wp_ptr (h₁.bound h₁.freep), hfuel']
  refine wp_round h₁ hpos (fun ap s' htook => hmore hsmall hg s₁ ap s' hasked htook) fun hsmall' => ?_
  obtain ⟨d, hd, hfree, hsize⟩ := exists_release cs ⟨atLeast n, some 0⟩ []
  have hlarge : n ≤ atLeast n := by
    unfold atLeast
    split_ifs <;> omega
  exact absurd (hsmall' d hd hfree) (not_lt.mpr (hlarge.trans hsize))

end

/-! ## The whole call -/

/-- The heap of a program before its first call. -/
structure Fresh (base start : ℕ) (s : Heap) : Prop where
  freep : s.freep = 0
  brk : s.brk = start
  pos : 0 < base
  below : base + 8 ≤ start
  limit : start < KERNBASE

/-- A heap that the functions have left behind: memory is the row of cells, and the free list is set up
unless there has been no call. -/
inductive Kept (base start : ℕ) (s : Heap) : List Cell → Prop where
  | fresh (h : Fresh base start s) : Kept base start s []
  | formed {cs : List Cell} (h : Formed base start s cs) : Kept base start s cs

section

variable {E : Fault → Prop} {s s' : Heap} {base start ap n req : ℕ} {cs : List Cell}

/-- The list of a fresh heap is `base` alone. -/
theorem Fresh.formed (h : Fresh base start s) (hptr : (s'.mem base).ptr = base) (hsize : (s'.mem base).size = 0)
    (hfreep : s'.freep = base) (hbrk : s'.brk = s.brk) : Formed base start s' [] := by
  refine ⟨?_, hsize, nofun, by simp [hfreep], by simp [hbrk, h.brk], h.pos, h.below, by rw [hbrk, h.brk]; exact h.limit,
    ⟨nofun, .nil⟩⟩
  simp [Lib.Circle, freeAt, Linked, hptr]

/-- A list that has been set up is not taken for a new one. -/
theorem Formed.freep_ne (h : Formed base start s cs) : s.freep ≠ 0 := by
  have hpos := h.pos
  have hbelow := h.below
  rcases List.mem_cons.mp h.freep with heq | hmem
  · omega
  · have := (bounds_freeAt h.tidy.fine hmem).1
    omega

theorem wp_setup {Q : PUnit → Heap → Prop} (h : Kept base start s cs)
    (hQ : ∀ s', Formed base start s' cs → s'.brk = s.brk → s'.grant = s.grant → s'.asked = s.asked → Q ⟨⟩ s') :
    wp E (setup base) Q s := by
  unfold setup
  rw [wp_bind, wp_get]
  cases h with
  | fresh h =>
    have hbase : base + 8 ≤ s.brk := h.brk ▸ h.below
    rw [if_pos h.freep, wp_bind, wp_modify, wp_bind, wp_setPtr (s := { s with freep := base }) hbase,
      wp_setSize (s := Heap.put { s with freep := base } _ _) hbase, put_put]
    refine hQ _ (h.formed ?_ ?_ rfl rfl) rfl rfl rfl <;> simp
  | formed h =>
    rw [if_neg h.freep_ne, wp_pure]
    exact hQ s h rfl rfl rfl

/-- The block that has been taken is one more block in use. -/
theorem Took.used (h : Took base start n cs s ap s') (hreq : req + 8 ≤ 8 * n) :
    ∃ cs', Formed base start s' cs' ∧ (usedAt start cs').Perm ((ap, req) :: usedAt start cs) := by
  obtain ⟨pre, c, post, rfl, hc, hle, rfl, hformed⟩ := h.cell
  refine ⟨_, hformed req hreq, ?_⟩
  rw [usedAt_carve hle, usedAt_append, usedAt, hc]
  exact List.perm_middle

/-- The header of the block that has been taken. -/
theorem Took.size (h : Took base start n cs s ap s') (hn : 1 ≤ n) : (s'.mem (ap - 8)).size = n := by
  obtain ⟨pre, c, post, rfl, hc, hle, rfl, hformed⟩ := h.cell
  rw [Nat.add_sub_cancel]
  exact (hformed 0 (by omega)).sized (_, n) mem_cellsAt_carve

/-- `malloc` for a request that is rounded up without overflow. -/
theorem wp_malloc {Q : Option ℕ → Heap → Prop} (h : Kept base start s cs) (hreq : ((req + 7) / 8 + 1) * 8 < 2 ^ 31)
    (hfail : ∀ s', Formed base start s' cs → (∃ m : ℕ, 0 < m ∧ s'.asked = s.asked ++ [(m : ℤ)]) → Q none s')
    (hok : ∀ ap s' cs', Formed base start s' cs' → (usedAt start cs').Perm ((ap, req) :: usedAt start cs) →
      (s'.asked = s.asked ∨ ∃ m : ℕ, 0 < m ∧ s'.asked = s.asked ++ [(m : ℤ)]) → Q (some ap) s') :
    wp E (malloc base req) Q s := by
  have hunits : units32 req = (req + 7) / 8 + 1 := by
    simp only [units32, uint, HEADER]
    omega
  have hroom : req + 8 ≤ 8 * ((req + 7) / 8 + 1) := by omega
  unfold malloc
  refine wp_bind.mpr (wp_setup h fun s₀ h₀ hbrk hgrant hasked => ?_)
  rw [wp_bind, wp_get, wp_bind, wp_ptr (h₀.bound h₀.freep), hunits]
  have hmost : 0 < 8 * atLeast ((req + 7) / 8 + 1) := by
    unfold atLeast
    split_ifs <;> omega
  refine wp_mallocFrom h₀ (by omega) (by omega) (fun ap s' htook => ?_) (fun _ _ => ?_)
    fun _ _ s₁ ap s' hasked₁ htook => ?_
  · obtain ⟨cs', hs', hused⟩ := htook.used hroom
    exact hok ap s' cs' hs' hused (.inl (htook.asked.trans hasked))
  · refine hfail _ h₀.called ⟨_, hmost, ?_⟩
    rw [← hasked]
    simp [Heap.called]
  · obtain ⟨cs', hs', hused⟩ := htook.used hroom
    refine hok ap s' cs' hs' (hused.trans (.cons _ ?_)) (.inr ⟨_, hmost, ?_⟩)
    · rw [usedAt_release, usedAt, List.append_nil]
    · rw [htook.asked, hasked₁, hasked]
      simp

end

end Xv6.Umalloc
