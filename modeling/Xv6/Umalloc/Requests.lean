import Xv6.Umalloc.History

/-!
# Requests of all sizes

The size of a request is rounded up in 32 bits, multiplied in 32 bits and passed on as an `int`. For
which requests `malloc` keeps its promise: a null pointer or a block that is large enough, and no call
of `sbrk` that does not ask for memory.
-/

namespace Xv6.Umalloc

open Lib Exec

open Vm (uint)

/-- The result is null or a block with room for the request, inside the memory that has been obtained,
and all calls of `sbrk` have asked for memory. -/
structure Serves (start nbytes : ℕ) (s : Heap) (r : Option ℕ) (s' : Heap) : Prop where
  block : ∀ ap, r = some ap → start + HEADER ≤ ap ∧ nbytes + HEADER ≤ 8 * (s'.mem (ap - HEADER)).size ∧
    ap - HEADER + 8 * (s'.mem (ap - HEADER)).size ≤ s'.brk
  asked : ∃ new, s'.asked = s.asked ++ new ∧ ∀ n ∈ new, 0 < n

/-- The free list is empty, or it has not been set up. -/
def NoFree (base : ℕ) (s : Heap) : Prop := s.freep = 0 ∨ (s.mem base).ptr = base

/-! ## Calls of `sbrk` are recorded -/

/-- From every state, the arguments of `sbrk` so far stay on record. -/
def Records {α : Type} (x : UM α) : Prop :=
  ∀ s, wp (fun _ => True) x (fun _ s' => s.asked <+: s'.asked) s

section

variable {α β : Type} {x : UM α} {f : α → UM β} {p h n bp : ℕ}

theorem Records.bind (hx : Records x) (hf : ∀ a, Records (f a)) : Records (x >>= f) := fun s =>
  wp_bind.mpr (wp_mono (hx s) fun a s' hs' => wp_mono (hf a s') fun _ _ hs => hs'.trans hs)

theorem records_pure (a : α) : Records (pure a) := fun s => wp_pure.mpr (List.prefix_refl s.asked)

theorem records_get : Records (get : UM Heap) := fun s => wp_get.mpr (List.prefix_refl s.asked)

theorem records_throw (e : Fault) : Records (throw e : UM α) := fun _ => wp_throw.mpr trivial

theorem records_setFreep : Records (modify fun s => { s with freep := p } : UM PUnit) := fun s =>
  wp_modify.mpr (List.prefix_refl s.asked)

theorem records_load : Records (load p) := by
  refine records_get.bind fun s => ?_
  split_ifs
  · exact records_pure _
  · exact records_throw _

theorem records_store {v : Header} : Records (store p v) := by
  intro s
  unfold store
  rw [wp_bind, wp_get]
  split_ifs
  · exact wp_set.mpr (List.prefix_refl s.asked)
  · exact wp_throw.mpr trivial

theorem records_ptr : Records (ptr p) := records_load.bind fun _ => records_pure _

theorem records_size : Records (size p) := records_load.bind fun _ => records_pure _

theorem records_setPtr : Records (setPtr p n) := records_load.bind fun _ => records_store

theorem records_setSize : Records (setSize p n) := records_load.bind fun _ => records_store

theorem records_freeFrom {fuel : ℕ} : Records (freeFrom bp fuel p) := by
  induction fuel generalizing p with
  | zero => exact records_throw _
  | succ fuel ih =>
    refine records_ptr.bind fun _ => ?_
    split_ifs
    · exact records_pure _
    · refine records_ptr.bind fun _ => records_ptr.bind fun _ => ?_
      split_ifs
      · exact records_pure _
      · exact records_ptr.bind fun _ => ih

theorem records_joinUpper : Records (joinUpper bp p) := by
  refine records_size.bind fun _ => records_ptr.bind fun _ => ?_
  split_ifs
  · refine records_size.bind fun _ => records_ptr.bind fun _ => records_size.bind fun _ => ?_
    exact records_setSize.bind fun _ => records_ptr.bind fun _ => records_ptr.bind fun _ => records_setPtr
  · exact records_ptr.bind fun _ => records_setPtr

theorem records_joinLower : Records (joinLower bp p) := by
  refine records_size.bind fun _ => ?_
  split_ifs
  · refine records_size.bind fun _ => records_size.bind fun _ => ?_
    exact records_setSize.bind fun _ => records_ptr.bind fun _ => records_setPtr
  · exact records_setPtr

theorem records_free : Records (free p) :=
  records_get.bind fun _ => records_freeFrom.bind fun _ =>
    records_joinUpper.bind fun _ => records_joinLower.bind fun _ => records_setFreep

theorem records_sbrk {m : ℤ} : Records (sbrk m) := by
  intro s
  unfold sbrk
  rw [wp_bind, wp_get, wp_bind, wp_set, wp_pure]
  exact List.prefix_append _ _

theorem records_morecore : Records (morecore n) := by
  refine records_sbrk.bind fun r => ?_
  cases r with
  | none => exact records_pure _
  | some hp => exact records_setSize.bind fun _ => records_free.bind fun _ => records_get.bind fun _ => records_pure _

theorem records_take {q : ℕ} : Records (take n q p) := by
  refine records_size.bind fun _ => ?_
  split_ifs
  · exact records_ptr.bind fun _ => records_setPtr.bind fun _ => records_setFreep.bind fun _ => records_pure _
  · refine records_size.bind fun _ => records_setSize.bind fun _ => records_size.bind fun _ => ?_
    exact records_setSize.bind fun _ => records_setFreep.bind fun _ => records_pure _

theorem records_mallocFrom {fuel q : ℕ} : Records (mallocFrom n fuel q p) := by
  induction fuel generalizing q p with
  | zero => exact records_throw _
  | succ fuel ih =>
    refine records_size.bind fun _ => ?_
    split_ifs
    · rw [map_eq_pure_bind]
      exact records_take.bind fun _ => records_pure _
    · refine records_get.bind fun s => ?_
      split_ifs
      · refine records_morecore.bind fun r => ?_
        cases r with
        | none => exact records_pure _
        | some p => exact records_ptr.bind fun _ => ih
      · exact records_ptr.bind fun _ => ih

/-- A call of `morecore` for too many units: `sbrk` is not asked for memory. -/
theorem records_overflow {s : Heap} (hn : 2 ^ 28 ≤ n) (hn' : n ≤ 2 ^ 29) :
    wp (fun _ => True) (morecore n) (fun _ s' => ∃ m ≤ 0, s.asked ++ [m] <+: s'.asked) s := by
  have hnu : (if n < 4096 then 4096 else n) = n := if_neg (by omega)
  have hint : int (uint (n * HEADER)) ≤ 0 := by
    simp only [int, uint, HEADER]
    split_ifs <;> omega
  unfold morecore
  dsimp only
  rw [hnu]
  generalize int (uint (n * HEADER)) = m at hint
  rw [wp_bind]
  unfold sbrk
  rw [wp_bind, wp_get, wp_bind, wp_set, wp_pure]
  cases (grown s.brk m (s.grant 0)).map fun _ => s.brk with
  | none => exact ⟨m, hint, List.prefix_refl _⟩
  | some hp =>
    have hrest : Records (do setSize hp n; free (plus hp 1); let s ← get; pure (some s.freep)) :=
      records_setSize.bind fun _ => records_free.bind fun _ => records_get.bind fun _ => records_pure _
    exact wp_mono (hrest _) fun _ _ hs => ⟨m, hint, hs⟩

end

/-! ## The three kinds of requests -/

section

variable {E : Fault → Prop} {base start nbytes : ℕ} {s : Heap} {cs : List Cell}

theorem Kept.noFree_iff (h : Kept base start s cs) : NoFree base s ↔ ∀ c ∈ cs, c.owner ≠ none := by
  cases h with
  | fresh h => exact iff_of_true (.inl h.freep) nofun
  | formed h =>
    have hnext : (s.mem base).ptr = (freeAt start cs).headD base := h.circle.next_eq (A := []) rfl
    rw [NoFree, or_iff_right h.freep_ne, hnext]
    constructor
    · intro heq c hc hfree
      obtain ⟨pre, post, rfl⟩ := List.append_of_mem hc
      have hmem := mem_freeAt.mpr ⟨pre, c, post, rfl, hfree, (rfl : start + 8 * units pre = _)⟩
      cases hl : freeAt start (pre ++ c :: post) with
      | nil =>
        rw [hl] at hmem
        cases hmem
      | cons y l =>
        rw [hl, List.headD_cons] at heq
        have := (List.pairwise_cons.mp h.sorted).1 y (by simp [hl])
        omega
    · intro hused
      have hnil : freeAt start cs = [] := by
        refine List.eq_nil_iff_forall_not_mem.mpr fun x hx => ?_
        obtain ⟨pre, c, post, rfl, hfree, -⟩ := mem_freeAt.mp hx
        exact hused c (by simp) hfree
      rw [hnil, List.headD_nil]

/-- The size of the request is rounded up without overflow. -/
theorem wp_malloc_fits (h : Kept base start s cs) (hn : nbytes < 2 ^ 31 - 15) :
    wp E (malloc base nbytes) (fun r s' => Serves start nbytes s r s') s := by
  refine wp_malloc h (by omega) (fun s' hs' hasked => ?_) fun ap s' cs' hs' hused hasked => ⟨?_, ?_⟩
  · obtain ⟨m, hm, hasked⟩ := hasked
    exact ⟨by simp, [(m : ℤ)], hasked, by simpa using hm⟩
  · rintro _ ⟨⟩
    obtain ⟨pre, c, post, rfl, hc, rfl⟩ := mem_usedAt.mp (hused.mem_iff.mpr List.mem_cons_self)
    have hsize : (s'.mem (start + 8 * units pre)).size = c.size := hs'.sized (_, c.size) (by simp [cellsAt])
    have hroom := (hs'.tidy.fine c (by simp)).room nbytes hc
    have hend := hs'.size_pos
    simp only [HEADER]
    rw [Nat.add_sub_cancel, hsize]
    omega
  · rcases hasked with hasked | ⟨m, hm, hasked⟩
    · exact ⟨[], by simpa using hasked, by simp⟩
    · exact ⟨[(m : ℤ)], hasked, by simpa using hm⟩

/-- The number of bytes is not a positive `int`. -/
theorem wp_malloc_overflow (h : Kept base start s cs) (hlow : 2 ^ 31 - 15 ≤ nbytes) (hhigh : nbytes < 2 ^ 32 - 7) :
    wp (fun _ => True) (malloc base nbytes) (fun _ s' => ∃ m ≤ 0, s.asked ++ [m] <+: s'.asked) s := by
  have hunits : 2 ^ 28 ≤ units32 nbytes ∧ units32 nbytes ≤ 2 ^ 29 := by
    simp only [units32, uint, HEADER]
    omega
  unfold malloc
  refine wp_bind.mpr (wp_setup h fun s₀ h₀ hbrk hgrant hasked => ?_)
  rw [wp_bind, wp_get, wp_bind, wp_ptr (h₀.bound h₀.freep), ← hasked]
  generalize units32 nbytes = n at hunits
  have hspins := h₀.length
  obtain ⟨fuel, hfuel⟩ : ∃ fuel, s₀.spins = fuel + (freeAt start cs).length + 1 :=
    ⟨s₀.spins - (freeAt start cs).length - 1, by omega⟩
  rw [hfuel]
  refine wp_round h₀ (by omega) (fun ap s' htook => ?_) fun _ => ?_
  · -- no block is that large
    obtain ⟨pre, c, post, rfl, -, hle, -⟩ := htook.cell
    have hlt := h₀.lt
    simp only [units_append, units_cons] at hlt
    omega
  · refine wp_bind.mpr (wp_mono (records_overflow hunits.1 hunits.2) fun r s' hr => ?_)
    obtain ⟨m, hm, hs'⟩ := hr
    cases r with
    | none => exact wp_mono (records_pure none s') fun _ _ hs => ⟨m, hm, hs'.trans hs⟩
    | some p =>
      have hrest : Records (do mallocFrom n fuel p (← ptr p)) := records_ptr.bind fun _ => records_mallocFrom
      exact wp_mono (hrest s') fun _ _ hs => ⟨m, hm, hs'.trans hs⟩

/-- The number of bytes is rounded up to 0: the block has room for its header only. -/
theorem wp_malloc_wrapped (h : Kept base start s cs) (hlow : 2 ^ 32 - 7 ≤ nbytes) (hhigh : nbytes < 2 ^ 32) :
    wp E (malloc base nbytes) (fun r s' => (∀ ap, r = some ap → (s'.mem (ap - HEADER)).size = 1) ∧
      (r = none ↔ NoFree base s ∧ ¬s.Grants 32768) ∧ (r = none → s'.asked = s.asked ++ [32768])) s := by
  have hunits : units32 nbytes = 1 := by
    simp only [units32, uint, HEADER]
    omega
  have hfree := h.noFree_iff
  unfold malloc
  refine wp_bind.mpr (wp_setup h fun s₀ h₀ hbrk hgrant hasked => ?_)
  have hgrants : s₀.Grants 32768 ↔ s.Grants 32768 := by rw [Heap.Grants, Heap.Grants, hbrk, hgrant]
  rw [wp_bind, wp_get, wp_bind, wp_ptr (h₀.bound h₀.freep), hunits]
  have hnone : (∀ c ∈ cs, c.owner = none → c.size < 1) ↔ NoFree base s := by
    rw [hfree]
    refine forall₂_congr fun c hc => ⟨fun hsmall hn => ?_, fun hused hn => absurd hn hused⟩
    exact absurd (h₀.tidy.fine c hc).pos (not_le.mpr (hsmall hn))
  refine wp_mallocFrom h₀ le_rfl (by decide) (fun ap s' htook => ?_) (fun hsmall hg => ?_)
    fun hsmall hg s₁ ap s' _ htook => ?_
  · refine ⟨?_, iff_of_false (by simp) fun hno => ?_, (by simp)⟩
    · rintro _ ⟨⟩
      exact htook.size le_rfl
    · obtain ⟨pre, c, post, rfl, hc, -⟩ := htook.cell
      exact hfree.mp hno.1 c (by simp) hc
  · exact ⟨(by simp), iff_of_true rfl ⟨hnone.mp hsmall, fun hg' => hg (hgrants.mpr hg')⟩, fun _ => by rw [← hasked]; rfl⟩
  · refine ⟨?_, iff_of_false (by simp) fun hno => hno.2 (hgrants.mp hg), (by simp)⟩
    rintro _ ⟨⟩
    exact htook.size le_rfl

/-- For which requests `malloc` keeps its promise: those that are rounded up to a positive `int`, and
those that are rounded up to 0 if there is no memory at all. -/
theorem malloc_serves_iff (h : Kept base start s cs) (hn : nbytes < 2 ^ 32) :
    (∃ r s', malloc base nbytes s = .ok r s' ∧ Serves start nbytes s r s') ↔
      nbytes < 2 ^ 31 - 15 ∨ 2 ^ 32 - 7 ≤ nbytes ∧ NoFree base s ∧ ¬s.Grants 32768 := by
  rcases lt_or_ge nbytes (2 ^ 31 - 15) with hsmall | hlow
  · exact iff_of_true (wp_returns (wp_malloc_fits h hsmall)) (.inl hsmall)
  rw [or_iff_right (not_lt.mpr hlow)]
  rcases lt_or_ge nbytes (2 ^ 32 - 7) with hmid | hhigh
  · refine iff_of_false ?_ fun hc => absurd hc.1 (not_le.mpr hmid)
    rintro ⟨r, s', hrun, hserves⟩
    obtain ⟨m, hm, hsub⟩ := wp_ok (wp_malloc_overflow h hlow hmid) hrun
    obtain ⟨new, hnew, hpos⟩ := hserves.asked
    rw [hnew, List.prefix_append_right_inj] at hsub
    have := hpos m (hsub.subset List.mem_cons_self)
    omega
  · obtain ⟨r, s', hrun, hsize, hnone, hasked⟩ := wp_returns (wp_malloc_wrapped h hhigh hn)
    rw [and_iff_right hhigh, ← hnone]
    constructor
    · rintro ⟨r', t, hrun', hserves⟩
      obtain ⟨rfl, rfl⟩ : r = r' ∧ s' = t := by
        rw [hrun] at hrun'
        cases hrun'
        exact ⟨rfl, rfl⟩
      cases r with
      | none => rfl
      | some ap =>
        have hroom := (hserves.block ap rfl).2.1
        rw [hsize ap rfl] at hroom
        omega
    · rintro rfl
      exact ⟨none, s', hrun, nofun, [32768], hasked rfl, by simp⟩

end

theorem malloc_serves_iff_fresh : (Fresh 8 16 fresh ∧ 100 < 2 ^ 32) ∧
    ((∃ r s', malloc 8 100 fresh = .ok r s' ∧ Serves 16 100 fresh r s') ↔
      100 < 2 ^ 31 - 15 ∨ 2 ^ 32 - 7 ≤ 100 ∧ NoFree 8 fresh ∧ ¬fresh.Grants 32768) :=
  ⟨⟨fresh_fresh, by decide⟩, malloc_serves_iff (.fresh fresh_fresh) (by decide)⟩

/-- A request for all memory is granted: the block has no room at all. -/
theorem malloc_huge : ∃ ap s', malloc 8 (2 ^ 32 - 1) fresh = .ok (some ap) s' ∧ (s'.mem (ap - HEADER)).size = 1 := by
  have hlow : 2 ^ 32 - 7 ≤ 2 ^ 32 - 1 := by decide
  obtain ⟨r, s', hrun, hsize, hnone, -⟩ := wp_returns (wp_malloc_wrapped (.fresh fresh_fresh) hlow (by decide))
  cases r with
  | none => exact absurd (by decide) (hnone.mp rfl).2
  | some ap => exact ⟨ap, s', hrun, hsize ap rfl⟩

end Xv6.Umalloc
