import Xv6.Vm.Place

/-!
# Address spaces as maps

A page directory and its page tables say together what one map from pages to entries says. A `Plan` is
such a map with the pages `kalloc` is going to hand out. What the functions of `vm.c` do to an address
space is a function of the plan, and is written down here without memory, tables or the free list; the
rules of the next modules say that the code does the same.
-/

namespace Xv6.Vm

/-! ## Requests -/

/-- What `kalloc` answers to the `i`th request from now on, as long as no page is freed. -/
def Phys.answers (s : Phys) (i : ℕ) : Option ℕ :=
  if s.grant i then s.free[(List.range i).countP s.grant]? else none

/-- One request has been made, and memory is as before. -/
structure Asked (s s' : Phys) : Prop where
  mem : s'.mem = s.mem
  answers : s'.answers = fun i => s.answers (i + 1)

theorem countP_range_succ (g : ℕ → Bool) (i : ℕ) :
    (List.range (i + 1)).countP g =
      (List.range i).countP (fun j => g (j + 1)) + if g 0 then 1 else 0 := by
  rw [List.range_succ_eq_map, List.countP_cons, List.countP_map]
  rfl

theorem asked_refused {s s' : Phys} (h : s.free = [] ∨ s.grant 0 = false) (hmem : s'.mem = s.mem)
    (hfree : s'.free = s.free) (hgrant : s'.grant = fun i => s.grant (i + 1)) : Asked s s' := by
  refine ⟨hmem, funext fun i => ?_⟩
  simp only [Phys.answers, countP_range_succ, hfree, hgrant]
  rcases h with h | h <;> simp [h]

theorem asked_granted {s s' : Phys} {x : ℕ} {rest : List ℕ} (h : s.free = x :: rest)
    (hg : s.grant 0 = true) (hmem : s'.mem = s.mem) (hfree : s'.free = rest)
    (hgrant : s'.grant = fun i => s.grant (i + 1)) : Asked s s' := by
  refine ⟨hmem, funext fun i => ?_⟩
  simp [Phys.answers, countP_range_succ, h, hg, hfree, hgrant]

/-! ## Plans -/

/-- The pages `kalloc` is going to hand out, the entries of an address space, and how often there was
no page for a page table. -/
structure Plan where
  ask : ℕ → Option ℕ
  entry : ℕ → Option ℕ
  lost : ℕ

/-- The entry that maps page `x`. -/
def pte (x perm : ℕ) : ℕ := x * PGSIZE ||| perm ||| PTE_P

/-- The first page of a mapping of the kernel, and the number of its pages. -/
def Kmap.first (k : Kmap) : ℕ := k.virt / PGSIZE

def Kmap.pages (k : Kmap) : ℕ := uint (k.physEnd + 2 ^ 32 - k.physStart) / PGSIZE

/-- The number of pages of an address space of the given size. -/
def pages (sz : ℕ) : ℕ := (sz + 4095) / 4096

namespace Plan

/-- The plan after a request. -/
def next (P : Plan) : Plan := { P with ask := fun i => P.ask (i + 1) }

def set (P : Plan) (i w : ℕ) : Plan := { P with entry := Function.update P.entry i (some w) }

/-- `walkpgdir` for page `i`, with `alloc`. -/
def walk (P : Plan) (i : ℕ) : Bool × Plan :=
  match P.entry i, P.ask 0 with
  | some _, _ => (true, P)
  | none, some _ =>
    (true, { P.next with entry := fun j => if j / 1024 = i / 1024 then some 0 else P.entry j })
  | none, none => (false, { P.next with lost := P.lost + 1 })

/-- Go on if all is well so far. -/
def andThen (x : Bool × Plan) (f : Plan → Bool × Plan) : Bool × Plan := if x.1 then f x.2 else x

/-- `mappages` for page `i`. -/
def map (P : Plan) (i w : ℕ) : Bool × Plan := andThen (P.walk i) fun P => (true, P.set i w)

/-- `mappages` for `n` pages from page `i` on, which are mapped to the pages from `p` on. -/
def mapRange (perm : ℕ) : ℕ → ℕ → ℕ → Plan → Bool × Plan
  | 0, _, _, P => (true, P)
  | n + 1, i, p, P =>
    andThen (P.map i (pte p perm)) (mapRange perm n (i + 1) (p + 1))

/-- The loop of `setupkvm`. -/
def mapKernel : List Kmap → Plan → Bool × Plan
  | [], P => (true, P)
  | k :: ks, P =>
    andThen (P.mapRange k.perm k.pages k.first (k.physStart / PGSIZE)) (mapKernel ks)

/-- `setupkvm`. -/
def setup (K : Image) (P : Plan) : Bool × Plan :=
  match P.ask 0 with
  | none => (false, P.next)
  | some _ => mapKernel (kmap K) { P.next with entry := fun _ => none }

/-- `allocuvm` for `n` pages from page `j` on. A page for which there is no table is left out. -/
def grow : ℕ → ℕ → Plan → Bool × Plan
  | 0, _, P => (true, P)
  | n + 1, j, P =>
    match P.ask 0 with
    | none => (false, P.next)
    | some x => grow n (j + 1) (P.next.map j (pte x (PTE_W ||| PTE_U))).2

/-- `copyuvm` for `n` pages from page `j` on, of an address space with the entries `src`. -/
def copy (src : ℕ → Option ℕ) : ℕ → ℕ → Plan → Bool × Plan
  | 0, _, P => (true, P)
  | n + 1, j, P =>
    match P.ask 0 with
    | none => (false, P.next)
    | some x => andThen (P.next.map j (pte x (flags ((src j).getD 0)))) (copy src n (j + 1))

/-- `allocuvm`, as the plan has it: the result is the new size, or 0. -/
@[irreducible] def alloc (P : Plan) (oldsz newsz : ℕ) : ℕ × Plan :=
  if newsz ≥ KERNBASE then (0, P)
  else if newsz < oldsz then (oldsz, P)
  else
    let (ok, P) := P.grow (pages newsz - pages oldsz) (pages oldsz)
    (if ok then newsz else 0, P)

/-- `copyuvm` of an address space of size `sz` with the entries `src`, as the plan has it. -/
def clone (K : Image) (src : ℕ → Option ℕ) (sz : ℕ) (P : Plan) : Bool × Plan :=
  andThen (P.setup K) (copy src (pages sz) 0)

/-- `clearpteu`, as the plan has it. -/
def clear (P : Plan) (i : ℕ) : Plan :=
  { P with entry := Function.update P.entry i ((P.entry i).map (· &&& 0xFFFFFFFB)) }

/-! ## Lost requests -/

section

variable {P P' : Plan} {b : Bool}

@[simp] theorem andThen_true {f : Plan → Bool × Plan} : andThen (true, P) f = f P := rfl

@[simp] theorem andThen_false {f : Plan → Bool × Plan} : andThen (false, P) f = (false, P) := rfl

/-- What two pieces of code lose. -/
theorem andThen_lost {x : Bool × Plan} {f : Plan → Bool × Plan} (hx : x.2.lost = P.lost + if x.1 then 0 else 1)
    (hf : ∀ Q, (f Q).2.lost = Q.lost + if (f Q).1 then 0 else 1) :
    (andThen x f).2.lost = P.lost + if (andThen x f).1 then 0 else 1 := by
  obtain ⟨b, Q⟩ := x
  cases b
  · exact hx
  · rw [andThen_true, hf, hx]
    rfl

theorem walk_lost {i : ℕ} : (P.walk i).2.lost = P.lost + if (P.walk i).1 then 0 else 1 := by
  unfold walk
  split <;> rfl

theorem map_lost {i w : ℕ} : (P.map i w).2.lost = P.lost + if (P.map i w).1 then 0 else 1 :=
  andThen_lost walk_lost fun _ => rfl

theorem mapRange_lost {perm n i p : ℕ} :
    (P.mapRange perm n i p).2.lost = P.lost + if (P.mapRange perm n i p).1 then 0 else 1 := by
  induction n generalizing P i p with
  | zero => rfl
  | succ n ih => exact andThen_lost map_lost fun _ => ih

theorem mapKernel_lost {ks : List Kmap} :
    (P.mapKernel ks).2.lost = P.lost + if (P.mapKernel ks).1 then 0 else 1 := by
  induction ks generalizing P with
  | nil => rfl
  | cons k ks ih => exact andThen_lost mapRange_lost fun _ => ih

end

/-! ## Pages that are not mapped -/

/-- Page `i` is not mapped. -/
def Blank (P : Plan) (i : ℕ) : Prop := ∀ w, P.entry i = some w → present w = false

variable {P P' : Plan} {i j w : ℕ} {f : Plan → Bool × Plan} {perm n p c : ℕ} {ks : List Kmap} {K : Image}

theorem Blank.walk (h : P.Blank j) : (P.walk i).2.Blank j := by
  intro w hw
  unfold Plan.walk at hw
  split at hw
  · exact h w hw
  · simp only at hw
    split_ifs at hw
    · obtain rfl := Option.some.inj hw
      rfl
    · exact h w hw
  · exact h w hw

theorem Blank.set (h : P.Blank j) (hij : j ≠ i) : (P.set i w).Blank j := by
  intro v hv
  exact h v ((Function.update_of_ne hij _ _).symm.trans hv)

/-- A property that both pieces of code keep. -/
theorem andThen_keeps {x : Bool × Plan} {C : Plan → Prop} (hx : C x.2)
    (hf : ∀ Q, C Q → C (f Q).2) : C (andThen x f).2 := by
  obtain ⟨b, Q⟩ := x
  cases b
  · exact hx
  · exact hf Q hx

theorem Blank.map (h : P.Blank j) (hij : j ≠ i) : (P.map i w).2.Blank j :=
  andThen_keeps (C := fun P => P.Blank j) h.walk fun _ hQ => hQ.set hij

theorem Blank.next (h : P.Blank j) : P.next.Blank j := h

theorem Blank.mapRange (h : P.Blank j) (hij : j < i ∨ i + n ≤ j) : (P.mapRange perm n i p).2.Blank j := by
  induction n generalizing P i p with
  | zero => exact h
  | succ n ih =>
    exact andThen_keeps (C := fun P => P.Blank j) (h.map (by omega)) fun _ hQ => ih hQ (by omega)

/-- Pages behind those that `allocuvm` adds stay as they are. -/
theorem Blank.grow (h : P.Blank i) (hij : i < j ∨ j + n ≤ i) : (P.grow n j).2.Blank i := by
  induction n generalizing P j with
  | zero => exact h
  | succ n ih =>
    rw [Plan.grow]
    split
    · exact h.next
    · exact ih (h.next.map (by omega)) (by omega)

/-- Mapping a page leaves other tables alone. -/
theorem map_other (hne : j / 1024 ≠ i / 1024) : (P.map i w).2.entry j = P.entry j := by
  have hij : j ≠ i := by
    rintro rfl
    exact hne rfl
  refine andThen_keeps (C := fun Q => Q.entry j = P.entry j) ?_ fun Q hQ => ?_
  · unfold Plan.walk
    split
    · rfl
    · simp only [if_neg hne]
    · rfl
  · exact (Function.update_of_ne hij _ _).trans hQ

/-- Mapping a page of one half leaves the other half alone. -/
theorem map_low (hi : 2 ^ 19 ≤ i) (hj : j < 2 ^ 19) : (P.map i w).2.entry j = P.entry j :=
  map_other (by omega)

/-- Entries do not go away. -/
theorem map_entry (h : P.entry j ≠ none) : (P.map i w).2.entry j ≠ none := by
  refine andThen_keeps (C := fun Q => Q.entry j ≠ none) ?_ fun Q hQ => ?_
  · unfold Plan.walk
    split
    · exact h
    · simp only
      split_ifs
      · nofun
      · exact h
    · exact h
  · by_cases hij : j = i
    · simp [Plan.set, hij]
    · simpa [Plan.set, Function.update_of_ne hij] using hQ

theorem entry_of_map (h : P.map i w = (true, P')) : P'.entry i = some w := by
  unfold Plan.map at h
  generalize P.walk i = x at h
  obtain ⟨_ | _, Q⟩ := x
  · cases h
  · rw [andThen_true] at h
    obtain rfl := (Prod.mk.inj h).2
    exact Function.update_self ..

/-- A page is only left out if it has no entry. -/
theorem entry_of_map_false (h : P.map i w = (false, P')) : P'.entry i = none := by
  unfold Plan.map Plan.walk at h
  split at h
  · cases h
  · cases h
  · obtain rfl := (Prod.mk.inj h).2
    assumption

theorem mapRange_low (hi : 2 ^ 19 ≤ i) (hj : j < 2 ^ 19) : (P.mapRange perm n i p).2.entry j = P.entry j := by
  induction n generalizing P i p with
  | zero => rfl
  | succ n ih =>
    refine andThen_keeps (C := fun Q => Q.entry j = P.entry j) (map_low hi hj) fun Q hQ => ?_
    exact (ih (by omega)).trans hQ

theorem mapKernel_low (hks : ∀ k ∈ ks, 2 ^ 19 ≤ k.first) (hj : j < 2 ^ 19) :
    (P.mapKernel ks).2.entry j = P.entry j := by
  induction ks generalizing P with
  | nil => rfl
  | cons k ks ih =>
    rw [mapKernel]
    refine andThen_keeps (C := fun Q => Q.entry j = P.entry j)
      (mapRange_low (hks k List.mem_cons_self) hj) fun Q hQ => ?_
    rw [ih fun k' hk' => hks k' (List.mem_cons_of_mem _ hk'), hQ]

/-- A new address space maps nothing for the user. -/
theorem setup_low (h : P.setup K = (true, P')) (hj : j < 2 ^ 19) : P'.entry j = none := by
  unfold Plan.setup at h
  split at h
  · cases h
  · have hfirst : ∀ k ∈ kmap K, 2 ^ 19 ≤ k.first := by
      simp only [kmap, List.mem_cons, List.not_mem_nil, or_false]
      rintro k (rfl | rfl | rfl | rfl) <;>
      · simp only [Kmap.first, PGSIZE, KERNBASE, KERNLINK, DEVSPACE]
        omega
    have hlow := mapKernel_low (P := { P.next with entry := fun _ => none }) hfirst hj
    rwa [h] at hlow

/-! ## Requests made -/

/-- The second plan is the first after some requests. -/
def Later (P P' : Plan) : Prop := ∃ c, ∀ i, P'.ask i = P.ask (i + c)

theorem Later.refl : P.Later P := ⟨0, fun _ => rfl⟩

theorem Later.trans {P'' : Plan} (h : P.Later P') (h' : P'.Later P'') : P.Later P'' := by
  obtain ⟨c, hc⟩ := h
  obtain ⟨c', hc'⟩ := h'
  refine ⟨c' + c, fun i => ?_⟩
  rw [hc', hc, Nat.add_assoc]

theorem later_next : P.Later P.next := ⟨1, fun _ => rfl⟩

theorem walk_later : P.Later (P.walk i).2 := by
  unfold Plan.walk
  split
  · exact .refl
  · exact ⟨1, fun _ => rfl⟩
  · exact ⟨1, fun _ => rfl⟩

theorem map_later : P.Later (P.map i w).2 := andThen_keeps (C := P.Later) walk_later fun _ hQ => hQ

theorem mapRange_later : P.Later (P.mapRange perm n i p).2 := by
  induction n generalizing P i p with
  | zero => exact .refl
  | succ n ih => exact andThen_keeps (C := P.Later) map_later fun _ hQ => hQ.trans ih

theorem mapKernel_later : P.Later (P.mapKernel ks).2 := by
  induction ks generalizing P with
  | nil => exact .refl
  | cons k ks ih => exact andThen_keeps (C := P.Later) mapRange_later fun _ hQ => hQ.trans ih

/-! ## Enough pages -/

/-- The next `c` requests will be met. -/
def Enough (P : Plan) (c : ℕ) : Prop := ∀ m < c, P.ask m ≠ none

/-- Pages of one table have entries together. -/
def Tabled (P : Plan) : Prop := ∀ i j, i / 1024 = j / 1024 → P.entry i ≠ none → P.entry j ≠ none

theorem Enough.mono {d : ℕ} (h : P.Enough d) (hcd : c ≤ d) : P.Enough c :=
  fun m hm => h m (by omega)

theorem Enough.next (h : P.Enough (c + 1)) : P.next.Enough c := fun m hm => h (m + 1) (by omega)

theorem Tabled.set (h : P.Tabled) (hi : P.entry i ≠ none) : (P.set i w).Tabled := by
  -- an entry was there before exactly where one is now
  have hset : ∀ j, (P.set i w).entry j ≠ none ↔ P.entry j ≠ none := by
    intro j
    by_cases hj : j = i
    · simp [Plan.set, hj, hi]
    · simp [Plan.set, Function.update_of_ne hj]
  intro j l hjl
  rw [hset, hset]
  exact h j l hjl

/-- Mapping a page takes no page if its table is there, and otherwise one. -/
theorem map_enough (ht : P.Tabled) (h : P.Enough (if P.entry i = none then c + 1 else c)) :
    ∃ P', P.map i w = (true, P') ∧ P'.Tabled ∧ P'.Enough c ∧ P'.entry i ≠ none := by
  have hself : ∀ Q : Plan, (Q.set i w).entry i ≠ none := fun Q => by simp [Plan.set]
  cases hi : P.entry i with
  | some v =>
    rw [hi, if_neg nofun] at h
    exact ⟨P.set i w, by simp [Plan.map, Plan.walk, hi], ht.set (by simp [hi]), h, hself P⟩
  | none =>
    rw [if_pos hi] at h
    obtain ⟨x, hx⟩ := Option.ne_none_iff_exists'.mp (h 0 (by omega))
    let Q : Plan := { P.next with entry := fun j => if j / 1024 = i / 1024 then some 0 else P.entry j }
    refine ⟨Q.set i w, by simp [Plan.map, Plan.walk, hi, hx, Q], Tabled.set ?_ (by simp [Q]), h.next, hself Q⟩
    intro j l hjl hj
    by_cases hl : l / 1024 = i / 1024
    · simp [Q, hl]
    · simp only [Q, hjl, if_neg hl] at hj ⊢
      exact ht j l hjl hj

theorem mapRange_starved (hi : P.entry i = none) (h : P.ask 0 = none) :
    (P.mapRange perm (n + 1) i p).1 = false := by
  simp [Plan.mapRange, Plan.map, Plan.walk, hi, h]

/-- A range of pages takes a page for each table that begins in it. -/
theorem mapRange_enough (ht : P.Tabled) (hi : i % 1024 = 0 ∨ P.entry i ≠ none)
    (h : P.Enough (c + ((i + n + 1023) / 1024 - (i + 1023) / 1024))) :
    ∃ P', P.mapRange perm n i p = (true, P') ∧ P'.Tabled ∧ P'.Enough c ∧
      ((i + n) % 1024 = 0 ∨ P'.entry (i + n) ≠ none) := by
  induction n generalizing P i p with
  | zero => exact ⟨P, rfl, ht, h.mono (by omega), hi⟩
  | succ n ih =>
    obtain ⟨Q, hQ, htQ, hQc, hQi⟩ := map_enough (w := pte p perm) ht (i := i)
      (c := c + ((i + 1 + n + 1023) / 1024 - (i + 1 + 1023) / 1024)) (h.mono (by
        split_ifs with hnone
        · have := hi.resolve_right (not_not_intro hnone)
          omega
        · omega))
    have hnext : (i + 1) % 1024 = 0 ∨ Q.entry (i + 1) ≠ none := by
      by_cases hmod : (i + 1) % 1024 = 0
      · exact .inl hmod
      · exact .inr (htQ i (i + 1) (by omega) hQi)
    obtain ⟨P', hP', ht', hc', hlast⟩ := ih (p := p + 1) htQ hnext hQc
    refine ⟨P', ?_, ht', hc', ?_⟩
    · rw [Plan.mapRange, hQ, andThen_true, hP']
    · rwa [show i + (n + 1) = i + 1 + n by omega]

/-- One mapping of the kernel, if the pages it takes are there. -/
theorem mapKernel_cons_enough {k : Kmap} {l : List Kmap} (ht : P.Tabled) (hki : k.first = i)
    (hkj : i + k.pages = j) (hi : i % 1024 = 0 ∨ P.entry i ≠ none)
    (h : P.Enough (c + ((j + 1023) / 1024 - (i + 1023) / 1024))) :
    ∃ P' : Plan, P.mapKernel (k :: l) = P'.mapKernel l ∧ P'.Tabled ∧ P'.Enough c ∧
      (j % 1024 = 0 ∨ P'.entry j ≠ none) := by
  subst hki hkj
  obtain ⟨P', hP', hrest⟩ := mapRange_enough (p := k.physStart / PGSIZE) ht hi h
  refine ⟨P', ?_, hrest⟩
  rw [mapKernel, hP', andThen_true]

/-- A single page does not make an address space. -/
theorem setup_starved {x : ℕ} (h₀ : P.ask 0 = some x) (h₁ : P.ask 1 = none) :
    (P.setup K).1 = false ∧ (P.setup K).2.lost = P.lost + 1 := by
  have hpages : (⟨KERNBASE, 0, EXTMEM, PTE_W⟩ : Kmap).pages = 255 + 1 := by decide
  have hsetup : P.setup K = mapKernel (kmap K) { P.next with entry := fun _ => none } := by
    unfold Plan.setup
    rw [h₀]
  have hfails : (mapKernel (kmap K) { P.next with entry := fun _ => none }).1 = false := by
    have hfirst : (mapRange PTE_W (255 + 1) (Kmap.first ⟨KERNBASE, 0, EXTMEM, PTE_W⟩) (0 / PGSIZE)
        { P.next with entry := fun _ => none }).1 = false := mapRange_starved rfl h₁
    rw [kmap, mapKernel, hpages, andThen, hfirst]
    exact hfirst
  rw [hsetup, mapKernel_lost, hfails]
  exact ⟨rfl, rfl⟩

/-- The directory of an address space and its 64 tables for the kernel take 65 pages. -/
theorem setup_enough (h : P.Enough (c + 65)) : ∃ P', P.setup K = (true, P') ∧ P'.Enough c := by
  have haligned := K.data_aligned
  have hlt := K.lt_data
  have hle := K.data_le
  have htop := K.top_lt
  simp only [PGSIZE, EXTMEM, PHYSTOP] at haligned hlt htop
  obtain ⟨x, hx⟩ := Option.ne_none_iff_exists'.mp (h 0 (by omega))
  have hsetup : P.setup K = mapKernel (kmap K) { P.next with entry := fun _ => none } := by
    unfold Plan.setup
    rw [hx]
  rw [hsetup, kmap]
  -- the first three mappings follow each other, so that a table they share is counted once
  obtain ⟨P₁, h₁, ht₁, hc₁, hi₁⟩ := mapKernel_cons_enough (P := { P.next with entry := fun _ => none })
    (k := ⟨KERNBASE, 0, EXTMEM, PTE_W⟩) (i := 524288) (j := 524544) (c := c + 63) (fun _ _ _ h => h)
    (by decide) (by decide) (.inl (by decide)) ((Enough.next (c := c + 64) h).mono (by omega))
  obtain ⟨P₂, h₂, ht₂, hc₂, hi₂⟩ := mapKernel_cons_enough (k := ⟨KERNLINK, EXTMEM, K.data, 0⟩)
    (i := 524544) (j := 524288 + K.data / 4096) (c := c + 8 + (568 - (524288 + K.data / 4096 + 1023) / 1024)) ht₁
    (show KERNLINK / PGSIZE = 524544 by decide) (by
      simp only [Kmap.pages, uint, EXTMEM, PGSIZE]
      omega) hi₁ (hc₁.mono (by omega))
  obtain ⟨P₃, h₃, ht₃, hc₃, -⟩ := mapKernel_cons_enough (k := ⟨KERNBASE + K.data, K.data, PHYSTOP, PTE_W⟩)
    (i := 524288 + K.data / 4096) (j := 581632) (c := c + 8) ht₂ (by
      simp only [Kmap.first, KERNBASE, PGSIZE]
      omega) (by
      simp only [Kmap.pages, uint, PHYSTOP, PGSIZE]
      omega) hi₂ (hc₂.mono (by omega))
  obtain ⟨P₄, h₄, -, hc₄, -⟩ := mapKernel_cons_enough (k := ⟨DEVSPACE, DEVSPACE, 0, PTE_W⟩) (l := [])
    (i := 1040384) (j := 1048576) (c := c) ht₃ (by decide) (by decide) (.inl (by decide)) (hc₃.mono (by omega))
  exact ⟨P₄, by rw [h₁, h₂, h₃, h₄, mapKernel], hc₄⟩

/-! ## Requests that are read -/

/-- The code makes `c` requests. What it does depends on the answers to them, and if it succeeds, they
have all been met. -/
structure Reads (f : Plan → Bool × Plan) (P : Plan) (c : ℕ) : Prop where
  run : ∀ a : ℕ → Option ℕ, (∀ m < c, a m = P.ask m) →
    f { P with ask := a } = ((f P).1, { (f P).2 with ask := fun i => a (i + c) })
  met : (f P).1 = true → P.Enough c

theorem Reads.ask (h : Reads f P c) : (f P).2.ask = fun i => P.ask (i + c) :=
  congrArg (fun x => x.2.ask) (h.run P.ask fun _ _ => rfl)

theorem reads_nothing {f : Plan → Plan} (hf : ∀ a, f { P with ask := a } = { f P with ask := a }) :
    Reads (fun P => (true, f P)) P 0 := ⟨fun a _ => Prod.ext rfl (hf a), fun _ _ hm => absurd hm (Nat.not_lt_zero _)⟩

theorem Reads.andThen {g : Plan → Bool × Plan} {c' : ℕ} (hf : Reads f P c) (hg : Reads g (f P).2 c') :
    ∃ c, Reads (fun P => andThen (f P) g) P c := by
  have hask := hf.ask
  cases hb : (f P).1 with
  | false =>
    refine ⟨c, fun a ha => ?_, fun ht => ?_⟩
    · simp only [Plan.andThen, hf.run a ha, hb, Bool.false_eq_true, if_false]
    · simp [Plan.andThen, hb] at ht
  | true =>
    have hthen : Plan.andThen (f P) g = g (f P).2 := by simp [Plan.andThen, hb]
    refine ⟨c + c', fun a ha => ?_, fun ht m hm => ?_⟩
    · have hrest := hg.run (fun i => a (i + c)) fun m hm => by
        rw [hask]
        exact ha (m + c) (by omega)
      simp only [hf.run a fun m hm => ha m (by omega), hb, andThen_true, hthen, hrest]
      simp only [Nat.add_assoc, Nat.add_comm c' c]
    · rw [hthen] at ht
      by_cases hmc : m < c
      · exact hf.met hb m hmc
      · have := hg.met ht (m - c) (by omega)
        rw [hask] at this
        simpa only [Nat.sub_add_cancel (not_lt.mp hmc)] using this

theorem reads_walk : ∃ c, Reads (fun P => P.walk i) P c := by
  cases he : P.entry i with
  | some v => exact ⟨0, fun a _ => by simp [Plan.walk, he], fun _ _ hm => absurd hm (Nat.not_lt_zero _)⟩
  | none =>
    refine ⟨1, fun a ha => ?_, fun ht m hm => ?_⟩
    · have h₀ := ha 0 Nat.one_pos
      cases hx : P.ask 0 with
      | none =>
        rw [hx] at h₀
        simp [Plan.walk, he, hx, h₀, Plan.next]
      | some x =>
        rw [hx] at h₀
        simp [Plan.walk, he, hx, h₀, Plan.next]
    · obtain rfl : m = 0 := by omega
      intro hx
      simp [Plan.walk, he, hx] at ht

theorem reads_map : ∃ c, Reads (fun P => P.map i w) P c := by
  obtain ⟨c, hc⟩ := reads_walk (P := P) (i := i)
  exact hc.andThen (reads_nothing fun _ => rfl)

theorem reads_mapRange : ∃ c, Reads (mapRange perm n i p) P c := by
  induction n generalizing P i p with
  | zero => exact ⟨0, reads_nothing fun _ => rfl⟩
  | succ n ih =>
    obtain ⟨c, hc⟩ := reads_map (P := P) (i := i) (w := pte p perm)
    exact hc.andThen ih.choose_spec

theorem reads_mapKernel : ∃ c, Reads (mapKernel ks) P c := by
  induction ks generalizing P with
  | nil => exact ⟨0, reads_nothing fun _ => rfl⟩
  | cons k ks ih =>
    obtain ⟨c, hc⟩ := @reads_mapRange P k.first k.perm k.pages (k.physStart / PGSIZE)
    exact hc.andThen ih.choose_spec

theorem reads_setup {x : ℕ} (hx : P.ask 0 = some x) : ∃ c, Reads (setup K) P c := by
  obtain ⟨c, hc⟩ := @reads_mapKernel { P.next with entry := fun _ => none } (kmap K)
  have hsetup : P.setup K = mapKernel (kmap K) { P.next with entry := fun _ => none } := by
    unfold Plan.setup
    rw [hx]
  refine ⟨c + 1, fun a ha => ?_, fun ht m hm => ?_⟩
  · have hrest := hc.run (fun i => a (i + 1)) fun m hm => ha (m + 1) (by omega)
    have h₀ : a 0 = some x := (ha 0 (by omega)).trans hx
    rw [hsetup, Plan.setup]
    simp only [h₀]
    exact hrest
  · cases m with
    | zero => simp [hx]
    | succ m =>
      rw [hsetup] at ht
      exact hc.met ht m (by omega)

/-! ## Growing without page tables -/

theorem alloc_of_le {oldsz newsz : ℕ} (hle : oldsz ≤ newsz) (hlt : newsz < KERNBASE) :
    P.alloc oldsz newsz = (if (P.grow (pages newsz - pages oldsz) (pages oldsz)).1 then newsz else 0,
      (P.grow (pages newsz - pages oldsz) (pages oldsz)).2) := by
  unfold Plan.alloc
  rw [if_neg (not_le.mpr hlt), if_neg (not_lt.mpr hle)]

theorem Enough.map (h : P.Enough (c + 1)) : (P.map i w).2.Enough c := by
  refine andThen_keeps (C := fun Q => Q.Enough c) ?_ fun _ hQ => hQ
  unfold Plan.walk
  split
  · exact h.mono (Nat.le_succ c)
  · exact h.next
  · exact h.next

theorem grow_enough (h : P.Enough (2 * n + c)) : (P.grow n j).1 = true ∧ (P.grow n j).2.Enough c := by
  induction n generalizing P j with
  | zero => exact ⟨rfl, h.mono (by omega)⟩
  | succ n ih =>
    obtain ⟨x, hx⟩ := Option.ne_none_iff_exists'.mp (h 0 (by omega))
    rw [Plan.grow, hx]
    exact ih (Enough.map (Enough.next (h.mono (by omega))))

theorem grow_other (hne : ∀ m, j ≤ m → m < j + n → i / 1024 ≠ m / 1024) : (P.grow n j).2.entry i = P.entry i := by
  induction n generalizing P j with
  | zero => rfl
  | succ n ih =>
    rw [Plan.grow]
    split
    · rfl
    · rw [ih fun m hm hm' => hne m (by omega) (by omega), map_other (hne j le_rfl (by omega))]
      rfl

/-- If there are pages, but none for a page table, no page is mapped. -/
theorem grow_starved {n' : ℕ} (h : ∀ m < n, P.ask (2 * m) ≠ none ∧ P.ask (2 * m + 1) = none)
    (he : ∀ m < n, P.entry (j + m) = none) :
    ∃ P' : Plan, P.grow (n + n') j = P'.grow n' (j + n) ∧ P'.entry = P.entry ∧ ∀ i, P'.ask i = P.ask (2 * n + i) := by
  induction n generalizing P j with
  | zero => exact ⟨P, by rw [Nat.zero_add, Nat.add_zero], rfl, fun i => by rw [Nat.mul_zero, Nat.zero_add]⟩
  | succ n ih =>
    obtain ⟨hx, hnone⟩ := h 0 (Nat.succ_pos n)
    obtain ⟨x, hx⟩ := Option.ne_none_iff_exists'.mp hx
    have hmap : ∀ w, (P.next.map j w).2 = { P.next.next with lost := P.lost + 1 } := by
      intro w
      have hj : P.next.entry j = none := he 0 (Nat.succ_pos n)
      have hask : P.next.ask 0 = none := hnone
      simp only [Plan.map, Plan.walk, hj, hask, andThen_false]
      rfl
    obtain ⟨P', hgrow, hentry, hask⟩ := ih (P := { P.next.next with lost := P.lost + 1 }) (j := j + 1)
      (fun m hm => h (m + 1) (by omega)) fun m hm => by
        rw [← he (m + 1) (by omega)]
        simp only [Plan.next, Nat.add_assoc, Nat.add_comm 1 m]
    refine ⟨P', ?_, hentry, fun i => ?_⟩
    · rw [Nat.add_right_comm, Plan.grow, show P.ask 0 = some x from hx]
      simp only [hmap, hgrow, Nat.add_assoc, Nat.add_comm 1 n]
    · rw [hask]
      simp only [Plan.next]
      congr 1
      omega

end Plan

end Xv6.Vm
