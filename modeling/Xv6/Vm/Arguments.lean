import Mathlib.Algebra.Ring.Nat
import Xv6.Vm.Copies

/-!
# The arguments of a program

What `exec` leaves on the stack of the new image. The strings and the pointers to them all lie on the
last page: a copy that went further down would have to cross the guard page, which the user does not
reach.
-/

namespace Xv6.Vm

open Lib Exec

/-! ## Memory as the user sees it -/

/-- The byte that the user sees at an address. -/
def Phys.byte (s : Phys) (r a : ℕ) : Option UInt8 :=
  (s.reach r (a / PGSIZE)).map fun x => s.mem x (a % PGSIZE)

/-- The user sees these bytes from address `a` on. -/
def Phys.Holds (s : Phys) (r a : ℕ) (bs : List UInt8) : Prop :=
  ∀ k < bs.length, s.byte r (a + k) = bs[k]?

/-- No page is reached at two places. -/
def Phys.ReachInj (s : Phys) (r : ℕ) : Prop :=
  ∀ i j x, i < 2 ^ 20 → j < 2 ^ 20 → s.reach r i = some x → s.reach r j = some x → i = j

section

variable {s s' : Phys} {r va a : ℕ} {bs : List UInt8}

theorem Puts.reach (h : Puts s s' r va bs) {i : ℕ} (hi : i < 2 ^ 20) : s'.reach r i = s.reach r i := by
  rw [Phys.reach, h.entry i hi, Phys.reach]

theorem Puts.holds (h : Puts s s' r va bs) : s'.Holds r va bs := by
  intro k hk
  have hbound := h.bound
  obtain ⟨x, hx, hbyte⟩ := h.copied.dest k hk
  rw [Phys.byte, h.reach (div_page_lt (by omega)), hx, hbyte]
  rfl

theorem Puts.byte (h : Puts s s' r va bs) (hinj : s.ReachInj r) (ha : a < 2 ^ 32)
    (hout : a < va ∨ va + bs.length ≤ a) : s'.byte r a = s.byte r a := by
  have hbound := h.bound
  rw [Phys.byte, h.reach (div_page_lt ha), Phys.byte]
  cases hx : s.reach r (a / PGSIZE) with
  | none => rfl
  | some x =>
    refine congrArg some (h.copied.rest x _ fun k hk hx' heq => ?_)
    have := hinj _ _ x (div_page_lt ha) (div_page_lt (show va + k < 2 ^ 32 by omega)) hx hx'
    simp only [PGSIZE] at this heq
    omega

theorem Phys.Holds.congr (h : s.Holds r a bs)
    (hbyte : ∀ k < bs.length, s'.byte r (a + k) = s.byte r (a + k)) : s'.Holds r a bs :=
  fun k hk => (hbyte k hk).trans (h k hk)

end

/-! ## The stack page -/

/-- The stack of an image of size `sz` is a page, below it there is one that the user does not reach,
and the user reaches nothing of the kernel. -/
structure Walled (s : Phys) (r sz : ℕ) : Prop where
  aligned : sz % PGSIZE = 0
  two : 2 * PGSIZE ≤ sz
  lt : sz < KERNBASE
  guard : s.reach r (sz / PGSIZE - 2) = none
  kernel : ∀ i, 2 ^ 19 ≤ i → i < 2 ^ 20 → s.reach r i = none
  inj : s.ReachInj r

section

variable {s s' : Phys} {r sz va : ℕ} {bs : List UInt8}

theorem Walled.puts (hw : Walled s r sz) (hp : Puts s s' r va bs) : Walled s' r sz := by
  have hlt := hw.lt
  have hguard : sz / PGSIZE - 2 < 2 ^ 20 := by
    simp only [PGSIZE, KERNBASE] at hlt ⊢
    omega
  refine ⟨hw.aligned, hw.two, hlt, (hp.reach hguard).trans hw.guard, fun i hi hi' => ?_,
    fun i j x hi hj => ?_⟩
  · exact (hp.reach hi').trans (hw.kernel i hi hi')
  · rw [hp.reach hi, hp.reach hj]
    exact hw.inj i j x hi hj

theorem Walled.touches (hw : Walled s r sz) (hp : Puts s s' r va bs) : ¬Touches va bs.length (sz / PGSIZE - 2) :=
  fun htouch => hp.copied.touches htouch hw.guard

/-- Nothing can be copied to the kernel. -/
theorem Walled.lt_kernel (hw : Walled s r sz) (hp : Puts s s' r va bs) (hpos : 0 < bs.length) : va < KERNBASE := by
  have hbound := hp.bound
  by_contra hge
  refine hp.copied.touches ⟨0, hpos, rfl⟩ (hw.kernel _ ?_ (div_page_lt (by omega)))
  simp only [PGSIZE, KERNBASE] at hge ⊢
  omega

/-- What ends on the stack page begins there. -/
theorem Walled.le (hw : Walled s r sz) (hp : Puts s s' r va bs) (hpos : 0 < bs.length)
    (hend : sz - PGSIZE ≤ va + bs.length + 3) : sz - PGSIZE ≤ va := by
  have htwo := hw.two
  have haligned := hw.aligned
  by_contra hlt
  refine hw.touches hp ?_
  by_cases hdeep : va < sz - 2 * PGSIZE
  · refine ⟨sz - 2 * PGSIZE - va, ?_, ?_⟩ <;> simp only [PGSIZE] at * <;> omega
  · refine ⟨0, hpos, ?_⟩
    simp only [PGSIZE] at *
    omega

end

/-! ## Pushing -/

/-- The room that a string takes on the stack. -/
def slot (arg : List UInt8) : ℕ := (arg.length + 4) / 4 * 4

/-- The room that the arguments take on the stack, with the pointers and the words below them. -/
def argRoom (argv : List (List UInt8)) : ℕ := (argv.map slot).sum + (3 + argv.length + 1) * 4

/-- Where the strings are, and how long. -/
def strings (argv : List (List UInt8)) (ptrs : List ℕ) : List (ℕ × ℕ) :=
  ptrs.zip (argv.map fun arg => arg.length + 1)

/-- The string at each pointer lies below the ones before it. -/
abbrev Descends (l : List (ℕ × ℕ)) : Prop := l.Pairwise fun a b => b.1 + b.2 ≤ a.1

/-- Each pointer leads to its string. -/
def Phys.Points (s : Phys) (r : ℕ) (argv : List (List UInt8)) (ptrs : List ℕ) : Prop :=
  ∀ (i p : ℕ) (arg : List UInt8), ptrs[i]? = some p → argv[i]? = some arg → s.Holds r p (arg ++ [0])

/-- The strings `done` have been pushed on the stack of the image that was in `s₀`. -/
structure Stage (s₀ s : Phys) (r sz sp : ℕ) (done : List (List UInt8)) (ptrs : List ℕ) : Prop where
  walled : Walled s r sz
  length : ptrs.length = done.length
  points : s.Points r done ptrs
  order : Descends (strings done ptrs)
  bound : ∀ a ∈ strings done ptrs, sp ≤ a.1 ∧ a.1 + a.2 ≤ sz
  low : sz - PGSIZE ≤ sp
  used : sp + (done.map slot).sum = sz
  entry : ∀ i < 2 ^ 20, s.entry r i = s₀.entry r i
  rest : ∀ x, s₀.reach r (sz / PGSIZE - 1) ≠ some x → s.mem x = s₀.mem x

section

variable {s₀ s s' : Phys} {r sz sp va : ℕ} {done : List (List UInt8)} {ptrs : List ℕ} {arg : List UInt8}
  {bs : List UInt8}

theorem stage_start (hw : Walled s r sz) : Stage s s r sz sz [] [] :=
  ⟨hw, rfl, nofun, .nil, nofun, Nat.sub_le _ _, rfl, fun _ _ => rfl, fun _ _ => rfl⟩

theorem mem_strings {i p : ℕ} (hp : ptrs[i]? = some p) (harg : done[i]? = some arg) :
    (p, arg.length + 1) ∈ strings done ptrs := by
  refine List.mem_of_getElem? (i := i) ?_
  rw [strings, List.getElem?_zip_eq_some]
  exact ⟨hp, by rw [List.getElem?_map, harg]; rfl⟩

theorem slot_sum_mod : (done.map slot).sum % 4 = 0 := by
  induction done with
  | nil => rfl
  | cons arg done ih =>
    rw [List.map_cons, List.sum_cons, slot]
    omega

theorem Stage.aligned (h : Stage s₀ s r sz sp done ptrs) : sp % 4 = 0 := by
  have hmod := @slot_sum_mod done
  have hused := h.used
  have hsz := h.walled.aligned
  simp only [PGSIZE] at hsz
  omega

/-- A copy to the stack page below what is there. -/
theorem Stage.puts (h : Stage s₀ s r sz sp done ptrs) (hp : Puts s s' r va bs) (hlow : sz - PGSIZE ≤ va)
    (hend : va + bs.length ≤ sp) :
    Walled s' r sz ∧ s'.Points r done ptrs ∧ (∀ i < 2 ^ 20, s'.entry r i = s₀.entry r i) ∧
      ∀ x, s₀.reach r (sz / PGSIZE - 1) ≠ some x → s'.mem x = s₀.mem x := by
  have hsz := h.walled.lt
  have hused := h.used
  have hpage := h.walled.aligned
  simp only [KERNBASE] at hsz
  refine ⟨h.walled.puts hp, fun i p arg hi harg => ?_, fun i hi => (hp.entry i hi).trans (h.entry i hi),
    fun x hx => ?_⟩
  · obtain ⟨hge, hle⟩ := h.bound _ (mem_strings hi harg)
    simp only at hge hle
    refine (h.points i p arg hi harg).congr fun k hk => hp.byte h.walled.inj ?_ ?_ <;>
    · simp only [List.length_append, List.length_singleton] at *
      omega
  · refine Eq.trans ?_ (h.rest x hx)
    funext o
    refine hp.copied.rest x o fun k hk hx' _ => hx ?_
    -- every byte of the copy is on the stack page
    have hi : (va + k) / PGSIZE = sz / PGSIZE - 1 := by
      simp only [PGSIZE] at *
      omega
    rw [← hx', hi, Phys.reach, Phys.reach, h.entry _ (by simp only [PGSIZE]; omega)]

/-- A string goes right below the others. -/
theorem Stage.pushed_eq (h : Stage s₀ s r sz sp done ptrs) (hlen : arg.length ≤ 2 ^ 24)
    (hp : Puts s s' r (pushed sp arg) (arg ++ [0])) : pushed sp arg + slot arg = sp := by
  have haligned := h.aligned
  have hused := h.used
  have hsz := h.walled.lt
  have hlt := h.walled.lt_kernel hp (by simp)
  have huint : uint (arg.length + 1) = arg.length + 1 := Nat.mod_eq_of_lt (by omega)
  rw [pushed, huint] at hlt ⊢
  simp only [uint, slot, KERNBASE] at hsz hlt ⊢
  omega

theorem Stage.push (h : Stage s₀ s r sz sp done ptrs) (hlen : arg.length ≤ 2 ^ 24)
    (hp : Puts s s' r (pushed sp arg) (arg ++ [0])) :
    Stage s₀ s' r sz (pushed sp arg) (done ++ [arg]) (ptrs ++ [pushed sp arg]) := by
  have heq := h.pushed_eq hlen hp
  have hbytes : (arg ++ [0]).length = arg.length + 1 := by simp
  have hslot : arg.length + 1 ≤ slot arg ∧ slot arg ≤ arg.length + 4 := by
    simp only [slot]
    omega
  have hlow := h.low
  have hused := h.used
  have hlow' : sz - PGSIZE ≤ pushed sp arg := h.walled.le hp (by simp) (by omega)
  obtain ⟨hwalled, hholds, hentry, hrest⟩ := h.puts hp hlow' (by omega)
  have hstrings : strings (done ++ [arg]) (ptrs ++ [pushed sp arg]) =
      strings done ptrs ++ [(pushed sp arg, arg.length + 1)] := by
    rw [strings, List.map_append, List.zip_append (by simp [h.length])]
    rfl
  refine ⟨hwalled, by simp [h.length], fun i p arg' hi harg => ?_, ?_, ?_, hlow', ?_, hentry, hrest⟩
  · by_cases hlast : i < done.length
    · rw [List.getElem?_append_left (by rw [h.length]; exact hlast)] at hi
      rw [List.getElem?_append_left hlast] at harg
      exact hholds i p arg' hi harg
    · obtain rfl : i = done.length := by
        have := (List.getElem?_eq_some_iff.mp harg).1
        simp only [List.length_append, List.length_singleton] at this
        omega
      rw [← h.length, List.getElem?_concat_length] at hi
      rw [List.getElem?_concat_length] at harg
      obtain rfl := Option.some.inj hi
      obtain rfl := Option.some.inj harg
      exact hp.holds
  · rw [hstrings]
    refine List.pairwise_append.mpr ⟨h.order, List.pairwise_singleton _ _, fun a ha b hb => ?_⟩
    obtain rfl := List.mem_singleton.mp hb
    have := (h.bound a ha).1
    simp only
    omega
  · rw [hstrings]
    intro a ha
    rcases List.mem_append.mp ha with ha | ha
    · have := h.bound a ha
      omega
    · obtain rfl := List.mem_singleton.mp ha
      simp only
      omega
  · rw [List.map_append, List.sum_append, List.map_singleton, List.sum_singleton]
    omega

end

/-- The strings, and the words below them. -/
def regions (argv : List (List UInt8)) (ptrs : List ℕ) (esp : ℕ) : List (ℕ × ℕ) :=
  strings argv ptrs ++ [(esp, 4 * (argv.length + 4))]

/-- The stack of a program that starts with these arguments, in an image of size `sz`. From `esp` on there
are a false return address, the number of the arguments, the address of the pointers, the pointers, and
a null pointer. -/
structure ArgStack (s : Phys) (r sz esp : ℕ) (argv : List (List UInt8)) (ptrs : List ℕ) : Prop where
  length : ptrs.length = argv.length
  words : s.Holds r esp ((0xFFFFFFFF :: argv.length :: (esp + 12) :: ptrs ++ [0]).flatMap (Bytes.le 4))
  points : s.Points r argv ptrs
  disjoint : Descends (regions argv ptrs esp)
  inside : ∀ a ∈ regions argv ptrs esp, sz - PGSIZE ≤ a.1 ∧ a.1 + a.2 ≤ sz

section

variable {s₀ s s' : Phys} {r sz sp top : ℕ} {done argv : List (List UInt8)} {ptrs : List ℕ}

theorem Stage.finish (h : Stage s₀ s r sz sp done ptrs) (hargc : done.length ≤ 31)
    (htop : top = uint (sp + 2 ^ 32 - (3 + done.length + 1) * 4))
    (hp : Puts s s' r top (ustack done.length sp ptrs)) :
    ArgStack s' r sz top done ptrs ∧ argRoom done ≤ PGSIZE ∧ (∀ i < 2 ^ 20, s'.entry r i = s₀.entry r i) ∧
      ∀ x, s₀.reach r (sz / PGSIZE - 1) ≠ some x → s'.mem x = s₀.mem x := by
  have hlen : (ustack done.length sp ptrs).length = (3 + done.length + 1) * 4 := length_ustack h.length
  have hlow := h.low
  have hused := h.used
  have htwo := h.walled.two
  have hsz := h.walled.lt
  simp only [KERNBASE, PGSIZE] at hsz htwo hlow
  have hsp : top + 4 * (done.length + 4) = sp := by
    rw [htop, uint]
    omega
  have hmiddle : uint (sp + 2 ^ 32 - (done.length + 1) * 4) = top + 12 := by
    rw [uint]
    omega
  have hlow' : sz - PGSIZE ≤ top := h.walled.le hp (by omega) (by simp only [PGSIZE]; omega)
  obtain ⟨-, hpoints, hentry, hrest⟩ := h.puts hp hlow' (by omega)
  refine ⟨⟨h.length, ?_, hpoints, ?_, fun a ha => ?_⟩, ?_, hentry, hrest⟩
  · have := hp.holds
    rwa [ustack, hmiddle] at this
  · refine List.pairwise_append.mpr ⟨h.order, List.pairwise_singleton _ _, fun a ha b hb => ?_⟩
    obtain rfl := List.mem_singleton.mp hb
    exact hsp.trans_le (h.bound a ha).1
  · rcases List.mem_append.mp ha with ha | ha
    · have := h.bound a ha
      omega
    · obtain rfl := List.mem_singleton.mp ha
      simp only
      omega
  · rw [argRoom]
    omega

/-- All strings are pushed, and then the words. -/
theorem Stage.pushes (argv : List (List UInt8)) {argc : ℕ} (h : Stage s₀ s r sz sp done ptrs)
    (hdone : done.length = argc) (hargc : argc + argv.length ≤ 31)
    (hlen : (argv.map List.length).sum ≤ 2 ^ 24)
    (hp : Pushes r top argv argc sp ptrs s s') :
    (∃ ptrs', ArgStack s' r sz top (done ++ argv) ptrs') ∧ argRoom (done ++ argv) ≤ PGSIZE ∧
      (∀ i < 2 ^ 20, s'.entry r i = s₀.entry r i) ∧
      ∀ x, s₀.reach r (sz / PGSIZE - 1) ≠ some x → s'.mem x = s₀.mem x := by
  induction argv generalizing s sp done ptrs argc with
  | nil =>
    subst hdone
    obtain ⟨hstack, hrest⟩ := h.finish (by omega) hp.1 hp.2
    rw [List.append_nil]
    exact ⟨⟨ptrs, hstack⟩, hrest⟩
  | cons arg argv ih =>
    obtain ⟨s₁, hput, hp⟩ := hp
    rw [List.map_cons, List.sum_cons] at hlen
    rw [List.length_cons] at hargc
    have := ih (h.push (by omega) hput) (by simp [hdone]) (by omega) (by omega) hp
    rwa [List.append_assoc, List.singleton_append] at this

end

/-! ## `exec` -/

/-- The image in `s'` differs from the one in `s₁` on the stack page only. -/
structure Untouched (s₁ s' : Phys) (r sz : ℕ) : Prop where
  entry : ∀ i < 2 ^ 20, s'.entry r i = s₁.entry r i
  page : ∀ i < 2 ^ 19, i ≠ sz / PGSIZE - 1 → ∀ w, s₁.mapped r i = some w → s'.mem (frame w) = s₁.mem (frame w)

section

variable {ι κ : Type} {K : Image} {s s₁ s₂ s' : Phys} {ρ : Roots ι κ} {ω ω' : ℕ → Option (Place ι κ)} {g g₀ : ι}
  {r sz sp : ℕ} {argv : List (List UInt8)}

/-- The user does not reach a page after `clearpteu`. -/
theorem reached_clear {P : Plan} {i : ℕ} : reached ((P.clear i).entry i) = none := by
  have huser : ∀ w, user (w &&& 0xFFFFFFFB) = false := by
    intro w
    have hmask : Nat.testBit 0xFFFFFFFB 2 = false := by decide
    rw [user, Nat.testBit_and, hmask, Bool.and_false]
  cases he : P.entry i with
  | none => simp [Plan.clear, he, reached]
  | some w => simp [Plan.clear, he, reached, Option.filter, huser]

theorem Laid.walled (hl : Laid K ρ ω g argv r sz sp s₁ s₂) (hr : ρ.dir g = some r) : Walled s₁ r sz := by
  obtain ⟨P, hfur, -⟩ := hl.furnished
  have hlt := hfur.lt
  refine ⟨hfur.aligned, hfur.two, hlt, ?_, fun i hi hi' => ?_, fun i j x hi hj => hl.inv.reach_inj hr hi hj⟩
  · rw [Phys.reach, ← hfur.sees.entry _ (by simp only [PGSIZE, KERNBASE] at hlt ⊢; omega)]
    exact reached_clear
  · by_contra hne
    obtain ⟨x, hx⟩ := Option.ne_none_iff_exists'.mp hne
    have := (hl.inv.reach_place hr hi' hx).1
    omega

theorem Laid.stack (hl : Laid K ρ ω g argv r sz sp s₁ s₂) (hr : ρ.dir g = some r) (hargc : argv.length ≤ 31)
    (hlen : (argv.map List.length).sum ≤ 2 ^ 24) :
    (∃ ptrs, ArgStack s₂ r sz sp argv ptrs) ∧ argRoom argv ≤ PGSIZE ∧ Untouched s₁ s₂ r sz := by
  have hwalled := hl.walled hr
  have hlt := hwalled.lt
  obtain ⟨hstack, hroom, hentry, hrest⟩ :=
    (stage_start hwalled).pushes argv rfl (by simpa using hargc) hlen hl.pushes
  refine ⟨hstack, hroom, hentry, fun i hi hne w hw => hrest _ fun hx => hne ?_⟩
  have hpl := (hl.inv.mapped_place hr hi hw).symm.trans (hl.inv.reach_place hr ?_ hx).2
  · exact (Place.page.inj (Option.some.inj hpl)).2
  · simp only [PGSIZE, KERNBASE] at hlt ⊢
    omega

/-- The user sees the same after another address space has been freed. -/
theorem Inv.byte_others (h : Inv K s ρ ω) (hr : ρ.dir g = some r) (hne : g ≠ g₀) (hothers : Others s s' ρ g₀)
    (hsteady : Steady (· ≠ g₀) s s' ω ω') {a : ℕ} (ha : a < 2 ^ 32) : s'.byte r a = s.byte r a := by
  have hi := div_page_lt ha
  rw [Phys.byte, Phys.reach, hothers g r _ hr hi hne, ← Phys.reach, Phys.byte]
  cases hx : s.reach r (a / PGSIZE) with
  | none => rfl
  | some x =>
    have hmem := (hsteady x g _ hne (h.reach_place hr hi hx).2).2
    rw [Option.map_some, Option.map_some, hmem]

theorem ArgStack.congr {ptrs : List ℕ} (h : ArgStack s r sz sp argv ptrs) (hsz : sz ≤ KERNBASE)
    (hbyte : ∀ a < 2 ^ 32, s'.byte r a = s.byte r a) : ArgStack s' r sz sp argv ptrs := by
  refine ⟨h.length, h.words.congr fun k hk => hbyte _ ?_, fun i p arg hi harg =>
    (h.points i p arg hi harg).congr fun k hk => hbyte _ ?_, h.disjoint, h.inside⟩
  · have := (h.inside (sp, 4 * (argv.length + 4)) (by simp [regions])).2
    rw [length_words] at hk
    simp only [List.length_append, List.length_cons, List.length_nil, h.length, KERNBASE] at hk this hsz
    omega
  · have := (h.inside _ (List.mem_append_left _ (mem_strings hi harg))).2
    simp only [List.length_append, List.length_singleton, KERNBASE] at hk this hsz
    omega

theorem Untouched.others (h : Untouched s₁ s r sz) (h₁ : Inv K s₁ ρ ω) (hr : ρ.dir g = some r) (hne : g ≠ g₀)
    (hothers : Others s s' ρ g₀) (hsteady : Steady (· ≠ g₀) s s' ω ω') : Untouched s₁ s' r sz where
  entry i hi := (hothers g r i hr hi hne).trans (h.entry i hi)
  page i hi hlast w hw :=
    (hsteady _ g i hne (h₁.mapped_place hr hi hw)).2.trans (h.page i hi hlast w hw)

end

/-- The plan before a call that makes an address space. -/
def Phys.blank (s : Phys) : Plan := ⟨s.answers, fun _ => none, 0⟩

/-- If `exec` returns 0, the arguments are on the stack page of the new image, the other pages of which
are as they were loaded. If there is no room for them on one page, it returns -1. -/
def ArgsRight (K : Image) (s : Phys) (file : Option (List UInt8)) (path : List UInt8)
    (argv : List (List UInt8)) (self : Space) : Prop :=
  (∀ (sp : Space) (s' : Phys), exec K file path argv self s = .ok (0, sp) s' →
    (∃ ptrs, ArgStack s' sp.pgdir sp.sz sp.esp argv ptrs) ∧
      ∃ s₁, loadImage K file s = .ok (some (sp.pgdir, sp.sz)) s₁ ∧ Untouched s₁ s' sp.pgdir sp.sz) ∧
  (PGSIZE < argRoom argv → ∃ s', exec K file path argv self s = .ok (-1, self) s')

section

variable {ι κ : Type} {K : Image} {s : Phys} {ρ : Roots ι κ} {ω : ℕ → Option (Place ι κ)} {g : ι}
  {file : Option (List UInt8)} {path : List UInt8} {argv : List (List UInt8)} {self : Space}

open Classical in
/-- What `exec` returns, and with which stack. -/
theorem wp_exec_args {E : Fault → Prop} (file : Option (List UInt8)) (path : List UInt8) (h : Inv K s ρ ω)
    (hself : ρ.dir g = some self.pgdir)
    (hargc : argv.length ≤ 31) (hlen : (argv.map List.length).sum ≤ 2 ^ 24)
    (hE : ¬(s.blank.exec K file).Fits (file.getD []) argv → Loud E) :
    wp E (exec K file path argv self) (fun res s' => (s.blank.exec K file).Fits (file.getD []) argv ∧
      (res = (-1, self) ∧ (s.blank.exec K file).Rejects argv ∨ res.1 = 0 ∧ argRoom argv ≤ PGSIZE ∧
        (∃ ptrs, ArgStack s' res.2.pgdir res.2.sz res.2.esp argv ptrs) ∧
        ∃ s₁, loadImage K file s = .ok (some (res.2.pgdir, res.2.sz)) s₁ ∧
          Untouched s₁ s' res.2.pgdir res.2.sz)) s := by
  have hself' : ρ.inject.dir (some g) = some self.pgdir := hself
  refine wp_exec (g := none) (P := s.blank) h.inject rfl hself' rfl hE
    (fun s' ω' hfit _ hrej => ⟨hfit, .inl ⟨rfl, hrej⟩⟩) fun r sz sp s' ω' hfit _ hsz _ _ hlaid => ⟨hfit, .inr ?_⟩
  obtain ⟨s₁, s₂, ω₂, hload, hlaid, hothers, hsteady⟩ := hlaid
  have hr := Function.update_self (none : Option ι) (some r) ρ.inject.dir
  have hne : (none : Option ι) ≠ some g := (Option.some_ne_none g).symm
  obtain ⟨⟨ptrs, hstack⟩, hroom, hun⟩ := hlaid.stack hr hargc hlen
  obtain ⟨P, -, hwrote⟩ := hlaid.furnished
  exact ⟨rfl, hroom, ⟨ptrs, hstack.congr hsz fun a ha => hwrote.inv.byte_others hr hne hothers hsteady ha⟩,
    s₁, hload, hun.others hlaid.inv hr hne hothers hsteady⟩

/-- Unless there is no room, `exec` returns 0. -/
theorem exec_zero (h : Inv K s ρ ω) (hself : ρ.dir g = some self.pgdir) (hargc : argv.length ≤ 31)
    (hlen : (argv.map List.length).sum ≤ 2 ^ 24) (hfit : (s.blank.exec K file).Fits (file.getD []) argv)
    (hroom : ¬(s.blank.exec K file).Rejects argv) : ∃ sp s', exec K file path argv self s = .ok (0, sp) s' := by
  obtain ⟨⟨z, sp⟩, s', hrun, -, ⟨-, hrej⟩ | ⟨hz, -⟩⟩ := wp_returns (wp_exec_args file path h
    hself hargc hlen fun hbad => absurd hfit hbad)
  · exact absurd hrej hroom
  · obtain rfl : z = 0 := hz
    exact ⟨sp, s', hrun⟩

/-- The arguments of `exec` are right if and only if there is room for them, or everything that `exec`
stores goes where it should. -/
theorem exec_args_iff (h : Inv K s ρ ω) (hself : ρ.dir g = some self.pgdir) (hargc : argv.length ≤ 31)
    (hlen : (argv.map List.length).sum ≤ 2 ^ 24) :
    ArgsRight K s file path argv self ↔
      argRoom argv ≤ PGSIZE ∨ (s.blank.exec K file).Fits (file.getD []) argv := by
  have hwp := wp_exec_args (E := fun _ => True) file path h hself hargc hlen
    fun _ _ _ => trivial
  constructor
  · rintro ⟨-, hfail⟩
    refine or_iff_not_imp_left.mpr fun hroom => ?_
    obtain ⟨s', hrun⟩ := hfail (not_le.mp hroom)
    exact (wp_ok hwp hrun).1
  · intro hcond
    refine ⟨fun sp s' hrun => ?_, fun hroom => ?_⟩
    · obtain ⟨-, ⟨heq, -⟩ | ⟨-, -, hstack⟩⟩ := wp_ok hwp hrun
      · cases (Prod.mk.inj heq).1
      · exact hstack
    · have hfit := hcond.resolve_left (not_le.mpr hroom)
      obtain ⟨res, s', hrun, -, ⟨rfl, -⟩ | ⟨-, hle, -⟩⟩ := wp_returns (wp_exec_args file path h
        hself hargc hlen fun hbad => absurd hfit hbad)
      · exact ⟨s', hrun⟩
      · omega

end

/-! ## Two programs -/

/-- The header of a program with `n` segments. -/
def header (n : UInt8) : List UInt8 :=
  [0x7F, 0x45, 0x4C, 0x46] ++ List.replicate 24 0 ++ [52, 0, 0, 0] ++ List.replicate 12 0 ++ [n, 0] ++
    List.replicate 6 0

theorem Phys.answers_bare {n i : ℕ} {grant : ℕ → Bool} (hi : i < n) (hg : grant i = true) :
    (Phys.bare n grant).answers i ≠ none := by
  have hcount : (List.range i).countP grant ≤ i := by
    simpa using List.countP_le_length (p := grant) (l := List.range i)
  simp only [Phys.answers, Phys.bare, hg, if_true]
  simp [hcount.trans_lt hi]

theorem Plan.clear_other {P : Plan} {i j : ℕ} (h : j ≠ i) : (P.clear i).entry j = P.entry j :=
  Function.update_of_ne h _ _

/-- A copy within a page that the user reaches. -/
theorem Plan.copyout_page {P : Plan} {fuel va n w : ℕ} (hw : P.entry (va / PGSIZE) = some w)
    (hp : present w = true) (hu : user w = true) (hle : va % PGSIZE + n ≤ PGSIZE) :
    P.copyout fuel va n = some true := by
  cases n with
  | zero => cases fuel <;> rfl
  | succ n =>
    cases fuel with
    | zero => rfl
    | succ fuel =>
      have hdone : n + 1 - (PGSIZE - va % PGSIZE) = 0 := by omega
      rw [Plan.copyout, hw]
      simp only [hp, hu, Bool.and_self, if_true, hdone]
      cases fuel <;> rfl

/-- The stack of a program without segments. -/
theorem stack_header {K : Image} {P P' : Plan} (hsetup : P.setup K = (true, P')) (h : P'.Enough 3) :
    ∃ Q x, P.exec K (some (header 0)) = ⟨[], some (0x2000, Q), Q⟩ ∧ Q.entry 0 ≠ none ∧
      Q.entry 1 = some (pte x (PTE_W ||| PTE_U)) := by
  have helf : readElf (header 0) = some ⟨ELF_MAGIC, 0, 52, 0⟩ := rfl
  have hexec : P.exec K (some (header 0)) = P'.image (header 0) ⟨ELF_MAGIC, 0, 52, 0⟩ := by
    unfold Plan.exec
    simp only [helf, hsetup]
    rfl
  obtain ⟨x₀, h₀⟩ := Option.ne_none_iff_exists'.mp (h 0 (by decide))
  obtain ⟨x₁, h₁⟩ := Option.ne_none_iff_exists'.mp (h 1 (by decide))
  obtain ⟨x₂, h₂⟩ := Option.ne_none_iff_exists'.mp (h 2 (by decide))
  have hlow : P'.entry 0 = none := Plan.setup_low hsetup (by decide)
  have hgrow : (P'.grow 2 0).1 = true ∧ (P'.grow 2 0).2.entry 0 ≠ none ∧
      (P'.grow 2 0).2.entry 1 = some (pte x₂ (PTE_W ||| PTE_U)) := by
    simp [Plan.grow, Plan.map, Plan.walk, Plan.next, Plan.set, h₀, h₁, h₂, hlow]
  have hstack : P'.stack 0 = (0x2000, (P'.grow 2 0).2) := by
    rw [Plan.stack, show PGROUNDUP 0 = 0 by decide, show uint (0 + 2 * PGSIZE) = 0x2000 by decide,
      Plan.alloc_of_le (by decide) (by decide), show pages 0x2000 - pages 0 = 2 by decide,
      show pages 0 = 0 by decide, hgrow.1, if_pos rfl]
  refine ⟨_, x₂, ?_, hgrow.2⟩
  rw [hexec]
  simp [Plan.image, Plan.segments, hstack]

/-- Two letters fit on the stack. -/
theorem args_header {Q : Plan} {x : ℕ} (hentry : Q.entry 1 = some (pte x (PTE_W ||| PTE_U))) :
    (Q.clear (0x2000 / PGSIZE - 2)).args [[104, 105]] 0 0x2000 = some (some 0x1FE8) := by
  have hpage : (Q.clear (0x2000 / PGSIZE - 2)).entry 1 = some (pte x (PTE_W ||| PTE_U)) := by
    rw [Plan.clear_other (by decide), hentry]
  have huser : user (pte x (PTE_W ||| PTE_U)) = true := by
    rw [user, testBit_pte (by decide)]
    decide
  generalize Q.clear (0x2000 / PGSIZE - 2) = R at hpage
  have hcopy : ∀ fuel va n, va / PGSIZE = 1 → va % PGSIZE + n ≤ PGSIZE → R.copyout fuel va n = some true :=
    fun fuel va n hva hle => Plan.copyout_page (hva ▸ hpage) present_pte huser hle
  have hpushed : pushed 0x2000 [104, 105] = 0x1FFC := by decide
  have htop : uint (0x1FFC + 2 ^ 32 - (3 + (0 + 1) + 1) * 4) = 0x1FE8 := by decide
  rw [Plan.args, if_neg (by decide), hpushed, hcopy _ _ _ (by decide) (by decide)]
  simp only [Plan.args, htop]
  rw [hcopy _ _ _ (by decide) (by decide)]
  rfl

theorem exec_args_iff_header : ∃ s sp s' ptrs,
    exec .sample (some (header 0)) [] [[104, 105]] ⟨1024, 0, 0, 0, []⟩ s = .ok (0, sp) s' ∧
      ArgStack s' sp.pgdir sp.sz sp.esp [[104, 105]] ptrs := by
  have hinv := inv_bare (κ := Unit) (g := ()) (n := 100) (by decide) fun _ => true
  have henough : (Phys.bare 100 fun _ => true).blank.Enough (3 + 65) := by
    intro m hm
    show (Phys.bare 100 fun _ => true).answers m ≠ none
    exact Phys.answers_bare (by omega) rfl
  obtain ⟨P', hsetup, henough'⟩ := Plan.setup_enough (K := .sample) henough
  obtain ⟨Q, x, hexec, hguard, hentry⟩ := stack_header hsetup henough'
  have hargs := args_header hentry
  have hfit : ((Phys.bare 100 fun _ => true).blank.exec .sample (some (header 0))).Fits (header 0)
      [[104, 105]] := by
    rw [hexec]
    refine ⟨nofun, ?_⟩
    rintro _ _ ⟨⟩
    exact ⟨hguard, by rw [hargs]; nofun⟩
  have hright : ArgsRight .sample (.bare 100 fun _ => true) (some (header 0)) [] [[104, 105]] ⟨1024, 0, 0, 0, []⟩ :=
    (exec_args_iff hinv dir_only (by decide) (by decide)).mpr (.inr hfit)
  have hroom : ¬((Phys.bare 100 fun _ => true).blank.exec .sample (some (header 0))).Rejects [[104, 105]] := by
    rw [hexec]
    intro hrej
    rw [hrej _ _ rfl] at hargs
    cases hargs
  obtain ⟨sp, s', hrun⟩ : ∃ sp s', exec .sample (some (header 0)) [] [[104, 105]] ⟨1024, 0, 0, 0, []⟩
      (.bare 100 fun _ => true) = .ok (0, sp) s' :=
    exec_zero hinv dir_only (by decide) (by decide) hfit hroom
  obtain ⟨⟨ptrs, hstack⟩, -⟩ := hright.1 sp s' hrun
  exact ⟨_, sp, s', ptrs, hrun, hstack⟩

/-- A program with a single segment, which is one byte long and lies at 4 megabytes. -/
def tall : List UInt8 :=
  header 1 ++ [1, 0, 0, 0, 0, 0, 0, 0, 0, 0, 0x40, 0] ++ List.replicate 8 0 ++ [1, 0, 0, 0] ++
    List.replicate 8 0

/-- All that is mapped of that program is what lies above 4 megabytes. -/
theorem stack_tall {K : Image} {P P' : Plan} (hsetup : P.setup K = (true, P'))
    (hstarve : ∀ m < 1024, P'.ask (2 * m) ≠ none ∧ P'.ask (2 * m + 1) = none)
    (hrest : ∀ m < 6, P'.ask (2048 + m) ≠ none) :
    ∃ Q, (P.exec K (some tall)).stack = some (0x403000, Q) ∧ Q.entry 1022 = none := by
  have helf : readElf tall = some ⟨ELF_MAGIC, 0, 52, 1⟩ := rfl
  have hprog : readProg tall 52 = some ⟨1, 0, 0x400000, 0, 1⟩ := rfl
  have hexec : P.exec K (some tall) = P'.image tall ⟨ELF_MAGIC, 0, 52, 1⟩ := by
    unfold Plan.exec
    simp only [helf, hsetup]
    rfl
  have hcomplete : Proghdr.Complete ⟨1, 0, 0x400000, 0, 1⟩ tall := nofun
  -- the segment
  obtain ⟨Q, hgrow, hentry, hask⟩ : ∃ Q : Plan, P'.grow (1024 + 1) 0 = Q.grow 1 (0 + 1024) ∧
      Q.entry = P'.entry ∧ ∀ i, Q.ask i = P'.ask (2 * 1024 + i) :=
    Plan.grow_starved hstarve fun m hm => Plan.setup_low hsetup (by omega)
  obtain ⟨hok, henough⟩ := Plan.grow_enough (P := Q) (n := 1) (c := 4) (j := 0 + 1024) fun m hm => by
    rw [hask]
    exact hrest m hm
  have hnone : (Q.grow 1 (0 + 1024)).2.entry 1022 = none := by
    rw [Plan.grow_other (by omega), hentry]
    exact Plan.setup_low hsetup (by decide)
  have halloc : P'.alloc 0 0x400001 = (0x400001, (Q.grow 1 (0 + 1024)).2) := by
    rw [Plan.alloc_of_le (by decide) (by decide), show pages 0x400001 - pages 0 = 1024 + 1 by decide,
      show pages 0 = 0 by decide, hgrow, hok, if_pos rfl]
  generalize (Q.grow 1 (0 + 1024)).2 = A at henough hnone halloc
  have hsegments : P'.segments tall 1 52 0 = ([(⟨1, 0, 0x400000, 0, 1⟩, A)], some 0x400001, A) := by
    simp [Plan.segments, hprog, ELF_PROG_LOAD, uint, halloc, hcomplete]
  -- the stack
  obtain ⟨hok', -⟩ := Plan.grow_enough (P := A) (n := 2) (c := 0) (j := 1025) henough
  have hstack : A.stack 0x400001 = (0x403000, (A.grow 2 1025).2) := by
    rw [Plan.stack, show PGROUNDUP 0x400001 = 0x401000 by decide, show uint (0x401000 + 2 * PGSIZE) = 0x403000 by decide,
      Plan.alloc_of_le (by decide) (by decide), show pages 0x403000 - pages 0x401000 = 2 by decide,
      show pages 0x401000 = 1025 by decide, hok', if_pos rfl]
  refine ⟨(A.grow 2 1025).2, ?_, ?_⟩
  · rw [hexec]
    simp [Plan.image, hsegments, hstack]
  · rw [Plan.grow_other (by omega), hnone]

/-- Of the requests from number `c` on, every second one is refused, 1024 times. -/
def scarce (c i : ℕ) : Bool := decide (i < c ∨ c + 2048 ≤ i ∨ (i - c) % 2 = 0)

theorem Plan.args_missing {P : Plan} {arg : List UInt8} {rest : List (List UInt8)} {sp : ℕ}
    (h : P.entry (pushed sp arg / PGSIZE) = none) : P.args (arg :: rest) 0 sp = none := by
  rw [Plan.args, if_neg (by decide), Plan.copyout, h]

/-- The page tables below 4 megabytes are missing, and an argument that is too long gets there: `copyout`
follows a null pointer. -/
theorem exec_tall : ∃ (grant : ℕ → Bool) (ω : ℕ → Option (Place Unit Unit)),
    Inv .sample (.bare 3000 grant) (Roots.only ()) ω ∧
      ¬ArgsRight .sample (.bare 3000 grant) (some tall) [] [List.replicate 20000 65] ⟨1024, 0, 0, 0, []⟩ := by
  -- the number of requests that `setupkvm` makes
  let P : Plan := ⟨fun m => if m < 65 then (Phys.bare 3000 fun _ => true).answers m else none, fun _ => none, 0⟩
  have henough : P.Enough (0 + 65) := fun m hm => by
    simp only [P, if_pos (show m < 65 by omega)]
    exact Phys.answers_bare (by omega) rfl
  obtain ⟨P', hsetup, -⟩ := Plan.setup_enough (K := .sample) henough
  obtain ⟨x, hx⟩ := Option.ne_none_iff_exists'.mp (henough 0 (by decide))
  obtain ⟨c, hc⟩ := Plan.reads_setup (K := .sample) hx
  have hle : c ≤ 65 := by
    by_contra hgt
    refine hc.met (by rw [hsetup]) 65 (by omega) ?_
    simp only [P, lt_irrefl, if_false]
  have hinv := inv_bare (κ := Unit) (g := ()) (n := 3000) (by decide) (scarce c)
  refine ⟨scarce c, _, hinv, fun hright => ?_⟩
  have hagree : ∀ m < c, (Phys.bare 3000 (scarce c)).answers m = P.ask m := by
    intro m hm
    have hscarce : ∀ i < c, scarce c i = true := fun i hi => decide_eq_true (.inl hi)
    have hcount : (List.range m).countP (scarce c) = (List.range m).countP fun _ => true :=
      List.countP_congr fun i hi => by simp [hscarce i (by have := List.mem_range.mp hi; omega)]
    simp only [P, if_pos (show m < 65 by omega), Phys.answers, Phys.bare, hscarce m hm, hcount]
  have hrun := hc.run _ hagree
  rw [hsetup] at hrun
  have hrefused : ∀ m < 1024, ¬scarce c (2 * m + 1 + c) = true := by
    intro m hm
    rw [scarce, decide_eq_true_eq]
    omega
  obtain ⟨Q, hstack, hnone⟩ := stack_tall (P := (Phys.bare 3000 (scarce c)).blank) hrun
    (fun m hm => ⟨Phys.answers_bare (by omega) (decide_eq_true (by omega)), if_neg (hrefused m hm)⟩)
    fun m hm => Phys.answers_bare (by omega) (decide_eq_true (by omega))
  obtain ⟨s', hexec⟩ := hright.2 (by
    rw [argRoom, List.map_singleton, List.sum_singleton, slot, List.length_replicate]
    decide)
  have hlen : (([List.replicate 20000 65] : List (List UInt8)).map List.length).sum ≤ 2 ^ 24 := by
    rw [List.map_singleton, List.sum_singleton, List.length_replicate]
    decide
  have hfit := (wp_ok (wp_exec_args (E := fun _ => True) (some tall) [] hinv dir_only (Nat.le_of_ble_eq_true rfl) hlen
    fun _ _ _ => trivial) hexec).1
  refine (hfit.stack _ _ hstack).args (Plan.args_missing ?_)
  have hpage : pushed 0x403000 (List.replicate 20000 65) / PGSIZE = 1022 := by
    rw [pushed, List.length_replicate]
    decide
  rw [hpage, Plan.clear_other (by decide), hnone]

end Xv6.Vm
