import Xv6.Files.Calls

/-!
# The reference counts of open files are exact
-/

namespace Xv6.Files

open Conc

variable {n : ℕ} {s : State n} {c : Config (State n) (Fin n) Unit} {γ : Fin n → Ghost n}

/-- Every process is between two calls, or in one that has only to read or write a pipe any more. -/
def Quiescent (c : Config (State n) (Fin n) Unit) : Prop := ∀ p, (c.thread p).run c.shared = .ok () c.shared

/-- The reference counts are exact. -/
structure Exact (s : State n) : Prop where
  /-- `ref` is the number of descriptors that point to the file. -/
  refs : ∀ f, (s.file f).ref = ∑ p, (Finset.univ.filter fun fd => s.ofile p fd = some f).card
  zero : ∀ f, (s.file f).ref = 0 → (s.file f).type = .none
  /-- An end of a pipe is open if some open file is that end. -/
  ends : ∀ a w, s.live a = true → (s.isOpen a w = true ↔ ∃ f, 0 < (s.file f).ref ∧ Refers (s.file f) a w)
  /-- The page of a pipe is in use until both ends are closed. -/
  page : ∀ a, s.live a = true ↔ ∃ f w, 0 < (s.file f).ref ∧ Refers (s.file f) a w
  /-- Each time that the page has been allocated it has been freed once, or it is in use. -/
  once : ∀ a, s.made a = s.freed a + if s.live a then 1 else 0

/-! ## Soundness -/

theorem Inv.wake {p : Fin n} (h : Inv s γ) (hidle : Idle (γ p)) (halive : s.state p = .alive) :
    Inv s (Function.update γ p ⟨some ⟨s.ofile p, none⟩, none, none, 0⟩) := by
  obtain ⟨htokens, hchild, hskip⟩ := hidle
  have hown : (⟨some ⟨s.ofile p, none⟩, none, none, 0⟩ : Ghost n).own = some ⟨s.ofile p, none⟩ := rfl
  have htables := h.tables.setOwn rfl halive hown hchild.symm
  rw [Function.update_eq_self] at htables
  refine h.move rfl (htokens.trans (zero_add 0).symm) (zero_add 0).symm htables rfl (fun _ _ => rfl) fun f => ?_
  have hslots : slots s.ofile (Function.update γ p ⟨some ⟨s.ofile p, none⟩, none, none, 0⟩) = slots s.ofile γ :=
    slots_same rfl hskip.symm
  rw [hslots]

theorem sound_system : Sound (system (n := n)) Inv noFault fun _ _ => Idle where
  call _ _ _ _ k h hidle halive := ⟨_, h.wake hidle halive, wp_body k⟩
  restart _ _ _ _ h := h.elim

theorem slots_of_idle {ofile : Fin n → Ofile} (hidle : ∀ p, Idle (γ p)) (f : FSlot) :
    slots ofile γ f = ∑ p, (Finset.univ.filter fun fd => ofile p fd = some f).card := by
  refine Finset.sum_congr rfl fun p _ => ?_
  rw [(hidle p).2.2, share, Finset.card_filter]
  simp

theorem bag_of_idle (hidle : ∀ p, Idle (γ p)) : bag γ = 0 := by
  rw [bag, total]
  exact Finset.sum_eq_zero fun p _ => (hidle p).1

theorem Booted.inv (h : Booted s) : Inv s fun _ => ⟨none, none, none, 0⟩ := by
  have hidle : ∀ _ : Fin n, Idle (⟨none, none, none, 0⟩ : Ghost n) := fun _ => ⟨rfl, rfl, rfl⟩
  have howners : ∀ a w, owners s.file a w = 0 := by
    intro a w
    by_contra hne
    obtain ⟨f, hf⟩ := owners_pos.1 (Nat.pos_of_ne_zero hne)
    have htype := hf.1
    rw [(h.file f).2] at htype
    cases htype
  refine ⟨⟨by simp, by simp, by simp, fun q _ => funext (h.ofile q)⟩, ?_, by simp⟩
  rw [bag_of_idle hidle]
  refine ⟨fun f => ?_, fun f _ => (h.file f).2, by simp, by simp, fun a w => ?_, fun a => ?_, fun a => ?_⟩
  · rw [slots_of_idle hidle, (h.file f).1]
    simp [h.ofile]
  · simp [howners, h.live]
  · simp [h.live]
  · simp [h.live, h.made]

theorem Inv.exact (h : Inv s γ) (hidle : ∀ p, Idle (γ p)) : Exact s := by
  have hc := h.counts
  rw [bag_of_idle hidle] at hc
  have hpos : ∀ f a w, Refers (s.file f) a w → 0 < (s.file f).ref := by
    intro f a w hf
    have hne : (s.file f).ref ≠ 0 := by
      intro h0
      have htype := hf.1
      rw [hc.zero f h0] at htype
      cases htype
    have href := hc.refs f
    omega
  have hends : ∀ a w, (s.live a = true ∧ s.isOpen a w = true) ↔ ∃ f, 0 < (s.file f).ref ∧ Refers (s.file f) a w := by
    intro a w
    have hcount := hc.ends a w
    rw [Multiset.count_zero, Nat.add_zero] at hcount
    constructor
    · intro hopen
      rw [if_pos hopen] at hcount
      obtain ⟨f, hf⟩ := owners_pos.1 (hcount ▸ Nat.one_pos)
      exact ⟨f, hpos f a w hf, hf⟩
    · rintro ⟨f, -, hf⟩
      have howner := owners_pos.2 ⟨f, hf⟩
      by_contra hopen
      rw [if_neg hopen] at hcount
      omega
  refine ⟨fun f => ?_, hc.zero, fun a w hlive => ?_, fun a => ⟨fun hlive => ?_, ?_⟩, hc.made⟩
  · rw [← slots_of_idle hidle, hc.refs f]
    simp
  · rw [← hends]
    exact ⟨fun hopen => ⟨hlive, hopen⟩, fun hopen => hopen.2⟩
  · -- a page that nobody is about to free has an open end
    have hfree := hc.frees a
    have hopen : ∃ w, s.isOpen a w = true := by
      by_contra hclosed
      push Not at hclosed
      rw [if_pos ⟨hlive, by simpa using hclosed false, by simpa using hclosed true⟩] at hfree
      simp at hfree
    obtain ⟨w, hw⟩ := hopen
    obtain ⟨f, hf⟩ := (hends a w).1 ⟨hlive, hw⟩
    exact ⟨f, w, hf⟩
  · rintro ⟨f, w, hf⟩
    exact ((hends a w).2 ⟨f, hf⟩).1

/-- In every state that can be reached, no reference count is found to be wrong and no page is used after it
has been freed or freed too early; and whenever the calls have come to their ends, the counts are exact. -/
theorem exact_of_quiescent (hboot : Booted s) (hr : Reach system ⟨s, fun _ => .ret ()⟩ c) :
    (∀ e, ¬ c.Faults e) ∧ (Quiescent c → Exact c.shared) := by
  have hinit : Holds Inv noFault (fun _ _ => Idle) ⟨s, fun _ => .ret ()⟩ :=
    ⟨_, hboot.inv, fun p => ⟨rfl, rfl, rfl⟩⟩
  have hc := wp_pool sound_system hinit hr
  refine ⟨fun e he => hc.faults he, fun hq => ?_⟩
  obtain ⟨γ, h, hidle⟩ := Holds.idle hc hq
  exact h.exact hidle

/-- One process and no open files. -/
def single : State 1 :=
  ⟨fun _ => ⟨.none, 0, false, false, 0⟩, fun _ _ => none, fun _ => .alive, fun _ _ => false, fun _ => false, fun _ => 0,
    fun _ => 0⟩

theorem booted_single : Booted single := ⟨fun _ => ⟨rfl, rfl⟩, fun _ _ => rfl, fun _ => nofun, fun _ => rfl, fun _ => rfl⟩

instance {s : State n} {p : Fin n} {l : Unit} {k : (system (n := n)).Call} : Decidable (system.allowed s p l k) :=
  inferInstanceAs (Decidable (s.state p = .alive))

/-- The process opens a pipe in page 7 and duplicates the descriptor of its read end. -/
theorem exact_of_quiescent_single : ∃ c, Reach system ⟨single, fun _ => .ret ()⟩ c ∧ Exact c.shared ∧
    (c.shared.file 0).ref = 2 ∧ c.shared.live 7 = true := by
  have hrun : ∃ s, runCalls system [(0, .pipe (some 7)), (0, .dup 0)] single (fun _ => ()) = some (s, fun _ => ()) ∧
      (s.file 0).ref = 2 ∧ s.live 7 = true := ⟨_, rfl, rfl, rfl⟩
  obtain ⟨s, hrun, href, hlive⟩ := hrun
  have hreach := reach_runCalls system hrun
  exact ⟨_, hreach, (exact_of_quiescent booted_single hreach).2 fun _ => rfl, href, hlive⟩

end Xv6.Files
