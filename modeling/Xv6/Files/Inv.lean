import Xv6.Conc.Logic
import Xv6.Conc.Tokens
import Xv6.Files.Table
import Mathlib.Algebra.Order.BigOperators.Group.Finset

/-!
# Who has references to open files

A reference to an open file is in a table of descriptors or in the hands of a process that is about to put
it there or to close it; likewise an end of a pipe belongs to a file or to a process that is making or
closing it. What processes have in their hands are tokens.
-/

namespace Xv6.Files

open Conc
open Function (update update_self update_of_ne)

inductive Token where
  /-- The reference to a file that has no type yet. -/
  | new (f : FSlot)
  /-- A reference to a file. -/
  | ref (f : FSlot)
  /-- The end of a pipe, still open, that belongs to no file. -/
  | pend (a : ℕ) (w : Bool)
  /-- The duty to free the page of a pipe that is closed at both ends. -/
  | free (a : ℕ)
  deriving DecidableEq

/-- A process knows its table of descriptors. The reference in the slot `skip` does not count: there is a
token for it, or there soon will be. -/
structure Own where
  table : Ofile
  skip : Option Fd

/-- The ghost value of a process: what it knows of its own table, of the table of the child that it is
making and of the pipe that it is reading or writing, and its tokens. -/
structure Ghost (n : ℕ) where
  own : Option Own
  child : Option (Fin n × Ofile)
  use : Option (FSlot × ℕ × Bool)
  tokens : Multiset Token

variable {n : ℕ}

/-! ## Counting -/

/-- How many descriptors of a table count as references to `f`. -/
def share (t : Ofile) (skip : Option Fd) (f : FSlot) : ℕ := ∑ fd, if t fd = some f ∧ skip ≠ some fd then 1 else 0

def Ghost.skip (g : Ghost n) : Option Fd := g.own.bind Own.skip

/-- How many descriptors count as references to `f`. -/
def slots (ofile : Fin n → Ofile) (γ : Fin n → Ghost n) (f : FSlot) : ℕ := ∑ q, share (ofile q) (γ q).skip f

def bag (γ : Fin n → Ghost n) : Multiset Token := total fun q => (γ q).tokens

/-- The file is the end `w` of the pipe in page `a`. -/
def Refers (x : File) (a : ℕ) (w : Bool) : Prop := x.type = .pipe ∧ x.pipe = a ∧ x.writable = w

instance {x : File} {a : ℕ} {w : Bool} : Decidable (Refers x a w) := inferInstanceAs (Decidable (_ ∧ _ ∧ _))

/-- How many files are the end `w` of the pipe in page `a`. -/
def owners (file : FSlot → File) (a : ℕ) (w : Bool) : ℕ := ∑ f, if Refers (file f) a w then 1 else 0

section

variable {t : Ofile} {fd : Fd} {f : FSlot}

/-- The slot `fd` and the others. -/
theorem share_split (t : Ofile) (fd : Fd) (f : FSlot) :
    share t none f = share t (some fd) f + if t fd = some f then 1 else 0 := by
  have h := sum_update_add (fun e => if t e = some f ∧ (none : Option Fd) ≠ some e then 1 else 0) fd 0
  have hskip : ∑ e, update (fun e => if t e = some f ∧ (none : Option Fd) ≠ some e then 1 else 0) fd 0 e =
      share t (some fd) f := by
    refine Finset.sum_congr rfl fun e _ => ?_
    by_cases he : e = fd
    · simp [he]
    · simp [he, Ne.symm he]
  rw [hskip] at h
  simpa [share] using h.symm

/-- A slot that is skipped does not matter. -/
theorem share_update_skip {v : Option FSlot} : share (update t fd v) (some fd) f = share t (some fd) f := by
  refine Finset.sum_congr rfl fun e _ => ?_
  by_cases he : e = fd
  · simp [he]
  · simp [he]

theorem share_pos (h : t fd = some f) {skip : Option Fd} (hs : skip ≠ some fd) : 0 < share t skip f := by
  have hle : (if t fd = some f ∧ skip ≠ some fd then 1 else 0) ≤ share t skip f :=
    Finset.single_le_sum (f := fun e => if t e = some f ∧ skip ≠ some e then 1 else 0) (fun _ _ => Nat.zero_le _)
      (Finset.mem_univ fd)
  rwa [if_pos ⟨h, hs⟩] at hle

theorem owners_update {file : FSlot → File} {x : File} {a : ℕ} {w : Bool} :
    owners (update file f x) a w + (if Refers (file f) a w then 1 else 0) =
      owners file a w + if Refers x a w then 1 else 0 := by
  have h := sum_update_add (fun e => if Refers (file e) a w then 1 else 0) f (if Refers x a w then 1 else 0)
  have hupdate : ∑ e, update (fun e => if Refers (file e) a w then 1 else 0) f
      (if Refers x a w then 1 else 0) e = owners (update file f x) a w := by
    refine Finset.sum_congr rfl fun e _ => ?_
    by_cases he : e = f
    · simp [he]
    · simp [he]
  rw [hupdate] at h
  exact h

theorem owners_pos {file : FSlot → File} {a : ℕ} {w : Bool} : 0 < owners file a w ↔ ∃ f, Refers (file f) a w := by
  constructor
  · intro h
    by_contra hnone
    have hzero : owners file a w = 0 := Finset.sum_eq_zero fun f _ => if_neg fun hf => hnone ⟨f, hf⟩
    omega
  · rintro ⟨f, hf⟩
    have hle : (if Refers (file f) a w then 1 else 0) ≤ owners file a w :=
      Finset.single_le_sum (f := fun f => if Refers (file f) a w then 1 else 0) (fun _ _ => Nat.zero_le _)
        (Finset.mem_univ f)
    rwa [if_pos hf] at hle

end

/-! ## The invariant -/

/-- The tables of descriptors and who may change them. -/
structure Tables (ofile : Fin n → Ofile) (state : Fin n → ProcState) (γ : Fin n → Ghost n) : Prop where
  own : ∀ q o, (γ q).own = some o → ofile q = o.table ∧ state q = .alive
  child : ∀ q r t, (γ q).child = some (r, t) → ofile r = t ∧ state r = .embryo
  sole : ∀ q q' r t t', (γ q).child = some (r, t) → (γ q').child = some (r, t') → q = q'
  empty : ∀ q, state q = .unused ∨ state q = .zombie → ofile q = fun _ => none

/-- The counts, when `sl f` descriptors refer to the file `f` and `T` are the tokens. -/
structure Counts (s : State n) (sl : FSlot → ℕ) (T : Multiset Token) : Prop where
  refs : ∀ f, (s.file f).ref = sl f + T.count (.new f) + T.count (.ref f)
  zero : ∀ f, (s.file f).ref = 0 → (s.file f).type = .none
  new : ∀ f, .new f ∈ T → (s.file f).type = .none
  sole : ∀ f, T.count (.new f) ≤ 1
  ends : ∀ a w, owners s.file a w + T.count (.pend a w) = if s.live a ∧ s.isOpen a w then 1 else 0
  frees : ∀ a, T.count (.free a) = if s.live a ∧ s.isOpen a false = false ∧ s.isOpen a true = false then 1 else 0
  made : ∀ a, s.made a = s.freed a + if s.live a then 1 else 0

structure Inv (s : State n) (γ : Fin n → Ghost n) : Prop where
  tables : Tables s.ofile s.state γ
  counts : Counts s (slots s.ofile γ) (bag γ)
  use : ∀ q f a w, (γ q).use = some (f, a, w) →
    Refers (s.file f) a w ∧ ∃ o fd, (γ q).own = some o ∧ o.table fd = some f ∧ o.skip ≠ some fd

/-! ## Exchanging tokens -/

section

variable {s s' : State n} {γ : Fin n → Ghost n} {p : Fin n} {g : Ghost n} {old new ts : Multiset Token} {g' : Ghost n}

theorem bag_change (hg : γ p = g) (hts : g.tokens = old + ts) (hts' : g'.tokens = new + ts) :
    ∃ T₀, bag γ = old + T₀ ∧ bag (update γ p g') = new + T₀ := by
  have hold : (fun q => (γ q).tokens) p = old + ts := by
    dsimp only
    rw [hg, hts]
  have h : ∃ T₀, total (fun q => (γ q).tokens) = old + T₀ ∧
      total (update (fun q => (γ q).tokens) p (new + ts)) = new + T₀ := total_change hold
  have heq : update (fun q => (γ q).tokens) p (new + ts) = fun q => (update γ p g' q).tokens := by
    funext q
    rcases eq_or_ne q p with rfl | hq
    · simp [hts']
    · simp [hq]
  rwa [heq] at h

theorem slots_same {ofile : Fin n → Ofile} (hg : γ p = g) (hskip : g'.skip = g.skip) :
    slots ofile (update γ p g') = slots ofile γ := by
  funext f
  refine Finset.sum_congr rfl fun q _ => ?_
  rcases eq_or_ne q p with rfl | hq
  · rw [update_self, hskip, hg]
  · rw [update_of_ne hq]

theorem Tables.same {ofile : Fin n → Ofile} {state : Fin n → ProcState} (h : Tables ofile state γ)
    (hg : γ p = g) (hown : g'.own = g.own) (hchild : g'.child = g.child) :
    Tables ofile state (update γ p g') := by
  have hsame : ∀ q, (update γ p g' q).own = (γ q).own ∧ (update γ p g' q).child = (γ q).child := by
    intro q
    rcases eq_or_ne q p with rfl | hq
    · rw [update_self, hg]
      exact ⟨hown, hchild⟩
    · rw [update_of_ne hq]
      exact ⟨rfl, rfl⟩
  refine ⟨fun q o ho => h.own q o ?_, fun q r t ht => h.child q r t ?_, fun q q' r t t' ht ht' => h.sole q q' r t t' ?_ ?_,
    h.empty⟩
  · rwa [(hsame q).1] at ho
  · rwa [(hsame q).2] at ht
  · rwa [(hsame q).2] at ht
  · rwa [(hsame q').2] at ht'

theorem Inv.slots_pos (h : Inv s γ) {q : Fin n} {o : Own} {fd : Fd} {f : FSlot} (ho : (γ q).own = some o)
    (hf : o.table fd = some f) (hs : o.skip ≠ some fd) : 0 < slots s.ofile γ f := by
  have hshare : 0 < share (s.ofile q) (γ q).skip f := by
    rw [(h.tables.own q o ho).1, Ghost.skip, ho]
    exact share_pos hf hs
  refine hshare.trans_le ?_
  exact Finset.single_le_sum (f := fun q => share (s.ofile q) (γ q).skip f) (fun _ _ => Nat.zero_le _)
    (Finset.mem_univ q)

/-- What the tokens of a process say about the counts. -/
theorem Inv.counts_of (h : Inv s γ) (hg : γ p = g) (hts : g.tokens = old + ts) :
    ∃ T, Counts s (slots s.ofile γ) (old + T) := by
  obtain ⟨T, hbag, -⟩ := bag_change hg hts hts
  exact ⟨T, hbag ▸ h.counts⟩

/-- A section that changes files and pipes but no table: a process exchanges the tokens `old` for `new`. -/
theorem Inv.exchange (h : Inv s γ) (s' : State n) (new : Multiset Token) (hg : γ p = g) (hts : g.tokens = old + ts) (hofile : s'.ofile = s.ofile)
    (hstate : s'.state = s.state)
    (hcounts : ∀ T, Counts s (slots s.ofile γ) (old + T) → Counts s' (slots s.ofile γ) (new + T))
    (hkeep : ∀ T, Counts s (slots s.ofile γ) (old + T) →
      ∀ f a w, 0 < slots s.ofile γ f → Refers (s.file f) a w → Refers (s'.file f) a w) :
    Inv s' (update γ p { g with tokens := new + ts }) := by
  have hts' : ({ g with tokens := new + ts } : Ghost n).tokens = new + ts := rfl
  obtain ⟨T₀, hbag, hbag'⟩ := bag_change hg hts hts'
  have hc := h.counts
  rw [hbag] at hc
  refine ⟨?_, ?_, fun q f a w hq => ?_⟩
  · rw [hofile, hstate]
    exact h.tables.same hg rfl rfl
  · have hslots : slots s.ofile (update γ p { g with tokens := new + ts }) = slots s.ofile γ :=
      slots_same hg rfl
    rw [hofile, hbag', hslots]
    exact hcounts _ hc
  · have hold : (update γ p { g with tokens := new + ts } q).use = (γ q).use ∧
        (update γ p { g with tokens := new + ts } q).own = (γ q).own := by
      rcases eq_or_ne q p with rfl | hqp
      · rw [update_self, hg]
        exact ⟨rfl, rfl⟩
      · rw [update_of_ne hqp]
        exact ⟨rfl, rfl⟩
    rw [hold.1] at hq
    obtain ⟨href, o, fd, ho, hfd, hs⟩ := h.use q f a w hq
    exact ⟨hkeep _ hc f a w (h.slots_pos ho hfd hs) href, o, fd, by rw [hold.2, ho], hfd, hs⟩

end

end Xv6.Files
