import Xv6.Files.Inv

/-!
# Rules for open files and pipes
-/

namespace Xv6.Files

open Conc
open Function (update update_self update_of_ne update_eq_self)

variable {n : ℕ} {s : State n} {sl : FSlot → ℕ} {T T' ts : Multiset Token} {f : FSlot} {p : Fin n} {g : Ghost n}
  {a : ℕ} {w : Bool} {x : File} {t : Token} {Q : Unit → Ghost n → Prop}

/-! ## Counts -/

/-- One file changes. -/
theorem Counts.setFile (h : Counts s sl T) (href : x.ref = sl f + T'.count (.new f) + T'.count (.ref f))
    (hzero : x.ref = 0 → x.type = .none) (hnew : .new f ∈ T' → x.type = .none) (hsole : T'.count (.new f) ≤ 1)
    (hother : ∀ e ≠ f, T'.count (.new e) = T.count (.new e) ∧ T'.count (.ref e) = T.count (.ref e))
    (hends : ∀ a w, (if Refers x a w then 1 else 0) + T'.count (.pend a w) =
      (if Refers (s.file f) a w then 1 else 0) + T.count (.pend a w))
    (hfree : ∀ a, T'.count (.free a) = T.count (.free a)) : Counts (s.setFile f x) sl T' := by
  refine ⟨fun e => ?_, fun e he => ?_, fun e he => ?_, fun e => ?_, fun a w => ?_, fun a => ?_, h.made⟩
  · rcases eq_or_ne e f with rfl | hef
    · simpa using href
    · simpa [hef, hother e hef] using h.refs e
  · rcases eq_or_ne e f with rfl | hef
    · simp only [State.setFile_file, update_self] at he ⊢
      exact hzero he
    · simp only [State.setFile_file, update_of_ne hef] at he ⊢
      exact h.zero e he
  · rcases eq_or_ne e f with rfl | hef
    · simpa using hnew he
    · rw [← Multiset.count_pos, (hother e hef).1, Multiset.count_pos] at he
      simpa [hef] using h.new e he
  · by_cases hef : e = f
    · rwa [hef]
    · rw [(hother e hef).1]
      exact h.sole e
  · have h1 := h.ends a w
    have h2 := @owners_update f s.file x a w
    have h3 := hends a w
    have hsame : owners (update s.file f x) a w + T'.count (.pend a w) =
        owners s.file a w + T.count (.pend a w) := by omega
    exact hsame.trans h1
  · rw [hfree]
    exact h.frees a

/-- Only the reference count of a file changes. -/
theorem Counts.setRef {r : ℤ} (h : Counts s sl T) (href : r = sl f + T'.count (.new f) + T'.count (.ref f)) (hr : r ≠ 0)
    (hnew : .new f ∈ T' → (s.file f).type = .none) (hsole : T'.count (.new f) ≤ 1)
    (hother : ∀ t, t ≠ .new f → t ≠ .ref f → T'.count t = T.count t) :
    Counts (s.setFile f { s.file f with ref := r }) sl T' := by
  refine h.setFile href (fun h0 => absurd h0 hr) hnew hsole (fun e he => ⟨?_, ?_⟩) (fun a w => ?_) fun a => ?_
  · exact hother _ (by simpa using he) (by simp)
  · exact hother _ (by simp) (by simpa using he)
  · rw [hother _ (by simp) (by simp)]
    rfl
  · exact hother _ (by simp) (by simp)

theorem Counts.filealloc (h : Counts s sl T) (hf : (s.file f).ref = 0) :
    Counts (s.setFile f { s.file f with ref := 1 }) sl ({.new f} + T) := by
  have href := h.refs f
  refine h.setRef ?_ one_ne_zero (fun _ => h.zero f hf) ?_ fun t h1 _ => ?_
  · simp only [count_one_add, if_true, reduceCtorEq, if_false]
    omega
  · simp only [count_one_add, if_true]
    omega
  · simp only [count_one_add, h1, if_false, Nat.add_zero]

theorem Counts.filedup (h : Counts s sl T) (hf : 0 < sl f) :
    Counts (s.setFile f { s.file f with ref := (s.file f).ref + 1 }) sl ({.ref f} + T) := by
  have href := h.refs f
  refine h.setRef ?_ (by omega) (fun hn => h.new f ?_) ?_ fun t _ h2 => ?_
  · simp only [count_one_add, if_true, reduceCtorEq, if_false]
    omega
  · simpa using hn
  · simpa only [count_one_add, reduceCtorEq, if_false, Nat.add_zero] using h.sole f
  · simp only [count_one_add, h2, if_false, Nat.add_zero]

/-- A reference that is not the last one is given up. -/
theorem Counts.drop (ht : t = .ref f ∨ t = .new f) (h : Counts s sl ({t} + T)) (hr : (s.file f).ref - 1 ≠ 0) :
    Counts (s.setFile f { s.file f with ref := (s.file f).ref - 1 }) sl T := by
  have href := h.refs f
  have hsole := h.sole f
  simp only [count_one_add] at href hsole
  refine h.setRef ?_ hr (fun hn => h.new f (Multiset.mem_add.2 (.inr hn))) (by omega) fun t' h1 h2 => ?_
  · obtain rfl | rfl := ht <;> simp only [if_true, reduceCtorEq, if_false] at href <;> omega
  · obtain rfl | rfl := ht
    · simp only [count_one_add, h2, if_false, Nat.add_zero]
    · simp only [count_one_add, h1, if_false, Nat.add_zero]

/-- What is left when the last reference to a file is given up. -/
def leftover (x : File) : Multiset Token := if x.type = .pipe then {.pend x.pipe x.writable} else 0

theorem count_leftover (h : ∀ a w, t ≠ .pend a w) : (leftover x).count t = 0 := by
  rw [leftover]
  split_ifs
  · rw [Multiset.count_singleton, if_neg (h _ _)]
  · exact Multiset.count_zero t

theorem count_leftover_pend : (leftover x).count (.pend a w) = if Refers x a w then 1 else 0 := by
  rw [leftover]
  by_cases hx : x.type = .pipe
  · rw [if_pos hx, Multiset.count_singleton]
    simp only [Token.pend.injEq, Refers, hx, true_and, eq_comm]
  · rw [if_neg hx, Multiset.count_zero, if_neg fun hr => hx hr.1]

theorem Counts.last (ht : t = .ref f ∨ t = .new f) (h : Counts s sl ({t} + T)) (hr : (s.file f).ref = 1) :
    sl f = 0 ∧ Counts (s.setFile f { s.file f with ref := 0, type := .none }) sl (leftover (s.file f) + T) := by
  have href := h.refs f
  have hzero : sl f = 0 ∧ T.count (.new f) = 0 ∧ T.count (.ref f) = 0 := by
    simp only [count_one_add] at href
    obtain rfl | rfl := ht <;> simp only [if_true, reduceCtorEq, if_false] at href <;> omega
  obtain ⟨hsl, hn, hrf⟩ := hzero
  have hleft : ∀ a w, ¬ Refers { s.file f with ref := 0, type := .none } a w := fun a w hc => by cases hc.1
  refine ⟨hsl, h.setFile ?_ (fun _ => rfl) (fun _ => rfl) ?_ (fun e he => ?_) (fun a w => ?_) fun a => ?_⟩
  · simp [Multiset.count_add, count_leftover, hsl, hn, hrf]
  · simp [Multiset.count_add, count_leftover, hn]
  · obtain rfl | rfl := ht <;> simp [Multiset.count_add, count_leftover, he]
  · rw [if_neg (hleft a w), Multiset.count_add, count_leftover_pend]
    obtain rfl | rfl := ht <;> simp
  · obtain rfl | rfl := ht <;> simp [Multiset.count_add, count_leftover]

/-- A file that had no type gets one; the end of a pipe, if it is one, comes with it. -/
theorem Counts.setType (h : Counts s sl ({.new f} + (leftover x + T))) (href : x.ref = (s.file f).ref) :
    Counts (s.setFile f x) sl ({.ref f} + T) := by
  have hold := h.refs f
  have hsole := h.sole f
  have hnone := h.new f (by simp)
  simp only [count_one_add, if_true, reduceCtorEq, if_false] at hold hsole
  simp only [Multiset.count_add, count_leftover (t := .new f) (by simp), count_leftover (t := .ref f) (by simp)]
    at hold hsole
  refine h.setFile ?_ (fun h0 => ?_) (fun hn => ?_) ?_ (fun e he => ⟨?_, ?_⟩) (fun a w => ?_) fun a => ?_
  · simp only [count_one_add, if_true, reduceCtorEq, if_false]
    omega
  · omega
  · rw [← Multiset.count_pos, count_one_add, if_neg (by simp)] at hn
    omega
  · rw [count_one_add, if_neg (by simp)]
    omega
  · simp [Multiset.count_add, count_leftover, he]
  · simp [Multiset.count_add, count_leftover, he]
  · have hnot : ¬ Refers (s.file f) a w := by
      rintro ⟨hp, -⟩
      rw [hnone] at hp
      cases hp
    rw [if_neg hnot]
    simp only [count_one_add, reduceCtorEq, if_false]
    rw [Multiset.count_add, count_leftover_pend]
    omega
  · simp [Multiset.count_add, count_leftover]

/-- A page becomes a pipe. -/
theorem Counts.newPipe (h : Counts s sl T) (hlive : s.live a = false) :
    Counts { s with
      isOpen := update s.isOpen a fun _ => true
      live := update s.live a true
      made := update s.made a (s.made a + 1) } sl ({.pend a false} + ({.pend a true} + T)) := by
  refine ⟨fun e => ?_, h.zero, fun e he => h.new e ?_, fun e => ?_, fun a' w => ?_, fun a' => ?_, fun a' => ?_⟩
  · simpa [count_one_add] using h.refs e
  · simpa using he
  · simpa [count_one_add] using h.sole e
  · have hends := h.ends a' w
    rcases eq_or_ne a' a with rfl | ha
    · rw [if_neg (by simp [hlive])] at hends
      have hcount : ({.pend a' false} + ({.pend a' true} + T) : Multiset Token).count (.pend a' w) =
          T.count (.pend a' w) + 1 := by
        rw [count_one_add, count_one_add]
        cases w <;> simp
      rw [hcount]
      simp only [update_self, and_self, if_true]
      omega
    · simpa [count_one_add, ha] using hends
  · have hfree := h.frees a'
    rcases eq_or_ne a' a with rfl | ha
    · simpa [count_one_add, hlive] using hfree
    · simpa [count_one_add, ha] using hfree
  · have hmade := h.made a'
    rcases eq_or_ne a' a with rfl | ha
    · simpa [hlive] using hmade
    · simpa [ha] using hmade

/-- An end of a pipe is closed. If it is the last one, the page has to be freed. -/
theorem Counts.closeEnd (h : Counts s sl ({.pend a w} + T)) :
    s.live a = true ∧ Counts (s.setOpen a w false) sl
      ((if s.isOpen a (!w) then 0 else {.free a}) + T) := by
  have hends := h.ends a w
  rw [count_one_add, if_pos rfl] at hends
  have hopen : s.live a = true ∧ s.isOpen a w = true := by
    by_contra hc
    rw [if_neg hc] at hends
    omega
  obtain ⟨hlive, hw⟩ := hopen
  have hcount : ∀ t, (∀ b, t ≠ .free b) → ((if s.isOpen a (!w) then 0 else {.free a}) + T : Multiset Token).count t =
      T.count t := by
    intro t ht
    rw [Multiset.count_add]
    split_ifs <;> simp [ht]
  refine ⟨hlive, fun e => ?_, h.zero, fun e he => h.new e ?_, fun e => ?_, fun a' w' => ?_, fun a' => ?_, h.made⟩
  · have href := h.refs e
    simp only [count_one_add, reduceCtorEq, if_false, Nat.add_zero] at href
    rw [hcount _ (by simp), hcount _ (by simp)]
    exact href
  · rw [← Multiset.count_pos, hcount _ (by simp), Multiset.count_pos] at he
    exact Multiset.mem_add.2 (.inr he)
  · have hsole := h.sole e
    simp only [count_one_add, reduceCtorEq, if_false, Nat.add_zero] at hsole
    rw [hcount _ (by simp)]
    exact hsole
  · have hends' := h.ends a' w'
    rw [count_one_add] at hends'
    have hfile : (s.setOpen a w false).file = s.file := rfl
    rw [hcount _ (by simp), hfile]
    rcases eq_or_ne a' a with rfl | ha
    · rcases eq_or_ne w' w with rfl | hww
      · rw [if_pos ⟨hlive, hw⟩] at hends
        simp only [State.setOpen_isOpen, State.setOpen_live, update_self, Bool.false_eq_true, and_false, if_false]
        omega
      · simpa [hww] using hends'
    · simpa [ha] using hends'
  · have hfree := h.frees a'
    simp only [count_one_add, reduceCtorEq, if_false, Nat.add_zero] at hfree
    rcases eq_or_ne a' a with rfl | ha
    · have hnot : ¬ (s.live a' = true ∧ s.isOpen a' false = false ∧ s.isOpen a' true = false) := by
        cases w <;> simp [hw]
      rw [if_neg hnot] at hfree
      rw [Multiset.count_add, hfree]
      cases w <;> cases hother : s.isOpen a' (!_) <;> simp_all
    · rw [Multiset.count_add]
      have hsame : (if s.isOpen a (!w) then 0 else {.free a} : Multiset Token).count (.free a') = 0 := by
        split_ifs <;> simp [ha]
      rw [hsame, Nat.zero_add, hfree]
      simp [ha]

/-- The page is freed. -/
theorem Counts.kfree (h : Counts s sl ({.free a} + T)) :
    (s.live a = true ∧ s.isOpen a false = false ∧ s.isOpen a true = false) ∧ Counts { s with
      live := update s.live a false
      freed := update s.freed a (s.freed a + 1) } sl T := by
  have hfree := h.frees a
  rw [count_one_add, if_pos rfl] at hfree
  have hdone : s.live a = true ∧ s.isOpen a false = false ∧ s.isOpen a true = false := by
    by_contra hc
    rw [if_neg hc] at hfree
    omega
  obtain ⟨hlive, hr, hw⟩ := hdone
  refine ⟨⟨hlive, hr, hw⟩, fun e => ?_, h.zero, fun e he => h.new e (Multiset.mem_add.2 (.inr he)), fun e => ?_,
    fun a' w' => ?_, fun a' => ?_, fun a' => ?_⟩
  · simpa [count_one_add] using h.refs e
  · simpa [count_one_add] using h.sole e
  · have hends := h.ends a' w'
    rw [count_one_add, if_neg (by simp), Nat.add_zero] at hends
    rcases eq_or_ne a' a with rfl | ha
    · have hclosed : s.isOpen a' w' = false := by cases w' <;> assumption
      simpa [hclosed] using hends
    · simpa [ha] using hends
  · have hfree' := h.frees a'
    rw [count_one_add] at hfree'
    rcases eq_or_ne a' a with rfl | ha
    · rw [if_pos ⟨hlive, hr, hw⟩] at hfree
      simp only [update_self, Bool.false_eq_true, false_and, if_false]
      omega
    · simpa [ha] using hfree'
  · have hmade := h.made a'
    rcases eq_or_ne a' a with rfl | ha
    · simp only [hlive, if_true] at hmade
      simpa using hmade
    · simpa [ha] using hmade

/-! ## Files and pipes -/

/-- No fault is tolerated. -/
def noFault (_ : State n) (_ : Fault) : Prop := False

theorem refers_setFile {e : FSlot} (hx : Refers (s.file f) a w → Refers x a w)
    (h : Refers (s.file e) a w) : Refers ((s.setFile f x).file e) a w := by
  rcases eq_or_ne e f with rfl | he
  · simpa using hx h
  · simpa [he] using h

theorem wp_filealloc {Q : Option FSlot → Ghost n → Prop} (hnone : Q none g)
    (hsome : ∀ f, Q (some f) { g with tokens := {.new f} + g.tokens }) : wp Inv noFault p filealloc g Q := by
  intro s γ h hg
  have hts : g.tokens = 0 + g.tokens := (zero_add _).symm
  dsimp only
  generalize hfind : (List.finRange NFILE).find? (fun f => decide ((s.file f).ref = 0)) = r
  cases r with
  | none =>
    refine ⟨g, ?_, hnone⟩
    rwa [← hg, update_eq_self]
  | some f =>
    have hf : (s.file f).ref = 0 := by simpa using List.find?_some hfind
    refine ⟨_, h.exchange (s.setFile f _) _ hg hts rfl rfl (fun T hc => ?_) (fun _ _ _ _ _ _ he => refers_setFile id he), hsome f⟩
    rw [zero_add] at hc
    exact hc.filealloc hf

/-- A process duplicates a reference that is in its table. -/
theorem wp_filedup {o : Own} {fd : Fd} (ho : g.own = some o) (hfd : o.table fd = some f)
    (hskip : o.skip ≠ some fd) (hQ : Q () { g with tokens := {.ref f} + g.tokens }) :
    wp Inv noFault p (filedup f) g Q := by
  intro s γ h hg
  have hts : g.tokens = 0 + g.tokens := (zero_add _).symm
  have hpos : 0 < slots s.ofile γ f := h.slots_pos (by rw [hg]; exact ho) hfd hskip
  have href : ¬ (s.file f).ref < 1 := by
    have := h.counts.refs f
    omega
  dsimp only
  rw [if_neg href]
  refine ⟨_, h.exchange (s.setFile f _) _ hg hts rfl rfl (fun T hc => ?_) (fun _ _ _ _ _ _ he => refers_setFile id he), hQ⟩
  rw [zero_add] at hc
  exact hc.filedup hpos

/-- The locked part of `fileclose`. -/
theorem wp_fileput (ht : t = .ref f ∨ t = .new f) {Q : Option File → Ghost n → Prop}
    (hts : g.tokens = {t} + ts) (hnone : Q none { g with tokens := ts })
    (hsome : ∀ x, Q (some x) { g with tokens := leftover x + ts }) : wp Inv noFault p (fileput f) g Q := by
  intro s γ h hg
  have hpos : 0 < (s.file f).ref := by
    obtain ⟨T, hc⟩ := h.counts_of hg hts
    have href := hc.refs f
    rw [count_one_add, count_one_add] at href
    obtain rfl | rfl := ht <;> simp only [if_true, reduceCtorEq, if_false] at href <;> omega
  dsimp only
  rw [if_neg (by omega)]
  split_ifs with hlast
  · have hinv := h.exchange (s.setFile f { s.file f with ref := (s.file f).ref - 1 }) 0 hg hts rfl rfl (fun T hc => by
      rw [zero_add]
      exact hc.drop ht (by omega)) (fun _ _ _ _ _ _ he => refers_setFile id he)
    rw [zero_add] at hinv
    exact ⟨_, hinv, hnone⟩
  · have hone : (s.file f).ref = 1 := by omega
    refine ⟨_, h.exchange (s.setFile f _) _ hg hts rfl rfl (fun T hc => (hc.last ht hone).2) (fun T hc e a w hsl he => ?_), hsome _⟩
    -- nothing refers to the file any more
    have hef : e ≠ f := by
      rintro rfl
      have := (hc.last ht hone).1
      omega
    simpa [hef] using he

theorem wp_closeEnd {Q : Bool → Ghost n → Prop} (hts : g.tokens = {.pend a w} + ts)
    (hopen : Q false { g with tokens := ts }) (hclosed : Q true { g with tokens := {.free a} + ts }) :
    wp Inv noFault p (closeEnd a w) g Q := by
  intro s γ h hg
  have hlive : s.live a = true := by
    obtain ⟨T, hc⟩ := h.counts_of hg hts
    exact hc.closeEnd.1
  dsimp only
  rw [if_pos hlive]
  have hinv := h.exchange (s.setOpen a w false) _ hg hts rfl rfl (fun T hc => hc.closeEnd.2) (fun _ _ _ _ _ _ he => he)
  have hres : (!(s.setOpen a w false).isOpen a false && !(s.setOpen a w false).isOpen a true) = !s.isOpen a (!w) := by
    cases w <;> simp
  dsimp only
  rw [hres]
  cases hother : s.isOpen a (!w) with
  | true =>
    rw [hother, if_pos rfl, zero_add] at hinv
    exact ⟨_, hinv, hopen⟩
  | false =>
    rw [hother, if_neg (by simp)] at hinv
    exact ⟨_, hinv, hclosed⟩

theorem wp_kfree (hts : g.tokens = {.free a} + ts) (hQ : Q () { g with tokens := ts }) :
    wp Inv noFault p (kfree a) g Q := by
  intro s γ h hg
  obtain ⟨T, hc⟩ := h.counts_of hg hts
  dsimp only
  rw [if_pos hc.kfree.1]
  have hinv := h.exchange { s with
      live := update s.live a false
      freed := update s.freed a (s.freed a + 1) } 0 hg hts rfl rfl (fun T hc => by
    rw [zero_add]
    exact hc.kfree.2) (fun _ _ _ _ _ _ he => he)
  rw [zero_add] at hinv
  exact ⟨_, hinv, hQ⟩

theorem wp_pipeclose (hts : g.tokens = {.pend a w} + ts)
    (hQ : Q () { g with tokens := ts }) : wp Inv noFault p (pipeclose a w) g Q := by
  refine wp_bind.2 (wp_closeEnd hts ?_ ?_)
  · exact hQ
  · exact wp_kfree rfl hQ

/-- A reference that the process has in its hands is given up. -/
theorem wp_fileclose (ht : t = .ref f ∨ t = .new f)
    (hts : g.tokens = {t} + ts) (hQ : Q () { g with tokens := ts }) : wp Inv noFault p (fileclose f) g Q := by
  refine wp_bind.2 (wp_fileput ht hts hQ fun x => ?_)
  dsimp only
  cases htype : x.type with
  | pipe => exact wp_pipeclose (by simp [leftover, htype]) hQ
  | none => simpa [leftover, htype] using hQ
  | inode => simpa [leftover, htype] using hQ

theorem wp_newPipe {page : Option ℕ} {Q : Option ℕ → Ghost n → Prop} (hnone : Q none g)
    (hsome : ∀ a, Q (some a) { g with tokens := {.pend a false} + ({.pend a true} + g.tokens) }) :
    wp Inv noFault p (newPipe page) g Q := by
  intro s γ h hg
  have hts : g.tokens = 0 + g.tokens := (zero_add _).symm
  have hsame : ∃ g', Inv s (update γ p g') ∧ Q none g' := ⟨g, by rwa [← hg, update_eq_self], hnone⟩
  cases page with
  | none => exact hsame
  | some a =>
    dsimp only
    cases hlive : s.live a with
    | true => simpa using hsame
    | false =>
      have hinv := h.exchange { s with
          isOpen := update s.isOpen a fun _ => true
          live := update s.live a true
          made := update s.made a (s.made a + 1) } ({.pend a false} + {.pend a true}) hg hts rfl rfl (fun T hc => by
        rw [add_assoc]
        rw [zero_add] at hc
        exact hc.newPipe hlive) (fun _ _ _ _ _ _ he => he)
      rw [add_assoc] at hinv
      exact ⟨_, hinv, hsome a⟩

/-- A new file gets its type. -/
theorem wp_setType {x : File → File} {c : Multiset Token} (href : ∀ y, (x y).ref = y.ref) (hc : ∀ y, leftover (x y) = c)
    (hts : g.tokens = {.new f} + (c + ts)) (hQ : Q () { g with tokens := {.ref f} + ts }) :
    wp Inv noFault p (.modifies fun s => s.setFile f (x (s.file f))) g Q := by
  refine wp_modifies fun s γ h hg => ?_
  rw [← add_assoc] at hts
  refine ⟨_, h.exchange (s.setFile f _) _ hg hts rfl rfl (fun T hcs => ?_) (fun T hcs e a w _ he => ?_), hQ⟩
  · rw [add_assoc, ← hc (s.file f)] at hcs
    exact hcs.setType (href _)
  · refine refers_setFile (fun href => ?_) he
    have hnone := hcs.new f (by simp)
    rw [href.1] at hnone
    cases hnone

theorem wp_setPipeEnd (hts : g.tokens = {.new f} + ({.pend a w} + ts))
    (hQ : Q () { g with tokens := {.ref f} + ts }) : wp Inv noFault p (setPipeEnd f a w) g Q :=
  wp_setType (x := fun y => { y with type := .pipe, readable := !w, writable := w, pipe := a }) (fun _ => rfl) (fun _ => rfl)
    hts hQ

theorem wp_setInode {readable writable : Bool} (hts : g.tokens = {.new f} + ts)
    (hQ : Q () { g with tokens := {.ref f} + ts }) : wp Inv noFault p (setInode f readable writable) g Q :=
  wp_setType (x := fun y => { y with type := .inode, readable, writable }) (c := 0) (fun _ => rfl) (fun _ => rfl)
    (by rwa [zero_add]) hQ

end Xv6.Files
