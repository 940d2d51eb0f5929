import Xv6.Files.Rules

/-!
# Rules for descriptors and processes, and for the calls
-/

namespace Xv6.Files

open Conc
open Function (update update_self update_of_ne update_eq_self)

variable {n : ℕ} {s : State n} {γ : Fin n → Ghost n} {p q : Fin n} {g g' : Ghost n} {t t' : Ofile} {fd : Fd} {f : FSlot}
  {c : Option (Fin n × Ofile)} {old new ts T : Multiset Token} {ofile : Fin n → Ofile} {state : Fin n → ProcState}
  {o : Own} {Q : Unit → Ghost n → Prop} {a : ℕ} {w : Bool}

/-! ## Moving references between tables and tokens -/

/-- References move between the descriptors and the tokens. -/
theorem Counts.move {sl sl' : FSlot → ℕ} (h : Counts s sl (old + T)) (ofile : Fin n → Ofile) (state : Fin n → ProcState)
    (hother : ∀ x, (∀ f, x ≠ .ref f) → new.count x = old.count x)
    (hrefs : ∀ f, sl' f + new.count (.ref f) = sl f + old.count (.ref f)) :
    Counts { s with ofile := ofile, state := state } sl' (new + T) := by
  have hcount : ∀ x, (∀ f, x ≠ .ref f) → (new + T).count x = (old + T).count x := by
    intro x hx
    rw [Multiset.count_add, Multiset.count_add, hother x hx]
  refine ⟨fun e => ?_, h.zero, fun e he => h.new e ?_, fun e => ?_, fun a w => ?_, fun a => ?_, h.made⟩
  · have href := h.refs e
    have hmove := hrefs e
    rw [Multiset.count_add (Token.ref e)] at href
    rw [hcount _ (by simp), Multiset.count_add (Token.ref e)]
    refine href.trans ?_
    omega
  · rwa [← Multiset.count_pos, hcount _ (by simp), Multiset.count_pos] at he
  · rw [hcount _ (by simp)]
    exact h.sole e
  · rw [hcount _ (by simp)]
    exact h.ends a w
  · rw [hcount _ (by simp)]
    exact h.frees a

theorem Inv.move (h : Inv s γ) (hg : γ p = g) (hts : g.tokens = old + ts) (hts' : g'.tokens = new + ts)
    (htables : Tables ofile state (update γ p g'))
    (huse : g'.use = none) (hother : ∀ x, (∀ f, x ≠ .ref f) → new.count x = old.count x)
    (hrefs : ∀ f, slots ofile (update γ p g') f + new.count (.ref f) =
      slots s.ofile γ f + old.count (.ref f)) :
    Inv { s with ofile := ofile, state := state } (update γ p g') := by
  obtain ⟨T₀, hbag, hbag'⟩ := bag_change hg hts hts'
  refine ⟨htables, ?_, fun q f a w hq => ?_⟩
  · have hc := h.counts
    rw [hbag] at hc
    rw [hbag']
    exact hc.move ofile state hother hrefs
  · have hqp : q ≠ p := by
      rintro rfl
      rw [update_self, huse] at hq
      cases hq
    rw [update_of_ne hqp] at hq ⊢
    exact h.use q f a w hq

/-- One table changes, or what of it counts. -/
theorem slots_change (ofile ofile' : Fin n → Ofile) (γ γ' : Fin n → Ghost n) (q : Fin n)
    (h : ∀ r ≠ q, ofile' r = ofile r ∧ (γ' r).skip = (γ r).skip) (f : FSlot) :
    slots ofile' γ' f + share (ofile q) (γ q).skip f = slots ofile γ f + share (ofile' q) (γ' q).skip f := by
  have hold := Finset.add_sum_erase Finset.univ (fun r => share (ofile r) (γ r).skip f) (Finset.mem_univ q)
  have hnew := Finset.add_sum_erase Finset.univ (fun r => share (ofile' r) (γ' r).skip f) (Finset.mem_univ q)
  have hrest : ∑ r ∈ Finset.univ.erase q, share (ofile' r) (γ' r).skip f =
      ∑ r ∈ Finset.univ.erase q, share (ofile r) (γ r).skip f := by
    refine Finset.sum_congr rfl fun r hr => ?_
    rw [(h r (Finset.ne_of_mem_erase hr)).1, (h r (Finset.ne_of_mem_erase hr)).2]
  rw [slots, slots]
  omega

/-- A process changes its own table. -/
theorem Tables.setOwn {o' : Own} (h : Tables ofile state γ)
    (hg : γ p = g) (halive : state p = .alive) (ho' : g'.own = some o') (hchild : g'.child = g.child) :
    Tables (update ofile p o'.table) state (update γ p g') := by
  have hchild' : ∀ q, (update γ p g' q).child = (γ q).child := by
    intro q
    rcases eq_or_ne q p with rfl | hq
    · rw [update_self, hg, hchild]
    · rw [update_of_ne hq]
  refine ⟨fun q x hx => ?_, fun q r t ht => ?_, fun q q' r t t' ht ht' => h.sole q q' r t t' ?_ ?_, fun q hq => ?_⟩
  · rcases eq_or_ne q p with rfl | hq
    · rw [update_self, ho'] at hx
      cases hx
      exact ⟨update_self .., halive⟩
    · rw [update_of_ne hq] at hx ⊢
      exact h.own q x hx
  · rw [hchild'] at ht
    have hr : r ≠ p := by
      rintro rfl
      have := (h.child q r t ht).2
      rw [halive] at this
      cases this
    rw [update_of_ne hr]
    exact h.child q r t ht
  · rwa [hchild'] at ht
  · rwa [hchild'] at ht'
  · have hqp : q ≠ p := by
      rintro rfl
      rw [halive] at hq
      cases hq <;> contradiction
    rw [update_of_ne hqp]
    exact h.empty q hq

theorem Inv.setOwn (h : Inv s γ) (o' : Own) (new : Multiset Token) (hg : γ p = ⟨some o, c, none, old + ts⟩)
    (hother : ∀ x, (∀ f, x ≠ .ref f) → new.count x = old.count x)
    (hshare : ∀ f, share o'.table o'.skip f + new.count (.ref f) = share o.table o.skip f + old.count (.ref f)) :
    Inv (s.setOfile p o'.table) (update γ p ⟨some o', c, none, new + ts⟩) := by
  have hold : s.ofile p = o.table ∧ s.state p = .alive := h.tables.own p o (by rw [hg])
  refine h.move hg rfl rfl (h.tables.setOwn hg hold.2 rfl rfl) rfl hother fun f => ?_
  have hchange := slots_change s.ofile (update s.ofile p o'.table) γ
    (update γ p ⟨some o', c, none, new + ts⟩) p (fun r hr => by simp [hr]) f
  have hs := hshare f
  rw [update_self, update_self, hg, hold.1] at hchange
  simp only [Ghost.skip, Option.bind_some] at hchange
  omega

theorem setOfile_self (h : s.ofile p = t) : s.setOfile p t = s := by
  rw [State.setOfile, ← h, update_eq_self]

theorem setState_self {st : ProcState} (h : s.state p = st) : (s.setOfile p t).setState p st = s.setOfile p t := by
  rw [State.setState, State.setOfile, ← h, update_eq_self]

/-- A reference in the hands of a process counts as one of its table. -/
theorem shift_put (hf : t fd = some f) :
    Shift Inv p ⟨some ⟨t, some fd⟩, c, none, {.ref f} + ts⟩ ⟨some ⟨t, none⟩, c, none, ts⟩ := by
  intro s γ h hg
  have hofile : s.ofile p = t := (h.tables.own p _ (by rw [hg])).1
  have hinv := h.setOwn ⟨t, none⟩ 0 hg (fun x hx => by simp [hx]) fun e => by
    rw [share_split t fd e, hf]
    simp [Multiset.count_singleton, eq_comm]
  rwa [zero_add, setOfile_self hofile] at hinv

/-- And the other way round. -/
theorem shift_take (hf : t fd = some f) :
    Shift Inv p ⟨some ⟨t, none⟩, c, none, ts⟩ ⟨some ⟨t, some fd⟩, c, none, {.ref f} + ts⟩ := by
  intro s γ h hg
  have hofile : s.ofile p = t := (h.tables.own p _ (by rw [hg])).1
  rw [← zero_add ts] at hg
  have hinv := h.setOwn ⟨t, some fd⟩ {.ref f} hg (fun x hx => by simp [hx]) fun e => by
    rw [share_split t fd e, hf]
    simp [Multiset.count_singleton, eq_comm]
  rwa [setOfile_self hofile] at hinv

/-! ## Descriptors -/

theorem wp_argfd {use : Option (FSlot × ℕ × Bool)} {Q : Option FSlot → Ghost n → Prop}
    (hQ : Q (o.table fd) ⟨some o, c, use, ts⟩) : wp Inv noFault p (argfd p fd) ⟨some o, c, use, ts⟩ Q := by
  refine wp_reads fun s γ h hg => ?_
  rwa [(h.tables.own p o (by rw [hg])).1]

/-- The new descriptor does not count yet. -/
theorem wp_fdalloc {Q : Option Fd → Ghost n → Prop} (hnone : Q none ⟨some ⟨t, none⟩, c, none, ts⟩)
    (hsome : ∀ fd, t fd = none → Q (some fd) ⟨some ⟨update t fd (some f), some fd⟩, c, none, ts⟩) :
    wp Inv noFault p (fdalloc p f) ⟨some ⟨t, none⟩, c, none, ts⟩ Q := by
  intro s γ h hg
  have hofile : s.ofile p = t := (h.tables.own p _ (by rw [hg])).1
  dsimp only
  rw [hofile]
  generalize hfind : (List.finRange NOFILE).find? (fun fd => decide (t fd = none)) = r
  cases r with
  | none =>
    refine ⟨_, ?_, hnone⟩
    rwa [← hg, update_eq_self]
  | some fd =>
    have hfd : t fd = none := by simpa using List.find?_some hfind
    rw [← zero_add ts] at hg
    have hinv := h.setOwn ⟨update t fd (some f), some fd⟩ 0 hg (fun _ _ => rfl) fun e => by
      rw [share_update_skip, share_split t fd e, hfd]
      simp
    rw [zero_add] at hinv
    exact ⟨_, hinv, hsome fd hfd⟩

/-- A reference in the hands of the process gets a descriptor. -/
theorem wp_fdalloc_ref {Q : Option Fd → Ghost n → Prop} (hnone : Q none ⟨some ⟨t, none⟩, c, none, {.ref f} + ts⟩)
    (hsome : ∀ fd, Q (some fd) ⟨some ⟨update t fd (some f), none⟩, c, none, ts⟩) :
    wp Inv noFault p (fdalloc p f) ⟨some ⟨t, none⟩, c, none, {.ref f} + ts⟩ Q := by
  refine wp_atomic_shift (R := fun r g => (r = none ∧ g = ⟨some ⟨t, none⟩, c, none, {.ref f} + ts⟩) ∨
    ∃ fd, r = some fd ∧ g = ⟨some ⟨update t fd (some f), some fd⟩, c, none, {.ref f} + ts⟩) ?_ ?_
  · exact wp_fdalloc (.inl ⟨rfl, rfl⟩) fun fd _ => .inr ⟨fd, rfl, rfl⟩
  · rintro r g (⟨rfl, rfl⟩ | ⟨fd, rfl, rfl⟩)
    · exact ⟨_, Shift.refl _, hnone⟩
    · exact ⟨_, shift_put (update_self ..), hsome fd⟩

theorem wp_clearFd (hQ : Q () ⟨some ⟨update t fd none, none⟩, c, none, ts⟩) :
    wp Inv noFault p (clearFd p fd) ⟨some ⟨t, some fd⟩, c, none, ts⟩ Q := by
  refine wp_modifies fun s γ h hg => ⟨_, ?_, hQ⟩
  have hofile : s.ofile p = t := (h.tables.own p _ (by rw [hg])).1
  rw [← zero_add ts] at hg
  have hinv := h.setOwn ⟨update t fd none, none⟩ 0 hg (fun _ _ => rfl) fun e => by
    dsimp only
    rw [share_split _ fd e, share_update_skip, update_self]
    simp
  rw [hofile]
  rwa [zero_add] at hinv

/-! ## Processes -/

/-- A process that is not running, `q`, changes; `p` makes it, or lets go of it. -/
theorem Tables.setChild {st : ProcState} (h : Tables ofile state γ)
    (hg : γ p = g) (hown : g'.own = g.own) (hq : state q ≠ .alive) (hothers : ∀ r ≠ p, ∀ t, (γ r).child ≠ some (q, t))
    (hchild : g'.child = none ∨ g'.child = some (q, t') ∧ st = .embryo)
    (hempty : st = .unused ∨ st = .zombie → t' = fun _ => none) :
    Tables (update ofile q t') (update state q st) (update γ p g') := by
  have hold : ∀ r x t, (update γ p g' r).child = some (x, t) →
      r = p ∧ x = q ∧ t = t' ∧ st = .embryo ∨ r ≠ p ∧ x ≠ q ∧ (γ r).child = some (x, t) := by
    intro r x t hr
    rcases eq_or_ne r p with rfl | hrp
    · rw [update_self] at hr
      obtain hnone | ⟨hsome, hst⟩ := hchild
      · rw [hnone] at hr
        cases hr
      · rw [hsome] at hr
        cases hr
        exact .inl ⟨rfl, rfl, rfl, hst⟩
    · rw [update_of_ne hrp] at hr
      refine .inr ⟨hrp, ?_, hr⟩
      rintro rfl
      exact hothers r hrp t hr
  refine ⟨fun r o hr => ?_, fun r x t hr => ?_, fun r r' x t₁ t₂ hr hr' => ?_, fun r hr => ?_⟩
  · have hro : (γ r).own = some o := by
      rcases eq_or_ne r p with rfl | hrp
      · rwa [update_self, hown, ← hg] at hr
      · rwa [update_of_ne hrp] at hr
    obtain ⟨htable, hstate⟩ := h.own r o hro
    have hrq : r ≠ q := by
      rintro rfl
      exact hq hstate
    rw [update_of_ne hrq, update_of_ne hrq]
    exact ⟨htable, hstate⟩
  · obtain ⟨-, rfl, rfl, rfl⟩ | ⟨-, hx, hr⟩ := hold r x t hr
    · exact ⟨update_self .., update_self ..⟩
    · rw [update_of_ne hx, update_of_ne hx]
      exact h.child r x t hr
  · obtain ⟨rfl, rfl, -⟩ | ⟨-, hx, hr⟩ := hold r x t₁ hr
    · obtain ⟨rfl, -⟩ | ⟨-, hx, -⟩ := hold r' _ t₂ hr'
      · rfl
      · exact absurd rfl hx
    · obtain ⟨-, hx', -⟩ | ⟨-, -, hr'⟩ := hold r' x t₂ hr'
      · exact absurd hx' hx
      · exact h.sole r r' x t₁ t₂ hr hr'
  · rcases eq_or_ne r q with rfl | hrq
    · rw [update_self] at hr ⊢
      exact hempty hr
    · rw [update_of_ne hrq] at hr ⊢
      exact h.empty r hr

theorem Inv.setChild (h : Inv s γ) (hg : γ p = ⟨some o, c, none, old + ts⟩) (t' : Ofile) (st : ProcState)
    (c' : Option (Fin n × Ofile)) (new : Multiset Token) (hq : s.state q ≠ .alive)
    (hothers : ∀ r ≠ p, ∀ t, (γ r).child ≠ some (q, t)) (hchild : c' = none ∨ c' = some (q, t') ∧ st = .embryo)
    (hempty : st = .unused ∨ st = .zombie → t' = fun _ => none)
    (hother : ∀ x, (∀ f, x ≠ .ref f) → new.count x = old.count x)
    (hshare : ∀ f, share t' none f + new.count (.ref f) = share (s.ofile q) none f + old.count (.ref f)) :
    Inv ((s.setOfile q t').setState q st) (update γ p ⟨some o, c', none, new + ts⟩) := by
  refine h.move hg rfl rfl (h.tables.setChild hg rfl hq hothers hchild hempty) rfl hother fun f => ?_
  have hnone : (γ q).own = none := by
    cases hown : (γ q).own with
    | none => rfl
    | some o => exact absurd (h.tables.own q o hown).2 hq
  have hskip : ∀ r, (update γ p ⟨some o, c', none, new + ts⟩ r).skip = (γ r).skip := by
    intro r
    rcases eq_or_ne r p with rfl | hr
    · rw [update_self, hg]
      rfl
    · rw [update_of_ne hr]
  have hchange := slots_change s.ofile (update s.ofile q t') γ
    (update γ p ⟨some o, c', none, new + ts⟩) q (fun r hr => ⟨update_of_ne hr .., hskip r⟩) f
  have hs := hshare f
  rw [hskip, update_self, Ghost.skip, hnone, Option.bind_none] at hchange
  have hofile : (s.setOfile q t').ofile = update s.ofile q t' := rfl
  rw [hofile]
  omega

/-- Nobody is making a process that is no embryo. -/
theorem Inv.not_child (h : Inv s γ) (hq : s.state q ≠ .embryo) (r : Fin n) (t : Ofile) : (γ r).child ≠ some (q, t) :=
  fun hr => hq (h.tables.child r q t hr).2

theorem wp_allocproc {Q : Option (Fin n) → Ghost n → Prop} (hnone : Q none ⟨some o, none, none, ts⟩)
    (hsome : ∀ q, Q (some q) ⟨some o, some (q, fun _ => none), none, ts⟩) :
    wp Inv noFault p allocproc ⟨some o, none, none, ts⟩ Q := by
  intro s γ h hg
  dsimp only
  generalize hfind : (List.finRange n).find? (fun q => decide (s.state q = .unused)) = r
  cases r with
  | none =>
    refine ⟨_, ?_, hnone⟩
    rwa [← hg, update_eq_self]
  | some q =>
    have hq : s.state q = .unused := by simpa using List.find?_some hfind
    have htable : s.ofile q = fun _ => none := h.tables.empty q (.inl hq)
    rw [← zero_add ts] at hg
    have hinv := h.setChild hg (fun _ => none) .embryo (some (q, fun _ => none)) 0 (by simp [hq])
      (fun r _ => h.not_child (by simp [hq]) r) (.inr ⟨rfl, rfl⟩) (by simp) (fun _ _ => rfl) fun f => by rw [htable]
    rw [zero_add, setOfile_self htable] at hinv
    exact ⟨_, hinv, hsome q⟩

/-- The child's descriptor takes over a reference. -/
theorem wp_setChildFd (hfd : t fd = none)
    (hQ : Q () ⟨some o, some (q, update t fd (some f)), none, ts⟩) :
    wp Inv noFault p (setChildFd q fd f) ⟨some o, some (q, t), none, {.ref f} + ts⟩ Q := by
  refine wp_modifies fun s γ h hg => ⟨_, ?_, hQ⟩
  obtain ⟨htable, hstate⟩ := h.tables.child p q t (by rw [hg])
  have hinv := h.setChild hg (update t fd (some f)) .embryo (some (q, update t fd (some f))) 0
    (by simp [hstate]) (fun r hr t' hr' => hr (h.tables.sole r p q t' t hr' (by rw [hg]))) (.inr ⟨rfl, rfl⟩) (by simp)
    (fun x hx => by simp [hx]) fun e => by
      rw [share_split _ fd e, share_update_skip, update_self, htable, share_split t fd e, hfd]
      simp [Multiset.count_singleton, eq_comm]
  rw [zero_add, setState_self hstate] at hinv
  rwa [htable]

/-- The child runs. -/
theorem wp_launch (hQ : Q () ⟨some o, none, none, ts⟩) :
    wp Inv noFault p (setProcState q .alive) ⟨some o, some (q, t), none, ts⟩ Q := by
  refine wp_modifies fun s γ h hg => ⟨_, ?_, hQ⟩
  obtain ⟨htable, hstate⟩ := h.tables.child p q t (by rw [hg])
  have hothers : ∀ r ≠ p, ∀ t, (γ r).child ≠ some (q, t) :=
    fun r hr t' hr' => hr (h.tables.sole r p q t' t hr' (by rw [hg]))
  rw [← zero_add ts] at hg
  have hinv := h.setChild hg t .alive none 0 (by simp [hstate]) hothers (.inl rfl) (by simp) (fun _ _ => rfl)
    fun e => by rw [htable]
  rwa [zero_add, setOfile_self htable] at hinv

/-- The child is given up. -/
theorem wp_giveUp (hQ : Q () ⟨some o, none, none, ts⟩) :
    wp Inv noFault p (setProcState q .unused) ⟨some o, some (q, fun _ => none), none, ts⟩ Q := by
  refine wp_modifies fun s γ h hg => ⟨_, ?_, hQ⟩
  obtain ⟨htable, hstate⟩ := h.tables.child p q _ (by rw [hg])
  have hothers : ∀ r ≠ p, ∀ t, (γ r).child ≠ some (q, t) :=
    fun r hr t' hr' => hr (h.tables.sole r p q t' _ hr' (by rw [hg]))
  rw [← zero_add ts] at hg
  have hinv := h.setChild hg (fun _ => none) .unused none 0 (by simp [hstate]) hothers (.inl rfl) (fun _ => rfl)
    (fun _ _ => rfl) fun e => by rw [htable]
  rwa [zero_add, setOfile_self htable] at hinv

theorem wp_wait (hQ : Q () ⟨some o, none, none, ts⟩) : wp Inv noFault p (wait q) ⟨some o, none, none, ts⟩ Q := by
  refine wp_modifies fun s γ h hg => ⟨_, ?_, hQ⟩
  split_ifs with hq
  · have htable : s.ofile q = fun _ => none := h.tables.empty q (.inr hq)
    rw [← zero_add ts] at hg
    have hinv := h.setChild (q := q) hg (fun _ => none) .unused none 0 (by simp [hq]) (fun r _ => h.not_child (by simp [hq]) r)
      (.inl rfl) (fun _ => rfl) (fun _ _ => rfl) fun e => by rw [htable]
    rwa [zero_add, setOfile_self htable] at hinv
  · rwa [← hg, update_eq_self]

/-- A process without open files ends. -/
theorem Tables.zombie (h : Tables ofile state γ)
    (hg : γ p = ⟨some ⟨fun _ => none, none⟩, none, none, ts⟩) :
    Tables ofile (update state p .zombie) (update γ p ⟨none, none, none, ts⟩) := by
  obtain ⟨htable, halive⟩ := h.own p _ (by rw [hg])
  have hne : ∀ r, state r = .embryo → r ≠ p := by
    rintro r hr rfl
    rw [halive] at hr
    cases hr
  have hold : ∀ r x, (update γ p ⟨none, none, none, ts⟩ r).child = some x → (γ r).child = some x := by
    intro r x hr
    rcases eq_or_ne r p with rfl | hrp
    · simp at hr
    · rwa [update_of_ne hrp] at hr
  refine ⟨fun r o hr => ?_, fun r x t hr => ?_, fun r r' x t t' hr hr' => h.sole r r' x t t' (hold _ _ hr) (hold _ _ hr'),
    fun r hr => ?_⟩
  · rcases eq_or_ne r p with rfl | hrp
    · simp at hr
    · rw [update_of_ne hrp] at hr ⊢
      exact h.own r o hr
  · obtain ⟨hx, hstate⟩ := h.child r x t (hold _ _ hr)
    rw [update_of_ne (hne x hstate)]
    exact ⟨hx, hstate⟩
  · rcases eq_or_ne r p with rfl | hrp
    · exact htable
    · rw [update_of_ne hrp] at hr
      exact h.empty r hr

theorem wp_zombie (hQ : Q () ⟨none, none, none, ts⟩) :
    wp Inv noFault p (setProcState p .zombie) ⟨some ⟨fun _ => none, none⟩, none, none, ts⟩ Q := by
  refine wp_modifies fun s γ h hg => ⟨_, ?_, hQ⟩
  refine h.move hg (zero_add ts).symm (zero_add ts).symm (h.tables.zombie hg) rfl (fun _ _ => rfl) fun f => ?_
  have hslots : slots s.ofile (update γ p ⟨none, none, none, ts⟩) = slots s.ofile γ := slots_same hg rfl
  rw [hslots]

/-! ## Calls -/

/-- A process between two calls. Its tokens are gone and every descriptor counts. -/
def Idle (g : Ghost n) : Prop := g.tokens = 0 ∧ g.child = none ∧ g.skip = none

theorem idle_own (ho : o.skip = none) {use : Option (FSlot × ℕ × Bool)} :
    Idle (n := n) ⟨some o, none, use, 0⟩ := ⟨rfl, rfl, by simpa [Ghost.skip] using ho⟩

theorem wp_discard {α : Type} {x : Prog (State n) α}
    (h : wp Inv noFault p x g fun _ g => Q () g) : wp Inv noFault p (discard x) g Q := wp_bind.2 h

theorem wp_sysDup : wp Inv noFault p (sysDup p fd) ⟨some ⟨t, none⟩, none, none, 0⟩ fun _ => Idle := by
  refine wp_bind.2 (wp_argfd ?_)
  dsimp only
  cases hf : t fd with
  | none => exact idle_own rfl
  | some f =>
    refine wp_bind.2 (wp_fdalloc (idle_own rfl) fun fd' hfd' => wp_bind.2 ?_)
    have hne : fd ≠ fd' := by
      rintro rfl
      rw [hf] at hfd'
      cases hfd'
    have hold : update t fd' (some f) fd = some f := by rw [update_of_ne hne, hf]
    -- the old descriptor counts as a reference, the new one does so only afterwards
    refine wp_atomic_shift (wp_filedup rfl hold (by simpa using hne.symm) (Q := fun _ g => g = _) rfl) ?_
    rintro _ _ rfl
    exact ⟨_, shift_put (update_self ..), idle_own rfl⟩

theorem wp_sysClose : wp Inv noFault p (sysClose p fd) ⟨some ⟨t, none⟩, none, none, 0⟩ fun _ => Idle := by
  refine wp_bind.2 (wp_argfd ?_)
  dsimp only
  cases hf : t fd with
  | none => exact idle_own rfl
  | some f =>
    refine wp_bind.2 (wp_shift (shift_take hf) (wp_clearFd ?_))
    exact wp_bind.2 (wp_fileclose (.inl rfl) rfl (idle_own rfl))

theorem wp_sysOpen {found readable writable : Bool} :
    wp Inv noFault p (sysOpen p found readable writable) ⟨some ⟨t, none⟩, none, none, 0⟩ fun _ => Idle := by
  cases found with
  | false => exact idle_own rfl
  | true =>
    refine wp_bind.2 (wp_filealloc (idle_own rfl) fun f => ?_)
    refine wp_bind.2 (wp_fdalloc ?_ fun fd _ => ?_)
    · exact wp_bind.2 (wp_fileclose (.inr rfl) rfl (idle_own rfl))
    · refine wp_bind.2 (wp_atomic_shift (wp_setInode rfl (Q := fun _ g => g = _) rfl) ?_)
      rintro _ _ rfl
      exact ⟨_, shift_put (update_self ..), idle_own rfl⟩

theorem wp_pipealloc {page : Option ℕ} {Q : Option (FSlot × FSlot) → Ghost n → Prop}
    (hnone : Q none ⟨some o, c, none, 0⟩)
    (hsome : ∀ rf wf, Q (some (rf, wf)) ⟨some o, c, none, {.ref rf} + ({.ref wf} + 0)⟩) :
    wp Inv noFault p (pipealloc page) ⟨some o, c, none, 0⟩ Q := by
  refine wp_bind.2 (wp_filealloc hnone fun f0 => ?_)
  refine wp_bind.2 (wp_filealloc ?_ fun f1 => ?_)
  · exact wp_bind.2 (wp_fileclose (.inr rfl) rfl hnone)
  refine wp_bind.2 (wp_newPipe ?_ fun a => ?_)
  · refine wp_bind.2 (wp_fileclose (f := f0) (t := .new f0) (.inr rfl) (add_left_comm _ _ _) ?_)
    exact wp_bind.2 (wp_fileclose (.inr rfl) rfl hnone)
  · have h0 : ({.pend a false} + ({.pend a true} + ({.new f1} + ({.new f0} + 0))) : Multiset Token) =
        {.new f0} + ({.pend a false} + ({.new f1} + ({.pend a true} + 0))) := by
      ac_rfl
    refine wp_bind.2 (wp_setPipeEnd h0 ?_)
    have h1 : ({.ref f0} + ({.new f1} + ({.pend a true} + 0)) : Multiset Token) =
        {.new f1} + ({.pend a true} + ({.ref f0} + 0)) := by
      ac_rfl
    refine wp_bind.2 (wp_setPipeEnd h1 ?_)
    have h2 : ({.ref f1} + ({.ref f0} + 0) : Multiset Token) = {.ref f0} + ({.ref f1} + 0) := add_left_comm _ _ _
    dsimp only
    rw [h2]
    exact hsome f0 f1

theorem wp_sysPipe {page : Option ℕ} :
    wp Inv noFault p (sysPipe p page) ⟨some ⟨t, none⟩, none, none, 0⟩ fun _ => Idle := by
  refine wp_bind.2 (wp_pipealloc (idle_own rfl) fun rf wf => ?_)
  refine wp_bind.2 (wp_fdalloc_ref ?_ fun fd0 => ?_)
  · refine wp_bind.2 (wp_fileclose (.inl rfl) rfl ?_)
    exact wp_bind.2 (wp_fileclose (.inl rfl) rfl (idle_own rfl))
  refine wp_bind.2 (wp_fdalloc_ref ?_ fun fd1 => idle_own rfl)
  refine wp_bind.2 (wp_shift (shift_take (update_self ..)) (wp_clearFd ?_))
  refine wp_bind.2 (wp_fileclose (.inl rfl) rfl ?_)
  exact wp_bind.2 (wp_fileclose (.inl rfl) rfl (idle_own rfl))

/-- The page of a pipe that a process is reading or writing stays in use. -/
theorem Inv.live (h : Inv s γ) (huse : (γ p).use = some (f, a, w)) : s.live a = true := by
  have hpos : 0 < owners s.file a w := owners_pos.2 ⟨f, (h.use p f a w huse).1⟩
  have hends := h.counts.ends a w
  by_contra hlive
  rw [if_neg fun hc => hlive hc.1] at hends
  omega

theorem wp_usePipe {k : ℕ} (huse : g.use = some (f, a, w)) (hQ : Q () g) : wp Inv noFault p (usePipe a k) g Q := by
  induction k with
  | zero => exact hQ
  | succ k ih =>
    refine wp_bind.2 fun s γ h hg => ?_
    have hlive : s.live a = true := h.live (by rw [hg, huse])
    dsimp only
    rw [if_pos hlive]
    refine ⟨g, ?_, ih⟩
    rwa [← hg, update_eq_self]

theorem Inv.setUse (h : Inv s γ) (hg : γ p = ⟨some o, c, none, ts⟩) (hf : o.table fd = some f)
    (hskip : o.skip ≠ some fd) (href : Refers (s.file f) a w) :
    Inv s (update γ p ⟨some o, c, some (f, a, w), ts⟩) := by
  have hts : (⟨some o, c, none, ts⟩ : Ghost n).tokens = 0 + ts := (zero_add ts).symm
  have hts' : (⟨some o, c, some (f, a, w), ts⟩ : Ghost n).tokens = 0 + ts := (zero_add ts).symm
  refine ⟨h.tables.same hg rfl rfl, ?_, fun q e b v hq => ?_⟩
  · have hslots : slots s.ofile (update γ p ⟨some o, c, some (f, a, w), ts⟩) = slots s.ofile γ :=
      slots_same hg rfl
    obtain ⟨T₀, hbag, hbag'⟩ := bag_change hg hts hts'
    rw [hslots, hbag', ← hbag]
    exact h.counts
  · rcases eq_or_ne q p with rfl | hqp
    · rw [update_self] at hq ⊢
      cases hq
      exact ⟨href, o, fd, rfl, hf, hskip⟩
    · rw [update_of_ne hqp] at hq ⊢
      exact h.use q e b v hq

theorem wp_sysReadWrite {writing : Bool} {k : ℕ} :
    wp Inv noFault p (sysReadWrite p fd writing k) ⟨some ⟨t, none⟩, none, none, 0⟩ fun _ => Idle := by
  refine wp_bind.2 (wp_argfd ?_)
  dsimp only
  cases hf : t fd with
  | none => exact idle_own rfl
  | some f =>
    refine wp_bind.2 fun s γ h hg => ?_
    dsimp only
    by_cases hpipe : (s.file f).type = .pipe
    · refine ⟨_, h.setUse hg hf (by simp) ⟨hpipe, rfl, rfl⟩, ?_⟩
      rw [wp_ret]
      split_ifs
      · exact wp_usePipe rfl (idle_own rfl)
      · exact idle_own rfl
      · exact wp_usePipe rfl (idle_own rfl)
      · exact idle_own rfl
    · refine ⟨γ p, ?_, ?_⟩
      · rwa [update_eq_self]
      · rw [hg, wp_ret, if_neg fun hc => hpipe hc.2]
        exact idle_own rfl

/-- The loop of `fork`: `t'` is the child's table so far. -/
theorem wp_dupFds {fds : List Fd} (hnodup : fds.Nodup) (hempty : ∀ fd ∈ fds, t' fd = none)
    (hQ : ∀ t', Q () ⟨some ⟨t, none⟩, some (q, t'), none, 0⟩) :
    wp Inv noFault p (dupFds p q fds) ⟨some ⟨t, none⟩, some (q, t'), none, 0⟩ Q := by
  induction fds generalizing t' with
  | nil => exact hQ t'
  | cons fd fds ih =>
    obtain ⟨hnot, hnodup⟩ := List.nodup_cons.1 hnodup
    have htail : ∀ e ∈ fds, t' e = none := fun e he => hempty e (List.mem_cons_of_mem fd he)
    refine wp_bind.2 (wp_argfd ?_)
    dsimp only
    cases hf : t fd with
    | none => exact ih hnodup htail
    | some f =>
      refine wp_bind.2 (wp_filedup rfl hf (by simp) ?_)
      refine wp_bind.2 (wp_setChildFd (hempty fd (by simp)) (ih hnodup fun e he => ?_))
      have hne : e ≠ fd := by
        rintro rfl
        exact hnot he
      rw [update_of_ne hne]
      exact htail e he

theorem wp_fork {mem : Bool} : wp Inv noFault p (Files.fork p mem) ⟨some ⟨t, none⟩, none, none, 0⟩ fun _ => Idle := by
  refine wp_bind.2 (wp_allocproc (idle_own rfl) fun q => ?_)
  cases mem with
  | true =>
    refine wp_bind.2 (wp_dupFds (List.nodup_finRange NOFILE) (fun _ _ => rfl) fun t' => ?_)
    exact wp_bind.2 (wp_launch (idle_own rfl))
  | false => exact wp_bind.2 (wp_giveUp (idle_own rfl))

/-- The loop of `exit`: the descriptors that are not in `fds` have been closed. -/
theorem wp_closeFds {fds : List Fd} (hclosed : ∀ fd ∉ fds, t fd = none)
    (hQ : Q () ⟨some ⟨fun _ => none, none⟩, none, none, 0⟩) :
    wp Inv noFault p (closeFds p fds) ⟨some ⟨t, none⟩, none, none, 0⟩ Q := by
  induction fds generalizing t with
  | nil =>
    have ht : t = fun _ => none := funext fun fd => hclosed fd (by simp)
    rw [ht]
    exact hQ
  | cons fd fds ih =>
    refine wp_bind.2 (wp_argfd ?_)
    dsimp only
    cases hf : t fd with
    | none =>
      refine ih fun e he => ?_
      by_cases hefd : e = fd
      · rw [hefd, hf]
      · exact hclosed e (by simp [hefd, he])
    | some f =>
      -- the file is closed while the descriptor still points to it
      refine wp_bind.2 (wp_shift (shift_take hf) (wp_fileclose (.inl rfl) rfl ?_))
      refine wp_bind.2 (wp_clearFd (ih fun e he => ?_))
      by_cases hefd : e = fd
      · rw [hefd, update_self]
      · rw [update_of_ne hefd]
        exact hclosed e (by simp [hefd, he])

theorem wp_exit : wp Inv noFault p (Files.exit p) ⟨some ⟨t, none⟩, none, none, 0⟩ fun _ => Idle := by
  refine wp_bind.2 (wp_closeFds (fun fd hfd => absurd (List.mem_finRange fd) hfd) ?_)
  exact wp_zombie ⟨rfl, rfl, rfl⟩

theorem wp_body (k : Call n) : wp Inv noFault p (k.body p) ⟨some ⟨t, none⟩, none, none, 0⟩ fun _ => Idle := by
  cases k with
  | «open» found readable writable => exact wp_discard wp_sysOpen
  | dup fd => exact wp_discard wp_sysDup
  | pipe page => exact wp_discard wp_sysPipe
  | close fd => exact wp_discard wp_sysClose
  | readWrite fd writing k => exact wp_sysReadWrite
  | fork mem => exact wp_discard wp_fork
  | exit => exact wp_exit
  | wait q => exact wp_wait (idle_own rfl)

end Xv6.Files
