import Xv6.Proc.WaitInv

/-!
# Rules for the functions that wait

One rule for each function of `spinlock.c`, `proc.c` and `pipe.c` that the waiting processes call,
over the invariant `WaitInv`. Panics are not excluded: nothing is said here about who holds the locks
of the console and of the clock.
-/

namespace Xv6.Proc

open Conc Lib
open Function (update update_self update_of_ne update_eq_self)

variable {n : ℕ}

abbrev wwp {α : Type} (p : Fin n) (x : Prog (Kernel n) α) (g : Place n) (Q : α → Place n → Prop) :
    Prop :=
  wp WaitInv (fun _ _ => True) p x g Q

section

variable {p : Fin n} {g : Place n} {k : ℕ} {s : Kernel n} {γ : Fin n → Place n} {Q : Unit → Place n → Prop} {d : Pipe}
  {b : Option (Chan n)} {c : Chan n} {f r w : Bool} {l : Lock} {m : ℤ} {fuel : ℕ}

/-! ## Locks -/

/-- A section that leaves the place of the process as it is. -/
theorem WaitInv.same {s' : Kernel n} {es : List (Event n)} (h : WaitInv s γ)
    (hg : γ p = g) (ho : Others p es s s') (hes : ∀ e ∈ es, e.Quiet)
    (hpipe : s'.data.pipe = s.data.pipe)
    (hstate : ∀ q, (s'.proc q).state = .sleeping → (s.proc q).state = .sleeping ∧
      ((s'.proc q).chan = (s.proc q).chan ∨ (s'.proc q).chan = none))
    (hkilled : ∀ q, (s'.proc q).killed = (s.proc q).killed)
    (hheld : ∀ l, l = .ptable ∨ (∃ k, l = .pipe k) → s.holder l = some p → s'.holder l = some p) :
    WaitInv s' (update γ p g) := by
  subst hg
  refine h.quiet ho hes hpipe hstate hkilled (fun hp => ?_) (fun k d hd => ?_)
    (.inr ⟨rfl, rfl, .inl⟩) (.refl _) fun hf => ⟨hf, rfl⟩
  · exact hheld _ (.inl rfl) (h.locks.ptable p hp)
  · obtain ⟨hh, hd⟩ := h.locks.pipe p k d hd
    exact ⟨hheld _ (.inr ⟨k, rfl⟩) hh, hd⟩

theorem wwp_acquire_ptable (hQ : Q () { g with pt := true }) :
    wwp p (acquire p .ptable) g Q := by
  refine wp_atomic fun s γ hI hg => ?_
  cases hl : s.holder .ptable with
  | some q => by_cases hq : q = p <;> simp [hq]
  | none =>
    subst hg
    refine ⟨{ γ p with pt := true }, hI.quiet (others_acquire hl) (by simpa using quiet_got) rfl
      (fun _ h => ⟨h, .inl rfl⟩) (fun _ => rfl) (fun _ => by simp) (fun k d hd => ?_) (.inr ⟨rfl, rfl, fun _ => .inl rfl⟩)
      ⟨fun _ d h => ⟨d, h⟩, id, id, id⟩ fun h => ⟨h, rfl⟩, hQ⟩
    simpa using hI.locks.pipe p k d hd

theorem wwp_release_ptable (hbed : g.bed = none ∨ g.pipe ≠ none)
    (hQ : Q () { g with pt := false }) : wwp p (release p .ptable) g Q := by
  refine wp_atomic fun s γ hI hg => ?_
  by_cases hl : s.holder .ptable = some p
  · simp only [hl, if_true]
    subst hg
    refine ⟨{ γ p with pt := false }, hI.quiet (others_release hl) (by simp) rfl
      (fun _ h => ⟨h, .inl rfl⟩) (fun _ => rfl) nofun (fun k d hd => ?_)
      (hbed.imp_right fun h => ⟨rfl, rfl, fun _ => .inr h⟩) ⟨fun _ d h => ⟨d, h⟩, id, id, id⟩
      fun h => ⟨h, rfl⟩, hQ⟩
    simpa using hI.locks.pipe p k d hd
  · simp [hl]

theorem wwp_acquire_pipe (hbed : g.bed = none) (hpipe : g.pipe = none)
    (hfed : g.fed = false) (hQ : ∀ d, Q () { g with pipe := some (k, d) }) :
    wwp p (acquire p (.pipe k)) g Q := by
  refine wp_atomic fun s γ hI hg => ?_
  cases hl : s.holder (.pipe k) with
  | some q => by_cases hq : q = p <;> simp [hq]
  | none =>
    subst hg
    refine ⟨{ γ p with pipe := some (k, s.data.pipe k) }, hI.quiet (others_acquire hl)
      (by simpa using quiet_got) rfl (fun _ h => ⟨h, .inl rfl⟩) (fun _ => rfl) (fun h => ?_)
      (fun k' d hd => ?_) (.inl hbed) ⟨fun _ d h => by simp [hpipe] at h, id, id, id⟩
      fun h => by simp [hfed] at h, hQ (s.data.pipe k)⟩
    · simpa using hI.locks.ptable p h
    · obtain ⟨rfl, rfl⟩ := Prod.mk.inj (Option.some.inj hd)
      simp

/-- The locks of the console and of the clock. -/
theorem wwp_acquire_other (hQ : Q () g) : wwp p (acquire p l) g Q := by
  refine wp_atomic fun s γ hI hg => ?_
  cases hl : s.holder l with
  | some q => by_cases hq : q = p <;> simp [hq]
  | none =>
    refine ⟨_, hI.same hg (others_acquire hl) (by simpa using quiet_got) rfl (fun _ h => ⟨h, .inl rfl⟩)
      (fun _ => rfl) fun l' _ h => ?_, hQ⟩
    by_cases hll : l' = l
    · simp [hll]
    · simpa [update_of_ne hll] using h

theorem wwp_release_other (hl : l = .cons ∨ l = .ticks) (hQ : Q () g) : wwp p (release p l) g Q := by
  refine wp_atomic fun s γ hI hg => ?_
  by_cases hh : s.holder l = some p
  · simp only [hh, if_true]
    refine ⟨_, hI.same hg (others_release hh) (by simp) rfl (fun _ h => ⟨h, .inl rfl⟩) (fun _ => rfl)
      fun l' hl' h => ?_, hQ⟩
    have hne : l' ≠ l := by
      rcases hl with rfl | rfl <;> rcases hl' with rfl | ⟨k, rfl⟩ <;> simp
    simpa [update_of_ne hne] using h
  · simp [hh]

/-- Release the lock of a pipe: nobody is owed a wakeup, and if the process is about to sleep then
the pipe is not ready for it. -/
theorem wwp_release_pipe {t : Bool}
    (hg : g = ⟨t, some (k, d), false, false, false, b⟩)
    (hbed : b = none ∨ t = true ∧ (b = some (.nread k) ∧ ¬d.Readable ∨ b = some (.nwrite k) ∧ ¬d.Writable))
    (hQ : Q () ⟨t, none, false, false, false, b⟩) : wwp p (release p (.pipe k)) g Q := by
  refine wp_atomic fun s γ hI hγ => ?_
  by_cases hh : s.holder (.pipe k) = some p
  swap
  · simp [hh]
  simp only [hh, if_true]
  subst hg
  obtain ⟨-, hd⟩ := hI.locks.pipe p k d (by rw [hγ])
  have hlog : ∀ s' : Kernel n, s' = (s.setHolder (.pipe k) none).setNcli p (s.ncli p - 1) →
      s'.log = [] ++ s.log := by
    rintro s' rfl
    rfl
  -- a process that has just become committed is `p`, and it found the pipe not ready
  have hcommit : ∀ q c, Committed ((s.setHolder (.pipe k) none).setNcli p (s.ncli p - 1))
      (update γ p ⟨t, none, false, false, false, b⟩) q c →
      Committed s γ q c ∨ q = p ∧ b = some c := by
    intro q c hq
    rcases hq with hq | hq
    · exact .inl (.inl hq)
    · rcases eq_or_ne q p with rfl | hqp
      · rw [update_self] at hq
        exact .inr ⟨rfl, hq.1⟩
      · rw [update_of_ne hqp] at hq
        exact .inl (.inr hq)
  have hb : ∀ k', b = some (.nread k') ∨ b = some (.nwrite k') → k' = k ∧ t = true := by
    rintro k' hk'
    rcases hbed with rfl | ⟨ht, ⟨rfl, -⟩ | ⟨rfl, -⟩⟩ <;> simp at hk'
    · exact ⟨hk'.symm, ht⟩
    · exact ⟨hk'.symm, ht⟩
  refine ⟨_, ⟨?_, ?_, ?_, ?_⟩, hQ⟩
  · refine hI.locks.step (others_release hh) (fun _ _ _ _ => rfl) (fun ht => ?_) nofun
    simpa using hI.locks.ptable p (by rw [hγ]; exact ht)
  · exact hI.flow.dry (hlog _ rfl) (by simp) rfl
  · exact hI.kills.plain (hlog _ rfl) (by simp) (fun h => by rwa [hγ]) (fun _ h => h) fun _ => rfl
  · refine ⟨fun q j hj hp => ?_, fun q j e hq hf => ?_, fun hclean j q hq hr => ?_,
      fun j q hq hr => ?_⟩
    · rcases eq_or_ne q p with rfl | hqp
      · rw [update_self] at hj ⊢
        exact (hb j hj).2
      · rw [update_of_ne hqp] at hj hp ⊢
        exact hI.ready.handed q j hj hp
    · rcases eq_or_ne q p with rfl | hqp
      · simp at hq
      · rw [update_of_ne hqp] at hq hf
        exact hI.ready.fed q j e hq hf
    · rcases hcommit q _ hq with hq | ⟨-, hbq⟩
      · obtain ⟨r, e, hr', hf⟩ := hI.ready.readers hclean j q hq hr
        have hrp : r ≠ p := by
          rintro rfl
          simp [hγ] at hf
        exact ⟨r, e, by simpa [update_of_ne hrp] using ⟨hr', hf⟩⟩
      · obtain ⟨rfl, ht⟩ := hb j (.inl hbq)
        have hr : d.Readable := hd ▸ hr
        simp [hbq, hr] at hbed
    · rcases hcommit q _ hq with hq | ⟨-, hbq⟩
      · obtain ⟨r, e, hr', hf⟩ := hI.ready.writers j q hq hr
        have hrp : r ≠ p := by
          rintro rfl
          simp [hγ] at hf
        exact ⟨r, e, by simpa [update_of_ne hrp] using ⟨hr', hf⟩⟩
      · obtain ⟨rfl, ht⟩ := hb j (.inr hbq)
        have hr : d.Writable := hd ▸ hr
        simp [hbq, hr] at hbed

/-! ## `sleep` -/

/-- A process that is about to sleep has not been killed since it looked. -/
theorem wwp_goToSleep (hbed : g.bed = some c)
    (hpipe : g.pipe = none) (hfed : g.fed = false) (hQ : Q () { g with bed := none }) :
    wwp p (goToSleep p c) g Q := by
  refine wp_modifies fun s γ hI hg => ⟨{ g with bed := none }, ?_, hQ⟩
  subst hg
  have ho : Others p [.slept p c] s
      ((s.setProc p { s.proc p with chan := some c, state := .sleeping }).note (.slept p c)) :=
    others_own (by simp) (by simp)
  refine ⟨?_, ?_, ?_, ?_⟩
  · refine hI.locks.step ho (fun _ _ _ _ => rfl) (fun h => hI.locks.ptable p h) fun k d h => ?_
    simp [hpipe] at h
  · exact hI.flow.dry ho.log (by simpa using dry_slept) rfl
  · have hw := hI.kills.bed p (by simp [hbed])
    refine hI.kills.step (ho.log ▸ List.suffix_append _ _) (fun q hq => ?_) nofun fun _ q hq => ?_
    · simp [Event.turn, Ne.symm hq]
    · rcases eq_or_ne q p with rfl | hqp
      · exact .inr ⟨by simp, .inl hw⟩
      · refine .inr ⟨by simp [update_of_ne hqp], ?_⟩
        simpa [Event.turn, Ne.symm hqp, update_of_ne hqp] using hq
  · refine hI.ready.step (ho.log ▸ List.suffix_append _ _) (by simp) (by simp [Event.feed])
      (by simp [hpipe]) (fun q c' _ hq => ?_) (fun _ h => h) (fun _ h => h)
      ⟨fun _ d h => ⟨d, h⟩, id, id, id⟩
    -- whoever is committed now was so before: `p` was about to sleep
    rcases eq_or_ne q p with rfl | hqp
    · have hc : c = c' := by
        rcases hq with ⟨-, hc⟩ | ⟨hb, -⟩
        · simpa using hc
        · simp at hb
      exact .inr ⟨hc ▸ hbed, hpipe⟩
    · simpa [Committed, update_of_ne hqp] using hq

/-- The scheduler takes a process back only when it has been made ready. -/
theorem wwp_sched (hbed : g.bed = none) (hpt : g.pt = true) (hQ : Q () g) : wwp p (sched p) g Q := by
  refine wp_seq (R := fun _ g' => g' = { g with pt := false }) ?_ ?_
  · refine wp_atomic fun s γ hI hg => ?_
    split_ifs with h₁ h₂ h₃
    · trivial
    · trivial
    · trivial
    · subst hg
      refine ⟨{ γ p with pt := false }, hI.quiet (others_release (not_not.mp h₁)) (by simp) rfl
        (fun _ h => ⟨h, .inl rfl⟩) (fun _ => rfl) nofun (fun k d hd => ?_) (.inl hbed)
        ⟨fun _ d h => ⟨d, h⟩, id, id, id⟩ fun h => ⟨h, rfl⟩, rfl⟩
      simpa using hI.locks.pipe p k d hd
  · rintro - _ rfl
    refine wp_atomic fun s γ hI hg => ?_
    split_ifs with h
    · refine ⟨g, hI.quiet (others_resume h.2) (by simpa using quiet_got) rfl (fun q hq => ?_)
        (fun q => ?_) (fun _ => by simp) (fun k d hd => ?_) (.inl hbed) ?_ fun hf => ?_, hQ⟩
      · rcases eq_or_ne q p with rfl | hqp
        · simp at hq
        · simpa [update_of_ne hqp] using hq
      · rcases eq_or_ne q p with rfl | hqp
        · simp
        · simp [update_of_ne hqp]
      · simpa using hI.locks.pipe p k d (by rw [hg]; exact hd)
      · rw [hg]
        exact ⟨fun _ d h => ⟨d, h⟩, id, id, id⟩
      · rw [hg]
        exact ⟨hf, rfl⟩
    · trivial

theorem wwp_tidyUp (hQ : Q () g) : wwp p (tidyUp p) g Q := by
  refine wp_modifies fun s γ hI hg => ⟨g, hI.same hg others_setProc (by simp) rfl (fun q hq => ?_)
    (fun q => ?_) fun _ _ h => h, hQ⟩
  · rcases eq_or_ne q p with rfl | hqp
    · simpa using hq
    · simpa [update_of_ne hqp] using hq
  · rcases eq_or_ne q p with rfl | hqp
    · simp
    · simp [update_of_ne hqp]

/-- `sleep`, given what releasing and acquiring the lock does. -/
theorem wwp_sleep {x : Option (ℕ × Pipe)}
    (hl : l ≠ .ptable)
    (hrel : wwp p (release p l) ⟨true, x, false, false, false, some c⟩
      fun _ g => g = ⟨true, none, false, false, false, some c⟩)
    (hacq : wwp p (acquire p l) .out Q) :
    wwp p (sleep p c l) ⟨false, x, false, false, false, some c⟩ Q := by
  unfold sleep
  rw [if_pos hl]
  refine wp_bind.mpr (wwp_acquire_ptable ?_)
  refine wp_seq hrel ?_
  rintro - _ rfl
  refine wp_bind.mpr (wwp_goToSleep rfl rfl rfl ?_)
  refine wp_bind.mpr (wwp_sched rfl rfl ?_)
  refine wp_bind.mpr (wwp_tidyUp ?_)
  refine wp_bind.mpr (wwp_release_ptable (.inl rfl) ?_)
  exact hacq

/-- `sleep` on a channel of a pipe that is not ready; afterwards the pipe may be anything. -/
theorem wwp_sleep_pipe
    (hc : c = .nread k ∧ ¬d.Readable ∨ c = .nwrite k ∧ ¬d.Writable)
    (hQ : ∀ d', Q () ⟨false, some (k, d'), false, false, false, none⟩) :
    wwp p (sleep p c (.pipe k)) ⟨false, some (k, d), false, false, false, some c⟩ Q :=
  wwp_sleep (by simp) (wwp_release_pipe rfl (.inr ⟨rfl, by simpa using hc⟩) rfl)
    (wwp_acquire_pipe rfl rfl rfl hQ)

/-- `sleep` under the lock of the console or of the clock. -/
theorem wwp_sleep_other
    (hl : l = .cons ∨ l = .ticks) (hQ : Q () .out) :
    wwp p (sleep p c l) ⟨false, none, false, false, false, some c⟩ Q :=
  wwp_sleep (by rcases hl with rfl | rfl <;> simp) (wwp_release_other hl rfl) (wwp_acquire_other hQ)

/-! ## `wakeup` and `kill` -/

/-- A wakeup of `c` pays what the process owes to those who sleep on `c`, and nothing else. -/
structure Pays (c : Chan n) (g g' : Place n) : Prop where
  pt : g'.pt = g.pt
  pipe : g'.pipe = g.pipe
  bed : g'.bed = g.bed
  fed : g'.fed = true → g.fed = true ∧ ∀ k d, g.pipe = some (k, d) → c ≠ .nread k
  readers : ∀ k d, g.pipe = some (k, d) → c ≠ .nread k → g'.fed = g.fed ∧ g'.owesR = g.owesR
  writers : ∀ k d, g.pipe = some (k, d) → c ≠ .nwrite k → g'.owesW = g.owesW

theorem wwp_wakeup1 {g' : Place n} (hpt : g.pt = true)
    (hbed : g.bed = none ∨ g.pipe ≠ none) (hpay : Pays c g g') (hQ : Q () g') :
    wwp p (wakeup1 p c) g Q := by
  refine wp_modifies fun s γ hI hg => ⟨g', ?_, hQ⟩
  subst hg
  have hplain : ∀ e ∈ Event.woke p c :: (s.sleepers c).map .ready, e.Plain := by
    intro e he
    rcases List.mem_cons.mp he with rfl | he
    · exact plain_woke
    · obtain ⟨q, -, rfl⟩ := List.mem_map.mp he
      exact quiet_ready.toPlain
  have hready : ∀ e ∈ (s.sleepers c).map .ready, Event.Quiet (n := n) e := by
    intro e he
    obtain ⟨q, -, rfl⟩ := List.mem_map.mp he
    exact quiet_ready
  have hstate : ∀ q, (((s.wakeup1 c).note (.woke p c)).proc q).state = .sleeping →
      (s.proc q).state = .sleeping ∧ (s.proc q).chan ≠ some c := by
    intro q hq
    by_cases hs : (s.proc q).state = .sleeping ∧ (s.proc q).chan = some c
    · simp [hs] at hq
    · have hq' : (s.proc q).state = .sleeping := by simpa [hs] using hq
      exact ⟨hq', fun hc => hs ⟨hq', hc⟩⟩
  have hchan : ∀ q, (((s.wakeup1 c).note (.woke p c)).proc q).chan = (s.proc q).chan := by
    intro q
    simp only [Kernel.note_proc, Kernel.wakeup1_proc]
    split_ifs <;> rfl
  -- nobody is left who sleeps on `c`; and nobody else can be about to, without `ptable.lock`
  have hcommit : ∀ q c', c'.OfPipe →
      Committed ((s.wakeup1 c).note (.woke p c)) (update γ p g') q c' →
      Committed s γ q c' ∧ c' ≠ c := by
    rintro q c' ⟨k, hk⟩ (⟨hs, hc⟩ | ⟨hb, hp⟩)
    · rw [hchan] at hc
      obtain ⟨hs', hne⟩ := hstate q hs
      exact ⟨.inl ⟨hs', hc⟩, fun h => hne (h ▸ hc)⟩
    · exfalso
      rcases eq_or_ne q p with rfl | hqp
      · rw [update_self, hpay.bed] at hb
        rw [update_self, hpay.pipe] at hp
        rcases hbed with hbed | hbed
        · cases hbed.symm.trans hb
        · exact hbed hp
      · rw [update_of_ne hqp] at hb hp
        have hq := hI.locks.ptable q (hI.ready.handed q k (by rcases hk with rfl | rfl <;> simp [hb]) hp)
        exact hqp (Option.some.inj (hq.symm.trans (hI.locks.ptable p hpt)))
  have hsuf : s.log <:+ ((s.wakeup1 c).note (.woke p c)).log :=
    ⟨.woke p c :: (s.sleepers c).map .ready, rfl⟩
  refine ⟨?_, hI.flow.dry others_wakeup1.log (fun e he => (hplain e he).toDry) rfl, ?_, ?_⟩
  · refine hI.locks.step others_wakeup1 (fun _ _ _ _ => rfl) (fun h => hI.locks.ptable p hpt) ?_
    intro k d hd
    exact hI.locks.pipe p k d (hpay.pipe ▸ hd)
  · refine hI.kills.plain others_wakeup1.log hplain (fun h => by rwa [hpay.bed] at h)
      (fun q hq => (hstate q hq).1) fun q => ?_
    simp only [Kernel.note_proc, Kernel.wakeup1_proc]
    split_ifs <;> rfl
  · refine ⟨fun q j hj hp => ?_, fun q j e hq hf => ?_, fun hclean j q hq hr => ?_,
      fun j q hq hr => ?_⟩
    · rcases eq_or_ne q p with rfl | hqp
      · rw [update_self, hpay.pt]
        exact hpt
      · rw [update_of_ne hqp] at hj hp ⊢
        exact hI.ready.handed q j hj hp
    · rcases eq_or_ne q p with rfl | hqp
      · rw [update_self] at hq hf
        rw [hpay.pipe] at hq
        obtain ⟨hf', hne⟩ := hpay.fed hf
        have := hI.ready.fed q j e hq hf'
        simpa [Event.feed, hne j e hq, fed_quiet hready] using this
      · rw [update_of_ne hqp] at hq hf
        have := hI.ready.fed q j e hq hf
        simpa [Event.feed, Ne.symm hqp, fed_quiet hready] using this
    · obtain ⟨hq', hne⟩ := hcommit q _ ⟨j, .inl rfl⟩ hq
      obtain ⟨r, e, hr', hf⟩ := hI.ready.readers (hclean.suffix hsuf) j q hq' hr
      refine ⟨r, e, ?_⟩
      rcases eq_or_ne r p with rfl | hrp
      · obtain ⟨h₁, h₂⟩ := hpay.readers j e hr' hne.symm
        simpa [hpay.pipe, h₁, h₂] using ⟨hr', hf⟩
      · simpa [update_of_ne hrp] using ⟨hr', hf⟩
    · obtain ⟨hq', hne⟩ := hcommit q _ ⟨j, .inr rfl⟩ hq
      obtain ⟨r, e, hr', hf⟩ := hI.ready.writers j q hq' hr
      refine ⟨r, e, ?_⟩
      rcases eq_or_ne r p with rfl | hrp
      · simpa [hpay.pipe, hpay.writers j e hr' hne.symm] using ⟨hr', hf⟩
      · simpa [update_of_ne hrp] using ⟨hr', hf⟩

theorem wwp_wakeup {x : Option (ℕ × Pipe)} {f' r' w' : Bool}
    (hb : b = none ∨ x ≠ none)
    (hpay : Pays c ⟨true, x, f, r, w, b⟩ ⟨true, x, f', r', w', b⟩)
    (hQ : Q () ⟨false, x, f', r', w', b⟩) : wwp p (wakeup p c) ⟨false, x, f, r, w, b⟩ Q := by
  refine wp_bind.mpr (wwp_acquire_ptable ?_)
  refine wp_bind.mpr (wwp_wakeup1 rfl hb hpay ?_)
  exact wwp_release_ptable hb hQ

/-- Wake up the readers of the pipe whose lock the process holds. -/
theorem wwp_wakeup_nread
    (hQ : Q () ⟨false, some (k, d), false, false, w, b⟩) :
    wwp p (wakeup p (.nread k)) ⟨false, some (k, d), f, r, w, b⟩ Q := by
  have hpay : Pays (.nread k) ⟨true, some (k, d), f, r, w, b⟩
      ⟨true, some (k, d), false, false, w, b⟩ := by
    refine ⟨rfl, rfl, rfl, nofun, fun j e hj hne => ?_, fun j e _ _ => rfl⟩
    obtain ⟨rfl, -⟩ := Prod.mk.inj (Option.some.inj hj)
    exact absurd rfl hne
  exact wwp_wakeup (.inr nofun) hpay hQ

/-- Wake up its writers. -/
theorem wwp_wakeup_nwrite
    (hQ : Q () ⟨false, some (k, d), f, r, false, b⟩) :
    wwp p (wakeup p (.nwrite k)) ⟨false, some (k, d), f, r, w, b⟩ Q := by
  have hpay : Pays (.nwrite k) ⟨true, some (k, d), f, r, w, b⟩
      ⟨true, some (k, d), f, r, false, b⟩ := by
    refine ⟨rfl, rfl, rfl, fun h => ⟨h, nofun⟩, fun j e _ _ => ⟨rfl, rfl⟩, fun j e hj hne => ?_⟩
    obtain ⟨rfl, -⟩ := Prod.mk.inj (Option.some.inj hj)
    exact absurd rfl hne
  exact wwp_wakeup (.inr nofun) hpay hQ

theorem wwp_wakeup_other (hQ : Q () .out) : wwp p (wakeup p c) .out Q :=
  wwp_wakeup (.inl rfl) ⟨rfl, rfl, rfl, nofun, nofun, nofun⟩ hQ

theorem hit_quiet {pid : BitVec 32} {t : Fin n} : ∀ e ∈ hitEvents s pid t, e.Quiet := by
  unfold hitEvents
  split_ifs
  · simpa using ⟨quiet_ready, quiet_kill⟩
  · simpa using quiet_kill

/-- The process that a kill hits does not sleep any more. -/
theorem hit_proc (s : Kernel n) (pid : BitVec 32) (t q : Fin n) :
    (q = t ∧ ((s.hit pid t).proc q).state ≠ .sleeping) ∨ (s.hit pid t).proc q = s.proc q := by
  rcases eq_or_ne q t with rfl | hq
  · refine .inl ⟨rfl, ?_⟩
    rw [hit_self]
    by_cases hs : (s.proc q).state = .sleeping <;> simp [hs]
  · exact .inr (hit_of_ne s pid hq)

theorem wwp_kill {pid : BitVec 32} {Q : ℤ → Place n → Prop} (hQ : ∀ r, Q r .out) : wwp p (kill p pid) .out Q := by
  refine wp_bind.mpr (wwp_acquire_ptable ?_)
  refine wp_seq (R := fun _ g => g = ⟨true, none, false, false, false, none⟩) ?_ ?_
  · refine wp_atomic fun s γ hI hg => ?_
    cases (List.finRange n).find? fun q => (s.proc q).pid = pid with
    | none => exact ⟨_, by rwa [← hg, update_eq_self], rfl⟩
    | some t =>
      refine ⟨_, ?_, rfl⟩
      have ho : Others p (hitEvents s pid t) s (s.hit pid t) := others_hit
      obtain ⟨hdata, hholder, -⟩ := hit_rest s pid t
      have hsuf : s.log <:+ (s.hit pid t).log := ho.log ▸ List.suffix_append _ _
      have hw : ∀ q, window q (s.hit pid t).log = window q s.log := fun q => by
        rw [ho.log, window_plain fun e he => (hit_quiet e he).toPlain]
      refine ⟨?_, ?_, ?_, ?_⟩
      · refine hI.locks.step ho (fun _ _ _ _ => by rw [hdata]) (fun _ => ?_) nofun
        rw [hholder]
        exact hI.locks.ptable p (by rw [hg])
      · exact hI.flow.dry ho.log (fun e he => (hit_quiet e he).toDry) (by rw [hdata])
      · refine hI.kills.step hsuf (fun q _ => hw q) nofun fun hk q hq => .inr ?_
        rcases hit_proc s pid t q with ⟨rfl, hs⟩ | hs
        · -- the kill came in time, so its target is not about to sleep
          rw [hw, hk pid q _ s.log (hit_log s pid q)] at hq
          exact absurd (hq.resolve_left (by simp)) hs
        · rw [hs, ← hw]
          rw [hs] at hq
          exact ⟨rfl, hq⟩
      · refine hI.ready.step hsuf nofun (fun q j _ => by rw [ho.log, fed_quiet hit_quiet]) nofun ?_
          (by simp [hdata]) (by simp [hdata]) (by rw [hg]; exact .refl _)
        intro q c _ hq
        refine hq.mono (fun q hs hc => ?_) fun h => by cases h
        rcases hit_proc s pid t q with ⟨-, hs'⟩ | hs'
        · exact absurd hs hs'
        · rw [hs'] at hs hc
          exact ⟨hs, hc⟩
  · rintro r _ rfl
    refine wp_bind.mpr (wwp_release_ptable (.inl rfl) ?_)
    exact hQ r

/-! ## The tests -/

/-- A process that has to wait and is not killed is about to sleep from now on. -/
theorem inv_spared (hI : WaitInv s γ)
    (hkilled : (s.proc p).killed = false)
    (hpipe : c.OfPipe → (γ p).pipe ≠ none) :
    WaitInv (s.note (.spared p)) (update γ p { γ p with bed := some c }) := by
  have ho : Others p [.spared p] s (s.note (.spared p)) :=
    ⟨rfl, fun _ _ _ h => h, by simp, by simp, fun _ _ => .inl ⟨rfl, rfl⟩⟩
  refine ⟨?_, hI.flow.dry ho.log (by simpa using dry_spared) rfl, ?_, ?_⟩
  · exact hI.locks.step ho (fun _ _ _ _ => rfl) (hI.locks.ptable p) (hI.locks.pipe p)
  · refine hI.kills.step ⟨[.spared p], rfl⟩ (fun q hq => ?_) (fun _ => by simp [Event.turn])
      fun _ q hq => ?_
    · simp [Event.turn, Ne.symm hq]
    · by_cases hqp : q = p
      · exact .inl (hqp ▸ hkilled)
      · exact .inr ⟨rfl, by simpa [Event.turn, Ne.symm hqp] using hq⟩
  · refine hI.ready.step ⟨[.spared p], rfl⟩ ?_ (by simp [Event.feed]) ?_ ?_ (fun _ h => h)
      (fun _ h => h) ⟨fun _ d h => ⟨d, h⟩, id, id, id⟩
    · intro k hk hp
      refine absurd hp (hpipe ⟨k, ?_⟩)
      simpa using hk
    · intro k d hd hf
      simpa [Event.feed] using hI.ready.fed p k d hd hf
    · intro q c' hc' hq
      refine hq.mono (fun _ hs hc => ⟨hs, hc⟩) fun hb hp => ?_
      obtain rfl := Option.some.inj hb
      exact absurd hp (hpipe hc')

theorem wwp_testKilled {Q : Bool → Place n → Prop} (hpipe : c.OfPipe → g.pipe ≠ none)
    (hQt : Q true g) (hQf : Q false { g with bed := some c }) :
    wwp p (testKilled p) g Q := by
  refine wp_atomic fun s γ hI hg => ?_
  subst hg
  by_cases hk : (s.proc p).killed = true
  · simp only [hk, if_true]
    exact ⟨γ p, by rwa [update_eq_self], hQt⟩
  · simp only [hk]
    exact ⟨_, inv_spared hI (by simpa using hk) hpipe, hQf⟩

/-- A writer that finds the pipe full either gives up or is about to sleep. If it gives up cleanly, it
does not owe the readers a wakeup. -/
theorem wwp_testGiveUp {Q : Bool → Place n → Prop}
    (hQt : Q true ⟨false, some (k, d), false, false, false, none⟩)
    (hQf : d.readopen = true → Q false ⟨false, some (k, d), f, false, false, some (.nwrite k)⟩) :
    wwp p (testGiveUp p k) ⟨false, some (k, d), f, false, false, none⟩ Q := by
  refine wp_atomic fun s γ hI hg => ?_
  obtain ⟨hh, hd⟩ := hI.locks.pipe p k d (by rw [hg])
  split_ifs with hgive
  · have ho : Others p [.gaveUp p k] s (s.note (.gaveUp p k)) :=
      ⟨rfl, fun _ _ _ h => h, by simp, by simp, fun _ _ => .inl ⟨rfl, rfl⟩⟩
    have hquiet : ∀ e ∈ [Event.gaveUp p k], e.Quiet := by simpa using quiet_gaveUp
    refine ⟨_, ⟨?_, ?_, ?_, ?_⟩, hQt⟩
    · refine hI.locks.step ho (fun _ _ _ _ => rfl) nofun fun j e hj => ?_
      exact hI.locks.pipe p j e (by rw [hg]; exact hj)
    · exact hI.flow.dry ho.log (fun e he => (hquiet e he).toDry) rfl
    · exact hI.kills.plain ho.log (fun e he => (hquiet e he).toPlain) nofun (fun _ h => h) fun _ => rfl
    · refine ⟨fun q j hj hp => ?_, fun q j e hq hf => ?_, fun hclean j q hq hr => ?_,
        fun j q hq hr => ?_⟩
      · rcases eq_or_ne q p with rfl | hqp
        · simp at hj
        · rw [update_of_ne hqp] at hj hp ⊢
          exact hI.ready.handed q j hj hp
      · rcases eq_or_ne q p with rfl | hqp
        · simp at hf
        · rw [update_of_ne hqp] at hq hf
          simpa [Event.feed] using hI.ready.fed q j e hq hf
      · -- a clean exit: no byte has been stored since the last wakeup
        have hf : f = false := by
          by_contra hf
          have hfed := hI.ready.fed p k d (by rw [hg]) (by rw [hg]; simpa using hf)
          rw [hclean p k s.log List.suffix_rfl] at hfed
          cases hfed
        subst hf
        have hq' : Committed s γ q (.nread j) :=
          hq.mono (fun _ hs hc => ⟨hs, hc⟩) fun h => by cases h
        obtain ⟨r, e, hr', hf⟩ := hI.ready.readers (hclean.suffix ⟨[.gaveUp p k], rfl⟩) j q hq' hr
        have hrp : r ≠ p := by
          rintro rfl
          simp [hg] at hf
        exact ⟨r, e, by simpa [update_of_ne hrp] using ⟨hr', hf⟩⟩
      · have hq' : Committed s γ q (.nwrite j) :=
          hq.mono (fun _ hs hc => ⟨hs, hc⟩) fun h => by cases h
        obtain ⟨r, e, hr', hf⟩ := hI.ready.writers j q hq' hr
        have hrp : r ≠ p := by
          rintro rfl
          simp [hg] at hf
        exact ⟨r, e, by simpa [update_of_ne hrp] using ⟨hr', hf⟩⟩
  · simp only [not_or, Bool.not_eq_false, Bool.not_eq_true] at hgive
    have hI' := inv_spared (c := .nwrite k) hI hgive.2 (by rw [hg]; simp)
    rw [hg] at hI'
    exact ⟨_, hI', hQf (hd ▸ hgive.1)⟩

/-! ## The pipe -/

/-- A section by which the holder of its lock changes a pipe: whoever it makes ready is owed a
wakeup. -/
theorem inv_setPipe {d' : Pipe} {e : Event n}
    {f' r' w' : Bool} (hI : WaitInv s γ) (hg : γ p = ⟨false, some (k, d), f, r, w, none⟩)
    (hflow : Flow ((s.setPipe k d').note e)) (hturn : ∀ t, e.turn t = none)
    (hgot : ∀ q l, e ≠ .got q l) (htest : ∀ q c l, e ≠ .test q c l)
    (hothers : ∀ q j, q ≠ p → e.feed q j = none)
    (hfed : f' = true → e.feed p k = some true ∨ f = true ∧ e.feed p k = none)
    (hread : d'.Readable → d.Readable ∨ f' = true ∨ r' = true)
    (hwrite : d'.Writable → d.Writable ∨ w' = true)
    (hf : f = true → f' = true) (hr : r = true → r' = true) (hw : w = true → w' = true) :
    WaitInv ((s.setPipe k d').note e) (update γ p ⟨false, some (k, d'), f', r', w', none⟩) := by
  obtain ⟨hh, hd⟩ := hI.locks.pipe p k d (by rw [hg])
  have ho : Others p [e] s ((s.setPipe k d').note e) :=
    ⟨rfl, fun _ _ _ h => h, fun q l h => absurd (List.mem_singleton.mp h).symm (hgot q l),
      fun q c l h => absurd (List.mem_singleton.mp h).symm (htest q c l), fun _ _ => .inl ⟨rfl, rfl⟩⟩
  have hpipe : ∀ j, j ≠ k → ((s.setPipe k d').note e).data.pipe j = s.data.pipe j := fun j hj =>
    update_of_ne hj ..
  have hpipe_k : ((s.setPipe k d').note e).data.pipe k = d' := update_self ..
  have hcommit : ∀ q c, Committed ((s.setPipe k d').note e)
      (update γ p ⟨false, some (k, d'), f', r', w', none⟩) q c → Committed s γ q c :=
    fun q c hq => hq.mono (fun _ hs hc => ⟨hs, hc⟩) fun h => by cases h
  -- the process that owes someone a wakeup still does so
  have howner : ∀ q j b, (γ q).pipe = some (j, b) → (q = p ∧ j = k) ∨ q ≠ p ∧
      update γ p ⟨false, some (k, d'), f', r', w', none⟩ q = γ q := by
    intro q j b hq
    rcases eq_or_ne q p with rfl | hqp
    · rw [hg] at hq
      exact .inl ⟨rfl, (Prod.mk.inj (Option.some.inj hq)).1.symm⟩
    · exact .inr ⟨hqp, update_of_ne hqp ..⟩
  refine ⟨?_, hflow, ?_, ?_⟩
  · refine hI.locks.step ho (fun q j hq hj => ?_) nofun fun j b hj => ?_
    · rcases eq_or_ne j k with rfl | hjk
      · exact absurd (Option.some.inj (hj.symm.trans hh)) hq
      · exact hpipe j hjk
    · obtain ⟨rfl, rfl⟩ := Prod.mk.inj (Option.some.inj hj)
      exact ⟨hh, hpipe_k⟩
  · refine hI.kills.step ⟨[e], rfl⟩ (fun q _ => by simp [hturn]) nofun fun _ q hq => .inr ⟨rfl, ?_⟩
    simpa [hturn] using hq
  · refine ⟨fun q j hj hp => ?_, fun q j b hq hfq => ?_, fun hclean j q hq hrd => ?_,
      fun j q hq hwr => ?_⟩
    · rcases eq_or_ne q p with rfl | hqp
      · simp at hj
      · rw [update_of_ne hqp] at hj hp ⊢
        exact hI.ready.handed q j hj hp
    · rcases eq_or_ne q p with rfl | hqp
      · rw [update_self] at hq hfq
        obtain ⟨rfl, rfl⟩ := Prod.mk.inj (Option.some.inj hq)
        rcases hfed hfq with he | ⟨hf', he⟩
        · simp [he]
        · simpa [he] using hI.ready.fed q k d (by rw [hg]) (by rw [hg]; exact hf')
      · rw [update_of_ne hqp] at hq hfq
        simpa [hothers q j hqp] using hI.ready.fed q j b hq hfq
    · have hold : (s.data.pipe j).Readable ∨ j = k ∧ (f' = true ∨ r' = true) := by
        rcases eq_or_ne j k with rfl | hjk
        · rw [hpipe_k] at hrd
          exact (hread hrd).imp (fun h => hd ▸ h) fun h => ⟨rfl, h⟩
        · rw [hpipe j hjk] at hrd
          exact .inl hrd
      rcases hold with hold | ⟨rfl, hold⟩
      · obtain ⟨o, b, ho', hfo⟩ :=
          hI.ready.readers (hclean.suffix ⟨[e], rfl⟩) j q (hcommit q _ hq) hold
        rcases howner o j b ho' with ⟨rfl, rfl⟩ | ⟨hop, heq⟩
        · rw [hg] at hfo
          exact ⟨o, d', by simpa using hfo.imp hf hr⟩
        · exact ⟨o, b, by rw [heq]; exact ⟨ho', hfo⟩⟩
      · exact ⟨p, d', by simpa using hold⟩
    · have hold : (s.data.pipe j).Writable ∨ j = k ∧ w' = true := by
        rcases eq_or_ne j k with rfl | hjk
        · rw [hpipe_k] at hwr
          exact (hwrite hwr).imp (fun h => hd ▸ h) fun h => ⟨rfl, h⟩
        · rw [hpipe j hjk] at hwr
          exact .inl hwr
      rcases hold with hold | ⟨rfl, hold⟩
      · obtain ⟨o, b, ho', hfo⟩ := hI.ready.writers j q (hcommit q _ hq) hold
        rcases howner o j b ho' with ⟨rfl, rfl⟩ | ⟨hop, heq⟩
        · rw [hg] at hfo
          exact ⟨o, d', by simpa using hw hfo⟩
        · exact ⟨o, b, by rw [heq]; exact ⟨ho', hfo⟩⟩
      · exact ⟨p, d', by simpa using hold⟩

theorem pipesize_dvd : PIPESIZE ∣ 2 ^ 32 := by decide

theorem pipesize_lt : PIPESIZE < 2 ^ 32 := by decide

/-- A change of pipe `k`, and an event that puts and takes nothing at any other pipe. -/
theorem Flow.setPipe {d' : Pipe} {e : Event n} {v : List UInt8} (h : Flow s)
    (hput : ∀ j, j ≠ k → e.put j = []) (htake : ∀ j, j ≠ k → e.take j = [])
    (hu : written k s.log ++ e.put k = taken k s.log ++ e.take k ++ v)
    (hq : Queued PIPESIZE d'.data d'.nread d'.nwrite v)
    (hshut : ∀ j, e = .shut j true → j = k)
    (hwo : e = .shut k true ∨ (s.data.pipe k).writeopen = false ↔ d'.writeopen = false)
    (htook : ∀ q j m, e = .took q j m [] → 0 < m →
      written j s.log = taken j s.log ∧ .shut j true ∈ s.log) :
    Flow ((s.setPipe k d').note e) where
  queued j := by
    rcases eq_or_ne j k with rfl | hj
    · exact ⟨v, by simpa using hu, by simpa using hq⟩
    · obtain ⟨u, hu, hq⟩ := h.queued j
      exact ⟨u, by simpa [hput j hj, htake j hj] using hu, by simpa [update_of_ne hj] using hq⟩
  shut j := by
    rcases eq_or_ne j k with rfl | hj
    · have hpipe : ((s.setPipe j d').note e).data.pipe j = d' := update_self ..
      rw [hpipe, ← hwo, ← h.shut j, eq_comm (a := e)]
      exact List.mem_cons
    · have := h.shut j
      have hne : Event.shut j true ≠ e := fun he => hj (hshut j he.symm)
      simpa [hne, update_of_ne hj] using this
  took q j m h' hs hm := by
    rcases List.suffix_cons_iff.mp hs with he | hs
    · obtain ⟨he, hh⟩ := List.cons.inj he
      rw [hh]
      exact htook q j m he.symm hm
    · exact h.took q j m h' hs hm

theorem wwp_storeByte {b : UInt8}
    (hfull : d.full = false)
    (hQ : Q () ⟨false, some (k, d.store b), true, false, false, none⟩) :
    wwp p (storeByte p k b) ⟨false, some (k, d), f, false, false, none⟩ Q := by
  refine wp_modifies fun s γ hI hg => ⟨_, ?_, hQ⟩
  obtain ⟨-, rfl⟩ := hI.locks.pipe p k d (by rw [hg])
  obtain ⟨u, hu, hq⟩ := hI.flow.queued k
  have hlt : u.length < PIPESIZE := by
    refine lt_of_le_of_ne hq.length_le fun h => ?_
    rw [Pipe.full, decide_eq_false_iff_not] at hfull
    exact hfull ((hq.full_iff pipesize_lt).mpr h)
  refine inv_setPipe hI hg ?_ (fun _ => rfl) nofun nofun ?_ ?_ (fun _ => .inr (.inl rfl)) (fun h => ?_)
    (fun _ => rfl) id id
  · refine hI.flow.setPipe (v := u ++ [b]) ?_ (fun _ _ => rfl) ?_ (hq.push pipesize_dvd hlt b) nofun
      (by simp [Pipe.store]) nofun
    · intro j hj
      simp [Event.put, Ne.symm hj]
    · simp [Event.put, Event.take, hu]
  · intro q j hq
    simp [Event.feed, Ne.symm hq]
  · intro _
    simp [Event.feed]
  · exact .inl (.inl hfull)

theorem Pipe.copyOut_empty (h : d.empty = true) (m : ℕ) : d.copyOut m = ([], d) := by
  cases m with
  | zero => rfl
  | succ m => simp [Pipe.copyOut, h]

/-- `piperead` copies the oldest bytes. -/
theorem Pipe.copyOut_spec {m : ℕ} {u : List UInt8}
    (h : Queued PIPESIZE d.data d.nread d.nwrite u) :
    (d.copyOut m).1 = u.take m ∧
      Queued PIPESIZE (d.copyOut m).2.data (d.copyOut m).2.nread (d.copyOut m).2.nwrite (u.drop m) ∧
      (d.copyOut m).2.writeopen = d.writeopen := by
  induction m generalizing d u with
  | zero => exact ⟨rfl, h, rfl⟩
  | succ m ih =>
    have hempty := h.empty_iff pipesize_lt
    cases u with
    | nil =>
      have he : d.empty = true := by simpa [Pipe.empty] using hempty
      rw [Pipe.copyOut_empty he]
      exact ⟨rfl, h, rfl⟩
    | cons x u =>
      have he : d.empty = false := by simpa [Pipe.empty] using hempty
      obtain ⟨hx, hpop⟩ := h.pop
      obtain ⟨h₁, h₂, h₃⟩ := @ih { d with nread := d.nread + 1 } u hpop
      simp only [Pipe.copyOut, he]
      exact ⟨congrArg₂ List.cons hx h₁, h₂, h₃⟩

theorem wwp_copyBytes {Q : List UInt8 → Place n → Prop} (hd : d.Readable)
    (hQ : ∀ bs d', Q bs ⟨false, some (k, d'), false, false, true, none⟩) :
    wwp p (copyBytes p k m) ⟨false, some (k, d), false, false, false, none⟩ Q := by
  refine wp_atomic fun s γ hI hg => ⟨_, ?_, hQ _ ((s.data.pipe k).copyOut m.toNat).2⟩
  obtain ⟨-, rfl⟩ := hI.locks.pipe p k d (by rw [hg])
  obtain ⟨u, hu, hq⟩ := hI.flow.queued k
  obtain ⟨h₁, h₂, h₃⟩ := Pipe.copyOut_spec (m := m.toNat) hq
  refine inv_setPipe hI hg ?_ (fun _ => rfl) nofun nofun (fun _ _ _ => rfl) nofun (fun h => ?_)
    (fun _ => .inr rfl) nofun nofun nofun
  · refine hI.flow.setPipe (v := u.drop m.toNat) (fun _ _ => rfl) ?_ ?_ h₂ nofun (by simp [h₃]) ?_
    · intro j hj
      simp [Event.take, Ne.symm hj]
    · simp [Event.put, Event.take, hu, h₁]
    · -- nothing was copied: the pipe is empty, so its write end is closed
      intro q j i he hi
      obtain ⟨-, rfl, rfl, hbs⟩ := Event.took.inj he
      rw [h₁, List.take_eq_nil_iff] at hbs
      have hnil : u = [] := hbs.resolve_left (by omega)
      have hempty : (s.data.pipe k).empty = true := by
        simpa [Pipe.empty] using (hq.empty_iff pipesize_lt).mpr hnil
      refine ⟨by simpa [hnil] using hu, (hI.flow.shut k).mpr ?_⟩
      exact hd.resolve_left (by simp [hempty])
  · by_cases he : (s.data.pipe k).empty = true
    · rw [Pipe.copyOut_empty he] at h
      exact .inl h
    · exact .inl (.inl (by simpa using he))

/-- Close an end of the pipe; those who wait at the other end are owed a wakeup. -/
theorem wwp_closeEnd {writable : Bool}
    (hQ : ∀ d', Q () ⟨false, some (k, d'), false, writable, !writable, none⟩) :
    wwp p (closeEnd k writable) ⟨false, some (k, d), false, false, false, none⟩ Q := by
  refine wp_modifies fun s γ hI hg => ⟨_, ?_, hQ ((s.data.pipe k).close writable)⟩
  obtain ⟨-, rfl⟩ := hI.locks.pipe p k d (by rw [hg])
  obtain ⟨u, hu, hq⟩ := hI.flow.queued k
  refine inv_setPipe hI hg ?_ (fun _ => rfl) nofun nofun (fun _ _ _ => rfl) nofun ?_ ?_ id nofun nofun
  · refine hI.flow.setPipe (v := u) (fun _ _ => rfl) (fun _ _ => rfl) ?_ ?_ ?_ ?_ nofun
    · simpa [Event.put, Event.take] using hu
    · cases writable <;> exact hq
    · intro j hj
      exact (Event.shut.inj hj).1.symm
    · cases writable <;> simp [Pipe.close]
  · cases writable
    · exact fun h => .inl h
    · exact fun _ => .inr (.inr rfl)
  · cases writable
    · exact fun _ => .inr rfl
    · exact fun h => .inl h

/-! ## The functions -/

theorem wwp_stuck {α : Type} {Q : α → Place n → Prop} : wwp p stuck g Q := wp_atomic fun _ _ _ _ => trivial

/-- Reading the pipe whose lock the process holds gives the value it has. -/
theorem wwp_readPipe {Q : Pipe → Place n → Prop} (hg : g.pipe = some (k, d)) (hQ : Q d g) :
    wwp p (Prog.reads fun s : Kernel n => s.data.pipe k) g Q := by
  refine wp_reads fun s γ hI hγ => ?_
  rw [(hI.locks.pipe p k d (by rw [hγ, hg])).2]
  exact hQ

theorem wwp_pipewriteFrom {addr : ℕ → UInt8} (fuel i : ℕ) (d : Pipe) (f : Bool)
    {Q : ℤ → Place n → Prop} (hQ : ∀ r, Q r .out) :
    wwp p (pipewriteFrom p k addr m fuel i) ⟨false, some (k, d), f, false, false, none⟩ Q := by
  induction fuel generalizing i d f with
  | zero => exact wwp_stuck
  | succ fuel ih =>
    unfold pipewriteFrom
    split_ifs with hi
    · refine wp_bind.mpr (wwp_readPipe rfl ?_)
      split_ifs with hfull
      · refine wp_seq (R := fun r g => r = true ∧ g = ⟨false, some (k, d), false, false, false, none⟩ ∨
          r = false ∧ ¬d.Writable ∧ g = ⟨false, some (k, d), f, false, false, some (.nwrite k)⟩)
          (wwp_testGiveUp (.inl ⟨rfl, rfl⟩) fun hro => .inr ⟨rfl, ?_, rfl⟩) ?_
        · rintro (h | h)
          · simp [hfull] at h
          · simp [hro] at h
        · rintro _ _ (⟨rfl, rfl⟩ | ⟨rfl, hnot, rfl⟩)
          · refine wp_bind.mpr (wwp_release_pipe rfl (.inl rfl) ?_)
            exact hQ (-1)
          · refine wp_bind.mpr (wwp_wakeup_nread ?_)
            exact wp_bind.mpr (wwp_sleep_pipe (.inr ⟨rfl, hnot⟩) fun d' => ih i d' false)
      · refine wp_bind.mpr (wwp_storeByte (by simpa using hfull) ?_)
        exact ih (i + 1) _ true
    · refine wp_bind.mpr (wwp_wakeup_nread ?_)
      refine wp_bind.mpr (wwp_release_pipe rfl (.inl rfl) ?_)
      exact hQ m

theorem wwp_pipereadWait (fuel : ℕ) (d : Pipe) {Q : Bool → Place n → Prop}
    (hQt : ∀ d' : Pipe, d'.Readable → Q true ⟨false, some (k, d'), false, false, false, none⟩)
    (hQf : ∀ d', Q false ⟨false, some (k, d'), false, false, false, none⟩) :
    wwp p (pipereadWait p k fuel) ⟨false, some (k, d), false, false, false, none⟩ Q := by
  induction fuel generalizing d with
  | zero => exact wwp_stuck
  | succ fuel ih =>
    unfold pipereadWait
    refine wp_bind.mpr (wwp_readPipe rfl ?_)
    split_ifs with hwait
    · refine wp_bind.mpr (wwp_testKilled (c := .nread k) (by simp) ?_ ?_)
      · exact hQf d
      · have hnot : ¬d.Readable := by
          rintro (h | h) <;> simp [h] at hwait
        exact wp_bind.mpr (wwp_sleep_pipe (.inl ⟨rfl, hnot⟩) fun d' => ih d')
    · refine hQt d ?_
      simpa [Pipe.Readable, or_iff_not_imp_left] using hwait

theorem wwp_piperead {Q : ℤ × List UInt8 → Place n → Prop} (hQ : ∀ r, Q r .out) :
    wwp p (piperead p k m fuel) .out Q := by
  refine wp_bind.mpr (wwp_acquire_pipe rfl rfl rfl fun d => ?_)
  refine wp_seq (R := fun r g => ∃ d : Pipe, (r = true → d.Readable) ∧
    g = ⟨false, some (k, d), false, false, false, none⟩)
    (wwp_pipereadWait fuel d (fun d' h => ⟨d', fun _ => h, rfl⟩) fun d' => ⟨d', nofun, rfl⟩) ?_
  rintro r _ ⟨d, hd, rfl⟩
  split_ifs with hr
  · refine wp_bind.mpr (wwp_copyBytes (hd hr) fun bs d => ?_)
    refine wp_bind.mpr (wwp_wakeup_nwrite ?_)
    refine wp_bind.mpr (wwp_release_pipe rfl (.inl rfl) ?_)
    exact hQ _
  · refine wp_bind.mpr (wwp_release_pipe rfl (.inl rfl) ?_)
    exact hQ _

theorem wwp_pipewrite {addr : ℕ → UInt8} {Q : ℤ → Place n → Prop}
    (hQ : ∀ r, Q r .out) : wwp p (pipewrite p k addr m fuel) .out Q := by
  refine wp_bind.mpr (wwp_acquire_pipe rfl rfl rfl fun d => ?_)
  exact wwp_pipewriteFrom fuel 0 d false hQ

theorem wwp_pipeclose {writable : Bool} (hQ : Q () .out) : wwp p (pipeclose p k writable) .out Q := by
  refine wp_bind.mpr (wwp_acquire_pipe rfl rfl rfl fun d => ?_)
  refine wp_bind.mpr (wwp_closeEnd fun d => ?_)
  refine wp_seq (R := fun _ g => g = ⟨false, some (k, d), false, false, false, none⟩) ?_ ?_
  · cases writable
    · exact wwp_wakeup_nwrite rfl
    · exact wwp_wakeup_nread rfl
  · rintro - _ rfl
    exact wwp_release_pipe rfl (.inl rfl) hQ

/-- A section on the console's input or the clock. -/
theorem inv_setData {x : Data} (hI : WaitInv s γ)
    (hx : x.pipe = s.data.pipe) (hg : γ p = g) : WaitInv (s.setData x) (update γ p g) :=
  hI.same hg others_setData (by simp) hx (fun _ h => ⟨h, .inl rfl⟩) (fun _ => rfl) fun _ _ h => h

theorem wwp_consolereadFrom {target : ℤ} (fuel : ℕ) (m : ℤ) (dst : List UInt8)
    {Q : Option (List UInt8) → Place n → Prop} (hQ : ∀ r, Q r .out) :
    wwp p (consolereadFrom p target fuel m dst) .out Q := by
  induction fuel generalizing m dst with
  | zero => exact wwp_stuck
  | succ fuel ih =>
    unfold consolereadFrom
    split_ifs with hm
    · refine wp_bind.mpr (wp_reads fun _ _ _ _ => ?_)
      split_ifs with hx
      · refine wp_bind.mpr (wwp_testKilled (c := .input) (by rintro ⟨k, h | h⟩ <;> cases h) ?_ ?_)
        · exact hQ none
        · refine wp_bind.mpr (wwp_sleep_other (.inl rfl) ?_)
          exact ih m dst
      · refine wp_seq (R := fun _ g => g = .out) ?_ ?_
        · refine wp_atomic fun s γ hI hg => ?_
          simp only
          split_ifs
          · exact ⟨_, by rwa [← hg, update_eq_self], rfl⟩
          · exact ⟨_, inv_setData hI rfl hg, rfl⟩
        · rintro c _ rfl
          split_ifs
          · exact hQ _
          · exact hQ _
          · exact ih _ _
    · exact hQ _

theorem wwp_consoleread {Q : ℤ × List UInt8 → Place n → Prop} (hQ : ∀ r, Q r .out) :
    wwp p (consoleread p m fuel) .out Q := by
  refine wp_bind.mpr (wwp_acquire_other ?_)
  refine wp_bind.mpr (wwp_consolereadFrom fuel m [] fun r => ?_)
  refine wp_bind.mpr (wwp_release_other (.inl rfl) ?_)
  cases r with
  | none => exact hQ _
  | some dst => exact hQ _

theorem wwp_consoleintrFrom (cs : List UInt8) (hQ : Q () .out) : wwp p (consoleintrFrom p cs) .out Q := by
  induction cs with
  | nil => exact hQ
  | cons c cs ih =>
    · refine wp_bind.mpr (wp_atomic fun s γ hI hg => ⟨_, inv_setData hI rfl hg, ?_⟩)
      split_ifs
      · refine wp_bind.mpr (wwp_wakeup_other ?_)
        exact ih
      · exact ih

theorem wwp_consoleintr {cs : List UInt8} (hQ : Q () .out) : wwp p (consoleintr p cs) .out Q := by
  refine wp_bind.mpr (wwp_acquire_other ?_)
  refine wp_bind.mpr (wwp_consoleintrFrom cs ?_)
  exact wwp_release_other (.inl rfl) hQ

theorem wwp_sysSleepFrom {ticks0 m : BitVec 32} (fuel : ℕ) {Q : Bool → Place n → Prop}
    (hQ : ∀ r, Q r .out) : wwp p (sysSleepFrom p ticks0 m fuel) .out Q := by
  induction fuel with
  | zero => exact wwp_stuck
  | succ fuel ih =>
    unfold sysSleepFrom
    refine wp_bind.mpr (wp_reads fun _ _ _ _ => ?_)
    split_ifs with hwait
    · refine wp_bind.mpr (wwp_testKilled (c := .ticks) (by rintro ⟨k, h | h⟩ <;> cases h) ?_ ?_)
      · exact hQ false
      · refine wp_bind.mpr (wwp_sleep_other (.inr rfl) ?_)
        exact ih
    · exact hQ true

theorem wwp_sysSleep {m : BitVec 32} {Q : ℤ → Place n → Prop} (hQ : ∀ r, Q r .out) :
    wwp p (sysSleep p m fuel) .out Q := by
  refine wp_bind.mpr (wwp_acquire_other ?_)
  refine wp_bind.mpr (wp_reads fun _ _ _ _ => ?_)
  refine wp_bind.mpr (wwp_sysSleepFrom fuel fun r => ?_)
  refine wp_bind.mpr (wwp_release_other (.inr rfl) ?_)
  exact hQ _

theorem wwp_timer (hQ : Q () .out) : wwp p (timer p) .out Q := by
  refine wp_bind.mpr (wwp_acquire_other ?_)
  refine wp_bind.mpr (wp_modifies fun s γ hI hg => ⟨_, inv_setData hI rfl hg, ?_⟩)
  refine wp_bind.mpr (wwp_wakeup_other ?_)
  exact wwp_release_other (.inr rfl) hQ

end

/-! ## All runs -/

theorem waiters_sound :
    Sound (waiters (n := n)) WaitInv (fun _ _ => True) fun _ _ g => g = .out where
  restart _ _ _ _ h := h.elim
  call s γ p _ k hI hg _ := by
    refine ⟨.out, by rwa [← hg, update_eq_self], ?_⟩
    have drop : ∀ {α : Type} {x : Prog (Kernel n) α}, wwp p x .out (fun _ g => g = .out) →
        wwp p (x.bind fun _ => .ret ()) .out fun _ g => g = .out :=
      fun hx => wp_seq hx fun _ _ h => h
    cases k with
    | pipewrite k addr m fuel => exact drop (wwp_pipewrite fun _ => rfl)
    | piperead k m fuel => exact drop (wwp_piperead fun _ => rfl)
    | pipeclose k writable => exact wwp_pipeclose rfl
    | consoleread m fuel => exact drop (wwp_consoleread fun _ => rfl)
    | sysSleep m fuel => exact drop (wwp_sysSleep fun _ => rfl)
    | kill pid => exact drop (wwp_kill fun _ => rfl)
    | consoleintr cs => exact wwp_consoleintr rfl
    | timer => exact wwp_timer rfl

theorem waitInv_started {s : Kernel n} (hs : Started s) : WaitInv s fun _ => .out where
  locks := ⟨nofun, nofun⟩
  flow :=
    { queued := fun k => ⟨[], by simp [hs.log, written, taken], .nil (hs.empty k)⟩
      shut := fun k => by simp [hs.log, hs.writeopen k]
      took := fun p k m h hsuf => by simp [hs.log] at hsuf }
  kills :=
    { bed := fun p h => absurd rfl h
      safe := fun _ p hp => absurd (hp.resolve_left (by simp [hs.log, window])) (hs.awake p) }
  ready :=
    { handed := nofun
      fed := nofun
      readers := fun _ k q hq => absurd (hq.resolve_right nofun).1 (hs.awake q)
      writers := fun k q hq => absurd (hq.resolve_right nofun).1 (hs.awake q) }

/-- The invariant holds in every state the processes reach. -/
theorem waitInv_of_reach {s : Kernel n} (hs : Started s) {c : Config (Kernel n) (Fin n) Unit}
    (hr : Reach waiters (idle s) c) : ∃ γ, WaitInv c.shared γ := by
  have h0 : Holds WaitInv (fun _ _ => True) (fun _ _ g => g = .out) (idle s) :=
    ⟨fun _ => .out, waitInv_started hs, fun _ => rfl⟩
  obtain ⟨γ, hI, -⟩ := wp_pool waiters_sound h0 hr
  exact ⟨γ, hI⟩

end Xv6.Proc
