import Xv6.Bio.Store

/-!
# Coherence of the buffer cache

`Coh m γ st` is the invariant that ties the buffers, the list and the disk to the block store `st`
the cache stands for. `γ p i` says how process `p` holds buffer `i`: for which block, and whether it
is still between `bget` and the end of `bread` (`loading`), has contents the store knows (`clean`),
or in-place changes that are not yet saved (`unsaved`). There is one lemma for each step of `bio.c`
and `log.c`.
-/

namespace Xv6.Bio

open Conc Lib
open Function (update update_self update_of_ne)

variable {Pid : Type}

/-- How far a process has come with a buffer it holds. -/
inductive Phase where
  | loading
  | clean
  | unsaved (d : Bytes)

/-- A buffer held by a process: the block it carries and the phase of its use. -/
structure Hold where
  dev : ℕ
  b : ℕ
  phase : Phase

/-- The buffers of each process. -/
abbrev HoldMap (Pid : Type) := Pid → Slot → Option Hold

/-- The buffer carries block `b` of device `dev`. -/
def Carries (m : Machine Pid) (i : Slot) (dev b : ℕ) : Prop :=
  (m.buf i).dev = dev ∧ (m.buf i).blockno = b

/-- The ring of the cache holds each buffer exactly once. -/
def RingOk (m : Machine Pid) : Prop :=
  ∃ l : List Slot, m.links.IsRing none (l.map some) ∧ l.Perm (List.finRange NBUF)

/-- The cache, with its holders `γ`, stands for the store `st`. -/
structure Coh (m : Machine Pid) (γ : HoldMap Pid) (st : Store Pid) : Prop where
  ring : RingOk m
  unique : ∀ i j dev b, Carries m i dev b → Carries m j dev b → dev ≠ NODEV → i = j
  busy : ∀ i, (m.buf i).busy = true ↔ ∃ p, γ p i ≠ none
  one : ∀ i p q, γ p i ≠ none → γ q i ≠ none → p = q
  carries : ∀ i p h, γ p i = some h → Carries m i h.dev h.b ∧ h.dev ≠ NODEV
  loaded : ∀ i p h, γ p i = some h → h.phase ≠ .loading → (m.buf i).valid = true
  unsaved : ∀ i p h d, γ p i = some h → h.phase = .unsaved d → (m.buf i).data = d
  dirty : ∀ i, (m.buf i).dirty = true → (m.buf i).valid = true
  holder : ∀ dev b p, st.holder dev b = some p ↔
    ∃ i h, γ p i = some h ∧ h.dev = dev ∧ h.b = b
  data : ∀ i dev b, Carries m i dev b → dev ≠ NODEV → (m.buf i).valid = true →
    (∀ p h d, γ p i = some h → h.phase ≠ .unsaved d) → (m.buf i).data = st.content dev b
  disk : ∀ dev b, dev ≠ NODEV → (∀ i, Carries m i dev b → (m.buf i).dirty = false) →
    m.disk dev b = st.content dev b

/-! ## Reading the list -/

theorem RingOk.mem_forward {m : Machine Pid} (h : RingOk m) (i : Slot) : i ∈ m.forward := by
  obtain ⟨l, hl, hp⟩ := h
  have hlen : (l.map some).length ≤ NBUF := by simp [hp.length_eq]
  rw [Machine.forward, hl.walk_next hlen]
  simpa using hp.mem_iff.mpr (List.mem_finRange i)

theorem RingOk.mem_backward {m : Machine Pid} (h : RingOk m) (i : Slot) : i ∈ m.backward := by
  obtain ⟨l, hl, hp⟩ := h
  have hlen : (l.map some).length ≤ NBUF := by simp [hp.length_eq]
  rw [Machine.backward, hl.walk_prev hlen]
  simpa using hp.mem_iff.mpr (List.mem_finRange i)

/-- `binit` links every buffer into the ring. -/
theorem ringOk_binit : binitLinks.IsRing none ((List.finRange NBUF).reverse.map some) := by
  have key : ∀ (xs ys : List Slot) (L : Links Node), (xs ++ ys).Nodup →
      L.IsRing none (ys.map some) →
      (xs.foldl (fun L i => L.pushFront none (some i)) L).IsRing none
        ((xs.reverse ++ ys).map some) := by
    intro xs
    induction xs with
    | nil => intro ys L _ hL; exact hL
    | cons x xs ih =>
      intro ys L hnd hL
      have hnd' : (xs ++ x :: ys).Nodup := List.perm_middle.nodup_iff.mpr hnd
      have hx : some x ∉ none :: ys.map some := by
        rw [List.cons_append, List.nodup_cons, List.mem_append, not_or] at hnd
        simpa using hnd.1.2
      have := ih (x :: ys) (L.pushFront none (some x)) hnd' (hL.pushFront hx)
      simpa using this
  have h0 : (⟨fun _ => none, fun _ => none⟩ : Links Node).IsRing none [] :=
    Links.isRing_nil rfl rfl
  have := key (List.finRange NBUF) [] ⟨fun _ => none, fun _ => none⟩
    (by simpa using List.nodup_finRange NBUF) h0
  simpa [binitLinks] using this

/-- A machine that has just been switched on stands for its disk. -/
theorem coh_powerOn (disk : ℕ → ℕ → Bytes) (hist : List (Ev Pid)) :
    Coh (powerOn disk hist) (fun _ _ => none) ⟨disk, fun _ _ => none⟩ where
  ring := ⟨_, ringOk_binit, List.reverse_perm _⟩
  unique := by
    rintro i j dev b ⟨hd, -⟩ - hdev
    exact absurd hd.symm hdev
  busy := by simp [powerOn, freshBuf]
  one := by simp
  carries := by simp
  loaded := by simp
  unsaved := by simp
  dirty := by simp [powerOn, freshBuf]
  holder := by simp
  data := by
    rintro i dev b ⟨hd, -⟩ hdev
    exact absurd hd.symm hdev
  disk := fun _ _ _ _ => rfl

/-! ## One buffer changes -/

variable [DecidableEq Pid]

/-- Process `p` now holds buffer `i` as `h` says. -/
def setHold (γ : HoldMap Pid) (p : Pid) (i : Slot) (h : Option Hold) : HoldMap Pid :=
  Function.update γ p (Function.update (γ p) i h)

section

variable {m m' : Machine Pid} {γ : HoldMap Pid} {st st' : Store Pid} {p : Pid} {i : Slot}
  {h : Option Hold} {b' : Buf} {x : Hold} {dev b : ℕ} {u : Unit} {q : Pid} {j : Slot}

theorem setHold_self : setHold γ p i h p i = h := by simp [setHold]

theorem setHold_of_ne (hne : q = p → j ≠ i) : setHold γ p i h q j = γ q j := by
  rcases eq_or_ne q p with rfl | hq
  · simp [setHold, hne rfl]
  · simp [setHold, hq]

/-- Who else holds buffer `i`, once `p` is known to be the only candidate. -/
theorem setHold_slot (hfree : ∀ q, q ≠ p → γ q i = none) : setHold γ p i h q i = some x ↔ q = p ∧ h = some x := by
  rcases eq_or_ne q p with rfl | hq
  · simp [setHold_self]
  · rw [setHold_of_ne fun e => absurd e hq, hfree q hq]
    simp [hq]

theorem setHold_slot_ne_none (hfree : ∀ q, q ≠ p → γ q i = none) :
    setHold γ p i h q i ≠ none ↔ q = p ∧ h ≠ none := by
  rw [Option.ne_none_iff_exists', Option.ne_none_iff_exists']
  simp only [setHold_slot hfree, exists_and_left]

omit [DecidableEq Pid] in
/-- A buffer that is not busy is held by nobody. -/
theorem Coh.free (hc : Coh m γ st) (hb : (m.buf i).busy = false) (q : Pid) : γ q i = none := by
  by_contra hq
  have := (hc.busy i).mpr ⟨q, hq⟩
  rw [hb] at this
  exact Bool.false_ne_true this

omit [DecidableEq Pid] in
/-- A buffer that `p` holds is held by nobody else. -/
theorem Coh.others (hc : Coh m γ st) (hp : γ p i = some x) (q : Pid) (hq : q ≠ p) : γ q i = none := by
  by_contra hn
  exact hq (hc.one i q p hn (by simp [hp]))

/-- A step that changes one buffer, which afterwards carries a block no other buffer carries.
Everything about the other blocks is as before; for the block of `i` the new flags, data, disk
contents and holder must fit. -/
theorem Coh.change (hc : Coh m γ st) (hring : RingOk m')
    (hbuf : m'.buf = update m.buf i b') (hlive : b'.dev ≠ NODEV)
    (hkey : ∀ j, j ≠ i → ¬Carries m j b'.dev b'.blockno)
    (hfree : ∀ q, q ≠ p → γ q i = none) (hbusy : b'.busy = true ↔ h ≠ none)
    (hcar : ∀ x, h = some x → x.dev = b'.dev ∧ x.b = b'.blockno)
    (hloaded : ∀ x, h = some x → x.phase ≠ .loading → b'.valid = true)
    (huns : ∀ x d, h = some x → x.phase = .unsaved d → b'.data = d)
    (hdv : b'.dirty = true → b'.valid = true)
    (hholder : ∀ q, st'.holder b'.dev b'.blockno = some q ↔ q = p ∧ h ≠ none)
    (hdata : b'.valid = true → (∀ x d, h = some x → x.phase ≠ .unsaved d) →
      b'.data = st'.content b'.dev b'.blockno)
    (hdisk : b'.dirty = false → m'.disk b'.dev b'.blockno = st'.content b'.dev b'.blockno)
    (hother : ∀ dev b, ¬(dev = b'.dev ∧ b = b'.blockno) →
      (∀ q, st'.holder dev b = some q ↔ st.holder dev b = some q ∧
        ¬Carries m i dev b) ∧
      st'.content dev b = st.content dev b ∧ m'.disk dev b = m.disk dev b ∧
      (Carries m i dev b → (m.buf i).dirty = false)) :
    Coh m' (setHold γ p i h) st' := by
  have hself : m'.buf i = b' := by rw [hbuf, update_self]
  have hne : ∀ j, j ≠ i → m'.buf j = m.buf j := fun j hj => by rw [hbuf, update_of_ne hj]
  have hcarNe : ∀ j dev b, j ≠ i → (Carries m' j dev b ↔ Carries m j dev b) := by
    intro j dev b hj
    rw [Carries, Carries, hne j hj]
  have hcarI : ∀ dev b, Carries m' i dev b ↔ dev = b'.dev ∧ b = b'.blockno := by
    intro dev b
    rw [Carries, hself, eq_comm, @eq_comm _ _ b]
  refine ⟨hring, ?_, ?_, ?_, ?_, ?_, ?_, ?_, ?_, ?_, ?_⟩
  · intro j k dev b hj hk hd
    by_cases hji : j = i <;> by_cases hki : k = i
    · rw [hji, hki]
    · subst hji
      obtain ⟨rfl, rfl⟩ := (hcarI dev b).mp hj
      exact absurd ((hcarNe k _ _ hki).mp hk) (hkey k hki)
    · subst hki
      obtain ⟨rfl, rfl⟩ := (hcarI dev b).mp hk
      exact absurd ((hcarNe j _ _ hji).mp hj) (hkey j hji)
    · exact hc.unique j k dev b ((hcarNe j dev b hji).mp hj) ((hcarNe k dev b hki).mp hk) hd
  · intro j
    rcases eq_or_ne j i with rfl | hj
    · simp only [hself, hbusy, setHold_slot_ne_none hfree, exists_eq_left]
    · simp only [hne j hj, setHold_of_ne fun _ => hj]
      exact hc.busy j
  · intro j q r hq hr
    rcases eq_or_ne j i with rfl | hj
    · rw [setHold_slot_ne_none hfree] at hq hr
      rw [hq.1, hr.1]
    · rw [setHold_of_ne fun _ => hj] at hq hr
      exact hc.one j q r hq hr
  · intro j q x hq
    rcases eq_or_ne j i with rfl | hj
    · obtain ⟨-, hx⟩ := (setHold_slot hfree).mp hq
      obtain ⟨h1, h2⟩ := hcar x hx
      exact ⟨(hcarI _ _).mpr ⟨h1, h2⟩, h1 ▸ hlive⟩
    · rw [setHold_of_ne fun _ => hj] at hq
      rw [hcarNe j _ _ hj]
      exact hc.carries j q x hq
  · intro j q x hq hx
    rcases eq_or_ne j i with rfl | hj
    · rw [hself]
      exact hloaded x ((setHold_slot hfree).mp hq).2 hx
    · rw [setHold_of_ne fun _ => hj] at hq
      rw [hne j hj]
      exact hc.loaded j q x hq hx
  · intro j q x d hq hx
    rcases eq_or_ne j i with rfl | hj
    · rw [hself]
      exact huns x d ((setHold_slot hfree).mp hq).2 hx
    · rw [setHold_of_ne fun _ => hj] at hq
      rw [hne j hj]
      exact hc.unsaved j q x d hq hx
  · intro j hj
    rcases eq_or_ne j i with rfl | hji
    · rw [hself] at hj ⊢
      exact hdv hj
    · rw [hne j hji] at hj ⊢
      exact hc.dirty j hj
  · intro dev b q
    by_cases hk : dev = b'.dev ∧ b = b'.blockno
    · obtain ⟨rfl, rfl⟩ := hk
      rw [hholder]
      constructor
      · rintro ⟨rfl, hne⟩
        obtain ⟨x, hx⟩ := Option.ne_none_iff_exists'.mp hne
        exact ⟨i, x, (setHold_slot hfree).mpr ⟨rfl, hx⟩, (hcar x hx).1, (hcar x hx).2⟩
      · rintro ⟨j, x, hq, hd, hb⟩
        rcases eq_or_ne j i with rfl | hji
        · obtain ⟨h1, h2⟩ := (setHold_slot hfree).mp hq
          exact ⟨h1, by simp [h2]⟩
        · rw [setHold_of_ne fun _ => hji] at hq
          have := (hc.carries j q x hq).1
          rw [hd, hb] at this
          exact absurd this (hkey j hji)
    · rw [(hother dev b hk).1, hc.holder]
      constructor
      · rintro ⟨⟨j, x, hq, hd, hb⟩, hni⟩
        have hji : j ≠ i := by
          rintro rfl
          have := (hc.carries j q x hq).1
          rw [hd, hb] at this
          exact hni this
        exact ⟨j, x, by rwa [setHold_of_ne fun _ => hji], hd, hb⟩
      · rintro ⟨j, x, hq, hd, hb⟩
        have hji : j ≠ i := by
          rintro rfl
          obtain ⟨h1, h2⟩ := hcar x ((setHold_slot hfree).mp hq).2
          exact hk ⟨hd ▸ h1, hb ▸ h2⟩
        rw [setHold_of_ne fun _ => hji] at hq
        refine ⟨⟨j, x, hq, hd, hb⟩, fun hci => hji ?_⟩
        have hcj := hc.carries j q x hq
        rw [hd, hb] at hcj
        exact hc.unique j i dev b hcj.1 hci hcj.2
  · intro j dev b hj hd hv hu
    rcases eq_or_ne j i with rfl | hji
    · obtain ⟨rfl, rfl⟩ := (hcarI dev b).mp hj
      rw [hself] at hv ⊢
      refine hdata hv fun x d hx => hu p x d ?_
      rw [setHold_self, hx]
    · have hcj := (hcarNe j dev b hji).mp hj
      have hk : ¬(dev = b'.dev ∧ b = b'.blockno) := by
        rintro ⟨rfl, rfl⟩
        exact hkey j hji hcj
      rw [(hother dev b hk).2.1, hne j hji]
      rw [hne j hji] at hv
      refine hc.data j dev b hcj hd hv fun q x d hq => hu q x d ?_
      rwa [setHold_of_ne fun _ => hji]
  · intro dev b hd hdirty
    by_cases hk : dev = b'.dev ∧ b = b'.blockno
    · obtain ⟨rfl, rfl⟩ := hk
      refine hdisk ?_
      have := hdirty i ((hcarI _ _).mpr ⟨rfl, rfl⟩)
      rwa [hself] at this
    · obtain ⟨-, h2, h3, h4⟩ := hother dev b hk
      rw [h2, h3]
      refine hc.disk dev b hd fun j hj => ?_
      rcases eq_or_ne j i with rfl | hji
      · exact h4 hj
      · have := hdirty j ((hcarNe j dev b hji).mpr hj)
        rwa [hne j hji] at this

/-! ## The steps of the cache

What the rest of the development sees of a machine is its `View`: the store it stands for, the
disk, the blocks whose buffers are dirty, the log and the history. -/

/-- A machine without its buffers and their list. -/
structure View (Pid : Type) where
  st : Store Pid
  disk : ℕ → ℕ → Bytes
  dirty : ℕ → ℕ → Prop
  log : Log
  up : Bool
  hist : List (Ev Pid)

/-- Block `b` of `dev` has a dirty buffer. -/
def DirtyBlock (m : Machine Pid) (dev b : ℕ) : Prop :=
  ∃ i, Carries m i dev b ∧ (m.buf i).dirty = true

/-- The view of a machine that stands for `st`. -/
def view (m : Machine Pid) (st : Store Pid) : View Pid :=
  { st
    disk := m.disk
    dirty := DirtyBlock m
    log := m.log
    up := m.up
    hist := m.hist }

namespace View

def took (V : View Pid) (p : Pid) (dev b : ℕ) : View Pid :=
  { V with st := V.st.setHolder dev b (some p), hist := .took p dev b :: V.hist }

def got (V : View Pid) (p : Pid) (dev b : ℕ) : View Pid :=
  { V with hist := .got p dev b (V.st.content dev b) :: V.hist }

def stored (V : View Pid) (p : Pid) (dev b : ℕ) (d : Bytes) : View Pid :=
  { V with
    st := V.st.put dev b d
    disk := Function.update V.disk dev (Function.update (V.disk dev) b d)
    dirty := fun dev' b' => V.dirty dev' b' ∧ ¬(dev' = dev ∧ b' = b)
    hist := .stored p dev b d :: V.hist }

def logged (V : View Pid) (p : Pid) (op dev b : ℕ) (d : Bytes) : View Pid :=
  { V with
    st := V.st.put dev b d
    dirty := fun dev' b' => V.dirty dev' b' ∨ (dev' = dev ∧ b' = b)
    log := { V.log with lh := if b ∈ V.log.lh then V.log.lh else V.log.lh ++ [b] }
    hist := .logged p op dev b d :: V.hist }

def released (V : View Pid) (p : Pid) (dev b : ℕ) : View Pid :=
  { V with st := V.st.setHolder dev b none, hist := .released p dev b :: V.hist }

end View

section

omit [DecidableEq Pid]

/-- What `bget` can do when it succeeds: hand out the cached buffer, or recycle a clean one. -/
theorem bgetStep_ok (hr : RingOk m) (hok : bgetStep p dev b m = .ok i m') :
    (Carries m i dev b ∧ (m.buf i).busy = false ∧
      m' = (m.setBuf i { m.buf i with busy := true }).note (.took p dev b)) ∨
    ((∀ j, ¬Carries m j dev b) ∧ (m.buf i).busy = false ∧ (m.buf i).dirty = false ∧
      m' = (m.setBuf i { m.buf i with
        dev := dev, blockno := b, busy := true, valid := false, dirty := false }).note
          (.took p dev b)) := by
  simp only [bgetStep] at hok
  split at hok
  next j hj =>
    have hcar : Carries m j dev b := by simpa [Carries] using List.find?_some hj
    split at hok
    · simp at hok
    next hb =>
      obtain ⟨rfl, rfl⟩ := Outcome.ok.inj hok
      exact Or.inl ⟨hcar, by simpa using hb, rfl⟩
  next hnone =>
    have hnc : ∀ j, ¬Carries m j dev b := by
      intro j hj
      have := List.find?_eq_none.mp hnone j (hr.mem_forward j)
      exact this (by simpa [Carries] using hj)
    split at hok
    next j hj =>
      obtain ⟨rfl, rfl⟩ := Outcome.ok.inj hok
      have hfree := List.find?_some hj
      simp only [Bool.not_eq_true, Bool.decide_and, Bool.and_eq_true, decide_eq_true_eq] at hfree
      exact Or.inr ⟨hnc, hfree.1, hfree.2, rfl⟩
    · simp at hok

/-- The dirty blocks after a change of one buffer. -/
theorem dirtyBlock_update (hbuf : m'.buf = update m.buf i b') (dev b : ℕ) :
    DirtyBlock m' dev b ↔ (b'.dev = dev ∧ b'.blockno = b ∧ b'.dirty = true) ∨
      ∃ j, j ≠ i ∧ Carries m j dev b ∧ (m.buf j).dirty = true := by
  constructor
  · rintro ⟨j, ⟨h1, h2⟩, h3⟩
    rcases eq_or_ne j i with rfl | hj
    · rw [hbuf, update_self] at h1 h2 h3
      exact Or.inl ⟨h1, h2, h3⟩
    · rw [hbuf, update_of_ne hj] at h1 h2 h3
      exact Or.inr ⟨j, hj, ⟨h1, h2⟩, h3⟩
  · rintro (⟨h1, h2, h3⟩ | ⟨j, hj, ⟨h1, h2⟩, h3⟩)
    · exact ⟨i, by simp [Carries, hbuf, h1, h2], by simp [hbuf, h3]⟩
    · exact ⟨j, by simp [Carries, hbuf, hj, h1, h2], by simp [hbuf, hj, h3]⟩

/-- A change of one buffer that neither moves nor cleans nor dirties a dirty buffer leaves the
dirty blocks as they are. -/
theorem dirtyBlock_same (hbuf : m'.buf = update m.buf i b')
    (hd : b'.dirty = (m.buf i).dirty) (hkey : b'.dirty = true → Carries m i b'.dev b'.blockno) :
    DirtyBlock m' = DirtyBlock m := by
  funext dev b
  refine propext ((dirtyBlock_update hbuf dev b).trans ?_)
  constructor
  · rintro (⟨h1, h2, h3⟩ | ⟨j, -, hj, h3⟩)
    · exact ⟨i, by rw [← h1, ← h2]; exact hkey h3, hd ▸ h3⟩
    · exact ⟨j, hj, h3⟩
  · rintro ⟨j, hj, h3⟩
    rcases eq_or_ne j i with rfl | hji
    · obtain ⟨h1, h2⟩ := hkey (hd ▸ h3)
      exact Or.inl ⟨h1 ▸ hj.1, h2 ▸ hj.2, hd ▸ h3⟩
    · exact Or.inr ⟨j, hji, hj, h3⟩

/-- Nobody holds a block whose buffer is not busy. -/
theorem Coh.holder_free (hc : Coh m γ st) (hci : Carries m i dev b)
    (hb : (m.buf i).busy = false) : st.holder dev b = none := by
  by_contra hne
  obtain ⟨q, hq⟩ := Option.ne_none_iff_exists'.mp hne
  obtain ⟨j, x, hx, rfl, rfl⟩ := (hc.holder _ _ _).mp hq
  obtain ⟨hcj, hlive⟩ := hc.carries j q x hx
  rw [hc.unique j i _ _ hcj hci hlive, hc.free hb q] at hx
  simp at hx

/-- Nobody holds a block that is not cached. -/
theorem Coh.holder_uncached (hc : Coh m γ st) (hnc : ∀ j, ¬Carries m j dev b) : st.holder dev b = none := by
  by_contra hne
  obtain ⟨q, hq⟩ := Option.ne_none_iff_exists'.mp hne
  obtain ⟨j, x, hx, rfl, rfl⟩ := (hc.holder _ _ _).mp hq
  exact hnc j (hc.carries j q x hx).1

end

/-- `bget` makes the caller the holder of a block that was free. -/
theorem Coh.bget (hc : Coh m γ st) (hdev : dev ≠ NODEV)
    (hok : bgetStep p dev b m = .ok i m') :
    γ p i = none ∧ st.holder dev b = none ∧
      Coh m' (setHold γ p i (some ⟨dev, b, .loading⟩)) (st.setHolder dev b (some p)) ∧
      view m' (st.setHolder dev b (some p)) = (view m st).took p dev b := by
  have hholder : ∀ q, (st.setHolder dev b (some p)).holder dev b = some q ↔
      q = p ∧ some (⟨dev, b, .loading⟩ : Hold) ≠ none := by
    intro q
    rw [Store.setHolder_holder_self]
    simp [eq_comm]
  have hsame : ∀ d c, ¬(d = dev ∧ c = b) →
      (st.setHolder dev b (some p)).holder d c = st.holder d c := by
    intro d c hk
    exact Store.setHolder_holder_of_ne fun hd hcb => hk ⟨hd, hcb⟩
  rcases bgetStep_ok hc.ring hok with ⟨⟨hd, hb⟩, hbusy, rfl⟩ | ⟨hnc, hbusy, hdirty, rfl⟩
  · refine ⟨hc.free hbusy p, hc.holder_free ⟨hd, hb⟩ hbusy, ?_, ?_⟩
    · refine hc.change hc.ring rfl (hd ▸ hdev) ?_ (fun q _ => hc.free hbusy q) (by simp)
        (by simp [hd, hb]) (by simp) (by rintro x d ⟨⟩ ⟨⟩) (hc.dirty i) ?_ ?_ ?_ ?_
      · intro j hj hcj
        exact hj (hc.unique j i _ _ hcj ⟨rfl, rfl⟩ (hd ▸ hdev))
      · rw [hd, hb]
        exact hholder
      · intro hv _
        exact hc.data i _ _ ⟨rfl, rfl⟩ (hd ▸ hdev) hv fun q => by simp [hc.free hbusy q]
      · intro hdirty
        refine hc.disk _ _ (hd ▸ hdev) fun j hj => ?_
        rwa [hc.unique j i _ _ hj ⟨rfl, rfl⟩ (hd ▸ hdev)]
      · intro d c hk
        have hni : ¬Carries m i d c := fun hci => hk ⟨hci.1.symm, hci.2.symm⟩
        refine ⟨fun q => ?_, rfl, rfl, fun hci => absurd hci hni⟩
        rw [hsame d c (by rwa [hd, hb] at hk)]
        simp [hni]
    · simp only [view, View.took, Machine.note, Machine.setBuf, View.mk.injEq, true_and, and_true]
      exact dirtyBlock_same rfl rfl (fun _ => ⟨rfl, rfl⟩)
  · refine ⟨hc.free hbusy p, hc.holder_uncached hnc, ?_, ?_⟩
    · refine hc.change hc.ring rfl hdev (fun j _ => hnc j) (fun q _ => hc.free hbusy q) (by simp)
        (by simp) (by simp) (by rintro x d ⟨⟩ ⟨⟩) (by simp) hholder (by simp) ?_ ?_
      · intro _
        exact hc.disk dev b hdev fun j hj => absurd hj (hnc j)
      · intro d c hk
        refine ⟨fun q => ?_, rfl, rfl, fun _ => hdirty⟩
        rw [hsame d c hk]
        refine (and_iff_left_of_imp fun hq hci => ?_).symm
        rw [hc.holder_free hci hbusy] at hq
        simp at hq
    · simp only [view, View.took, Machine.note, Machine.setBuf, View.mk.injEq, true_and, and_true]
      exact dirtyBlock_same rfl hdirty.symm (by simp)

section

omit [DecidableEq Pid]

/-- What `iderw` can do when it succeeds: write a dirty buffer, or read into an invalid one. -/
theorem iderw_ok (hok : iderw i m = .ok u m') :
    (m.buf i).blockno < FSSIZE ∧
    (((m.buf i).dirty = true ∧ m' = (m.setBuf i { m.buf i with dirty := false, valid := true }).setDisk
        (m.buf i).dev (m.buf i).blockno (m.buf i).data) ∨
      ((m.buf i).dirty = false ∧ (m.buf i).valid = false ∧
        m' = m.setBuf i { m.buf i with
          data := m.disk (m.buf i).dev (m.buf i).blockno, valid := true })) := by
  simp only [iderw] at hok
  split at hok
  · simp at hok
  split at hok
  · simp at hok
  next hv =>
    split at hok
    · simp at hok
    next hb =>
      refine ⟨by omega, ?_⟩
      split at hok
      next hd =>
        exact Or.inl ⟨hd, (Outcome.ok.inj hok).2.symm⟩
      next hd =>
        refine Or.inr ⟨by simpa using hd, ?_, (Outcome.ok.inj hok).2.symm⟩
        simp only [not_and, not_not] at hv
        by_contra hc
        exact hd (hv (by simpa using hc))

/-- What the end of `bread` can do: nothing but record the data of a valid buffer, or read the block
first. -/
theorem bfill_ok (hok : bfill p i m = .ok j m') :
    j = i ∧ (((m.buf i).valid = true ∧
        m' = m.note (.got p (m.buf i).dev (m.buf i).blockno (m.buf i).data)) ∨
      ((m.buf i).valid = false ∧ ∃ m₁, iderw i m = .ok () m₁ ∧
        m' = m₁.note (.got p (m₁.buf i).dev (m₁.buf i).blockno (m₁.buf i).data))) := by
  simp only [bfill] at hok
  split at hok
  next hv =>
    obtain ⟨rfl, rfl⟩ := Outcome.ok.inj hok
    exact ⟨rfl, Or.inl ⟨hv, rfl⟩⟩
  next hv =>
    split at hok
    · simp at hok
    · simp at hok
    next u m₁ hid =>
      obtain ⟨rfl, rfl⟩ := Outcome.ok.inj hok
      exact ⟨rfl, Or.inr ⟨by simpa using hv, m₁, hid, rfl⟩⟩

/-- The holder of a block is the process that holds its buffer. -/
theorem Coh.holder_held (hc : Coh m γ st) (hi : γ p i = some x) : st.holder x.dev x.b = some p :=
  (hc.holder _ _ _).mpr ⟨i, x, hi, rfl, rfl⟩

end

/-- A step that keeps the block of a buffer `p` holds. -/
theorem Coh.hold (hc : Coh m γ st) (hi : γ p i = some x) (hring : RingOk m')
    (hbuf : m'.buf = update m.buf i b') (hdev : b'.dev = x.dev) (hblk : b'.blockno = x.b)
    (hbusy : b'.busy = true ↔ h ≠ none) (hcar : ∀ y, h = some y → y.dev = x.dev ∧ y.b = x.b)
    (hvalid : b'.valid = true) (huns : ∀ y d, h = some y → y.phase = .unsaved d → b'.data = d)
    (hholder : ∀ q, st'.holder x.dev x.b = some q ↔ q = p ∧ h ≠ none)
    (hdata : (∀ y d, h = some y → y.phase ≠ .unsaved d) → b'.data = st'.content x.dev x.b)
    (hdisk : b'.dirty = false → m'.disk x.dev x.b = st'.content x.dev x.b)
    (hother : ∀ dev b, ¬(dev = x.dev ∧ b = x.b) → st'.holder dev b = st.holder dev b ∧
      st'.content dev b = st.content dev b ∧ m'.disk dev b = m.disk dev b) :
    Coh m' (setHold γ p i h) st' := by
  obtain ⟨hci, hlive⟩ := hc.carries i p x hi
  refine hc.change hring hbuf (hdev ▸ hlive) ?_ (hc.others hi) hbusy ?_ (fun _ _ _ => hvalid) huns
    (fun _ => hvalid) ?_ ?_ ?_ ?_
  · intro j hj hcj
    rw [hdev, hblk] at hcj
    exact hj (hc.unique j i _ _ hcj hci hlive)
  · rw [hdev, hblk]
    exact hcar
  · rw [hdev, hblk]
    exact hholder
  · rw [hdev, hblk]
    exact fun _ => hdata
  · rw [hdev, hblk]
    exact hdisk
  · rw [hdev, hblk]
    intro dev b hk
    have hni : ¬Carries m i dev b := by
      rintro ⟨h1, h2⟩
      exact hk ⟨h1.symm.trans hci.1, h2.symm.trans hci.2⟩
    obtain ⟨h1, h2, h3⟩ := hother dev b hk
    exact ⟨fun q => by simp [h1, hni], h2, h3, fun hci => absurd hci hni⟩

omit [DecidableEq Pid] in
/-- The store knows who holds a block; a step that keeps the holder keeps that. -/
theorem Coh.holder_keep (hc : Coh m γ st) (hi : γ p i = some x) {y : Hold} (q : Pid) :
    st.holder x.dev x.b = some q ↔ q = p ∧ some y ≠ none := by
  rw [hc.holder_held hi]
  simp [eq_comm]

/-- The end of `bread`: the caller sees the contents of the block. -/
theorem Coh.bfill (hc : Coh m γ st)
    (hi : γ p i = some ⟨dev, b, .loading⟩) (hok : bfill p i m = .ok j m') :
    j = i ∧ Coh m' (setHold γ p i (some ⟨dev, b, .clean⟩)) st ∧
      view m' st = (view m st).got p dev b := by
  obtain ⟨rfl, hcase⟩ := bfill_ok hok
  obtain ⟨hci, hlive⟩ := hc.carries j p _ hi
  obtain ⟨h1, h2⟩ := hci
  have hbusy : (m.buf j).busy = true := (hc.busy j).mpr ⟨p, by simp [hi]⟩
  have hnu : ∀ q x d, γ q j = some x → x.phase ≠ .unsaved d := by
    intro q x d hq
    obtain rfl := hc.one j q p (by simp [hq]) (by simp [hi])
    rw [hi] at hq
    simp [← Option.some.inj hq]
  refine ⟨rfl, ?_⟩
  rcases hcase with ⟨hv, rfl⟩ | ⟨hv, m₁, hid, rfl⟩
  · have hdata : (m.buf j).data = st.content dev b := hc.data j _ _ ⟨h1, h2⟩ hlive hv hnu
    refine ⟨?_, ?_⟩
    · have hupd : m.buf = update m.buf j (m.buf j) := by simp
      refine hc.hold hi hc.ring hupd h1 h2 (by simp [hbusy]) (by simp) hv (by rintro y d ⟨⟩ ⟨⟩)
        (hc.holder_keep hi) (fun _ => hdata) ?_ (fun d c _ => ⟨rfl, rfl, rfl⟩)
      intro hd
      refine hc.disk _ _ hlive fun k hk => ?_
      rwa [hc.unique k j _ _ hk ⟨h1, h2⟩ hlive]
    · simp only [view, View.got, Machine.note, h1, h2, hdata]
      rfl
  · obtain ⟨-, ⟨hd, rfl⟩ | ⟨hd, -, rfl⟩⟩ := iderw_ok hid
    · rw [hc.dirty j hd] at hv
      simp at hv
    · have hdata : m.disk dev b = st.content dev b := by
        refine hc.disk _ _ hlive fun k hk => ?_
        rwa [hc.unique k j _ _ hk ⟨h1, h2⟩ hlive]
      refine ⟨?_, ?_⟩
      · refine hc.hold hi hc.ring rfl h1 h2 (by simp [hbusy])
          (by simp) rfl (by rintro y d ⟨⟩ ⟨⟩) (hc.holder_keep hi) ?_ (fun _ => hdata)
          (fun d c _ => ⟨rfl, rfl, rfl⟩)
        intro _
        simpa [h1, h2] using hdata
      · simp only [view, View.got, Machine.note, Machine.setBuf, update_self, h1, h2,
          View.mk.injEq, true_and, hdata, and_true]
        exact dirtyBlock_same rfl rfl (fun _ => ⟨h1, h2⟩)

/-- An in-place change by the holder of the buffer. -/
theorem Coh.setData (hc : Coh m γ st) (hi : γ p i = some x) (hph : x.phase ≠ .loading)
    (d : Bytes) :
    Coh (m.setBuf i { m.buf i with data := d })
        (setHold γ p i (some ⟨x.dev, x.b, .unsaved d⟩)) st ∧
      view (m.setBuf i { m.buf i with data := d }) st = view m st := by
  obtain ⟨⟨h1, h2⟩, hlive⟩ := hc.carries i p _ hi
  have hbusy : (m.buf i).busy = true := (hc.busy i).mpr ⟨p, by simp [hi]⟩
  refine ⟨?_, ?_⟩
  · refine hc.hold hi hc.ring rfl h1 h2 (by simp [hbusy]) (by simp)
      (hc.loaded i p x hi hph) (by rintro y e ⟨⟩ ⟨⟩; rfl) (hc.holder_keep hi) ?_ ?_
      (fun _ _ _ => ⟨rfl, rfl, rfl⟩)
    · intro hu
      exact absurd rfl (hu _ d rfl)
    · intro hd
      refine hc.disk _ _ hlive fun k hk => ?_
      rwa [hc.unique k i _ _ hk ⟨h1, h2⟩ hlive]
  · simp only [view, View.mk.injEq, true_and]
    exact ⟨rfl, dirtyBlock_same rfl rfl (fun _ => ⟨rfl, rfl⟩), rfl, rfl, rfl⟩

omit [DecidableEq Pid] in
/-- What a loaded buffer contains: the unsaved changes of its holder or what the store has. -/
theorem Coh.data_held (hc : Coh m γ st) (hi : γ p i = some x)
    (hph : x.phase ≠ .loading) :
    x.phase = .unsaved (m.buf i).data ∨
      x.phase = .clean ∧ (m.buf i).data = st.content x.dev x.b := by
  obtain ⟨hci, hlive⟩ := hc.carries i p _ hi
  cases hx : x.phase with
  | loading => exact absurd hx hph
  | unsaved d => exact Or.inl (by rw [hc.unsaved i p x d hi hx])
  | clean =>
    refine Or.inr ⟨rfl, hc.data i _ _ hci hlive (hc.loaded i p x hi hph) ?_⟩
    intro q y d hq
    obtain rfl := hc.one i q p (by simp [hq]) (by simp [hi])
    rw [hi] at hq
    rw [← Option.some.inj hq, hx]
    simp

omit [DecidableEq Pid] in
/-- What `bwrite` does when it succeeds. -/
theorem bwriteStep_ok (hok : bwriteStep p i m = .ok u m') :
    (m.buf i).blockno < FSSIZE ∧
      m' = ((m.setBuf i { m.buf i with dirty := false, valid := true }).setDisk (m.buf i).dev
        (m.buf i).blockno (m.buf i).data).note
          (.stored p (m.buf i).dev (m.buf i).blockno (m.buf i).data) := by
  simp only [bwriteStep] at hok
  split at hok
  · simp at hok
  split at hok
  · simp at hok
  · simp at hok
  next v m₁ hid =>
    obtain ⟨-, rfl⟩ := Outcome.ok.inj hok
    obtain ⟨hlt, ⟨-, rfl⟩ | ⟨hd, -⟩⟩ := iderw_ok hid
    · simp only [Machine.setBuf, update_self] at hlt
      exact ⟨hlt, by simp [Machine.setBuf, Machine.setDisk]⟩
    · simp [Machine.setBuf] at hd

/-- `bwrite` by the holder stores the buffer's data in the block and on the disk. -/
theorem Coh.bwrite (hc : Coh m γ st) (hi : γ p i = some x)
    (hok : bwriteStep p i m = .ok u m') :
    Coh m' (setHold γ p i (some ⟨x.dev, x.b, .clean⟩)) (st.put x.dev x.b (m.buf i).data) ∧
      view m' (st.put x.dev x.b (m.buf i).data) =
        (view m st).stored p x.dev x.b (m.buf i).data := by
  obtain ⟨⟨h1, h2⟩, hlive⟩ := hc.carries i p _ hi
  have hbusy : (m.buf i).busy = true := (hc.busy i).mpr ⟨p, by simp [hi]⟩
  obtain ⟨-, rfl⟩ := bwriteStep_ok hok
  refine ⟨?_, ?_⟩
  · refine hc.hold hi hc.ring rfl h1 h2 (by simp [hbusy]) (by simp) rfl
      (by rintro y e ⟨⟩ ⟨⟩) (hc.holder_keep hi) ?_ ?_ ?_
    · intro _
      rw [Store.put_content_self]
    · intro _
      rw [Store.put_content_self]
      simp [Machine.note, Machine.setDisk, h1, h2]
    · intro d c hk
      refine ⟨rfl, Store.put_content_of_ne fun hd hcb => hk ⟨hd, hcb⟩, ?_⟩
      simp only [Machine.note, Machine.setDisk, Machine.setBuf, h1, h2]
      by_cases hd : d = x.dev
      · subst hd
        have hcb : c ≠ x.b := fun hcb => hk ⟨rfl, hcb⟩
        simp [hcb]
      · simp [hd]
  · simp only [view, View.stored, Machine.note, Machine.setDisk, Machine.setBuf, h1, h2,
      View.mk.injEq, true_and, and_true]
    funext d c
    refine propext ((dirtyBlock_update rfl d c).trans ?_)
    simp only [Bool.false_eq_true, and_false, false_or]
    constructor
    · rintro ⟨j, hj, hcj, hdj⟩
      refine ⟨⟨j, hcj, hdj⟩, ?_⟩
      rintro ⟨rfl, rfl⟩
      exact hj (hc.unique j i _ _ hcj ⟨h1, h2⟩ hlive)
    · rintro ⟨⟨j, hcj, hdj⟩, hk⟩
      refine ⟨j, ?_, hcj, hdj⟩
      rintro rfl
      exact hk ⟨hcj.1.symm.trans h1, hcj.2.symm.trans h2⟩

omit [DecidableEq Pid] in
/-- What the locked part of `log_write` does when it succeeds. -/
theorem logWriteStep_ok {op : ℕ} (hok : logWriteStep p op i m = .ok u m') :
    m' = ((m.setLh (if (m.buf i).blockno ∈ m.log.lh then m.log.lh
        else m.log.lh ++ [(m.buf i).blockno])).setBuf i { m.buf i with dirty := true }).note
          (.logged p op (m.buf i).dev (m.buf i).blockno (m.buf i).data) := by
  simp only [logWriteStep] at hok
  split at hok
  next hmem =>
    obtain ⟨-, rfl⟩ := Outcome.ok.inj hok
    simp [hmem, Machine.setLh]
  next hmem =>
    split at hok
    · obtain ⟨-, rfl⟩ := Outcome.ok.inj hok
      simp [hmem]
    · simp at hok

/-- `log_write` by the holder stores the buffer's data in the block and pins the buffer. -/
theorem Coh.logWrite (hc : Coh m γ st) {op : ℕ} (hi : γ p i = some x)
    (hph : x.phase ≠ .loading) (hok : logWriteStep p op i m = .ok u m') :
    Coh m' (setHold γ p i (some ⟨x.dev, x.b, .clean⟩)) (st.put x.dev x.b (m.buf i).data) ∧
      view m' (st.put x.dev x.b (m.buf i).data) =
        (view m st).logged p op x.dev x.b (m.buf i).data := by
  obtain ⟨⟨h1, h2⟩, hlive⟩ := hc.carries i p _ hi
  have hbusy : (m.buf i).busy = true := (hc.busy i).mpr ⟨p, by simp [hi]⟩
  obtain rfl := logWriteStep_ok hok
  refine ⟨?_, ?_⟩
  · refine hc.hold hi hc.ring rfl h1 h2 (by simp [hbusy]) (by simp) (hc.loaded i p x hi hph)
      (by rintro y e ⟨⟩ ⟨⟩) (hc.holder_keep hi) ?_ (by simp) ?_
    · intro _
      rw [Store.put_content_self]
    · intro d c hk
      exact ⟨rfl, Store.put_content_of_ne fun hd hcb => hk ⟨hd, hcb⟩, rfl⟩
  · simp only [view, View.logged, Machine.note, Machine.setLh, Machine.setBuf, h1, h2,
      View.mk.injEq, true_and, and_true]
    refine ⟨?_, rfl⟩
    funext d c
    refine propext ((dirtyBlock_update rfl d c).trans ?_)
    constructor
    · rintro (⟨rfl, rfl, -⟩ | ⟨j, -, hcj, hdj⟩)
      · exact Or.inr ⟨rfl, rfl⟩
      · exact Or.inl ⟨j, hcj, hdj⟩
    · rintro (⟨j, hcj, hdj⟩ | ⟨rfl, rfl⟩)
      · rcases eq_or_ne j i with rfl | hji
        · exact Or.inl ⟨h1.symm.trans hcj.1, h2.symm.trans hcj.2, rfl⟩
        · exact Or.inr ⟨j, hji, hcj, hdj⟩
      · exact Or.inl ⟨rfl, rfl, rfl⟩

omit [DecidableEq Pid] in
/-- Moving a buffer to the front keeps the ring. -/
theorem RingOk.brelse (hr : RingOk m)
    (hl : m'.links = (m.links.unlink (some i)).pushFront none (some i)) : RingOk m' := by
  obtain ⟨l, hring, hperm⟩ := hr
  have hnd : l.Nodup := hperm.nodup_iff.mpr (List.nodup_finRange NBUF)
  obtain ⟨xs, ys, rfl⟩ := List.append_of_mem (hperm.mem_iff.mpr (List.mem_finRange i))
  rw [List.map_append, List.map_cons] at hring
  have hi : i ∉ xs ++ ys := (List.nodup_cons.mp (List.perm_middle.nodup_iff.mp hnd)).1
  refine ⟨i :: (xs ++ ys), ?_, List.perm_middle.symm.trans hperm⟩
  rw [hl, List.map_cons, List.map_append]
  refine hring.unlink.pushFront ?_
  simpa using hi

/-- `brelse` by the holder of a saved buffer gives the block back. -/
theorem Coh.brelse (hc : Coh m γ st) (hi : γ p i = some ⟨dev, b, .clean⟩)
    (hok : brelseStep p i m = .ok u m') :
    Coh m' (setHold γ p i none) (st.setHolder dev b none) ∧
      view m' (st.setHolder dev b none) = (view m st).released p dev b := by
  obtain ⟨⟨h1, h2⟩, hlive⟩ := hc.carries i p _ hi
  simp only [brelseStep] at hok
  split at hok
  · simp at hok
  obtain ⟨-, rfl⟩ := Outcome.ok.inj hok
  have hnu : ∀ q x d, γ q i = some x → x.phase ≠ .unsaved d := by
    intro q x d hq
    obtain rfl := hc.one i q p (by simp [hq]) (by simp [hi])
    rw [hi] at hq
    simp [← Option.some.inj hq]
  refine ⟨?_, ?_⟩
  · refine hc.hold hi (hc.ring.brelse rfl) rfl h1 h2 (by simp) (by simp)
      (hc.loaded i p _ hi (by simp)) (by simp) ?_ ?_ ?_ ?_
    · intro q
      rw [Store.setHolder_holder_self]
      simp
    · intro _
      exact hc.data i _ _ ⟨h1, h2⟩ hlive (hc.loaded i p _ hi (by simp)) hnu
    · intro hd
      refine hc.disk _ _ hlive fun k hk => ?_
      rwa [hc.unique k i _ _ hk ⟨h1, h2⟩ hlive]
    · intro d c hk
      exact ⟨Store.setHolder_holder_of_ne fun hd hcb => hk ⟨hd, hcb⟩, rfl, rfl⟩
  · simp only [view, View.released, Machine.note, Machine.setBuf, h1, h2, View.mk.injEq, true_and,
      and_true]
    exact dirtyBlock_same rfl rfl (fun _ => ⟨h1, h2⟩)

end

end Xv6.Bio
