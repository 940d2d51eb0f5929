import Mathlib.Algebra.Order.Group.Nat
import Xv6.Lib.Exec

/-!
# The configuration table of the processors

`mpinit` reads the table that the firmware leaves. It trusts the entries: their types drive the loop, and
their number is the index into `cpus`. An access outside of the table or of `cpus` is a fault of the model.
-/

namespace Xv6.Mp

open Lib

/-- `sizeof(struct mpconf)`. -/
abbrev MPCONF : ℕ := 44

/-- Table entry types. -/
abbrev MPPROC : UInt8 := 0

abbrev MPBUS : UInt8 := 1

abbrev MPIOAPIC : UInt8 := 2

abbrev MPIOINTR : UInt8 := 3

abbrev MPLINTR : UInt8 := 4

/-- This processor is the bootstrap processor. -/
abbrev MPBOOT : UInt8 := 2

/-- Maximum number of processors. -/
abbrev NCPU : ℕ := 8

/-- The variables of `mp.c`; `bcpu` is the index of the boot processor, and `imcr` says that external
interrupts are masked. -/
structure Vars where
  cpus : ℕ → ℕ := fun _ => 0
  bcpu : ℕ := 0
  ismp : Bool := false
  ncpu : ℕ := 0
  ioapicid : UInt8 := 0
  lapic : ℕ := 0
  imcr : Bool := false

inductive Fault where
  /-- a read outside of the table -/
  | table
  /-- a write outside of `cpus` -/
  | cpus
  /-- the loop has not ended after this many rounds -/
  | loop

abbrev MP := Exec Vars Fault

/-- The memory from the table's header on. -/
abbrev Conf := ℕ → UInt8

/-- `conf->length`. -/
def Conf.length (conf : Conf) : ℕ := (conf 4).toNat + 256 * (conf 5).toNat

/-- `sum`, an `unsigned char`. -/
def sum (addr : ℕ → UInt8) (len : ℕ) : UInt8 := (List.range len).foldl (fun s i => s + addr i) 0

/-- The tests of `mpconfig`: the signature, the version and the checksum. -/
def mpconfig (conf : Conf) : Bool :=
  conf 0 = 80 ∧ conf 1 = 67 ∧ conf 2 = 77 ∧ conf 3 = 80 ∧ (conf 6 = 1 ∨ conf 6 = 4) ∧ sum conf conf.length = 0

/-- Read a byte of the table. -/
def byte (conf : Conf) (p : ℕ) : MP UInt8 := if p < conf.length then pure (conf p) else throw .table

/-- Read an `unsigned int` of the table. -/
def uint (conf : Conf) (p : ℕ) : MP ℕ := do
  let b₀ ← byte conf p
  let b₁ ← byte conf (p + 1)
  let b₂ ← byte conf (p + 2)
  let b₃ ← byte conf (p + 3)
  pure (b₀.toNat + 2 ^ 8 * b₁.toNat + 2 ^ 16 * b₂.toNat + 2 ^ 24 * b₃.toNat)

/-- The case `MPPROC`. -/
def mpproc (conf : Conf) (p : ℕ) : MP PUnit := do
  let apicid ← byte conf (p + 1)
  if (← get).ncpu ≠ apicid.toNat then modify fun s => { s with ismp := false }
  let flags ← byte conf (p + 3)
  if flags &&& MPBOOT ≠ 0 then modify fun s => { s with bcpu := s.ncpu }
  let s ← get
  if s.ncpu < NCPU then set { s with cpus := Function.update s.cpus s.ncpu s.ncpu, ncpu := s.ncpu + 1 }
  else throw .cpus

/-- The case `MPIOAPIC`. -/
def mpioapic (conf : Conf) (p : ℕ) : MP PUnit := do
  let apicno ← byte conf (p + 1)
  modify fun s => { s with ioapicid := apicno }

/-- The loop of `mpinit`. An entry of an unknown type does not move `p`. -/
def scan (conf : Conf) : ℕ → ℕ → MP PUnit
  | 0, _ => throw .loop
  | fuel + 1, p =>
    if p < conf.length then do
      let type ← byte conf p
      if type = MPPROC then do
        mpproc conf p
        scan conf fuel (p + 20)
      else if type = MPIOAPIC then do
        mpioapic conf p
        scan conf fuel (p + 8)
      else if type = MPBUS ∨ type = MPIOINTR ∨ type = MPLINTR then scan conf fuel (p + 8)
      else do
        modify fun s => { s with ismp := false }
        scan conf fuel p
    else pure ⟨⟩

/-- `mpinit`, with the byte `mp->imcrp` of the floating pointer. -/
def mpinit (conf : Conf) (imcrp : UInt8) (fuel : ℕ) : MP PUnit := do
  modify fun s => { s with bcpu := 0 }
  if mpconfig conf then
    let lapicaddr ← uint conf 36
    modify fun s => { s with ismp := true, lapic := lapicaddr }
    scan conf fuel MPCONF
    if !(← get).ismp then modify fun s => { s with ncpu := 1, lapic := 0, ioapicid := 0 }
    else if imcrp ≠ 0 then modify fun s => { s with imcr := true }

/-! ## Tables that `mpinit` can read -/

/-- From `p` on the table has entries of known types, `n` of them processors. Of the last entry only the
bytes that `mpinit` reads need be there. -/
inductive Entries (conf : Conf) : ℕ → ℕ → Prop where
  | done {p : ℕ} (hp : conf.length ≤ p) : Entries conf p 0
  | proc {p n : ℕ} (hp : p + 3 < conf.length) (htype : conf p = MPPROC) (hrest : Entries conf (p + 20) n) :
      Entries conf p (n + 1)
  | ioapic {p n : ℕ} (hp : p + 1 < conf.length) (htype : conf p = MPIOAPIC) (hrest : Entries conf (p + 8) n) :
      Entries conf p n
  | other {p n : ℕ} (hp : p < conf.length) (htype : conf p = MPBUS ∨ conf p = MPIOINTR ∨ conf p = MPLINTR)
      (hrest : Entries conf (p + 8) n) : Entries conf p n

section

variable {conf : Conf} {E : Fault → Prop} {p n fuel : ℕ} {s : Vars} {Q : PUnit → Vars → Prop}

theorem wp_byte {Q : UInt8 → Vars → Prop} (hin : p < conf.length → Q (conf p) s)
    (hout : conf.length ≤ p → E .table) : Exec.wp E (byte conf p) Q s := by
  unfold byte
  split_ifs with hp
  · exact hin hp
  · exact hout (Nat.le_of_not_lt hp)

theorem wp_mpproc
    (hin : p + 3 < conf.length → s.ncpu < NCPU → ∀ s', s'.ncpu = s.ncpu + 1 → Q ⟨⟩ s')
    (hout : conf.length ≤ p + 3 → E .table) (hcpus : NCPU ≤ s.ncpu → E .cpus) :
    Exec.wp E (mpproc conf p) Q s := by
  unfold mpproc
  refine Exec.wp_bind.mpr (wp_byte (fun _ => ?_) (fun h => hout (by omega)))
  simp only [Exec.wp_bind, Exec.wp_get]
  split_ifs
  all_goals
    simp only [Exec.wp_bind, Exec.wp_modify]
    refine wp_byte (fun h => ?_) hout
    split_ifs
    all_goals
      simp only [Exec.wp_bind, Exec.wp_modify, Exec.wp_get]
      split_ifs with hlt
      · exact hin h hlt _ rfl
      · exact hcpus (Nat.le_of_not_lt hlt)

theorem wp_mpioapic
    (hin : p + 1 < conf.length → ∀ s', s'.ncpu = s.ncpu → s'.ismp = s.ismp → Q ⟨⟩ s')
    (hout : conf.length ≤ p + 1 → E .table) : Exec.wp E (mpioapic conf p) Q s :=
  Exec.wp_bind.mpr (wp_byte (fun h => hin h _ rfl rfl) hout)

/-- An entry that is none of the known ones. -/
def Unknown (type : UInt8) : Prop :=
  type ≠ MPPROC ∧ type ≠ MPIOAPIC ∧ ¬ (type = MPBUS ∨ type = MPIOINTR ∨ type = MPLINTR)

/-- One round of the loop. -/
theorem wp_scan_succ (hdone : conf.length ≤ p → Q ⟨⟩ s)
    (hproc : conf p = MPPROC → Exec.wp E (mpproc conf p) (fun _ => Exec.wp E (scan conf fuel (p + 20)) Q) s)
    (hioapic : conf p = MPIOAPIC → Exec.wp E (mpioapic conf p) (fun _ => Exec.wp E (scan conf fuel (p + 8)) Q) s)
    (hother : p < conf.length → conf p = MPBUS ∨ conf p = MPIOINTR ∨ conf p = MPLINTR →
      Exec.wp E (scan conf fuel (p + 8)) Q s)
    (hunknown : p < conf.length → Unknown (conf p) → Exec.wp E (scan conf fuel p) Q { s with ismp := false }) :
    Exec.wp E (scan conf (fuel + 1) p) Q s := by
  rw [scan]
  split_ifs with hp
  · refine Exec.wp_bind.mpr (wp_byte (fun _ => ?_) fun h => absurd hp (Nat.not_lt.mpr h))
    split_ifs with h₁ h₂ h₃
    · exact Exec.wp_bind.mpr (hproc h₁)
    · exact Exec.wp_bind.mpr (hioapic h₂)
    · exact hother hp h₃
    · exact Exec.wp_bind.mpr (hunknown hp ⟨h₁, h₂, h₃⟩)
  · exact hdone (Nat.le_of_not_lt hp)

/-- The loop ends if the entries are as they should be. -/
theorem scan_returns (hentries : Entries conf p n) : ∃ fuel, ∀ s : Vars, s.ncpu + n ≤ NCPU →
    Exec.wp (fun _ => False) (scan conf fuel p) (fun _ s' => s'.ncpu = s.ncpu + n) s := by
  induction hentries with
  | done hp => exact ⟨1, fun s _ => by simp [scan, Nat.not_lt.mpr hp]⟩
  | @proc p n hp htype hrest ih =>
    obtain ⟨fuel, hfuel⟩ := ih
    refine ⟨fuel + 1, fun s hn => wp_scan_succ (by omega) (fun _ => ?_) ?_ ?_ ?_⟩
    · refine wp_mpproc (fun _ _ s' hs' => ?_) (by omega) (by omega)
      exact Exec.wp_mono (hfuel s' (by omega)) fun _ s'' h => by omega
    · exact fun h => absurd (htype.symm.trans h) (by decide)
    · exact fun _ h => absurd h (by rw [htype]; decide)
    · exact fun _ h => absurd htype h.1
  | @ioapic p n hp htype hrest ih =>
    obtain ⟨fuel, hfuel⟩ := ih
    refine ⟨fuel + 1, fun s hn => wp_scan_succ (by omega) ?_ (fun _ => ?_) ?_ ?_⟩
    · exact fun h => absurd (htype.symm.trans h) (by decide)
    · refine wp_mpioapic (fun _ s' hs' _ => ?_) (by omega)
      exact Exec.wp_mono (hfuel s' (by omega)) fun _ s'' h => by omega
    · exact fun _ h => absurd h (by rw [htype]; decide)
    · exact fun _ h => absurd htype h.2.1
  | @other p n hp htype hrest ih =>
    obtain ⟨fuel, hfuel⟩ := ih
    refine ⟨fuel + 1, fun s hn => wp_scan_succ (by omega) ?_ ?_ (fun _ _ => hfuel s hn) ?_⟩
    · exact fun h => absurd htype (by rw [h]; decide)
    · exact fun h => absurd htype (by rw [h]; decide)
    · exact fun _ h => absurd htype h.2.2

theorem Entries.known (hentries : Entries conf p n) (hp : p < conf.length) : ¬ Unknown (conf p) := by
  rintro ⟨hproc, hioapic, hother⟩
  cases hentries with
  | done h => omega
  | proc _ h => exact hproc h
  | ioapic _ h => exact hioapic h
  | other _ h => exact hother h

/-- What the loop has met when it ends. -/
theorem wp_scan (fuel p : ℕ) (s : Vars) : Exec.wp (fun _ => True) (scan conf fuel p)
    (fun _ s' => ∃ n, Entries conf p n ∧ s'.ncpu = s.ncpu + n ∧ (0 < n → s'.ncpu ≤ NCPU) ∧
      (n = 0 → s'.ismp = s.ismp)) s := by
  induction fuel generalizing p s with
  | zero => trivial
  | succ fuel ih =>
    refine wp_scan_succ (fun hp => ⟨0, .done hp, by simp⟩) (fun htype => ?_) (fun htype => ?_)
      (fun hp htype => ?_) (fun hp hunknown => ?_)
    · refine wp_mpproc (fun hp hlt s₁ hs₁ => Exec.wp_mono (ih (p + 20) s₁) ?_) (fun _ => trivial) (fun _ => trivial)
      rintro _ s' ⟨n, hrest, hncpu, hle, -⟩
      refine ⟨n + 1, .proc hp htype hrest, by omega, fun _ => ?_, by omega⟩
      rcases Nat.eq_zero_or_pos n with hn | hn
      · omega
      · exact hle hn
    · refine wp_mpioapic (fun hp s₁ hs₁ his => Exec.wp_mono (ih (p + 8) s₁) ?_) (fun _ => trivial)
      rintro _ s' ⟨n, hrest, hncpu, hle, hismp⟩
      exact ⟨n, .ioapic hp htype hrest, by omega, hle, fun hn => (hismp hn).trans his⟩
    · refine Exec.wp_mono (ih (p + 8) s) ?_
      rintro _ s' ⟨n, hrest, h⟩
      exact ⟨n, .other hp htype hrest, h⟩
    · -- without progress the loop cannot end
      refine Exec.wp_mono (ih p _) ?_
      rintro _ s' ⟨n, hrest, -⟩
      exact absurd hunknown (hrest.known hp)

end

/-- `mpinit` is safe on this table: the loop ends, within the table and within `cpus`, with a number of
processors that is in range. -/
def Safe (conf : Conf) (imcrp : UInt8) : Prop :=
  ∃ fuel s, mpinit conf imcrp fuel {} = .ok ⟨⟩ s ∧ 1 ≤ s.ncpu ∧ s.ncpu ≤ NCPU

section

variable {conf : Conf} {imcrp : UInt8} {p n fuel : ℕ}

theorem wp_uint {E : Fault → Prop} {Q : ℕ → Vars → Prop} {s : Vars}
    (hin : p + 3 < conf.length → ∀ x, Q x s) (hout : conf.length ≤ p + 3 → E .table) :
    Exec.wp E (uint conf p) Q s := by
  unfold uint
  refine Exec.wp_bind.mpr (wp_byte (fun _ => ?_) fun h => hout (by omega))
  refine Exec.wp_bind.mpr (wp_byte (fun _ => ?_) fun h => hout (by omega))
  refine Exec.wp_bind.mpr (wp_byte (fun _ => ?_) fun h => hout (by omega))
  exact Exec.wp_bind.mpr (wp_byte (fun h => hin h _) hout)

theorem Entries.le_of_pos (h : Entries conf p n) (hn : 0 < n) : p + 3 < conf.length := by
  induction h with
  | done => omega
  | proc hp => exact hp
  | ioapic _ _ _ ih => have := ih hn; omega
  | other _ _ _ ih => have := ih hn; omega

/-- What `mpinit` makes of the loop: a table that it did not like counts as one processor. -/
theorem wp_mpinit {E : Fault → Prop} {Q : PUnit → Vars → Prop} (hconf : mpconfig conf)
    (hlen : conf.length ≤ 39 → E .table)
    (hscan : ∀ lapic, Exec.wp E (scan conf fuel MPCONF)
      (fun _ s => ∀ s', s'.ncpu = (if s.ismp then s.ncpu else 1) → Q ⟨⟩ s') { ismp := true, lapic }) :
    Exec.wp E (mpinit conf imcrp fuel) Q {} := by
  simp only [mpinit, hconf, if_true, Exec.wp_bind, Exec.wp_modify]
  refine wp_uint (fun _ lapicaddr => ?_) hlen
  simp only [Exec.wp_bind, Exec.wp_modify]
  refine Exec.wp_mono (hscan lapicaddr) fun _ s hs => Exec.wp_bind.mpr (Exec.wp_get.mpr ?_)
  split_ifs with hismp himcrp
  · exact hs _ (by simp_all)
  · exact hs _ (by simp_all)
  · exact hs _ (by simp_all)

/-- `mpinit` is safe exactly if the entries behind the header are of known types, the bytes it reads of
them are in the table, and there are between one and `NCPU` processors. -/
theorem mpinit_safe_iff (hconf : mpconfig conf) :
    Safe conf imcrp ↔ ∃ n, Entries conf MPCONF n ∧ 1 ≤ n ∧ n ≤ NCPU := by
  constructor
  · rintro ⟨fuel, s, hrun, hone, hmax⟩
    have hwp : Exec.wp (fun _ => True) (mpinit conf imcrp fuel)
        (fun _ s => 1 ≤ s.ncpu → ∃ n, Entries conf MPCONF n ∧ 1 ≤ n ∧ n ≤ NCPU) {} := by
      refine wp_mpinit hconf (fun _ => trivial) fun lapic => Exec.wp_mono (wp_scan fuel MPCONF _) ?_
      rintro _ s ⟨n, hentries, hncpu, hle, hismp⟩ s' hs' hone
      have hn : 0 < n := by
        by_contra h
        obtain rfl : n = 0 := by omega
        have hzero : s'.ncpu = 0 := by rw [hs', hismp rfl, if_pos rfl, hncpu]
        omega
      exact ⟨n, hentries, hn, by have := hle hn; omega⟩
    exact Exec.wp_ok hwp hrun hone
  · rintro ⟨n, hentries, hone, hmax⟩
    have hlen : 44 + 3 < conf.length := hentries.le_of_pos hone
    obtain ⟨fuel, hfuel⟩ := scan_returns hentries
    have hwp : Exec.wp (fun _ => False) (mpinit conf imcrp fuel) (fun _ s => 1 ≤ s.ncpu ∧ s.ncpu ≤ NCPU) {} := by
      refine wp_mpinit hconf (by omega) fun lapic => Exec.wp_mono (hfuel _ (by rwa [Nat.zero_add])) ?_
      intro _ s hncpu s' hs'
      rw [Nat.zero_add] at hncpu
      rw [hs', hncpu]
      split_ifs
      · exact ⟨hone, hmax⟩
      · decide
    obtain ⟨_, s, hrun, hs⟩ := Exec.wp_returns hwp
    exact ⟨fuel, s, hrun, hs⟩

/-- `mpinit` does not return from an entry of an unknown type. -/
theorem mpinit_unknown {s : Vars} (hconf : mpconfig conf) (hlen : MPCONF < conf.length)
    (htype : Unknown (conf MPCONF)) (hrun : mpinit conf imcrp fuel {} = .ok ⟨⟩ s) : False := by
  have hwp : Exec.wp (fun _ => True) (mpinit conf imcrp fuel) (fun _ _ => False) {} := by
    refine wp_mpinit hconf (fun _ => trivial) fun lapic => Exec.wp_mono (wp_scan fuel MPCONF _) ?_
    rintro _ s ⟨n, hentries, -⟩
    exact absurd htype (hentries.known hlen)
  exact Exec.wp_ok hwp hrun

/-- A header of the given length, with the byte that makes the checksum right. -/
def header (length checksum : UInt8) : List UInt8 :=
  [80, 67, 77, 80, length, 0, 4, checksum] ++ List.replicate 36 0

/-- The memory that holds these bytes. -/
def Conf.ofList (bytes : List UInt8) : Conf := fun i => bytes.getD i 0

/-- A table with the boot processor and a bus. -/
theorem mpinit_safe_iff_boot :
    let conf := Conf.ofList (header 72 108 ++ [0, 0, 20, 3] ++ List.replicate 16 0 ++ [1] ++ List.replicate 7 0)
    mpconfig conf ∧ (Safe conf 0 ↔ ∃ n, Entries conf MPCONF n ∧ 1 ≤ n ∧ n ≤ NCPU) := by
  have hconf : mpconfig (Conf.ofList
      (header 72 108 ++ [0, 0, 20, 3] ++ List.replicate 16 0 ++ [1] ++ List.replicate 7 0)) := by decide +kernel
  exact ⟨hconf, mpinit_safe_iff hconf⟩

/-- A table with one entry of type 5. The loop does not get past it. -/
theorem mpinit_unknown_type :
    let conf := Conf.ofList (header 52 147 ++ [5] ++ List.replicate 7 0)
    mpconfig conf ∧ ∀ fuel s, mpinit conf 0 fuel {} ≠ .ok ⟨⟩ s := by
  have hconf : mpconfig (Conf.ofList (header 52 147 ++ [5] ++ List.replicate 7 0)) := by decide +kernel
  exact ⟨hconf, fun fuel s hrun => mpinit_unknown hconf (by decide) (by unfold Unknown; decide) hrun⟩

end

end Xv6.Mp
