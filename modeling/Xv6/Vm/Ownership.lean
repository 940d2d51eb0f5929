import Xv6.Vm.Owners

/-!
# Ownership and loss of pages

In every state that calls can lead to, no page is in two places. A call loses pages if and only if it
finds no page for a page table, and `exec` behaves on exactly those files whose outline fits.
-/

namespace Xv6.Vm

open Lib Exec

section

variable {K : Image} {k k' : Kern} {ω : ℕ → Option (Place (Option ℕ) Solo)}

open Classical in
theorem Boot.kinv (hk : Boot K k) : ∃ ω, KInv K k ω := by
  have hdir : ∀ g, k.roots.dir g = none := by
    rintro (- | h)
    · rfl
    · simp [Kern.roots, hk.space h]
  have hsolo : ∀ c, k.roots.solo c = none := by
    rintro (h | p)
    · exact hk.kstack h
    · simp [Kern.roots, hk.pipe p]
  refine ⟨fun x => if x ∈ k.phys.free then some .free else none, ⟨fun x a => ?_, hk.nodup, ?_, ?_⟩, ?_⟩
  · cases a with
    | free => simp [At]
    | hand => simp [At, Kern.roots]
    | _ => simp [At, hdir, hsolo]
  · intro x a hx
    split_ifs at hx with hfree
    exact hk.managed x hfree
  · intro g r i w hr
    rw [hdir g] at hr
    cases hr
  · intro h sp hsp
    rw [hk.space h] at hsp
    cases hsp

theorem KInv.granting (hk : KInv K k ω) (grant : ℕ → Bool) : KInv K (k.granting grant) ω :=
  ⟨hk.inv.same (sameSpaces_of_mem rfl) rfl, hk.size⟩

theorem Reachable.kinv (hk : Reachable K k) : ∃ ω, KInv K k ω := by
  induction hk with
  | boot hk => exact hk.kinv
  | step grant _ hrun ih =>
    obtain ⟨ω, hω⟩ := ih
    obtain ⟨ω', hω', -⟩ := wp_ok (wp_run (E := fun e => e ≠ .doubleFree) _ (fun _ he => he)
      (hω.granting grant)) hrun
    exact ⟨ω', hω'⟩

theorem KInv.placed_iff (hk : KInv K k ω) {x : ℕ} : k.Placed x ↔ ω x ≠ none := by
  rw [Option.ne_none_iff_exists']
  exact exists_congr fun a => hk.inv.place x a

theorem answers_mem {s : Phys} {i x : ℕ} (h : s.answers i = some x) : x ∈ s.free := by
  unfold Phys.answers at h
  split_ifs at h
  exact List.mem_of_getElem? h

theorem Ends.placed_iff {P : Plan} (hk : KInv K k ω) (he : Ends K k ω P k') :
    (∀ x ∈ k.phys.free, k'.Placed x) ↔ P.lost = 0 := by
  obtain ⟨ω', hk', ⟨hP, hkept⟩ | ⟨hP, hlost⟩⟩ := he
  · refine iff_of_true (fun x hx => ?_) hP
    have hfree : ω x = some .free := (hk.inv.place x .free).mp hx
    rw [hk'.placed_iff, Ne, hkept x, hfree]
    nofun
  · obtain ⟨x, ⟨i, hi⟩, -, hx⟩ := hlost.lost
    refine iff_of_false (fun hall => ?_) (by omega)
    exact hk'.placed_iff.mp (hall x (answers_mem hi)) hx

/-- No page has two owners: it is in at most one place, the free list has it once, what a user may use
is mapped below `KERNBASE`, and no page is freed twice. -/
theorem single_owner (hk : Reachable K k) :
    (∀ x a b, At k.phys k.roots x a → At k.phys k.roots x b → a = b) ∧ k.phys.free.Nodup ∧
      (∀ h sp i w, k.space h = some sp → i < 2 ^ 20 → k.phys.entry sp.pgdir i = some w →
        user w = true → i * PGSIZE < KERNBASE) ∧
      ∀ (op : Op) (grant : ℕ → Bool) (k' : Kern),
        op.run K (k.granting grant) ≠ .error .doubleFree k' := by
  obtain ⟨ω, hω⟩ := hk.kinv
  refine ⟨fun x a b ha hb => ?_, hω.inv.nodup, fun h sp i w hsp hi hw hu => ?_, fun op grant k' hrun => ?_⟩
  · rw [hω.inv.place] at ha hb
    exact Option.some.inj (ha.symm.trans hb)
  · by_contra hge
    have hlow : 2 ^ 19 ≤ i := by
      simp only [PGSIZE, KERNBASE] at hge
      omega
    have := hω.inv.kernel (some h) sp.pgdir i w (hω.dir hsp) hlow hi hw
    rw [hu] at this
    cases this
  · exact wp_error (wp_run (E := fun e => e ≠ .doubleFree) op (fun _ he => he) (hω.granting grant))
      hrun rfl

end

/-- A small kernel. -/
def Image.sample : Image := ⟨0x108000, 0x116000, by decide, by decide, by decide, by decide⟩

/-- The kernel after `kinit2`, with `n` pages from the fourth megabyte on. -/
def Kern.fresh (n : ℕ) : Kern where
  phys := ⟨fun _ _ => 0, List.range' 1024 n, fun _ => true⟩
  space := fun _ => none
  kstack := fun _ => none
  pipe := fun _ => none

theorem reachable_fresh {n : ℕ} (hn : n ≤ 1024) : Reachable .sample (.fresh n) := by
  refine .boot ⟨fun _ => rfl, fun _ => rfl, fun _ => rfl, List.nodup_range', fun x hx => ?_⟩
  have hx' : 1024 ≤ x ∧ x < 1024 + n := by
    obtain ⟨i, hi, rfl⟩ := List.mem_range'.mp hx
    omega
  simp only [Image.Managed, Image.sample, PGSIZE, PHYSTOP]
  omega

theorem single_owner_pipe : ∃ k, (Op.pipealloc 0 true).run .sample (.fresh 2) = .ok 0 k ∧
    k.phys.free.Nodup ∧ ∀ a b, At k.phys k.roots 1024 a → At k.phys k.roots 1024 b → a = b := by
  have howner := single_owner (.step (fun _ => true) (reachable_fresh (n := 2) (by decide))
    (rfl : (Op.pipealloc 0 true).run .sample (.fresh 2) = .ok 0 _))
  exact ⟨_, rfl, howner.2.1, howner.1 1024⟩

section

variable {K : Image} {k k' : Kern} {ω : ℕ → Option (Place (Option ℕ) Solo)}

end

theorem fresh_answers {n i : ℕ} : (Kern.fresh n).phys.answers i = (List.range' 1024 n)[i]? := by
  simp [Phys.answers, Kern.fresh]

/-- `exec` returns, and has either changed nothing of the process, or installed a new image in a
directory that was free. -/
def ExecSafe (K : Image) (k : Kern) (h : ℕ) (sp : Space) (file : Option (List UInt8)) (path : List UInt8)
    (argv : List (List UInt8)) : Prop :=
  ∃ res k', (Op.exec h file path argv).run K k = .ok res k' ∧
    (res = -1 ∧ k'.space = k.space ∧
        (∀ i < 2 ^ 20, k'.phys.entry sp.pgdir i = k.phys.entry sp.pgdir i) ∨
      res = 0 ∧ ∃ r ∈ k.phys.free, ∃ sz esp,
        k'.space = Function.update k.space h (some ⟨r, sz, startOf file, esp, progName path⟩))

section

variable {K : Image} {k : Kern} {h : ℕ} {sp : Space} {file : Option (List UInt8)} {path : List UInt8}
  {argv : List (List UInt8)}

theorem ExecSafe.fits {ω : ℕ → Option (Place (Option ℕ) Solo)} (hk : KInv K k ω)
    (hsp : k.space h = some sp) (hsafe : ExecSafe K k h sp file path argv) :
    (k.blank.exec K file).Fits (file.getD []) argv := by
  obtain ⟨res, k', hrun, -⟩ := hsafe
  exact wp_ok (wp_execBy (E := fun _ => True) (Q := fun _ _ => Outline.Fits _ _ _) hk hsp
    (fun _ _ _ => trivial) (fun _ hfit _ _ _ => hfit) fun _ _ _ _ hfit _ _ _ => hfit) hrun

end

theorem enough_fresh {n : ℕ} : (Kern.fresh n).blank.Enough n := by
  intro m hm
  have hask : (Kern.fresh n).blank.ask m = (List.range' 1024 n)[m]? := fresh_answers
  rw [hask]
  simp [hm]

/-- With enough pages there is a process. -/
theorem exists_space {n c : ℕ} (hn : n ≤ 1024) (hc : c + 65 ≤ n) :
    ∃ k sp, Reachable .sample k ∧ k.space 0 = some sp ∧ k.blank.Enough c := by
  have hk : Reachable .sample (.fresh n) := reachable_fresh hn
  obtain ⟨P', hsetup, henough⟩ := Plan.setup_enough (K := .sample) (enough_fresh.mono hc)
  obtain ⟨ω, hω⟩ := hk.kinv
  obtain ⟨res, k', hrun, -, hres, hzero⟩ := wp_returns (wp_setupkvmFor (h := 0) hω)
  rw [hsetup, if_pos ⟨⟨rfl, rfl⟩, rfl⟩] at hres
  obtain ⟨hans, sp, hsp⟩ := hzero hres
  rw [hsetup] at hans
  have hcall : (Op.setupkvm 0).run .sample ((Kern.fresh n).granting fun _ => true) = .ok res k' := hrun
  refine ⟨k', sp, .step _ hk hcall, hsp, fun m hm => ?_⟩
  exact (congrFun hans m).trans_ne (henough m hm)

/-- A program with a single segment, which is empty and to be loaded at address 1. -/
def crooked : List UInt8 :=
  [0x7F, 0x45, 0x4C, 0x46] ++ List.replicate 24 0 ++ [52, 0, 0, 0] ++ List.replicate 12 0 ++ [1, 0] ++
    List.replicate 6 0 ++ [1, 0, 0, 0, 0, 0, 0, 0, 1, 0, 0, 0] ++ List.replicate 20 0

theorem loaded_crooked {K : Image} {P P' : Plan} (hsetup : P.setup K = (true, P')) (h : P'.Enough 1) :
    ∃ l ∈ (P.exec K (some crooked)).loaded, l.1.vaddr = 1 := by
  have helf : readElf crooked = some ⟨ELF_MAGIC, 0, 52, 1⟩ := rfl
  have hprog : readProg crooked 52 = some ⟨1, 0, 1, 0, 0⟩ := rfl
  obtain ⟨x, hx⟩ := Option.ne_none_iff_exists'.mp (h 0 (by decide))
  have halloc : (P'.alloc 0 1).1 = 1 := by
    unfold Plan.alloc
    simp [KERNBASE, pages, Plan.grow, hx]
  have hexec : P.exec K (some crooked) = P'.image crooked ⟨ELF_MAGIC, 0, 52, 1⟩ := by
    unfold Plan.exec
    simp only [helf, hsetup]
    rfl
  have hcomplete : Proghdr.Complete ⟨1, 0, 1, 0, 0⟩ crooked := fun j hj => absurd hj (Nat.not_lt_zero j)
  have hsegments : (P'.segments crooked 1 52 0).1 = [(⟨1, 0, 1, 0, 0⟩, (P'.alloc 0 1).2)] := by
    simp [Plan.segments, hprog, ELF_PROG_LOAD, uint, halloc, hcomplete]
  refine ⟨(⟨1, 0, 1, 0, 0⟩, (P'.alloc 0 1).2), ?_, rfl⟩
  rw [hexec, Plan.image]
  split <;> simp [hsegments]

end Xv6.Vm
