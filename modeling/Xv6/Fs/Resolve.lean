import Mathlib.Data.List.TakeWhile
import Xv6.Fs.Chunk
import Xv6.Fs.Directory

/-!
# Path names

`namei` and `nameiparent` walk along a path from the root or from the current directory. Here is what they
compute if nobody else changes the file system: a left fold over the components of the path.
-/

namespace Xv6.Fs

open Conc Prog
open Function (update update_self update_of_ne update_eq_self)

/-! ## Components -/

/-- The parts of a path that are not empty, each cut to `DIRSIZ` bytes. -/
def components (path : List UInt8) : List (List UInt8) :=
  ((path.splitOn slash).filter (· ≠ [])).map (List.take DIRSIZ)

section

variable {path rest name : List UInt8}

theorem components_nil : components [] = [] := rfl

theorem components_slash : components (slash :: path) = components path := by
  have hsplit : (slash :: path).splitOn slash = [] :: path.splitOn slash :=
    List.splitOnP_append_cons_of_forall_mem (fun _ h => absurd h List.not_mem_nil) slash rfl path
  rw [components, hsplit, List.filter_cons_of_neg (by simp), components]

/-- Leading slashes do not count. -/
theorem components_dropWhile : components (path.dropWhile (· = slash)) = components path := by
  induction path with
  | nil => rfl
  | cons c path ih =>
    by_cases hc : c = slash
    · rw [List.dropWhile_cons_of_pos (by simpa using hc), ih, hc, components_slash]
    · rw [List.dropWhile_cons_of_neg (by simpa using hc)]

theorem eq_false_of_head?_dropWhile {P : UInt8 → Bool} {c : UInt8} (h : (path.dropWhile P).head? = some c) :
    P c = false := by
  have := List.head?_dropWhile_not P path
  rwa [h] at this

/-- A path that starts with a word. -/
theorem components_word (hne : path ≠ []) (hhead : path.head? ≠ some slash) :
    path.takeWhile (· ≠ slash) ≠ [] ∧ components path =
      (path.takeWhile (· ≠ slash)).take DIRSIZ :: components (path.dropWhile (· ≠ slash)) := by
  have hword : path.takeWhile (· ≠ slash) ≠ [] := by
    obtain ⟨c, path, rfl⟩ := List.exists_cons_of_ne_nil hne
    have hc : c ≠ slash := fun h => hhead (congrArg some h)
    rw [List.takeWhile_cons_of_pos (by simpa using hc)]
    exact List.cons_ne_nil _ _
  have hno : ∀ c ∈ path.takeWhile (· ≠ slash), (c == slash) = false := by
    intro c hc
    simpa using List.mem_takeWhile_imp hc
  have hcat : path.takeWhile (· ≠ slash) ++ path.dropWhile (· ≠ slash) = path := List.takeWhile_append_dropWhile
  refine ⟨hword, ?_⟩
  cases hr : path.dropWhile (· ≠ slash) with
  | nil =>
    rw [hr, List.append_nil] at hcat
    rw [hcat] at hno hword ⊢
    have hsplit : path.splitOn slash = [path] := List.splitOnP_eq_singleton hno
    simp [components, hsplit, hword]
  | cons c rest =>
    have hc : c = slash := by simpa using eq_false_of_head?_dropWhile (congrArg List.head? hr)
    rw [hr, hc] at hcat
    have hsplit : path.splitOn slash = path.takeWhile (· ≠ slash) :: rest.splitOn slash := by
      conv_lhs => rw [← hcat]
      exact List.splitOnP_append_cons_of_forall_mem hno slash (beq_self_eq_true slash) rest
    rw [hc, components_slash, components, hsplit, List.filter_cons_of_pos (by simpa using hword)]
    rfl

/-- `skipelem` takes the first component. -/
theorem components_of_skipelem (h : skipelem path = some (name, rest)) :
    components path = name :: components rest ∧ rest.length < path.length ∧ (components rest = [] → rest = []) := by
  rw [skipelem] at h
  generalize hpath : path.dropWhile (· = slash) = path' at h
  have hhead : ∀ {l : List UInt8}, (l.dropWhile (· = slash)).head? ≠ some slash :=
    fun h => by simpa using eq_false_of_head?_dropWhile h
  split_ifs at h with hnil
  obtain ⟨rfl, rfl⟩ := Prod.mk.inj (Option.some.inj h)
  obtain ⟨hword, hcomp⟩ := components_word hnil (hpath ▸ hhead)
  refine ⟨?_, ?_, fun hrest => ?_⟩
  · rw [components_dropWhile, ← hcomp, ← hpath, components_dropWhile]
  · have hcat := congrArg List.length (List.takeWhile_append_dropWhile (p := (· ≠ slash)) (l := path'))
    have hle := (List.dropWhile_sublist (l := path) (· = slash)).length_le
    have hle' := (List.dropWhile_sublist (l := path'.dropWhile (· ≠ slash)) (· = slash)).length_le
    have hpos := List.length_pos_iff.2 hword
    rw [List.length_append] at hcat
    rw [hpath] at hle
    omega
  · by_contra hne
    rw [(components_word hne hhead).2] at hrest
    cases hrest

theorem components_of_skipelem_none (h : skipelem path = none) : components path = [] := by
  rw [skipelem] at h
  split_ifs at h with hnil
  rw [← components_dropWhile, hnil]
  rfl

end

/-! ## Names in a tree -/

section

variable (node : ℕ → Body)

/-- The contents of inode `X`, if it is a directory. -/
def dirOf (X : ℕ) : Option (List UInt8) :=
  match node X with
  | .live L => if L.c.type = T_DIR then some L.node.data else none
  | _ => none

/-- The inode that a name is bound to in the directory `X`. -/
def lookupIn (X : ℕ) (name : List UInt8) : Option ℕ :=
  (dirOf node X).bind fun data => (Directory.bound data (Directory.key name)).map Prod.fst

/-- The inode at the end of a path from `X`. -/
def resolve (X : ℕ) (names : List (List UInt8)) : Option ℕ := names.foldlM (lookupIn node) X

/-- The directory that has, or would have, the last name of a path from `X`, and this name. -/
def resolveParent (X : ℕ) (names : List (List UInt8)) : Option (ℕ × List UInt8) := do
  let name ← names.getLast?
  let Y ← resolve node X names.dropLast
  let _ ← dirOf node Y
  pure (Y, name)

variable {node} {X Y : ℕ} {name : List UInt8} {names : List (List UInt8)}

theorem dirOf_live {L : Live} (h : node X = .live L) :
    dirOf node X = if L.c.type = T_DIR then some L.node.data else none := by
  rw [dirOf, h]

theorem exists_of_dirOf {data : List UInt8} (h : dirOf node X = some data) : ∃ L, node X = .live L ∧ L.c.type = T_DIR := by
  unfold dirOf at h
  split at h
  next L hL =>
    split_ifs at h with ht
    exact ⟨L, hL, ht⟩
  next => cases h

theorem resolve_cons : resolve node X (name :: names) = (lookupIn node X name).bind fun Y => resolve node Y names :=
  List.foldlM_cons

theorem resolveParent_singleton : resolveParent node X [name] = (dirOf node X).map fun _ => (X, name) := by
  cases h : dirOf node X <;> simp [resolveParent, resolve, h]

theorem resolveParent_cons (hne : names ≠ []) :
    resolveParent node X (name :: names) = (lookupIn node X name).bind fun Y => resolveParent node Y names := by
  obtain ⟨last, hlast⟩ : ∃ last, names.getLast? = some last := ⟨_, List.getLast?_eq_some_getLast hne⟩
  have hlast' : (name :: names).getLast? = some last := by rw [List.getLast?_cons_of_ne_nil hne, hlast]
  simp only [resolveParent, hlast, hlast', List.dropLast_cons_of_ne_nil hne, resolve_cons]
  cases lookupIn node X name <;> rfl

/-- Looking the last name up in the directory before it is resolving the path. -/
theorem resolve_of_parent (h : resolveParent node X names = some (Y, name)) :
    (∃ data, dirOf node Y = some data) ∧ resolve node X names = lookupIn node Y name := by
  obtain ⟨last, hlast, h⟩ := Option.bind_eq_some_iff.1 h
  obtain ⟨Z, hZ, h⟩ := Option.bind_eq_some_iff.1 h
  obtain ⟨data, hdata, h⟩ := Option.bind_eq_some_iff.1 h
  obtain ⟨rfl, rfl⟩ := Prod.mk.inj (Option.some.inj h)
  refine ⟨⟨data, hdata⟩, ?_⟩
  have hnames : names.dropLast ++ [last] = names := List.dropLast_append_getLast? last hlast
  have hfold : resolve node X (names.dropLast ++ [last]) =
      (resolve node X names.dropLast).bind fun Z => resolve node Z [last] := List.foldlM_append
  rw [← hnames, hfold, hZ, Option.bind_some, resolve_cons]
  cases lookupIn node Z last <;> rfl

end

/-! ## Walking through a quiet file system -/

variable {Pid : Type}

/-- What the cache has of an inode. -/
structure Cached (node : ℕ → Body) (e : Inode) : Prop where
  dev : e.dev = ROOTDEV
  live : ∃ L, node e.inum = .live L ∧ (e.valid = true → e.d = L.c)

/-- Nobody is using the file system: no block is held and no inode locked, and what is in memory is on disk. -/
structure Calm (node : ℕ → Body) (owner : ℕ → Option (Loc Pid)) (s : State Pid) : Prop where
  sb_ok : s.sb.Ok
  disk : Disk 0 s.sb (s.block ROOTDEV) node owner
  free : ∀ b, s.store.holder ROOTDEV b = none
  synced : ∀ X L, node X = .live L → L.Synced
  nonneg : ∀ j, 0 ≤ (s.inode j).ref
  cached : ∀ j, 0 < (s.inode j).ref → Cached node (s.inode j)
  busy : ∀ j, 0 < (s.inode j).ref → (s.inode j).busy = false
  inj : ∀ j l, 0 < (s.inode j).ref → 0 < (s.inode l).ref → (s.inode j).inum = (s.inode l).inum → j = l

/-- A process has walked from the quiet state `s₀` to `s`. It has locked the entry `lk` and has the references in
`held`, besides those that were there before. -/
structure Walk (node : ℕ → Body) (owner : ℕ → Option (Loc Pid)) (s₀ : State Pid) (lk : Option ISlot)
    (held : List ISlot) (s : State Pid) : Prop where
  start : Calm node owner s₀
  store : s.store = s₀.store
  sb : s.sb = s₀.sb
  proc : s.proc = s₀.proc
  ref : ∀ j, (s.inode j).ref = (s₀.inode j).ref + held.count j
  same : ∀ j, 0 < (s₀.inode j).ref → (s.inode j).inum = (s₀.inode j).inum
  cached : ∀ j, 0 < (s.inode j).ref → Cached node (s.inode j)
  busy : ∀ j, 0 < (s.inode j).ref → ((s.inode j).busy = true ↔ lk = some j)
  inj : ∀ j l, 0 < (s.inode j).ref → 0 < (s.inode l).ref → (s.inode j).inum = (s.inode l).inum → j = l

section

variable {node : ℕ → Body} {owner : ℕ → Option (Loc Pid)} {s₀ s s' : State Pid} {lk lk' : Option ISlot}
  {held held' : List ISlot} {i j : ISlot} {X : ℕ} {L : Live} {e : Inode}

theorem Calm.walk (h : Calm node owner s) : Walk node owner s none [] s where
  start := h
  store := rfl
  sb := rfl
  proc := rfl
  ref _ := by simp
  same _ _ := rfl
  cached := h.cached
  busy j hj := by simp [h.busy j hj]
  inj := h.inj

namespace Walk

theorem ref_pos (h : Walk node owner s₀ lk held s) (hi : i ∈ held) : 0 < (s.inode i).ref := by
  have := h.start.nonneg i
  have := List.count_pos_iff.2 hi
  rw [h.ref]
  omega

/-- One entry is changed. -/
theorem update (h : Walk node owner s₀ lk held s) (hstore : s'.store = s.store) (hsb : s'.sb = s.sb)
    (hproc : s'.proc = s.proc) (hinode : s'.inode = Function.update s.inode j e)
    (hlk : ∀ l, l ≠ j → (lk' = some l ↔ lk = some l)) (hheld : ∀ l, l ≠ j → held'.count l = held.count l)
    (href : e.ref = (s₀.inode j).ref + held'.count j) (hsame : 0 < (s₀.inode j).ref → e.inum = (s.inode j).inum)
    (hcached : 0 < e.ref → Cached node e) (hbusy : 0 < e.ref → (e.busy = true ↔ lk' = some j))
    (hinj : 0 < e.ref → ∀ l, l ≠ j → 0 < (s.inode l).ref → (s.inode l).inum ≠ e.inum) :
    Walk node owner s₀ lk' held' s' := by
  have hself : s'.inode j = e := by rw [hinode, update_self]
  have hother : ∀ l, l ≠ j → s'.inode l = s.inode l := fun l hl => by rw [hinode, update_of_ne hl]
  refine ⟨h.start, hstore.trans h.store, hsb.trans h.sb, hproc.trans h.proc, fun l => ?_, fun l hl => ?_,
    fun l hl => ?_, fun l hl => ?_, fun l m hl hm heq => ?_⟩
  · by_cases hlj : l = j
    · rw [hlj, hself, href]
    · rw [hother l hlj, h.ref, hheld l hlj]
  · rcases eq_or_ne l j with rfl | hlj
    · rw [hself, hsame hl, h.same l hl]
    · rw [hother l hlj, h.same l hl]
  · by_cases hlj : l = j
    · rw [hlj, hself] at hl ⊢
      exact hcached hl
    · rw [hother l hlj] at hl ⊢
      exact h.cached l hl
  · by_cases hlj : l = j
    · rw [hlj, hself] at hl ⊢
      exact hbusy hl
    · rw [hother l hlj] at hl ⊢
      rw [hlk l hlj]
      exact h.busy l hl
  · by_cases hlj : l = j <;> by_cases hmj : m = j
    · rw [hlj, hmj]
    · rw [hlj, hself] at hl heq
      rw [hother m hmj] at hm heq
      exact absurd heq.symm (hinj hl m hmj hm)
    · rw [hmj, hself] at hm heq
      rw [hother l hlj] at hl heq
      exact absurd heq (hinj hm l hlj hl)
    · rw [hother l hlj] at hl heq
      rw [hother m hmj] at hm heq
      exact h.inj l m hl hm heq

/-- Entries other than `j` do not have its inode. -/
theorem inum_ne (h : Walk node owner s₀ lk held s) (hj : 0 < (s.inode j).ref) (l : ISlot) (hl : l ≠ j)
    (href : 0 < (s.inode l).ref) : (s.inode l).inum ≠ (s.inode j).inum := fun heq => hl (h.inj l j href hj heq)

theorem lt (h : Walk node owner s₀ lk held s) (hL : node X = .live L) : X < s.sb.ninodes := by
  by_contra hge
  have hout := h.start.disk.out X (by rw [← h.sb]; omega)
  rw [hL] at hout
  cases hout

/-- An entry in use, with the inode loaded. -/
theorem sits (h : Walk node owner s₀ lk held s) (hstore : s'.store = s.store) (hsb : s'.sb = s.sb)
    (hdev : (s'.inode i).dev = ROOTDEV) (hL : node (s'.inode i).inum = .live L) (hd : (s'.inode i).d = L.c) :
    Sits 0 node s' i (s'.inode i).inum L owner where
  sb_ok := by
    rw [hsb, h.sb]
    exact h.start.sb_ok
  disk := by
    have hblock : s'.block = s₀.block := by
      unfold State.block
      rw [hstore, h.store]
    rw [hsb, h.sb, hblock, ← hL, update_eq_self]
    exact h.start.disk
  free b := by
    rw [hstore, h.store]
    exact h.start.free b
  dev := hdev
  inum := rfl
  lt := by
    rw [hsb]
    exact h.lt hL
  d := hd

/-- An entry in use that is not locked. -/
theorem rests (h : Walk node owner s₀ none held s) (hi : 0 < (s.inode i).ref) (hL : node (s.inode i).inum = .live L) :
    Rests 0 node s i (s.inode i).inum L owner where
  sits := by
    have hload : (s.setInode i { s.inode i with d := L.c }).inode i = { s.inode i with d := L.c } := inode_setInode
    have hs : Sits 0 node (s.setInode i { s.inode i with d := L.c }) i _ L owner :=
      h.sits rfl rfl (by rw [hload]; exact (h.cached i hi).dev) (by rw [hload]; exact hL) (by rw [hload])
    rwa [hload] at hs
  ref := hi
  busy := by simpa using h.busy i hi
  cached hv := by
    obtain ⟨M, hM, hd⟩ := (h.cached i hi).live
    rw [hL] at hM
    cases hM
    exact hd hv
  synced _ := h.start.synced _ _ hL

/-- Another reference to an entry in use. -/
theorem again (h : Walk node owner s₀ lk held s) (hj : 0 < (s.inode j).ref) (hstore : s'.store = s.store)
    (hsb : s'.sb = s.sb) (hproc : s'.proc = s.proc)
    (hinode : s'.inode = Function.update s.inode j { s.inode j with ref := (s.inode j).ref + 1 }) :
    Walk node owner s₀ lk (j :: held) s' := by
  refine h.update hstore hsb hproc hinode (fun _ _ => Iff.rfl) (fun l hl => List.count_cons_of_ne (Ne.symm hl)) ?_
    (fun _ => rfl) (fun _ => ⟨(h.cached j hj).dev, (h.cached j hj).live⟩) (fun _ => h.busy j hj) fun _ => h.inum_ne hj
  have := h.ref j
  rw [List.count_cons_self]
  push_cast
  omega

theorem dropped (h : Walk node owner s₀ none held s) (hj : j ∈ held) :
    Walk node owner s₀ none (held.erase j) (s.dropped j) := by
  have hpos := h.ref_pos hj
  have href := h.ref j
  have hcount := List.count_pos_iff.2 hj
  have hself : ((held.erase j).count j : ℤ) = held.count j - 1 := by
    rw [List.count_erase_self]
    omega
  refine h.update rfl rfl rfl rfl (fun _ _ => Iff.rfl) (fun l hl => List.count_erase_of_ne hl) ?_ (fun _ => rfl)
    (fun _ => ⟨(h.cached j hpos).dev, (h.cached j hpos).live⟩) (fun _ => h.busy j hpos) fun _ => h.inum_ne hpos
  dsimp only
  omega

end Walk

variable [DecidableEq Pid] {p : Pid}

namespace Walk

theorem locked (h : Walk node owner s₀ none held s) (hi : 0 < (s.inode i).ref) (hL : node (s.inode i).inum = .live L) :
    Walk node owner s₀ (some i) held (s.locked p i L.c) :=
  h.update rfl rfl rfl rfl (fun l hl => by simp [Ne.symm hl]) (fun _ _ => rfl) (h.ref i) (fun _ => rfl)
    (fun _ => ⟨(h.cached i hi).dev, L, hL, fun _ => rfl⟩) (fun _ => by simp) fun _ => h.inum_ne hi

theorem unlocked (h : Walk node owner s₀ (some i) held s) (hi : 0 < (s.inode i).ref) :
    Walk node owner s₀ none held (s.unlocked p i) :=
  h.update rfl rfl rfl rfl (fun l hl => by simp [Ne.symm hl]) (fun _ _ => rfl) (h.ref i) (fun _ => rfl)
    (fun _ => ⟨(h.cached i hi).dev, (h.cached i hi).live⟩) (fun _ => by simp) fun _ => h.inum_ne hi

theorem gotten (h : Walk node owner s₀ lk held s) (hj : s.Gets ROOTDEV X j) (hL : node X = .live L)
    (hlk : ∀ l, lk = some l → 0 < (s.inode l).ref) :
    Walk node owner s₀ lk (j :: held) (s.gotten p ROOTDEV X j) := by
  rcases hj with ⟨hpos, -, -⟩ | ⟨hzero, hno⟩
  · have he : (s.inode j).gotten ROOTDEV X = { s.inode j with ref := (s.inode j).ref + 1 } := if_pos hpos
    exact h.again hpos rfl rfl rfl (by rw [← he, inode_gotten])
  · have he : (s.inode j).gotten ROOTDEV X =
        { s.inode j with dev := ROOTDEV, inum := X, ref := 1, busy := false, valid := false } := if_neg (by omega)
    have href := h.ref j
    have hbase := h.start.nonneg j
    have hnot : lk ≠ some j := fun hlj => by
      have := hlk j hlj
      omega
    refine h.update rfl rfl rfl (by rw [inode_gotten, he]) (fun _ _ => Iff.rfl)
      (fun l hl => List.count_cons_of_ne (Ne.symm hl)) ?_ (fun hpos => by omega)
      (fun _ => ⟨rfl, L, hL, fun hv => by cases hv⟩) (fun _ => by simp [hnot])
      fun _ l _ hl => hno l hl (h.cached l hl).dev
    rw [List.count_cons_self]
    push_cast
    omega

end Walk

end

/-- Inode `X` is allocated, and somebody has it in use if it has no links. -/
def Reached (node : ℕ → Body) (s : State Pid) (X : ℕ) : Prop :=
  ∃ L, node X = .live L ∧ (L.c.nlink = 0 → ∃ j, 0 < (s.inode j).ref ∧ (s.inode j).inum = X)

/-- There is a root, directories consist of entries, and their names are those of inodes. -/
structure Tree (node : ℕ → Body) (s : State Pid) : Prop where
  root : Reached node s ROOTINO
  entries : ∀ X data, dirOf node X = some data → data.length % DIRENT = 0
  bound : ∀ X data k inum off, dirOf node X = some data → Directory.bound data k = some (inum, off) →
    Reached node s inum

section

variable [DecidableEq Pid] {node : ℕ → Body} {owner : ℕ → Option (Loc Pid)} {s₀ s : State Pid}
  {lk : Option ISlot} {held : List ISlot} {i : ISlot} {L : Live} {p : Pid} {F : Fault → Prop}

omit [DecidableEq Pid] in
theorem Walk.idle_le (h : Walk node owner s₀ lk held s) : idle s₀ ≤ idle s + held.length := by
  have hsub : (Finset.univ.filter fun l : ISlot => (s₀.inode l).ref = 0) ⊆
      (Finset.univ.filter fun l : ISlot => (s.inode l).ref = 0) ∪ held.toFinset := by
    intro l hl
    rw [Finset.mem_union, Finset.mem_filter, List.mem_toFinset]
    by_cases hmem : l ∈ held
    · exact Or.inr hmem
    · refine Or.inl ⟨Finset.mem_univ l, ?_⟩
      rw [h.ref, (Finset.mem_filter.1 hl).2, List.count_eq_zero_of_not_mem hmem]
      rfl
  calc idle s₀ ≤ _ := Finset.card_le_card hsub
    _ ≤ _ := Finset.card_union_le ..
    _ ≤ _ := Nat.add_le_add_left (List.toFinset_card_le held) _

/-- `iput` never frees an inode on the way. -/
theorem Walk.run_iput (h : Walk node owner s₀ none held s) (hi : i ∈ held) (hr : Reached node s₀ (s.inode i).inum) :
    (iput p i).run s = .ok () (s.dropped i) := by
  refine Fs.run_iput ?_
  rintro ⟨hone, hvalid, hlinks⟩
  obtain ⟨M, hM, hd⟩ := (h.cached i (h.ref_pos hi)).live
  obtain ⟨L, hL, huse⟩ := hr
  obtain rfl : L = M := by
    rw [hL] at hM
    cases hM
    rfl
  -- the entry that somebody else has in use is this one
  rw [hd hvalid] at hlinks
  obtain ⟨j, hj, hinum⟩ := huse hlinks
  have hjpos : 0 < (s.inode j).ref := by
    rw [h.ref]
    omega
  obtain rfl : j = i := h.inj j i hjpos (h.ref_pos hi) ((h.same j hj).trans hinum)
  have := h.ref j
  have := List.count_pos_iff.2 hi
  omega

theorem inum_unlocked {j : ISlot} : ((s.unlocked p i).inode j).inum = (s.inode j).inum := by
  by_cases hj : j = i
  · rw [hj]
    simp [State.unlocked]
  · simp [State.unlocked, State.setInode, hj]

omit [DecidableEq Pid] in
theorem inum_dropped {j : ISlot} : ((s.dropped i).inode j).inum = (s.inode j).inum := by
  by_cases hj : j = i
  · rw [hj]
    simp [State.dropped]
  · simp [State.dropped, State.setInode, hj]

theorem Walk.ends_iunlockput {Q : Unit → State Pid → Prop} (h : Walk node owner s₀ (some i) held s) (hi : i ∈ held)
    (hr : Reached node s₀ (s.inode i).inum)
    (hQ : ∀ s', Walk node owner s₀ none (held.erase i) s' →
      (∀ j, (s'.inode j).inum = (s.inode j).inum) → Q () s') :
    (iunlockput p i).Ends F s Q := by
  have hpos := h.ref_pos hi
  have hun := h.unlocked (p := p) hpos
  refine Ends.bind (Ends.of_run (run_iunlock hpos ((h.busy i hpos).2 rfl)) ?_)
  refine Ends.of_run (hun.run_iput hi (by rwa [inum_unlocked])) (hQ _ (hun.dropped hi) fun j => ?_)
  rw [inum_dropped, inum_unlocked]

theorem Walk.ends_ilock {Q : Unit → State Pid → Prop} (h : Walk node owner s₀ none held s) (hi : i ∈ held)
    (hL : node (s.inode i).inum = .live L)
    (hQ : ∀ s', Walk node owner s₀ (some i) held s' → (s'.inode i).inum = (s.inode i).inum → (s'.inode i).d = L.c →
      Q () s') : (ilock p i).Ends F s Q := by
  have hpos := h.ref_pos hi
  refine Ends.of_run (h.rests hpos hL).run_ilock (hQ _ (h.locked hpos hL) ?_ ?_)
  · simp [State.locked]
  · simp [State.locked]

/-- `dirlookup` in the directory that is locked. -/
theorem Walk.ends_dirlookup {name : List UInt8} {Q : Option (ISlot × ℕ) → State Pid → Prop}
    (h : Walk node owner s₀ (some i) held s) (hi : i ∈ held) (htree : Tree node s₀)
    (hL : node (s.inode i).inum = .live L) (hd : (s.inode i).d = L.c) (ht : L.c.type = T_DIR)
    (hF : idle s₀ ≤ held.length → F noInodes)
    (hnone : lookupIn node (s.inode i).inum name = none → Q none s)
    (hsome : ∀ Y off j s', lookupIn node (s.inode i).inum name = some Y → Reached node s₀ Y →
      Walk node owner s₀ (some i) (j :: held) s' → (s'.inode i).inum = (s.inode i).inum → (s'.inode j).inum = Y →
      Q (some (j, off)) s') :
    (dirlookup p i name).Ends F s Q := by
  have hpos := h.ref_pos hi
  have hidle := h.idle_le
  have hdir : dirOf node (s.inode i).inum = some L.node.data := by rw [dirOf_live hL, if_pos ht]
  have hlook : lookupIn node (s.inode i).inum name =
      (Directory.bound L.node.data (Directory.key name)).map Prod.fst := by
    rw [lookupIn, hdir, Option.bind_some]
  have hkept : Kept 0 node s i (s.inode i).inum L owner :=
    ⟨h.sits rfl rfl (h.cached i hpos).dev hL hd, hpos⟩
  refine hkept.ends_dirlookup ht (htree.entries _ _ hdir) (fun hz => hF (by omega)) (fun hb => hnone ?_)
    fun Y off hb j hj => ?_
  · rw [hlook, hb]
    rfl
  · obtain ⟨M, hM, huse⟩ := htree.bound _ _ _ _ _ hdir hb
    have hwalk := h.gotten (p := p) hj hM fun l hl => by
      obtain rfl := Option.some.inj hl
      exact hpos
    refine hsome Y off j _ (by rw [hlook, hb]; rfl) ⟨M, hM, huse⟩ hwalk (hkept.gotten hj).inum ?_
    rw [inode_gotten, update_self]
    exact hj.entry.2.1

/-- What `namex` returns: in the state `s`, an entry with the inode at the end of the path, or with its parent. -/
def Answers (node : ℕ → Body) (parent : Bool) (X : ℕ) (names : List (List UInt8)) (s : State Pid)
    (r : Option (ISlot × List UInt8)) : Prop :=
  if parent then (r.map fun r => ((s.inode r.1).inum, r.2)) = resolveParent node X names
  else (r.map fun r => (s.inode r.1).inum) = resolve node X names

section

variable {parent : Bool} {X : ℕ} {name : List UInt8} {names : List (List UInt8)}

section

omit [DecidableEq Pid]

theorem Answers.of_step (hne : parent = true → names ≠ []) {r : Option (ISlot × List UInt8)} {Y : ℕ}
    (hY : lookupIn node X name = some Y) (h : Answers node parent Y names s r) :
    Answers node parent X (name :: names) s r := by
  cases parent with
  | false =>
    rw [Answers, resolve_cons, hY]
    exact h
  | true =>
    rw [Answers, resolveParent_cons (hne rfl), hY]
    exact h

theorem Answers.of_lookup_none (hne : parent = true → names ≠ []) (hX : lookupIn node X name = none) :
    Answers node parent X (name :: names) s none := by
  cases parent with
  | false =>
    rw [Answers, resolve_cons, hX]
    rfl
  | true =>
    rw [Answers, resolveParent_cons (hne rfl), hX]
    rfl

theorem Answers.of_dirOf_none (hX : dirOf node X = none) : Answers node parent X (name :: names) s none := by
  have hlook : lookupIn node X name = none := by rw [lookupIn, hX, Option.bind_none]
  by_cases hnames : parent = true ∧ names = []
  · rw [hnames.1, hnames.2, Answers, resolveParent_singleton, hX]
    rfl
  · exact .of_lookup_none (fun hp hn => hnames ⟨hp, hn⟩) hlook

end

end

/-- The loop of `namex`, from the entry `i` to which it has a reference. -/
theorem Walk.ends_namexFrom {parent : Bool} {fuel : ℕ} {path name : List UInt8}
    {Q : Option (ISlot × List UInt8) → State Pid → Prop} (h : Walk node owner s₀ none [i] s) (htree : Tree node s₀)
    (hr : Reached node s₀ (s.inode i).inum) (hfuel : path.length < fuel) (hF : idle s₀ < 2 → F noInodes)
    (hQ : ∀ r s', Walk node owner s₀ none (r.toList.map Prod.fst) s' →
      Answers node parent (s.inode i).inum (components path) s' r → Q r s') :
    (namexFrom p parent fuel i path name).Ends F s Q := by
  induction fuel generalizing s i path name Q with
  | zero => omega
  | succ fuel ih =>
    have hi : i ∈ [i] := List.mem_singleton_self i
    have hempty : [i].erase i = [] := List.erase_cons_head ..
    obtain ⟨L, hL, huse⟩ := hr
    rw [namexFrom]
    cases helem : skipelem path with
    | none =>
      rw [components_of_skipelem_none helem] at hQ
      cases parent with
      | true =>
        have hdone := h.dropped hi
        rw [hempty] at hdone
        exact Ends.bind (Ends.of_run (h.run_iput hi ⟨L, hL, huse⟩) (ends_pure (hQ none _ hdone rfl)))
      | false => exact ends_pure (hQ (some (i, name)) s h rfl)
    | some elem =>
      obtain ⟨elem, rest⟩ := elem
      obtain ⟨hcomp, hlen, hrest⟩ := components_of_skipelem helem
      rw [hcomp] at hQ
      refine Ends.bind (h.ends_ilock hi hL fun s₁ h₁ hinum hd => Ends.bind (ends_reads ?_))
      rw [hd]
      rw [← hinum] at hQ hL
      have hr₁ : Reached node s₀ (s₁.inode i).inum := ⟨L, hL, by rwa [hinum]⟩
      -- the way out when there is no such name
      have hfail : Answers node parent (s₁.inode i).inum (elem :: components rest) s₁ none →
          (do
            iunlockput p i
            pure none : Prog (State Pid) (Option (ISlot × List UInt8))).Ends F s₁ Q := by
        intro hans
        refine Ends.bind (h₁.ends_iunlockput hi hr₁ fun s₂ h₂ _ => ends_pure (hQ none s₂ ?_ hans))
        rwa [hempty] at h₂
      by_cases ht : L.c.type = T_DIR
      · rw [if_neg (not_not.2 ht)]
        by_cases hlast : parent = true ∧ rest = []
        · obtain ⟨rfl, rfl⟩ := hlast
          have hpos := h₁.ref_pos hi
          rw [if_pos ⟨rfl, rfl⟩]
          refine Ends.bind (Ends.of_run (run_iunlock hpos ((h₁.busy i hpos).2 rfl)) (ends_pure ?_))
          refine hQ (some (i, elem)) _ (h₁.unlocked hpos) ?_
          rw [Answers, if_pos rfl, components_nil, resolveParent_singleton, dirOf_live hL, if_pos ht, Option.map_some,
            Option.map_some, inum_unlocked]
        · have hmore : parent = true → components rest ≠ [] := fun hp hn => hlast ⟨hp, hrest hn⟩
          rw [if_neg hlast]
          refine Ends.bind (h₁.ends_dirlookup hi htree hL hd ht (fun hle => hF ?_) (fun hnone => ?_)
            fun Y off j s₂ hY hrY h₂ hi₂ hj₂ => ?_)
          · rw [List.length_singleton] at hle
            omega
          · exact hfail (.of_lookup_none hmore hnone)
          · have hswap : (j :: [i]).erase i = [j] := by
              by_cases hji : j = i
              · rw [hji, List.erase_cons_head]
              · rw [List.erase_cons_tail (by simpa using hji), hempty]
            refine Ends.bind (h₂.ends_iunlockput (List.mem_cons_of_mem j hi) (by rwa [hi₂]) fun s₃ h₃ hinum₃ => ?_)
            rw [hswap] at h₃
            refine ih h₃ (by rwa [hinum₃, hj₂]) (by omega) fun r s₄ h₄ hans => hQ r s₄ h₄ (.of_step hmore hY ?_)
            rwa [hinum₃, hj₂] at hans
      · rw [if_pos ht]
        exact hfail (.of_dirOf_none (by rw [dirOf_live hL, if_neg ht]))

/-- Where `namex` starts: at the root, or in the current directory `c`. -/
def startOf (s : State Pid) (c : ISlot) (path : List UInt8) : ℕ :=
  if path.head? = some slash then ROOTINO else (s.inode c).inum

theorem Calm.ends_namex {parent : Bool} {c : ISlot} {path : List UInt8}
    {Q : Option (ISlot × List UInt8) → State Pid → Prop} (h : Calm node owner s) (htree : Tree node s)
    (hcwd : (s.proc p).cwd = some c) (hc : 0 < (s.inode c).ref) (hF : idle s < 2 → F noInodes)
    (hQ : ∀ r s', Walk node owner s none (r.toList.map Prod.fst) s' →
      Answers node parent (startOf s c path) (components path) s' r → Q r s') :
    (namex p parent path).Ends F s Q := by
  rw [namex]
  by_cases hslash : path.head? = some slash
  · have hstart : startOf s c path = ROOTINO := if_pos hslash
    rw [hstart] at hQ
    rw [if_pos hslash]
    refine Ends.bind (ends_iget (fun hz => hF (by omega)) fun j hj => ?_)
    obtain ⟨L, hL, huse⟩ := htree.root
    have hinum : ((s.gotten p ROOTDEV ROOTINO j).inode j).inum = ROOTINO := by
      rw [inode_gotten, update_self]
      exact hj.entry.2.1
    refine (h.walk.gotten hj hL fun l hl => by cases hl).ends_namexFrom htree (by rw [hinum]; exact ⟨L, hL, huse⟩)
      (Nat.lt_succ_self _) hF fun r s' h' hans => hQ r s' h' ?_
    rwa [hinum] at hans
  · have hstart : startOf s c path = (s.inode c).inum := if_neg hslash
    rw [hstart] at hQ
    rw [if_neg hslash]
    refine Ends.bind (ends_reads ?_)
    rw [hcwd]
    obtain ⟨L, hL, -⟩ := (h.cached c hc).live
    have hdup : Walk node owner s none [c] (s.setInode c { s.inode c with ref := (s.inode c).ref + 1 }) :=
      h.walk.again hc rfl rfl rfl rfl
    have hinum : ((s.setInode c { s.inode c with ref := (s.inode c).ref + 1 }).inode c).inum = (s.inode c).inum := by
      rw [inode_setInode]
    refine Ends.bind (ends_atomic (hdup.ends_namexFrom htree ?_ (Nat.lt_succ_self _) hF fun r s' h' hans => hQ r s' h' ?_))
    · rw [hinum]
      exact ⟨L, hL, fun _ => ⟨c, hc, rfl⟩⟩
    · rwa [hinum] at hans

/-- Look the last name of a path up in the directory that `nameiparent` has returned, as `create` and
`sys_unlink` do; the result has the i-number. -/
def lookupParent (p : Pid) (path : List UInt8) : Prog (State Pid) (Option (Option ℕ)) := do
  match ← nameiparent p path with
  | none => pure none
  | some (dp, name) => do
    ilock p dp
    let r ← dirlookup p dp name
    let inum ← Prog.reads fun s : State Pid => r.map fun r => (s.inode r.1).inum
    pure (some inum)

end

section

/-- The one inode of the small disk. -/
theorem smallDir_live {X : ℕ} {L : Live}
    (h : update (fun _ => Body.free) 1 (.live (smallLive T_DIR)) X = .live L) : X = 1 ∧ L = smallLive T_DIR := by
  by_cases hX : X = 1
  · rw [hX, update_self] at h
    exact ⟨hX, (Body.live.inj h).symm⟩
  · rw [update_of_ne hX] at h
    cases h

theorem smallDir_ref {j : ISlot} (h : 0 < (Directory.smallDir.inode j).ref) : j = 0 := by
  by_contra hj
  simp [Directory.smallDir, hj] at h

theorem smallDir_calm : Calm (update (fun _ => .free) 1 (.live (smallLive T_DIR))) (fun _ => none)
    Directory.smallDir where
  sb_ok := smallSb_ok
  disk := small_disk (by decide)
  free _ := rfl
  synced X L h := by
    rw [(smallDir_live h).2]
    rfl
  nonneg j := by
    simp only [Directory.smallDir]
    split_ifs <;> decide
  cached j _ := ⟨rfl, smallLive T_DIR, update_self .., fun _ => rfl⟩
  busy _ _ := rfl
  inj j l hj hl _ := by rw [smallDir_ref hj, smallDir_ref hl]

theorem smallDir_tree : Tree (update (fun _ => .free) 1 (.live (smallLive T_DIR))) Directory.smallDir := by
  have hempty : ∀ X data, dirOf (update (fun _ => .free) 1 (.live (smallLive T_DIR))) X = some data →
      data = [] := by
    intro X data h
    obtain ⟨L, hL, ht⟩ := exists_of_dirOf h
    rw [dirOf_live hL, if_pos ht, (smallDir_live hL).2] at h
    exact (Option.some.inj h).symm
  refine ⟨⟨smallLive T_DIR, update_self .., fun _ => ⟨0, by decide, rfl⟩⟩, fun X data h => ?_,
    fun X data k inum off h hb => ?_⟩
  · rw [hempty X data h]
    rfl
  · rw [hempty X data h] at hb
    cases hb

end

end Xv6.Fs
