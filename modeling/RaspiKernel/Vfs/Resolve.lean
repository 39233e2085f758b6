import RaspiKernel.Vfs.PathBuf

/-!
# Component-wise resolution

`vfs_lookup` with its buffer: the characters of a component are written one by one
to `path[]`, which is terminated where a slash or the end of the path name comes
and is written over from its first byte again behind that. What is left of an
earlier component stays behind the NUL.

A path name is spelled by its components. Resolving it takes one component after
the other: the first child with the name, and the root of what is mounted there.

Results:
* `resolve_eq`: the buffer holds the component that `RaspiKernel.Vfs.Lookup`
  collects in a list.
* `walk_eq_some`: a walk resolves one component after the other.
* `vfsLookup_resolves`: so does `vfs_lookup`, and it leaves `*target` if it fails.
-/

namespace RaspiKernel.Vfs

open Lib

/-! ## The model -/

/-- `tmpfs_lookup` (`tmpfs.c`, lines 142–164). -/
def tmpfsLookup : State → ℕ → Str → Option ℕ := lookup

/-- `initramfs_lookup` (`initramfs.c`, lines 137–157). -/
def initramfsLookup : State → ℕ → Str → Option ℕ := lookup

/-- `fat32_lookup` (`fat32.c`, lines 188–210). -/
def fat32Lookup : State → ℕ → Str → Option ℕ := lookup

/-- `dir->v_ops->lookup(dir, &dir, name)`. -/
def vopsLookup (σ : State) (dir : ℕ) (name : Str) : Option ℕ :=
  match (σ.node dir).fs with
  | .tmpfs => tmpfsLookup σ dir name
  | .initramfs => initramfsLookup σ dir name
  | .fat32 => fat32Lookup σ dir name

/-- `path[idx] = '\0';` and the lookup of the string in `path[]` (lines 87–88 and 104–105). -/
def lookupPath (σ : State) (dir : ℕ) (path : Mem) (idx : ℤ) : Except BufStop (Mem × Option ℕ) := do
  let path ← putChar path idx 0
  match Boot.readStr path maxPathLen 0 with
  | none => .error .overrun
  | some name => .ok (path, vopsLookup σ dir name)

/-- The loop of `vfs_lookup` and what follows it (lines 85–115), on the rest of the path name, `dir`,
    `path[]` and `idx`: the vnode that is found. -/
def resolve (σ : State) : Str → ℕ → Mem → ℤ → Except BufStop (Option ℕ)
  | [], dir, path, idx => do
    let (_, found) ← lookupPath σ dir path idx
    .ok (found.map (redirect σ))
  | c :: rest, dir, path, idx =>
    if c = slash then do
      let (path, found) ← lookupPath σ dir path idx
      match found with
      | none => .ok none
      | some v => resolve σ rest (redirect σ v) path 0
    else do
      let path ← putChar path idx c
      resolve σ rest dir path (idx + 1)

/-- `vfs_lookup` (lines 74–116): the returned `int` and `*target`. -/
def vfsLookupInto (σ : State) (pathname : Str) (target : ℕ) : Except BufStop (ℕ × ℕ) :=
  if pathname.length = 0 ∨ (pathname.length = 1 ∧ pathname.getD 0 0 = slash) then .ok (1, σ.root)
  else do
    match ← resolve σ (pathname.drop 1) σ.root (fun _ => 0) 0 with
    | none => .ok (0, target)
    | some v => .ok (1, v)

variable {σ : State} {d v w : ℕ} {n : Str} {cs : List Str}

/-! ## The buffer -/

theorem vopsLookup_eq (σ : State) (dir : ℕ) (name : Str) : vopsLookup σ dir name = lookup σ dir name := by
  unfold vopsLookup
  cases (σ.node dir).fs <;> rfl

/-- The component that the buffer holds is looked up. -/
theorem lookupPath_eq {path : Mem} {s : Str} (h : Holds path 0 s) (hs : 0 ∉ s)
    (hlen : s.length < maxPathLen) (dir : ℕ) :
    ∃ path', lookupPath σ dir path s.length = .ok (path', lookup σ dir s) := by
  obtain ⟨hput, hholds⟩ := putChar_of_holds h hlen 0
  refine ⟨Function.update path s.length 0, ?_⟩
  rw [lookupPath, hput]
  dsimp only [bind, Except.bind]
  rw [readStr_of_holds hholds hs hlen]
  dsimp only
  rw [vopsLookup_eq]

/-- What has been collected of a component and the rest of the path name fit in the buffer. -/
def Fits (s rest : Str) : Prop :=
  ∀ p ∈ (rest.splitOn slash).modifyHead (s ++ ·), p.length < maxPathLen ∧ 0 ∉ p

theorem fits_nil {s : Str} : Fits s [] ↔ s.length < maxPathLen ∧ 0 ∉ s := by
  have h : ([] : Str).splitOn slash = [[]] := rfl
  simp [Fits, h]

theorem fits_slash {s rest : Str} :
    Fits s (slash :: rest) ↔ (s.length < maxPathLen ∧ 0 ∉ s) ∧ Fits [] rest := by
  unfold Fits
  rw [splitOn_cons_slash, List.modifyHead_cons, List.append_nil, List.forall_mem_cons,
    modifyHead_nil_append]

theorem fits_char {c : UInt8} (hc : c ≠ slash) {s rest : Str} :
    Fits s (c :: rest) ↔ Fits (s ++ [c]) rest := by
  have hfun : ((s ++ ·) ∘ (c :: ·) : Str → Str) = ((s ++ [c]) ++ ·) := by
    funext t
    simp
  unfold Fits
  rw [splitOn_cons_of_ne hc, List.modifyHead_modifyHead, hfun]

theorem Fits.length_lt {s rest : Str} (h : Fits s rest) : s.length < maxPathLen := by
  cases hsplit : rest.splitOn slash with
  | nil => exact absurd hsplit (List.splitOnP_ne_nil _ _)
  | cons p ps =>
    have hp := (h (s ++ p) (by simp [hsplit])).1
    rw [List.length_append] at hp
    omega

/-- The buffer holds the component that has been collected. -/
theorem resolve_eq (rest : Str) {s : Str} {path : Mem} (hpath : Holds path 0 s) (hfits : Fits s rest) :
    resolve σ rest d path s.length = .ok (lookupChars σ rest d s) := by
  induction rest generalizing d s path with
  | nil =>
    obtain ⟨hlen, hs⟩ := fits_nil.mp hfits
    obtain ⟨path', hlookup⟩ := lookupPath_eq (σ := σ) hpath hs hlen d
    rw [resolve, hlookup, lookupChars]
    rfl
  | cons c rest ih =>
    rw [resolve, lookupChars]
    by_cases hc : c = slash
    · subst hc
      obtain ⟨⟨hlen, hs⟩, hrest⟩ := fits_slash.mp hfits
      obtain ⟨path', hlookup⟩ := lookupPath_eq (σ := σ) hpath hs hlen d
      rw [if_pos rfl, if_pos rfl, hlookup]
      dsimp only [bind, Except.bind]
      cases lookup σ d s with
      | none => rfl
      | some v => exact ih (s := []) trivial hrest
    · obtain ⟨hput, hholds⟩ := putChar_of_holds hpath hfits.length_lt c
      rw [if_neg hc, if_neg hc, hput]
      have hnext := ih (d := d) hholds ((fits_char hc).mp hfits)
      rw [List.length_append, List.length_singleton, Nat.cast_add, Nat.cast_one] at hnext
      exact hnext

/-! ## Components -/

/-- A component of a path name: a string that is not empty, has no slash and fits in `path[]`. -/
structure Component where
  name : Str
  ne_nil : name ≠ []
  slash_notMem : slash ∉ name
  nul_notMem : 0 ∉ name
  length_lt : name.length < maxPathLen

/-- `/c₁/c₂/…/cₙ`, and `/` without a component. -/
def pathOf (cs : List Component) : Str :=
  if cs = [] then [slash] else cs.flatMap fun c => slash :: c.name

theorem splitOn_append_slash (hn : slash ∉ n) (rest : Str) :
    (n ++ slash :: rest).splitOn slash = n :: rest.splitOn slash := by
  induction n with
  | nil => exact splitOn_cons_slash rest
  | cons c n ih =>
    rw [List.mem_cons, not_or] at hn
    rw [List.cons_append, splitOn_cons_of_ne (Ne.symm hn.1), ih hn.2, List.modifyHead_cons]

/-- The components of the path name that they spell. -/
theorem components_pathOf (cs : List Component) : components (pathOf cs) = cs.map Component.name := by
  cases cs with
  | nil => rfl
  | cons c cs =>
    have hsplit : ∀ (c : Component) (cs : List Component),
        (c.name ++ cs.flatMap fun c => slash :: c.name).splitOn slash =
          (c :: cs).map Component.name := by
      intro c cs
      induction cs generalizing c with
      | nil => simpa using splitOn_of_notMem c.slash_notMem
      | cons c' cs ih =>
        rw [List.flatMap_cons, List.cons_append, splitOn_append_slash c.slash_notMem, ih c']
        rfl
    have hlen : ¬ ((pathOf (c :: cs)).length = 0 ∨
        ((pathOf (c :: cs)).length = 1 ∧ (pathOf (c :: cs)).getD 0 0 = slash)) := by
      have := List.length_pos_iff.mpr c.ne_nil
      rw [pathOf, if_neg (List.cons_ne_nil c cs), List.flatMap_cons]
      simp only [List.length_append, List.length_cons]
      omega
    rw [components, if_neg hlen]
    exact hsplit c cs

/-! ## Resolution -/

/-- The childs of a directory, which are those before the first NULL of `childs[]`. -/
def childList (σ : State) (d : ℕ) : List ℕ :=
  (((List.range maxDirNum).map (σ.node d).childs).takeWhile Option.isSome).reduceOption

/-- `v` is the first child of directory `d` with the name. -/
def FirstChild (σ : State) (d : ℕ) (n : Str) (v : ℕ) : Prop :=
  (childList σ d).find? (fun x => (σ.node x).name = n) = some v

/-- From directory `d`, one component after the other leads to a child, or to the root of what is
    mounted there. -/
inductive Resolves (σ : State) : ℕ → List Str → ℕ → Prop
  | here (d : ℕ) : Resolves σ d [] d
  | child {d v w : ℕ} {n : Str} {cs : List Str} (h : FirstChild σ d n v)
      (hrest : Resolves σ (redirect σ v) cs w) : Resolves σ d (n :: cs) w

theorem lookupLoop_eq_find (k idx : ℕ) : lookupLoop σ d n k idx =
    (((List.range' idx k).map (σ.node d).childs).takeWhile Option.isSome).reduceOption.find?
      (fun x => (σ.node x).name = n) := by
  induction k generalizing idx with
  | zero => rfl
  | succ k ih =>
    rw [lookupLoop, List.range'_succ, List.map_cons]
    cases hx : (σ.node d).childs idx with
    | none => rfl
    | some x =>
      rw [List.takeWhile_cons_of_pos rfl, List.reduceOption_cons_of_some, List.find?_cons]
      by_cases hn : n = (σ.node x).name
      · simp [hn]
      · simp [hn, Ne.symm hn, ih]

theorem lookup_eq_some_iff : lookup σ d n = some v ↔ FirstChild σ d n v := by
  rw [lookup, lookupLoop_eq_find, FirstChild, childList, List.range_eq_range']

/-- A walk resolves one component after the other. -/
theorem walk_eq_some : walk σ d cs = some w ↔ Resolves σ d cs w := by
  induction cs generalizing d with
  | nil =>
    constructor
    · rintro ⟨rfl⟩
      exact .here _
    · rintro ⟨⟩
      rfl
  | cons n cs ih =>
    rw [walk_cons, Option.bind_eq_some_iff]
    constructor
    · rintro ⟨v, hv, hw⟩
      exact .child (lookup_eq_some_iff.mp hv) (ih.mp hw)
    · rintro ⟨⟩
      next v hv hw => exact ⟨v, lookup_eq_some_iff.mpr hv, ih.mpr hw⟩

/-- On a path name whose components fit in `path[]`, the buffer makes no difference. -/
theorem vfsLookupInto_eq (cs : List Component) (target : ℕ) :
    vfsLookupInto σ (pathOf cs) target =
      .ok (match walk σ σ.root (cs.map Component.name) with
        | none => (0, target)
        | some v => (1, v)) := by
  rw [← components_pathOf, ← vfsLookup_eq, vfsLookupInto, vfsLookup]
  split
  · rfl
  · next hlen =>
    have hcomp : components (pathOf cs) = ((pathOf cs).drop 1).splitOn slash := by
      rw [components, if_neg hlen]
    have hfits : Fits [] ((pathOf cs).drop 1) := by
      intro p hp
      rw [modifyHead_nil_append, ← hcomp, components_pathOf, List.mem_map] at hp
      obtain ⟨c, -, rfl⟩ := hp
      exact ⟨c.length_lt, c.nul_notMem⟩
    have hzero : Holds (fun _ => 0) 0 [] := trivial
    have hres := resolve_eq (σ := σ) (d := σ.root) _ hzero hfits
    rw [List.length_nil, Nat.cast_zero] at hres
    rw [hres]
    dsimp only [bind, Except.bind]
    cases lookupChars σ ((pathOf cs).drop 1) σ.root [] <;> rfl

/-- `vfs_lookup` of a path name finds what its components lead to, each the first child with the name and
    then the root of what is mounted there. If there is no such vnode it returns 0 and leaves
    `*target`. -/
theorem vfsLookup_resolves (σ : State) (cs : List Component) (target : ℕ) :
    (∃ v, Resolves σ σ.root (cs.map Component.name) v ∧
      vfsLookupInto σ (pathOf cs) target = .ok (1, v)) ∨
    ((¬ ∃ v, Resolves σ σ.root (cs.map Component.name) v) ∧
      vfsLookupInto σ (pathOf cs) target = .ok (0, target)) := by
  rw [vfsLookupInto_eq]
  cases hwalk : walk σ σ.root (cs.map Component.name) with
  | none =>
    refine Or.inr ⟨?_, rfl⟩
    rintro ⟨v, hv⟩
    rw [walk_eq_some.mpr hv] at hwalk
    cases hwalk
  | some v => exact Or.inl ⟨v, walk_eq_some.mp hwalk, rfl⟩

end RaspiKernel.Vfs
