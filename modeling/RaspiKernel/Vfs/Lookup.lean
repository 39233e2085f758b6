import Mathlib.Data.List.Basic
import RaspiKernel.Vfs.Basic

/-!
# Path lookup

`vfs_lookup` collects the characters of a component in a buffer. Here a path
name is the list of its components, and a lookup is a walk over them, which
follows a mount behind each.

Results:
* `lookup_eq_some`: `lookup` finds the first child with the name.
* `vfsLookup_eq`: `vfs_lookup` is the walk over the components.
* `walk_snoc`: the last component of a walk.
* `components_child`: the path name of an entry of a directory.
-/

namespace RaspiKernel.Vfs

variable {σ σ' : State} {d e v x : ℕ} {n : Str} {cs : List Str}

/-! ## One component -/

theorem lookupLoop_eq_some {k idx : ℕ} :
    lookupLoop σ d n k idx = some v ↔
      ∃ i, idx ≤ i ∧ i < idx + k ∧ (σ.node d).childs i = some v ∧ (σ.node v).name = n ∧
        ∀ j, idx ≤ j → j < i → ∃ w, (σ.node d).childs j = some w ∧ (σ.node w).name ≠ n := by
  induction k generalizing idx with
  | zero =>
    simp only [lookupLoop, reduceCtorEq, false_iff]
    rintro ⟨i, h₁, h₂, -⟩
    omega
  | succ k ih =>
    rw [lookupLoop]
    cases hidx : (σ.node d).childs idx with
    | none =>
      simp only [reduceCtorEq, false_iff]
      rintro ⟨i, h₁, h₂, hi, -, hlt⟩
      rcases h₁.eq_or_lt with rfl | h₁
      · simp [hidx] at hi
      · obtain ⟨w, hw, -⟩ := hlt idx le_rfl h₁
        simp [hidx] at hw
    | some w =>
      by_cases hn : n = (σ.node w).name
      · simp only [if_pos hn]
        constructor
        · rintro ⟨rfl⟩
          exact ⟨idx, le_rfl, by omega, hidx, hn.symm, fun j h₁ h₂ => by omega⟩
        · rintro ⟨i, h₁, h₂, hi, -, hlt⟩
          rcases h₁.eq_or_lt with rfl | h₁
          · rwa [← hidx]
          · obtain ⟨w', hw', hne⟩ := hlt idx le_rfl h₁
            rw [hidx] at hw'
            cases hw'
            exact absurd hn.symm hne
      · simp only [if_neg hn, ih]
        constructor
        · rintro ⟨i, h₁, h₂, hi, hname, hlt⟩
          refine ⟨i, by omega, by omega, hi, hname, ?_⟩
          intro j h₃ h₄
          rcases h₃.eq_or_lt with rfl | h₃
          · exact ⟨w, hidx, fun h => hn h.symm⟩
          · exact hlt j h₃ h₄
        · rintro ⟨i, h₁, h₂, hi, hname, hlt⟩
          rcases h₁.eq_or_lt with rfl | h₁
          · rw [hidx] at hi
            cases hi
            exact absurd hname.symm hn
          · exact ⟨i, h₁, by omega, hi, hname, fun j h₃ h₄ => hlt j (by omega) h₄⟩

/-- `lookup` finds the first child with the name, as long as no index before it is free. -/
theorem lookup_eq_some :
    lookup σ d n = some v ↔
      ∃ i < maxDirNum, (σ.node d).childs i = some v ∧ (σ.node v).name = n ∧
        ∀ j < i, ∃ w, (σ.node d).childs j = some w ∧ (σ.node w).name ≠ n := by
  rw [lookup, lookupLoop_eq_some]
  constructor
  · rintro ⟨i, -, h, hi, hname, hlt⟩
    exact ⟨i, by omega, hi, hname, fun j hj => hlt j (Nat.zero_le j) hj⟩
  · rintro ⟨i, h, hi, hname, hlt⟩
    exact ⟨i, Nat.zero_le i, by omega, hi, hname, fun j _ hj => hlt j hj⟩

/-- A lookup depends on the childs of the directory and their names only. -/
theorem lookup_congr (hchilds : (σ'.node d).childs = (σ.node d).childs)
    (hname : ∀ i v, (σ.node d).childs i = some v → (σ'.node v).name = (σ.node v).name) :
    lookup σ' d n = lookup σ d n := by
  have hiff : ∀ v, lookup σ' d n = some v ↔ lookup σ d n = some v := by
    intro v
    simp only [lookup_eq_some, hchilds]
    constructor
    · rintro ⟨i, hi, hv, hn, hlt⟩
      refine ⟨i, hi, hv, by rwa [← hname i v hv], ?_⟩
      intro j hj
      obtain ⟨w, hw, hne⟩ := hlt j hj
      exact ⟨w, hw, by rwa [← hname j w hw]⟩
    · rintro ⟨i, hi, hv, hn, hlt⟩
      refine ⟨i, hi, hv, by rwa [hname i v hv], ?_⟩
      intro j hj
      obtain ⟨w, hw, hne⟩ := hlt j hj
      exact ⟨w, hw, by rwa [hname j w hw]⟩
  exact Option.ext hiff

/-- The free index that `create` and `mkdir` take. -/
theorem freeIdx_eq_some {i : ℕ} :
    freeIdx σ d = some i ↔
      i < maxDirNum ∧ (σ.node d).childs i = none ∧ ∀ j < i, (σ.node d).childs j ≠ none := by
  unfold freeIdx
  rw [List.find?_range_eq_some]
  simp only [List.mem_range, Option.isNone_iff_eq_none, Bool.not_eq_true', ne_eq,
    ← Option.not_isSome_iff_eq_none, Option.isNone_eq_false_iff, not_not]
  tauto

/-! ## Components -/

/-- The components of a path name. The first character is not looked at. -/
def components (path : Str) : List Str :=
  if path.length = 0 ∨ (path.length = 1 ∧ path.getD 0 0 = slash) then []
  else (path.drop 1).splitOn slash

/-- The walk over components that begins at a directory. -/
def walk (σ : State) : ℕ → List Str → Option ℕ
  | d, [] => some d
  | d, n :: ns => (lookup σ d n).bind fun v => walk σ (redirect σ v) ns

@[simp] theorem walk_nil : walk σ d [] = some d := rfl

theorem walk_cons : walk σ d (n :: cs) = (lookup σ d n).bind fun v => walk σ (redirect σ v) cs :=
  rfl

theorem walk_append (cs cs' : List Str) : walk σ d (cs ++ cs') =
    (walk σ d cs).bind fun e => walk σ e cs' := by
  induction cs generalizing d with
  | nil => rfl
  | cons n cs ih =>
    rw [List.cons_append, walk_cons, walk_cons, Option.bind_assoc]
    congr 1
    funext v
    exact ih

/-- The last step of a walk. -/
theorem walk_snoc : walk σ d (cs ++ [n]) =
    (walk σ d cs).bind fun e => (lookup σ e n).map (redirect σ) := by
  rw [walk_append]
  congr 1
  funext e
  rw [walk_cons]
  cases lookup σ e n <;> rfl

theorem walk_snoc_eq_some : walk σ d (cs ++ [n]) = some x ↔
    ∃ e v, walk σ d cs = some e ∧ lookup σ e n = some v ∧ redirect σ v = x := by
  rw [walk_snoc, Option.bind_eq_some_iff]
  simp [Option.map_eq_some_iff]

theorem modifyHead_nil_append (l : List Str) : l.modifyHead ([] ++ ·) = l := by
  cases l <;> rfl

/-- The loop over the characters, with what is in `path[]` in front of the first component. -/
theorem lookupChars_eq (rest : Str) (path : Str) :
    lookupChars σ rest d path = walk σ d ((rest.splitOn slash).modifyHead (path ++ ·)) := by
  induction rest generalizing d path with
  | nil =>
    have h : ([] : Str).splitOn slash = [[]] := rfl
    rw [h, List.modifyHead_cons, List.append_nil, walk_cons, lookupChars]
    cases lookup σ d path <;> rfl
  | cons c rest ih =>
    rw [lookupChars]
    by_cases hc : c = slash
    · have h : (c :: rest).splitOn slash = [] :: rest.splitOn slash := by
        simp [List.splitOn, List.splitOnP_cons_eq_if_modifyHead, hc]
      rw [if_pos hc, h, List.modifyHead_cons, List.append_nil, walk_cons]
      cases lookup σ d path with
      | none => rfl
      | some v =>
        simp only [ih, Option.bind_some]
        rw [modifyHead_nil_append]
    · have h : (c :: rest).splitOn slash = (rest.splitOn slash).modifyHead (c :: ·) := by
        simp [List.splitOn, List.splitOnP_cons_eq_if_modifyHead, hc]
      rw [if_neg hc, h, ih, List.modifyHead_modifyHead]
      congr 2
      funext s
      simp

/-- `vfs_lookup` is the walk over the components of the path name. -/
theorem vfsLookup_eq (σ : State) (path : Str) :
    vfsLookup σ path = walk σ σ.root (components path) := by
  unfold vfsLookup components
  split
  · rfl
  · rw [lookupChars_eq, modifyHead_nil_append]

/-! ## The path name of an entry -/

/-- The path name of an entry of the directory at a path. -/
def childPath (path name : Str) : Str :=
  if components path = [] then slash :: name else path ++ slash :: name

theorem splitOn_of_notMem (h : slash ∉ n) : n.splitOn slash = [n] := by
  unfold List.splitOn
  apply List.splitOnP_eq_singleton
  intro c hc
  simpa using fun hcs : c = slash => h (hcs ▸ hc)

theorem components_ne_nil {path : Str} (h : components path ≠ []) :
    components path = (path.drop 1).splitOn slash ∧ 1 ≤ path.length := by
  unfold components at h ⊢
  split at h
  · exact absurd rfl h
  · next hp =>
    rw [if_neg hp]
    exact ⟨rfl, by omega⟩

/-- A name without a slash is one more component, and in the root directory it must not be empty. -/
theorem components_child {path : Str} (hn : slash ∉ n) (hroot : components path = [] → n ≠ []) :
    components (childPath path n) = components path ++ [n] := by
  unfold childPath
  by_cases hp : components path = []
  · have hlen : ¬ ((slash :: n).length = 0 ∨
        ((slash :: n).length = 1 ∧ (slash :: n).getD 0 0 = slash)) := by
      have := List.length_pos_iff.mpr (hroot hp)
      simp only [List.length_cons]
      omega
    rw [if_pos hp, hp, List.nil_append, components, if_neg hlen]
    exact splitOn_of_notMem hn
  · obtain ⟨heq, hlen⟩ := components_ne_nil hp
    have hlen' : ¬ ((path ++ slash :: n).length = 0 ∨
        ((path ++ slash :: n).length = 1 ∧ (path ++ slash :: n).getD 0 0 = slash)) := by
      simp only [List.length_append, List.length_cons]
      omega
    rw [if_neg hp, heq, components, if_neg hlen', List.drop_append_of_le_length hlen,
      ← splitOn_of_notMem hn]
    exact List.splitOnP_append_cons _ _ (by simp)

end RaspiKernel.Vfs
