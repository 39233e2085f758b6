import RaspiKernel.Vfs.Lookup

/-!
# The graph of the vnodes

The vnodes are linked by `rootfs->root`, by the entries of `childs[]` and by
`mount->root`. In every reachable state no two of these pointers have the same
target (`Wf`), so that the vnodes form a forest: a walk from the root determines
the components it was made of, and a change below one path name does not show
elsewhere.

Results:
* `Wf.walk_unique`: two walks from the root that meet are the same.
* `wf_withChild`, `wf_setupMount`, `wf_setMount`: a new entry, a new instance and
  a new mount keep the invariant.
-/

namespace RaspiKernel.Vfs

open Fs (FsnodeType)

variable {σ σ' : State} {d e i v x r : ℕ} {n : Str} {cs cs' : List Str}

/-! ## Pointers -/

/-- The places that hold a pointer to a vnode. -/
inductive Ptr where
  | root
  | child (d i : ℕ)
  | mount (d : ℕ)
  deriving DecidableEq

/-- The vnode a place points to. -/
def State.target (σ : State) : Ptr → Option ℕ
  | .root => some σ.root
  | .child d i => (σ.node d).childs i
  | .mount d => (σ.node d).mount

theorem State.target_root (σ : State) : σ.target .root = some σ.root := rfl

/-- The childs of a directory are a prefix of `childs[]`. -/
def GapFree (childs : ℕ → Option ℕ) : Prop := ∃ k ≤ maxDirNum, ∀ i, childs i ≠ none ↔ i < k

/-- The invariant of the graph. -/
structure Wf (σ : State) : Prop where
  target_lt : ∀ {q x}, σ.target q = some x → x < σ.next
  unique : ∀ {q q' x}, σ.target q = some x → σ.target q' = some x → q = q'
  gapFree : ∀ d, GapFree (σ.node d).childs
  childs_blank : ∀ {d}, σ.next ≤ d → ∀ i, (σ.node d).childs i = none
  mount_blank : ∀ {d}, σ.next ≤ d → (σ.node d).mount = none

theorem lookup_target (h : lookup σ d n = some v) :
    ∃ i, σ.target (.child d i) = some v ∧ (σ.node v).name = n := by
  obtain ⟨i, -, hi, hn, -⟩ := lookup_eq_some.mp h
  exact ⟨i, hi, hn⟩

/-- `redirect` stays at a vnode or follows its mount. -/
theorem redirect_cases (σ : State) (v : ℕ) :
    (σ.target (.mount v) = none ∧ redirect σ v = v) ∨
      σ.target (.mount v) = some (redirect σ v) := by
  simp only [redirect, State.target]
  cases (σ.node v).mount with
  | none => exact .inl ⟨rfl, rfl⟩
  | some r => exact .inr rfl

theorem Wf.lookup_lt (h : Wf σ) (hv : lookup σ d n = some v) : v < σ.next := by
  obtain ⟨i, hi, -⟩ := lookup_target hv
  exact h.target_lt hi

theorem Wf.redirect_lt (h : Wf σ) (hv : v < σ.next) : redirect σ v < σ.next := by
  rcases redirect_cases σ v with ⟨-, heq⟩ | hm
  · rwa [heq]
  · exact h.target_lt hm

theorem Wf.root_lt (h : Wf σ) : σ.root < σ.next := h.target_lt σ.target_root

theorem Wf.walk_lt (h : Wf σ) (hw : walk σ σ.root cs = some d) : d < σ.next := by
  induction cs using List.reverseRecOn generalizing d with
  | nil =>
    cases hw
    exact h.root_lt
  | append_singleton cs n ih =>
    obtain ⟨e, v, -, hv, rfl⟩ := walk_snoc_eq_some.mp hw
    exact h.redirect_lt (h.lookup_lt hv)

/-- A step of a walk does not come back to the root. -/
theorem Wf.redirect_ne_root (h : Wf σ) (hv : lookup σ d n = some v) : redirect σ v ≠ σ.root := by
  intro hroot
  obtain ⟨i, hi, -⟩ := lookup_target hv
  rcases redirect_cases σ v with ⟨-, heq⟩ | hm
  · rw [← heq, hroot] at hi
    exact absurd (h.unique hi σ.target_root) (by simp)
  · rw [hroot] at hm
    exact absurd (h.unique hm σ.target_root) (by simp)

/-- A vnode is the entry of one directory, under one name. -/
theorem Wf.lookup_unique (h : Wf σ) {n' : Str} (hv : lookup σ d n = some v)
    (hv' : lookup σ e n' = some v) : d = e ∧ n = n' := by
  obtain ⟨i, hi, rfl⟩ := lookup_target hv
  obtain ⟨j, hj, rfl⟩ := lookup_target hv'
  have := h.unique hi hj
  simp only [Ptr.child.injEq] at this
  exact ⟨this.1, rfl⟩

/-- Behind its mounts, a vnode is still reached from one entry only. -/
theorem Wf.redirect_unique (h : Wf σ) {w : ℕ} {n' : Str} (hv : lookup σ d n = some v)
    (hw : lookup σ e n' = some w) (heq : redirect σ v = redirect σ w) : v = w := by
  obtain ⟨i, hi, -⟩ := lookup_target hv
  obtain ⟨j, hj, -⟩ := lookup_target hw
  rcases redirect_cases σ v with ⟨-, hrv⟩ | hmv <;> rcases redirect_cases σ w with ⟨-, hrw⟩ | hmw
  · rw [← hrv, heq, hrw]
  · rw [← hrv, heq] at hi
    exact absurd (h.unique hi hmw) (by simp)
  · rw [← hrw, ← heq] at hj
    exact absurd (h.unique hj hmv) (by simp)
  · rw [heq] at hmv
    simpa using h.unique hmv hmw

/-- Two walks from the root that meet are the same. -/
theorem Wf.walk_unique (h : Wf σ) (hw : walk σ σ.root cs = some d)
    (hw' : walk σ σ.root cs' = some d) : cs = cs' := by
  induction cs using List.reverseRecOn generalizing d cs' with
  | nil =>
    cases hw
    cases cs' using List.reverseRecOn with
    | nil => rfl
    | append_singleton cs' n =>
      obtain ⟨e, v, -, hv, hroot⟩ := walk_snoc_eq_some.mp hw'
      exact absurd hroot (h.redirect_ne_root hv)
  | append_singleton cs n ih =>
    obtain ⟨e, v, he, hv, rfl⟩ := walk_snoc_eq_some.mp hw
    cases cs' using List.reverseRecOn with
    | nil => exact absurd (Option.some.inj hw').symm (h.redirect_ne_root hv)
    | append_singleton cs' n' =>
      obtain ⟨e', v', he', hv', heq⟩ := walk_snoc_eq_some.mp hw'
      have hvv := h.redirect_unique hv hv' heq.symm
      subst hvv
      obtain ⟨rfl, rfl⟩ := h.lookup_unique hv hv'
      rw [ih he he']

/-- The entry at the end of a path name determines the path name. -/
theorem Wf.entry_unique (h : Wf σ) {n' : Str} (hd : walk σ σ.root cs = some d)
    (he : walk σ σ.root cs' = some e) (hv : lookup σ d n = some v) (hv' : lookup σ e n' = some v) :
    cs ++ [n] = cs' ++ [n'] := by
  obtain ⟨rfl, rfl⟩ := h.lookup_unique hv hv'
  rw [h.walk_unique hd he]

/-! ## A new entry -/

section WithChild

variable {type : FsnodeType}

theorem withChild_node_of_ne (hd : x ≠ d) (hx : x ≠ σ.next) :
    (σ.withChild d i type n).node x = σ.node x := by
  simp [State.withChild, State.set, hd, hx]

theorem withChild_node_next (hd : d ≠ σ.next) :
    (σ.withChild d i type n).node σ.next = { createVnode (σ.node d).fs type with name := n } := by
  simp [State.withChild, State.set, hd.symm]

theorem withChild_node_self : (σ.withChild d i type n).node d =
    { σ.node d with childs := Function.update (σ.node d).childs i (some σ.next) } := by
  simp [State.withChild, State.set]

@[simp] theorem withChild_next : (σ.withChild d i type n).next = σ.next + 1 := rfl

/-- All that changes of an old vnode is one entry. -/
theorem withChild_node (hx : x < σ.next) : ((σ.withChild d i type n).node x).name = (σ.node x).name ∧
    ((σ.withChild d i type n).node x).mount = (σ.node x).mount ∧
    ((σ.withChild d i type n).node x).type = (σ.node x).type := by
  by_cases hd : x = d
  · subst hd
    rw [withChild_node_self]
    exact ⟨rfl, rfl, rfl⟩
  · rw [withChild_node_of_ne hd hx.ne]
    exact ⟨rfl, rfl, rfl⟩

/-- A new entry is one more pointer. -/
theorem withChild_target (h : Wf σ) (hd : d < σ.next) :
    (σ.withChild d i type n).target = Function.update σ.target (.child d i) (some σ.next) := by
  funext q
  cases q with
  | root => rfl
  | child e j =>
    simp only [State.target, Function.update_apply, Ptr.child.injEq]
    by_cases he : e = d
    · subst he
      simp only [withChild_node_self, Function.update_apply, true_and]
    · by_cases hn : e = σ.next
      · subst hn
        rw [withChild_node_next hd.ne, h.childs_blank le_rfl]
        simp [he, createVnode]
      · rw [withChild_node_of_ne he hn]
        simp [he]
  | mount e =>
    simp only [State.target, Function.update_apply, reduceCtorEq, if_false]
    by_cases hn : e = σ.next
    · subst hn
      rw [withChild_node_next hd.ne, h.mount_blank le_rfl]
      rfl
    · by_cases he : e = d
      · rw [he, withChild_node_self]
      · rw [withChild_node_of_ne he hn]

/-- A pointer to a vnode that nothing points to. -/
theorem unique_update {f : Ptr → Option ℕ} {q₀ : Ptr} (hf : ∀ {q q' x}, f q = some x → f q' = some x →
    q = q') (hx : ∀ q, f q ≠ some x) {q q' : Ptr} {y : ℕ}
    (h : Function.update f q₀ (some x) q = some y) (h' : Function.update f q₀ (some x) q' = some y) :
    q = q' := by
  rw [Function.update_apply] at h h'
  split at h <;> split at h'
  · next hq hq' => rw [hq, hq']
  · rw [← h] at h'
    exact absurd h' (hx q')
  · rw [← h'] at h
    exact absurd h (hx q)
  · exact hf h h'

theorem GapFree.update {childs : ℕ → Option ℕ} (h : GapFree childs) (hi : i < maxDirNum)
    (hnone : childs i = none) (hlt : ∀ j < i, childs j ≠ none) :
    GapFree (Function.update childs i (some x)) := by
  obtain ⟨k, hk, hiff⟩ := h
  have hki : k = i := by
    have h₁ : ¬ i < k := fun hik => (hiff i).mpr hik hnone
    have h₂ : ¬ k < i := fun hik => absurd ((hiff k).mp (hlt k hik)) (lt_irrefl k)
    omega
  subst hki
  refine ⟨k + 1, hi, fun j => ?_⟩
  rw [Function.update_apply]
  split
  · next hj =>
    subst hj
    simp
  · rw [hiff]
    omega

theorem wf_withChild (h : Wf σ) (hd : d < σ.next) (hi : freeIdx σ d = some i) :
    Wf (σ.withChild d i type n) := by
  obtain ⟨hilt, hnone, hlt⟩ := freeIdx_eq_some.mp hi
  constructor
  case target_lt =>
    intro q x hq
    rw [withChild_target h hd, Function.update_apply] at hq
    rw [withChild_next]
    split at hq
    · cases hq
      omega
    · have := h.target_lt hq
      omega
  case unique =>
    intro q q' x hq hq'
    rw [withChild_target h hd] at hq hq'
    exact unique_update h.unique (fun q hq => absurd (h.target_lt hq) (lt_irrefl _)) hq hq'
  case gapFree =>
    intro e
    by_cases he : e = d
    · subst he
      simp only [withChild_node_self]
      exact (h.gapFree e).update hilt hnone hlt
    · by_cases hn : e = σ.next
      · subst hn
        rw [withChild_node_next hd.ne]
        exact ⟨0, Nat.zero_le _, fun j => by simp [createVnode]⟩
      · rw [withChild_node_of_ne he hn]
        exact h.gapFree e
  case childs_blank =>
    intro e he j
    rw [withChild_next] at he
    rw [withChild_node_of_ne (by omega) (by omega)]
    exact h.childs_blank (by omega) j
  case mount_blank =>
    intro e he
    rw [withChild_next] at he
    rw [withChild_node_of_ne (by omega) (by omega)]
    exact h.mount_blank (by omega)

end WithChild

/-! ## A new instance -/

section Setup

variable {fs : Filesystem} {img : Image}

/-- Every vnode of an image has one place in the `childs[]` of one other. -/
theorem Image.child_unique (img : Image) {a b j k y : ℕ} (ha : a < img.nodes.length)
    (hb : b < img.nodes.length) (hj : img.nodes[a].childs[j]? = some y)
    (hk : img.nodes[b].childs[k]? = some y) : a = b ∧ j = k := by
  obtain ⟨hnodup, hdisj⟩ := List.nodup_flatMap.mp img.child_once
  have hlt : ∀ {a b j k : ℕ} (ha : a < img.nodes.length) (hb : b < img.nodes.length),
      img.nodes[a].childs[j]? = some y → img.nodes[b].childs[k]? = some y → ¬ a < b := by
    intro a b j k ha hb hj hk hab
    have := (List.pairwise_iff_getElem.mp hdisj) a b ha hb hab
    exact this (List.mem_of_getElem? hj) (List.mem_of_getElem? hk)
  have hab : a = b := by
    have h₁ := hlt ha hb hj hk
    have h₂ := hlt hb ha hk hj
    omega
  subst hab
  refine ⟨rfl, ?_⟩
  obtain ⟨hjlt, hjeq⟩ := List.getElem?_eq_some_iff.mp hj
  obtain ⟨hklt, hkeq⟩ := List.getElem?_eq_some_iff.mp hk
  exact ((hnodup _ (List.getElem_mem ha)).getElem_inj_iff).mp (hjeq.trans hkeq.symm)

theorem Image.length_pos (img : Image) : 0 < img.nodes.length := by
  have h := img.root_dir
  rw [List.length_pos_iff]
  rintro hnil
  simp [hnil] at h

@[simp] theorem setupMount_root : (setupMount σ fs img).2.root = σ.root := rfl

@[simp] theorem setupMount_fst : (setupMount σ fs img).1 = σ.next := rfl

@[simp] theorem setupMount_next :
    (setupMount σ fs img).2.next = σ.next + (fs.image img).nodes.length := rfl

theorem setupMount_node_of_lt (hd : d < σ.next) : (setupMount σ fs img).2.node d = σ.node d := by
  simp [setupMount, hd]

theorem setupMount_node_new {a : ℕ} (ha : a < (fs.image img).nodes.length) :
    (setupMount σ fs img).2.node (σ.next + a) =
      (fs.image img).nodes[a].toVnode fs σ.next := by
  simp [setupMount, ha]

theorem setupMount_node_of_le (hd : σ.next + (fs.image img).nodes.length ≤ d) :
    (setupMount σ fs img).2.node d = σ.node d := by
  have h₁ : ¬ d < σ.next := by omega
  have h₂ : (fs.image img).nodes[d - σ.next]? = none := List.getElem?_eq_none (by omega)
  simp [setupMount, h₁, h₂]

/-- An address is that of an old vnode, of one of the image, or not in use. -/
theorem setupMount_cases (σ : State) (fs : Filesystem) (img : Image) (d : ℕ) :
    d < σ.next ∨ (∃ a, a < (fs.image img).nodes.length ∧ d = σ.next + a) ∨
      σ.next + (fs.image img).nodes.length ≤ d := by
  rcases lt_or_ge d σ.next with h | h
  · exact .inl h
  · rcases lt_or_ge d (σ.next + (fs.image img).nodes.length) with h' | h'
    · exact .inr (.inl ⟨d - σ.next, by omega, by omega⟩)
    · exact .inr (.inr h')

/-- The pointers after `setup_mount`: the old ones, and those from parent to child in the image. -/
theorem setupMount_target {q : Ptr} (hq : (setupMount σ fs img).2.target q = some x) :
    σ.target q = some x ∨ ∃ a j y, ∃ ha : a < (fs.image img).nodes.length,
      q = .child (σ.next + a) j ∧ (fs.image img).nodes[a].childs[j]? = some y ∧ x = σ.next + y := by
  cases q with
  | root => exact .inl hq
  | child d j =>
    simp only [State.target] at hq ⊢
    rcases setupMount_cases σ fs img d with hd | ⟨a, ha, rfl⟩ | hd
    · rw [setupMount_node_of_lt hd] at hq
      exact .inl hq
    · rw [setupMount_node_new ha] at hq
      obtain ⟨y, hy, rfl⟩ := Option.map_eq_some_iff.mp hq
      exact .inr ⟨a, j, y, ha, rfl, hy, rfl⟩
    · rw [setupMount_node_of_le hd] at hq
      exact .inl hq
  | mount d =>
    simp only [State.target] at hq ⊢
    rcases setupMount_cases σ fs img d with hd | ⟨a, ha, rfl⟩ | hd
    · rw [setupMount_node_of_lt hd] at hq
      exact .inl hq
    · rw [setupMount_node_new ha] at hq
      cases hq
    · rw [setupMount_node_of_le hd] at hq
      exact .inl hq

theorem Image.child_range (img : Image) {a j y : ℕ} (ha : a < img.nodes.length)
    (hj : img.nodes[a].childs[j]? = some y) : a < y ∧ y < img.nodes.length :=
  img.child_after a ha y (List.mem_of_getElem? hj)

/-- Nothing points to the root of the new instance yet. -/
theorem setupMount_target_ne {q : Ptr} (h : Wf σ) :
    (setupMount σ fs img).2.target q ≠ some σ.next := by
  intro hq
  rcases setupMount_target hq with hq | ⟨a, j, y, ha, -, hy, heq⟩
  · exact absurd (h.target_lt hq) (lt_irrefl _)
  · have := (Image.child_range _ ha hy).1
    omega

theorem wf_setupMount (h : Wf σ) : Wf (setupMount σ fs img).2 := by
  constructor
  case target_lt =>
    intro q x hq
    rw [setupMount_next]
    rcases setupMount_target hq with hq | ⟨a, j, y, ha, -, hy, rfl⟩
    · have := h.target_lt hq
      omega
    · have := (Image.child_range _ ha hy).2
      omega
  case unique =>
    intro q q' x hq hq'
    rcases setupMount_target hq with hq | ⟨a, j, y, ha, rfl, hy, rfl⟩ <;>
      rcases setupMount_target hq' with hq' | ⟨b, k, z, hb, rfl, hz, heq⟩
    · exact h.unique hq hq'
    · have := h.target_lt hq
      omega
    · have := h.target_lt hq'
      omega
    · obtain rfl : y = z := by omega
      obtain ⟨rfl, rfl⟩ := Image.child_unique _ ha hb hy hz
      rfl
  case gapFree =>
    intro d
    rcases setupMount_cases σ fs img d with hd | ⟨a, ha, rfl⟩ | hd
    · rw [setupMount_node_of_lt hd]
      exact h.gapFree d
    · rw [setupMount_node_new ha]
      refine ⟨_, Image.childs_le _ _ (List.getElem_mem ha), fun j => ?_⟩
      simp [ImageNode.toVnode]
    · rw [setupMount_node_of_le hd]
      exact h.gapFree d
  case childs_blank =>
    intro d hd j
    rw [setupMount_next] at hd
    rw [setupMount_node_of_le hd]
    exact h.childs_blank (by omega) j
  case mount_blank =>
    intro d hd
    rw [setupMount_next] at hd
    rw [setupMount_node_of_le hd]
    exact h.mount_blank (by omega)

end Setup

/-! ## A new mount -/

theorem setMount_node_of_ne {t : ℕ} (hd : d ≠ t) : (σ.setMount t r).node d = σ.node d := by
  simp [State.setMount, State.set, hd]

@[simp] theorem setMount_next {t : ℕ} : (σ.setMount t r).next = σ.next := rfl

@[simp] theorem setMount_root {t : ℕ} : (σ.setMount t r).root = σ.root := rfl

/-- A mount changes the field `mount` of one vnode only. -/
theorem setMount_fields {t : ℕ} (d : ℕ) : ((σ.setMount t r).node d).childs = (σ.node d).childs ∧
    ((σ.setMount t r).node d).name = (σ.node d).name ∧
    ((σ.setMount t r).node d).type = (σ.node d).type := by
  by_cases hd : d = t
  · subst hd
    simp [State.setMount, State.set]
  · rw [setMount_node_of_ne hd]
    exact ⟨rfl, rfl, rfl⟩

theorem setMount_target {t : ℕ} :
    (σ.setMount t r).target = Function.update σ.target (.mount t) (some r) := by
  funext q
  cases q with
  | root => rfl
  | child d j => simp [State.target, (setMount_fields d).1]
  | mount d =>
    simp only [State.target, Function.update_apply, Ptr.mount.injEq]
    split
    · next hd =>
      subst hd
      simp [State.setMount, State.set]
    · next hd => rw [setMount_node_of_ne hd]

theorem wf_setMount {t : ℕ} (h : Wf σ) (ht : t < σ.next) (hr : r < σ.next)
    (hfree : ∀ q, σ.target q ≠ some r) : Wf (σ.setMount t r) := by
  constructor
  case target_lt =>
    intro q x hq
    rw [setMount_target, Function.update_apply] at hq
    split at hq
    · cases hq
      exact hr
    · exact h.target_lt hq
  case unique =>
    intro q q' x hq hq'
    rw [setMount_target] at hq hq'
    exact unique_update h.unique hfree hq hq'
  case gapFree =>
    intro d
    rw [(setMount_fields d).1]
    exact h.gapFree d
  case childs_blank =>
    intro d hd j
    rw [(setMount_fields d).1]
    exact h.childs_blank hd j
  case mount_blank =>
    intro d hd
    rw [setMount_node_of_ne (by rw [setMount_next] at hd; omega)]
    exact h.mount_blank hd

end RaspiKernel.Vfs
