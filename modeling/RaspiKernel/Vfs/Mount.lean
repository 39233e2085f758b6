import RaspiKernel.Vfs.Run

/-!
# Visibility of a mount

`vfs_mount` looks its target up with `vfs_lookup`, which follows one mount. On a
path name where an instance is mounted it gets the root of that instance, so
that the test for a mount and the new mount are one level too deep: the second
mount on a path name is accepted, and no lookup follows it.

Results:
* `walk_frame`: what a walk depends on.
* `vfsLookup_setMount`: a mount changes the lookups below its path name only.
* `mount_law_iff`: a mount does what it says unless its target is mounted once.
-/

namespace RaspiKernel.Vfs

variable {σ σ' : State} {d e m r t v : ℕ} {n : Str} {cs : List Str}

/-! ## Frames -/

/-- A walk depends on the entries of the vnodes in use and on the mounts of the entries it meets. -/
theorem walk_frame (h : Wf σ) (hroot : σ'.root = σ.root)
    (hlookup : ∀ d < σ.next, ∀ n, lookup σ' d n = lookup σ d n)
    (hredirect : ∀ cs' n e v, cs' ++ [n] <+: cs → walk σ σ.root cs' = some e →
      lookup σ e n = some v → redirect σ' v = redirect σ v) :
    walk σ' σ'.root cs = walk σ σ.root cs := by
  induction cs using List.reverseRecOn with
  | nil => rw [walk_nil, walk_nil, hroot]
  | append_singleton cs n ih =>
    have hcs := ih fun cs' n' e v hpre => hredirect cs' n' e v (hpre.trans (List.prefix_append cs [n]))
    rw [walk_snoc, walk_snoc, hcs]
    cases he : walk σ σ.root cs with
    | none => rfl
    | some e =>
      simp only [Option.bind_some]
      rw [hlookup e (h.walk_lt he)]
      cases hv : lookup σ e n with
      | none => rfl
      | some v => rw [Option.map_some, Option.map_some, hredirect cs n e v List.prefix_rfl he hv]

theorem lookup_setMount : lookup (σ.setMount t r) d n = lookup σ d n :=
  lookup_congr (setMount_fields d).1 fun _ v _ => (setMount_fields v).2.1

theorem redirect_setMount_of_ne (hv : v ≠ t) : redirect (σ.setMount t r) v = redirect σ v := by
  unfold redirect
  rw [setMount_node_of_ne hv]

theorem redirect_setMount_self : redirect (σ.setMount t r) t = r := by
  simp [redirect, State.setMount, State.set]

section Setup

variable {fs : Filesystem} {img : Image}

theorem lookup_setupMount (h : Wf σ) (hd : d < σ.next) :
    lookup (setupMount σ fs img).2 d n = lookup σ d n := by
  refine lookup_congr (by rw [setupMount_node_of_lt hd]) fun i v hv => ?_
  rw [setupMount_node_of_lt (h.target_lt (q := .child d i) hv)]

theorem redirect_setupMount (hv : v < σ.next) : redirect (setupMount σ fs img).2 v = redirect σ v := by
  unfold redirect
  rw [setupMount_node_of_lt hv]

/-- Setting an instance up changes no lookup. -/
theorem walk_setupMount (h : Wf σ) :
    walk (setupMount σ fs img).2 σ.root cs = walk σ σ.root cs :=
  walk_frame h setupMount_root (fun _ hd _ => lookup_setupMount h hd)
    fun _ _ _ _ _ _ hv => redirect_setupMount (h.lookup_lt hv)

theorem vfsLookup_setupMount (h : Wf σ) (path : Str) :
    vfsLookup (setupMount σ fs img).2 path = vfsLookup σ path := by
  rw [vfsLookup_eq, vfsLookup_eq]
  exact walk_setupMount h

end Setup

/-! ## Mounting -/

/-- The path name `q` is that of the mount point or goes through it. -/
def Below (path q : Str) : Prop := components path <+: components q

/-- The entry at the end of a path name, before a mount there is followed. -/
def entryAt (σ : State) (path : Str) : Option ℕ :=
  (components path).getLast?.bind fun n =>
    (walk σ σ.root (components path).dropLast).bind fun d => lookup σ d n

theorem entryAt_eq_some {path : Str} : entryAt σ path = some m ↔
    ∃ cs n d, components path = cs ++ [n] ∧ walk σ σ.root cs = some d ∧ lookup σ d n = some m := by
  unfold entryAt
  rcases List.eq_nil_or_concat (components path) with hnil | ⟨cs, n, heq⟩
  · rw [hnil]
    simp
  · rw [heq, List.concat_eq_append]
    simp only [List.getLast?_append_cons, List.getLast?_singleton, Option.bind_some,
      List.dropLast_concat, Option.bind_eq_some_iff]
    constructor
    · rintro ⟨d, hd, hm⟩
      exact ⟨cs, n, d, rfl, hd, hm⟩
    · rintro ⟨cs', n', d, hcs, hd, hm⟩
      obtain ⟨rfl, hn⟩ := List.append_inj' hcs rfl
      cases hn
      exact ⟨d, hd, hm⟩

/-- A lookup finds the entry and follows its mount. -/
theorem vfsLookup_entryAt {path : Str} (hroot : components path ≠ []) :
    vfsLookup σ path = (entryAt σ path).map (redirect σ) := by
  rw [vfsLookup_eq]
  unfold entryAt
  rcases List.eq_nil_or_concat (components path) with hnil | ⟨cs, n, heq⟩
  · exact absurd hnil hroot
  · rw [heq, List.concat_eq_append, walk_snoc]
    simp only [List.getLast?_append_cons, List.getLast?_singleton, Option.bind_some,
      List.dropLast_concat]
    rw [Option.map_bind]
    rfl

/-- What a walk finds elsewhere does not depend on the mount of an entry. -/
theorem vfsLookup_setMount (h : Wf σ) {path q : Str} (hm : entryAt σ path = some m)
    (hq : ¬ Below path q) : vfsLookup (σ.setMount m r) q = vfsLookup σ q := by
  rw [vfsLookup_eq, vfsLookup_eq]
  refine walk_frame h setMount_root (fun _ _ _ => lookup_setMount) ?_
  intro cs' n' e v hpre he hv
  refine redirect_setMount_of_ne fun hvm => hq ?_
  subst hvm
  obtain ⟨cs, n, d, heq, hd, hm⟩ := entryAt_eq_some.mp hm
  unfold Below
  rw [heq, h.entry_unique hd he hm hv]
  exact hpre

/-- No lookup notices a mount on a vnode that is no entry of a directory. -/
theorem vfsLookup_setMount_root (h : Wf σ) (ht : σ.target (.mount m) = some t) (q : Str) :
    vfsLookup (σ.setMount t r) q = vfsLookup σ q := by
  rw [vfsLookup_eq, vfsLookup_eq]
  refine walk_frame h setMount_root (fun _ _ _ => lookup_setMount) ?_
  intro cs' n' e v _ _ hv
  refine redirect_setMount_of_ne ?_
  rintro rfl
  obtain ⟨i, hi, -⟩ := lookup_target hv
  exact absurd (h.unique hi ht) (by simp)

/-- The entry of a path name after its mount has been set. -/
theorem entryAt_setMount (h : Wf σ) {path : Str} (hm : entryAt σ path = some m) :
    entryAt (σ.setMount m r) path = some m := by
  obtain ⟨cs, n, d, heq, hd, hlook⟩ := entryAt_eq_some.mp hm
  refine entryAt_eq_some.mpr ⟨cs, n, d, heq, ?_, by rwa [lookup_setMount]⟩
  rw [← hd]
  refine walk_frame h setMount_root (fun _ _ _ => lookup_setMount) ?_
  intro cs' n' e v hpre he hv
  refine redirect_setMount_of_ne fun hvm => ?_
  -- the entry itself is not on the way to its directory
  subst hvm
  rw [← h.entry_unique hd he hlook hv] at hpre
  have := hpre.length_le
  simp at this

theorem entryAt_setupMount (h : Wf σ) {fs : Filesystem} {img : Image} {path : Str}
    (hm : entryAt σ path = some m) : entryAt (setupMount σ fs img).2 path = some m := by
  obtain ⟨cs, n, d, heq, hd, hlook⟩ := entryAt_eq_some.mp hm
  exact entryAt_eq_some.mpr ⟨cs, n, d, heq, (walk_setupMount h).trans hd,
    by rwa [lookup_setupMount h (h.walk_lt hd)]⟩

/-! ## The law -/

/-- What a call of `vfs_mount` promises: if it returns 1, the path name leads to the root of the new
    instance, and nothing changes elsewhere; if it returns 0, nothing changes at all. -/
def MountLaw (σ : State) (path : Path) (filesystem : Str) (fs : Filesystem) (img : Image) : Prop :=
  let (ret, σ') := vfsMount σ path.str filesystem img
  (ret = 1 → vfsLookup σ' path.str = some (setupMount σ fs img).1 ∧
      ∀ q : Path, ¬ Below path.str q.str → vfsLookup σ' q.str = vfsLookup σ q.str) ∧
    (ret = 0 → ∀ q : Path, vfsLookup σ' q.str = vfsLookup σ q.str)

/-- An instance is mounted at the path name, and none on its root. -/
def MountedOnce (σ : State) (path : Str) : Prop :=
  ∃ m r, entryAt σ path = some m ∧ (σ.node m).mount = some r ∧ (σ.node r).mount = none

/-- A mount on a path name other than the root keeps its promise unless exactly one instance is
    mounted there. -/
theorem mount_law_iff {archive disk : Image} (h : Reachable archive disk σ) {path : Path}
    (hroot : components path.str ≠ []) (hfound : vfsLookup σ path.str ≠ none) {filesystem : Str}
    {fs : Filesystem} (hfs : findFilesystem filesystem = some fs) (img : Image) :
    MountLaw σ path filesystem fs img ↔ ¬ MountedOnce σ path.str := by
  have hwf := wf_reachable h
  obtain ⟨m, hm⟩ : ∃ m, entryAt σ path.str = some m := by
    rw [vfsLookup_entryAt hroot] at hfound
    cases hm : entryAt σ path.str with
    | none => simp [hm] at hfound
    | some m => exact ⟨m, rfl⟩
  have hmlt : m < σ.next := by
    obtain ⟨cs, n, d, -, -, hlook⟩ := entryAt_eq_some.mp hm
    exact hwf.lookup_lt hlook
  have ht : vfsLookup σ path.str = some (redirect σ m) := by rw [vfsLookup_entryAt hroot, hm]; rfl
  have hwf' : Wf (setupMount σ fs img).2 := wf_setupMount hwf
  have hm' : entryAt (setupMount σ fs img).2 path.str = some m := entryAt_setupMount hwf hm
  obtain ⟨fs', t, hfs', ht', hcall⟩ := (vfsMount_cases σ path.str filesystem img).resolve_left
    fun hnone => by simp [hfs, ht] at hnone
  rw [hfs] at hfs'
  rw [ht] at ht'
  cases hfs'
  cases ht'
  unfold MountLaw
  rw [hcall, setupMount_node_of_lt (hwf.redirect_lt hmlt)]
  cases hmount : (σ.node m).mount with
  | none =>
    -- nothing is mounted yet: the entry itself gets the mount
    have hred : redirect σ m = m := by simp [redirect, hmount]
    rw [hred, hmount, Option.isSome_none, if_neg (by simp)]
    refine iff_of_true ⟨fun _ => ⟨?_, ?_⟩, fun hret => absurd hret one_ne_zero⟩ ?_
    · rw [vfsLookup_entryAt hroot, entryAt_setMount hwf' hm', Option.map_some,
        redirect_setMount_self]
      rfl
    · intro q hq
      rw [vfsLookup_setMount hwf' hm' hq, vfsLookup_setupMount hwf]
    · rintro ⟨m', r, hm'', hr, -⟩
      rw [hm] at hm''
      cases hm''
      simp [hmount] at hr
  | some r =>
    have hred : redirect σ m = r := by simp [redirect, hmount]
    have hrlt : r < σ.next := hwf.target_lt (q := .mount m) hmount
    rw [hred]
    cases hr : (σ.node r).mount with
    | some r' =>
      -- something is mounted on the root of the instance: the call is refused
      rw [Option.isSome_some, if_pos rfl]
      refine iff_of_true ⟨fun hret => absurd hret zero_ne_one, fun _ q => ?_⟩ ?_
      · exact vfsLookup_setupMount hwf q.str
      · rintro ⟨m', r'', hm'', hr'', hnone⟩
        rw [hm] at hm''
        cases hm''
        rw [hmount] at hr''
        cases hr''
        simp [hr] at hnone
    | none =>
      -- the root of the instance gets the mount, and the path name leads to it as before
      rw [Option.isSome_none, if_neg (by simp)]
      refine iff_of_false ?_ (not_not.mpr ⟨m, r, hm, hmount, hr⟩)
      rintro ⟨hone, -⟩
      have htarget : (setupMount σ fs img).2.target (.mount m) = some r := by
        rw [State.target, setupMount_node_of_lt hmlt, hmount]
      have hlook := (hone rfl).1
      rw [vfsLookup_setMount_root hwf' htarget, vfsLookup_setupMount hwf, ht, hred,
        setupMount_fst] at hlook
      cases hlook
      exact absurd hrlt (lt_irrefl _)

/-- The state after `rootfs_init` with empty images. -/
def bootState : State := ((rootfsInit tmpfsImage tmpfsImage).toOption).getD zeroState

theorem reachable_bootState : Reachable tmpfsImage tmpfsImage bootState := .init rfl

/-- A first mount, on a directory made after boot. -/
theorem mount_law_first : ∃ σ, step bootState (.mkdir ⟨ofString "/a", by decide⟩) = .ok σ ∧
    (MountLaw σ ⟨ofString "/a", by decide⟩ (ofString "tmpfs") .tmpfs tmpfsImage ↔
      ¬ MountedOnce σ (ofString "/a")) ∧ ¬ MountedOnce σ (ofString "/a") := by
  refine ⟨_, rfl, mount_law_iff (reachable_bootState.step (.mkdir ⟨ofString "/a", by decide⟩) rfl)
    (by decide) (by decide) rfl tmpfsImage, ?_⟩
  rintro ⟨m, r, hm, hr, -⟩
  have hm' : m = 5 := by
    have : some 5 = some m := hm
    simpa using this.symm
  subst hm'
  exact Option.some_ne_none r (hr.symm.trans rfl)

/-- After boot, a mount on `/boot` returns 1 and the path name still leads to the instance mounted
    by `rootfs_init`. -/
theorem mount_twice_hidden : ¬ ∀ (archive disk : Image) (σ : State), Reachable archive disk σ →
    ∀ path : Path, components path.str ≠ [] → vfsLookup σ path.str ≠ none →
    ∀ (filesystem : Str) (fs : Filesystem), findFilesystem filesystem = some fs → ∀ img : Image,
      MountLaw σ path filesystem fs img := by
  intro hall
  have hlaw := hall _ _ _ reachable_bootState bootPath (by decide) (by decide) (ofString "tmpfs")
    .tmpfs rfl tmpfsImage
  have hlook := (hlaw.1 (by decide)).1
  exact absurd hlook (by decide)

end RaspiKernel.Vfs
