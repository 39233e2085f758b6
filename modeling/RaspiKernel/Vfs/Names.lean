import RaspiKernel.Vfs.Mount

/-!
# Names in a directory

`tmpfs_create` and `fat32_create` compare a new name with those of the directory;
`tmpfs_mkdir` and `fat32_mkdir` do not. As long as no directory is made under a
name that is taken, and no entry of the root directory has the empty name, every
entry is the one that its own path name leads to.

Results:
* `lookup_child`: under different names, a lookup finds every entry.
* `namesOk_step`: what one call has to satisfy to keep the names different.
* `careful_tree`: every file and directory is found under its own path name.
* `mkdir_twice`: a directory made twice is not.
-/

namespace RaspiKernel.Vfs

open Lib
open Fs (FsnodeType)

variable {σ σ' : State} {d i x r t : ℕ} {n : Str}

/-! ## The invariant -/

/-- The names in the directories. -/
structure NamesOk (σ : State) : Prop where
  distinct : ∀ {d i j x y}, (σ.node d).childs i = some x → (σ.node d).childs j = some y →
    (σ.node x).name = (σ.node y).name → i = j
  no_slash : ∀ {d i x}, (σ.node d).childs i = some x → slash ∉ (σ.node x).name
  root_name : ∀ {i x}, (σ.node σ.root).childs i = some x → (σ.node x).name ≠ []

/-- Under different names, a lookup finds every entry. -/
theorem lookup_child (h : Wf σ) (hn : NamesOk σ) (hx : (σ.node d).childs i = some x) :
    lookup σ d (σ.node x).name = some x := by
  obtain ⟨k, hk, hiff⟩ := h.gapFree d
  have hik : i < k := (hiff i).mp (by simp [hx])
  refine lookup_eq_some.mpr ⟨i, by omega, hx, rfl, fun j hj => ?_⟩
  obtain ⟨w, hw⟩ := Option.ne_none_iff_exists'.mp ((hiff j).mpr (by omega))
  refine ⟨w, hw, fun hname => ?_⟩
  have := hn.distinct hw hx hname
  omega

/-- A lookup that fails has compared all names. -/
theorem name_ne_of_lookup (h : Wf σ) (hnone : lookup σ d n = none)
    (hx : (σ.node d).childs i = some x) : (σ.node x).name ≠ n := by
  intro hname
  obtain ⟨k, hk, hiff⟩ := h.gapFree d
  have hik : i < k := (hiff i).mp (by simp [hx])
  -- the first index with the name is the one a lookup finds
  have hex : ∃ j, ∃ w, (σ.node d).childs j = some w ∧ (σ.node w).name = n := ⟨i, x, hx, hname⟩
  classical
  obtain ⟨w, hw, hwn⟩ := Nat.find_spec hex
  have hjk : Nat.find hex < k := (hiff _).mp (by simp [hw])
  have hfound : lookup σ d n = some w := by
    refine lookup_eq_some.mpr ⟨Nat.find hex, by omega, hw, hwn, fun j hj => ?_⟩
    obtain ⟨w', hw'⟩ := Option.ne_none_iff_exists'.mp ((hiff j).mpr (by omega))
    exact ⟨w', hw', fun hne => Nat.find_min hex hj ⟨w', hw', hne⟩⟩
  simp [hnone] at hfound

/-! ## Base names -/

theorem lastSlash_loop (path : Str) (k : ℕ) :
    let last := (List.range k).foldl (fun idx i => if path.getD i 0 = slash then i else idx) 0
    ∀ j, last < j → j < k → path.getD j 0 ≠ slash := by
  induction k with
  | zero => simp
  | succ k ih =>
    simp only [List.range_succ, List.foldl_append, List.foldl_cons, List.foldl_nil]
    intro j h₁ h₂
    split at h₁
    · omega
    · next hk =>
      rcases (by omega : j < k ∨ j = k) with hj | rfl
      · exact ih j h₁ hj
      · exact hk

/-- There is no slash behind the last one. -/
theorem slash_notMem_baseName (path : Str) : slash ∉ baseName path := by
  intro h
  obtain ⟨j, hj⟩ := List.mem_iff_getElem?.mp h
  rw [baseName, List.getElem?_drop] at hj
  have hlen : lastSlash path + 1 + j < path.length := (List.getElem?_eq_some_iff.mp hj).1
  refine lastSlash_loop path path.length (lastSlash path + 1 + j) ?_ hlen ?_
  · change lastSlash path < _
    omega
  · rw [List.getD_eq_getElem?_getD, hj]
    rfl

/-! ## One call -/

/-- The new name is not in the directory yet, and in the root directory it is not empty. -/
def NewName (σ : State) (d : ℕ) (n : Str) : Prop :=
  (∀ i x, (σ.node d).childs i = some x → (σ.node x).name ≠ n) ∧ (d = σ.root → n ≠ [])

theorem withChild_childs {type : FsnodeType} (h : Wf σ) (hd : d < σ.next) {e j : ℕ}
    (hx : ((σ.withChild d i type n).node e).childs j = some x) :
    (σ.node e).childs j = some x ∧ x < σ.next ∨ e = d ∧ j = i ∧ x = σ.next := by
  have htarget : (σ.withChild d i type n).target (.child e j) = some x := hx
  rw [withChild_target h hd, Function.update_apply] at htarget
  split at htarget
  · next heq =>
    simp only [Ptr.child.injEq] at heq
    exact .inr ⟨heq.1, heq.2, (Option.some.inj htarget).symm⟩
  · exact .inl ⟨htarget, h.target_lt htarget⟩

theorem namesOk_withChild {type : FsnodeType} (h : Wf σ) (hn : NamesOk σ) (hd : d < σ.next)
    (hnew : NewName σ d n) (hslash : slash ∉ n) : NamesOk (σ.withChild d i type n) := by
  have hself : ((σ.withChild d i type n).node σ.next).name = n := by
    rw [withChild_node_next hd.ne]
  have hold : ∀ {x}, x < σ.next → ((σ.withChild d i type n).node x).name = (σ.node x).name :=
    fun hx => (withChild_node hx).1
  constructor
  case distinct =>
    intro e j k x y hx hy hname
    rcases withChild_childs h hd hx with ⟨hx₀, hxlt⟩ | ⟨hed, rfl, rfl⟩ <;>
      rcases withChild_childs h hd hy with ⟨hy₀, hylt⟩ | ⟨hed', rfl, rfl⟩
    · rw [hold hxlt, hold hylt] at hname
      exact hn.distinct hx₀ hy₀ hname
    · rw [hold hxlt, hself] at hname
      exact absurd hname (hnew.1 j x (hed' ▸ hx₀))
    · rw [hold hylt, hself] at hname
      exact absurd hname.symm (hnew.1 k y (hed ▸ hy₀))
    · rfl
  case no_slash =>
    intro e j x hx
    rcases withChild_childs h hd hx with ⟨hx, hxlt⟩ | ⟨rfl, rfl, rfl⟩
    · rw [hold hxlt]
      exact hn.no_slash hx
    · rwa [hself]
  case root_name =>
    intro j x hx
    rcases withChild_childs h hd hx with ⟨hx, hxlt⟩ | ⟨heq, rfl, rfl⟩
    · rw [hold hxlt]
      exact hn.root_name hx
    · rw [hself]
      exact hnew.2 heq.symm

/-- In each directory of an image the names are different, and no name has a slash. -/
structure Image.Named (img : Image) : Prop where
  no_slash : ∀ nd ∈ img.nodes, slash ∉ nd.name
  distinct : ∀ nd ∈ img.nodes, (nd.childs.map fun x => img.nodes[x]?.map ImageNode.name).Nodup

theorem tmpfsImage_named : tmpfsImage.Named := ⟨by decide, by decide⟩

theorem Filesystem.image_named {fs : Filesystem} {img : Image} (h : img.Named) :
    (fs.image img).Named := by
  cases fs
  · exact tmpfsImage_named
  · exact h
  · exact h

theorem namesOk_setupMount {fs : Filesystem} {img : Image} (h : Wf σ) (hn : NamesOk σ)
    (himg : img.Named) : NamesOk (setupMount σ fs img).2 := by
  have hnamed : (fs.image img).Named := Filesystem.image_named himg
  have hold : ∀ {x}, x < σ.next → (setupMount σ fs img).2.node x = σ.node x :=
    fun hx => setupMount_node_of_lt hx
  -- an entry is an old one, or one from parent to child in the image
  have hcases : ∀ {e j x}, ((setupMount σ fs img).2.node e).childs j = some x →
      (σ.node e).childs j = some x ∧ x < σ.next ∨ ∃ a y, ∃ ha : a < (fs.image img).nodes.length,
        ∃ hy : y < (fs.image img).nodes.length, e = σ.next + a ∧
          (fs.image img).nodes[a].childs[j]? = some y ∧ x = σ.next + y ∧
          ((setupMount σ fs img).2.node x).name = (fs.image img).nodes[y].name := by
    intro e j x hx
    rcases setupMount_target (q := .child e j) hx with hx | ⟨a, k, y, ha, hq, hy, rfl⟩
    · exact .inl ⟨hx, h.target_lt hx⟩
    · simp only [Ptr.child.injEq] at hq
      obtain ⟨rfl, rfl⟩ := hq
      have hylt := (Image.child_range _ ha hy).2
      exact .inr ⟨a, y, ha, hylt, rfl, hy, rfl, by rw [setupMount_node_new hylt]; rfl⟩
  constructor
  case distinct =>
    intro e j k x y hx hy hname
    rcases hcases hx with ⟨hx, hxlt⟩ | ⟨a, u, ha, hu, rfl, hau, rfl, hxn⟩ <;>
      rcases hcases hy with ⟨hy, hylt⟩ | ⟨b, w, hb, hw, hbe, hbw, rfl, hyn⟩
    · rw [hold hxlt, hold hylt] at hname
      exact hn.distinct hx hy hname
    · rw [hbe, h.childs_blank (by omega)] at hx
      cases hx
    · rw [h.childs_blank (by omega)] at hy
      cases hy
    · obtain rfl : a = b := by omega
      rw [hxn, hyn] at hname
      obtain ⟨hjlt, hj⟩ := List.getElem?_eq_some_iff.mp hau
      obtain ⟨hklt, hk⟩ := List.getElem?_eq_some_iff.mp hbw
      have hnodup := hnamed.distinct _ (List.getElem_mem ha)
      refine (List.getElem?_inj (by simpa using hjlt) hnodup).mp ?_
      simp [hau, hbw, hu, hw, hname]
  case no_slash =>
    intro e j x hx
    rcases hcases hx with ⟨hx, hxlt⟩ | ⟨a, u, ha, hu, rfl, hau, rfl, hxn⟩
    · rw [hold hxlt]
      exact hn.no_slash hx
    · rw [hxn]
      exact hnamed.no_slash _ (List.getElem_mem hu)
  case root_name =>
    intro j x hx
    rcases hcases hx with ⟨hx, hxlt⟩ | ⟨a, u, ha, hu, heq, hau, rfl, hxn⟩
    · rw [hold hxlt]
      exact hn.root_name hx
    · have := h.root_lt
      rw [setupMount_root] at heq
      omega

theorem namesOk_setMount (hn : NamesOk σ) : NamesOk (σ.setMount t r) := by
  constructor
  case distinct =>
    intro e j k x y hx hy hname
    rw [(setMount_fields e).1] at hx hy
    rw [(setMount_fields x).2.1, (setMount_fields y).2.1] at hname
    exact hn.distinct hx hy hname
  case no_slash =>
    intro e j x hx
    rw [(setMount_fields e).1] at hx
    rw [(setMount_fields x).2.1]
    exact hn.no_slash hx
  case root_name =>
    intro j x hx
    rw [setMount_root, (setMount_fields σ.root).1] at hx
    rw [(setMount_fields x).2.1]
    exact hn.root_name hx

/-- What a call has to satisfy: a new directory gets a new name, a new file in the root directory
    does not get the empty name, and an image has different names. -/
def Careful (σ : State) : Op → Prop
  | .mkdir path => ∀ d n, Adds σ d n (.mkdir path) → freeIdx σ d ≠ none → NewName σ d n
  | .openFile path flags => ∀ d n, Adds σ d n (.openFile path flags) → freeIdx σ d ≠ none →
      d = σ.root → n ≠ []
  | .mount _ _ img => img.Named

theorem Adds.slash_notMem {op : Op} (h : Adds σ d n op) : slash ∉ n := by
  cases op with
  | mkdir path =>
    rw [h.2.1]
    exact slash_notMem_baseName path.str
  | openFile path flags =>
    rw [h.2.2.2.1]
    exact slash_notMem_baseName path.str
  | mount target filesystem img => exact h.elim

theorem namesOk_vfsMount (h : Wf σ) (hn : NamesOk σ) (target filesystem : Str) {img : Image}
    (himg : img.Named) : NamesOk (vfsMount σ target filesystem img).2 := by
  rcases vfsMount_cases σ target filesystem img with ⟨heq, -⟩ | ⟨fs, t, -, ht, heq⟩
  · rw [heq]
    exact hn
  · rw [heq]
    split
    · exact namesOk_setupMount h hn himg
    · exact namesOk_setMount (namesOk_setupMount h hn himg)

theorem namesOk_step {op : Op} (h : Wf σ) (hn : NamesOk σ) (hcare : Careful σ op)
    (hstep : step σ op = .ok σ') : NamesOk σ' := by
  rcases step_cases hstep with rfl | ⟨d, n, i, type, hadd, hi, rfl⟩ |
    ⟨target, filesystem, img, rfl, rfl⟩
  · exact hn
  · have hnew : NewName σ d n := by
      cases op with
      | mount target filesystem img => exact hadd.elim
      | mkdir path => exact hcare d n hadd (by simp [hi])
      | openFile path flags =>
        have hnone : lookup σ d n = none := hadd.2.2.2.2.2
        exact ⟨fun i x hx => name_ne_of_lookup h hnone hx, hcare d n hadd (by simp [hi])⟩
    exact namesOk_withChild h hn (hadd.lt h) hnew hadd.slash_notMem
  · exact namesOk_vfsMount h hn target.str filesystem hcare

/-! ## Runs -/

/-- A sequence of `vfs_mkdir` and `vfs_open` after `rootfs_init`, each of them careful. -/
inductive CarefulRun (archive disk : Image) : State → Prop where
  | init {σ : State} (h : rootfsInit archive disk = .ok σ) : CarefulRun archive disk σ
  | mkdir {σ σ' : State} (hσ : CarefulRun archive disk σ) (path : Path)
      (hcare : Careful σ (.mkdir path)) (h : step σ (.mkdir path) = .ok σ') :
      CarefulRun archive disk σ'
  | openFile {σ σ' : State} (hσ : CarefulRun archive disk σ) (path : Path) (flags : UInt32)
      (hcare : Careful σ (.openFile path flags)) (h : step σ (.openFile path flags) = .ok σ') :
      CarefulRun archive disk σ'

theorem CarefulRun.reachable {archive disk : Image} (h : CarefulRun archive disk σ) :
    Reachable archive disk σ := by
  induction h with
  | init hinit => exact .init hinit
  | mkdir _ path _ hstep ih => exact ih.step (.mkdir path) hstep
  | openFile _ path flags _ hstep ih => exact ih.step (.openFile path flags) hstep

/-- Every directory has its entries in a prefix of `childs[]` and under different names, and each
    entry is the one that its own path name leads to. -/
structure TreeOk (σ : State) : Prop where
  gapFree : ∀ d, GapFree (σ.node d).childs
  distinct : ∀ {d i j x y}, (σ.node d).childs i = some x → (σ.node d).childs j = some y →
    (σ.node x).name = (σ.node y).name → i = j
  found : ∀ (path : Path) {d i x}, vfsLookup σ path.str = some d →
    (σ.node d).childs i = some x →
    vfsLookup σ (childPath path.str (σ.node x).name) = some (redirect σ x)

theorem treeOk_of_namesOk (h : Wf σ) (hn : NamesOk σ) : TreeOk σ := by
  refine ⟨h.gapFree, hn.distinct, fun path {d i x} hd hx => ?_⟩
  rw [vfsLookup_eq] at hd ⊢
  rw [components_child (hn.no_slash hx)]
  · exact walk_snoc_eq_some.mpr ⟨d, x, hd, lookup_child h hn hx, rfl⟩
  · intro hnil
    rw [hnil, walk_nil] at hd
    cases hd
    exact hn.root_name hx

/-- The root directory before the entries of `rootfs_init` are made. -/
theorem namesOk_rootState : NamesOk rootState := by
  have hnone : ∀ d i, (rootState.node d).childs i = none := by
    intro d i
    cases hx : (rootState.node d).childs i with
    | none => rfl
    | some x =>
      have hlt : x < 1 := wf_rootState.target_lt (q := .child d i) hx
      obtain rfl : x = rootState.root := Nat.lt_one_iff.mp hlt
      exact absurd (wf_rootState.unique (q := .child d i) hx rootState.target_root) (by simp)
  constructor
  case distinct =>
    intro d i j x y hx
    simp [hnone] at hx
  case no_slash =>
    intro d i x hx
    simp [hnone] at hx
  case root_name =>
    intro i x hx
    simp [hnone] at hx

/-- A mount changes neither the entries nor the names of the vnodes in use. -/
theorem vfsMount_fields (target filesystem : Str) (img : Image) (hd : d < σ.next) :
    ((vfsMount σ target filesystem img).2.node d).childs = (σ.node d).childs ∧
      ((vfsMount σ target filesystem img).2.node d).name = (σ.node d).name := by
  rcases vfsMount_cases σ target filesystem img with ⟨heq, -⟩ | ⟨fs, t, -, -, heq⟩
  · rw [heq]
    exact ⟨rfl, rfl⟩
  · rw [heq]
    split
    · rw [setupMount_node_of_lt hd]
      exact ⟨rfl, rfl⟩
    · obtain ⟨hchilds, hname, -⟩ :=
        setMount_fields (σ := (setupMount σ fs img).2) (r := σ.next) (t := t) d
      rw [hchilds, hname, setupMount_node_of_lt hd]
      exact ⟨rfl, rfl⟩

theorem vfsMount_root (target filesystem : Str) (img : Image) :
    (vfsMount σ target filesystem img).2.root = σ.root := by
  rcases vfsMount_cases σ target filesystem img with ⟨heq, -⟩ | ⟨fs, t, -, -, heq⟩
  · rw [heq]
  · rw [heq]
    split <;> rfl

/-- The root directory with the entry for the archive. -/
def initramfsState : State := rootState.withChild 0 0 .dir (ofString "initramfs")

theorem step_initramfsPath : step rootState (.mkdir initramfsPath) = .ok initramfsState := rfl

/-- The calls of `rootfs_init` are careful. -/
theorem namesOk_rootfsInit {archive disk : Image} (ha : archive.Named) (hd : disk.Named)
    (h : rootfsInit archive disk = .ok σ) : NamesOk σ := by
  rw [rootfsInit_eq] at h
  obtain ⟨σ₁, h₁, h⟩ := bind_eq_ok.mp h
  obtain ⟨σ₂, h₂, h⟩ := bind_eq_ok.mp h
  obtain ⟨σ₃, h₃, h⟩ := bind_eq_ok.mp h
  obtain ⟨σ₄, h₄, h⟩ := bind_eq_ok.mp h
  cases h
  have hwf₁ := wf_step wf_rootState h₁
  have hwf₂ := wf_step hwf₁ h₂
  have hwf₃ := wf_step hwf₂ h₃
  rw [step_initramfsPath] at h₁
  cases h₁
  have hn₁ : NamesOk initramfsState := by
    refine namesOk_step wf_rootState namesOk_rootState ?_ step_initramfsPath
    intro d n hadd _
    refine ⟨fun i x hx => ?_, fun _ => ?_⟩
    · have hlt : x < 1 := wf_rootState.target_lt (q := .child d i) hx
      obtain rfl : x = rootState.root := Nat.lt_one_iff.mp hlt
      exact absurd (wf_rootState.unique (q := .child d i) hx rootState.target_root) (by simp)
    · rw [hadd.2.1]
      decide
  have hcare₂ : Careful initramfsState (.mount initramfsPath (ofString "initramfs") archive) := ha
  have hn₂ : NamesOk σ₂ := namesOk_step hwf₁ hn₁ hcare₂ h₂
  have hn₃ : NamesOk σ₃ := by
    refine namesOk_step hwf₂ hn₂ ?_ h₃
    intro d n hadd _
    cases h₂
    have hroot : d = initramfsState.root := by
      have hlook := hadd.1
      rw [← vfsMount_root initramfsPath.str (ofString "initramfs") archive]
      exact (Option.some.inj hlook).symm
    rw [hadd.2.1]
    refine ⟨fun i x hx => ?_, fun _ => by decide⟩
    have hlt : initramfsState.root < initramfsState.next := hwf₁.root_lt
    rw [hroot, (vfsMount_fields _ _ archive hlt).1] at hx
    have hxlt : x < initramfsState.next := hwf₁.target_lt (q := .child initramfsState.root i) hx
    rw [(vfsMount_fields _ _ archive hxlt).2]
    have hx₁ : x ≠ initramfsState.root := by
      rintro rfl
      exact absurd (hwf₁.unique (q := .child initramfsState.root i) hx
        initramfsState.target_root) (by simp)
    obtain rfl : x = 1 := by
      change x < 2 at hxlt
      change x ≠ 0 at hx₁
      omega
    decide
  have hcare₄ : Careful σ₃ (.mount bootPath (ofString "fat32") disk) := hd
  exact namesOk_step hwf₃ hn₃ hcare₄ h₄

theorem CarefulRun.namesOk {archive disk : Image} (ha : archive.Named) (hd : disk.Named)
    (h : CarefulRun archive disk σ) : NamesOk σ := by
  induction h with
  | init hinit => exact namesOk_rootfsInit ha hd hinit
  | mkdir hσ path hcare hstep ih => exact namesOk_step (wf_reachable hσ.reachable) ih hcare hstep
  | openFile hσ path flags hcare hstep ih =>
    exact namesOk_step (wf_reachable hσ.reachable) ih hcare hstep

/-- If the images have different names and every new entry gets a new name, then in every state each
    file and directory is found under its own path name. -/
theorem careful_tree {archive disk : Image} (ha : archive.Named) (hd : disk.Named)
    (h : CarefulRun archive disk σ) : TreeOk σ :=
  treeOk_of_namesOk (wf_reachable h.reachable) (h.namesOk ha hd)

/-- A directory made after boot. -/
theorem careful_tree_mkdir : ∃ σ, step bootState (.mkdir ⟨ofString "/a", by decide⟩) = .ok σ ∧
    TreeOk σ := by
  have hcare : Careful bootState (.mkdir ⟨ofString "/a", by decide⟩) := by
    intro d n hadd _
    have hd : d = 0 := (Option.some.inj hadd.1).symm
    rw [hadd.2.1]
    subst hd
    refine ⟨fun i x hx => ?_, fun _ => by decide⟩
    have hi : i < 2 := by
      by_contra hi
      have : (bootState.node 0).childs i = none := by
        change Function.update (Function.update (fun _ => none) 0 (some 1)) 1 (some 3) i = none
        rw [Function.update_of_ne (by omega), Function.update_of_ne (by omega)]
      simp [this] at hx
    interval_cases i
    · obtain rfl : 1 = x := Option.some.inj hx
      decide
    · obtain rfl : 3 = x := Option.some.inj hx
      decide
  have hboot : CarefulRun tmpfsImage tmpfsImage bootState := .init rfl
  exact ⟨_, rfl, careful_tree tmpfsImage_named tmpfsImage_named (hboot.mkdir _ hcare rfl)⟩

/-- Two calls of `vfs_mkdir` with one path name leave two entries with one name, and the second is
    not found. -/
theorem mkdir_twice : ∃ (path : Path) (σ₀ σ : State),
    rootfsInit tmpfsImage tmpfsImage = .ok σ₀ ∧ tmpfsImage.Named ∧
      [Op.mkdir path, Op.mkdir path].foldlM step σ₀ = .ok σ ∧ ¬ TreeOk σ := by
  refine ⟨⟨ofString "/a", by decide⟩, bootState,
    (bootState.withChild 0 2 .dir (ofString "a")).withChild 0 3 .dir (ofString "a"), rfl,
    tmpfsImage_named, rfl, fun htree => ?_⟩
  have hx : (((bootState.withChild 0 2 .dir (ofString "a")).withChild 0 3 .dir
    (ofString "a")).node 0).childs 2 = some 5 := by decide
  have hy : (((bootState.withChild 0 2 .dir (ofString "a")).withChild 0 3 .dir
    (ofString "a")).node 0).childs 3 = some 6 := by decide
  exact absurd (htree.distinct hx hy (by decide)) (by decide)

end RaspiKernel.Vfs
