import RaspiKernel.Vfs.Names
import RaspiKernel.Vfs.OpenInto
import RaspiKernel.Vfs.Resolve

/-!
# A new entry

`vfs_open` and `vfs_mkdir` split a path name at its last slash, and `vfs_lookup`
takes it apart at every slash. For a path name that names an entry these agree:
the components are those of the directory part and the name. The new entry is
the last child of its directory, so that it is found unless an older one has its
name, and only by the components that lead to the directory, with the name behind
them.

Results:
* `components_append`: the components of a path name that has been split.
* `walk_withChild`: what the walks from the root find after a new entry.
* `vfsOpen_creates`: `vfs_open` with `O_CREAT` changes what one path name leads to.
-/

namespace RaspiKernel.Vfs

open Lib
open Fs (FsnodeType)

variable {σ : State} {d e i : ℕ} {n m q : Str} {cs ds : List Str}

/-! ## The last slash -/

theorem getD_append_slash (hn : slash ∉ n) {j : ℕ} (hj : q.length ≤ j) :
    (q ++ slash :: n).getD j 0 = slash ↔ j = q.length := by
  obtain ⟨k, rfl⟩ := Nat.exists_eq_add_of_le hj
  rw [List.getD_append_right _ _ _ _ hj, Nat.add_sub_cancel_left]
  cases k with
  | zero => simp
  | succ k =>
    rw [List.getD_cons_succ]
    refine iff_of_false (fun h => ?_) (by omega)
    rcases lt_or_ge k n.length with hk | hk
    · rw [List.getD_eq_getElem _ _ hk] at h
      exact hn (h ▸ List.getElem_mem hk)
    · rw [List.getD_eq_default _ _ hk] at h
      exact absurd h (by decide)

theorem lastSlash_append (hn : slash ∉ n) : lastSlash (q ++ slash :: n) = q.length := by
  have hloop : ∀ k, q.length < k → (List.range k).foldl
      (fun idx i => if (q ++ slash :: n).getD i 0 = slash then i else idx) 0 = q.length := by
    intro k hk
    induction k with
    | zero => cases hk
    | succ k ih =>
      rw [List.range_succ, List.foldl_append, List.foldl_cons, List.foldl_nil]
      rcases (Nat.lt_succ_iff_lt_or_eq.mp hk) with hlt | rfl
      · rw [if_neg (fun h => hlt.ne' ((getD_append_slash hn hlt.le).mp h))]
        exact ih hlt
      · rw [if_pos ((getD_append_slash hn le_rfl).mpr rfl)]
  refine hloop _ ?_
  rw [List.length_append, List.length_cons]
  omega

theorem dirName_append (hn : slash ∉ n) : dirName (q ++ slash :: n) = q := by
  rw [dirName, lastSlash_append hn, List.take_left]

theorem baseName_append (hn : slash ∉ n) : baseName (q ++ slash :: n) = n := by
  rw [baseName, lastSlash_append hn, List.drop_append, Nat.add_sub_cancel_left,
    List.drop_eq_nil_of_le (Nat.le_succ _), List.drop_one, List.tail_cons, List.nil_append]

section WithChild

variable {type : FsnodeType}

theorem lookup_withChild_of_ne (h : Wf σ) (he : e < σ.next) (hne : e ≠ d) :
    lookup (σ.withChild d i type n) e m = lookup σ e m := by
  refine lookup_congr (by rw [withChild_node_of_ne hne he.ne]) fun j v hv => ?_
  exact (withChild_node (h.target_lt (q := .child e j) hv)).1

/-- In the directory the new entry is behind the others. -/
theorem lookup_withChild_self (h : Wf σ) (hd : d < σ.next) (hi : freeIdx σ d = some i) :
    lookup (σ.withChild d i type n) d m =
      (lookup σ d m).or (if n = m then some σ.next else none) := by
  obtain ⟨hilt, hnone, hbefore⟩ := freeIdx_eq_some.mp hi
  have hself : ((σ.withChild d i type n).node σ.next).name = n := by rw [withChild_node_next hd.ne]
  have hchilds : ((σ.withChild d i type n).node d).childs =
      Function.update (σ.node d).childs i (some σ.next) := by rw [withChild_node_self]
  have hold : ∀ {j x}, (σ.node d).childs j = some x →
      ((σ.withChild d i type n).node d).childs j = some x ∧
        ((σ.withChild d i type n).node x).name = (σ.node x).name := by
    intro j x hx
    have hj : j ≠ i := by
      rintro rfl
      simp [hnone] at hx
    rw [hchilds, Function.update_of_ne hj]
    exact ⟨hx, (withChild_node (h.target_lt (q := .child d j) hx)).1⟩
  cases hfound : lookup σ d m with
  | some v =>
    obtain ⟨j, hj, hv, hname, hfirst⟩ := lookup_eq_some.mp hfound
    rw [Option.some_or]
    refine lookup_eq_some.mpr ⟨j, hj, (hold hv).1, (hold hv).2.trans hname, fun k hk => ?_⟩
    obtain ⟨w, hw, hne⟩ := hfirst k hk
    exact ⟨w, (hold hw).1, by rwa [(hold hw).2]⟩
  | none =>
    rw [Option.none_or]
    by_cases hnm : n = m
    · subst hnm
      rw [if_pos rfl]
      refine lookup_eq_some.mpr ⟨i, hilt, ?_, hself, fun k hk => ?_⟩
      · rw [hchilds, Function.update_self]
      · obtain ⟨w, hw⟩ := Option.ne_none_iff_exists'.mp (hbefore k hk)
        exact ⟨w, (hold hw).1, by rw [(hold hw).2]; exact name_ne_of_lookup h hfound hw⟩
    · rw [if_neg hnm, Option.eq_none_iff_forall_ne_some]
      intro v hv
      obtain ⟨j, -, hchild, hname, -⟩ := lookup_eq_some.mp hv
      rcases withChild_childs h hd hchild with ⟨hx, hlt⟩ | ⟨-, -, rfl⟩
      · rw [(withChild_node hlt).1] at hname
        exact name_ne_of_lookup h hfound hx hname
      · exact hnm (hself.symm.trans hname)

theorem lookup_withChild_next (hd : d ≠ σ.next) : lookup (σ.withChild d i type n) σ.next m = none := by
  rw [Option.eq_none_iff_forall_ne_some]
  intro v hv
  obtain ⟨j, -, hchild, -⟩ := lookup_eq_some.mp hv
  rw [withChild_node_next hd] at hchild
  cases hchild

theorem redirect_withChild (hx : e < σ.next) : redirect (σ.withChild d i type n) e = redirect σ e := by
  rw [redirect, redirect, (withChild_node hx).2.1]

theorem redirect_withChild_next (hd : d ≠ σ.next) :
    redirect (σ.withChild d i type n) σ.next = σ.next := by
  rw [redirect, withChild_node_next hd]
  rfl

/-- A walk from the root finds the new entry if it takes the way to its directory and then its name, and
    nothing was found there before. All other walks find what they found. -/
theorem walk_withChild (h : Wf σ) (hd : walk σ σ.root ds = some d) (hi : freeIdx σ d = some i)
    (hnew : lookup σ d n = none) : walk (σ.withChild d i type n) σ.root cs =
      if cs = ds ++ [n] then some σ.next else walk σ σ.root cs := by
  have hdlt : d < σ.next := h.walk_lt hd
  induction cs using List.reverseRecOn with
  | nil => rw [if_neg (by simp), walk_nil, walk_nil]
  | append_singleton cs m ih =>
    rw [walk_snoc, walk_snoc, ih]
    by_cases hentry : cs = ds ++ [n]
    · -- nothing is found behind the new entry, and nothing was found behind its name
      have hlen : cs ++ [m] ≠ ds ++ [n] := by
        rintro heq
        have := congrArg List.length heq
        rw [hentry] at this
        simp at this
      rw [if_pos hentry, if_neg hlen, hentry, walk_snoc, hd]
      simp [lookup_withChild_next hdlt.ne, hnew]
    · rw [if_neg hentry]
      cases he : walk σ σ.root cs with
      | none =>
        have hne : cs ++ [m] ≠ ds ++ [n] := by
          rintro heq
          rw [(List.append_inj' heq rfl).1, hd] at he
          cases he
        rw [if_neg hne]
        rfl
      | some e =>
        simp only [Option.bind_some]
        by_cases hed : e = d
        · subst hed
          obtain rfl := h.walk_unique he hd
          rw [lookup_withChild_self h hdlt hi]
          cases hfound : lookup σ e m with
          | some v =>
            have hne : cs ++ [m] ≠ cs ++ [n] := by
              rintro heq
              obtain rfl : m = n := by simpa using heq
              simp [hnew] at hfound
            rw [if_neg hne, Option.some_or, Option.map_some, Option.map_some,
              redirect_withChild (h.lookup_lt hfound)]
          | none =>
            by_cases hnm : n = m
            · rw [if_pos hnm, if_pos (by rw [hnm]), Option.none_or, Option.map_some,
                redirect_withChild_next hdlt.ne]
            · have hne : cs ++ [m] ≠ cs ++ [n] := fun heq => hnm (by simpa using heq.symm)
              rw [if_neg hnm, if_neg hne]
              rfl
        · have hne : cs ++ [m] ≠ ds ++ [n] := by
            rintro heq
            rw [(List.append_inj' heq rfl).1, hd] at he
            exact hed (Option.some.inj he).symm
          rw [if_neg hne, lookup_withChild_of_ne h (h.walk_lt he) hed]
          cases hfound : lookup σ e m with
          | none => rfl
          | some v =>
            rw [Option.map_some, Option.map_some, redirect_withChild (h.lookup_lt hfound)]

end WithChild

/-! ## Path names with the same components -/

/-- A path name that begins with a slash is determined by its components, unless they are none. -/
theorem eq_of_components {p : Str} (hp : p.head? = some slash) (hq : q.head? = some slash)
    (hcomp : components p ≠ []) (heq : components q = components p) : q = p := by
  obtain ⟨hsplit, -⟩ := components_ne_nil hcomp
  obtain ⟨hsplit', -⟩ := components_ne_nil (heq ▸ hcomp)
  have hjoin : ∀ s : Str, [slash].intercalate (s.splitOn slash) = s :=
    fun s => List.intercalate_splitOn slash
  have hdrop : q.drop 1 = p.drop 1 := by
    rw [← hjoin (q.drop 1), ← hsplit', heq, hsplit, hjoin]
  cases p with
  | nil => cases hp
  | cons a p =>
    cases q with
    | nil => cases hq
    | cons b q =>
      cases hp
      cases hq
      rw [show q = p from hdrop]

theorem pathOf_snoc (cs : List Component) (c : Component) :
    pathOf (cs ++ [c]) = (cs.flatMap fun c => slash :: c.name) ++ slash :: c.name := by
  rw [pathOf, if_neg (by simp), List.flatMap_append]
  simp

/-- The directory part of a path name leads where the path name without its last component does. -/
theorem vfsLookup_dirName (cs : List Component) (c : Component) :
    vfsLookup σ (dirName (pathOf (cs ++ [c]))) = vfsLookup σ (pathOf cs) := by
  rw [pathOf_snoc, dirName_append c.slash_notMem]
  cases cs with
  | nil => rfl
  | cons c' cs => rw [pathOf, if_neg (List.cons_ne_nil c' cs)]

/-! ## A new file -/

/-- All instances are of `tmpfs`. -/
def TmpfsOnly (σ : State) : Prop := ∀ d < σ.next, (σ.node d).fs = .tmpfs

/-- The states that calls lead to from a `tmpfs` root directory, if only `tmpfs` is mounted. -/
inductive TmpfsReachable : State → Prop where
  | init : TmpfsReachable rootState
  | step {σ σ' : State} (hσ : TmpfsReachable σ) (op : Op)
      (hmount : ∀ target filesystem img, op = .mount target filesystem img →
        findFilesystem filesystem = some .tmpfs)
      (h : step σ op = .ok σ') : TmpfsReachable σ'

theorem tmpfsOnly_withChild {type : FsnodeType} (h : TmpfsOnly σ) (hd : d < σ.next) :
    TmpfsOnly (σ.withChild d i type n) := by
  intro x hx
  rw [withChild_next] at hx
  by_cases hxd : x = d
  · rw [hxd, withChild_node_self]
    exact h d hd
  · rcases Nat.lt_succ_iff_lt_or_eq.mp hx with hlt | rfl
    · rw [withChild_node_of_ne hxd hlt.ne]
      exact h x hlt
    · rw [withChild_node_next hd.ne]
      exact h d hd

theorem tmpfsOnly_setupMount (h : TmpfsOnly σ) (img : Image) :
    TmpfsOnly (setupMount σ .tmpfs img).2 := by
  intro x hx
  rw [setupMount_next] at hx
  rcases setupMount_cases σ .tmpfs img x with hlt | ⟨a, ha, rfl⟩ | hle
  · rw [setupMount_node_of_lt hlt]
    exact h x hlt
  · rw [setupMount_node_new ha]
    rfl
  · omega

theorem tmpfsOnly_setMount {t r : ℕ} (h : TmpfsOnly σ) (ht : t < σ.next) :
    TmpfsOnly (σ.setMount t r) := by
  intro x hx
  by_cases hxt : x = t
  · rw [hxt, State.setMount, State.set]
    simpa using h t ht
  · rw [setMount_node_of_ne hxt]
    exact h x hx

/-- With `tmpfs` only, every state is well formed and has no vnode of another file system. -/
theorem tmpfsReachable_ok (h : TmpfsReachable σ) : Wf σ ∧ TmpfsOnly σ := by
  induction h with
  | init =>
    refine ⟨wf_rootState, fun x hx => ?_⟩
    obtain rfl : x = 0 := Nat.lt_one_iff.mp hx
    rfl
  | @step σ σ' _ op hmount hstep ih =>
    obtain ⟨hwf, htmpfs⟩ := ih
    refine ⟨wf_step hwf hstep, ?_⟩
    rcases step_cases hstep with rfl | ⟨d, n, i, type, hadd, -, rfl⟩ | ⟨target, filesystem, img, hop, rfl⟩
    · exact htmpfs
    · exact tmpfsOnly_withChild htmpfs (hadd.lt hwf)
    · rcases vfsMount_cases σ target.str filesystem img with ⟨heq, -⟩ | ⟨fs, t, hfs, ht, heq⟩
      · rwa [heq]
      · rw [hmount target filesystem img hop] at hfs
        cases hfs
        have hsetup := tmpfsOnly_setupMount htmpfs img
        rw [heq]
        split
        · exact hsetup
        · refine tmpfsOnly_setMount hsetup ?_
          have := hwf.vfsLookup_lt ht
          rw [setupMount_next]
          omega

/-- A directory with fewer than `MAX_DIR_NUM` childs has a free index. -/
theorem freeIdx_of_childList (h : (childList σ d).length < maxDirNum) : ∃ i, freeIdx σ d = some i := by
  rw [← Option.ne_none_iff_exists']
  intro hfull
  have hsome : ∀ x ∈ (List.range maxDirNum).map (σ.node d).childs, x.isSome = true := by
    intro x hx
    obtain ⟨j, hj, rfl⟩ := List.mem_map.mp hx
    have := List.find?_eq_none.mp hfull j hj
    simpa [Option.isSome_iff_ne_none] using this
  rw [childList, List.takeWhile_eq_self_iff.mpr hsome, List.reduceOption_length_eq_iff.mpr hsome] at h
  simp at h

/-- A create that is not refused. -/
theorem createInto_tmpfs {s : OpenState} (hfs : (s.vfs.node d).fs = .tmpfs)
    (htype : (s.vfs.node d).type = .dir) (hnew : lookup s.vfs d n = none)
    (hi : freeIdx s.vfs d = some i) (hn : n.length < maxFileNameLen) :
    createInto s d n = .ok (1, some s.vfs.next,
      { s with vfs := s.vfs.withChild d i .file n
               dataSize := Function.update s.dataSize s.vfs.next 0 }) := by
  have hcreate : create s.vfs d n = .ok (1, some s.vfs.next, s.vfs.withChild d i .file n) := by
    rw [create, hfs]
    change createIn maxPathLen s.vfs d n = _
    rw [createIn, if_neg (by simpa using htype), hnew, if_neg (by simp), hi]
    dsimp only
    have hle : maxFileNameLen ≤ maxPathLen := by decide
    rw [if_neg (by omega), addChild, if_neg (by omega)]
    rfl
  rw [createInto, hcreate]
  rfl

/-- The state behind a call of `vfs_open` that creates a file. -/
def OpenState.created (s : OpenState) (d i : ℕ) (n : Str) (flags : UInt32) (addr : ℕ) : OpenState where
  vfs := s.vfs.withChild d i .file n
  dataSize := Function.update s.dataSize s.vfs.next 0
  file := Function.update s.file addr (some ⟨s.vfs.next, 0, flags⟩)
  target := some addr

/-- A call that creates a file. -/
theorem vfsOpenInto_creates {s : OpenState} {cs : List Component} {c : Component}
    (hfs : (s.vfs.node d).fs = .tmpfs) (htype : (s.vfs.node d).type = .dir)
    (hnew : vfsLookup s.vfs (pathOf (cs ++ [c])) = none) (hd : vfsLookup s.vfs (pathOf cs) = some d)
    (hentry : lookup s.vfs d c.name = none) (hi : freeIdx s.vfs d = some i)
    (hlen : c.name.length < maxFileNameLen) {flags : UInt32} (hcreat : flags &&& oCreat ≠ 0)
    (addr : ℕ) : vfsOpenInto s (pathOf (cs ++ [c])) flags addr =
      (.ok 1, s.created d i c.name flags addr) := by
  have hbase : baseName (pathOf (cs ++ [c])) = c.name := by
    rw [pathOf_snoc, baseName_append c.slash_notMem]
  unfold vfsOpenInto
  rw [hnew]
  dsimp only
  rw [if_pos hcreat, vfsLookup_dirName, hd, hbase]
  dsimp only
  rw [createInto_tmpfs hfs htype hentry hi hlen]
  rfl

/-- If the directory has room and the path name leads nowhere, `vfs_open` with `O_CREAT` returns 1, the
    path name leads to a new file without data, and every other path name to where it led before. -/
theorem vfsOpen_creates {s : OpenState} (h : Wf s.vfs) (htmpfs : TmpfsOnly s.vfs) {path : Path}
    {cs : List Component} {c : Component} (hpath : path.str = pathOf (cs ++ [c]))
    (hnames : ∀ x ∈ cs ++ [c], x.name.length ≤ 15) (hnew : vfsLookup s.vfs path.str = none)
    (hd : vfsLookup s.vfs (pathOf cs) = some d) (htype : (s.vfs.node d).type = .dir)
    (hroom : (childList s.vfs d).length < maxDirNum) {flags : UInt32} (hcreat : flags &&& oCreat ≠ 0)
    (addr : ℕ) :
    ∃ s', vfsOpenInto s path.str flags addr = (.ok 1, s') ∧
      (∃ v, vfsLookup s'.vfs path.str = some v ∧ s.vfs.next ≤ v ∧ (s'.vfs.node v).type = .file ∧
        s'.dataSize v = 0) ∧
      ∀ q : Str, q.head? = some slash → (∀ x ∈ components q, x.length < maxPathLen) → q ≠ path.str →
        vfsLookup s'.vfs q = vfsLookup s.vfs q := by
  have hwalk : walk s.vfs s.vfs.root (cs.map Component.name) = some d := by
    rwa [← components_pathOf, ← vfsLookup_eq]
  have hdlt : d < s.vfs.next := h.walk_lt hwalk
  have hcomp : components path.str = cs.map Component.name ++ [c.name] := by
    rw [hpath, components_pathOf, List.map_append]
    rfl
  have hentry : lookup s.vfs d c.name = none := by
    rw [vfsLookup_eq, hcomp, walk_snoc, hwalk] at hnew
    simpa using hnew
  obtain ⟨i, hi⟩ := freeIdx_of_childList hroom
  have hlen : c.name.length < maxFileNameLen := Nat.lt_succ_of_le (hnames c (by simp))
  have hopen : vfsOpenInto s path.str flags addr = (.ok 1, s.created d i c.name flags addr) := by
    rw [hpath] at hnew ⊢
    exact vfsOpenInto_creates (htmpfs d hdlt) htype hnew hd hentry hi hlen hcreat addr
  have hlookup : ∀ q, vfsLookup (s.created d i c.name flags addr).vfs q =
      if components q = components path.str then some s.vfs.next else vfsLookup s.vfs q := by
    intro q
    rw [vfsLookup_eq, vfsLookup_eq, hcomp]
    exact walk_withChild h hwalk hi hentry
  refine ⟨_, hopen, ⟨s.vfs.next, ?_, le_rfl, ?_, Function.update_self ..⟩, fun q hq _ hne => ?_⟩
  · rw [hlookup, if_pos rfl]
  · change ((s.vfs.withChild d i .file c.name).node s.vfs.next).type = _
    rw [withChild_node_next hdlt.ne]
    rfl
  · have hhead : path.str.head? = some slash := by
      rw [hpath, pathOf_snoc]
      cases cs <;> rfl
    rw [hlookup, if_neg fun heq => hne (eq_of_components hhead hq (by simp [hcomp]) heq)]

/-- The root directory without entries, and no open file. -/
def rootFiles : OpenState := ⟨rootState, fun _ => 0, fun _ => none, none⟩

/-- `f`. -/
def fileName : Component := ⟨ofString "f", by decide, by decide, by decide, by decide⟩

/-- A first file in the root directory. -/
theorem vfsOpen_creates_root : ∃ s', vfsOpenInto rootFiles (ofString "/f") oCreat 4096 = (.ok 1, s') ∧
    (∃ v, vfsLookup s'.vfs (ofString "/f") = some v ∧ 1 ≤ v ∧ (s'.vfs.node v).type = .file ∧
      s'.dataSize v = 0) ∧
    ∀ q : Str, q.head? = some slash → (∀ x ∈ components q, x.length < maxPathLen) →
      q ≠ ofString "/f" → vfsLookup s'.vfs q = vfsLookup rootState q := by
  obtain ⟨hwf, htmpfs⟩ := tmpfsReachable_ok .init
  have hpath : (⟨ofString "/f", by decide⟩ : Path).str = pathOf ([] ++ [fileName]) := by decide
  exact vfsOpen_creates hwf htmpfs hpath (by decide) (by decide) rfl rfl (by decide) (by decide) 4096

end RaspiKernel.Vfs
