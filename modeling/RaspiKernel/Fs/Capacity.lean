import RaspiKernel.Fs.Endless
import RaspiKernel.Fs.Initramfs
import RaspiKernel.Fs.Remount

/-!
# The room of a directory

`initramfs_init` and `setup_fat32` store a child for each entry that they do not pass
over. Neither looks at `MAX_DIR_NUM`; only the lookups do, which go through `childs[]`
from its start and take the first child with the name.

Results:
* `finds_all_iff`: when a search from the start finds every element.
* `archiveKept_iff`, `fat32Kept_iff`: for the two file systems.
* `capacity_iff`: which archives and which directories respect the capacity.
-/

namespace RaspiKernel.Fs

open Lib Relation
open Boot (Entry Round ArchiveAt archive visits fileVisits fileOf fileInode initramfsInit nameOffset
  wordEntry)
open Vfs (Str)

/-! ## A search from the start -/

/-- In a table of which only the first `cap` elements are looked at, every element is found exactly if
    there are no more of them, and none comes twice. -/
theorem finds_all_iff {α : Type} [DecidableEq α] (names : List α) (cap : ℕ) :
    (∀ i < names.length, ∃ name, (names.take cap).findIdx? (fun n => name = n) = some i) ↔
      names.length ≤ cap ∧ names.Nodup := by
  constructor
  · intro h
    have hlen : names.length ≤ cap := by
      by_contra hlt
      obtain ⟨name, hname⟩ := h cap (by omega)
      obtain ⟨hi, -⟩ := List.findIdx?_eq_some_iff_getElem.mp hname
      rw [List.length_take] at hi
      omega
    rw [List.take_of_length_le hlen] at h
    refine ⟨hlen, List.pairwise_iff_getElem.mpr fun i j hi hj hij heq => ?_⟩
    obtain ⟨name, hname⟩ := h j hj
    obtain ⟨_, hj', hfirst⟩ := List.findIdx?_eq_some_iff_getElem.mp hname
    have hi' := hfirst i hij
    rw [decide_eq_true_eq] at hj'
    rw [decide_eq_true_eq, heq] at hi'
    exact hi' hj'
  · rintro ⟨hlen, hnodup⟩ i hi
    rw [List.take_of_length_le hlen]
    refine ⟨names[i], List.findIdx?_eq_some_iff_getElem.mpr ⟨hi, by simp, fun j hji => ?_⟩⟩
    rw [decide_eq_true_eq]
    exact fun heq => List.pairwise_iff_getElem.mp hnodup j i (by omega) hi hji heq.symm

/-! ## The archive -/

section Archive

variable {m : Mem} {base fuel : ℕ} {entries : List Entry} {trailer : Entry}

/-- Wherever its vnodes are, `initramfs_init` comes back without a write behind `childs[]` or behind an inode,
    and `initramfs_lookup` finds every child by some name. -/
def ArchiveKept (fuel : ℕ) (m : Mem) (base : ℕ) : Prop :=
  ∀ vnode dir, ∃ dir' inodes, initramfsInit fuel m base vnode dir = some (.ok (dir', inodes)) ∧
    inodes.length ≤ maxDirNum ∧
    ∀ i < inodes.length, ∃ name, 0 ∉ name ∧ initramfsLookup inodes name = some i

/-- The name that the inode of an entry shows. -/
def visitName (x : Entry × Round) : Str := shownName x.1.name x.2.data x.2.fs.toNat

theorem not_mem_shownName {name : Str} {data size : ℕ} (h : 0 ∉ name) :
    0 ∉ shownName name data size := by
  unfold shownName
  split_ifs
  · exact h
  · intro h0
    rcases List.mem_append.mp h0 with h0 | h0
    · exact h (List.mem_of_mem_take h0)
    · exact absurd (List.mem_takeWhile_imp h0) (by decide)

/-- In the inodes the lookup searches the names that they show. -/
theorem initramfsLookup_eq {xs : List (Entry × Round)} {inodes : List Mem} {name : Str}
    (h : List.Forall₂ (fun x inode => HoldsStr inode nameOffset (visitName x)) xs inodes)
    (hname : 0 ∉ name) : initramfsLookup inodes name =
      ((xs.map visitName).take maxDirNum).findIdx? (fun n => name = n) := by
  unfold initramfsLookup
  rw [← List.map_take, List.findIdx?_map]
  generalize maxDirNum = cap
  induction h generalizing cap with
  | nil => simp
  | @cons x inode xs inodes hx _ ih =>
    cases cap with
    | zero => simp
    | succ cap =>
      rw [List.take_succ_cons, List.take_succ_cons, List.findIdx?_cons, List.findIdx?_cons, ih cap]
      simp only [Boot.strcmp_eq_zero hx hname, Function.comp_apply]

theorem archiveKept_iff (h : ArchiveAt m base entries trailer)
    (hfuel : (archive entries trailer).length ≤ fuel) : ArchiveKept fuel m base ↔
      (fileVisits base entries).length ≤ maxDirNum ∧
        (∀ x ∈ fileVisits base entries, x.1.name.length < 252) ∧
        ((fileVisits base entries).map visitName).Nodup := by
  have hshown : ∀ inodes,
      List.Forall₂ (fun x inode => fileInode (fileOf x) = .ok inode) (fileVisits base entries) inodes →
        List.Forall₂ (fun x inode => HoldsStr inode nameOffset (visitName x)) (fileVisits base entries)
          inodes := by
    intro inodes hinodes
    refine ((List.forall₂_and_left _ _).mpr ⟨fun x hx => hx, hinodes⟩).imp ?_
    rintro x inode ⟨hx, hinode⟩
    have hx := List.mem_of_mem_filter hx
    obtain ⟨-, hmod, hlt⟩ := Boot.fs_toNat (Boot.visits_visited h x hx) (Boot.visits_bounds h hx).1
    unfold visitName
    rw [← hmod]
    exact fileInode_shown hinode x.1.nul_free (hmod.trans_lt hlt)
  have hnames : ∀ name ∈ (fileVisits base entries).map visitName, 0 ∉ name := by
    intro name hname
    obtain ⟨x, -, rfl⟩ := List.mem_map.mp hname
    exact not_mem_shownName x.1.nul_free
  have hfinds := finds_all_iff ((fileVisits base entries).map visitName) maxDirNum
  rw [List.length_map] at hfinds
  constructor
  · intro hkept
    obtain ⟨dir', inodes, hinit, -, hfind⟩ := hkept (fun _ => 0) fun _ => 0
    obtain ⟨hinodes, -⟩ := (Boot.initramfsInit_archive h hfuel).mp ⟨dir', hinit⟩
    obtain ⟨hlen, hnodup⟩ := hfinds.mp fun i hi => by
      obtain ⟨name, hname, hlookup⟩ := hfind i (hinodes.length_eq ▸ hi)
      exact ⟨name, (initramfsLookup_eq (hshown inodes hinodes) hname).symm.trans hlookup⟩
    refine ⟨hlen, fun x hx => ?_, hnodup⟩
    obtain ⟨inode, -, hinode⟩ := forall₂_mem_left hinodes hx
    exact Nat.lt_succ_of_le (Boot.fileInode_ok_iff.mp ⟨inode, hinode⟩)
  · rintro ⟨hlen, hshort, hnodup⟩ vnode dir
    have hok : ∀ x ∈ fileVisits base entries, ∃ inode, fileInode (fileOf x) = .ok inode :=
      fun x hx => Boot.fileInode_ok_iff.mpr (Nat.le_of_lt_succ (hshort x hx))
    obtain ⟨inodes, hinodes⟩ := exists_forall₂ hok
    have hcap : maxDirNum ≤ 29 := by decide
    obtain ⟨dir', hinit⟩ := (Boot.initramfsInit_archive h hfuel).mpr ⟨hinodes, hlen.trans hcap⟩
    refine ⟨dir', inodes, hinit, hinodes.length_eq ▸ hlen, fun i hi => ?_⟩
    obtain ⟨name, hname⟩ := hfinds.mpr ⟨hlen, hnodup⟩ i (hinodes.length_eq ▸ hi)
    obtain ⟨hi', heq, -⟩ := List.findIdx?_eq_some_iff_getElem.mp hname
    have hmem : name ∈ (fileVisits base entries).map visitName := by
      rw [of_decide_eq_true heq]
      exact List.mem_of_mem_take (List.getElem_mem hi')
    exact ⟨name, hnames name hmem, (initramfsLookup_eq (hshown inodes hinodes) (hnames name hmem)).trans hname⟩

end Archive

/-! ## FAT32 -/

section Fat

variable {disk : Disk} {info : Fat32Info} {c d fuel : ℕ} {v w : Vnode}

/-- `fat32_lookup` (`fat32.c`, lines 188–210): the index of the child that it finds. The names have no NUL
    in them. -/
def fat32Lookup (dir : Vnode) (name : Str) : Option ℕ :=
  (dir.childs.take maxDirNum).findIdx? fun v => name = v.inode.name

/-- `fat32_lookup` finds every child of the directory by some name. -/
def Vnode.AllFound (dir : Vnode) : Prop :=
  ∀ i < dir.childs.length, ∃ name, fat32Lookup dir name = some i

/-- `setup_fat32` does not write behind `childs[]`, however long it runs, and if it comes back, every
    child in the tree is found. -/
def Fat32Kept (disk : Disk) (info : Fat32Info) (inode : Fat32Inode) : Prop :=
  ∀ fuel, setupFat32 disk info fuel inode ≠ .error .overrun ∧
    ∀ v, setupFat32 disk info fuel inode = .ok v → ∀ path w, v.get? path = some w → w.AllFound

/-- In no directory of the tree below the cluster two entries have one name. -/
def NamesApart (disk : Disk) (info : Fat32Info) (c : ℕ) : Prop :=
  ∀ d, ReflTransGen (SubDir disk info) c d → ∀ l, FatChain disk info d l →
    ((dirEntries disk info l).map DirEntry.name).Nodup

theorem allFound_iff : v.AllFound ↔ v.childs.length ≤ maxDirNum ∧
    (v.childs.map fun c => c.inode.name).Nodup := by
  have hfinds := finds_all_iff (v.childs.map fun c => c.inode.name) maxDirNum
  rw [List.length_map] at hfinds
  rw [← hfinds]
  unfold Vnode.AllFound fat32Lookup
  simp only [← List.map_take, List.findIdx?_map]
  rfl

/-! ### The seventeenth child -/

/-- With a bound that is large enough, a child is made of every entry that is passed. -/
theorem Passed.made {es : List DirEntry} (h : Passed (Ends disk info) es) :
    ∃ n, ∀ fuel, n ≤ fuel → ∀ e ∈ es, Made (setupFat32 disk info fuel) disk info e := by
  refine exists_bound fun e he => ?_
  by_cases htype : e.type = .dir
  · obtain ⟨n, hn⟩ := (h.each e he htype).returns
    refine ⟨n, fun fuel hfuel => ?_⟩
    obtain ⟨v, hv⟩ := hn fuel hfuel (childInode disk info e) rfl
    exact ⟨v, by rw [makeChild, if_pos htype, hv]⟩
  · exact ⟨0, fun fuel _ => ⟨_, by rw [makeChild, if_neg htype]⟩⟩

theorem foldlM_addChild_made {setup : Fat32Inode → Except Stop Vnode} {es : List DirEntry}
    (acc : List Vnode) (hcap : acc.length + es.length ≤ maxDirNum)
    (hes : ∀ e ∈ es, Made setup disk info e) :
    ∃ childs, es.foldlM (addChild setup disk info) acc = .ok childs ∧
      childs.length = acc.length + es.length := by
  obtain ⟨vs, hvs⟩ := exists_forall₂ hes
  exact ⟨acc ++ vs, (foldlM_addChild (by omega)).mpr ⟨hcap, vs, hvs, rfl⟩,
    by rw [List.length_append, hvs.length_eq]⟩

/-- A call stops at the entry at which adding a child does, once the bound is large enough for those
    before. -/
theorem setupFat32_stops {l : List ℕ} {x n : ℕ} {es rest : List DirEntry} {e : DirEntry} {stop : Stop}
    (hl : FatPath disk info d l x) (hx : IsFatEntryValid x)
    (heq : blockEntries (disk (clusterBlock info x)) = es ++ e :: rest)
    (hpassed : Passed (Ends disk info) (dirEntries disk info l ++ es))
    (hadd : ∀ fuel, n ≤ fuel → ∀ childs, childs.length = (dirEntries disk info l ++ es).length →
      addChild (setupFat32 disk info fuel) disk info childs e = .error stop) :
    ∃ n', ∀ fuel, n' ≤ fuel → ∀ inode : Fat32Inode, inode.cluster = d →
      setupFat32 disk info fuel inode = .error stop := by
  obtain ⟨k, hk⟩ := hpassed.made
  refine ⟨max (max n k) l.length + 1, fun fuel hfuel inode hc => ?_⟩
  subst hc
  obtain ⟨f, rfl⟩ : ∃ f, fuel = f + l.length + 1 := ⟨fuel - l.length - 1, by omega⟩
  obtain ⟨hcap, -, -⟩ := passed_append.mp hpassed
  obtain ⟨hmade, hmade'⟩ := List.forall_mem_append.mp (hk (f + l.length) (by omega))
  obtain ⟨data, hpath⟩ := setupLoop_path (setupFat32 disk info (f + l.length)) hl (f + 1) inode.data
  obtain ⟨childs, hfold, hlen⟩ := foldlM_addChild_made [] (by simpa using (by omega :
    (dirEntries disk info l).length ≤ maxDirNum)) hmade
  rw [List.length_nil, zero_add] at hlen
  obtain ⟨childs', hfold', hlen'⟩ := foldlM_addChild_made childs (by omega) hmade'
  have hstop := hadd (f + l.length) (by omega) childs' (by rw [List.length_append]; omega)
  rw [setupFat32, show f + l.length + 1 = f + 1 + l.length by omega, hpath, hfold]
  change (setupLoop _ _ _ (f + 1) x _ (data, childs) >>= _) = _
  rw [setupLoop_valid hx, heq, List.foldlM_append, hfold']
  change ((List.foldlM _ childs' (e :: rest) >>= _) >>= _) = _
  rw [List.foldlM_cons, hstop]
  rfl

/-- Every call whose walk comes to a seventeenth entry writes behind `childs[]`. -/
theorem overrun_of_crowded (hreach : ReflTransGen (SubDir disk info) c d)
    (hd : Crowded (Ends disk info) disk info d) :
    ∃ n, ∀ fuel, n ≤ fuel → ∀ inode : Fat32Inode, inode.cluster = c →
      setupFat32 disk info fuel inode = .error .overrun := by
  induction hreach using ReflTransGen.head_induction_on with
  | refl =>
    obtain ⟨l, x, es, e, rest, hl, hx, heq, hpassed, hfull⟩ := hd
    refine setupFat32_stops hl hx heq hpassed (n := 0) fun fuel _ childs hlen => ?_
    rw [addChild, if_pos (by omega)]
  | head hsub _ ih =>
    obtain ⟨n, hn⟩ := ih
    obtain ⟨e, ⟨l, x, es, rest, hl, hx, heq, hpassed, hlt⟩, htype, rfl⟩ := hsub
    refine setupFat32_stops hl hx heq hpassed (n := n) fun fuel hfuel childs hlen => ?_
    rw [addChild, if_neg (by omega), makeChild, if_pos htype, hn fuel hfuel (childInode disk info e) rfl]
    rfl

/-! ### The tree -/

/-- The entries of the chain lead to the subdirectories. -/
theorem subDir_iff {l : List ℕ} (hl : FatChain disk info c l)
    (hlen : (dirEntries disk info l).length ≤ maxDirNum)
    (hends : ∀ e ∈ dirEntries disk info l, Ends disk info e) :
    SubDir disk info c d ↔ ∃ e ∈ dirEntries disk info l, e.type = .dir ∧ e.cluster = d := by
  constructor
  · rintro ⟨e, ⟨l', x, es, rest, hl', hx, heq, -, -⟩, htype, hd⟩
    obtain ⟨es', hes'⟩ := hl'.sublist_entries hx hl
    exact ⟨e, by simp [hes', heq], htype, hd⟩
  · rintro ⟨e, he, htype, hd⟩
    obtain ⟨x, hx, hex⟩ := List.mem_flatMap.mp he
    obtain ⟨l₁, l₂, rfl⟩ := List.append_of_mem hx
    obtain ⟨es, rest, heq⟩ := List.append_of_mem hex
    have hpath : FatPath disk info c l₁ x ∧ IsFatEntryValid x := by
      clear hlen hends he hx
      induction l₁ generalizing c with
      | nil =>
        cases hl with
        | link hvalid _ => exact ⟨.start _, hvalid⟩
      | cons y l₁ ih =>
        cases hl with
        | link hvalid hl =>
          obtain ⟨hpath, hx⟩ := ih hl
          exact ⟨.link hvalid hpath, hx⟩
    have hsplit : dirEntries disk info (l₁ ++ x :: l₂) =
        (dirEntries disk info l₁ ++ es) ++ e :: (rest ++ dirEntries disk info l₂) := by
      rw [dirEntries_append, dirEntries_cons, heq]
      simp
    rw [hsplit] at hlen hends
    rw [List.length_append, List.length_cons] at hlen
    exact ⟨e, ⟨l₁, x, es, rest, hpath.1, hpath.2, heq, ⟨by omega, fun e' he' =>
      hends e' (List.mem_append_left _ he')⟩, by omega⟩, htype, hd⟩

/-- A property of all vnodes of a tree. -/
theorem forall_get?_iff {Q : Vnode → Prop} : (∀ path w, v.get? path = some w → Q w) ↔
    Q v ∧ ∀ c ∈ v.childs, ∀ path w, c.get? path = some w → Q w := by
  constructor
  · intro h
    refine ⟨h [] v rfl, fun c hc path w hw => ?_⟩
    obtain ⟨i, hi⟩ := List.getElem?_of_mem hc
    refine h (i :: path) w ?_
    rw [Vnode.get?, hi]
    exact hw
  · rintro ⟨hv, hchilds⟩ path w hw
    cases path with
    | nil =>
      obtain rfl : v = w := Option.some.inj hw
      exact hv
    | cons i path =>
      obtain ⟨c, hc, hw⟩ := Vnode.get?_cons hw
      exact hchilds c (List.mem_of_getElem? hc) path w hw

theorem namesApart_iff {l : List ℕ} (hl : FatChain disk info c l) : NamesApart disk info c ↔
    ((dirEntries disk info l).map DirEntry.name).Nodup ∧
      ∀ d, SubDir disk info c d → NamesApart disk info d := by
  constructor
  · exact fun h => ⟨h c .refl l hl, fun d hd d' hd' => h d' (.head hd hd')⟩
  · rintro ⟨hown, hsub⟩ d hd l' hl'
    rcases ReflTransGen.cases_head hd with rfl | ⟨d', hd', hreach⟩
    · rwa [← hl.unique hl']
    · exact hsub d' hd' d hreach l' hl'

/-- The child of an entry has its name. -/
theorem makeChild_name {e : DirEntry}
    (h : makeChild (setupFat32 disk info fuel) disk info e = .ok v) : v.inode.name = e.name := by
  unfold makeChild at h
  split_ifs at h with htype
  · cases fuel with
    | zero => cases h
    | succ fuel =>
      obtain ⟨-, -, -, ⟨data, hv⟩, -⟩ := setupFat32_ok h
      rw [hv]
      rfl
  · cases h
    rfl

theorem names_made {es : List DirEntry} {vs : List Vnode}
    (h : List.Forall₂ (fun e v => makeChild (setupFat32 disk info fuel) disk info e = .ok v) es vs) :
    (vs.map fun c => c.inode.name) = es.map DirEntry.name := by
  induction h with
  | nil => rfl
  | cons hv _ ih => rw [List.map_cons, List.map_cons, makeChild_name hv, ih]

/-- In a tree that is set up, all children are found exactly if no directory has two entries of one name. -/
theorem tree_found_iff {inode : Fat32Inode} (h : setupFat32 disk info fuel inode = .ok v) :
    (∀ path w, v.get? path = some w → w.AllFound) ↔ NamesApart disk info inode.cluster := by
  induction fuel generalizing inode v with
  | zero => cases h
  | succ fuel ih =>
    obtain ⟨l, hl, -, -, hdir⟩ := setupFat32_ok h
    have hends : ∀ e ∈ dirEntries disk info l, Ends disk info e := by
      intro e he
      obtain ⟨w, -, hw⟩ := forall₂_mem_left hdir.made he
      exact ends_of_made e ⟨w, hw⟩
    have hlen := hdir.made.length_eq
    have hcap := hdir.length_le
    rw [forall_get?_iff, namesApart_iff hl, allFound_iff, names_made hdir.made,
      and_iff_right (show v.childs.length ≤ maxDirNum by omega)]
    refine and_congr_right fun _ => ⟨fun hall d hd => ?_, fun hall w hw => ?_⟩
    · obtain ⟨e, he, htype, rfl⟩ := (subDir_iff hl hdir.length_le hends).mp hd
      obtain ⟨w, hw, hmake⟩ := forall₂_mem_left hdir.made he
      rw [makeChild, if_pos htype] at hmake
      exact (ih hmake).mp (hall w hw)
    · obtain ⟨e, he, hmake⟩ := forall₂_mem_right hdir.made hw
      by_cases htype : e.type = .dir
      · rw [makeChild, if_pos htype] at hmake
        exact (ih hmake).mpr (hall e.cluster ((subDir_iff hl hdir.length_le hends).mpr
          ⟨e, he, htype, rfl⟩))
      · rw [makeChild, if_neg htype] at hmake
        cases hmake
        refine forall_get?_iff.mpr ⟨fun i hi => absurd hi (Nat.not_lt_zero _), fun w hw => ?_⟩
        cases hw

/-- `setup_fat32` respects the capacity exactly if no directory that it is called for has a seventeenth
    entry and, where the tree is finite, no directory has two entries of one name. -/
theorem fat32Kept_iff (disk : Disk) (info : Fat32Info) (inode : Fat32Inode) :
    Fat32Kept disk info inode ↔
      (∀ d, ReflTransGen (SubDir disk info) inode.cluster d → ¬ Crowded (Ends disk info) disk info d) ∧
        (WalkEnds disk info inode.cluster → NamesApart disk info inode.cluster) := by
  constructor
  · intro h
    refine ⟨fun d hreach hd => ?_, fun hends => ?_⟩
    · obtain ⟨n, hn⟩ := overrun_of_crowded hreach hd
      exact (h n).1 (hn n le_rfl inode rfl)
    · obtain ⟨n, hn⟩ := hends.returns
      obtain ⟨v, hv⟩ := hn n le_rfl inode rfl
      exact (tree_found_iff hv).mp ((h n).2 v hv)
  · rintro ⟨hroom, hnames⟩ fuel
    refine ⟨fun hover => ?_, fun v hv => (tree_found_iff hv).mpr (hnames (walkEnds_of_ok hv))⟩
    obtain ⟨d, hreach, hd⟩ := crowded_of_stop hover (by decide)
    exact hroom d hreach hd

end Fat

/-- The capacity of `childs[]`. On every archive `initramfs_init` stays within it, and every child that it
    stores is found, exactly if at most 16 entries have data, each with a name that is not written
    behind its inode, and no two of them show the same name. On every directory `setup_fat32` does so
    exactly if its walk comes to no seventeenth entry and, where the tree is finite, no directory has
    two entries of one name. -/
theorem capacity_iff {m : Mem} {base fuel : ℕ} {entries : List Entry} {trailer : Entry}
    (h : ArchiveAt m base entries trailer) (hfuel : (archive entries trailer).length ≤ fuel)
    (disk : Disk) (info : Fat32Info) (inode : Fat32Inode) :
    (ArchiveKept fuel m base ↔ (fileVisits base entries).length ≤ maxDirNum ∧
      (∀ x ∈ fileVisits base entries, x.1.name.length < 252) ∧
      ((fileVisits base entries).map visitName).Nodup) ∧
    (Fat32Kept disk info inode ↔
      (∀ d, ReflTransGen (SubDir disk info) inode.cluster d → ¬ Crowded (Ends disk info) disk info d) ∧
      (WalkEnds disk info inode.cluster → NamesApart disk info inode.cluster)) :=
  ⟨archiveKept_iff h hfuel, fat32Kept_iff disk info inode⟩

/-- An archive of one file, and a root directory of one file. -/
theorem capacity_small : ArchiveKept 400 (ofBytes (archive [wordEntry] Boot.smallTrailer)) 0 ∧
    Fat32Kept (smallImage (usedBelow 4)) smallInfo smallRoot := by
  have hat : ArchiveAt (ofBytes (archive [wordEntry] Boot.smallTrailer)) 0 [wordEntry]
      Boot.smallTrailer :=
    ⟨holds_ofBytes fun i _ => by rw [Nat.zero_add], by decide, ⟨rfl, rfl⟩, by decide +kernel,
      by decide +kernel⟩
  have hfuel : (archive [wordEntry] Boot.smallTrailer).length ≤ 400 := by decide +kernel
  obtain ⟨harchive, hfat⟩ := capacity_iff hat hfuel (smallImage (usedBelow 4)) smallInfo smallRoot
  refine ⟨harchive.mpr ⟨by decide, by decide, List.nodup_singleton _⟩, hfat.mpr ?_⟩
  have hl : FatChain (smallImage (usedBelow 4)) smallInfo 2 [2] := smallChain (by decide +kernel)
  have hentries : (dirEntries (smallImage (usedBelow 4)) smallInfo [2]).length ≤ maxDirNum ∧
      (∀ e ∈ dirEntries (smallImage (usedBelow 4)) smallInfo [2], e.type ≠ .dir) ∧
      ((dirEntries (smallImage (usedBelow 4)) smallInfo [2]).map DirEntry.name).Nodup := by
    decide +kernel
  obtain ⟨hlen, htype, hnodup⟩ := hentries
  have hends : WalkEnds (smallImage (usedBelow 4)) smallInfo 2 :=
    .mk hl hlen fun e he hdir => absurd hdir (htype e he)
  have hnosub : ∀ d, ¬ SubDir (smallImage (usedBelow 4)) smallInfo 2 d := by
    intro d hd
    obtain ⟨e, he, hdir, -⟩ := (subDir_iff hl hlen fun e he hdir => absurd hdir (htype e he)).mp hd
    exact htype e he hdir
  refine ⟨fun d hreach => ?_, fun _ => (namesApart_iff hl).mpr ⟨hnodup, fun d hd => absurd hd (hnosub d)⟩⟩
  rcases ReflTransGen.cases_head hreach with rfl | ⟨d', hd', -⟩
  · exact hends.not_crowded
  · exact absurd hd' (hnosub d')

/-- A card whose root directory has two clusters full of entries. -/
def crowdedImage : Disk := fun b i =>
  if b ≥ 4 then 0x41 else smallImage (fun c => if c = 2 then 3 else 0x0fffffff) b i

/-- Seventeen files in an archive, and thirty-two in a directory, are written behind `childs[]`. -/
theorem capacity_exceeded :
    ¬ ArchiveKept 4000 (ofBytes (archive (List.replicate 17 wordEntry) Boot.smallTrailer)) 0 ∧
      ¬ Fat32Kept crowdedImage smallInfo smallRoot := by
  constructor
  · intro hkept
    have hfuel : (archive (List.replicate 17 wordEntry) Boot.smallTrailer).length ≤ 4000 := by
      decide +kernel
    have hcount : (fileVisits 0 (List.replicate 17 wordEntry)).length = 17 := by
      rw [Boot.length_fileVisits]
      decide
    have hcap := ((archiveKept_iff (Boot.archiveAt_words (by omega)) hfuel).mp hkept).1
    rw [hcount] at hcap
    exact absurd hcap (by decide)
  · intro h
    have hover : (match setupFat32 crowdedImage smallInfo 4 smallRoot with
      | .error stop => decide (stop = .overrun)
      | .ok _ => false) = true := by decide +kernel
    have hne := (h 4).1
    cases hres : setupFat32 crowdedImage smallInfo 4 smallRoot with
    | error stop =>
      rw [hres] at hover hne
      exact hne (congrArg Except.error (of_decide_eq_true hover))
    | ok v =>
      rw [hres] at hover
      cases hover

end RaspiKernel.Fs
