import RaspiKernel.Fs.Remount

/-!
# Decoding directories

`setup_fat32` makes a child of every entry that it does not pass over, and passes
over neither deleted entries nor volume labels. It reads the first block of each
cluster only. So the tree it makes is the one on the disk where no such entry is
in a first block and no live one in another block.

Results:
* `decoded_iff`: when the tree that a call came back with is the one on the disk.
* `WfDir.walkEnds`: a call comes back for a tree of such directories.
* `decodes_iff`: when `setup_fat32` decodes a well-formed directory exactly.
-/

namespace RaspiKernel.Fs

open Lib

variable {disk : Disk} {info : Fat32Info}

/-! ## Slots -/

/-- An entry that stands for a file or a directory: not empty and not behind the end of the table, not
    deleted, not `.` or `..`, and neither hidden nor a volume label. A long name has the bit of a volume
    label, too. -/
structure Live (buf : Mem) (i : ℕ) : Prop where
  used : buf (32 * i) ≠ 0x00 ∧ buf (32 * i) ≠ 0x20
  kept : buf (32 * i) ≠ 0xe5
  no_dot : buf (32 * i) ≠ 0x2e
  shown : entryAttr buf i &&& 0x02 = 0
  no_label : entryAttr buf i &&& 0x0f ≠ 0x0f ∧ entryAttr buf i &&& 0x08 = 0

theorem live_iff (buf : Mem) (i : ℕ) : Live buf i ↔
    ¬ SkipEntry buf i ∧ buf (32 * i) ≠ 0xe5 ∧ entryAttr buf i &&& 0x08 = 0 := by
  unfold SkipEntry
  constructor
  · rintro ⟨⟨h1, h2⟩, h3, h4, h5, h6, h7⟩
    refine ⟨?_, h3, h7⟩
    rintro ((h | h) | h | h | h)
    · exact h h5
    · exact h6 h
    · exact h2 h
    · exact h1 h
    · exact h4 h
  · rintro ⟨hskip, h3, h7⟩
    push Not at hskip
    obtain ⟨⟨h5, h6⟩, h2, h1, h4⟩ := hskip
    exact ⟨⟨h1, h2⟩, h3, h4, h5, h6, h7⟩

instance (buf : Mem) (i : ℕ) : Decidable (Live buf i) := decidable_of_iff' _ (live_iff buf i)

/-- The type, the cluster and the size that an entry gives. -/
def slotFields (disk : Disk) (s : ℕ × ℕ) : FsnodeType × ℕ × ℕ :=
  (if entryAttr (disk s.1) s.2 &&& 0x10 ≠ 0 then .dir else .file, entryCluster (disk s.1) s.2,
    load (disk s.1) (32 * s.2 + 28) 4)

/-- The slots of a block. -/
def blockSlots (b : ℕ) : List (ℕ × ℕ) := (List.range slotsPerBlock).map fun i => (b, i)

/-- The slots of the first block of a cluster. -/
def firstSlots (info : Fat32Info) (c : ℕ) : List (ℕ × ℕ) := blockSlots (clusterBlock info c)

/-- The slots of the other blocks of a cluster. -/
def laterSlots (info : Fat32Info) (c : ℕ) : List (ℕ × ℕ) :=
  (List.range (info.blocksPerCluster - 1)).flatMap fun j => blockSlots (clusterBlock info c + (j + 1))

/-- The slots of a directory with the given chain, in table order. -/
def tableSlots (info : Fat32Info) (l : List ℕ) : List (ℕ × ℕ) :=
  l.flatMap fun c => firstSlots info c ++ laterSlots info c

/-- The live slots of a directory. -/
def liveSlots (disk : Disk) (info : Fat32Info) (l : List ℕ) : List (ℕ × ℕ) :=
  (tableSlots info l).filter fun s => Live (disk s.1) s.2

/-- The slots that `setup_fat32` makes children of. -/
def visibleSlots (disk : Disk) (info : Fat32Info) (l : List ℕ) : List (ℕ × ℕ) :=
  (l.flatMap (firstSlots info)).filter fun s => ¬ SkipEntry (disk s.1) s.2

/-- The entries of a block that are not passed over. -/
theorem blockEntries_fields (disk : Disk) (b : ℕ) :
    (blockEntries (disk b)).map (fun e => (e.type, e.cluster, e.fileSize)) =
      ((blockSlots b).filter fun s => ¬ SkipEntry (disk s.1) s.2).map (slotFields disk) := by
  unfold blockEntries blockSlots
  induction List.range slotsPerBlock with
  | nil => rfl
  | cons i is ih =>
    rw [List.map_cons, List.filterMap_cons, parseEntry]
    by_cases hskip : SkipEntry (disk b) i
    · rw [if_pos hskip, List.filter_cons_of_neg (by simpa using hskip)]
      exact ih
    · rw [if_neg hskip, List.filter_cons_of_pos (by simpa using hskip)]
      exact congrArg (List.cons _) ih

theorem dirEntries_fields (disk : Disk) (info : Fat32Info) (l : List ℕ) :
    (dirEntries disk info l).map (fun e => (e.type, e.cluster, e.fileSize)) =
      (visibleSlots disk info l).map (slotFields disk) := by
  unfold dirEntries visibleSlots firstSlots
  rw [List.filter_flatMap, List.map_flatMap, List.map_flatMap]
  exact List.flatMap_congr fun c _ => blockEntries_fields disk _

/-! ## What is shown and what is live -/

/-- No first block has an entry that is shown but not live. -/
def NoDeadShown (disk : Disk) (info : Fat32Info) (l : List ℕ) : Prop :=
  ∀ c ∈ l, ∀ s ∈ firstSlots info c, ¬ SkipEntry (disk s.1) s.2 → Live (disk s.1) s.2

/-- No other block has a live entry. -/
def NoLiveMissed (disk : Disk) (info : Fat32Info) (l : List ℕ) : Prop :=
  ∀ c ∈ l, ∀ s ∈ laterSlots info c, ¬ Live (disk s.1) s.2

instance (l : List ℕ) : Decidable (NoDeadShown disk info l) :=
  inferInstanceAs (Decidable (∀ _ ∈ _, _))

instance (l : List ℕ) : Decidable (NoLiveMissed disk info l) :=
  inferInstanceAs (Decidable (∀ _ ∈ _, _))

/-- The live slots of the first blocks. -/
def firstLive (disk : Disk) (info : Fat32Info) (l : List ℕ) : List (ℕ × ℕ) :=
  (l.flatMap (firstSlots info)).filter fun s => Live (disk s.1) s.2

theorem filter_visibleSlots (disk : Disk) (info : Fat32Info) (l : List ℕ) :
    (visibleSlots disk info l).filter (fun s => Live (disk s.1) s.2) = firstLive disk info l := by
  unfold visibleSlots firstLive
  rw [List.filter_filter]
  apply List.filter_congr
  intro s _
  by_cases hlive : Live (disk s.1) s.2
  · have hskip := ((live_iff _ _).mp hlive).1
    simp [hlive, hskip]
  · simp [hlive]

/-- Every live slot of a first block is shown. -/
theorem length_visibleSlots (disk : Disk) (info : Fat32Info) (l : List ℕ) :
    (firstLive disk info l).length ≤ (visibleSlots disk info l).length ∧
      ((firstLive disk info l).length = (visibleSlots disk info l).length ↔
        NoDeadShown disk info l) := by
  rw [← filter_visibleSlots]
  refine ⟨List.length_filter_le _ _, List.length_filter_eq_length_iff.trans ?_⟩
  unfold visibleSlots NoDeadShown
  simp only [List.mem_filter, List.mem_flatMap, decide_eq_true_eq]
  constructor
  · intro h c hc s hs hskip
    exact h s ⟨⟨c, hc, hs⟩, hskip⟩
  · rintro h s ⟨⟨c, hc, hs⟩, hskip⟩
    exact h c hc s hs hskip

/-- The live slots are those of the first blocks and those of the others. -/
theorem length_liveSlots (disk : Disk) (info : Fat32Info) (l : List ℕ) :
    (firstLive disk info l).length ≤ (liveSlots disk info l).length ∧
      ((firstLive disk info l).length = (liveSlots disk info l).length ↔
        NoLiveMissed disk info l) := by
  have hperm : (tableSlots info l).Perm (l.flatMap (firstSlots info) ++ l.flatMap (laterSlots info)) :=
    (List.flatMap_append_perm l (firstSlots info) (laterSlots info)).symm
  have hlen : (liveSlots disk info l).length = (firstLive disk info l).length +
      ((l.flatMap (laterSlots info)).filter fun s => Live (disk s.1) s.2).length := by
    unfold liveSlots firstLive
    rw [(hperm.filter _).length_eq, List.filter_append, List.length_append]
  refine ⟨by omega, ?_⟩
  have hnil : (firstLive disk info l).length = (liveSlots disk info l).length ↔
      (l.flatMap (laterSlots info)).filter (fun s => Live (disk s.1) s.2) = [] := by
    rw [← List.length_eq_zero_iff]
    omega
  rw [hnil, List.filter_eq_nil_iff]
  unfold NoLiveMissed
  simp only [List.mem_flatMap, decide_eq_true_eq]
  constructor
  · intro h c hc s hs
    exact h s ⟨c, hc, hs⟩
  · rintro h s ⟨c, hc, hs⟩
    exact h c hc s hs

/-- Without dead entries that are shown and live ones that are missed the shown slots are the live
    ones. -/
theorem visibleSlots_eq {l : List ℕ} (hdead : NoDeadShown disk info l)
    (hmissed : NoLiveMissed disk info l) : visibleSlots disk info l = liveSlots disk info l := by
  unfold visibleSlots liveSlots tableSlots
  rw [List.filter_flatMap, List.filter_flatMap]
  apply List.flatMap_congr
  intro c hc
  have hlater : (laterSlots info c).filter (fun s => Live (disk s.1) s.2) = [] :=
    List.filter_eq_nil_iff.mpr fun s hs => by simpa using hmissed c hc s hs
  rw [List.filter_append, hlater, List.append_nil]
  apply List.filter_congr
  intro s hs
  rw [decide_eq_decide]
  exact ⟨hdead c hc s hs, fun hlive => ((live_iff _ _).mp hlive).1⟩

/-- A directory that `setup_fat32` shows as it is: no entry is shown that is not live, and none missed
    that is, or both happen and the entries agree all the same. -/
def ShownRight (disk : Disk) (info : Fat32Info) (l : List ℕ) : Prop :=
  (NoDeadShown disk info l ∧ NoLiveMissed disk info l) ∨
    (¬ NoDeadShown disk info l ∧ ¬ NoLiveMissed disk info l ∧
      (visibleSlots disk info l).map (slotFields disk) = (liveSlots disk info l).map (slotFields disk))

instance (l : List ℕ) : Decidable (ShownRight disk info l) :=
  inferInstanceAs (Decidable (_ ∨ _))

/-- The shown entries agree with the live ones only if there are as many of them. -/
theorem shownRight_iff (disk : Disk) (info : Fat32Info) (l : List ℕ) : ShownRight disk info l ↔
    (visibleSlots disk info l).map (slotFields disk) =
      (liveSlots disk info l).map (slotFields disk) := by
  constructor
  · rintro (⟨hdead, hmissed⟩ | ⟨-, -, heq⟩)
    · rw [visibleSlots_eq hdead hmissed]
    · exact heq
  · intro heq
    have hlen := congrArg List.length heq
    rw [List.length_map, List.length_map] at hlen
    have h1 := (length_visibleSlots disk info l).2
    have h2 := (length_liveSlots disk info l).2
    rw [hlen, h2] at h1
    unfold ShownRight
    by_cases hmissed : NoLiveMissed disk info l
    · exact Or.inl ⟨h1.mp hmissed, hmissed⟩
    · exact Or.inr ⟨fun hdead => hmissed (h1.mpr hdead), hmissed, heq⟩

/-! ## Trees -/

/-- A well-formed directory: its chain ends, it has at most `MAX_DIR_NUM` live entries, and its live
    subdirectories are well-formed. -/
inductive WfDir (disk : Disk) (info : Fat32Info) : ℕ → Prop
  | mk {c : ℕ} {l : List ℕ} (hl : FatChain disk info c l)
      (hlive : (liveSlots disk info l).length ≤ maxDirNum)
      (hsub : ∀ s ∈ liveSlots disk info l, (slotFields disk s).1 = .dir →
        WfDir disk info (slotFields disk s).2.1) : WfDir disk info c

/-- The children of a directory are its live entries: one for each, in table order, with its type, its
    cluster and its size, and the same in the subdirectories. -/
inductive Decoded (disk : Disk) (info : Fat32Info) : ℕ → List Vnode → Prop
  | mk {c : ℕ} {l : List ℕ} {childs : List Vnode} (hl : FatChain disk info c l)
      (hmap : childs.map (fun v => (v.inode.type, v.inode.cluster, v.inode.dataSize)) =
        (liveSlots disk info l).map (slotFields disk))
      (hsub : ∀ v ∈ childs, v.inode.type = .dir → Decoded disk info v.inode.cluster v.childs) :
      Decoded disk info c childs

/-- A directory that `setup_fat32` shows as it is, with all below it. -/
inductive ShownTree (disk : Disk) (info : Fat32Info) : ℕ → Prop
  | mk {c : ℕ} {l : List ℕ} (hl : FatChain disk info c l) (hshown : ShownRight disk info l)
      (hsub : ∀ s ∈ liveSlots disk info l, (slotFields disk s).1 = .dir →
        ShownTree disk info (slotFields disk s).2.1) : ShownTree disk info c

/-- What a child has from its entry. -/
theorem makeChild_fields {fuel : ℕ} {e : DirEntry} {v : Vnode}
    (h : makeChild (setupFat32 disk info fuel) disk info e = .ok v) :
    v.inode.type = e.type ∧ v.inode.cluster = e.cluster ∧ v.inode.dataSize = e.fileSize ∧
      (e.type = .dir → setupFat32 disk info fuel (childInode disk info e) = .ok v) := by
  unfold makeChild at h
  split at h
  next htype =>
    cases fuel with
    | zero => cases h
    | succ fuel =>
      obtain ⟨l, -, -, ⟨data, hv⟩, -⟩ := setupFat32_ok h
      rw [hv]
      exact ⟨rfl, rfl, rfl, fun _ => h⟩
  next htype =>
    cases h
    exact ⟨rfl, rfl, rfl, fun hdir => absurd hdir htype⟩

theorem map_fields {fuel : ℕ} {es : List DirEntry} {vs : List Vnode}
    (h : List.Forall₂ (fun e v => makeChild (setupFat32 disk info fuel) disk info e = .ok v) es vs) :
    vs.map (fun v => (v.inode.type, v.inode.cluster, v.inode.dataSize)) =
      es.map fun e => (e.type, e.cluster, e.fileSize) := by
  induction h with
  | nil => rfl
  | cons hev _ ih =>
    obtain ⟨h1, h2, h3, -⟩ := makeChild_fields hev
    rw [List.map_cons, List.map_cons, ih, h1, h2, h3]

/-- The tree that a call came back with is the one on the disk exactly if each of its directories is
    shown as it is. -/
theorem decoded_iff {fuel : ℕ} {inode : Fat32Inode} {v : Vnode}
    (h : setupFat32 disk info fuel inode = .ok v) :
    Decoded disk info inode.cluster v.childs ↔ ShownTree disk info inode.cluster := by
  induction fuel generalizing inode v with
  | zero => cases h
  | succ fuel ih =>
    obtain ⟨l, hl, -, -, hdir⟩ := setupFat32_ok h
    have hfields := (map_fields hdir.made).trans (dirEntries_fields disk info l)
    -- the call for a child that is a directory
    have hchild : ∀ w ∈ v.childs, w.inode.type = .dir →
        (Decoded disk info w.inode.cluster w.childs ↔ ShownTree disk info w.inode.cluster) := by
      intro w hw htype
      obtain ⟨e, -, hmake⟩ := forall₂_mem_right hdir.made hw
      obtain ⟨h1, h2, -, hsetup⟩ := makeChild_fields hmake
      rw [h2]
      exact ih (hsetup (h1.symm.trans htype))
    constructor
    · rintro ⟨hl', hmap, hsub⟩
      obtain rfl := hl.unique hl'
      refine .mk hl ((shownRight_iff disk info l).mpr (hfields.symm.trans hmap)) fun s hs htype => ?_
      have hmem := hmap ▸ List.mem_map_of_mem hs
      obtain ⟨w, hw, heq⟩ := List.mem_map.mp hmem
      have hwtype : w.inode.type = .dir := by rw [← htype, ← heq]
      rw [show (slotFields disk s).2.1 = w.inode.cluster by rw [← heq]]
      exact (hchild w hw hwtype).mp (hsub w hw hwtype)
    · rintro ⟨hl', hshown, hsub⟩
      obtain rfl := hl.unique hl'
      have hmap := hfields.trans ((shownRight_iff disk info l).mp hshown)
      refine .mk hl hmap fun w hw htype => (hchild w hw htype).mpr ?_
      have hmem := hmap ▸ List.mem_map_of_mem
        (f := fun v : Vnode => (v.inode.type, v.inode.cluster, v.inode.dataSize)) hw
      obtain ⟨s, hs, heq⟩ := List.mem_map.mp hmem
      rw [show w.inode.cluster = (slotFields disk s).2.1 by rw [heq]]
      exact hsub s hs (by rw [heq]; exact htype)

/-- For a well-formed directory that is shown as it is, with all below it, the call comes back. -/
theorem WfDir.walkEnds {c : ℕ} (h : WfDir disk info c) (hshown : ShownTree disk info c) :
    WalkEnds disk info c := by
  induction h with
  | @mk c l hl hlive hsub ih =>
    obtain ⟨hl', hright, hsub'⟩ := hshown
    obtain rfl := hl.unique hl'
    have hfields := (dirEntries_fields disk info l).trans ((shownRight_iff disk info l).mp hright)
    refine .mk hl ?_ fun e he htype => ?_
    · have := congrArg List.length hfields
      rw [List.length_map, List.length_map] at this
      omega
    · have hmem := hfields ▸ List.mem_map_of_mem
        (f := fun e : DirEntry => (e.type, e.cluster, e.fileSize)) he
      obtain ⟨s, hs, heq⟩ := List.mem_map.mp hmem
      have hstype : (slotFields disk s).1 = .dir := by rw [heq]; exact htype
      rw [show e.cluster = (slotFields disk s).2.1 by rw [heq]]
      exact ih s hs hstype (hsub' s hs hstype)

/-- `setup_fat32` comes back for the directory and makes its live entries, and those below it, the
    children. -/
def Decodes (disk : Disk) (info : Fat32Info) (inode : Fat32Inode) : Prop :=
  (∃ fuel v, setupFat32 disk info fuel inode = .ok v) ∧
    ∀ fuel v, setupFat32 disk info fuel inode = .ok v → Decoded disk info inode.cluster v.childs

/-- A well-formed directory is decoded exactly if each directory of its tree is shown as it is. -/
theorem decodes_iff {inode : Fat32Inode} (h : WfDir disk info inode.cluster) :
    Decodes disk info inode ↔ ShownTree disk info inode.cluster := by
  constructor
  · rintro ⟨⟨fuel, v, hv⟩, hdecoded⟩
    exact (decoded_iff hv).mp (hdecoded fuel v hv)
  · intro hshown
    obtain ⟨n, hn⟩ := (h.walkEnds hshown).returns
    obtain ⟨v, hv⟩ := hn n le_rfl inode rfl
    exact ⟨⟨n, v, hv⟩, fun fuel v hv => (decoded_iff hv).mpr hshown⟩

theorem Decodes.shownRight {inode : Fat32Inode} (h : Decodes disk info inode) {l : List ℕ}
    (hl : FatChain disk info inode.cluster l) : ShownRight disk info l := by
  obtain ⟨⟨fuel, v, hv⟩, hdecoded⟩ := h
  obtain ⟨hl', hright, -⟩ := (decoded_iff hv).mp (hdecoded fuel v hv)
  rwa [hl.unique hl']

/-- The inode of the root directory of a small image. -/
def smallRoot : Fat32Inode := { (fat32CreateVnode .dir).inode with cluster := 2 }

/-- A directory of one cluster without subdirectories is well-formed. -/
theorem wfDir_leaf (hend : ¬ IsFatEntryValid (readFatEntry disk info 2))
    (hlive : (liveSlots disk info [2]).length ≤ maxDirNum)
    (hfile : ∀ s ∈ liveSlots disk info [2], (slotFields disk s).1 ≠ .dir) :
    FatChain disk info 2 [2] ∧ WfDir disk info 2 :=
  have hl : FatChain disk info 2 [2] := .link (by decide) (.stop hend)
  ⟨hl, .mk hl hlive fun s hs htype => absurd htype (hfile s hs)⟩

theorem decodes_iff_small : WfDir (smallImage (usedBelow 4)) smallInfo 2 ∧
    (Decodes (smallImage (usedBelow 4)) smallInfo smallRoot ↔
      ShownTree (smallImage (usedBelow 4)) smallInfo 2) :=
  have h : FatChain (smallImage (usedBelow 4)) smallInfo 2 [2] ∧
      WfDir (smallImage (usedBelow 4)) smallInfo 2 :=
    wfDir_leaf (by decide +kernel) (by decide +kernel) (by decide +kernel)
  ⟨h.2, decodes_iff h.2⟩

/-- A small image on which `A.TXT` is deleted. -/
def deletedImage : Disk := fun b i => if b = 4 ∧ i = 0 then 0xe5 else smallImage (usedBelow 4) b i

/-- A small image with clusters of two blocks, and `A.TXT` in the second block of the root directory. -/
def secondBlockImage : Disk := fun b =>
  smallImage (usedBelow 4) (if b = 5 then 4 else if b = 4 then 5 else b)

/-- The deleted file is shown, and the file in the second block of the cluster is missed. -/
theorem not_decodes :
    (WfDir deletedImage smallInfo 2 ∧ ¬ Decodes deletedImage smallInfo smallRoot) ∧
      (WfDir secondBlockImage { smallInfo with blocksPerCluster := 2 } 2 ∧
        ¬ Decodes secondBlockImage { smallInfo with blocksPerCluster := 2 } smallRoot) := by
  obtain ⟨hl, hwf⟩ : FatChain deletedImage smallInfo 2 [2] ∧ WfDir deletedImage smallInfo 2 :=
    wfDir_leaf (by decide +kernel) (by decide +kernel) (by decide +kernel)
  obtain ⟨hl', hwf'⟩ : FatChain secondBlockImage { smallInfo with blocksPerCluster := 2 } 2 [2] ∧
      WfDir secondBlockImage { smallInfo with blocksPerCluster := 2 } 2 :=
    wfDir_leaf (by decide +kernel) (by decide +kernel) (by decide +kernel)
  exact ⟨⟨hwf, fun h => absurd (h.shownRight hl) (by decide +kernel)⟩,
    ⟨hwf', fun h => absurd (h.shownRight hl') (by decide +kernel)⟩⟩

end RaspiKernel.Fs
