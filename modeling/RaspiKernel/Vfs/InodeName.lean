import RaspiKernel.Boot.Initramfs
import RaspiKernel.Vfs.Names

/-!
# The name field of an inode

`tmpfs_create`, `tmpfs_mkdir`, `fat32_create`, `fat32_mkdir` and `initramfs_init`
copy a name into the 16 bytes of `inode->name`. The first four look at its length
with different bounds, the last one not at all.

An inode of these file systems has its name and `childs[]` where the one of
`RaspiKernel.Boot.Initramfs` has them; the four bytes between them are padding.

Results:
* `createIn_overrun_iff`, `mkdirIn_overrun_iff`: `RaspiKernel.Vfs.Basic` stops at the
  names that are written behind the field.
* `names_fit_iff`: which names fit.
-/

namespace RaspiKernel.Vfs

open Lib
open Boot (strcpyTo strcpyTo_of_lt strcpyTo_of_gt strcpy_keeps_iff nameOffset childsOffset)

variable {σ : State} {m : Mem} {d inode : ℕ} {n s : Str}

/-! ## The model -/

/-- What `tmpfs_create` and `tmpfs_mkdir` write to the new inode behind its `memset` (lines 174–211 and
    224–250), with the bound on the length of a name, and whether the name has been found in the
    directory. -/
def entryCopy (maxLen : ℕ) (taken : Bool) (σ : State) (dir : ℕ) (name : Str) (inode : ℕ) (m : Mem) :
    Mem :=
  if (σ.node dir).type ≠ .dir then m
  else if taken then m
  else match freeIdx σ dir with
    | none => m
    | some _ =>
      if name.length > maxLen then m
      else strcpyTo m (inode + nameOffset) name

/-- The loop of `tmpfs_create` compares the name with those of the directory. -/
def createCopy (maxLen : ℕ) (σ : State) (dir : ℕ) (name : Str) : ℕ → Mem → Mem :=
  entryCopy maxLen (lookup σ dir name).isSome σ dir name

/-- That of `tmpfs_mkdir` does not. -/
def mkdirCopy (maxLen : ℕ) (σ : State) (dir : ℕ) (name : Str) : ℕ → Mem → Mem :=
  entryCopy maxLen false σ dir name

/-- `tmpfs_create`, line 211. -/
def tmpfsCreateCopy : State → ℕ → Str → ℕ → Mem → Mem := createCopy maxPathLen

/-- `tmpfs_mkdir`, line 250. -/
def tmpfsMkdirCopy : State → ℕ → Str → ℕ → Mem → Mem := mkdirCopy maxPathLen

/-- `fat32_create`, line 259. -/
def fat32CreateCopy : State → ℕ → Str → ℕ → Mem → Mem := createCopy maxFileNameLen

/-- `fat32_mkdir`, line 325. -/
def fat32MkdirCopy : State → ℕ → Str → ℕ → Mem → Mem := mkdirCopy maxPathLen

/-- `initramfs_init`, line 248. -/
def initramfsCopy (file : Boot.InitramfsFile) (inode : ℕ) (m : Mem) : Mem :=
  strcpyTo m (inode + nameOffset) file.name

/-- The copy changes no byte but those of the name. -/
def InName (inode : ℕ) (copied : Mem → Mem) : Prop :=
  ∀ m x, ¬ (inode + nameOffset ≤ x ∧ x < inode + nameOffset + maxFileNameLen) → copied m x = m x

/-! ## The bytes that are written -/

/-- A name fits in its field exactly if it has at most 15 characters. -/
theorem inName_strcpyTo : InName inode (strcpyTo · (inode + nameOffset) s) ↔
    s.length < maxFileNameLen := by
  constructor
  · intro h
    have hkeeps := (strcpy_keeps_iff (s := s) (by omega)).mp fun m =>
      h m (inode + nameOffset + maxFileNameLen) (by omega)
    omega
  · intro h m x hx
    rcases lt_or_ge x (inode + nameOffset) with hlt | hge
    · exact strcpyTo_of_lt hlt
    · exact strcpyTo_of_gt (by omega)

/-- A name leaves `childs[]` exactly if it has at most 19 characters. -/
theorem strcpyTo_childs : (∀ m, ∀ x, inode + childsOffset ≤ x →
    strcpyTo m (inode + nameOffset) s x = m x) ↔ s.length < childsOffset - nameOffset := by
  have hle : nameOffset ≤ childsOffset := by decide
  constructor
  · intro h
    have hkeeps := (strcpy_keeps_iff (s := s) (by omega)).mp fun m => h m (inode + childsOffset) le_rfl
    omega
  · intro h m x hx
    exact strcpyTo_of_gt (by omega)

/-! ## The calls -/

theorem inName_id : InName inode fun m => m := fun _ _ _ => rfl

/-- A call leaves the other bytes of the inode exactly if it refuses the name or the name fits. -/
theorem inName_entryCopy {maxLen : ℕ} {taken : Bool} :
    InName inode (entryCopy maxLen taken σ d n inode) ↔ (σ.node d).type ≠ .dir ∨ taken = true ∨
      freeIdx σ d = none ∨ maxLen < n.length ∨ n.length < maxFileNameLen := by
  unfold entryCopy
  by_cases htype : (σ.node d).type ≠ .dir
  · simp only [if_pos htype]
    exact iff_of_true inName_id (.inl htype)
  simp only [if_neg htype]
  rw [or_iff_right htype]
  cases taken with
  | true => exact iff_of_true inName_id (.inl rfl)
  | false =>
    rw [or_iff_right (by simp)]
    cases freeIdx σ d with
    | none => exact iff_of_true inName_id (.inl rfl)
    | some i =>
      rw [or_iff_right (by simp)]
      by_cases hlen : n.length > maxLen
      · simp only [if_pos hlen]
        exact iff_of_true inName_id (.inl hlen)
      · simp only [if_neg hlen]
        rw [or_iff_right hlen]
        exact inName_strcpyTo

theorem inName_createCopy {maxLen : ℕ} : InName inode (createCopy maxLen σ d n inode) ↔
    (σ.node d).type ≠ .dir ∨ lookup σ d n ≠ none ∨ freeIdx σ d = none ∨ maxLen < n.length ∨
      n.length < maxFileNameLen := by
  rw [createCopy, inName_entryCopy, Option.isSome_iff_ne_none]

theorem inName_mkdirCopy {maxLen : ℕ} : InName inode (mkdirCopy maxLen σ d n inode) ↔
    (σ.node d).type ≠ .dir ∨ freeIdx σ d = none ∨ maxLen < n.length ∨
      n.length < maxFileNameLen := by
  rw [mkdirCopy, inName_entryCopy, or_iff_right (a := false = true) (by simp)]

/-- The model of the vnodes stops exactly at the creates that write behind the name. -/
theorem createIn_overrun_iff {maxLen : ℕ} : createIn maxLen σ d n = .error .nameOverrun ↔
    ¬ InName inode (createCopy maxLen σ d n inode) := by
  rw [inName_createCopy]
  unfold createIn
  by_cases htype : (σ.node d).type ≠ .dir
  · simp [htype]
  by_cases hnew : lookup σ d n = none
  · cases freeIdx σ d with
    | none => simp [htype, hnew]
    | some i =>
      by_cases hlen : n.length > maxLen
      · simp [htype, hnew, hlen]
      · by_cases hfits : n.length ≥ maxFileNameLen
        · simp [htype, hnew, hlen, addChild, hfits, bind, Except.bind]
        · simp [htype, hnew, hlen, addChild, hfits, bind, Except.bind]
  · simp [htype, hnew, Option.isSome_iff_ne_none]

theorem mkdirIn_overrun_iff {maxLen : ℕ} : mkdirIn maxLen σ d n = .error .nameOverrun ↔
    ¬ InName inode (mkdirCopy maxLen σ d n inode) := by
  rw [inName_mkdirCopy]
  unfold mkdirIn
  by_cases htype : (σ.node d).type ≠ .dir
  · simp [htype]
  cases freeIdx σ d with
  | none => simp [htype]
  | some i =>
    by_cases hlen : n.length > maxLen
    · simp [htype, hlen]
    · by_cases hfits : n.length ≥ maxFileNameLen
      · simp [htype, hlen, addChild, hfits, bind, Except.bind]
      · simp [htype, hlen, addChild, hfits, bind, Except.bind]

/-! ## The archive -/

/-- The loop of `initramfs_init` ends, and every name that it copies leaves the other bytes of its inode. -/
def ArchiveNamesFit (fuel : ℕ) (m : Mem) (cpioBase : ℕ) : Prop :=
  ∃ files, Boot.initramfsFiles fuel m cpioBase = some files ∧
    ∀ file ∈ files, ∀ inode, InName inode (initramfsCopy file inode)

/-- The names of the files of an archive fit exactly if they have at most 15 characters. Directories and
    empty files are passed over. -/
theorem archiveNamesFit_iff {base fuel : ℕ} {entries : List Boot.Entry} {trailer : Boot.Entry}
    (h : Boot.ArchiveAt m base entries trailer)
    (hfuel : (Boot.archive entries trailer).length ≤ fuel) : ArchiveNamesFit fuel m base ↔
      ∀ e ∈ entries, e.data ≠ [] → e.name.length < maxFileNameLen := by
  unfold ArchiveNamesFit
  rw [Boot.initramfsFiles_archive h hfuel, ← Boot.forall_fileVisits base]
  constructor
  · rintro ⟨files, hfiles, hfit⟩ x hx
    cases hfiles
    exact inName_strcpyTo.mp (hfit (Boot.fileOf x) (List.mem_map_of_mem hx) 0)
  · intro hnames
    refine ⟨_, rfl, fun file hfile inode => ?_⟩
    obtain ⟨x, hx, rfl⟩ := List.mem_map.mp hfile
    exact inName_strcpyTo.mpr (hnames x hx)

/-! ## All copies -/

/-- A copied name leaves the other bytes of its inode exactly if the call refuses it or it has at most 15
    characters: `tmpfs_create`, `tmpfs_mkdir` and `fat32_mkdir` refuse names of more than 256 characters,
    `fat32_create` those of more than 16, and `initramfs_init` none. -/
theorem names_fit_iff (σ : State) (d : ℕ) (n : Str) (inode : ℕ) :
    (InName inode (tmpfsCreateCopy σ d n inode) ↔ (σ.node d).type ≠ .dir ∨
      lookup σ d n ≠ none ∨ freeIdx σ d = none ∨ 256 < n.length ∨ n.length ≤ 15) ∧
    (InName inode (tmpfsMkdirCopy σ d n inode) ↔ (σ.node d).type ≠ .dir ∨
      freeIdx σ d = none ∨ 256 < n.length ∨ n.length ≤ 15) ∧
    (InName inode (fat32CreateCopy σ d n inode) ↔ (σ.node d).type ≠ .dir ∨
      lookup σ d n ≠ none ∨ freeIdx σ d = none ∨ 16 < n.length ∨ n.length ≤ 15) ∧
    (InName inode (fat32MkdirCopy σ d n inode) ↔ (σ.node d).type ≠ .dir ∨
      freeIdx σ d = none ∨ 256 < n.length ∨ n.length ≤ 15) ∧
    ∀ m base entries trailer fuel, Boot.ArchiveAt m base entries trailer →
      (Boot.archive entries trailer).length ≤ fuel →
      (ArchiveNamesFit fuel m base ↔ ∀ e ∈ entries, e.data ≠ [] → e.name.length ≤ 15) := by
  have hfits : ∀ l : ℕ, l < maxFileNameLen ↔ l ≤ 15 := fun l => Nat.lt_succ_iff
  refine ⟨?_, ?_, ?_, ?_, fun m base entries trailer fuel h hfuel => ?_⟩
  · rw [← hfits]
    exact inName_createCopy
  · rw [← hfits]
    exact inName_mkdirCopy
  · rw [← hfits]
    exact inName_createCopy
  · rw [← hfits]
    exact inName_mkdirCopy
  · simp only [← hfits]
    exact archiveNamesFit_iff h hfuel

/-- The names of an archive with two files are short. -/
theorem names_fit_small : ArchiveNamesFit 400
    (ofBytes (Boot.archive Boot.smallEntries Boot.smallTrailer)) 0 := by
  have hat : Boot.ArchiveAt (ofBytes (Boot.archive Boot.smallEntries Boot.smallTrailer)) 0
      Boot.smallEntries Boot.smallTrailer :=
    ⟨holds_ofBytes fun i _ => by rw [Nat.zero_add], by decide, ⟨rfl, rfl⟩, by decide +kernel,
      by decide +kernel⟩
  exact ((names_fit_iff rootState 0 [] 0).2.2.2.2 _ _ _ _ _ hat (by decide +kernel)).mpr (by decide)

/-- The last four of 24 characters are written to `childs[0]`. A name of 16 characters passes the check of
    `fat32_create`, and its NUL is written behind the field. -/
theorem names_not_fit :
    (¬ InName 0 (tmpfsCreateCopy rootState 0 (List.replicate 24 97) 0) ∧
      tmpfsCreateCopy rootState 0 (List.replicate 24 97) 0 (fun _ => 0) childsOffset = 97) ∧
    ¬ InName 0 (fat32CreateCopy rootState 0 (List.replicate 16 97) 0) := by
  have hchild : tmpfsCreateCopy rootState 0 (List.replicate 24 97) 0 (fun _ => 0) childsOffset = 97 := by
    decide +kernel
  refine ⟨⟨fun h => ?_, hchild⟩, fun h => ?_⟩
  · have hkept := h (fun _ => 0) childsOffset (by decide)
    rw [hchild] at hkept
    exact absurd hkept (by decide)
  · have hkept := h (fun _ => 1) (nameOffset + maxFileNameLen) (by decide)
    have hnul : fat32CreateCopy rootState 0 (List.replicate 16 97) 0 (fun _ => 1)
        (nameOffset + maxFileNameLen) = 0 := by
      decide +kernel
    rw [hnul] at hkept
    exact absurd hkept (by decide)

end RaspiKernel.Vfs
