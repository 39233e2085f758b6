import RaspiKernel.Lib.Logged
import RaspiKernel.Fs.Mount

/-!
# FAT32: the blocks that are read

The loops of `fat32.c` again, as computations that log the number of each block
they pass to `readblock`. A look at the FAT logs the block of the FAT, and a look
at a cluster or at the first block of a child logs its block. A call that stops
has logged what it read until then.

Results:
* `Traced.val_setupFat32`, `Traced.val_fat32NewDirEntry`: without the log these are the functions of
  the model.
-/

namespace RaspiKernel.Fs

open Lib

namespace Traced

variable (disk : Disk) (info : Fat32Info)

/-- `readblock(fat_info.data_region + …, dir_inode->data)` (line 419). -/
def readblock (b : ℕ) (buf : Mem) : Logged ℕ Stop Mem := .emit b (Fs.readblock disk b buf)

/-- `read_fat_entry` (lines 352–361). -/
def readFatEntry (cluster : ℕ) : Logged ℕ Stop ℕ :=
  .emit (fatBlock info cluster) (Fs.readFatEntry disk info cluster)

/-- The fields of a child, with its first block (lines 455–467). -/
def childInode (e : DirEntry) : Logged ℕ Stop Fat32Inode :=
  .emit (clusterBlock info e.cluster) (Fs.childInode disk info e)

/-- The child that an entry becomes. -/
def makeChild (setup : Fat32Inode → Logged ℕ Stop Vnode) (e : DirEntry) : Logged ℕ Stop Vnode := do
  let inode ← childInode disk info e
  if e.type = .dir then setup inode else pure (.mk inode [])

/-- `dir_inode->childs[child_idx] = …; child_idx++;` for an entry that is not passed over. -/
def addChild (setup : Fat32Inode → Logged ℕ Stop Vnode) (childs : List Vnode) (e : DirEntry) :
    Logged ℕ Stop (List Vnode) :=
  if childs.length ≥ maxDirNum then .stop .overrun
  else do
    let v ← makeChild disk info setup e
    pure (childs ++ [v])

/-- The body of the loop of `setup_fat32` over the entries of a block (lines 422–479). -/
def addEntry (setup : Fat32Inode → Logged ℕ Stop Vnode) (buf : Mem) (childs : List Vnode) (i : ℕ) :
    Logged ℕ Stop (List Vnode) :=
  match parseEntry buf i with
  | none => pure childs
  | some e => addChild disk info setup childs e

/-- `while (IS_FAT_ENTRY_VALID(cur_entry))` of `setup_fat32` (lines 417–483). -/
def setupLoop (setup : Fat32Inode → Logged ℕ Stop Vnode) :
    ℕ → ℕ → ℕ → Mem × List Vnode → Logged ℕ Stop (Mem × List Vnode)
  | 0, _, _, _ => .stop .looping
  | fuel + 1, cur, nxt, (data, childs) =>
    if IsFatEntryValid cur then do
      let data ← readblock disk (clusterBlock info cur) data
      let childs ← (List.range slotsPerBlock).foldlM (addEntry disk info setup data) childs
      let after ← readFatEntry disk info nxt
      setupLoop setup fuel nxt after (data, childs)
    else pure (data, childs)

/-- `setup_fat32` (lines 406–484). -/
def setupFat32 : ℕ → Fat32Inode → Logged ℕ Stop Vnode
  | 0, _ => .stop .looping
  | fuel + 1, dirInode => do
    let nxt ← readFatEntry disk info dirInode.cluster
    let (data, childs) ← setupLoop disk info (setupFat32 fuel) (fuel + 1) dirInode.cluster nxt
      (dirInode.data, [])
    pure (.mk { dirInode with data := data } childs)

/-- The loop of `fat32_new_dir_entry` (lines 534–551). -/
def newDirEntryLoop (entry : Mem) : ℕ → ℕ → ℕ → Logged ℕ Stop Disk
  | 0, _, _ => .stop .looping
  | fuel + 1, cur, nxt =>
    if IsFatEntryValid cur then do
      let buf ← .emit (clusterBlock info cur) (disk (clusterBlock info cur))
      match (List.range slotsPerBlock).find? fun i => entryAttr buf i = 0 with
      | some i => pure (writeblock disk (clusterBlock info cur) (copy buf (32 * i) entry 32))
      | none => do
        let after ← readFatEntry disk info nxt
        newDirEntryLoop entry fuel nxt after
    else pure disk

/-- `fat32_new_dir_entry` (lines 527–555). -/
def fat32NewDirEntry (fuel dirCluster : ℕ) (entry : Mem) : Logged ℕ Stop Disk := do
  let nxt ← readFatEntry disk info dirCluster
  newDirEntryLoop disk info entry fuel dirCluster nxt

/-! ## Without the log -/

variable {disk info} {setup : Fat32Inode → Logged ℕ Stop Vnode}

theorem val_makeChild (e : DirEntry) :
    (makeChild disk info setup e).val = Fs.makeChild (fun n => (setup n).val) disk info e := by
  unfold makeChild Fs.makeChild childInode
  rw [Logged.val_emit_bind]
  split_ifs
  · rfl
  · rfl

theorem val_addChild (childs : List Vnode) (e : DirEntry) :
    (addChild disk info setup childs e).val =
      Fs.addChild (fun n => (setup n).val) disk info childs e := by
  unfold addChild Fs.addChild
  split_ifs
  · rfl
  · rw [Logged.val_bind, val_makeChild]
    rfl

theorem foldlM_addEntry (buf : Mem) (childs : List Vnode) :
    (List.range slotsPerBlock).foldlM (addEntry disk info setup buf) childs =
      (blockEntries buf).foldlM (addChild disk info setup) childs := by
  unfold blockEntries
  rw [List.foldlM_filterMap]
  congr 1
  funext childs i
  unfold addEntry
  cases parseEntry buf i with
  | none => rfl
  | some e => rfl

theorem val_foldlM_addChild (es : List DirEntry) (childs : List Vnode) :
    (es.foldlM (addChild disk info setup) childs).val =
      es.foldlM (Fs.addChild (fun n => (setup n).val) disk info) childs := by
  rw [Logged.val_foldlM]
  congr 1
  funext childs e
  exact val_addChild childs e

theorem val_setupLoop (fuel cur nxt : ℕ) (st : Mem × List Vnode) :
    (setupLoop disk info setup fuel cur nxt st).val =
      Fs.setupLoop (fun n => (setup n).val) disk info fuel cur nxt st := by
  induction fuel generalizing cur nxt st with
  | zero => rfl
  | succ fuel ih =>
    obtain ⟨data, childs⟩ := st
    rw [setupLoop, Fs.setupLoop, readblock]
    split_ifs
    · rw [Logged.val_emit_bind, Logged.val_bind, foldlM_addEntry, val_foldlM_addChild,
        ← Fs.foldlM_addEntry]
      congr 1
      funext childs
      exact ih nxt _ _
    · rfl

/-- `setup_fat32` without the log. -/
theorem val_setupFat32 (fuel : ℕ) (inode : Fat32Inode) :
    (setupFat32 disk info fuel inode).val = Fs.setupFat32 disk info fuel inode := by
  induction fuel generalizing inode with
  | zero => rfl
  | succ fuel ih =>
    rw [setupFat32, Fs.setupFat32, readFatEntry, Logged.val_emit_bind, Logged.val_bind,
      val_setupLoop, funext ih]
    rfl

theorem val_newDirEntryLoop (entry : Mem) (fuel cur nxt : ℕ) :
    (newDirEntryLoop disk info entry fuel cur nxt).val =
      Fs.newDirEntryLoop disk info entry fuel cur nxt := by
  induction fuel generalizing cur nxt with
  | zero => rfl
  | succ fuel ih =>
    rw [newDirEntryLoop, Fs.newDirEntryLoop]
    split_ifs
    · rw [Logged.val_emit_bind]
      dsimp only
      cases (List.range slotsPerBlock).find? fun i =>
          entryAttr (disk (clusterBlock info cur)) i = 0 with
      | some i => rfl
      | none => exact ih nxt _
    · rfl

/-- `fat32_new_dir_entry` without the log. -/
theorem val_fat32NewDirEntry (fuel dirCluster : ℕ) (entry : Mem) :
    (fat32NewDirEntry disk info fuel dirCluster entry).val =
      Fs.fat32NewDirEntry fuel disk info dirCluster entry := by
  rw [fat32NewDirEntry, readFatEntry, Logged.val_emit_bind]
  exact val_newDirEntryLoop entry fuel dirCluster _

end Traced

end RaspiKernel.Fs
