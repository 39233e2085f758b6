import RaspiKernel.Boot.CpioStep
import RaspiKernel.Lib.Logged
import RaspiKernel.Print.Sprintf
import RaspiKernel.Vfs.AbsPath
import RaspiKernel.Vfs.Fd

/-!
# What the calls print

The functions below `sys_exec`, `sys_chdir`, `sys_open`, `sys_mkdir` and `sys_mount` with
their calls of `printf`. None of the macros for debug output is defined. The functions
of `RaspiKernel.Vfs` and `RaspiKernel.Boot` do the same without the messages.

* The messages are logged in order, up to the point where a call comes back or stops.
* What the functions on the disk print depends on what they find there (`Disk`).
* The `strcpy` of a name that is too long for its inode stops the model. The messages on
  the disk that come behind it are logged nevertheless.

Results:
* `vfsLookup_val`, `vfsOpen_val`, `vfsMkdir_val`, `vfsMount_val`: the models without the
  messages.
* `usrProg_val`: the same for the search in the archive.
-/

namespace RaspiKernel.Print

open Lib
open Vfs (Str State Filesystem Image BufStop CallerBuf ofString slash maxPathLen maxFileNameLen)
open Fd (fdTableSize)

/-- How a call stops. -/
inductive Stop where
  | path (e : BufStop)
  | vfs (e : Vfs.Stop)
  /-- `while (1);` in `get_mbr`. -/
  | mbr
  /-- The search in the archive is not over after the given number of rounds. -/
  | searching
  deriving DecidableEq

/-- A computation that prints. -/
abbrev Printing := Logged Message Stop

/-- A call of `printf`. -/
def print (m : Message) : Printing Unit := Logged.emit m ()

/-- What the functions on the disk find. -/
structure Disk where
  /-- `get_free_fat_cluster` finds a cluster. -/
  freeCluster : Bool
  /-- `fat32_new_dir_entry` finds an entry. -/
  freeEntry : Bool
  /-- The block that `get_mbr` reads has the signature. -/
  mbr : Bool
  /-- The boot sector is that of a FAT32 volume. -/
  fat32 : Bool

/-! ## Vnode operations -/

/-- The message of `initramfs_lookup` (line 155). -/
def lookupNotFound (name : Str) : Message :=
  ⟨ofString "        [initramfs_lookup] %s not found\n", [.str (some name)]⟩

/-- `initramfs_lookup` (`initramfs.c`, lines 138–157). The other two print for debugging only. -/
def initramfsLookup (σ : State) (dir : ℕ) (name : Str) : Printing (Option ℕ) :=
  match Vfs.lookup σ dir name with
  | some v => pure (some v)
  | none => do
    print (lookupNotFound name)
    pure none

/-- `dir->v_ops->lookup(dir, &dir, name)`. -/
def lookup (σ : State) (dir : ℕ) (name : Str) : Printing (Option ℕ) :=
  match (σ.node dir).fs with
  | .tmpfs => pure (Vfs.lookup σ dir name)
  | .initramfs => initramfsLookup σ dir name
  | .fat32 => pure (Vfs.lookup σ dir name)

/-- The texts of `tmpfs_create` and `fat32_create`, and of the two `mkdir`s. -/
def opText (fs : Filesystem) (op text : String) : Str :=
  ofString "        [" ++ fs.name ++ ofString op ++ ofString "] " ++ ofString text

/-- `"        [tmpfs_create] file %s already exists\n"`. -/
def alreadyExists (fs : Filesystem) (name : Str) : Message :=
  ⟨opText fs "_create" "file %s already exists\n", [.str (some name)]⟩

/-- `tmpfs_create` (`tmpfs.c`, lines 167–215) with its bound on the length of a name, and the messages
    that come with the new vnode. -/
def createIn (fs : Filesystem) (maxLen : ℕ) (disk : List Message) (σ : State) (dir : ℕ) (name : Str) :
    Printing (ℤ × Option ℕ × State) :=
  if (σ.node dir).type ≠ .dir then do
    print ⟨opText fs "_create" "not under directory vnode\n", []⟩
    pure (0, none, σ)
  else if (Vfs.lookup σ dir name).isSome then do
    print (alreadyExists fs name)
    pure (0, none, σ)
  else match Vfs.freeIdx σ dir with
    | none => do
      print ⟨opText fs "_create" "directory entry full.\n", []⟩
      pure (0, none, σ)
    | some idx =>
      if name.length > maxLen then do
        print ⟨opText fs "_create" "file name too long.\n", []⟩
        pure (0, none, σ)
      else ⟨disk, ((Vfs.addChild σ dir idx .file name).map fun (v, σ) => (1, some v, σ)).mapError .vfs⟩

/-- What `get_free_fat_cluster` and `fat32_new_dir_entry` print (`fat32.c`, lines 344 and 553). -/
def newFileMessages (disk : Disk) : List Message :=
  (if disk.freeCluster then [] else [plain "[get_free_fat_cluster] no free cluster\n"]) ++
    if disk.freeEntry then [] else [plain "[fat32_new_dir_entry] No space to new entry in dir.\n"]

/-- `node->v_ops->create(node, &target, name)`. -/
def create (disk : Disk) (σ : State) (dir : ℕ) (name : Str) : Printing (ℤ × Option ℕ × State) :=
  match (σ.node dir).fs with
  | .tmpfs => createIn .tmpfs maxPathLen [] σ dir name
  | .initramfs => pure (0, none, σ)
  | .fat32 => createIn .fat32 maxFileNameLen (newFileMessages disk) σ dir name

/-- `tmpfs_mkdir` (lines 218–254) and `fat32_mkdir`. -/
def mkdirIn (fs : Filesystem) (maxLen : ℕ) (σ : State) (dir : ℕ) (name : Str) : Printing (ℤ × State) :=
  if (σ.node dir).type ≠ .dir then do
    print ⟨opText fs "_mkdir" "dir_node is not directory\n", []⟩
    pure (-1, σ)
  else match Vfs.freeIdx σ dir with
    | none => do
      print ⟨opText fs "_mkdir" "directory entry full\n", []⟩
      pure (-1, σ)
    | some idx =>
      if name.length > maxLen then do
        print ⟨opText fs "_mkdir" "file name too long\n", []⟩
        pure (-1, σ)
      else ⟨[], ((Vfs.addChild σ dir idx .dir name).map fun (_, σ) => (0, σ)).mapError .vfs⟩

/-- `vnode->v_ops->mkdir(vnode, &vnode, name)`. -/
def mkdir (σ : State) (dir : ℕ) (name : Str) : Printing (ℤ × State) :=
  match (σ.node dir).fs with
  | .tmpfs => mkdirIn .tmpfs maxPathLen σ dir name
  | .initramfs => pure (0, σ)
  | .fat32 => mkdirIn .fat32 maxPathLen σ dir name

/-- What `fs->setup_mount(fs, mount)` prints, of which `fat32_setup_mount` calls
    `get_fat32_boot_sector` (`fat32.c`, lines 377–400, and `mbr.c`). -/
def setupMessages (disk : Disk) : Filesystem → Printing Unit
  | .tmpfs => pure ()
  | .initramfs => pure ()
  | .fat32 =>
    if disk.mbr then
      if disk.fat32 then pure ()
      else print (plain "[get_fat32_boot_sector] partition 1 is not FAT32")
    else do
      print (plain "[get_mbr] Can't get MBR\n")
      Logged.stop .mbr

/-! ## `vfs.c` -/

/-- The loop of `vfs_lookup` and what follows it (lines 85–115). -/
def lookupChars (σ : State) : Str → ℕ → Str → Printing (Option ℕ)
  | [], dir, path => do
    let v ← lookup σ dir path
    pure (v.map (Vfs.redirect σ))
  | c :: rest, dir, path =>
    if c = slash then do
      match ← lookup σ dir path with
      | none => pure none
      | some v => lookupChars σ rest (Vfs.redirect σ v) []
    else lookupChars σ rest dir (path ++ [c])

/-- `vfs_lookup` (lines 74–116). -/
def vfsLookup (σ : State) (pathname : Str) : Printing (Option ℕ) :=
  if pathname.length = 0 ∨ (pathname.length = 1 ∧ pathname.getD 0 0 = slash) then pure (some σ.root)
  else lookupChars σ (pathname.drop 1) σ.root []

/-- The message of `vfs_open` (line 146). -/
def directoryNotFound (path : Str) : Message :=
  ⟨ofString "    [vfs_open] directory %s not found, can't create file\n", [.str (some path)]⟩

/-- `vfs_open` (lines 119–170). -/
def vfsOpen (disk : Disk) (σ : State) (pathname : Str) (flags : UInt32) :
    Printing (Option ℕ × State) := do
  match ← vfsLookup σ pathname with
  | some node => pure (some node, σ)
  | none =>
    if flags &&& Vfs.oCreat ≠ 0 then do
      match ← vfsLookup σ (Vfs.dirName pathname) with
      | none => do
        print (directoryNotFound (Vfs.dirName pathname))
        pure (none, σ)
      | some node => do
        let (_, target, σ) ← create disk σ node (Vfs.baseName pathname)
        match target with
        | some v => pure (some v, σ)
        | none => Logged.stop (.vfs .wildTarget)
    else pure (none, σ)

/-- `vfs_mkdir` (lines 260–280). -/
def vfsMkdir (σ : State) (path : Str) : Printing (ℕ × State) :=
  if path = [] then Logged.stop (.vfs .overread)
  else do
    match ← vfsLookup σ (Vfs.dirName path) with
    | some vnode => do
      let (_, σ) ← mkdir σ vnode (Vfs.baseName path)
      pure (1, σ)
    | none => do
      print (plain "    [vfs_mkdir] can't find the upper directory\n")
      pure (0, σ)

/-- `vfs_mount` (lines 33–71). `setup_mount` always returns 1. -/
def vfsMount (disk : Disk) (σ : State) (target filesystem : Str) (img : Image) : Printing (ℕ × State) :=
  match Vfs.findFilesystem filesystem with
  | none => do
    print (plain "    [vfs_mount] File system not found\n")
    pure (0, σ)
  | some fs => do
    match ← vfsLookup σ target with
    | none => do
      print (plain "    [vfs_mount] vfs_lookup failed, can't find the target vnode\n")
      pure (0, σ)
    | some t => do
      setupMessages disk fs
      let (root, σ) := Vfs.setupMount σ fs img
      if (σ.node t).mount.isSome then do
        print (plain "    [vfs_mount] target vnode is already mounted\n")
        pure (0, σ)
      else pure (1, σ.setMount t root)

/-! ## System calls -/

/-- A string of at most 255 characters that user space passes. -/
structure UserStr where
  str : Str
  nul_notMem : 0 ∉ str
  length_lt : str.length < maxPathLen

/-- The array `absolute_path` behind the `strcpy`. -/
def UserStr.buf (s : UserStr) : CallerBuf := Vfs.zeroedBuf s.str s.nul_notMem s.length_lt

/-- What the calls depend on. -/
structure Kernel where
  mem : Mem
  cpioBase : ℕ
  vfs : State
  /-- `current->current_dir`. -/
  currentDir : Str
  /-- `current->fd_table`. -/
  fdTable : Fin fdTableSize → Option ℕ
  disk : Disk
  /-- What `kmalloc` returns for a program. -/
  progPage : ℕ

/-- The string that `get_absolute_path` leaves in a buffer. -/
def absolutePath (b : CallerBuf) (currentDir : Str) : Printing Str :=
  match Vfs.getAbsolutePath b.buf currentDir with
  | .error e => Logged.stop (.path e)
  | .ok path => match Boot.readStr path maxPathLen 0 with
    | none => Logged.stop (.path .overrun)
    | some p => pure p

/-- The message of `sys_chdir` (`syscall.c`, line 384). -/
def emptyDirectory (path : Str) : Message :=
  ⟨ofString "[sys_chdir] change to a empty directory %s\n", [.str (some path)]⟩

/-- `sys_chdir` (lines 371–391): `x[0]` and the current directory. -/
def sysChdir (k : Kernel) (path : UserStr) : Printing (ℤ × Str) := do
  let p ← absolutePath path.buf k.currentDir
  match ← vfsLookup k.vfs p with
  | none => do
    print (emptyDirectory p)
    pure (-1, k.currentDir)
  | some _ => pure (0, p)

/-- `sys_open` (lines 250–278): the file descriptor, and the vnodes. -/
def sysOpen (k : Kernel) (path : UserStr) (flags : UInt32) :
    Printing (Option (Fin fdTableSize) × State) := do
  let p ← absolutePath path.buf k.currentDir
  match (List.finRange fdTableSize).find? fun i => (k.fdTable i).isNone with
  | none => do
    print (plain "[sys_open] No available file descriptor.\n")
    pure (none, k.vfs)
  | some i => do
    let (target, vfs) ← vfsOpen k.disk k.vfs p flags
    match target with
    | some _ => pure (some i, vfs)
    | none => do
      print (plain "[sys_open] vfs_open function failed.\n")
      pure (none, vfs)

/-- `sys_mkdir` (lines 342–352), which normalises the path name in the user's buffer. -/
def sysMkdir (k : Kernel) (path : CallerBuf) : Printing (ℕ × State) := do
  let p ← absolutePath path k.currentDir
  vfsMkdir k.vfs p

/-- `sys_mount` (lines 354–369). -/
def sysMount (k : Kernel) (target filesystem : UserStr) (img : Image) : Printing (ℕ × State) := do
  let p ← absolutePath target.buf k.currentDir
  vfsMount k.disk k.vfs p filesystem.str img

/-- The message of `_initrd_usr_prog` (`initrd.c`, line 155). -/
def foundProgram (name : Str) : Message :=
  ⟨ofString "\nFound user_program: %s\n", [.str (some name)]⟩

/-- The message of `initrd_usr_prog` (line 183). -/
def fileNotFound (cmd : Str) : Message := ⟨ofString "file %s not found\n", [.str (some cmd)]⟩

/-- The branch of `_initrd_usr_prog` for an entry with the name of the program (lines 151–166). The name
    is printed from the archive. -/
def selectProgram (k : Kernel) (r : Boot.Round) : Printing (Option Boot.Program) :=
  if r.fs = 0 then do
    print (plain "\nUser program is empty\n")
    pure none
  else match Boot.readStr k.mem maxPathLen r.name with
    | none => Logged.stop .searching
    | some name => do
      print (foundProgram name)
      pure (if k.progPage = 0 then none else Boot.selectProgram k.mem r)

/-- The loop of `_initrd_usr_prog` up to the entry with the name of the program. -/
def searchLoop (m : Mem) (cmd : Str) (fuel buf : ℕ) : Option (Boot.Round ⊕ Unit) :=
  Boot.cpioLoop m
    (fun r (_ : Unit) => some (if Boot.strcmp m cmd r.name = 0 then .inl r else .inr ())) fuel buf ()

/-- `_initrd_usr_prog` (lines 134–171), where `none` is NULL. -/
def usrProg (fuel : ℕ) (k : Kernel) (cmd : UserStr) : Printing (Option Boot.Program) :=
  if Boot.memcmp k.mem k.cpioBase Boot.cpioMagic ≠ 0 then pure none
  else match searchLoop k.mem cmd.str fuel k.cpioBase with
    | none => Logged.stop .searching
    | some (.inr _) => pure none
    | some (.inl r) => selectProgram k r

/-- `initrd_usr_prog` (lines 174–185), and with it `sys_exec` (`syscall.c`, lines 80–89). `do_exec`
    prints nothing. -/
def sysExec (fuel : ℕ) (k : Kernel) (cmd : UserStr) : Printing (Option Boot.Program) := do
  match ← usrProg fuel k cmd with
  | some prog => pure (some prog)
  | none => do
    print (fileNotFound cmd.str)
    pure none

/-! ## The models without messages -/

variable {disk : Disk} {σ : State} {d : ℕ} {n : Str} {k : Kernel} {cmd : UserStr}

@[simp] theorem val_print (m : Message) : (print m).val = .ok () := rfl

theorem lookup_val (σ : State) (d : ℕ) (n : Str) : (lookup σ d n).val = .ok (Vfs.lookup σ d n) := by
  unfold lookup
  cases (σ.node d).fs with
  | tmpfs => rfl
  | fat32 => rfl
  | initramfs =>
    dsimp only
    unfold initramfsLookup
    cases Vfs.lookup σ d n <;> rfl

theorem lookupChars_val (σ : State) (rest : Str) (d : ℕ) (path : Str) :
    (lookupChars σ rest d path).val = .ok (Vfs.lookupChars σ rest d path) := by
  induction rest generalizing d path with
  | nil =>
    rw [lookupChars, Logged.val_bind, lookup_val]
    rfl
  | cons c rest ih =>
    rw [lookupChars, Vfs.lookupChars]
    split_ifs with hc
    · rw [Logged.val_bind, lookup_val]
      cases Vfs.lookup σ d path with
      | none => rfl
      | some v => exact ih (Vfs.redirect σ v) []
    · exact ih d (path ++ [c])

theorem vfsLookup_val (σ : State) (pathname : Str) :
    (vfsLookup σ pathname).val = .ok (Vfs.vfsLookup σ pathname) := by
  unfold vfsLookup Vfs.vfsLookup
  split_ifs
  · rfl
  · exact lookupChars_val σ _ _ _

theorem createIn_val (fs : Filesystem) (maxLen : ℕ) (after : List Message) :
    (createIn fs maxLen after σ d n).val = (Vfs.createIn maxLen σ d n).mapError .vfs := by
  unfold createIn Vfs.createIn
  cases Vfs.freeIdx σ d with
  | none =>
    dsimp only
    split_ifs <;> rfl
  | some idx =>
    dsimp only
    split_ifs
    · rfl
    · rfl
    · rfl
    · cases Vfs.addChild σ d idx .file n <;> rfl

theorem create_val (disk : Disk) (σ : State) (d : ℕ) (n : Str) :
    (create disk σ d n).val = (Vfs.create σ d n).mapError .vfs := by
  unfold create Vfs.create
  cases (σ.node d).fs with
  | tmpfs => exact createIn_val _ _ _
  | initramfs => rfl
  | fat32 => exact createIn_val _ _ _

theorem mkdirIn_val (fs : Filesystem) (maxLen : ℕ) :
    (mkdirIn fs maxLen σ d n).val = (Vfs.mkdirIn maxLen σ d n).mapError .vfs := by
  unfold mkdirIn Vfs.mkdirIn
  cases Vfs.freeIdx σ d with
  | none =>
    dsimp only
    split_ifs <;> rfl
  | some idx =>
    dsimp only
    split_ifs
    · rfl
    · rfl
    · cases Vfs.addChild σ d idx .dir n <;> rfl

theorem mkdir_val (σ : State) (d : ℕ) (n : Str) :
    (mkdir σ d n).val = (Vfs.mkdir σ d n).mapError .vfs := by
  unfold mkdir Vfs.mkdir
  cases (σ.node d).fs with
  | tmpfs => exact mkdirIn_val _ _
  | initramfs => rfl
  | fat32 => exact mkdirIn_val _ _

/-- `vfs_open` with its messages does what it does without them. -/
theorem vfsOpen_val (disk : Disk) (σ : State) (pathname : Str) (flags : UInt32) :
    (vfsOpen disk σ pathname flags).val = (Vfs.vfsOpen σ pathname flags).mapError .vfs := by
  unfold vfsOpen Vfs.vfsOpen
  rw [Logged.bind_of_ok (vfsLookup_val σ pathname)]
  cases Vfs.vfsLookup σ pathname with
  | some node => rfl
  | none =>
    dsimp only
    split_ifs
    · rw [Logged.bind_of_ok (vfsLookup_val σ (Vfs.dirName pathname))]
      cases Vfs.vfsLookup σ (Vfs.dirName pathname) with
      | none => rfl
      | some node =>
        dsimp only
        rw [Logged.val_bind, create_val]
        rcases Vfs.create σ node (Vfs.baseName pathname) with e | ⟨ret, target, σ'⟩
        · rfl
        · cases target <;> rfl
    · rfl

theorem vfsMkdir_val (σ : State) (path : Str) :
    (vfsMkdir σ path).val = (Vfs.vfsMkdir σ path).mapError .vfs := by
  unfold vfsMkdir Vfs.vfsMkdir
  split_ifs
  · rfl
  · rw [Logged.bind_of_ok (vfsLookup_val σ (Vfs.dirName path))]
    cases Vfs.vfsLookup σ (Vfs.dirName path) with
    | none => rfl
    | some vnode =>
      dsimp only
      rw [Logged.val_bind, mkdir_val]
      rcases Vfs.mkdir σ vnode (Vfs.baseName path) with e | ⟨ret, σ'⟩ <;> rfl

/-- `get_mbr` stops a mount of a disk without an MBR. -/
theorem vfsMount_val (hmbr : disk.mbr) (target filesystem : Str) (img : Image) :
    (vfsMount disk σ target filesystem img).val = .ok (Vfs.vfsMount σ target filesystem img) := by
  unfold vfsMount Vfs.vfsMount
  cases Vfs.findFilesystem filesystem with
  | none => rfl
  | some fs =>
    dsimp only
    rw [Logged.bind_of_ok (vfsLookup_val σ target)]
    cases Vfs.vfsLookup σ target with
    | none => rfl
    | some t =>
      have hsetup : (setupMessages disk fs).val = .ok () := by
        cases fs with
        | tmpfs => rfl
        | initramfs => rfl
        | fat32 =>
          unfold setupMessages
          rw [if_pos hmbr]
          split_ifs <;> rfl
      dsimp only
      rw [Logged.bind_of_ok hsetup]
      dsimp only
      split_ifs <;> rfl

/-- The string that the search has compared is there to be printed. -/
theorem holdsStr_of_strcmp {m : Mem} {a : ℕ} {s : Str} (hs : 0 ∉ s) (h : Boot.strcmp m s a = 0) :
    HoldsStr m a s := by
  induction s generalizing a with
  | nil =>
    rw [Boot.strcmp, Boot.toNat_sub_eq_zero] at h
    exact holdsStr_nil.mpr h.symm
  | cons c s ih =>
    rw [List.mem_cons, not_or] at hs
    rw [Boot.strcmp] at h
    split_ifs at h with hc
    · exact absurd (Boot.toNat_sub_eq_zero.mp h) hc
    · exact holdsStr_cons.mpr ⟨(not_not.mp hc).symm, Ne.symm hs.1, ih hs.2 h⟩

theorem readStr_of_strcmp {r : Boot.Round} (h : Boot.strcmp k.mem cmd.str r.name = 0) :
    Boot.readStr k.mem maxPathLen r.name = some cmd.str :=
  Boot.readStr_spec (holdsStr_of_strcmp cmd.nul_notMem h) cmd.length_lt

variable {m : Mem} {name : Str} {fuel buf base : ℕ} {found : Boot.Round ⊕ Unit}

theorem searchLoop_succ (fuel buf : ℕ) : searchLoop m name (fuel + 1) buf =
    if Boot.AtEntry m buf then
      if Boot.strcmp m name (Boot.readRound m buf).name = 0 then some (.inl (Boot.readRound m buf))
      else searchLoop m name fuel (Boot.readRound m buf).next
    else some (.inr ()) := by
  rw [searchLoop, Boot.cpioLoop]
  split_ifs <;> rfl

/-- Where the search ends. -/
def EndsAt (m : Mem) (name : Str) (buf : ℕ) : Boot.Round ⊕ Unit → Prop
  | .inl r => Boot.AtEntry m buf ∧ Boot.strcmp m name (Boot.readRound m buf).name = 0 ∧
      r = Boot.readRound m buf
  | .inr _ => ¬ Boot.AtEntry m buf

theorem EndsAt.of_searchLoop (h : searchLoop m name fuel base = some found) :
    ∃ buf, Boot.Reached m (Boot.SearchGoesOn m name) base buf ∧ EndsAt m name buf found := by
  induction fuel generalizing base with
  | zero => cases h
  | succ fuel ih =>
    rw [searchLoop_succ] at h
    split_ifs at h with hat hname
    · cases h
      exact ⟨base, .start, hat, hname, rfl⟩
    · obtain ⟨buf, hreached, hends⟩ := ih h
      exact ⟨buf, (Boot.Reached.start.next ⟨hat, hname⟩).trans hreached, hends⟩
    · cases h
      exact ⟨base, .start, hat⟩

/-- Enough rounds lead to where the search ends. -/
theorem EndsAt.searchLoop (hreached : Boot.Reached m (Boot.SearchGoesOn m name) base buf)
    (hends : EndsAt m name buf found) : ∃ fuel, searchLoop m name fuel base = some found := by
  have hend : ∃ fuel, Print.searchLoop m name fuel buf = some found := by
    refine ⟨1, ?_⟩
    rw [searchLoop_succ]
    cases found with
    | inl r => rw [if_pos hends.1, if_pos hends.2.1, hends.2.2]
    | inr u => rw [if_neg hends]
  clear hends
  induction hreached with
  | start => exact hend
  | next h hon ih =>
    obtain ⟨fuel, hfuel⟩ := hend
    refine ih ⟨fuel + 1, ?_⟩
    rw [searchLoop_succ, if_pos hon.1, if_neg hon.2, hfuel]

theorem searchLoop_name {r : Boot.Round} (h : searchLoop m name fuel base = some (.inl r)) :
    Boot.strcmp m name r.name = 0 := by
  obtain ⟨buf, -, -, hname, rfl⟩ := EndsAt.of_searchLoop h
  exact hname

/-- The search of `RaspiKernel.Boot` takes what is found here. -/
theorem initrdUsrProg_eq (fuel : ℕ) (m : Mem) (base : ℕ) (name : Str)
    (hmagic : Boot.memcmp m base Boot.cpioMagic = 0) :
    Boot.initrdUsrProg fuel m base name = (searchLoop m name fuel base).map
      fun found => found.elim (Boot.selectProgram m) fun _ => none := by
  have hloop : ∀ fuel buf, (Boot.cpioLoop m (fun r (_ : Unit) => some
      (if Boot.strcmp m name r.name = 0 then .inl (Boot.selectProgram m r) else .inr ())) fuel buf ()).map
        (fun found => found.elim id fun _ => none) =
      (searchLoop m name fuel buf).map fun found =>
        found.elim (Boot.selectProgram m) fun _ => none := by
    intro fuel
    induction fuel with
    | zero => exact fun _ => rfl
    | succ fuel ih =>
      intro buf
      rw [searchLoop_succ, Boot.cpioLoop]
      by_cases hat : Boot.AtEntry m buf
      · rw [if_pos hat, if_pos hat]
        by_cases hname : Boot.strcmp m name (Boot.readRound m buf).name = 0
        · rw [if_pos hname, if_pos hname]
          rfl
        · rw [if_neg hname, if_neg hname]
          exact ih _
      · rw [if_neg hat, if_neg hat]
        rfl
  rw [Boot.initrdUsrProg, if_neg (not_not.mpr hmagic), ← hloop]
  congr 1
  funext found
  cases found <;> rfl

/-- With a page for the program, `_initrd_usr_prog` with its messages finds what it finds without
    them. -/
theorem usrProg_val (hpage : k.progPage ≠ 0) : (usrProg fuel k cmd).val =
    match Boot.initrdUsrProg fuel k.mem k.cpioBase cmd.str with
    | none => .error .searching
    | some prog => .ok prog := by
  unfold usrProg
  by_cases hmagic : Boot.memcmp k.mem k.cpioBase Boot.cpioMagic = 0
  · rw [if_neg (not_not.mpr hmagic), initrdUsrProg_eq _ _ _ _ hmagic]
    cases hfound : searchLoop k.mem cmd.str fuel k.cpioBase with
    | none => rfl
    | some found =>
      cases found with
      | inr u => rfl
      | inl r =>
        dsimp only [Option.map_some, Sum.elim_inl]
        unfold selectProgram Boot.selectProgram
        by_cases hfs : r.fs = 0
        · rw [if_pos hfs, if_pos hfs]
          rfl
        · rw [if_neg hfs, if_neg hfs, readStr_of_strcmp (searchLoop_name hfound), if_neg hpage]
          rfl
  · rw [if_pos hmagic, Boot.initrdUsrProg, if_pos hmagic]
    rfl

end RaspiKernel.Print
