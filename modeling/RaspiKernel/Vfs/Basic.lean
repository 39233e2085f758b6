import RaspiKernel.Fs.File

/-!
# The virtual file system

Model of `src/vfs.c` and of the vnode operations of `tmpfs.c`, `initramfs.c` and
`fat32.c`. The state is the graph of the vnodes: an address is the number of the
vnode in the order of allocation, and each vnode has the fields of its inode
that path names depend on. The data of the files and the disk are in
`RaspiKernel.Fs`.

* The caller's buffer holds a path of at most 255 characters (`Path`).
* What `setup_mount` of a file system allocates is an `Image`. That of a `tmpfs`
  is one directory; the other two depend on the archive and on the disk.
* A call that writes behind a name field, follows a vnode pointer that was never
  set or reads behind a string has no result.
-/

namespace RaspiKernel.Vfs

open Fs (FsnodeType)

/-! ## The state -/

/-- A C string: the bytes before its NUL. -/
abbrev Str := List UInt8

/-- A string literal. -/
def ofString (s : String) : Str := s.toList.map fun c => UInt8.ofNat c.toNat

/-- `'/'`. -/
abbrev slash : UInt8 := 0x2f

/-- `MAX_FILE_NAME_LEN`, the size of the name field of an inode. -/
abbrev maxFileNameLen : ℕ := 16

/-- `MAX_PATH_LEN`. -/
abbrev maxPathLen : ℕ := 256

/-- `MAX_DIR_NUM`. -/
abbrev maxDirNum : ℕ := 16

/-- `O_CREAT`. -/
def oCreat : UInt32 := 100

/-- A path name in a buffer of `MAX_PATH_LEN` bytes. -/
structure Path where
  str : Str
  length_lt : str.length < maxPathLen
  deriving DecidableEq

/-- `struct filesystem`. -/
inductive Filesystem where
  | tmpfs
  | initramfs
  | fat32
  deriving DecidableEq, Repr

def Filesystem.name : Filesystem → Str
  | .tmpfs => ofString "tmpfs"
  | .initramfs => ofString "initramfs"
  | .fat32 => ofString "fat32"

/-- `filesystems`, in the order of their registration (`vfs.c`, lines 199–201). -/
def filesystems : List Filesystem := [.tmpfs, .initramfs, .fat32]

/-- `struct vnode` with its inode. The file system stands for `v_ops` and `f_ops`, and `mount` is
    the root of the mounted instance, `mount->root`. -/
structure Vnode where
  fs : Filesystem
  mount : Option ℕ
  type : FsnodeType
  name : Str
  childs : ℕ → Option ℕ

/-- The vnodes, the number of the next one and `rootfs->root`. -/
structure State where
  node : ℕ → Vnode
  next : ℕ
  root : ℕ

/-- How a call can go wrong. -/
inductive Stop where
  /-- `strcpy` writes behind `inode->name`. -/
  | nameOverrun
  /-- `target_node` is used without having been set. -/
  | wildTarget
  /-- The string after the last slash is read behind the end of the path. -/
  | overread
  deriving DecidableEq, Repr

/-- Replace one vnode. -/
def State.set (σ : State) (d : ℕ) (v : Vnode) : State := { σ with node := Function.update σ.node d v }

/-- `tmpfs_create_vnode(0, type)`, `fat32_create_vnode(0, type)`. -/
def createVnode (fs : Filesystem) (type : FsnodeType) : Vnode := ⟨fs, none, type, [], fun _ => none⟩

/-! ## Vnode operations -/

/-- The loop of `tmpfs_lookup` (lines 150–159), with the rounds left and `child_idx`. -/
def lookupLoop (σ : State) (dir : ℕ) (name : Str) : ℕ → ℕ → Option ℕ
  | 0, _ => none
  | n + 1, idx => match (σ.node dir).childs idx with
    | none => none
    | some v => if name = (σ.node v).name then some v else lookupLoop σ dir name n (idx + 1)

/-- `tmpfs_lookup`, `initramfs_lookup` and `fat32_lookup`, which are the same but for the type of
    the inode. -/
def lookup (σ : State) (dir : ℕ) (name : Str) : Option ℕ := lookupLoop σ dir name maxDirNum 0

/-- The first index that is free, in the loops of `create` and `mkdir`. -/
def freeIdx (σ : State) (dir : ℕ) : Option ℕ :=
  (List.range maxDirNum).find? fun idx => ((σ.node dir).childs idx).isNone

/-- A new vnode in `childs[idx]` of a directory. -/
def State.withChild (σ : State) (dir idx : ℕ) (type : FsnodeType) (name : Str) : State :=
  let parent := σ.node dir
  let v := { createVnode parent.fs type with name := name }
  let parent := { parent with childs := Function.update parent.childs idx (some σ.next) }
  { (σ.set σ.next v).set dir parent with next := σ.next + 1 }

/-- Create a vnode, put it into `childs[idx]` and copy its name (`tmpfs.c`, lines 206–211). -/
def addChild (σ : State) (dir idx : ℕ) (type : FsnodeType) (name : Str) : Except Stop (ℕ × State) :=
  if name.length ≥ maxFileNameLen then .error .nameOverrun
  else .ok (σ.next, σ.withChild dir idx type name)

/-- `tmpfs_create` (lines 167–215) with its bound on the length of a name: the returned `int`, the
    value of `*target` if it is set, and the state. The loop compares the names as that of
    `lookup` does. -/
def createIn (maxLen : ℕ) (σ : State) (dir : ℕ) (name : Str) :
    Except Stop (ℤ × Option ℕ × State) :=
  if (σ.node dir).type ≠ .dir then .ok (0, none, σ)
  else if (lookup σ dir name).isSome then .ok (0, none, σ)
  else match freeIdx σ dir with
    | none => .ok (0, none, σ)
    | some idx =>
      if name.length > maxLen then .ok (0, none, σ)
      else do
        let (v, σ) ← addChild σ dir idx .file name
        .ok (1, some v, σ)

/-- `tmpfs_mkdir` (lines 218–254): no name is compared. -/
def mkdirIn (maxLen : ℕ) (σ : State) (dir : ℕ) (name : Str) : Except Stop (ℤ × State) :=
  if (σ.node dir).type ≠ .dir then .ok (-1, σ)
  else match freeIdx σ dir with
    | none => .ok (-1, σ)
    | some idx =>
      if name.length > maxLen then .ok (-1, σ)
      else do
        let (_, σ) ← addChild σ dir idx .dir name
        .ok (0, σ)

def tmpfsCreate : State → ℕ → Str → Except Stop (ℤ × Option ℕ × State) := createIn maxPathLen

/-- `fat32_create` (lines 213–290), the part on vnodes. -/
def fat32Create : State → ℕ → Str → Except Stop (ℤ × Option ℕ × State) := createIn maxFileNameLen

def initramfsCreate (σ : State) (_ : ℕ) (_ : Str) : Except Stop (ℤ × Option ℕ × State) :=
  .ok (0, none, σ)

def tmpfsMkdir : State → ℕ → Str → Except Stop (ℤ × State) := mkdirIn maxPathLen

/-- `fat32_mkdir` (lines 293–329). -/
def fat32Mkdir : State → ℕ → Str → Except Stop (ℤ × State) := mkdirIn maxPathLen

def initramfsMkdir (σ : State) (_ : ℕ) (_ : Str) : Except Stop (ℤ × State) := .ok (0, σ)

/-- `node->v_ops->create(node, &target, name)`. -/
def create (σ : State) (dir : ℕ) (name : Str) : Except Stop (ℤ × Option ℕ × State) :=
  match (σ.node dir).fs with
  | .tmpfs => tmpfsCreate σ dir name
  | .initramfs => initramfsCreate σ dir name
  | .fat32 => fat32Create σ dir name

/-- `vnode->v_ops->mkdir(vnode, &vnode, name)`. -/
def mkdir (σ : State) (dir : ℕ) (name : Str) : Except Stop (ℤ × State) :=
  match (σ.node dir).fs with
  | .tmpfs => tmpfsMkdir σ dir name
  | .initramfs => initramfsMkdir σ dir name
  | .fat32 => fat32Mkdir σ dir name

/-! ## Path names -/

/-- `if (dir->mount) dir = dir->mount->root;` -/
def redirect (σ : State) (v : ℕ) : ℕ := (σ.node v).mount.getD v

/-- The loop of `vfs_lookup` and what follows it (lines 85–115): the rest of the path name, `dir`
    and the component collected so far in `path[]`. -/
def lookupChars (σ : State) : Str → ℕ → Str → Option ℕ
  | [], dir, path => (lookup σ dir path).map (redirect σ)
  | c :: rest, dir, path =>
    if c = slash then
      match lookup σ dir path with
      | none => none
      | some v => lookupChars σ rest (redirect σ v) []
    else lookupChars σ rest dir (path ++ [c])

/-- `vfs_lookup` (lines 74–116), for components that fit in `path[]`. -/
def vfsLookup (σ : State) (pathname : Str) : Option ℕ :=
  if pathname.length = 0 ∨ (pathname.length = 1 ∧ pathname.getD 0 0 = slash) then some σ.root
  else lookupChars σ (pathname.drop 1) σ.root []

/-- The index of the last slash, or 0 (lines 137–139 and 266–268). -/
def lastSlash (path : Str) : ℕ :=
  (List.range path.length).foldl (fun idx i => if path.getD i 0 = slash then i else idx) 0

/-- The directory part of a path name (lines 142 and 270). -/
def dirName (path : Str) : Str := path.take (lastSlash path)

/-- `path + last_slash + 1`. -/
def baseName (path : Str) : Str := path.drop (lastSlash path + 1)

/-- `vfs_open` (lines 119–170): the vnode the new `struct file` is attached to, or nothing if it
    returns 0. -/
def vfsOpen (σ : State) (pathname : Str) (flags : UInt32) : Except Stop (Option ℕ × State) :=
  match vfsLookup σ pathname with
  | some node => .ok (some node, σ)
  | none =>
    if flags &&& oCreat ≠ 0 then
      match vfsLookup σ (dirName pathname) with
      | none => .ok (none, σ)
      | some node => do
        let (_, target, σ) ← create σ node (baseName pathname)
        match target with
        | some v => .ok (some v, σ)
        | none => .error .wildTarget
    else .ok (none, σ)

/-- `vfs_mkdir` (lines 260–280). -/
def vfsMkdir (σ : State) (path : Str) : Except Stop (ℕ × State) :=
  if path = [] then .error .overread
  else match vfsLookup σ (dirName path) with
    | some vnode => do
      let (_, σ) ← mkdir σ vnode (baseName path)
      .ok (1, σ)
    | none => .ok (0, σ)

/-! ## Mounting -/

/-- A vnode allocated by `setup_mount`. Its childs are given by their number in the order of
    allocation. -/
structure ImageNode where
  type : FsnodeType
  name : Str
  childs : List ℕ
  deriving DecidableEq, Repr

/-- The vnodes that `setup_mount` allocates, the root first and each before its childs. -/
structure Image where
  nodes : List ImageNode
  root_dir : nodes.head?.map ImageNode.type = some .dir
  childs_le : ∀ n ∈ nodes, n.childs.length ≤ maxDirNum
  child_after : ∀ i (h : i < nodes.length), ∀ x ∈ nodes[i].childs, i < x ∧ x < nodes.length
  child_once : (nodes.flatMap ImageNode.childs).Nodup
  name_fits : ∀ n ∈ nodes, n.name.length < maxFileNameLen

/-- `tmpfs_setup_mount` (lines 37–46). -/
def tmpfsImage : Image where
  nodes := [⟨.dir, [], []⟩]
  root_dir := rfl
  childs_le := by decide
  child_after := by decide
  child_once := by decide
  name_fits := by decide

/-- The image that is mounted: only that of a `tmpfs` does not depend on outside data. -/
def Filesystem.image (fs : Filesystem) (img : Image) : Image :=
  match fs with
  | .tmpfs => tmpfsImage
  | .initramfs => img
  | .fat32 => img

/-- The vnode for a node of an image whose root is at `base`. -/
def ImageNode.toVnode (n : ImageNode) (fs : Filesystem) (base : ℕ) : Vnode :=
  { createVnode fs n.type with name := n.name, childs := fun j => n.childs[j]?.map (base + ·) }

/-- `fs->setup_mount(fs, mount)`: `mount->root` and the state. -/
def setupMount (σ : State) (fs : Filesystem) (img : Image) : ℕ × State :=
  let nodes := (fs.image img).nodes
  (σ.next, { σ with
    node := fun d =>
      if d < σ.next then σ.node d
      else (nodes[d - σ.next]?.map fun n => n.toVnode fs σ.next).getD (σ.node d)
    next := σ.next + nodes.length })

/-- `target_node->mount = mount`. -/
def State.setMount (σ : State) (t r : ℕ) : State := σ.set t { σ.node t with mount := some r }

/-- The search for the file system of a name (`vfs_mount`, lines 39–44). -/
def findFilesystem (filesystem : Str) : Option Filesystem :=
  filesystems.find? fun fs => fs.name = filesystem

/-- `vfs_mount` (lines 33–71): the returned `int` and the state. -/
def vfsMount (σ : State) (target filesystem : Str) (img : Image) : ℕ × State :=
  match findFilesystem filesystem with
  | none => (0, σ)
  | some fs =>
    match vfsLookup σ target with
    | none => (0, σ)
    | some t =>
      let (root, σ) := setupMount σ fs img
      if (σ.node t).mount.isSome then (0, σ)
      else (1, σ.setMount t root)

/-- No vnode yet. -/
def zeroState : State := ⟨fun _ => createVnode .tmpfs .file, 0, 0⟩

/-- `rootfs_init` (lines 195–213), with the images of the archive and of the disk. -/
def rootfsInit (archive disk : Image) : Except Stop State := do
  let (root, σ) := setupMount zeroState .tmpfs tmpfsImage
  let σ := { σ with root := root }
  let (_, σ) ← vfsMkdir σ (ofString "/initramfs")
  let (_, σ) := vfsMount σ (ofString "/initramfs") (ofString "initramfs") archive
  let (_, σ) ← vfsMkdir σ (ofString "/boot")
  let (_, σ) := vfsMount σ (ofString "/boot") (ofString "fat32") disk
  .ok σ

/-- The calls that change the graph of the vnodes. A mount comes with what it finds on the disk or
    in the archive. -/
inductive Op where
  | mkdir (path : Path)
  | openFile (path : Path) (flags : UInt32)
  | mount (target : Path) (filesystem : Str) (img : Image)

/-- One call. -/
def step (σ : State) : Op → Except Stop State
  | .mkdir path => (vfsMkdir σ path.str).map Prod.snd
  | .openFile path flags => (vfsOpen σ path.str flags).map Prod.snd
  | .mount target filesystem img => .ok (vfsMount σ target.str filesystem img).2

/-- The states that any sequence of calls after `rootfs_init` leads to. -/
inductive Reachable (archive disk : Image) : State → Prop where
  | init {σ : State} (h : rootfsInit archive disk = .ok σ) : Reachable archive disk σ
  | step {σ σ' : State} (hσ : Reachable archive disk σ) (op : Op) (h : step σ op = .ok σ') :
      Reachable archive disk σ'

end RaspiKernel.Vfs
