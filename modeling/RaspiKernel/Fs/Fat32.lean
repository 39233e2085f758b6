import RaspiKernel.Fs.File

/-!
# FAT32: model

Model of the on-disk side of `src/fat32.c`: the FAT, the directories, mounting,
creating and writing files.

* `unsigned int` arithmetic is reduced modulo `2 ^ 32`.
* A `char *` name is the list of its bytes before the NUL.
* A vnode with its inode and `childs` is a tree. A pointer into the tree is a
  path of child indices, which stays valid because children are only appended.
* Loops along a cluster chain and the recursion into subdirectories have a bound
  on their rounds; `printf` is left out.
* The bytes of a `struct sfn_entry` that `fat32_create` does not set are those
  found on the stack.
-/

namespace RaspiKernel.Fs

open Lib

/-- `MAX_DIR_NUM`. -/
abbrev maxDirNum : ℕ := 16

/-- `MAX_FILE_NAME_LEN`. -/
abbrev maxFileNameLen : ℕ := 16

/-- `struct fat32_info`, the fields that are read. -/
structure Fat32Info where
  startingSector : ℕ
  fatRegion : ℕ
  dataRegion : ℕ
  blocksPerCluster : ℕ
  sectorsPerFat : ℕ
  deriving DecidableEq, Repr

/-! ## The FAT -/

/-- `BLOCK_SIZE / sizeof(unsigned int)`. -/
abbrev entriesPerBlock : ℕ := 128

/-- `FAT_ENTRY_EOC`. -/
def fatEntryEoc : ℕ := 0x0ffffff8

/-- `FAT_ENTRY(cluster)`. -/
def fatEntry (cluster : ℕ) : ℕ := cluster &&& 0x0fffffff

/-- `FAT_ENTRY(cluster) == FAT_ENTRY_FREE`. -/
def IsFatEntryFree (cluster : ℕ) : Prop := fatEntry cluster = 0

instance (cluster : ℕ) : Decidable (IsFatEntryFree cluster) :=
  inferInstanceAs (Decidable (_ = _))

/-- `IS_FAT_ENTRY_VALID(cluster)`. -/
def IsFatEntryValid (cluster : ℕ) : Prop := fatEntry cluster < 0x0ffffff0 ∧ 2 ≤ fatEntry cluster

instance (cluster : ℕ) : Decidable (IsFatEntryValid cluster) :=
  inferInstanceAs (Decidable (_ ∧ _))

/-- `fat_info.fat_region + cluster / (BLOCK_SIZE / sizeof(unsigned int))`. -/
def fatBlock (info : Fat32Info) (cluster : ℕ) : ℕ :=
  (info.fatRegion + cluster / entriesPerBlock) % 2 ^ 32

/-- `fat_info.data_region + (cluster - 2) * fat_info.blocks_per_cluster`. -/
def clusterBlock (info : Fat32Info) (cluster : ℕ) : ℕ :=
  (info.dataRegion + (cluster + 2 ^ 32 - 2) * info.blocksPerCluster) % 2 ^ 32

/-- Entry `i` of a block of the FAT. -/
def fatTable (buf : Mem) (i : ℕ) : ℕ := load buf (4 * i) 4

/-- The blocks of the outer loop of `get_free_fat_cluster`. -/
def fatBlocks (info : Fat32Info) : List ℕ :=
  List.range' info.fatRegion ((info.fatRegion + info.sectorsPerFat) % 2 ^ 32 - info.fatRegion)

/-- `get_free_fat_cluster` (lines 332–346). It returns the index of the entry in its block. -/
def getFreeFatCluster (disk : Disk) (info : Fat32Info) : ℕ :=
  ((fatBlocks info).findSome? fun block =>
    (List.range entriesPerBlock).find? fun i => IsFatEntryFree (fatTable (disk block) i)).getD 0

/-- `read_fat_entry` (lines 352–361). -/
def readFatEntry (disk : Disk) (info : Fat32Info) (cluster : ℕ) : ℕ :=
  fatTable (disk (fatBlock info cluster)) (cluster % entriesPerBlock)

/-- `write_fat_table` (lines 364–374). The value is or-ed to the entry. -/
def writeFatTable (disk : Disk) (info : Fat32Info) (cluster value : ℕ) : Disk :=
  let buf := disk (fatBlock info cluster)
  let i := cluster % entriesPerBlock
  writeblock disk (fatBlock info cluster) (store buf (4 * i) (fatTable buf i ||| value) 4)

/-! ## Directory entries -/

/-- The entries of a block of a directory, `BLOCK_SIZE / DIR_ENTRY_SIZE`. -/
abbrev slotsPerBlock : ℕ := 16

/-- `dir_table[i].attr`. -/
def entryAttr (buf : Mem) (i : ℕ) : ℕ := (buf (32 * i + 11)).toNat

/-- An entry that `setup_fat32` passes over (lines 426–431). -/
def SkipEntry (buf : Mem) (i : ℕ) : Prop :=
  (entryAttr buf i &&& 0x02 ≠ 0 ∨ entryAttr buf i &&& 0x0f = 0x0f) ∨
    buf (32 * i) = 0x20 ∨ buf (32 * i) = 0x00 ∨ buf (32 * i) = 0x2e

instance (buf : Mem) (i : ℕ) : Decidable (SkipEntry buf i) :=
  inferInstanceAs (Decidable (_ ∨ _))

/-- What `setup_fat32` reads out of an entry. -/
structure DirEntry where
  type : FsnodeType
  name : List UInt8
  cluster : ℕ
  fileSize : ℕ
  deriving DecidableEq, Repr

/-- The bytes of a name field that are no blanks. -/
def nonBlank (buf : Mem) (a n : ℕ) : List UInt8 := (bytes buf a n).filter (· ≠ 0x20)

/-- The name that `setup_fat32` builds in `file_name` and copies with `strcpy` (lines 434–458). -/
def entryName (buf : Mem) (i : ℕ) (type : FsnodeType) : List UInt8 :=
  let fileName := match type with
    | .dir => nonBlank buf (32 * i) 8
    | .file => nonBlank buf (32 * i) 8 ++ 0x2e :: nonBlank buf (32 * i + 8) 3
  fileName.takeWhile (· ≠ 0)

/-- `cluster_high << 16 | cluster_low` of an entry. -/
def entryCluster (buf : Mem) (i : ℕ) : ℕ :=
  load buf (32 * i + 20) 2 <<< 16 ||| load buf (32 * i + 26) 2

/-- The body of the loop of `setup_fat32` over the entries up to the child's fields (lines 423–467). -/
def parseEntry (buf : Mem) (i : ℕ) : Option DirEntry :=
  if SkipEntry buf i then none
  else
    let type := if entryAttr buf i &&& 0x10 ≠ 0 then .dir else .file
    some {
      type := type
      name := entryName buf i type
      cluster := entryCluster buf i
      fileSize := load buf (32 * i + 28) 4 }

/-! ## Vnodes -/

/-- A `struct vnode` with its inode and the children before the first NULL of `childs`. -/
inductive Vnode where
  | mk (inode : Fat32Inode) (childs : List Vnode)

def Vnode.inode : Vnode → Fat32Inode
  | .mk inode _ => inode

def Vnode.childs : Vnode → List Vnode
  | .mk _ childs => childs

@[simp] theorem Vnode.inode_mk (inode : Fat32Inode) (childs : List Vnode) :
    (Vnode.mk inode childs).inode = inode := rfl

@[simp] theorem Vnode.childs_mk (inode : Fat32Inode) (childs : List Vnode) :
    (Vnode.mk inode childs).childs = childs := rfl

/-- The vnode at the end of a path. -/
def Vnode.get? (v : Vnode) : List ℕ → Option Vnode
  | [] => some v
  | i :: path => match v.childs[i]? with
    | none => none
    | some c => c.get? path

/-- Replace the vnode at the end of a path. -/
def Vnode.set (v : Vnode) : List ℕ → Vnode → Vnode
  | [], w => w
  | i :: path, w => match v.childs[i]? with
    | none => v
    | some c => .mk v.inode (v.childs.set i (c.set path w))

/-- `fat32_create_vnode` (lines 85–106): the inode and its buffer are zeroed. -/
def fat32CreateVnode (type : FsnodeType) : Vnode :=
  .mk ⟨type, [], fun _ => 0, 0, 0, 0⟩ []

/-! ## Mounting -/

/-- The inode of a child of a directory (lines 455–467). -/
def childInode (disk : Disk) (info : Fat32Info) (e : DirEntry) : Fat32Inode :=
  let inode := (fat32CreateVnode e.type).inode
  { inode with
    name := e.name
    cluster := e.cluster
    absBlockNum := clusterBlock info e.cluster
    data := readblock disk (clusterBlock info e.cluster) inode.data
    dataSize := e.fileSize }

/-- The child that an entry becomes, with the recursion into a directory (lines 475–476). -/
def makeChild (setup : Fat32Inode → Except Stop Vnode) (disk : Disk) (info : Fat32Info)
    (e : DirEntry) : Except Stop Vnode :=
  if e.type = .dir then setup (childInode disk info e) else .ok (.mk (childInode disk info e) [])

/-- `dir_inode->childs[child_idx] = …; child_idx++;` for an entry that is not passed over. -/
def addChild (setup : Fat32Inode → Except Stop Vnode) (disk : Disk) (info : Fat32Info)
    (childs : List Vnode) (e : DirEntry) : Except Stop (List Vnode) :=
  if childs.length ≥ maxDirNum then .error .overrun
  else do
    let v ← makeChild setup disk info e
    .ok (childs ++ [v])

/-- The body of the loop of `setup_fat32` over the entries of a block (lines 422–479). -/
def addEntry (setup : Fat32Inode → Except Stop Vnode) (disk : Disk) (info : Fat32Info) (buf : Mem)
    (childs : List Vnode) (i : ℕ) : Except Stop (List Vnode) :=
  match parseEntry buf i with
  | none => .ok childs
  | some e => addChild setup disk info childs e

/-- `while (IS_FAT_ENTRY_VALID(cur_entry))` of `setup_fat32` (lines 417–483), on `dir_inode->data` and
    the children. -/
def setupLoop (setup : Fat32Inode → Except Stop Vnode) (disk : Disk) (info : Fat32Info) :
    ℕ → ℕ → ℕ → Mem × List Vnode → Except Stop (Mem × List Vnode)
  | 0, _, _, _ => .error .looping
  | fuel + 1, cur, nxt, (data, childs) =>
    if IsFatEntryValid cur then do
      let data := readblock disk (clusterBlock info cur) data
      let childs ← (List.range slotsPerBlock).foldlM (addEntry setup disk info data) childs
      setupLoop setup disk info fuel nxt (readFatEntry disk info nxt) (data, childs)
    else .ok (data, childs)

/-- `setup_fat32` (lines 406–484). The bound is for the depth of the recursion and for the rounds of
    each loop. -/
def setupFat32 (disk : Disk) (info : Fat32Info) : ℕ → Fat32Inode → Except Stop Vnode
  | 0, _ => .error .looping
  | fuel + 1, dirInode => do
    let (data, childs) ← setupLoop (setupFat32 disk info fuel) disk info (fuel + 1)
      dirInode.cluster (readFatEntry disk info dirInode.cluster) (dirInode.data, [])
    .ok (.mk { dirInode with data := data } childs)

/-- A mounted file system. -/
structure Fat32 where
  disk : Disk
  info : Fat32Info
  root : Vnode

/-- `get_fat32_boot_sector` (lines 377–400) and `get_mbr`: `fat_info`, and `root_dir` of the boot
    sector. Without the signature of the MBR it does not come back. -/
def getFat32BootSector (disk : Disk) : Except Stop (Fat32Info × ℕ) :=
  if load (disk 0) 510 2 ≠ 0xaa55 then .error .halted
  else
    let startingSector := load (disk 0) 454 4
    let boot := disk startingSector
    let fatRegion := (startingSector + load boot 14 2) % 2 ^ 32
    let sectorsPerFat := load boot 36 4
    .ok ({
      startingSector := startingSector
      fatRegion := fatRegion
      dataRegion := (fatRegion + load boot 16 1 * sectorsPerFat) % 2 ^ 32
      blocksPerCluster := load boot 13 1
      sectorsPerFat := sectorsPerFat }, load boot 44 4)

/-- The inode of the root directory (lines 61–73). -/
def rootInode (disk : Disk) (info : Fat32Info) (rootDir : ℕ) : Fat32Inode :=
  let inode := (fat32CreateVnode .dir).inode
  { inode with
    data := readblock disk info.dataRegion inode.data
    cluster := rootDir
    absBlockNum := clusterBlock info rootDir }

/-- `fat32_setup_mount` (lines 51–78). -/
def fat32SetupMount (fuel : ℕ) (disk : Disk) : Except Stop Fat32 := do
  let (info, rootDir) ← getFat32BootSector disk
  let root ← setupFat32 disk info fuel (rootInode disk info rootDir)
  .ok ⟨disk, info, root⟩

/-! ## Creating a file -/

/-- `component_name[idx]`, with the NUL behind the name. -/
def charAt (name : List UInt8) (idx : ℕ) : UInt8 := name.getD idx 0

/-- The loop that fills `new_entry.name` (lines 266–271), with the `idx` it ends with. -/
def encodeBase (name : List UInt8) : ℕ → ℕ → List UInt8 × ℕ
  | 0, idx => ([], idx)
  | n + 1, idx =>
    if charAt name idx = 0x2e ∨ charAt name idx = 0 then
      let (rest, idx) := encodeBase name n idx
      (0x20 :: rest, idx)
    else
      let (rest, idx') := encodeBase name n (idx + 1)
      (charAt name idx :: rest, idx')

/-- The loop that fills `new_entry.file_ext` (lines 272–277). -/
def encodeExt (name : List UInt8) : ℕ → ℕ → List UInt8
  | 0, _ => []
  | n + 1, idx =>
    if charAt name idx = 0 then 0x20 :: encodeExt name n idx
    else charAt name (idx + 1) :: encodeExt name n (idx + 1)

/-- `new_entry` of `fat32_create` (lines 265–281), over the bytes found on the stack. -/
def newEntry (stack : Mem) (name : List UInt8) (cluster : ℕ) : Mem :=
  let (base, idx) := encodeBase name 8 0
  let m := copy stack 0 (ofBytes base) 8
  let m := copy m 8 (ofBytes (encodeExt name 3 idx)) 3
  let m := store m 11 0x20 1
  let m := store m 20 (cluster >>> 16) 2
  let m := store m 26 (cluster &&& 0xffff) 2
  store m 28 blockSize 4

/-- The loop of `fat32_new_dir_entry` (lines 534–551). -/
def newDirEntryLoop (disk : Disk) (info : Fat32Info) (entry : Mem) :
    ℕ → ℕ → ℕ → Except Stop Disk
  | 0, _, _ => .error .looping
  | fuel + 1, cur, nxt =>
    if IsFatEntryValid cur then
      let buf := disk (clusterBlock info cur)
      match (List.range slotsPerBlock).find? fun i => entryAttr buf i = 0 with
      | some i => .ok (writeblock disk (clusterBlock info cur) (copy buf (32 * i) entry 32))
      | none => newDirEntryLoop disk info entry fuel nxt (readFatEntry disk info nxt)
    else .ok disk

/-- `fat32_new_dir_entry` (lines 527–555). -/
def fat32NewDirEntry (fuel : ℕ) (disk : Disk) (info : Fat32Info) (dirCluster : ℕ) (entry : Mem) :
    Except Stop Disk :=
  newDirEntryLoop disk info entry fuel dirCluster (readFatEntry disk info dirCluster)

/-- The inode of a new file (lines 253–264). -/
def newInode (info : Fat32Info) (name : List UInt8) (cluster : ℕ) : Fat32Inode :=
  { (fat32CreateVnode .file).inode with
    name := name
    cluster := cluster
    absBlockNum := clusterBlock info cluster }

/-- `fat32_create` (lines 213–290): the returned `int`, the disk and the directory. The NUL of a name
    of 16 bytes falls into the padding behind the field. -/
def fat32Create (fuel : ℕ) (disk : Disk) (info : Fat32Info) (dir : Vnode) (name : List UInt8)
    (stack : Mem) : Except Stop (ℕ × Disk × Vnode) :=
  if dir.inode.type ≠ .dir then .ok (0, disk, dir)
  else if dir.childs.any fun c => c.inode.name = name then .ok (0, disk, dir)
  else if dir.childs.length ≥ maxDirNum then .ok (0, disk, dir)
  else if name.length > maxFileNameLen then .ok (0, disk, dir)
  else do
    let newCluster := getFreeFatCluster disk info
    let dir' := .mk dir.inode (dir.childs ++ [.mk (newInode info name newCluster) []])
    let disk ← fat32NewDirEntry fuel disk info dir.inode.cluster (newEntry stack name newCluster)
    .ok (1, writeFatTable disk info newCluster fatEntryEoc, dir')

/-! ## Operations on a mounted file system -/

/-- `fat32_create` in the directory at a path. -/
def Fat32.create (fs : Fat32) (fuel : ℕ) (path : List ℕ) (name : List UInt8) (stack : Mem) :
    Except Stop (ℕ × Fat32) :=
  match fs.root.get? path with
  | none => .error .dangling
  | some dir => do
    let (ret, disk, dir) ← fat32Create fuel fs.disk fs.info dir name stack
    .ok (ret, { fs with disk := disk, root := fs.root.set path dir })

/-- `fat32_write` through an open file at position `fPos` of the vnode at a path. -/
def Fat32.write (fs : Fat32) (path : List ℕ) (fPos : ℕ) (bs : List UInt8) :
    Except Stop (ℤ × Fat32) :=
  match fs.root.get? path with
  | none => .error .dangling
  | some v => do
    let (disk, inode, _, ret) ← fat32Write fs.disk v.inode fPos (ofBytes bs) bs.length
    .ok (ret, { fs with disk := disk, root := fs.root.set path (.mk inode v.childs) })

end RaspiKernel.Fs
