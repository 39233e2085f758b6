import RaspiKernel.Lib.ByteMem
import RaspiKernel.Lib.Run

/-!
# Open files: model

Model of the file operations `open`, `read` and `write` of `src/tmpfs.c` and
`src/fat32.c`, and of their dispatch in `src/vfs.c`.

* A block of the SD card is memory of which the first `BLOCK_SIZE` bytes exist.
  `readblock` and `writeblock` are taken as a faithful block store.
* `inode->data` is memory as well. An access behind the buffer that `kmalloc`
  returned for it stops the model.
* A `struct vnode *` and a `struct file *` are indices. `f_ops` is given by the
  file system of the inode.
-/

namespace RaspiKernel.Fs

open Lib

/-- `BLOCK_SIZE`. -/
abbrev blockSize : ℕ := 512

/-- `DEFAULT_INODE_SIZE`. -/
abbrev defaultInodeSize : ℕ := 4096

/-- How a call can fail to come back. -/
inductive Stop where
  /-- An access behind the end of a buffer or an array. -/
  | overrun
  /-- A pointer to nothing. -/
  | dangling
  /-- A loop has not ended within the given number of rounds. -/
  | looping
  /-- `while (1);`. -/
  | halted
  deriving DecidableEq, Repr

/-- Conversion of a `size_t` to `int`. -/
def toInt (x : ℕ) : ℤ := (x : ℤ).bmod (2 ^ 32)

/-! ## Blocks -/

/-- The SD card, block by block. -/
abbrev Disk := ℕ → Mem

/-- `readblock` into a buffer. -/
def readblock (disk : Disk) (block : ℕ) (buf : Mem) : Mem := copy buf 0 (disk block) blockSize

/-- `writeblock` from a buffer. -/
def writeblock (disk : Disk) (block : ℕ) (buf : Mem) : Disk :=
  Function.update disk block (copy (disk block) 0 buf blockSize)

/-- The first `n` bytes of a block are those of a buffer. -/
def SameBytes (block data : Mem) (n : ℕ) : Prop := ∀ i < n, block i = data i

/-- What is on a block behind `writeblock`. -/
theorem writeblock_same (disk : Disk) (b : ℕ) (data : Mem) :
    SameBytes (writeblock disk b data b) data blockSize := by
  intro i hi
  unfold writeblock
  rw [Function.update_self, copy_of_mem (by omega), Nat.sub_zero]

theorem writeblock_of_ne (disk : Disk) {b b' : ℕ} (h : b' ≠ b) (data : Mem) :
    writeblock disk b data b' = disk b' := Function.update_of_ne h ..

/-! ## Inodes -/

/-- `enum fsnode_type`. -/
inductive FsnodeType where
  | file
  | dir
  deriving DecidableEq, Repr

/-- `struct tmpfs_inode` without `childs`. A name is the bytes before its NUL. -/
structure TmpfsInode where
  type : FsnodeType
  name : List UInt8
  data : Mem
  dataSize : ℕ

/-- `struct fat32_inode` without `childs`. -/
structure Fat32Inode where
  type : FsnodeType
  name : List UInt8
  data : Mem
  dataSize : ℕ
  cluster : ℕ
  absBlockNum : ℕ

/-! ## Reading and writing at a position

`tmpfs_read` and `fat32_read` differ only in that the latter reloads the block,
`tmpfs_write` and `fat32_write` only in that the latter writes it back. -/

/-- What a call returns: its `int` and the bytes it has put into the caller's buffer. -/
structure Outcome where
  ret : ℤ
  bytes : List UInt8
  deriving DecidableEq, Repr

/-- The clipped copy of `tmpfs_read` and `fat32_read` out of a buffer of `capacity` bytes: the new
    `f_pos` and what is returned. Both branches copy `len` bytes and advance by `len`. -/
def readAt (capacity : ℕ) (data : Mem) (dataSize fPos len : ℕ) : Except Stop (ℕ × Outcome) :=
  let len := if (fPos + len) % 2 ^ 64 > dataSize then (dataSize + 2 ^ 64 - fPos) % 2 ^ 64 else len
  if fPos + len > capacity then .error .overrun
  else .ok ((fPos + len) % 2 ^ 64, ⟨toInt len, bytes data fPos len⟩)

/-- The copy of `tmpfs_write` and `fat32_write` into a buffer of `capacity` bytes: the new buffer. -/
def writeAt (capacity : ℕ) (data : Mem) (fPos : ℕ) (buf : Mem) (len : ℕ) : Except Stop Mem :=
  if fPos + len > capacity then .error .overrun else .ok (copy data fPos buf len)

/-- `if (inode->data_size < file->f_pos) inode->data_size = file->f_pos;`. -/
def grow (dataSize fPos : ℕ) : ℕ := if dataSize < fPos then fPos else dataSize

/-- `tmpfs_read` (lines 95–110). -/
def tmpfsRead (inode : TmpfsInode) (fPos len : ℕ) : Except Stop (ℕ × Outcome) :=
  readAt defaultInodeSize inode.data inode.dataSize fPos len

/-- `tmpfs_write` (lines 75–92): the inode, `f_pos` and the returned `int`. -/
def tmpfsWrite (inode : TmpfsInode) (fPos : ℕ) (buf : Mem) (len : ℕ) :
    Except Stop (TmpfsInode × ℕ × ℤ) :=
  if len = 0 then .ok (inode, fPos, 0)
  else do
    let data ← writeAt defaultInodeSize inode.data fPos buf len
    let fPos := (fPos + len) % 2 ^ 64
    .ok ({ inode with data := data, dataSize := grow inode.dataSize fPos }, fPos, toInt len)

/-- `fat32_read` (lines 135–156). The block is loaded before the length is looked at. -/
def fat32Read (disk : Disk) (inode : Fat32Inode) (fPos len : ℕ) :
    Except Stop (Fat32Inode × ℕ × Outcome) := do
  let inode := { inode with data := readblock disk inode.absBlockNum inode.data }
  let (fPos, out) ← readAt blockSize inode.data inode.dataSize fPos len
  .ok (inode, fPos, out)

/-- `fat32_write` (lines 109–132). -/
def fat32Write (disk : Disk) (inode : Fat32Inode) (fPos : ℕ) (buf : Mem) (len : ℕ) :
    Except Stop (Disk × Fat32Inode × ℕ × ℤ) :=
  if len = 0 then .ok (disk, inode, fPos, 0)
  else do
    let data ← writeAt blockSize inode.data fPos buf len
    let fPos := (fPos + len) % 2 ^ 64
    .ok (writeblock disk inode.absBlockNum data,
      { inode with data := data, dataSize := grow inode.dataSize fPos }, fPos, toInt len)

/-! ### Inside the file -/

theorem toInt_of_lt {x : ℕ} (h : x < 2 ^ 31) : toInt x = x := by
  unfold toInt
  rw [Int.bmod_eq_of_le_mul_two] <;> omega

/-- The bytes from `fPos` on, up to the end of the file. -/
theorem bytes_clip (data : Mem) (dataSize fPos len : ℕ) :
    bytes data fPos (min len (dataSize - fPos)) = ((bytes data 0 dataSize).drop fPos).take len := by
  apply List.ext_getElem?
  intro i
  rw [getElem?_bytes, List.getElem?_take, List.getElem?_drop, getElem?_bytes, zero_add]
  rcases lt_or_ge i (min len (dataSize - fPos)) with hi | hi
  · rw [if_pos hi, if_pos (by omega), if_pos (by omega)]
  · rw [if_neg (by omega)]
    split
    · rw [if_neg (by omega)]
    · rfl

/-- The length of a read is clipped at the end of the file only. -/
theorem readAt_eq {dataSize fPos len : ℕ} (capacity : ℕ) (data : Mem) (hpos : fPos ≤ dataSize)
    (hsize : dataSize < 2 ^ 63) (hlen : len < 2 ^ 31) :
    readAt capacity data dataSize fPos len =
      if fPos + min len (dataSize - fPos) > capacity then .error .overrun
      else .ok (fPos + min len (dataSize - fPos),
        ⟨(min len (dataSize - fPos) : ℕ), bytes data fPos (min len (dataSize - fPos))⟩) := by
  have hclip : (if (fPos + len) % 2 ^ 64 > dataSize then (dataSize + 2 ^ 64 - fPos) % 2 ^ 64
      else len) = min len (dataSize - fPos) := by
    split <;> omega
  unfold readAt
  rw [hclip]
  dsimp only
  rw [Nat.mod_eq_of_lt (by omega), toInt_of_lt (by omega)]

/-- A read inside the file returns what is there, up to the end of the file. -/
theorem readAt_spec {capacity dataSize fPos len : ℕ} {data : Mem} {bs : List UInt8}
    (hpos : fPos ≤ dataSize) (hsize : dataSize ≤ blockSize) (hcap : blockSize ≤ capacity)
    (hlen : len < 2 ^ 31) (hbs : ((bytes data 0 dataSize).drop fPos).take len = bs) :
    readAt capacity data dataSize fPos len = .ok (fPos + bs.length, ⟨bs.length, bs⟩) := by
  unfold blockSize at hsize hcap
  have hlength : min len (dataSize - fPos) = bs.length := by
    rw [← hbs, ← bytes_clip, length_bytes]
  rw [readAt_eq capacity data hpos (by omega) hlen, if_neg (by omega), bytes_clip, hbs, hlength]

/-- A write inside the first 512 bytes. -/
theorem writeAt_spec {capacity fPos : ℕ} {data : Mem} {bs : List UInt8} (hcap : blockSize ≤ capacity)
    (hend : fPos + bs.length ≤ 512) :
    writeAt capacity data fPos (ofBytes bs) bs.length =
      .ok (copy data fPos (ofBytes bs) bs.length) := by
  unfold blockSize at hcap
  exact if_neg (by omega)

theorem grow_eq (dataSize fPos : ℕ) : grow dataSize fPos = max dataSize fPos := by
  unfold grow
  split <;> omega

/-- A nonempty write inside the first 512 bytes. -/
theorem tmpfsWrite_spec {inode : TmpfsInode} {fPos : ℕ} {bs : List UInt8} (hbs : bs ≠ [])
    (hend : fPos + bs.length ≤ 512) :
    tmpfsWrite inode fPos (ofBytes bs) bs.length =
      .ok ({ inode with
          data := copy inode.data fPos (ofBytes bs) bs.length
          dataSize := max inode.dataSize (fPos + bs.length) },
        fPos + bs.length, bs.length) := by
  have hlen : bs.length ≠ 0 := by simpa using hbs
  rw [tmpfsWrite, if_neg hlen, writeAt_spec (by decide) hend]
  dsimp only [bind, Except.bind]
  rw [Nat.mod_eq_of_lt (by omega), toInt_of_lt (by omega), grow_eq]

/-- A nonempty write inside the first 512 bytes. -/
theorem fat32Write_spec {disk : Disk} {inode : Fat32Inode} {fPos : ℕ} {bs : List UInt8} (hbs : bs ≠ [])
    (hend : fPos + bs.length ≤ 512) :
    fat32Write disk inode fPos (ofBytes bs) bs.length =
      .ok (writeblock disk inode.absBlockNum (copy inode.data fPos (ofBytes bs) bs.length),
        { inode with
          data := copy inode.data fPos (ofBytes bs) bs.length
          dataSize := max inode.dataSize (fPos + bs.length) },
        fPos + bs.length, bs.length) := by
  have hlen : bs.length ≠ 0 := by simpa using hbs
  rw [fat32Write, if_neg hlen, writeAt_spec le_rfl hend]
  dsimp only [bind, Except.bind]
  rw [Nat.mod_eq_of_lt (by omega), toInt_of_lt (by omega), grow_eq]

/-! ## Files -/

/-- `vnode->internal`, with the file system that `f_ops` stands for. -/
inductive Internal where
  | tmpfs (inode : TmpfsInode)
  | fat32 (inode : Fat32Inode)

/-- `struct file`. -/
structure File where
  vnode : ℕ
  fPos : ℕ
  deriving DecidableEq, Repr

/-- The vnodes, the open files and the SD card. -/
structure State where
  vnodes : List Internal
  files : List File
  disk : Disk

/-- Set the position of an open file. -/
def State.setPos (s : State) (h : ℕ) (f : File) (fPos : ℕ) : State :=
  { s with files := s.files.set h { f with fPos := fPos } }

/-- `tmpfs_open` and `fat32_open`: a new `struct file` for the vnode. -/
def openFile (s : State) (vnode : ℕ) : Outcome × State :=
  (⟨1, []⟩, { s with files := s.files ++ [⟨vnode, 0⟩] })

/-- `vfs_read` (lines 188–193). -/
def vfsRead (s : State) (h len : ℕ) : Except Stop (Outcome × State) :=
  match s.files[h]? with
  | none => .error .dangling
  | some f =>
    match s.vnodes[f.vnode]? with
    | none => .error .dangling
    | some (.tmpfs inode) => do
      let (fPos, out) ← tmpfsRead inode f.fPos len
      .ok (out, s.setPos h f fPos)
    | some (.fat32 inode) => do
      let (inode, fPos, out) ← fat32Read s.disk inode f.fPos len
      .ok (out, { s with vnodes := s.vnodes.set f.vnode (.fat32 inode) }.setPos h f fPos)

/-- `vfs_write` (lines 181–186). -/
def vfsWrite (s : State) (h : ℕ) (buf : Mem) (len : ℕ) : Except Stop (Outcome × State) :=
  match s.files[h]? with
  | none => .error .dangling
  | some f =>
    match s.vnodes[f.vnode]? with
    | none => .error .dangling
    | some (.tmpfs inode) => do
      let (inode, fPos, ret) ← tmpfsWrite inode f.fPos buf len
      .ok (⟨ret, []⟩, { s with vnodes := s.vnodes.set f.vnode (.tmpfs inode) }.setPos h f fPos)
    | some (.fat32 inode) => do
      let (disk, inode, fPos, ret) ← fat32Write s.disk inode f.fPos buf len
      .ok (⟨ret, []⟩,
        { s with vnodes := s.vnodes.set f.vnode (.fat32 inode), disk := disk }.setPos h f fPos)

end RaspiKernel.Fs
