import RaspiKernel.Fs.WriteBounds

/-!
# Reads and the end of the file

`tmpfs_read`, `fat32_read` and `initramfs_read` have one piece of code that clips the
length of a read at the end of the file. It adds and subtracts in 64 bits without a
sign, and `lseek64` puts a handle at any position.

The three functions are modelled without the stop at the end of the buffer, as the
writes in `RaspiKernel.Fs.WriteBounds`: what `memcpy` is asked for is counted, not
what is there.

Results:
* `readAt_eq_raw`: up to the stop the model of `RaspiKernel.Fs.File` is the same.
* `clipped_iff`: when the number of bytes is the right one.
* `reads_clipped_iff`: the runs in which it always is.
-/

namespace RaspiKernel.Fs

open Lib

/-! ## The model -/

/-- The `len` that is given to `memcpy`. -/
def clipLen (dataSize fPos len : ℕ) : ℕ :=
  if (fPos + len) % 2 ^ 64 > dataSize then (dataSize + 2 ^ 64 - fPos) % 2 ^ 64 else len

/-- `tmpfs_read` (lines 95–110), `fat32_read` (lines 135–156) behind the load of the block, and
    `initramfs_read` (lines 90–105): the new `f_pos`, the returned `int` and the bytes copied. -/
def readRaw (data : Mem) (dataSize fPos len : ℕ) : ℕ × Outcome :=
  let len := clipLen dataSize fPos len
  ((fPos + len) % 2 ^ 64, ⟨toInt len, bytes data fPos len⟩)

/-- `vnode->internal` of one of the three file systems. -/
inductive Inode where
  | disk (n : Internal)
  /-- `struct initramfs_inode`: `data` and `data_size`. -/
  | initramfs (data : Mem) (dataSize : ℕ)

/-- `inode->data_size`. -/
def Inode.dataSize : Inode → ℕ
  | .disk n => n.dataSize
  | .initramfs _ size => size

/-- `file->f_ops->read(file, buf, len)`: the inode, `f_pos` and the outcome. -/
def Inode.read (n : Inode) (disk : Disk) (fPos len : ℕ) : Inode × ℕ × Outcome :=
  match n with
  | .disk (.tmpfs inode) => (n, readRaw inode.data inode.dataSize fPos len)
  | .disk (.fat32 inode) =>
    let inode := { inode with data := readblock disk inode.absBlockNum inode.data }
    (.disk (.fat32 inode), readRaw inode.data inode.dataSize fPos len)
  | .initramfs data size => (n, readRaw data size fPos len)

/-- `file->f_ops->write(file, buf, len)`: the disk, the inode, `f_pos` and the returned `int`. -/
def Inode.write (n : Inode) (disk : Disk) (fPos : ℕ) (buf : Mem) (len : ℕ) :
    Disk × Inode × ℕ × ℤ :=
  match n with
  | .disk (.tmpfs inode) =>
    let (inode, fPos, ret) := tmpfsWriteRaw inode fPos buf len
    (disk, .disk (.tmpfs inode), fPos, ret)
  | .disk (.fat32 inode) =>
    let (disk, inode, fPos, ret) := fat32WriteRaw disk inode fPos buf len
    (disk, .disk (.fat32 inode), fPos, ret)
  | .initramfs _ _ => (disk, n, fPos, 0)

/-- `SEEK_SET`. -/
abbrev seekSet : ℤ := 0

/-- `tmpfs_lseek64`, `fat32_lseek64` and `initramfs_lseek64`: `f_pos` and the returned `long`. -/
def lseek64 (fPos : ℕ) (offset : Int64) (whence : ℤ) : ℕ × ℤ :=
  if whence = seekSet then (offset.toUInt64.toNat, offset.toInt) else (fPos, 0)

/-- The vnodes, the open files and the SD card. -/
structure OpenFiles where
  vnodes : List Inode
  files : List File
  disk : Disk

/-- A state with no open file. -/
def OpenFiles.start (vnodes : List Inode) (disk : Disk) : OpenFiles := ⟨vnodes, [], disk⟩

/-- The operations of the handles. -/
inductive HandleOp where
  | openFile (vnode : ℕ)
  | read (h : ℕ) (len : UInt64)
  | write (h : ℕ) (bs : List UInt8)
  | lseek (h : ℕ) (offset : Int64) (whence : ℤ)

/-- One operation. There is none on a handle that does not exist. -/
def OpenFiles.step (s : OpenFiles) : HandleOp → Option OpenFiles
  | .openFile v => if v < s.vnodes.length then some { s with files := s.files ++ [⟨v, 0⟩] } else none
  | .read h len => do
    let f ← s.files[h]?
    let n ← s.vnodes[f.vnode]?
    let (n, fPos, _) := n.read s.disk f.fPos len.toNat
    some { s with vnodes := s.vnodes.set f.vnode n, files := s.files.set h { f with fPos := fPos } }
  | .write h bs => do
    let f ← s.files[h]?
    let n ← s.vnodes[f.vnode]?
    let (disk, n, fPos, _) := n.write s.disk f.fPos (ofBytes bs) bs.length
    some {
      vnodes := s.vnodes.set f.vnode n
      files := s.files.set h { f with fPos := fPos }
      disk := disk }
  | .lseek h offset whence => do
    let f ← s.files[h]?
    some { s with files := s.files.set h { f with fPos := (lseek64 f.fPos offset whence).1 } }

/-- Up to the end of the buffer the reads are those of the model with the stop. -/
theorem readAt_eq_raw (capacity : ℕ) (data : Mem) (dataSize fPos len : ℕ) :
    readAt capacity data dataSize fPos len =
      if fPos + clipLen dataSize fPos len > capacity then .error .overrun
      else .ok (readRaw data dataSize fPos len) := rfl

/-! ## One read -/

/-- What is left of the file. -/
def restOf (dataSize fPos len : ℕ) : ℕ := if fPos ≤ dataSize then min len (dataSize - fPos) else 0

/-- The read copies what is left of the file, up to `len` bytes, advances by their number and returns
    it. -/
def Inode.Clipped (n : Inode) (disk : Disk) (fPos len : ℕ) : Prop :=
  let rest := restOf n.dataSize fPos len
  (n.read disk fPos len).2.2.bytes.length = rest ∧ (n.read disk fPos len).2.1 = fPos + rest ∧
    (n.read disk fPos len).2.2.ret = rest

/-- The position is in the file, the sum does not wrap around, and the number of bytes is an `int`. -/
def Inode.InFile (n : Inode) (fPos len : ℕ) : Prop :=
  fPos ≤ n.dataSize ∧ fPos + len < 2 ^ 64 ∧ min len (n.dataSize - fPos) < 2 ^ 31

variable {n : Inode} {disk : Disk} {fPos len : ℕ}

theorem read_raw (n : Inode) (disk : Disk) (fPos len : ℕ) : ∃ data,
    (n.read disk fPos len).2 = readRaw data n.dataSize fPos len := by
  match n with
  | .disk (.tmpfs inode) => exact ⟨_, rfl⟩
  | .disk (.fat32 inode) => exact ⟨_, rfl⟩
  | .initramfs data size => exact ⟨_, rfl⟩

theorem toInt_eq_iff {x : ℕ} : toInt x = x ↔ x < 2 ^ 31 := by
  refine ⟨fun h => ?_, toInt_of_lt⟩
  unfold toInt at h
  have := Int.bmod_lt (x := (x : ℤ)) (m := 2 ^ 32) (by norm_num)
  omega

/-- The length that is computed is the right one exactly if the position is in the file and the sum does
    not wrap around: behind the end the difference wraps around, and at the other end the sum does. -/
theorem clipLen_eq_iff {dataSize : ℕ} (hsize : dataSize < 2 ^ 64) (hpos : fPos < 2 ^ 64)
    (hlen : len < 2 ^ 64) : clipLen dataSize fPos len = restOf dataSize fPos len ↔
      fPos ≤ dataSize ∧ fPos + len < 2 ^ 64 := by
  unfold clipLen restOf
  split_ifs <;> omega

theorem clipped_iff (hsize : n.dataSize < 2 ^ 64) (hpos : fPos < 2 ^ 64) (hlen : len < 2 ^ 64) :
    n.Clipped disk fPos len ↔ n.InFile fPos len := by
  obtain ⟨data, hread⟩ := read_raw n disk fPos len
  have hclip := clipLen_eq_iff hsize hpos hlen
  unfold Inode.Clipped Inode.InFile
  dsimp only
  rw [hread]
  unfold readRaw
  dsimp only
  rw [length_bytes]
  constructor
  · rintro ⟨hlength, -, hret⟩
    obtain ⟨hle, hsum⟩ := hclip.mp hlength
    rw [hlength, toInt_eq_iff, restOf, if_pos hle] at hret
    exact ⟨hle, hsum, hret⟩
  · rintro ⟨hle, hsum, hint⟩
    have hlength := hclip.mpr ⟨hle, hsum⟩
    rw [hlength]
    refine ⟨rfl, Nat.mod_eq_of_lt ?_, toInt_eq_iff.mpr ?_⟩
    · unfold restOf
      split_ifs
      omega
    · rwa [restOf, if_pos hle]

/-! ## Whole runs -/

/-- The operation is no read, or a read that is clipped at the end of the file. -/
def OpenFiles.ReadClipped (s : OpenFiles) : HandleOp → Prop
  | .read h len => ∀ f n, s.files[h]? = some f → s.vnodes[f.vnode]? = some n →
      n.Clipped s.disk f.fPos len.toNat
  | _ => True

/-- The operation is no read, or a read from a position in the file. -/
def OpenFiles.ReadInFile (s : OpenFiles) : HandleOp → Prop
  | .read h len => ∀ f n, s.files[h]? = some f → s.vnodes[f.vnode]? = some n →
      n.InFile f.fPos len.toNat
  | _ => True

/-- Every operation of the sequence has the property in the state in which it is made. -/
def OpenFiles.Always (P : OpenFiles → HandleOp → Prop) (s : OpenFiles) : List HandleOp → Prop
  | [] => True
  | op :: ops => P s op ∧ ∀ s', s.step op = some s' → s'.Always P ops

/-- Positions and sizes are numbers of 64 bits. -/
structure OpenFiles.Words (s : OpenFiles) : Prop where
  size : ∀ n ∈ s.vnodes, n.dataSize < 2 ^ 64
  pos : ∀ f ∈ s.files, f.fPos < 2 ^ 64

variable {s s' : OpenFiles}

theorem readClipped_iff (hs : s.Words) {op : HandleOp} : s.ReadClipped op ↔ s.ReadInFile op := by
  cases op with
  | read h len =>
    refine forall₂_congr fun f n => imp_congr_right fun hf => imp_congr_right fun hn => ?_
    exact clipped_iff (hs.size n (List.mem_of_getElem? hn)) (hs.pos f (List.mem_of_getElem? hf))
      len.toNat_lt
  | openFile v => exact Iff.rfl
  | write h bs => exact Iff.rfl
  | lseek h offset whence => exact Iff.rfl

theorem grow_lt {size pos : ℕ} (hsize : size < 2 ^ 64) (hpos : pos < 2 ^ 64) :
    grow size pos < 2 ^ 64 := by
  rw [grow_eq]
  exact max_lt hsize hpos

/-- A write leaves numbers of 64 bits. -/
theorem write_words (hsize : n.dataSize < 2 ^ 64) (hpos : fPos < 2 ^ 64) (disk : Disk) (buf : Mem)
    (len : ℕ) :
    (n.write disk fPos buf len).2.1.dataSize < 2 ^ 64 ∧ (n.write disk fPos buf len).2.2.1 < 2 ^ 64 := by
  have hmod : (fPos + len) % 2 ^ 64 < 2 ^ 64 := Nat.mod_lt _ (by norm_num)
  match n with
  | .disk (.tmpfs inode) =>
    simp only [Inode.write, tmpfsWriteRaw]
    split
    · exact ⟨hsize, hpos⟩
    · exact ⟨grow_lt hsize hmod, hmod⟩
  | .disk (.fat32 inode) =>
    simp only [Inode.write, fat32WriteRaw]
    split
    · exact ⟨hsize, hpos⟩
    · exact ⟨grow_lt hsize hmod, hmod⟩
  | .initramfs data size => exact ⟨hsize, hpos⟩

theorem read_words (n : Inode) (disk : Disk) (fPos len : ℕ) :
    (n.read disk fPos len).1.dataSize = n.dataSize ∧ (n.read disk fPos len).2.1 < 2 ^ 64 := by
  have hmod : ∀ size, (fPos + clipLen size fPos len) % 2 ^ 64 < 2 ^ 64 :=
    fun size => Nat.mod_lt _ (by norm_num)
  match n with
  | .disk (.tmpfs inode) => exact ⟨rfl, hmod _⟩
  | .disk (.fat32 inode) => exact ⟨rfl, hmod _⟩
  | .initramfs data size => exact ⟨rfl, hmod _⟩

/-- New values for one inode and one handle. -/
theorem OpenFiles.Words.set (hs : s.Words) {v h : ℕ} {n' : Inode} {f' : File} (disk' : Disk)
    (hsize : n'.dataSize < 2 ^ 64) (hpos : f'.fPos < 2 ^ 64) :
    (⟨s.vnodes.set v n', s.files.set h f', disk'⟩ : OpenFiles).Words := by
  refine ⟨fun m hm => ?_, fun g hg => ?_⟩
  · rcases List.mem_or_eq_of_mem_set hm with hm | rfl
    · exact hs.size m hm
    · exact hsize
  · rcases List.mem_or_eq_of_mem_set hg with hg | rfl
    · exact hs.pos g hg
    · exact hpos

theorem words_step (hs : s.Words) {op : HandleOp} (hstep : s.step op = some s') : s'.Words := by
  cases op with
  | openFile v =>
    rw [OpenFiles.step] at hstep
    split_ifs at hstep
    cases hstep
    refine ⟨hs.size, fun f hf => ?_⟩
    rcases List.mem_append.mp hf with hf | hf
    · exact hs.pos f hf
    · rw [List.mem_singleton.mp hf]
      norm_num
  | read h len =>
    obtain ⟨f, hf, hstep⟩ := Option.bind_eq_some_iff.mp hstep
    obtain ⟨n, hn, hstep⟩ := Option.bind_eq_some_iff.mp hstep
    cases hstep
    obtain ⟨hsize, hpos⟩ := read_words n s.disk f.fPos len.toNat
    exact hs.set s.disk (hsize ▸ hs.size n (List.mem_of_getElem? hn)) hpos
  | write h bs =>
    obtain ⟨f, hf, hstep⟩ := Option.bind_eq_some_iff.mp hstep
    obtain ⟨n, hn, hstep⟩ := Option.bind_eq_some_iff.mp hstep
    cases hstep
    obtain ⟨hsize, hpos⟩ := write_words (hs.size n (List.mem_of_getElem? hn))
      (hs.pos f (List.mem_of_getElem? hf)) s.disk (ofBytes bs) bs.length
    exact hs.set _ hsize hpos
  | lseek h offset whence =>
    obtain ⟨f, hf, hstep⟩ := Option.bind_eq_some_iff.mp hstep
    cases hstep
    refine ⟨hs.size, fun g hg => ?_⟩
    rcases List.mem_or_eq_of_mem_set hg with hg | rfl
    · exact hs.pos g hg
    · dsimp only [lseek64]
      split_ifs
      · exact offset.toUInt64.toNat_lt
      · exact hs.pos f (List.mem_of_getElem? hf)

theorem always_clipped_iff (hs : s.Words) (ops : List HandleOp) :
    s.Always OpenFiles.ReadClipped ops ↔ s.Always OpenFiles.ReadInFile ops := by
  induction ops generalizing s with
  | nil => exact Iff.rfl
  | cons op ops ih =>
    refine and_congr (readClipped_iff hs) (forall₂_congr fun s' hstep => ?_)
    exact ih (words_step hs hstep)

/-- Whatever files there are, and whatever is opened, written, read and sought before: the reads of a run
    are clipped at the end of the file exactly if each of them, when it is made, starts in the file, has
    no position plus length from `2 ^ 64` on, and is for less than `2 ^ 31` bytes that are there. -/
theorem reads_clipped_iff (vnodes : List Inode) (disk : Disk) (hsize : ∀ n ∈ vnodes, n.dataSize < 2 ^ 64)
    (ops : List HandleOp) :
    (OpenFiles.start vnodes disk).Always OpenFiles.ReadClipped ops ↔
      (OpenFiles.start vnodes disk).Always OpenFiles.ReadInFile ops :=
  always_clipped_iff ⟨hsize, fun _ hf => by cases hf⟩ ops

theorem always_cons {P : OpenFiles → HandleOp → Prop} {op : HandleOp} {ops : List HandleOp}
    (hstep : s.step op = some s') : s.Always P (op :: ops) ↔ P s op ∧ s'.Always P ops := by
  refine and_congr_right fun _ => ⟨fun h => h s' hstep, fun h s₁ hs₁ => ?_⟩
  rwa [← Option.some.inj (hstep.symm.trans hs₁)]

/-- An empty file of tmpfs. -/
def emptyFile : Inode := .disk (.tmpfs ⟨.file, [97], fun _ => 0, 0⟩)

/-- Three bytes are written, the handle is put behind the first one, and ten bytes are asked for: the read
    gives two. -/
theorem reads_clipped_three : (OpenFiles.start [emptyFile] fun _ _ => 0).Always OpenFiles.ReadClipped
    [.openFile 0, .write 0 [1, 2, 3], .lseek 0 1 seekSet, .read 0 10] := by
  refine (reads_clipped_iff [emptyFile] (fun _ _ => 0) ?_ _).mpr ?_
  · simp [emptyFile, Inode.dataSize, Internal.dataSize]
  · refine (always_cons rfl).mpr ⟨trivial, (always_cons rfl).mpr ⟨trivial, (always_cons rfl).mpr
      ⟨trivial, (always_cons rfl).mpr ⟨?_, trivial⟩⟩⟩⟩
    rintro f n hf hn
    cases hf
    cases hn
    exact ⟨by decide, by decide, by decide⟩

/-- In an empty file, one byte is read from position 10: `memcpy` is asked for `2 ^ 64 - 10` bytes. In a
    file of one byte, `2 ^ 64 - 1` bytes are read from position 1: it is asked for all of them. -/
theorem reads_not_clipped :
    ¬ (OpenFiles.start [emptyFile] fun _ _ => 0).Always OpenFiles.ReadClipped
      [.openFile 0, .lseek 0 10 seekSet, .read 0 1] ∧
    ¬ (OpenFiles.start [emptyFile] fun _ _ => 0).Always OpenFiles.ReadClipped
      [.openFile 0, .write 0 [1], .read 0 0xffffffffffffffff] := by
  constructor
  · intro h
    obtain ⟨-, h⟩ := (always_cons rfl).mp h
    obtain ⟨-, h⟩ := (always_cons rfl).mp h
    obtain ⟨hread, -⟩ := h
    have hin := (clipped_iff (by decide) (by decide) (by decide)).mp (hread ⟨0, 10⟩ emptyFile rfl rfl)
    exact absurd hin.1 (by decide)
  · intro h
    obtain ⟨-, h⟩ := (always_cons rfl).mp h
    obtain ⟨-, h⟩ := (always_cons rfl).mp h
    obtain ⟨hread, -⟩ := h
    have hin := (clipped_iff (by decide) (by decide) (by decide)).mp (hread ⟨0, 1⟩ _ rfl rfl)
    exact absurd hin.2.1 (by decide)

end RaspiKernel.Fs
