import RaspiKernel.Fs.FileRefine

/-!
# Writes and the buffer of the inode

`tmpfs_write` and `fat32_write` copy to `inode->data + f_pos` without a look at the
size of the buffer, 4096 bytes or one block. A handle advances with every read and
write, so that the place of a write depends on all calls before it.

Here the two functions are modelled once more without the stop at the end of the
buffer: what is behind it is memory of others.

Results:
* `vfsWrite_eq`: up to the stop the model of `RaspiKernel.Fs.File` is the same.
* `inBuffer_iff`: when a write stays in the buffer.
* `writes_inBuffer_iff`: the runs whose writes all do.
-/

namespace RaspiKernel.Fs

open Lib

/-! ## The model -/

/-- The number of bytes that `kmalloc` was asked for, for `inode->data`. -/
def Internal.capacity : Internal → ℕ
  | .tmpfs _ => defaultInodeSize
  | .fat32 _ => blockSize

/-- `tmpfs_write` (lines 75–92): the inode, `f_pos` and the returned `int`. -/
def tmpfsWriteRaw (inode : TmpfsInode) (fPos : ℕ) (buf : Mem) (len : ℕ) : TmpfsInode × ℕ × ℤ :=
  if len = 0 then (inode, fPos, 0)
  else
    let data := copy inode.data fPos buf len
    let fPos := (fPos + len) % 2 ^ 64
    ({ inode with data := data, dataSize := grow inode.dataSize fPos }, fPos, toInt len)

/-- `fat32_write` (lines 109–132). -/
def fat32WriteRaw (disk : Disk) (inode : Fat32Inode) (fPos : ℕ) (buf : Mem) (len : ℕ) :
    Disk × Fat32Inode × ℕ × ℤ :=
  if len = 0 then (disk, inode, fPos, 0)
  else
    let data := copy inode.data fPos buf len
    let fPos := (fPos + len) % 2 ^ 64
    (writeblock disk inode.absBlockNum data,
      { inode with data := data, dataSize := grow inode.dataSize fPos }, fPos, toInt len)

/-- `file->f_ops->write(file, buf, len)`: the inode and the returned `int`. -/
def Internal.writeRaw (n : Internal) (disk : Disk) (fPos : ℕ) (buf : Mem) (len : ℕ) : Internal × ℤ :=
  match n with
  | .tmpfs inode =>
    let (inode, _, ret) := tmpfsWriteRaw inode fPos buf len
    (.tmpfs inode, ret)
  | .fat32 inode =>
    let (_, inode, _, ret) := fat32WriteRaw disk inode fPos buf len
    (.fat32 inode, ret)

variable {s s' : State} {n : Internal} {disk : Disk} {fPos len : ℕ} {buf : Mem}

/-- A write fits in the buffer. -/
def Internal.Fits (n : Internal) (fPos len : ℕ) : Prop := len = 0 ∨ fPos + len ≤ n.capacity

/-- A write that fits does what the model without the stop does, and all others stop. -/
theorem tmpfsWrite_eq (inode : TmpfsInode) : tmpfsWrite inode fPos buf len =
    if len = 0 ∨ fPos + len ≤ defaultInodeSize then .ok (tmpfsWriteRaw inode fPos buf len)
    else .error .overrun := by
  unfold tmpfsWrite tmpfsWriteRaw writeAt
  by_cases hlen : len = 0
  · rw [if_pos hlen, if_pos hlen, if_pos (.inl hlen)]
  rw [if_neg hlen, if_neg hlen]
  by_cases hfit : fPos + len ≤ defaultInodeSize
  · rw [if_neg (by omega), if_pos (.inr hfit)]
    rfl
  · rw [if_pos (by omega), if_neg (by omega)]
    rfl

theorem fat32Write_eq (inode : Fat32Inode) : fat32Write disk inode fPos buf len =
    if len = 0 ∨ fPos + len ≤ blockSize then .ok (fat32WriteRaw disk inode fPos buf len)
    else .error .overrun := by
  unfold fat32Write fat32WriteRaw writeAt
  by_cases hlen : len = 0
  · rw [if_pos hlen, if_pos hlen, if_pos (.inl hlen)]
  rw [if_neg hlen, if_neg hlen]
  by_cases hfit : fPos + len ≤ blockSize
  · rw [if_neg (by omega), if_pos (.inr hfit)]
    rfl
  · rw [if_pos (by omega), if_neg (by omega)]
    rfl

/-! ## One write -/

/-- The write changes no byte behind the buffer, whatever is written, and returns the number of bytes that
    it has copied. -/
def Internal.InBuffer (n : Internal) (disk : Disk) (fPos len : ℕ) : Prop :=
  ∀ buf, (∀ x, n.capacity ≤ x → (n.writeRaw disk fPos buf len).1.data x = n.data x) ∧
    (n.writeRaw disk fPos buf len).2 = len

theorem writeRaw_data : (n.writeRaw disk fPos buf len).1.data = copy n.data fPos buf len := by
  have hnil : ∀ m : Mem, copy m fPos buf 0 = m := by
    intro m
    funext x
    exact copy_of_not_mem (by omega)
  cases n with
  | tmpfs inode =>
    simp only [Internal.writeRaw, tmpfsWriteRaw, Internal.data]
    split
    · next hlen => rw [hlen, hnil]
    · rfl
  | fat32 inode =>
    simp only [Internal.writeRaw, fat32WriteRaw, Internal.data]
    split
    · next hlen => rw [hlen, hnil]
    · rfl

theorem writeRaw_ret : (n.writeRaw disk fPos buf len).2 = toInt len := by
  by_cases hlen : len = 0
  · rw [hlen, toInt_of_lt (Nat.two_pow_pos 31)]
    cases n <;> rfl
  · cases n with
    | tmpfs inode => simp only [Internal.writeRaw, tmpfsWriteRaw, if_neg hlen]
    | fat32 inode => simp only [Internal.writeRaw, fat32WriteRaw, if_neg hlen]

theorem capacity_le (n : Internal) : n.capacity ≤ defaultInodeSize := by
  cases n with
  | tmpfs inode => exact le_rfl
  | fat32 inode =>
    change blockSize ≤ defaultInodeSize
    decide

/-- A write stays in the buffer exactly if it is empty or ends in it. -/
theorem inBuffer_iff : n.InBuffer disk fPos len ↔ n.Fits fPos len := by
  constructor
  · intro h
    by_contra hfits
    obtain ⟨hlen, hend⟩ := not_or.mp hfits
    -- the last byte that is copied is behind the buffer, and a buffer with another byte there changes it
    have hlast := (h fun _ => n.data (fPos + len - 1) + 1).1 (fPos + len - 1) (by omega)
    rw [writeRaw_data, copy_of_mem (by omega)] at hlast
    exact absurd hlast (by simp)
  · intro h buf
    have hcap := capacity_le n
    unfold defaultInodeSize at hcap
    refine ⟨fun x hx => ?_, ?_⟩
    · rw [writeRaw_data]
      exact copy_of_not_mem (by unfold Internal.Fits at h; omega)
    · rw [writeRaw_ret, toInt_of_lt (by unfold Internal.Fits at h; omega)]

/-- The model of the open files does the write if it fits, and stops otherwise. -/
theorem vfsWrite_eq {h : ℕ} {f : File} (hf : s.files[h]? = some f) (hn : s.vnodes[f.vnode]? = some n)
    (buf : Mem) (len : ℕ) :
    (n.Fits f.fPos len → ∃ disk fPos, vfsWrite s h buf len =
      .ok (⟨(n.writeRaw s.disk f.fPos buf len).2, []⟩,
        s.put h f (n.writeRaw s.disk f.fPos buf len).1 disk fPos)) ∧
    (¬ n.Fits f.fPos len → vfsWrite s h buf len = .error .overrun) := by
  unfold vfsWrite Internal.Fits
  rw [hf]
  dsimp only
  rw [hn]
  cases n with
  | tmpfs inode =>
    dsimp only [Internal.capacity]
    rw [tmpfsWrite_eq]
    exact ⟨fun h => ⟨s.disk, _, by rw [if_pos h]; rfl⟩, fun h => by rw [if_neg h]; rfl⟩
  | fat32 inode =>
    dsimp only [Internal.capacity]
    rw [fat32Write_eq]
    exact ⟨fun h => ⟨_, _, by rw [if_pos h]; rfl⟩, fun h => by rw [if_neg h]; rfl⟩

/-! ## Whole runs -/

/-- Every file fits in its buffer. -/
def State.SizesOk (s : State) : Prop := ∀ n ∈ s.vnodes, n.dataSize ≤ n.capacity

/-- The operation is no write, or the write stays in the buffer of its inode. -/
def State.WriteInBuffer (s : State) : FileOp → Prop
  | .write h bs => ∀ f n, s.files[h]? = some f → s.vnodes[f.vnode]? = some n →
      n.InBuffer s.disk f.fPos bs.length
  | _ => True

/-- The operation is no write, or the position of the handle and the length leave it in the buffer. -/
def State.WriteFits (s : State) : FileOp → Prop
  | .write h bs => ∀ f n, s.files[h]? = some f → s.vnodes[f.vnode]? = some n →
      n.Fits f.fPos bs.length
  | _ => True

/-- In every state of the run the files fit, and every write stays in the buffer. -/
def State.AllInBuffer (s : State) : List FileOp → Prop
  | [] => s.SizesOk
  | op :: ops => s.SizesOk ∧ s.WriteInBuffer op ∧
      ∀ out s', s.step op = .ok (out, s') → s'.AllInBuffer ops

/-- Every write of the run fits when it is made. -/
def State.AllFit (s : State) : List FileOp → Prop
  | [] => True
  | op :: ops => s.WriteFits op ∧ ∀ out s', s.step op = .ok (out, s') → s'.AllFit ops

theorem writeInBuffer_iff {op : FileOp} : s.WriteInBuffer op ↔ s.WriteFits op := by
  cases op with
  | openFile v => exact Iff.rfl
  | read h len => exact Iff.rfl
  | write h bs => simp only [State.WriteInBuffer, State.WriteFits, inBuffer_iff]

/-- A write that fits leaves a file that fits. -/
theorem writeRaw_size (hsize : n.dataSize ≤ n.capacity) (hfits : n.Fits fPos len) :
    (n.writeRaw disk fPos buf len).1.dataSize ≤ (n.writeRaw disk fPos buf len).1.capacity := by
  cases n with
  | tmpfs inode =>
    simp only [Internal.writeRaw, tmpfsWriteRaw]
    split
    · exact hsize
    · next hlen =>
      have hend := hfits.resolve_left hlen
      simp only [Internal.dataSize, Internal.capacity] at hsize hend ⊢
      rw [grow_eq]
      exact max_le hsize ((Nat.mod_le _ _).trans hend)
  | fat32 inode =>
    simp only [Internal.writeRaw, fat32WriteRaw]
    split
    · exact hsize
    · next hlen =>
      have hend := hfits.resolve_left hlen
      simp only [Internal.dataSize, Internal.capacity] at hsize hend ⊢
      rw [grow_eq]
      exact max_le hsize ((Nat.mod_le _ _).trans hend)

/-- An operation on one inode. -/
theorem State.SizesOk.put (hs : s.SizesOk) {h fPos : ℕ} {f : File} {n' : Internal} {disk : Disk}
    (hsize : n'.dataSize ≤ n'.capacity) : (s.put h f n' disk fPos).SizesOk := by
  intro m hm
  rcases List.mem_or_eq_of_mem_set hm with hm | rfl
  · exact hs m hm
  · exact hsize

/-- A read changes no size. -/
theorem sizesOk_vfsRead (hs : s.SizesOk) {h : ℕ} {out : Outcome}
    (hread : vfsRead s h len = .ok (out, s')) : s'.SizesOk := by
  unfold vfsRead at hread
  split at hread
  · cases hread
  · next f hf =>
    split at hread
    · cases hread
    · next inode hn =>
      obtain ⟨⟨fPos, out'⟩, -, hret⟩ := bind_eq_ok.mp hread
      cases hret
      exact hs
    · next inode hn =>
      obtain ⟨⟨inode', fPos, out'⟩, hfat, hret⟩ := bind_eq_ok.mp hread
      cases hret
      obtain ⟨⟨fPos', out''⟩, -, hinode⟩ := bind_eq_ok.mp hfat
      cases hinode
      have hsize := hs _ (List.mem_of_getElem? hn)
      intro m hm
      rcases List.mem_or_eq_of_mem_set hm with hm | rfl
      · exact hs m hm
      · exact hsize

/-- One operation whose write fits. -/
theorem sizesOk_step (hs : s.SizesOk) {op : FileOp} (hfits : s.WriteFits op) {out : Outcome}
    (hstep : s.step op = .ok (out, s')) : s'.SizesOk := by
  cases op with
  | openFile v =>
    cases hstep
    exact hs
  | read h len => exact sizesOk_vfsRead hs hstep
  | write h bs =>
    change vfsWrite s h (ofBytes bs) bs.length = _ at hstep
    cases hf : s.files[h]? with
    | none =>
      rw [vfsWrite, hf] at hstep
      cases hstep
    | some f =>
      cases hn : s.vnodes[f.vnode]? with
      | none =>
        rw [vfsWrite, hf] at hstep
        dsimp only at hstep
        rw [hn] at hstep
        cases hstep
      | some n =>
        have hfit := hfits f n hf hn
        obtain ⟨disk, fPos, hwrite⟩ := (vfsWrite_eq hf hn (ofBytes bs) bs.length).1 hfit
        rw [hwrite] at hstep
        cases hstep
        exact hs.put (writeRaw_size (hs n (List.mem_of_getElem? hn)) hfit)

/-- In a run all writes stay in the buffers and all files fit exactly if the files fit at its start, and
    every write is empty or ends in the buffer, from the position that its handle has when it is made. -/
theorem writes_inBuffer_iff (s : State) (ops : List FileOp) :
    s.AllInBuffer ops ↔ s.SizesOk ∧ s.AllFit ops := by
  induction ops generalizing s with
  | nil => exact (and_iff_left trivial).symm
  | cons op ops ih =>
    constructor
    · rintro ⟨hs, hin, hrest⟩
      refine ⟨hs, writeInBuffer_iff.mp hin, fun out s' hstep => ?_⟩
      exact ((ih s').mp (hrest out s' hstep)).2
    · rintro ⟨hs, hfits, hrest⟩
      refine ⟨hs, writeInBuffer_iff.mpr hfits, fun out s' hstep => ?_⟩
      exact (ih s').mpr ⟨sizesOk_step hs hfits hstep, hrest out s' hstep⟩

/-- The FAT32 file of `twoFiles`, opened. -/
def openedFile : State := (openFile twoFiles 1).2

/-- Two writes of 512 bytes and of one byte, through one handle on a FAT32 file: the second is behind the
    buffer. A file of 513 bytes on the card does not fit before any write. -/
theorem writes_leave_buffer :
    ¬ twoFiles.AllInBuffer [.openFile 1, .write 0 (List.replicate 512 1), .write 0 [1]] ∧
    ¬ (⟨[.fat32 ⟨.file, [66], fun _ => 0, 513, 7, 5⟩], [], fun _ _ => 0⟩ : State).AllInBuffer [] := by
  constructor
  · generalize hbs : List.replicate 512 (1 : UInt8) = bs
    have hlen : bs.length = 512 := by rw [← hbs, List.length_replicate]
    rintro ⟨-, -, hopen⟩
    obtain ⟨-, -, hfirst⟩ := hopen _ openedFile rfl
    have hok : (Internal.fat32 ⟨.file, [66], fun _ => 0, 0, 7, 5⟩).Ok openedFile.disk :=
      twoFiles_initial.inode _ (by simp [twoFiles])
    obtain ⟨n', disk', hwrite, -, hblock, -⟩ := vfsWrite_spec (s := openedFile) (h := 0) rfl rfl hok
      (Nat.zero_le _) (show 0 + bs.length ≤ 512 by omega)
    obtain ⟨-, hsecond, -⟩ := hfirst _ _ hwrite
    have hfits := inBuffer_iff.mp (hsecond _ n' rfl rfl)
    cases n' with
    | tmpfs inode => cases hblock
    | fat32 inode =>
      have hend : 0 + bs.length + 1 ≤ blockSize := hfits.resolve_left (by decide)
      rw [hlen] at hend
      exact absurd hend (by decide)
  · intro h
    exact absurd (h _ List.mem_cons_self) (by decide)

end RaspiKernel.Fs
