import RaspiKernel.Fs.File

/-!
# Open files refine byte arrays

The abstract file is a list of bytes and an open file is an offset into one. Any
number of handles on any number of tmpfs and FAT32 files is used in any order.

A FAT32 inode caches the block of its file. Where the file has bytes the cache
agrees with the block: a write goes through, and a read reloads the block. Behind
the end of the file they may differ, `fat32_create` leaves what was in the block.

Results:
* `step_refines`: an operation does what it does to the byte arrays.
* `run_refines`: so does every run, and behind a write of at least one byte the
  block of a FAT32 file is `inode->data`.
* `zero_write_block`: behind an empty write it may differ.
-/

namespace RaspiKernel.Fs

open Lib

/-! ## The abstract files -/

/-- The operations. A write gives the bytes of its buffer. -/
inductive FileOp where
  | openFile (vnode : ℕ)
  | read (h len : ℕ)
  | write (h : ℕ) (bs : List UInt8)

/-- Files are byte arrays and every handle has an offset. -/
structure SpecState where
  files : List (List UInt8)
  handles : List (ℕ × ℕ)

/-- Bytes `bs` written at offset `off ≤ l.length`. -/
def overwrite (l : List UInt8) (off : ℕ) (bs : List UInt8) : List UInt8 :=
  l.take off ++ bs ++ l.drop (off + bs.length)

/-- One operation on byte arrays. A handle that does not exist does nothing. -/
def SpecState.step (s : SpecState) : FileOp → Outcome × SpecState
  | .openFile v => (⟨1, []⟩, { s with handles := s.handles ++ [(v, 0)] })
  | .read h len =>
    match s.handles[h]? with
    | none => (⟨0, []⟩, s)
    | some (v, off) =>
      let bs := ((s.files.getD v []).drop off).take len
      (⟨bs.length, bs⟩, { s with handles := s.handles.set h (v, off + bs.length) })
  | .write h bs =>
    match s.handles[h]? with
    | none => (⟨0, []⟩, s)
    | some (v, off) =>
      (⟨bs.length, []⟩,
        { files := s.files.set v (overwrite (s.files.getD v []) off bs)
          handles := s.handles.set h (v, off + bs.length) })

/-- The operations that are made: on files and handles that exist, a read of less than `2 ^ 31` bytes, a
    write that ends within the first 512 bytes. -/
def SpecState.Allowed (s : SpecState) : FileOp → Prop
  | .openFile v => v < s.files.length
  | .read h len => h < s.handles.length ∧ len < 2 ^ 31
  | .write h bs => ∃ v off, s.handles[h]? = some (v, off) ∧ off + bs.length ≤ 512

/-- What a sequence of operations returns, and where it ends. -/
def SpecState.run (s : SpecState) : List FileOp → List Outcome × SpecState
  | [] => ([], s)
  | op :: ops =>
    let (out, s) := s.step op
    let (outs, s) := s.run ops
    (out :: outs, s)

/-- Every operation of the sequence is allowed when it is made. -/
def SpecState.AllAllowed (s : SpecState) : List FileOp → Prop
  | [] => True
  | op :: ops => s.Allowed op ∧ (s.step op).2.AllAllowed ops

/-! ## The concrete files -/

/-- One operation through `vfs.c`. -/
def State.step (s : State) : FileOp → Except Stop (Outcome × State)
  | .openFile v => .ok (openFile s v)
  | .read h len => vfsRead s h len
  | .write h bs => vfsWrite s h (ofBytes bs) bs.length

/-- A sequence of operations. -/
def State.run (s : State) : List FileOp → Except Stop (List Outcome × State)
  | [] => .ok ([], s)
  | op :: ops => do
    let (out, s) ← s.step op
    let (outs, s) ← s.run ops
    .ok (out :: outs, s)

/-- `inode->data`. -/
def Internal.data : Internal → Mem
  | .tmpfs inode => inode.data
  | .fat32 inode => inode.data

/-- `inode->data_size`. -/
def Internal.dataSize : Internal → ℕ
  | .tmpfs inode => inode.dataSize
  | .fat32 inode => inode.dataSize

/-- The block of a FAT32 file. -/
def Internal.block : Internal → Option ℕ
  | .tmpfs _ => none
  | .fat32 inode => some inode.absBlockNum

/-- The bytes of the file. -/
def Internal.contents (n : Internal) : List UInt8 := bytes n.data 0 n.dataSize

/-- The byte arrays and offsets that a state stands for. -/
def State.abs (s : State) : SpecState where
  files := s.vnodes.map Internal.contents
  handles := s.files.map fun f => (f.vnode, f.fPos)

/-- A file has at most 512 bytes, and those of a FAT32 file are on the disk as they are in the cache. -/
structure Internal.Ok (disk : Disk) (n : Internal) : Prop where
  dataSize_le : n.dataSize ≤ blockSize
  cached : ∀ b, n.block = some b → SameBytes (disk b) n.data n.dataSize

/-- Distinct FAT32 files occupy distinct blocks. -/
def DistinctBlocks (vnodes : List Internal) : Prop :=
  ∀ (v w : ℕ) (n m : Internal) (b : ℕ), v ≠ w → vnodes[v]? = some n → vnodes[w]? = some m →
    n.block = some b → m.block ≠ some b

/-- The invariant of the runs. -/
structure FileInv (s : State) : Prop where
  inode : ∀ n ∈ s.vnodes, n.Ok s.disk
  blocks : DistinctBlocks s.vnodes
  file : ∀ f ∈ s.files, ∃ n, s.vnodes[f.vnode]? = some n ∧ f.fPos ≤ n.dataSize

/-! ## One operation -/

/-- A load of the block does not change the bytes of the file. -/
theorem SameBytes.readblock {disk : Disk} {b : ℕ} {data : Mem} {n : ℕ}
    (h : SameBytes (disk b) data n) (hn : n ≤ blockSize) {i : ℕ} (hi : i < n) :
    readblock disk b data i = data i := by
  unfold Fs.readblock
  rw [copy_of_mem (by omega), Nat.sub_zero]
  exact h i hi

/-- The state behind an operation on the handle `h`. -/
def State.put (s : State) (h : ℕ) (f : File) (n : Internal) (disk : Disk) (fPos : ℕ) : State where
  vnodes := s.vnodes.set f.vnode n
  files := s.files.set h { f with fPos := fPos }
  disk := disk

theorem vfsRead_spec {s : State} {h len : ℕ} {f : File} {n : Internal} {bs : List UInt8}
    (hf : s.files[h]? = some f) (hn : s.vnodes[f.vnode]? = some n) (hok : n.Ok s.disk)
    (hpos : f.fPos ≤ n.dataSize) (hlen : len < 2 ^ 31)
    (hbs : (n.contents.drop f.fPos).take len = bs) :
    ∃ n', vfsRead s h len = .ok (⟨bs.length, bs⟩, s.put h f n' s.disk (f.fPos + bs.length)) ∧
      n'.Ok s.disk ∧ n'.block = n.block ∧ n'.dataSize = n.dataSize ∧ n'.contents = n.contents := by
  unfold vfsRead
  rw [hf]
  dsimp only
  rw [hn]
  cases n with
  | tmpfs inode =>
    refine ⟨.tmpfs inode, ?_, hok, rfl, rfl, rfl⟩
    have hset : s.vnodes.set f.vnode (.tmpfs inode) = s.vnodes := by
      obtain ⟨hlt, heq⟩ := List.getElem?_eq_some_iff.mp hn
      rw [← heq, List.set_getElem_self]
    have hread : tmpfsRead inode f.fPos len = .ok (f.fPos + bs.length, ⟨bs.length, bs⟩) :=
      readAt_spec hpos hok.dataSize_le (by decide) hlen hbs
    dsimp only
    rw [hread, State.put, hset]
    rfl
  | fat32 inode =>
    have hdata : ∀ i < inode.dataSize, readblock s.disk inode.absBlockNum inode.data i =
        inode.data i := fun i hi => (hok.cached _ rfl).readblock hok.dataSize_le hi
    have hbytes : bytes (readblock s.disk inode.absBlockNum inode.data) 0 inode.dataSize =
        bytes inode.data 0 inode.dataSize := by
      apply bytes_congr
      intro i hi
      rw [zero_add]
      exact hdata i hi
    refine ⟨.fat32 { inode with data := readblock s.disk inode.absBlockNum inode.data }, ?_,
      ⟨hok.dataSize_le, ?_⟩, rfl, rfl, hbytes⟩
    · have hread : readAt blockSize (readblock s.disk inode.absBlockNum inode.data) inode.dataSize
          f.fPos len = .ok (f.fPos + bs.length, ⟨bs.length, bs⟩) :=
        readAt_spec hpos hok.dataSize_le le_rfl hlen (by rw [hbytes]; exact hbs)
      dsimp only
      rw [fat32Read, hread]
      rfl
    · intro b hb i hi
      cases hb
      exact (hok.cached _ rfl i hi).trans (hdata i hi).symm

/-- An empty write does nothing. -/
theorem vfsWrite_nil {s : State} {h : ℕ} {f : File} {n : Internal}
    (hf : s.files[h]? = some f) (hn : s.vnodes[f.vnode]? = some n) (buf : Mem) :
    vfsWrite s h buf 0 = .ok (⟨0, []⟩, s.put h f n s.disk f.fPos) := by
  unfold vfsWrite
  rw [hf]
  dsimp only
  rw [hn]
  cases n with
  | tmpfs inode => rfl
  | fat32 inode => rfl

theorem vfsWrite_spec {s : State} {h : ℕ} {f : File} {n : Internal} {bs : List UInt8}
    (hf : s.files[h]? = some f) (hn : s.vnodes[f.vnode]? = some n) (hok : n.Ok s.disk)
    (hpos : f.fPos ≤ n.dataSize) (hend : f.fPos + bs.length ≤ 512) :
    ∃ n' disk', vfsWrite s h (ofBytes bs) bs.length =
        .ok (⟨bs.length, []⟩, s.put h f n' disk' (f.fPos + bs.length)) ∧
      n'.Ok disk' ∧ n'.block = n.block ∧ n'.dataSize = max n.dataSize (f.fPos + bs.length) ∧
      n'.contents = overwrite n.contents f.fPos bs ∧
      (∀ b, n.block ≠ some b → disk' b = s.disk b) ∧
      (bs ≠ [] → ∀ b, n.block = some b → SameBytes (disk' b) n'.data blockSize) := by
  by_cases hbs : bs = []
  · subst hbs
    refine ⟨n, s.disk, vfsWrite_nil hf hn _, hok, rfl, by simp [hpos], ?_, fun _ _ => rfl, by simp⟩
    simp [overwrite]
  have hsize := hok.dataSize_le
  have hcontents := bytes_copy n.data hpos bs
  have hsize' : max n.dataSize (f.fPos + bs.length) ≤ blockSize := by
    unfold blockSize at *
    omega
  unfold vfsWrite
  rw [hf]
  dsimp only
  rw [hn]
  cases n with
  | tmpfs inode =>
    refine ⟨.tmpfs { inode with
      data := copy inode.data f.fPos (ofBytes bs) bs.length
      dataSize := max inode.dataSize (f.fPos + bs.length) }, s.disk, ?_, ⟨hsize', ?_⟩, rfl, rfl,
      hcontents, fun _ _ => rfl, ?_⟩
    · dsimp only
      rw [tmpfsWrite_spec hbs hend]
      rfl
    · intro b hb
      cases hb
    · intro _ b hb
      cases hb
  | fat32 inode =>
    have hsame := writeblock_same s.disk inode.absBlockNum
      (copy inode.data f.fPos (ofBytes bs) bs.length)
    refine ⟨.fat32 { inode with
      data := copy inode.data f.fPos (ofBytes bs) bs.length
      dataSize := max inode.dataSize (f.fPos + bs.length) },
      writeblock s.disk inode.absBlockNum (copy inode.data f.fPos (ofBytes bs) bs.length), ?_,
      ⟨hsize', ?_⟩, rfl, rfl, hcontents, ?_, ?_⟩
    · dsimp only
      rw [fat32Write_spec hbs hend]
      rfl
    · intro b hb i hi
      cases hb
      exact hsame i (lt_of_lt_of_le hi hsize')
    · intro b hb
      exact writeblock_of_ne s.disk (fun heq => hb (congrArg some heq.symm)) _
    · intro _ b hb
      cases hb
      exact hsame

/-! ## The invariant -/

theorem getElem?_set_eq {α : Type} {l : List α} {i j : ℕ} {a b : α} (hi : l[i]? = some b) :
    (l.set i a)[j]? = if j = i then some a else l[j]? := by
  obtain ⟨hlt, -⟩ := List.getElem?_eq_some_iff.mp hi
  rw [List.getElem?_set]
  by_cases h : j = i
  · subst h
    rw [if_pos rfl, if_pos rfl, if_pos hlt]
  · rw [if_neg (Ne.symm h), if_neg h]

/-- An operation through the handle `h` that lets a file only grow, keeps its block, and writes to no
    other block. -/
theorem FileInv.put {s : State} (hinv : FileInv s) {h : ℕ} {f : File} {n n' : Internal} {disk : Disk}
    {fPos : ℕ} (hn : s.vnodes[f.vnode]? = some n) (hok : n'.Ok disk) (hblock : n'.block = n.block)
    (hsize : n.dataSize ≤ n'.dataSize) (hpos : fPos ≤ n'.dataSize)
    (hdisk : ∀ b, n.block ≠ some b → disk b = s.disk b) : FileInv (s.put h f n' disk fPos) := by
  have hget : ∀ v, (s.put h f n' disk fPos).vnodes[v]? =
      if v = f.vnode then some n' else s.vnodes[v]? := fun v => getElem?_set_eq hn
  refine ⟨?_, ?_, ?_⟩
  · intro m hm
    obtain ⟨v, hv⟩ := List.getElem?_of_mem hm
    rw [hget] at hv
    split at hv
    · cases hv
      exact hok
    next hne =>
      obtain ⟨hmsize, hcached⟩ := hinv.inode m (List.mem_of_getElem? hv)
      refine ⟨hmsize, ?_⟩
      intro b hb
      show SameBytes (disk b) _ _
      -- another file, so another block
      rw [hdisk b (hinv.blocks v f.vnode m n b hne hv hn hb)]
      exact hcached b hb
  · intro v w m m' b hvw hv hw hb
    rw [hget] at hv hw
    split at hv
    next hveq =>
      cases hv
      rw [hblock] at hb
      rw [if_neg (fun hweq => hvw (hveq.trans hweq.symm))] at hw
      exact hinv.blocks f.vnode w n m' b (fun heq => hvw (hveq.trans heq)) hn hw hb
    next hvne =>
      split at hw
      · cases hw
        rw [hblock]
        exact hinv.blocks v f.vnode m n b hvne hv hn hb
      · exact hinv.blocks v w m m' b hvw hv hw hb
  · intro g hg
    have hold : ∀ g ∈ s.files, ∃ m, (s.put h f n' disk fPos).vnodes[g.vnode]? = some m ∧
        g.fPos ≤ m.dataSize := by
      intro g hg
      obtain ⟨m, hm, hle⟩ := hinv.file g hg
      rw [hget]
      split
      next heq =>
        rw [heq, hn, Option.some.injEq] at hm
        exact ⟨n', rfl, by rw [← hm] at hle; omega⟩
      · exact ⟨m, hm, hle⟩
    rcases List.mem_or_eq_of_mem_set hg with hg | rfl
    · exact hold g hg
    · exact ⟨n', by rw [hget, if_pos rfl], hpos⟩

/-- The byte arrays behind an operation through the handle `h`. -/
theorem abs_put (s : State) (h : ℕ) (f : File) (n : Internal) (disk : Disk) (fPos : ℕ) :
    (s.put h f n disk fPos).abs =
      { files := s.abs.files.set f.vnode n.contents
        handles := s.abs.handles.set h (f.vnode, fPos) } := by
  unfold State.abs State.put
  simp only [List.map_set]

/-- If the handle `h` is on a FAT32 file, the block of the file is `inode->data`. -/
def State.Written (s : State) (h : ℕ) : Prop :=
  ∃ f n, s.files[h]? = some f ∧ s.vnodes[f.vnode]? = some n ∧
    ∀ b, n.block = some b → SameBytes (s.disk b) n.data blockSize

/-- What an allowed operation does. -/
structure StepSpec (s : State) (op : FileOp) (s' : State) : Prop where
  result : s.step op = .ok ((s.abs.step op).1, s')
  abs_eq : s'.abs = (s.abs.step op).2
  inv : FileInv s'
  written : ∀ h bs, op = .write h bs → bs ≠ [] → s'.Written h

/-- The file that an existing handle refers to. -/
theorem FileInv.handle {s : State} (hinv : FileInv s) {h : ℕ} {f : File}
    (hf : s.files[h]? = some f) : ∃ n, s.vnodes[f.vnode]? = some n ∧ n.Ok s.disk ∧
      f.fPos ≤ n.dataSize ∧ s.abs.files.getD f.vnode [] = n.contents ∧
      s.abs.handles[h]? = some (f.vnode, f.fPos) := by
  obtain ⟨n, hn, hle⟩ := hinv.file f (List.mem_of_getElem? hf)
  refine ⟨n, hn, hinv.inode n (List.mem_of_getElem? hn), hle, ?_, ?_⟩
  · simp [State.abs, hn]
  · simp [State.abs, hf]

theorem step_refines {s : State} (hinv : FileInv s) {op : FileOp} (hop : s.abs.Allowed op) :
    ∃ s', StepSpec s op s' := by
  cases op with
  | openFile v =>
    have hv : v < s.vnodes.length := by simpa [SpecState.Allowed, State.abs] using hop
    refine ⟨(openFile s v).2, rfl, ?_, ⟨hinv.inode, hinv.blocks, ?_⟩, ?_⟩
    · simp [State.abs, SpecState.step, openFile]
    · intro f hf
      rcases List.mem_append.mp hf with hf | hf
      · exact hinv.file f hf
      · rw [List.mem_singleton] at hf
        subst hf
        exact ⟨s.vnodes[v], List.getElem?_eq_getElem hv, Nat.zero_le _⟩
    · intro h bs heq
      cases heq
  | read h len =>
    obtain ⟨hlt, hlen⟩ := hop
    have hlt : h < s.files.length := by simpa [State.abs] using hlt
    obtain ⟨f, hf⟩ : ∃ f, s.files[h]? = some f := ⟨_, List.getElem?_eq_getElem hlt⟩
    obtain ⟨n, hn, hok, hpos, hfile, hhandle⟩ := hinv.handle hf
    obtain ⟨bs, hbs⟩ : ∃ bs, (n.contents.drop f.fPos).take len = bs := ⟨_, rfl⟩
    obtain ⟨n', hread, hok', hblock, hsize, hcont⟩ := vfsRead_spec hf hn hok hpos hlen hbs
    have hend : f.fPos + bs.length ≤ n'.dataSize := by
      rw [← hbs, hsize, List.length_take, List.length_drop, Internal.contents, length_bytes]
      omega
    have hstep : s.abs.step (.read h len) = (⟨bs.length, bs⟩,
        { s.abs with handles := s.abs.handles.set h (f.vnode, f.fPos + bs.length) }) := by
      rw [SpecState.step, hhandle]
      dsimp only
      rw [hfile, hbs]
    refine ⟨s.put h f n' s.disk (f.fPos + bs.length), by rw [hstep]; exact hread, ?_,
      hinv.put hn hok' hblock hsize.ge hend (fun _ _ => rfl), ?_⟩
    · have hself : s.abs.files.set f.vnode n.contents = s.abs.files := by
        obtain ⟨hlt, heq⟩ := List.getElem?_eq_some_iff.mp hn
        rw [State.abs, ← List.map_set, ← heq, List.set_getElem_self]
      rw [abs_put, hcont, hstep, hself]
    · intro h bs heq
      cases heq
  | write h bs =>
    obtain ⟨v, off, hvo, hend⟩ := hop
    obtain ⟨f, hf, hvoff⟩ : ∃ f, s.files[h]? = some f ∧ (f.vnode, f.fPos) = (v, off) := by
      simpa [State.abs] using hvo
    obtain ⟨rfl, rfl⟩ := Prod.mk.inj hvoff
    obtain ⟨n, hn, hok, hpos, hfile, hhandle⟩ := hinv.handle hf
    obtain ⟨n', disk', hwrite, hok', hblock, hsize, hcont, hdisk, hsame⟩ :=
      vfsWrite_spec hf hn hok hpos hend
    refine ⟨s.put h f n' disk' (f.fPos + bs.length), ?_, ?_,
      hinv.put hn hok' hblock (by omega) (by omega) hdisk, ?_⟩
    · show vfsWrite s h _ _ = _
      rw [hwrite, SpecState.step, hhandle]
    · rw [abs_put, hcont, SpecState.step, hhandle]
      dsimp only
      rw [hfile]
    · intro h' bs' heq hne
      cases heq
      refine ⟨{ f with fPos := f.fPos + bs.length }, n', ?_, ?_, ?_⟩
      · rw [State.put, getElem?_set_eq hf, if_pos rfl]
      · rw [State.put, getElem?_set_eq hn, if_pos rfl]
      · rw [hblock]
        exact hsame hne

/-! ## Whole runs -/

theorem run_inv {s : State} (hinv : FileInv s) {ops : List FileOp} (hops : s.abs.AllAllowed ops) :
    ∃ s', s.run ops = .ok ((s.abs.run ops).1, s') ∧ s'.abs = (s.abs.run ops).2 ∧ FileInv s' := by
  induction ops generalizing s with
  | nil => exact ⟨s, rfl, rfl, hinv⟩
  | cons op ops ih =>
    obtain ⟨hop, hops⟩ := hops
    obtain ⟨s₁, hs₁⟩ := step_refines hinv hop
    obtain ⟨s', hrun, habs, hinv'⟩ := ih hs₁.inv (by rw [hs₁.abs_eq]; exact hops)
    rw [hs₁.abs_eq] at hrun habs
    refine ⟨s', ?_, habs, hinv'⟩
    rw [State.run, hs₁.result]
    show (s₁.run ops >>= _) = _
    rw [hrun]
    rfl

/-- The operations before some other ones are allowed, and so are these behind them. -/
theorem AllAllowed.split {s : SpecState} {pre post : List FileOp}
    (h : s.AllAllowed (pre ++ post)) :
    s.AllAllowed pre ∧ (s.run pre).2.AllAllowed post := by
  induction pre generalizing s with
  | nil => exact ⟨trivial, h⟩
  | cons op pre ih =>
    obtain ⟨hop, h⟩ := h
    obtain ⟨hpre, hpost⟩ := ih h
    exact ⟨⟨hop, hpre⟩, hpost⟩

theorem run_snoc {s s₁ s' : State} {ops : List FileOp} {op : FileOp} {outs : List Outcome}
    {out : Outcome} (hops : s.run ops = .ok (outs, s₁)) (hop : s₁.step op = .ok (out, s')) :
    s.run (ops ++ [op]) = .ok (outs ++ [out], s') := by
  induction ops generalizing s outs with
  | nil =>
    cases hops
    rw [List.nil_append, State.run, hop]
    rfl
  | cons a ops ih =>
    obtain ⟨⟨o, s₂⟩, hstep, hrest⟩ := bind_eq_ok.mp hops
    obtain ⟨⟨os, s₃⟩, hrun, hres⟩ := bind_eq_ok.mp hrest
    cases hres
    rw [List.cons_append, State.run, hstep]
    show (s₂.run (ops ++ [op]) >>= _) = _
    rw [ih hrun]
    rfl

/-- Where the runs start: no handles yet, files of at most 512 bytes, distinct blocks, and the bytes of
    the FAT32 files in the cache as on the disk, as mounting and creating leave them. -/
structure Initial (s : State) : Prop where
  files_eq : s.files = []
  inode : ∀ n ∈ s.vnodes, n.Ok s.disk
  blocks : DistinctBlocks s.vnodes

/-- Every sequence of operations returns the bytes and lengths of the byte arrays and leaves their
    contents, sizes and offsets. Behind each write of at least one byte to a FAT32 file, the block of the
    file is `inode->data`. -/
theorem run_refines {s : State} (hs : Initial s) (ops : List FileOp)
    (hops : s.abs.AllAllowed ops) :
    (∃ s', s.run ops = .ok ((s.abs.run ops).1, s') ∧ s'.abs = (s.abs.run ops).2) ∧
      ∀ pre post h bs, ops = pre ++ .write h bs :: post → bs ≠ [] →
        ∃ outs s₁, s.run (pre ++ [.write h bs]) = .ok (outs, s₁) ∧ s₁.Written h := by
  have hinv : FileInv s := ⟨hs.inode, hs.blocks, by simp [hs.files_eq]⟩
  obtain ⟨s', hrun, habs, -⟩ := run_inv hinv hops
  refine ⟨⟨s', hrun, habs⟩, ?_⟩
  intro pre post h bs heq hne
  subst heq
  obtain ⟨hpre, hop, -⟩ := AllAllowed.split hops
  obtain ⟨s₁, hrun₁, habs₁, hinv₁⟩ := run_inv hinv hpre
  rw [← habs₁] at hop
  obtain ⟨s₂, hs₂⟩ := step_refines hinv₁ hop
  exact ⟨_, s₂, run_snoc hrun₁ hs₂.result, hs₂.written h bs rfl hne⟩

/-- A tmpfs file and a FAT32 file, both empty; the block of the latter still has its old bytes. -/
def twoFiles : State where
  vnodes := [.tmpfs ⟨.file, [65], fun _ => 7, 0⟩, .fat32 ⟨.file, [66], fun _ => 0, 0, 7, 5⟩]
  files := []
  disk := fun _ _ => 1

theorem twoFiles_initial : Initial twoFiles := by
  refine ⟨rfl, ?_, ?_⟩
  · intro n hn
    simp only [twoFiles, List.mem_cons, List.not_mem_nil, or_false] at hn
    rcases hn with rfl | rfl
    · exact ⟨by decide, by intro b hb; cases hb⟩
    · exact ⟨by decide, by intro b hb i hi; exact absurd hi (Nat.not_lt_zero i)⟩
  · -- only the second one has a block
    have hone : ∀ (v : ℕ) (n : Internal) (b : ℕ), twoFiles.vnodes[v]? = some n →
        n.block = some b → v = 1 := by
      intro v n b hv hb
      match v with
      | 0 =>
        cases hv
        cases hb
      | 1 => rfl
      | v + 2 => cases hv
    intro v w n m b hvw hv hw hb hb'
    exact hvw ((hone v n b hv hb).trans (hone w m b hw hb').symm)

/-- Three handles on the two files, two of them on one. -/
theorem run_refines_twoFiles :
    ∃ s', twoFiles.run [.openFile 1, .write 0 [1, 2, 3], .openFile 1, .read 1 2, .openFile 0,
        .write 2 [9], .read 1 5] =
      .ok ([⟨1, []⟩, ⟨3, []⟩, ⟨1, []⟩, ⟨2, [1, 2]⟩, ⟨1, []⟩, ⟨1, []⟩, ⟨1, [3]⟩], s') := by
  have hallowed : twoFiles.abs.AllAllowed [.openFile 1, .write 0 [1, 2, 3], .openFile 1, .read 1 2,
      .openFile 0, .write 2 [9], .read 1 5] :=
    ⟨Nat.one_lt_two, ⟨1, 0, rfl, by decide⟩, Nat.one_lt_two, ⟨by decide, by decide⟩,
      Nat.two_pos, ⟨0, 0, rfl, by decide⟩, ⟨by decide, by decide⟩, trivial⟩
  obtain ⟨⟨s', hs', -⟩, -⟩ := run_refines twoFiles_initial _ hallowed
  exact ⟨s', hs'⟩

/-- An empty write to a file that `fat32_create` has just made leaves the old bytes in its block, which
    are not those of `inode->data`. -/
theorem zero_write_block : Initial twoFiles ∧
    twoFiles.abs.AllAllowed [.openFile 1, .write 0 []] ∧
    ∃ outs s', twoFiles.run [.openFile 1, .write 0 []] = .ok (outs, s') ∧ ¬ s'.Written 0 := by
  refine ⟨twoFiles_initial, ⟨Nat.one_lt_two, ⟨1, 0, rfl, by decide⟩, trivial⟩, _, _, rfl, ?_⟩
  rintro ⟨f, n, hf, hn, hsame⟩
  cases hf
  cases hn
  exact absurd (hsame 5 rfl 0 (by decide)) (by decide)

end RaspiKernel.Fs
