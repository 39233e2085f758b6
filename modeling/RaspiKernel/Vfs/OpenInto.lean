import RaspiKernel.Vfs.Fd

/-!
# A create that is refused

`vfs_open` with what it writes through `target`, and `sys_open` with the register
it returns in. `vfs_open` does not look at what `create` returns: it allocates a
`struct file`, and calls the operations of `target_node`, which a refused create
has not set.

* A call comes with the address that `kmalloc` returns.
* The state is that at the time the call returns or stops.

Results:
* `vfsOpen_eq`, `sysOpen_eq`: the models without `*target` do the same.
* `createRefuses_iff`: when the `create` of the file systems returns 0.
* `open_refused_iff`: no refused create is handled.
-/

namespace RaspiKernel.Vfs

open Lib

/-! ## The model -/

/-- `struct file`, as `open` and `vfs_open` set it. -/
structure File where
  vnode : ℕ
  fPos : ℕ
  flags : UInt32
  deriving DecidableEq, Repr

/-- The vnodes with the `data_size` of their inodes, the `struct file`s, and the pointer in the
    caller's `*target`. -/
structure OpenState where
  vfs : State
  dataSize : ℕ → ℕ
  file : ℕ → Option File
  target : Option ℕ

/-- `node->v_ops->create(node, &target_node, name)`. The inode of a new vnode is zeroed. -/
def createInto (s : OpenState) (dir : ℕ) (name : Str) : Except Stop (ℤ × Option ℕ × OpenState) := do
  let (ret, target, vfs) ← create s.vfs dir name
  match target with
  | some v => .ok (ret, some v, { s with vfs := vfs, dataSize := Function.update s.dataSize v 0 })
  | none => .ok (ret, none, { s with vfs := vfs })

/-- `(*target)->vnode = node; (*target)->f_pos = 0;` and the flags, in the `struct file` that `*target`
    points to. -/
def OpenState.attach (s : OpenState) (addr node : ℕ) (flags : UInt32) : OpenState :=
  { s with file := Function.update s.file addr (some ⟨node, 0, flags⟩) }

/-- `*target = (struct file *) kmalloc(sizeof(struct file));` -/
def OpenState.kmallocFile (s : OpenState) (addr : ℕ) : OpenState := { s with target := some addr }

/-- `vfs_open` (lines 119–170). -/
def vfsOpenInto (s : OpenState) (pathname : Str) (flags : UInt32) (addr : ℕ) :
    Except Stop ℕ × OpenState :=
  match vfsLookup s.vfs pathname with
  | some node => (.ok 1, (s.kmallocFile addr).attach addr node flags)
  | none =>
    if flags &&& oCreat ≠ 0 then
      match vfsLookup s.vfs (dirName pathname) with
      | none => (.ok 0, s)
      | some node =>
        match createInto s node (baseName pathname) with
        | .error e => (.error e, s)
        | .ok (_, targetNode, s) =>
          let s := s.kmallocFile addr
          match targetNode with
          | none => (.error .wildTarget, s)
          | some v => (.ok 1, s.attach addr v flags)
    else (.ok 0, s)

variable {σ σ' : State} {s : OpenState} {d addr : ℕ} {n : Str} {pathname : Str} {flags : UInt32}

/-- The vnode of the file that a call leaves in `*target`. -/
def opened (addr : ℕ) : Except Stop ℕ × OpenState → Except Stop (Option ℕ × State)
  | (.error e, _) => .error e
  | (.ok 0, s) => .ok (none, s.vfs)
  | (.ok (_ + 1), s) => .ok ((s.file addr).map File.vnode, s.vfs)

theorem opened_attach (s : OpenState) (addr v : ℕ) (flags : UInt32) :
    opened addr (.ok 1, s.attach addr v flags) = .ok (some v, s.vfs) := by
  simp [opened, OpenState.attach]

/-- The model without `*target` does the same. -/
theorem vfsOpen_eq (s : OpenState) (pathname : Str) (flags : UInt32) (addr : ℕ) :
    vfsOpen s.vfs pathname flags = opened addr (vfsOpenInto s pathname flags addr) := by
  unfold vfsOpen vfsOpenInto
  cases vfsLookup s.vfs pathname with
  | some v => exact (opened_attach _ addr v flags).symm
  | none =>
    dsimp only
    split
    · cases vfsLookup s.vfs (dirName pathname) with
      | none => rfl
      | some d =>
        dsimp only
        unfold createInto
        cases create s.vfs d (baseName pathname) with
        | error e => rfl
        | ok r =>
          obtain ⟨ret, target, vfs⟩ := r
          cases target with
          | none => rfl
          | some v =>
            let s' : OpenState :=
              { s with vfs := vfs, dataSize := Function.update s.dataSize v 0 }
            exact (opened_attach (s'.kmallocFile addr) addr v flags).symm
    · rfl

/-! ## Refused creates -/

/-- The bound on the length of a name in `create`. -/
def createBound : Filesystem → ℕ
  | .tmpfs => maxPathLen
  | .initramfs => 0
  | .fat32 => maxFileNameLen

/-- Why a create is refused: the archive is read-only, the parent is a regular file, it has an entry with
    the name, it has `MAX_DIR_NUM` entries, or the name is too long. -/
inductive CreateRefuses (σ : State) (dir : ℕ) (name : Str) : Prop
  | readOnly (h : (σ.node dir).fs = .initramfs)
  | notDir (h : (σ.node dir).type ≠ .dir)
  | taken (h : lookup σ dir name ≠ none)
  | full (h : freeIdx σ dir = none)
  | tooLong (h : createBound (σ.node dir).fs < name.length)

theorem createIn_refuses_iff {maxLen : ℕ} :
    (∃ ret σ', createIn maxLen σ d n = .ok (ret, none, σ')) ↔
      (σ.node d).type ≠ .dir ∨ lookup σ d n ≠ none ∨ freeIdx σ d = none ∨ maxLen < n.length := by
  unfold createIn
  by_cases htype : (σ.node d).type ≠ .dir
  · rw [if_pos htype]
    exact iff_of_true ⟨_, _, rfl⟩ (.inl htype)
  rw [if_neg htype, or_iff_right htype]
  by_cases hnew : lookup σ d n = none
  · rw [hnew, if_neg (by simp), or_iff_right (by simp)]
    cases hidx : freeIdx σ d with
    | none => exact iff_of_true ⟨_, _, rfl⟩ (.inl rfl)
    | some i =>
      dsimp only
      rw [or_iff_right (by simp)]
      by_cases hlen : n.length > maxLen
      · rw [if_pos hlen]
        exact iff_of_true ⟨_, _, rfl⟩ hlen
      · rw [if_neg hlen]
        refine iff_of_false ?_ hlen
        rintro ⟨ret, σ', h⟩
        obtain ⟨⟨v, σ₁⟩, -, h⟩ := bind_eq_ok.mp h
        cases h
  · rw [if_pos (Option.isSome_iff_ne_none.mpr hnew)]
    exact iff_of_true ⟨_, _, rfl⟩ (.inl hnew)

/-- A create comes back without a vnode exactly if one of the reasons holds. -/
theorem createRefuses_iff :
    (∃ ret σ', create σ d n = .ok (ret, none, σ')) ↔ CreateRefuses σ d n := by
  have hcases : CreateRefuses σ d n ↔ (σ.node d).fs = .initramfs ∨ (σ.node d).type ≠ .dir ∨
      lookup σ d n ≠ none ∨ freeIdx σ d = none ∨ createBound (σ.node d).fs < n.length := by
    constructor
    · rintro (h | h | h | h | h)
      · exact .inl h
      · exact .inr (.inl h)
      · exact .inr (.inr (.inl h))
      · exact .inr (.inr (.inr (.inl h)))
      · exact .inr (.inr (.inr (.inr h)))
    · rintro (h | h | h | h | h)
      · exact .readOnly h
      · exact .notDir h
      · exact .taken h
      · exact .full h
      · exact .tooLong h
  rw [hcases]
  unfold create
  cases (σ.node d).fs with
  | tmpfs =>
    rw [or_iff_right (by simp)]
    exact createIn_refuses_iff
  | initramfs => exact iff_of_true ⟨0, σ, rfl⟩ (.inl rfl)
  | fat32 =>
    rw [or_iff_right (by simp)]
    exact createIn_refuses_iff

/-- A refused create leaves the vnodes. -/
theorem create_refused (h : CreateRefuses σ d n) : ∃ ret, create σ d n = .ok (ret, none, σ) := by
  obtain ⟨ret, σ', hcreate⟩ := createRefuses_iff.mpr h
  rcases create_cases hcreate with ⟨rfl, -⟩ | ⟨-, -, i, -, -, htarget⟩
  · exact ⟨ret, hcreate⟩
  · cases htarget

/-- `vfs_open` comes to a create that is refused. -/
structure Refused (σ : State) (pathname : Str) (flags : UInt32) : Prop where
  not_found : vfsLookup σ pathname = none
  creat : flags &&& oCreat ≠ 0
  refuses : ∃ dir, vfsLookup σ (dirName pathname) = some dir ∧
    CreateRefuses σ dir (baseName pathname)

/-- If the create is refused, `vfs_open` returns 0 and does not write `*target`. -/
def HandlesRefusal (s : OpenState) (path : Path) (flags : UInt32) (addr : ℕ) : Prop :=
  Refused s.vfs path.str flags →
    ∃ s', vfsOpenInto s path.str flags addr = (.ok 0, s') ∧ s'.target = s.target

/-- If the create is refused, `*target` points to a new `struct file`, and `target_node` is used without
    having been set. -/
theorem vfsOpenInto_refused (h : Refused s.vfs pathname flags) (addr : ℕ) :
    vfsOpenInto s pathname flags addr = (.error .wildTarget, s.kmallocFile addr) := by
  obtain ⟨dir, hdir, hrefuses⟩ := h.refuses
  obtain ⟨ret, hcreate⟩ := create_refused hrefuses
  have hinto : createInto s dir (baseName pathname) = .ok (ret, none, s) := by
    rw [createInto, hcreate]
    rfl
  unfold vfsOpenInto
  rw [h.not_found]
  dsimp only
  rw [if_pos h.creat, hdir]
  dsimp only
  rw [hinto]

theorem handlesRefusal_iff (s : OpenState) (path : Path) (flags : UInt32) (addr : ℕ) :
    HandlesRefusal s path flags addr ↔ ¬ Refused s.vfs path.str flags := by
  constructor
  · intro h hrefused
    obtain ⟨s', hopen, -⟩ := h hrefused
    rw [vfsOpenInto_refused hrefused] at hopen
    cases hopen
  · exact fun h hrefused => absurd hrefused h

end RaspiKernel.Vfs

namespace RaspiKernel.Fd

open Lib
open Vfs (Path Refused)

/-! ## `sys_open` -/

/-- The tasks with their descriptors and the vnodes, with the fields of the `struct file`s and the
    `data_size` of the inodes. -/
structure Files extends State where
  dataSize : ℕ → ℕ
  file : ℕ → Option Vfs.File

/-- What `vfs_open(absolute_path, flags, &current->fd_table[i])` works on. -/
def Files.openState (σ : Files) (i : Fin fdTableSize) : Vfs.OpenState :=
  ⟨σ.vfs, σ.dataSize, σ.file, σ.fdTable σ.cur i⟩

/-- What `vfs_open` leaves, with the address that `kmalloc` has returned if `fd_table[i]` was written. -/
def Files.opened (σ : Files) (i : Fin fdTableSize) (s : Vfs.OpenState) (addr : ℕ) : Files where
  toState := { σ.setFd i s.target with
    live := if s.target = some addr then insert addr σ.live else σ.live
    vfs := s.vfs }
  dataSize := s.dataSize
  file := s.file

/-- `sys_open` (lines 250–278) with the absolute path name: `trapframe->x[0]` and the state. -/
def sysOpenInto (σ : Files) (path : Path) (flags : UInt32) (addr : ℕ) :
    Except Vfs.Stop ℤ × Files :=
  match (List.finRange fdTableSize).find? fun i => (σ.fdTable σ.cur i).isNone with
  | none => (.ok (-1), σ)
  | some i =>
    let (ret, s) := Vfs.vfsOpenInto (σ.openState i) path.str flags addr
    match ret with
    | .error e => (.error e, σ.opened i s addr)
    | .ok 0 => (.ok (-1), σ.opened i s addr)
    | .ok (_ + 1) => (.ok i, σ.opened i s addr)

/-- The state without the fields of the `struct file`s. -/
def Files.result : Except Vfs.Stop ℤ × Files → Except Stop State
  | (.error e, _) => .error (.vfs e)
  | (.ok _, σ) => .ok σ.toState

/-- `*target` is written exactly if `vfs_open` comes to `kmalloc`. -/
theorem vfsOpenInto_target (s : Vfs.OpenState) (pathname : Vfs.Str) (flags : UInt32) (addr : ℕ) :
    (∃ e, Vfs.vfsOpenInto s pathname flags addr = (.error e, (Vfs.vfsOpenInto s pathname flags addr).2)) ∨
    Vfs.vfsOpenInto s pathname flags addr = (.ok 0, s) ∨
    ∃ v vfs dataSize, Vfs.vfsOpenInto s pathname flags addr =
      (.ok 1, ⟨vfs, dataSize, Function.update s.file addr (some ⟨v, 0, flags⟩), some addr⟩) := by
  unfold Vfs.vfsOpenInto Vfs.createInto
  cases Vfs.vfsLookup s.vfs pathname with
  | some v => exact .inr (.inr ⟨v, s.vfs, s.dataSize, rfl⟩)
  | none =>
    dsimp only
    split
    · cases Vfs.vfsLookup s.vfs (Vfs.dirName pathname) with
      | none => exact .inr (.inl rfl)
      | some d =>
        dsimp only
        cases Vfs.create s.vfs d (Vfs.baseName pathname) with
        | error e => exact .inl ⟨e, rfl⟩
        | ok r =>
          obtain ⟨ret, target, vfs⟩ := r
          cases target with
          | none => exact .inl ⟨.wildTarget, rfl⟩
          | some v => exact .inr (.inr ⟨v, vfs, Function.update s.dataSize v 0, rfl⟩)
    · exact .inr (.inl rfl)

/-- The model without the fields of the `struct file`s does the same. -/
theorem sysOpen_eq (σ : Files) (path : Path) (flags : UInt32) {addr : ℕ} (haddr : addr ∉ σ.live) :
    sysOpen σ.toState path flags addr = Files.result (sysOpenInto σ path flags addr) := by
  unfold sysOpen sysOpenInto
  cases hfind : (List.finRange fdTableSize).find? fun i => (σ.fdTable σ.cur i).isNone with
  | none => rfl
  | some i =>
    have hi : σ.fdTable σ.cur i = none := by simpa using List.find?_some hfind
    have hopen := Vfs.vfsOpen_eq (σ.openState i) path.str flags addr
    dsimp only
    rw [show σ.vfs = (σ.openState i).vfs from rfl, hopen]
    rcases vfsOpenInto_target (σ.openState i) path.str flags addr with ⟨e, h⟩ | h | ⟨v, vfs, size, h⟩
    · rw [h]
      rfl
    · have hsame : σ.setFd i none = σ.toState := by
        rw [← hi, State.setFd, Function.update_eq_self, Function.update_eq_self]
      have hopened : (σ.opened i (σ.openState i) addr).toState = σ.toState := by
        simp only [Files.opened, Files.openState, hi, hsame, reduceCtorEq, if_false]
      rw [h]
      exact congrArg Except.ok hopened.symm
    · rw [h]
      simp [Vfs.opened, Except.mapError, bind, Except.bind, haddr, Files.result, Files.opened]

/-- If the create is refused, `sys_open` returns -1 and no descriptor changes. -/
def ReportsRefusal (σ : Files) (path : Path) (flags : UInt32) (addr : ℕ) : Prop :=
  Refused σ.vfs path.str flags →
    (sysOpenInto σ path flags addr).1 = .ok (-1) ∧
      (sysOpenInto σ path flags addr).2.fdTable = σ.fdTable

theorem reportsRefusal_iff (σ : Files) (path : Path) (flags : UInt32) (addr : ℕ) :
    ReportsRefusal σ path flags addr ↔
      ¬ (Refused σ.vfs path.str flags ∧ ∃ i, σ.fdTable σ.cur i = none) := by
  unfold ReportsRefusal sysOpenInto
  cases hfind : (List.finRange fdTableSize).find? fun i => (σ.fdTable σ.cur i).isNone with
  | none =>
    refine iff_of_true (fun _ => ⟨rfl, rfl⟩) ?_
    rintro ⟨-, i, hi⟩
    have hsome := List.find?_eq_none.mp hfind i (List.mem_finRange i)
    simp [hi] at hsome
  | some i =>
    have hi : σ.fdTable σ.cur i = none := by simpa using List.find?_some hfind
    constructor
    · rintro h ⟨hrefused, -⟩
      have hwild := Vfs.vfsOpenInto_refused (s := σ.openState i) hrefused addr
      dsimp only at h
      rw [hwild] at h
      exact absurd (h hrefused).1 (by simp)
    · exact fun h hrefused => absurd ⟨hrefused, i, hi⟩ h

/-- No refused create is handled: `vfs_open` returns 0 without writing `*target` exactly if the create is
    not refused, and `sys_open` returns -1 without changing a descriptor exactly if moreover there is none
    that is free. -/
theorem open_refused_iff (path : Path) (flags : UInt32) (addr : ℕ) :
    (∀ s : Vfs.OpenState, Vfs.HandlesRefusal s path flags addr ↔ ¬ Refused s.vfs path.str flags) ∧
    ∀ σ : Files, ReportsRefusal σ path flags addr ↔
      ¬ (Refused σ.vfs path.str flags ∧ ∃ i, σ.fdTable σ.cur i = none) :=
  ⟨fun s => Vfs.handlesRefusal_iff s path flags addr, fun σ => reportsRefusal_iff σ path flags addr⟩

/-- The files after boot, of which none is open. -/
def bootFiles : Files := ⟨.boot Vfs.bootState, fun _ => 0, fun _ => none⟩

/-- A file in the archive. -/
def archivePath : Path := ⟨Vfs.ofString "/initramfs/x", by decide⟩

theorem refused_archivePath : Refused bootFiles.vfs archivePath.str Vfs.oCreat :=
  ⟨by decide, by decide, 2, by decide, .readOnly rfl⟩

/-- After boot, a new file in the archive is not refused: `target_node` is used, and descriptor 0 points to
    a `struct file`. -/
theorem open_refused_boot :
    ¬ Vfs.HandlesRefusal (bootFiles.openState 0) archivePath Vfs.oCreat 4096 ∧
      ¬ ReportsRefusal bootFiles archivePath Vfs.oCreat 4096 ∧
      (sysOpenInto bootFiles archivePath Vfs.oCreat 4096).1 = .error .wildTarget ∧
      (sysOpenInto bootFiles archivePath Vfs.oCreat 4096).2.fdTable bootFiles.cur 0 = some 4096 := by
  refine ⟨fun h => ?_, fun h => ?_, by decide, by decide⟩
  · obtain ⟨s', hopen, -⟩ := h refused_archivePath
    have hret : (Vfs.vfsOpenInto (bootFiles.openState 0) archivePath.str Vfs.oCreat 4096).1 = .ok 0 :=
      congrArg Prod.fst hopen
    exact absurd hret (by decide)
  · exact absurd (h refused_archivePath).1 (by decide)

end RaspiKernel.Fd
