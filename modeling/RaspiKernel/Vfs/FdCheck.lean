import RaspiKernel.Vfs.Fd

/-!
# Which file descriptors are looked at

`sys_read`, `sys_write` and `sys_close` take the `int` in `x[0]` for an index of
`current->fd_table` without a look at its value. What they get for another index is
whatever lies before or behind the array.

The handlers are modelled here with their status, with `x[0]` and with the indices at
which they touch the table, over any kernel: what `vfs_read`, `vfs_write` and
`vfs_close` do is a parameter. `RaspiKernel.Vfs.Fd` stops at a wrong index and has the
rest of the effect.

Results:
* `checked_iff`: the values of `x[0]` for which the handlers check the descriptor.
* `sysOpen_lowest`: `sys_open` takes the lowest closed descriptor.
* `KeptRun.open_stays`: it stays open until its task closes it or leaves.
* `descriptors_valid`: both, and the handlers accept it until then.
-/

namespace RaspiKernel.Fd

open Lib
open Sched (Slot)
open Vfs (Path)

/-! ## The handlers -/

/-- What a handler leaves: the status that it returns, `x[0]`, the indices of `current->fd_table` that it
    has used, and the state. -/
structure Answer (κ : Type) where
  status : Sched.SyscallReturn
  x0 : UInt64
  touched : List ℤ
  state : κ

/-- What the handlers use of a kernel: the pointers at the indices of `current->fd_table`, where NULL is
    `none` and an index outside reads the memory there, and the functions of `vfs.c`. -/
structure Kernel (κ : Type) where
  fdTable : κ → ℤ → Option ℕ
  setFdTable : κ → ℤ → Option ℕ → κ
  vfsRead : κ → ℕ → UInt64 → UInt64 → ℤ × κ
  vfsWrite : κ → ℕ → UInt64 → UInt64 → ℤ × κ
  vfsClose : κ → ℕ → ℤ × κ

/-- An `int` in a register. -/
def ofInt (n : ℤ) : UInt64 := UInt64.ofNat (n % 2 ^ 64).toNat

section

variable {κ : Type} (K : Kernel κ) (s : κ) (fd : ℤ) (x : ℕ → UInt64)

/-- `(int) trapframe->x[0]`. -/
def fdOf (x : ℕ → UInt64) : ℤ := Sched.toInt (x 0).toNat

/-- The descriptor is not valid. -/
def refuse : Answer κ := ⟨.error, ofInt (-1), [fd], s⟩

/-- The body of `sys_close` behind its first line. -/
def closeFd : Answer κ :=
  match K.fdTable s fd with
  | some file =>
    let (closed, s) := K.vfsClose s file
    if closed ≠ 0 then ⟨.success, 0, [fd, fd, fd], K.setFdTable s fd none⟩
    else ⟨.error, ofInt (-1), [fd, fd], s⟩
  | none => refuse s fd

/-- The body that `sys_write` and `sys_read` have with different functions. -/
def transferFd (buf len : UInt64) (vfs : κ → ℕ → UInt64 → UInt64 → ℤ × κ) : Answer κ :=
  match K.fdTable s fd with
  | some file =>
    let (n, s) := vfs s file buf len
    ⟨.success, ofInt n, [fd, fd], s⟩
  | none => refuse s fd

/-- `sys_close` (lines 280–302). -/
def sysCloseCall : Answer κ := closeFd K s (fdOf x)

/-- `sys_write` (lines 304–321). -/
def sysWriteCall : Answer κ := transferFd K s (fdOf x) (x 1) (x 2) K.vfsWrite

/-- `sys_read` (lines 323–340). -/
def sysReadCall : Answer κ := transferFd K s (fdOf x) (x 1) (x 2) K.vfsRead

/-- The `int` is the index of an open descriptor. -/
def NamesOpen : Prop := (0 ≤ fd ∧ fd < fdTableSize) ∧ (K.fdTable s fd).isSome

/-- The handler stays within the table, and refuses what is no open descriptor without any effect. -/
structure Checked (answer : Answer κ) : Prop where
  touched : ∀ i ∈ answer.touched, 0 ≤ i ∧ i < fdTableSize
  refused : ¬ NamesOpen K s fd →
    answer.status = .error ∧ answer.x0 = ofInt (-1) ∧ answer.state = s

/-- The three handlers do. -/
def AllChecked : Prop :=
  Checked K s (fdOf x) (sysReadCall K s x) ∧ Checked K s (fdOf x) (sysWriteCall K s x) ∧
    Checked K s (fdOf x) (sysCloseCall K s x)

variable {K s fd x} {buf len : UInt64} {vfs : κ → ℕ → UInt64 → UInt64 → ℤ × κ}

theorem sysReadCall_eq : sysReadCall K s x = transferFd K s (fdOf x) (x 1) (x 2) K.vfsRead := rfl

theorem sysWriteCall_eq : sysWriteCall K s x = transferFd K s (fdOf x) (x 1) (x 2) K.vfsWrite := rfl

theorem sysCloseCall_eq : sysCloseCall K s x = closeFd K s (fdOf x) := rfl

theorem transferFd_touched : fd ∈ (transferFd K s fd buf len vfs).touched ∧
    ∀ i ∈ (transferFd K s fd buf len vfs).touched, i = fd := by
  unfold transferFd
  cases K.fdTable s fd <;> simp [refuse]

theorem closeFd_touched : fd ∈ (closeFd K s fd).touched ∧ ∀ i ∈ (closeFd K s fd).touched, i = fd := by
  unfold closeFd
  cases K.fdTable s fd with
  | none => simp [refuse]
  | some file =>
    dsimp only
    split_ifs <;> simp

/-- A closed descriptor in the table is refused. -/
theorem closed_of_not_namesOpen (hfd : 0 ≤ fd ∧ fd < fdTableSize) (h : ¬ NamesOpen K s fd) :
    K.fdTable s fd = none := by
  by_contra hsome
  exact h ⟨hfd, Option.isSome_iff_ne_none.mpr hsome⟩

theorem transferFd_checked (hfd : 0 ≤ fd ∧ fd < fdTableSize) :
    Checked K s fd (transferFd K s fd buf len vfs) := by
  refine ⟨fun i hi => transferFd_touched.2 i hi ▸ hfd, fun hclosed => ?_⟩
  rw [transferFd, closed_of_not_namesOpen hfd hclosed]
  exact ⟨rfl, rfl, rfl⟩

theorem closeFd_checked (hfd : 0 ≤ fd ∧ fd < fdTableSize) : Checked K s fd (closeFd K s fd) := by
  refine ⟨fun i hi => closeFd_touched.2 i hi ▸ hfd, fun hclosed => ?_⟩
  rw [closeFd, closed_of_not_namesOpen hfd hclosed]
  exact ⟨rfl, rfl, rfl⟩

/-- The handlers check the descriptor exactly if the `int` in `x[0]` is an index of the table. -/
theorem checked_iff : AllChecked K s x ↔ 0 ≤ fdOf x ∧ fdOf x < fdTableSize := by
  constructor
  · rintro ⟨hread, -⟩
    exact hread.touched _ transferFd_touched.1
  · exact fun hfd => ⟨transferFd_checked hfd, transferFd_checked hfd, closeFd_checked hfd⟩

end

/-! ## The table in the state -/

/-- The kernel of `RaspiKernel.Vfs.Fd`, with what is found and written outside the table, and with the
    numbers that `vfs_read` and `vfs_write` return. `vfs_close` always returns 1. -/
def fileKernel (outside : State → ℤ → Option ℕ) (setOutside : State → ℤ → Option ℕ → State)
    (count : State → ℕ → UInt64 → UInt64 → ℤ) : Kernel State where
  fdTable σ i := match fdIndex i with
    | some fd => σ.fdTable σ.cur fd
    | none => outside σ i
  setFdTable σ i file := match fdIndex i with
    | some fd => σ.setFd fd file
    | none => setOutside σ i file
  vfsRead σ file buf len := (count σ file buf len, σ)
  vfsWrite σ file buf len := (count σ file buf len, σ)
  vfsClose σ file := (1, { σ with live := σ.live.erase file })

/-- The first index whose entry is NULL. -/
def closedFd (σ : State) : Option (Fin fdTableSize) :=
  (List.finRange fdTableSize).find? fun i => (σ.fdTable σ.cur i).isNone

/-- `sys_open` (lines 250–278), as `sysOpen` with what it returns. -/
def sysOpenCall (σ : State) (path : Path) (flags : UInt32) (file : ℕ) : Except Stop (Answer State) :=
  match closedFd σ with
  | none => .ok ⟨.error, ofInt (-1), (List.range fdTableSize).map (↑), σ⟩
  | some i => do
    let touched := (List.range (i + 1)).map fun (j : ℕ) => (j : ℤ)
    let (target, vfs) ← (Vfs.vfsOpen σ.vfs path.str flags).mapError .vfs
    match target with
    | none => .ok ⟨.error, ofInt (-1), touched, { σ with vfs := vfs }⟩
    | some _ =>
      if file ∈ σ.live then .error .inUse
      else .ok ⟨.success, ofInt i, touched,
        { σ.setFd i (some file) with live := insert file σ.live, vfs := vfs }⟩

variable {fuel : ℕ} {σ σ' : State} {t : Slot} {i : Fin fdTableSize} {file : ℕ} {op : Op} {k : ℤ}
  {outside : State → ℤ → Option ℕ} {setOutside : State → ℤ → Option ℕ → State}
  {count : State → ℕ → UInt64 → UInt64 → ℤ} {x : ℕ → UInt64}

/-- The handlers do what the steps of a run do. -/
theorem closeFd_state (h : sysClose σ k = .ok σ') :
    (closeFd (fileKernel outside setOutside count) σ k).state = σ' := by
  unfold sysClose at h
  unfold closeFd
  dsimp only [fileKernel]
  cases hfd : fdIndex k with
  | none =>
    rw [hfd] at h
    cases h
  | some fd =>
    rw [hfd] at h
    dsimp only at h ⊢
    cases hfile : σ.fdTable σ.cur fd with
    | none =>
      rw [hfile] at h
      exact Except.ok.inj h
    | some file =>
      rw [hfile] at h
      obtain ⟨σ₁, hclose, hset⟩ := bind_eq_ok.mp h
      unfold vfsClose at hclose
      split_ifs at hclose
      cases hclose
      exact Except.ok.inj hset

theorem transferFd_state {buf len : UInt64} (h : sysReadWrite σ k = .ok σ') :
    (transferFd (fileKernel outside setOutside count) σ k buf len
      (fileKernel outside setOutside count).vfsRead).state = σ' := by
  obtain rfl := readWrite_same h
  unfold sysReadWrite at h
  unfold transferFd
  dsimp only [fileKernel]
  cases hfd : fdIndex k with
  | none =>
    rw [hfd] at h
    cases h
  | some fd =>
    dsimp only
    cases σ'.fdTable σ'.cur fd with
    | none => rfl
    | some file => rfl

theorem sysOpenCall_state (path : Path) (flags : UInt32) (file : ℕ) :
    (sysOpenCall σ path flags file).map Answer.state = sysOpen σ path flags file := by
  unfold sysOpenCall sysOpen
  change _ = match closedFd σ with
    | none => _
    | some i => _
  cases closedFd σ with
  | none => rfl
  | some i =>
    dsimp only
    cases (Vfs.vfsOpen σ.vfs path.str flags).mapError Stop.vfs with
    | error e => rfl
    | ok res =>
      obtain ⟨target, vfs⟩ := res
      cases target with
      | none => rfl
      | some node =>
        show Except.map Answer.state (if file ∈ σ.live then _ else _) = (if file ∈ σ.live then _ else _)
        split_ifs <;> rfl

/-! ## From open to close -/

/-- The lowest closed descriptor of the current task. -/
def LowestClosed (σ : State) (i : Fin fdTableSize) : Prop :=
  σ.fdTable σ.cur i = none ∧ ∀ j < i, σ.fdTable σ.cur j ≠ none

theorem closedFd_lowest (h : closedFd σ = some i) : LowestClosed σ i := by
  obtain ⟨hi, n, hn, heq, hfirst⟩ := List.find?_eq_some_iff_getElem.mp h
  rw [List.getElem_finRange] at heq
  refine ⟨Option.isNone_iff_eq_none.mp hi, fun j hj hnone => ?_⟩
  have hjn : (j : ℕ) < n := by
    rw [← heq] at hj
    exact hj
  have hj' := hfirst j hjn
  rw [List.getElem_finRange] at hj'
  have hopen : (σ.fdTable σ.cur j).isSome = true := by simpa using hj'
  rw [hnone] at hopen
  cases hopen

/-- A descriptor of a RUNNING task points to a file. -/
structure OpenAt (σ : State) (t : Slot) (i : Fin fdTableSize) (file : ℕ) : Prop where
  running : (σ.sched.pool t).state = .running
  entry : σ.fdTable t i = some file

/-- The call closes the descriptor of the task, or the task leaves. -/
def Op.Ends (σ : State) (t : Slot) (i : Fin fdTableSize) : Op → Prop
  | .close x0 => σ.cur = t ∧ fdIndex (Sched.toInt x0) = some i
  | .exit _ => σ.cur = t
  | _ => False

theorem exit_keeps_running {x0 : ℕ} {s s' : Sched.State} (h : Sched.Inv s)
    (hr : Sched.SomeRunning (s.markExit x0).pool) (hs : Sched.sysExit (fuel + 2) s x0 = .ok s')
    (ht : s.current ≠ t) (hrun : (s.pool t).state = .running) : (s'.pool t).state = .running := by
  obtain ⟨s₁, sel, hs₁, hsel⟩ := Sched.sysExit_spec h hr fuel
  rw [hs₁] at hs
  cases hs
  have hset : (s.markExit x0).pool t = s.pool t := Function.update_of_ne ht.symm _ _
  rw [scheduled_state hsel, hset, hrun]

theorem openAt_open {path : Path} {flags : UInt32} {p : ℕ} (hopen : OpenAt σ t i file)
    (hop : sysOpen σ path flags p = .ok σ') : OpenAt σ' t i file := by
  unfold sysOpen at hop
  split at hop
  · cases hop
    exact hopen
  · next k hk =>
    obtain ⟨⟨target, vfs⟩, -, hop⟩ := bind_eq_ok.mp hop
    cases target with
    | none =>
      cases hop
      exact ⟨hopen.running, hopen.entry⟩
    | some node =>
      simp only at hop
      split at hop
      · cases hop
      · cases hop
        refine ⟨hopen.running, ?_⟩
        show (σ.setFd k (some p)).fdTable t i = some file
        rw [setFd_fdTable, if_neg, hopen.entry]
        -- the entry that is taken was NULL
        rintro ⟨rfl, rfl⟩
        have hnone := (closedFd_lowest hk).1
        rw [hopen.entry] at hnone
        cases hnone

theorem openAt_close (hopen : OpenAt σ t i file) (hends : ¬ (σ.cur = t ∧ fdIndex k = some i))
    (hop : sysClose σ k = .ok σ') : OpenAt σ' t i file := by
  unfold sysClose at hop
  cases hfd : fdIndex k with
  | none =>
    rw [hfd] at hop
    cases hop
  | some fd =>
    rw [hfd] at hop hends
    dsimp only at hop
    cases hfile : σ.fdTable σ.cur fd with
    | none =>
      rw [hfile] at hop
      cases hop
      exact hopen
    | some p =>
      rw [hfile] at hop
      obtain ⟨σ₁, hclose, hset⟩ := bind_eq_ok.mp hop
      unfold vfsClose at hclose
      split_ifs at hclose
      cases hclose
      cases hset
      refine ⟨hopen.running, ?_⟩
      rw [setFd_fdTable, if_neg]
      · exact hopen.entry
      · rintro ⟨ht, hi⟩
        exact hends ⟨ht.symm, congrArg some hi.symm⟩

theorem openAt_fork (hinv : Sched.Inv σ.sched) (hopen : OpenAt σ t i file)
    (hop : sysFork σ = .ok σ') : OpenAt σ' t i file := by
  obtain ⟨sched, hsched, hop⟩ := bind_eq_ok.mp hop
  split at hop
  · next child hchild =>
    cases hop
    obtain ⟨-, hstopped, hpool⟩ := fork_pool hinv hchild (mapError_eq_ok.mp hsched)
    have ht : t ≠ child := by
      rintro rfl
      have hrun := hopen.running
      rw [hstopped] at hrun
      cases hrun
    refine ⟨?_, ?_⟩
    · show (sched.pool t).state = _
      rw [hpool t ht, hopen.running]
    · show Function.update σ.fdTable child (σ.fdTable σ.cur) t i = _
      rw [Function.update_of_ne ht, hopen.entry]
  · cases hop

/-- A step that does not end the descriptor leaves it open. -/
theorem openAt_step (hinv : Inv σ) (hopen : OpenAt σ t i file) (hcare : op.Careful σ)
    (hends : ¬ op.Ends σ t i) (hop : σ.step (fuel + 2) op = .ok σ') : OpenAt σ' t i file := by
  cases op with
  | openFile path flags p => exact openAt_open hopen hop
  | close x0 =>
    rw [step_close] at hop
    exact openAt_close hopen hends hop
  | read x0 =>
    rw [step_read] at hop
    rwa [readWrite_same hop]
  | write x0 =>
    rw [step_write] at hop
    rwa [readWrite_same hop]
  | fork => exact openAt_fork hinv.sched hopen hop
  | exit x0 =>
    obtain ⟨sched, hs, hσ'⟩ := bind_eq_ok.mp hop
    cases hσ'
    exact ⟨exit_keeps_running hinv.sched hcare (mapError_eq_ok.mp hs) hends hopen.running, hopen.entry⟩
  | tick =>
    obtain ⟨sched, hs, hσ'⟩ := bind_eq_ok.mp hop
    cases hσ'
    refine ⟨?_, hopen.entry⟩
    rw [doTimer_state hinv.sched (mapError_eq_ok.mp hs) t, hopen.running]

/-- Careful steps from a state to another that do not end the descriptor. -/
inductive KeptRun (fuel : ℕ) (t : Slot) (i : Fin fdTableSize) (σ : State) : State → Prop
  | refl : KeptRun fuel t i σ σ
  | step {σ₁ σ₂ : State} (h : KeptRun fuel t i σ σ₁) {op : Op} (hen : op.Enabled σ₁)
      (hcare : op.Careful σ₁) (hends : ¬ op.Ends σ₁ t i) (hop : σ₁.step fuel op = .ok σ₂) :
      KeptRun fuel t i σ σ₂

theorem KeptRun.open_stays (h : KeptRun (fuel + 2) t i σ σ') (hinv : Inv σ)
    (hopen : OpenAt σ t i file) : Inv σ' ∧ OpenAt σ' t i file := by
  induction h with
  | refl => exact ⟨hinv, hopen⟩
  | step _ _ hcare hends hop ih =>
    obtain ⟨hinv₁, hopen₁⟩ := ih
    exact ⟨hinv₁.step hcare hop, openAt_step hinv₁ hopen₁ hcare hends hop⟩

/-- The descriptor of the task is valid: its file is in use, and if the task calls one of the handlers with
    it, the call succeeds. A close leaves it closed. -/
structure Valid (σ : State) (t : Slot) (i : Fin fdTableSize) (file : ℕ) : Prop where
  entry : σ.fdTable t i = some file
  live : file ∈ σ.live
  accepted : σ.cur = t → ∀ outside setOutside count x, fdIndex (fdOf x) = some i →
    (sysReadCall (fileKernel outside setOutside count) σ x).status = .success ∧
    (sysWriteCall (fileKernel outside setOutside count) σ x).status = .success ∧
    (sysCloseCall (fileKernel outside setOutside count) σ x).status = .success ∧
    (sysCloseCall (fileKernel outside setOutside count) σ x).state.fdTable t i = none

theorem transferFd_open {buf len : UInt64} (hk : fdIndex k = some i)
    (hentry : σ.fdTable σ.cur i = some file) (vfs : State → ℕ → UInt64 → UInt64 → ℤ × State) :
    (transferFd (fileKernel outside setOutside count) σ k buf len vfs).status = .success := by
  simp only [transferFd, fileKernel, hk, hentry]

theorem closeFd_open (hk : fdIndex k = some i) (hentry : σ.fdTable σ.cur i = some file) :
    (closeFd (fileKernel outside setOutside count) σ k).status = .success ∧
      (closeFd (fileKernel outside setOutside count) σ k).state.fdTable σ.cur i = none := by
  have hclose : closeFd (fileKernel outside setOutside count) σ k =
      ⟨.success, 0, [k, k, k], ({ σ with live := σ.live.erase file } : State).setFd i none⟩ := by
    simp only [closeFd, fileKernel, hk, hentry]
    rfl
  rw [hclose]
  refine ⟨rfl, ?_⟩
  dsimp only
  rw [setFd_fdTable]
  exact if_pos ⟨rfl, rfl⟩

theorem valid_of_openAt (hinv : Inv σ) (hopen : OpenAt σ t i file) : Valid σ t i file := by
  refine ⟨hopen.entry, hinv.filesLive t i file hopen.running hopen.entry, ?_⟩
  rintro rfl outside setOutside count x hx
  -- with the index as a variable, so that nothing computes it
  obtain ⟨k, hk⟩ : ∃ k, k = fdOf x := ⟨_, rfl⟩
  rw [sysReadCall_eq, sysWriteCall_eq, sysCloseCall_eq, ← hk]
  rw [← hk] at hx
  exact ⟨transferFd_open hx hopen.entry _, transferFd_open hx hopen.entry _, closeFd_open hx hopen.entry⟩

/-- What a successful `sys_open` has done. -/
theorem sysOpenCall_success {path : Path} {flags : UInt32} {a : Answer State} (hinv : Inv σ)
    (h : sysOpenCall σ path flags file = .ok a) (hstatus : a.status = .success) :
    ∃ i : Fin fdTableSize, a.x0 = ofInt (i : ℕ) ∧ LowestClosed σ i ∧ Inv a.state ∧
      OpenAt a.state σ.cur i file := by
  have hstate : sysOpen σ path flags file = .ok a.state := by
    rw [← sysOpenCall_state, h]
    rfl
  obtain ⟨hlive, hsched⟩ := filesLive_open hinv.filesLive hstate
  unfold sysOpenCall at h
  cases hfd : closedFd σ with
  | none =>
    rw [hfd] at h
    cases h
    cases hstatus
  | some i =>
    rw [hfd] at h
    obtain ⟨⟨target, vfs⟩, -, h⟩ := bind_eq_ok.mp h
    cases target with
    | none =>
      cases h
      cases hstatus
    | some node =>
      dsimp only at h
      split_ifs at h
      cases h
      refine ⟨i, rfl, closedFd_lowest hfd, ⟨hsched ▸ hinv.sched, hlive⟩, hinv.sched.running, ?_⟩
      show (σ.setFd i (some file)).fdTable σ.cur i = some file
      rw [setFd_fdTable]
      exact if_pos ⟨rfl, rfl⟩

/-- File descriptors. For every kernel, every state and every content of the registers, `sys_read`,
    `sys_write` and `sys_close` stay within `current->fd_table` and refuse what is no open descriptor
    without any effect exactly if the `int` in `x[0]` is an index of the table. In every run of such
    calls in which none leaves the tables and no close frees a file that another descriptor points to, a
    descriptor that `sys_open` returns is the lowest closed one, and it is valid until its task closes
    it or leaves. -/
theorem descriptors_valid (fuel : ℕ) (archive disk : Vfs.Image) :
    (∀ (κ : Type) (K : Kernel κ) (s : κ) (x : ℕ → UInt64),
      AllChecked K s x ↔ 0 ≤ fdOf x ∧ fdOf x < fdTableSize) ∧
    ∀ {σ : State} {path : Path} {flags : UInt32} {file : ℕ} {a : Answer State},
      CarefulRun (fuel + 2) archive disk σ → sysOpenCall σ path flags file = .ok a →
      a.status = .success → ∃ i : Fin fdTableSize, a.x0 = ofInt (i : ℕ) ∧ LowestClosed σ i ∧
        ∀ σ', KeptRun (fuel + 2) σ.cur i a.state σ' → Valid σ' σ.cur i file := by
  refine ⟨fun κ K s x => checked_iff, fun hσ hopen hstatus => ?_⟩
  obtain ⟨i, hx0, hlowest, hinv, hat⟩ := sysOpenCall_success hσ.inv hopen hstatus
  refine ⟨i, hx0, hlowest, fun σ' hrun => ?_⟩
  obtain ⟨hinv', hat'⟩ := hrun.open_stays hinv hat
  exact valid_of_openAt hinv' hat'

/-- A file is opened, the task forks, and one of the two writes. -/
theorem descriptors_valid_fork : ∃ vfs a σ', Vfs.rootfsInit Vfs.tmpfsImage Vfs.tmpfsImage = .ok vfs ∧
    sysOpenCall (.boot vfs) filePath 100 0x1000 = .ok a ∧
    [Op.fork, Op.write 0].foldlM (State.step 2) a.state = .ok σ' ∧ Valid σ' 0 0 0x1000 := by
  have hopen : sysOpenCall (.boot Vfs.bootState) filePath 100 0x1000 = .ok _ := rfl
  obtain ⟨i, -, hlowest, hvalid⟩ := (descriptors_valid 0 Vfs.tmpfsImage Vfs.tmpfsImage).2
    (.init rfl) hopen rfl
  obtain rfl : i = 0 := by
    by_contra hi
    exact hlowest.2 0 (Fin.pos_iff_ne_zero.mpr hi) rfl
  have hindex : fdIndex (Sched.toInt (0 : ℕ)) = some 0 := by decide
  exact ⟨Vfs.bootState, _, _, rfl, hopen, rfl, hvalid _ (@KeptRun.step _ _ _ _ _ _
    (@KeptRun.step _ _ _ _ _ _ .refl .fork trivial ⟨1, by decide, rfl⟩ id rfl) (.write 0) trivial
    (by rw [Op.Careful, hindex]; rfl) id rfl)⟩

/-- Descriptor 16 is looked for behind the table. -/
theorem fd_behind_table : ¬ AllChecked
    (fileKernel (fun _ _ => none) (fun σ _ _ => σ) fun _ _ _ _ => 0) (.boot Vfs.bootState)
      fun _ => 16 := by
  intro h
  have hfd := (checked_iff.mp h).2
  have h16 : fdOf (fun _ => 16) = 16 := by decide +kernel
  rw [h16] at hfd
  exact absurd hfd (by decide)

end RaspiKernel.Fd
