import RaspiKernel.Sched.Run
import RaspiKernel.Vfs.Mount

/-!
# Open files

Model of `sys_open`, `sys_close`, `sys_read` and `sys_write` (`syscall.c`, lines
250–343) over the scheduler and the virtual file system. `sys_fork` copies the
`task_struct` and with it the pointers in `fd_table[]`, and `sys_close` frees the
`struct file` whoever else points to it.

* A `struct file` is its address. `live` holds those that `vfs_open` has got from
  `kmalloc` and that were not passed to `kfree`; their fields are not in the state.
* A call of `sys_open` comes with the address that `kmalloc` returns, which is
  that of no `struct file` in use.

Results:
* `close_filesLive_iff`: when a close leaves the open files of all tasks intact.
* `Inv.progress`: a call that stays within the tables comes back.
* `careful_files`: if moreover no close frees a file another descriptor points to,
  all descriptors stay valid and no file is freed twice.
* `close_after_fork`: otherwise they do not.
-/

namespace RaspiKernel.Fd

open Lib
open Sched (Slot TaskState)
open Vfs (Path)

/-- `FD_TABLE_SIZE`. -/
abbrev fdTableSize : ℕ := 16

/-- The tasks, their file descriptor tables, the `struct file`s in use and the vnodes. -/
structure State where
  sched : Sched.State
  fdTable : Slot → Fin fdTableSize → Option ℕ
  live : Finset ℕ
  vfs : Vfs.State

/-- How a call can go wrong. -/
inductive Stop where
  | sched (e : Sched.Stop)
  | vfs (e : Vfs.Stop)
  /-- `fd_table` is indexed outside its bounds. -/
  | fdIndex
  /-- The address is in use, so `kmalloc` does not return it. -/
  | inUse
  /-- A `struct file` is read after it was freed. -/
  | dangling
  /-- `kfree` of a `struct file` that was freed before. -/
  | doubleFree
  deriving DecidableEq, Repr

/-- `current`. -/
def State.cur (σ : State) : Slot := σ.sched.current

/-- `current->fd_table[fd] = file`. -/
def State.setFd (σ : State) (fd : Fin fdTableSize) (file : Option ℕ) : State :=
  let table := Function.update (σ.fdTable σ.cur) fd file
  { σ with fdTable := Function.update σ.fdTable σ.cur table }

/-- The `int fd` as an index of `fd_table`. -/
def fdIndex (fd : ℤ) : Option (Fin fdTableSize) :=
  if h : 0 ≤ fd ∧ fd < fdTableSize then some ⟨fd.toNat, by omega⟩ else none

/-- `sys_open` (lines 250–278) with the absolute path name. `file` is what `kmalloc` returns. -/
def sysOpen (σ : State) (path : Path) (flags : UInt32) (file : ℕ) : Except Stop State :=
  match (List.finRange fdTableSize).find? fun i => (σ.fdTable σ.cur i).isNone with
  | none => .ok σ
  | some i => do
    let (target, vfs) ← (Vfs.vfsOpen σ.vfs path.str flags).mapError .vfs
    match target with
    | none => .ok { σ with vfs := vfs }
    | some _ =>
      if file ∈ σ.live then .error .inUse
      else .ok { σ.setFd i (some file) with live := insert file σ.live, vfs := vfs }

/-- `vfs_close` and the `close` of the file systems (`tmpfs.c`, lines 122–126): `kfree(file)`. -/
def vfsClose (σ : State) (file : ℕ) : Except Stop State :=
  if file ∈ σ.live then .ok { σ with live := σ.live.erase file } else .error .doubleFree

/-- `sys_close` (lines 280–302), `fd` is `(int) trapframe->x[0]`. -/
def sysClose (σ : State) (fd : ℤ) : Except Stop State :=
  match fdIndex fd with
  | none => .error .fdIndex
  | some fd =>
    match σ.fdTable σ.cur fd with
    | none => .ok σ
    | some file => do
      let σ ← vfsClose σ file
      .ok (σ.setFd fd none)

/-- `sys_read` and `sys_write` (lines 304–340), which reach the operations through `file->f_ops`. -/
def sysReadWrite (σ : State) (fd : ℤ) : Except Stop State :=
  match fdIndex fd with
  | none => .error .fdIndex
  | some fd =>
    match σ.fdTable σ.cur fd with
    | none => .ok σ
    | some file => if file ∈ σ.live then .ok σ else .error .dangling

/-- `sys_fork` (lines 91–143): `*child_task = *current` copies `fd_table` too. -/
def sysFork (σ : State) : Except Stop State := do
  let sched ← (Sched.sysFork σ.sched).mapError .sched
  match (Sched.findEmptyTask σ.sched).1 with
  | some child =>
    .ok { σ with sched := sched, fdTable := Function.update σ.fdTable child (σ.fdTable σ.cur) }
  | none => .error (.sched .poolIndex)

/-- The calls of the tasks and the timer ticks between them. -/
inductive Op where
  | openFile (path : Path) (flags : UInt32) (file : ℕ)
  | close (x0 : ℕ)
  | read (x0 : ℕ)
  | write (x0 : ℕ)
  | fork
  | exit (x0 : ℕ)
  | tick

/-- One step. -/
def State.step (fuel : ℕ) (σ : State) : Op → Except Stop State
  | .openFile path flags file => sysOpen σ path flags file
  | .close x0 => sysClose σ (Sched.toInt x0)
  | .read x0 => sysReadWrite σ (Sched.toInt x0)
  | .write x0 => sysReadWrite σ (Sched.toInt x0)
  | .fork => sysFork σ
  | .exit x0 => do
    let sched ← (Sched.sysExit fuel σ.sched x0).mapError .sched
    .ok { σ with sched := sched }
  | .tick => do
    let sched ← (Sched.doTimer fuel σ.sched).mapError .sched
    .ok { σ with sched := sched }

/-- `kmalloc` returns the address of no `struct file` in use. -/
def Op.Enabled (σ : State) : Op → Prop
  | .openFile _ _ file => file ∉ σ.live
  | _ => True

/-- After boot: the first task has no open file. -/
def State.boot (vfs : Vfs.State) : State := ⟨Sched.taskInit, fun _ _ => none, ∅, vfs⟩

variable {fuel : ℕ} {σ σ' : State} {i : Slot} {fd j : Fin fdTableSize} {p x0 : ℕ} {k : ℤ}

/-! ## The tasks -/

theorem recharge_iterate_state (k : ℕ) (pool : Sched.Pool) (i : Slot) :
    ((Sched.recharge^[k] pool) i).state = (pool i).state := by
  induction k generalizing pool with
  | zero => rfl
  | succ k ih => rw [Function.iterate_succ_apply, ih, Sched.recharge_state]

/-- A call of `schedule` starts and stops no task. -/
theorem scheduled_state {s s' : Sched.State} {sel : Sched.Selection}
    (h : Sched.Scheduled s s' sel) (i : Slot) : (s'.pool i).state = (s.pool i).state := by
  rw [(h.share i).2.1, h.selects.pool_eq, recharge_iterate_state]

theorem doTimer_state {s s' : Sched.State} (h : Sched.Inv s)
    (hs : Sched.doTimer (fuel + 2) s = .ok s') (i : Slot) :
    (s'.pool i).state = (s.pool i).state := by
  have hdown : (s.countDown.pool i).state = (s.pool i).state := by
    by_cases hi : i = s.current
    · subst hi
      change s.countDown.cur.state = _
      rw [Sched.countDown_cur]
      rfl
    · exact congrArg Sched.Task.state (Function.update_of_ne hi _ _)
  obtain ⟨s₁, hs₁, -, hsched⟩ := Sched.doTimer_spec h fuel
  rw [hs₁] at hs
  cases hs
  by_cases hc : s.countDown.cur.counter > 0
  · rw [Sched.doTimer, if_pos hc] at hs₁
    cases hs₁
    exact hdown
  · obtain ⟨-, sel, hsel⟩ := hsched s.countDown (by rw [Sched.Op.schedulePoint, if_neg hc])
    rw [scheduled_state hsel, hdown]

theorem sysExit_state {s s' : Sched.State} (h : Sched.Inv s)
    (hr : Sched.SomeRunning (s.markExit x0).pool) (hs : Sched.sysExit (fuel + 2) s x0 = .ok s')
    (hi : (s'.pool i).state = .running) : (s.pool i).state = .running := by
  obtain ⟨s₁, sel, hs₁, hsel⟩ := Sched.sysExit_spec h hr fuel
  rw [hs₁] at hs
  cases hs
  rw [scheduled_state hsel] at hi
  by_cases hcur : i = s.current
  · rw [hcur]
    exact h.running
  · have hset : (s.markExit x0).pool i = s.pool i := Function.update_of_ne hcur _ _
    rwa [hset] at hi

/-! ## The invariant -/

/-- Every pointer in the `fd_table` of a RUNNING task is that of a `struct file` in use. -/
def State.FilesLive (σ : State) : Prop :=
  ∀ i j p, (σ.sched.pool i).state = .running → σ.fdTable i j = some p → p ∈ σ.live

/-- No descriptor of a RUNNING task points to the file but the one that is closed. -/
def State.Unshared (σ : State) (fd : Fin fdTableSize) : Prop :=
  ∀ i j p, (σ.sched.pool i).state = .running → σ.fdTable σ.cur fd = some p →
    σ.fdTable i j = some p → i = σ.cur ∧ j = fd

/-- A close frees a file that no other descriptor points to, and no call leaves the tables: an `int fd`
    is an index of `fd_table`, a fork finds an empty slot, an exit leaves a RUNNING task, and a file that
    is opened is there or can be created. -/
def Op.Careful (σ : State) : Op → Prop
  | .openFile path flags _ =>
    (∃ j, σ.fdTable σ.cur j = none) → Vfs.OpenFits σ.vfs path.str flags
  | .close x0 => ∃ fd, fdIndex (Sched.toInt x0) = some fd ∧ σ.Unshared fd
  | .read x0 => (fdIndex (Sched.toInt x0)).isSome
  | .write x0 => (fdIndex (Sched.toInt x0)).isSome
  | .fork => ∃ i, i ≠ 0 ∧ (σ.sched.pool i).state = .stopped
  | .exit x0 => Sched.SomeRunning (σ.sched.markExit x0).pool
  | .tick => True

theorem setFd_fdTable {file : Option ℕ} (i : Slot) (j : Fin fdTableSize) :
    (σ.setFd fd file).fdTable i j = if i = σ.cur ∧ j = fd then file else σ.fdTable i j := by
  unfold State.setFd
  simp only [Function.update_apply]
  by_cases hi : i = σ.cur
  · subst hi
    simp [Function.update_apply]
  · simp [hi]

theorem filesLive_open {path : Path} {flags : UInt32} (h : σ.FilesLive)
    (hop : sysOpen σ path flags p = .ok σ') : σ'.FilesLive ∧ σ'.sched = σ.sched := by
  unfold sysOpen at hop
  split at hop
  · cases hop
    exact ⟨h, rfl⟩
  · next k hk =>
    obtain ⟨⟨target, vfs⟩, -, hop⟩ := bind_eq_ok.mp hop
    cases target with
    | none =>
      cases hop
      exact ⟨h, rfl⟩
    | some node =>
      simp only at hop
      split at hop
      · cases hop
      · cases hop
        refine ⟨fun i j q hrun hq => ?_, rfl⟩
        have hq' : (σ.setFd k (some p)).fdTable i j = some q := hq
        rw [setFd_fdTable] at hq'
        split at hq'
        · cases hq'
          exact Finset.mem_insert_self p σ.live
        · exact Finset.mem_insert_of_mem (h i j q hrun hq')

/-- A close comes back, and it leaves the files of all tasks in use exactly if no other descriptor of
    a RUNNING task points to the one it frees. -/
theorem close_filesLive_iff (h : σ.FilesLive) (hrun : (σ.sched.pool σ.cur).state = .running)
    (hfd : fdIndex k = some fd) :
    ∃ σ', sysClose σ k = .ok σ' ∧ σ'.sched = σ.sched ∧ (σ'.FilesLive ↔ σ.Unshared fd) := by
  cases hfile : σ.fdTable σ.cur fd with
  | none =>
    refine ⟨σ, by simp only [sysClose, hfd, hfile], rfl, iff_of_true h ?_⟩
    intro i j p _ hp
    simp [hfile] at hp
  | some p =>
    have hlive := h σ.cur fd p hrun hfile
    refine ⟨({ σ with live := σ.live.erase p } : State).setFd fd none, ?_, rfl, ?_⟩
    · simp only [sysClose, hfd, hfile, vfsClose, if_pos hlive]
      rfl
    · have htable : ∀ i j, (({ σ with live := σ.live.erase p } : State).setFd fd none).fdTable i j =
          if i = σ.cur ∧ j = fd then none else σ.fdTable i j := fun i j => setFd_fdTable i j
      constructor
      · intro hlive' i j q hi hq hq'
        by_contra hne
        obtain rfl : p = q := by simpa [hfile] using hq
        exact Finset.notMem_erase p σ.live
          (hlive' i j p hi (by rw [htable, if_neg hne, hq']))
      · intro huns i j q hi hq
        rw [htable] at hq
        split at hq
        · cases hq
        · next hne =>
          refine Finset.mem_erase.mpr ⟨?_, h i j q hi hq⟩
          rintro rfl
          exact hne (huns i j q hi hfile hq)

theorem step_close (x0 : ℕ) : σ.step fuel (.close x0) = sysClose σ (Sched.toInt x0) := by
  simp only [State.step]

theorem step_read (x0 : ℕ) : σ.step fuel (.read x0) = sysReadWrite σ (Sched.toInt x0) := by
  simp only [State.step]

theorem step_write (x0 : ℕ) : σ.step fuel (.write x0) = sysReadWrite σ (Sched.toInt x0) := by
  simp only [State.step]

theorem readWrite_same (h : sysReadWrite σ k = .ok σ') : σ' = σ := by
  unfold sysReadWrite at h
  split at h
  · cases h
  · split at h
    · cases h
      rfl
    · split at h
      · cases h
        rfl
      · cases h

/-- The child of a fork is a slot that was free, and the tasks in the other slots stay as they are. -/
theorem fork_pool (hinv : Sched.Inv σ.sched) {child : Slot} {sched : Sched.State}
    (hchild : (Sched.findEmptyTask σ.sched).1 = some child)
    (hsched : Sched.sysFork σ.sched = .ok sched) : Sched.Inv sched ∧
      (σ.sched.pool child).state = .stopped ∧ ∀ i ≠ child, sched.pool i = σ.sched.pool i := by
  obtain ⟨-, hfree⟩ := Sched.findEmptyTask_ne hinv hchild
  obtain ⟨s', hs', hinv'⟩ := Sched.sysFork_spec hinv hfree
  obtain ⟨c, hstopped, hc⟩ := Sched.findEmptyTask_spec hfree
  obtain rfl : c = child := by simpa [hc] using hchild
  rw [hs'] at hsched
  cases hsched
  refine ⟨hinv', hstopped, fun i hi => ?_⟩
  rw [Sched.sysFork, hc] at hs'
  cases hs'
  exact Function.update_of_ne hi _ _

/-- A fork gives the child the pointers of its parent. -/
theorem filesLive_fork (h : σ.FilesLive) (hinv : Sched.Inv σ.sched)
    (hop : sysFork σ = .ok σ') : σ'.FilesLive ∧ Sched.Inv σ'.sched := by
  obtain ⟨sched, hsched, hop⟩ := bind_eq_ok.mp hop
  split at hop
  · next child hchild =>
    cases hop
    obtain ⟨hinv', -, hpool⟩ := fork_pool hinv hchild (mapError_eq_ok.mp hsched)
    refine ⟨fun i j p hi hp => ?_, hinv'⟩
    by_cases hic : i = child
    · subst hic
      have hp' : σ.fdTable σ.cur j = some p := by simpa [Function.update_self] using hp
      exact h σ.cur j p hinv.running hp'
    · have hp' : σ.fdTable i j = some p := by simpa [Function.update_of_ne hic] using hp
      have hi' : (sched.pool i).state = .running := hi
      rw [hpool i hic] at hi'
      exact h i j p hi' hp'
  · cases hop

/-! ## Runs -/

/-- Any sequence of calls in which each close is careful. -/
inductive CarefulRun (fuel : ℕ) (archive disk : Vfs.Image) : State → Prop where
  | init {vfs : Vfs.State} (h : Vfs.rootfsInit archive disk = .ok vfs) :
      CarefulRun fuel archive disk (.boot vfs)
  | step {σ σ' : State} (hσ : CarefulRun fuel archive disk σ) {op : Op} (hen : op.Enabled σ)
      (hcare : op.Careful σ) (h : σ.step fuel op = .ok σ') : CarefulRun fuel archive disk σ'

/-- The invariant of a run. -/
structure Inv (σ : State) : Prop where
  sched : Sched.Inv σ.sched
  filesLive : σ.FilesLive

theorem Inv.close (h : Inv σ) (hfd : fdIndex k = some fd) (hcare : σ.Unshared fd)
    (hop : sysClose σ k = .ok σ') : Inv σ' := by
  obtain ⟨σ₁, hσ₁, hsched, hiff⟩ := close_filesLive_iff h.filesLive h.sched.running hfd
  rw [hσ₁] at hop
  cases hop
  exact ⟨hsched ▸ h.sched, hiff.mpr hcare⟩

theorem Inv.exit (h : Inv σ) (hr : Sched.SomeRunning (σ.sched.markExit x0).pool)
    {sched : Sched.State} (hs : Sched.sysExit (fuel + 2) σ.sched x0 = .ok sched) :
    Inv { σ with sched := sched } := by
  obtain ⟨s₁, sel, hs₁, hsel⟩ := Sched.sysExit_spec h.sched hr fuel
  have heq : sched = s₁ := Except.ok.inj (hs.symm.trans hs₁)
  exact ⟨heq ▸ hsel.inv, fun i j p hi hp =>
    h.filesLive i j p (sysExit_state h.sched hr hs hi) hp⟩

theorem Inv.tick (h : Inv σ) {sched : Sched.State}
    (hs : Sched.doTimer (fuel + 2) σ.sched = .ok sched) : Inv { σ with sched := sched } := by
  obtain ⟨s₁, hs₁, hinv, -⟩ := Sched.doTimer_spec h.sched fuel
  have heq : sched = s₁ := Except.ok.inj (hs.symm.trans hs₁)
  refine ⟨heq ▸ hinv, fun i j p hi hp => h.filesLive i j p ?_ hp⟩
  rwa [doTimer_state h.sched hs i] at hi

theorem Inv.step (h : Inv σ) {op : Op} (hcare : op.Careful σ)
    (hop : σ.step (fuel + 2) op = .ok σ') : Inv σ' := by
  cases op with
  | openFile path flags file =>
    obtain ⟨hlive, hsched⟩ := filesLive_open h.filesLive hop
    exact ⟨hsched ▸ h.sched, hlive⟩
  | close x0 =>
    obtain ⟨fd, hfd, hcare⟩ := hcare
    rw [step_close] at hop
    exact h.close hfd hcare hop
  | read x0 =>
    rw [step_read] at hop
    rw [readWrite_same hop]
    exact h
  | write x0 =>
    rw [step_write] at hop
    rw [readWrite_same hop]
    exact h
  | fork =>
    obtain ⟨hlive, hsched⟩ := filesLive_fork h.filesLive h.sched hop
    exact ⟨hsched, hlive⟩
  | exit x0 =>
    obtain ⟨sched, hs, hσ'⟩ := bind_eq_ok.mp hop
    cases hσ'
    exact h.exit hcare (mapError_eq_ok.mp hs)
  | tick =>
    obtain ⟨sched, hs, hσ'⟩ := bind_eq_ok.mp hop
    cases hσ'
    exact h.tick (mapError_eq_ok.mp hs)

theorem CarefulRun.inv {archive disk : Vfs.Image} (h : CarefulRun (fuel + 2) archive disk σ) :
    Inv σ := by
  induction h with
  | init _ => exact ⟨Sched.taskInit_inv, fun i j p _ hp => by cases hp⟩
  | step _ _ hcare hstep ih => exact ih.step hcare hstep

/-! ## Calls that come back -/

theorem sysOpen_ok {path : Path} {flags : UInt32} {file : ℕ} (hfile : file ∉ σ.live)
    (hfits : (∃ j, σ.fdTable σ.cur j = none) → Vfs.OpenFits σ.vfs path.str flags) :
    ∃ σ', sysOpen σ path flags file = .ok σ' := by
  unfold sysOpen
  split
  · exact ⟨σ, rfl⟩
  · next j hj =>
    have hnone := List.find?_some hj
    obtain ⟨⟨target, vfs⟩, hopen⟩ := Vfs.vfsOpen_ok_iff.mpr (hfits ⟨j, by simpa using hnone⟩)
    rw [hopen]
    cases target with
    | none => exact ⟨_, rfl⟩
    | some node =>
      exact ⟨{ σ.setFd j (some file) with live := insert file σ.live, vfs := vfs }, if_neg hfile⟩

theorem sysReadWrite_ok (h : Inv σ) (hfd : (fdIndex k).isSome) : sysReadWrite σ k = .ok σ := by
  obtain ⟨fd, hfd⟩ := Option.isSome_iff_exists.mp hfd
  unfold sysReadWrite
  rw [hfd]
  dsimp only
  split
  · rfl
  · next file hfile => rw [if_pos (h.filesLive _ _ _ h.sched.running hfile)]

theorem sysFork_ok (h : Sched.Inv σ.sched) (hfree : ∃ i, i ≠ 0 ∧ (σ.sched.pool i).state = .stopped) :
    ∃ σ', sysFork σ = .ok σ' := by
  obtain ⟨sched, hsched, -⟩ := Sched.sysFork_spec h hfree
  obtain ⟨child, -, hchild⟩ := Sched.findEmptyTask_spec hfree
  refine ⟨{ σ with sched := sched, fdTable := Function.update σ.fdTable child (σ.fdTable σ.cur) }, ?_⟩
  simp only [sysFork, hsched, hchild]
  rfl

/-- A careful call comes back, so that no run stops at one. -/
theorem Inv.progress (h : Inv σ) {op : Op} (hen : op.Enabled σ) (hcare : op.Careful σ) :
    ∃ σ', σ.step (fuel + 2) op = .ok σ' := by
  cases op with
  | openFile path flags file => exact sysOpen_ok hen hcare
  | close x0 =>
    obtain ⟨fd, hfd, -⟩ := hcare
    obtain ⟨σ₁, hσ₁, -⟩ := close_filesLive_iff h.filesLive h.sched.running hfd
    exact ⟨σ₁, by rw [step_close, hσ₁]⟩
  | read x0 => exact ⟨σ, by rw [step_read, sysReadWrite_ok h hcare]⟩
  | write x0 => exact ⟨σ, by rw [step_write, sysReadWrite_ok h hcare]⟩
  | fork => exact sysFork_ok h.sched hcare
  | exit x0 =>
    obtain ⟨sched, sel, hs, -⟩ := Sched.sysExit_spec h.sched hcare fuel
    refine ⟨{ σ with sched := sched }, ?_⟩
    rw [State.step, hs]
    rfl
  | tick =>
    obtain ⟨sched, hs, -⟩ := Sched.doTimer_spec h.sched fuel
    refine ⟨{ σ with sched := sched }, ?_⟩
    rw [State.step, hs]
    rfl

theorem close_ne_doubleFree (h : Inv σ) (hfd : fdIndex (Sched.toInt x0) = some fd) :
    σ.step fuel (.close x0) ≠ .error .doubleFree := by
  obtain ⟨σ₁, hσ₁, -⟩ := close_filesLive_iff h.filesLive h.sched.running hfd
  rw [step_close, hσ₁]
  simp

/-- In any interleaving of the calls of any tasks in which no call leaves the tables and each close frees
    a file that no other descriptor of a RUNNING task points to, every descriptor of a RUNNING task is
    that of a file in use, no close of an index of `fd_table` frees a file twice, and every further
    such call comes back, so that none meets a freed file. -/
theorem careful_files {archive disk : Vfs.Image} (h : CarefulRun (fuel + 2) archive disk σ) :
    σ.FilesLive ∧
      (∀ (x0 : ℕ) (fd : Fin fdTableSize), fdIndex (Sched.toInt x0) = some fd →
        σ.step (fuel + 2) (.close x0) ≠ .error .doubleFree) ∧
      ∀ op : Op, op.Enabled σ → op.Careful σ → ∃ σ', σ.step (fuel + 2) op = .ok σ' := by
  refine ⟨h.inv.filesLive, ?_, ?_⟩
  · intro x0 fd hfd
    exact close_ne_doubleFree h.inv hfd
  · intro op hen hcare
    exact h.inv.progress hen hcare

/-- The path name of a new file. -/
def filePath : Path := ⟨Vfs.ofString "/f", by decide⟩

/-- A file is opened, the parent forks, writes and leaves: the child has the only pointer to the file. -/
theorem forkRun : ∃ σ₁ σ₂ σ₃ σ₄ : State,
    (State.boot Vfs.bootState).step 2 (.openFile filePath 100 0x1000) = .ok σ₁ ∧
    σ₁.step 2 .fork = .ok σ₂ ∧ σ₂.step 2 (.write 0) = .ok σ₃ ∧ σ₃.step 2 (.exit 0) = .ok σ₄ ∧
    (σ₁.sched.pool 1).state = .stopped ∧ Sched.SomeRunning (σ₃.sched.markExit 0).pool ∧
    σ₄.cur = 1 ∧ σ₄.fdTable 1 0 = some 0x1000 ∧
    (∀ i, (σ₄.sched.pool i).state = .running → i = 1) ∧ ∀ j, σ₄.fdTable 1 j ≠ none → j = 0 :=
  ⟨_, _, _, _, rfl, rfl, rfl, rfl, rfl, ⟨1, rfl⟩, rfl, rfl, by decide +kernel, by decide +kernel⟩

/-- In that run the child can close the file. -/
theorem careful_files_fork : ∃ σ₄ σ₅, CarefulRun 2 Vfs.tmpfsImage Vfs.tmpfsImage σ₄ ∧ σ₄.cur = 1 ∧
    σ₄.fdTable 1 0 = some 0x1000 ∧ σ₄.FilesLive ∧ σ₄.step 2 (.close 0) = .ok σ₅ := by
  obtain ⟨σ₁, σ₂, σ₃, σ₄, h₁, h₂, h₃, h₄, hfree, hleft, hcur, hfile, hrunning, htable⟩ := forkRun
  have hindex : fdIndex (Sched.toInt (0 : ℕ)) = some 0 := by decide
  have hfits : (Op.openFile filePath 100 0x1000).Careful (.boot Vfs.bootState) := fun _ =>
    Vfs.vfsOpen_ok_iff.mp ⟨_, rfl⟩
  have hnew : (Op.openFile filePath 100 0x1000).Enabled (.boot Vfs.bootState) :=
    Finset.notMem_empty _
  have hfork : Op.fork.Careful σ₁ := ⟨1, by decide, hfree⟩
  have hwrite : (Op.write 0).Careful σ₂ := by rw [Op.Careful, hindex]; rfl
  have hexit : (Op.exit 0).Careful σ₃ := hleft
  have hboot : CarefulRun 2 Vfs.tmpfsImage Vfs.tmpfsImage (.boot Vfs.bootState) := .init rfl
  have hrun₂ := @CarefulRun.step _ _ _ _ _ (hboot.step hnew hfits h₁) .fork trivial hfork h₂
  have hrun₃ := @CarefulRun.step _ _ _ _ _ hrun₂ (.write 0) trivial hwrite h₃
  have hrun := @CarefulRun.step _ _ _ _ _ hrun₃ (.exit 0) trivial hexit h₄
  obtain ⟨hlive, -, hprogress⟩ := careful_files hrun
  have hunshared : σ₄.Unshared 0 := by
    intro i j p hi _ hq
    obtain rfl := hrunning i hi
    exact ⟨hcur.symm, htable j (by simp [hq])⟩
  obtain ⟨σ₅, hσ₅⟩ := hprogress (.close 0) trivial ⟨0, hindex, hunshared⟩
  exact ⟨σ₄, σ₅, hrun, hcur, hfile, hlive, hσ₅⟩

/-- A file is opened, the parent forks and closes its descriptor: the child is RUNNING and has a
    pointer to a freed `struct file`, and once the parent has left, the child's close frees the file
    again. -/
theorem close_after_fork : ∃ vfs σ σ',
    Vfs.rootfsInit Vfs.tmpfsImage Vfs.tmpfsImage = .ok vfs ∧
    [Op.openFile filePath 100 0x1000, Op.fork, Op.close 0].foldlM (State.step 2) (.boot vfs) = .ok σ ∧
    ¬ σ.FilesLive ∧ σ.step 2 (.exit 0) = .ok σ' ∧ σ'.step 2 (.close 0) = .error .doubleFree := by
  refine ⟨Vfs.bootState, _, _, rfl, rfl, fun hlive => ?_, rfl, rfl⟩
  exact absurd (hlive 1 0 0x1000 rfl rfl) (by decide)

end RaspiKernel.Fd
