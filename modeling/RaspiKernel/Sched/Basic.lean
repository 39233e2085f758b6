import RaspiKernel.Lib.Run

/-!
# The scheduler: model

Model of `src/sched.c`, of `do_timer` in `src/exception.c` and of the system
calls of `src/syscall.c` that start and stop tasks.

* `task_pool` is a function of the slot, `current` is the slot it points to.
* A `long` is an integer: the arithmetic on `counter` never leaves 64 bits
  where the priorities are `int`s. `int c` in `schedule` keeps its truncation.
* Of `struct task_struct` the fields that the scheduler reads are kept. Of `tss`
  that is `lr`, which decides where a task goes on after `switch_to`. The copies
  that `sys_fork` makes of the stacks, the program and the page table are
  outside of this model.
-/

namespace RaspiKernel.Sched

/-- `NR_TASKS`. -/
abbrev nrTasks : ℕ := 16

instance : NeZero nrTasks := ⟨by decide⟩

/-- A pointer into `task_pool`. -/
abbrev Slot := Fin nrTasks

/-- The values of `task_struct.state`. -/
inductive TaskState where
  | running
  | interruptible
  | uninterruptible
  | zombie
  | stopped
  deriving DecidableEq, Repr

/-- The addresses `tss.lr` holds. -/
inductive Entry where
  /-- Nothing stored yet. -/
  | null
  /-- The first instruction of `do_shell_user`. -/
  | doShellUser
  /-- `exit_kernel`, where a forked task starts. -/
  | exitKernel
  /-- Behind the call of `switch_to` in `context_switch`. -/
  | contextSwitch
  deriving DecidableEq, Repr

/-- `struct task_struct`. -/
structure Task where
  taskId : ℕ
  state : TaskState
  priority : ℤ
  counter : ℤ
  pending : ℤ
  processSig : ℤ
  exitState : ℤ
  lr : Entry
  deriving DecidableEq, Repr

/-- `task_pool`. -/
abbrev Pool := Slot → Task

/-- `task_pool`, `current` and `num_running_task`. -/
structure State where
  pool : Pool
  current : Slot
  numRunningTask : ℤ

/-- The task that `current` points to. -/
def State.cur (s : State) : Task := s.pool s.current

/-- Replace one task. -/
def State.set (s : State) (i : Slot) (t : Task) : State :=
  { s with pool := Function.update s.pool i t }

/-- How a call can fail to come back. -/
inductive Stop where
  /-- `task_pool` is indexed behind its end. -/
  | poolIndex
  /-- The loop of `schedule` has not ended within the given number of passes. -/
  | scheduling
  deriving DecidableEq, Repr

/-- Conversion of a `long` or of a register to `int`. -/
def toInt (x : ℤ) : ℤ := x.bmod (2 ^ 32)

/-! ## `task_init` -/

/-- A task in zeroed memory after the loop of `task_init` (lines 20–24). -/
def stoppedTask (i : Slot) : Task :=
  ⟨i, .stopped, 0, 0, 0, 0, 0, .null⟩

/-- `task_init` (lines 18–37). -/
def taskInit : State where
  pool := Function.update stoppedTask 0
    { stoppedTask 0 with state := .running, priority := 1, counter := 1, lr := .doShellUser }
  current := 0
  numRunningTask := 1

/-! ## `schedule` -/

/-- The indices of `while ((--i) >= 0)`, starting from `i = NR_TASKS`. -/
def slotsDown : List Slot := (List.finRange nrTasks).reverse

/-- One round of the inner loop of `schedule` (lines 114–117), on `(c, next)`. -/
def scanStep (pool : Pool) (acc : ℤ × Slot) (i : Slot) : ℤ × Slot :=
  if (pool i).state = .running ∧ (pool i).counter > acc.1 then (toInt (pool i).counter, i) else acc

/-- The inner loop of `schedule` (lines 113–118). -/
def scan (pool : Pool) (acc : ℤ × Slot) : ℤ × Slot := slotsDown.foldl (scanStep pool) acc

/-- The loop that resets the counters (lines 121–123). -/
def recharge (pool : Pool) : Pool := fun i =>
  if (pool i).state = .running then
    { pool i with counter := ((pool i).counter >>> 1) + (pool i).priority }
  else pool i

/-- What the loop of `schedule` leaves behind. -/
structure Selection where
  pool : Pool
  next : Slot
  /-- How often the counters were reset. -/
  recharges : ℕ

/-- `while (1)` of `schedule` (lines 112–124), with a bound on its passes. Neither `c` nor `next` is
    reset between two passes. -/
def selectLoop : ℕ → Pool → ℤ × Slot → Except Stop Selection
  | 0, _, _ => .error .scheduling
  | passes + 1, pool, acc =>
    let acc := scan pool acc
    if acc.1 ≠ 0 then .ok ⟨pool, acc.2, 0⟩
    else do
      let sel ← selectLoop passes (recharge pool) acc
      .ok { sel with recharges := sel.recharges + 1 }

/-- `update_current` and `switch_to` (lines 47–48): the previous task goes on behind the call. -/
def switchTo (s : State) (next : Slot) : State :=
  { s.set s.current { s.cur with lr := .contextSwitch } with current := next }

/-- Where the next task goes on. If that is behind its own call of `switch_to` (lines 51–68), its
    pending signal is delivered, or `schedule` is called again if it is stopped. -/
def resume (schedule : State → Except Stop State) (s : State) : Except Stop State :=
  if s.cur.lr = .contextSwitch then
    if s.cur.pending ≠ 0 then
      .ok (s.set s.current { s.cur with processSig := s.cur.pending, pending := 0 })
    else if s.cur.state = .stopped then schedule s
    else .ok s
  else .ok s

/-- `context_switch` (lines 41–69). -/
def contextSwitch (schedule : State → Except Stop State) (s : State) (next : Slot) :
    Except Stop State := resume schedule (switchTo s next)

/-- `schedule` (lines 106–127). The bound is for the passes of its loop and for the calls that
    `context_switch` makes back to it. -/
def schedule : ℕ → State → Except Stop State
  | 0, _ => .error .scheduling
  | fuel + 1, s => do
    let sel ← selectLoop (fuel + 1) s.pool (-1, 0)
    let s := { s with pool := sel.pool }
    if (sel.next : ℕ) ≠ s.cur.taskId then contextSwitch (schedule fuel) s sel.next else .ok s

/-! ## The operations -/

/-- `--current->counter`. -/
def State.countDown (s : State) : State :=
  s.set s.current { s.cur with counter := s.cur.counter - 1 }

/-- `do_timer` (`exception.c`, lines 206–211). -/
def doTimer (fuel : ℕ) (s : State) : Except Stop State :=
  let s := s.countDown
  if s.cur.counter > 0 then .ok s else schedule fuel s

/-- `find_empty_task` (lines 72–81): the slot it returns, where `NR_TASKS` is `none`. -/
def findEmptyTask (s : State) : Option Slot × State :=
  match (List.finRange nrTasks).find? fun i : Slot => i ≠ 0 ∧ (s.pool i).state = .stopped with
  | some i => (some i, { s with numRunningTask := s.numRunningTask + 1 })
  | none => (none, s)

/-- `sys_fork` (`syscall.c`, lines 91–143). With no empty slot it goes on with the element behind
    `task_pool`. -/
def sysFork (s : State) : Except Stop State :=
  match findEmptyTask s with
  | (some child, s) =>
    .ok (s.set child
      { s.cur with taskId := child, counter := s.cur.priority, lr := .exitKernel })
  | (none, _) => .error .poolIndex

/-- `sys_exit` up to its call of `schedule` (`syscall.c`, lines 150–152). -/
def State.markExit (s : State) (x0 : ℕ) : State :=
  { s.set s.current { s.cur with state := .stopped, exitState := toInt x0 } with
    numRunningTask := s.numRunningTask - 1 }

/-- `sys_exit` (`syscall.c`, lines 146–155), `x0` is the register of the trap frame. -/
def sysExit (fuel : ℕ) (s : State) (x0 : ℕ) : Except Stop State := schedule fuel (s.markExit x0)

/-- `SYSCALL_SUCCESS` and `SYSCALL_ERROR`. -/
inductive SyscallReturn where
  | success
  | error
  deriving DecidableEq, Repr

/-- `sys_kill` (`syscall.c`, lines 172–193). In `pid == current->task_id` the `int` is converted to
    `unsigned int`. -/
def sysKill (s : State) (x0 : ℕ) : SyscallReturn × State :=
  let pid := toInt x0
  if pid % 2 ^ 32 = s.cur.taskId ∨ pid < 0 then (.error, s)
  else if h : pid.toNat < nrTasks then
    let task : Slot := ⟨pid.toNat, h⟩
    if (s.pool task).state ≠ .running then (.error, s)
    else
      (.success, { s.set task { s.pool task with state := .stopped, exitState := 1 } with
        numRunningTask := s.numRunningTask - 1 })
  else (.error, s)

end RaspiKernel.Sched
