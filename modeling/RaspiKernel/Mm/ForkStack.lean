import RaspiKernel.Lib.ByteMem
import RaspiKernel.Mm.Fork

/-!
# `sys_fork` and the kernel stacks

Model of all of `sys_fork` (`syscall.c`, lines 91–143), of which `Sched.sysFork` and
`forkSpace` are parts. A task is copied with its kernel stack, and the trap frame of
the child is found in the copy by the distance between the two stacks.

* The distance is stored in 32 bits. Where the child's stack comes first, the
  trap frame ends up 4 GiB behind it, where `setup_page_table` maps nothing.
* `find_empty_task` returns `NR_TASKS` if the pool is full, and nothing looks at
  that: the element behind `task_pool` and the stack behind `kstack_pool` are
  written. They are a part of the state here; what the linker has put there is not.
* Of `struct task_struct` the fields that `sys_fork` only copies are a parameter.

Results:
* `fork_context_iff`: when the child can return from the kernel as its parent does.
* `fork_clean_iff`: when a fork fails cleanly or writes only what is its own.
-/

namespace RaspiKernel.Mm

open Lib (Mem load store copy)
open Memblock (kernelVaddrBase)

/-! ## Model -/

/-- `KSTACK_SIZE`. -/
abbrev kstackSize : ℕ := 4096

/-- `sizeof(struct trapframe)`: `x[31]`, `sp`, `pstate` and `pc`. -/
abbrev trapframeSize : ℕ := 34 * 8

/-- Where the linker puts `kstack_pool`: in the kernel image, which is in RAM. -/
structure KernelImage where
  kstackPool : ℕ
  aligned : 16 ∣ kstackPool
  base_le : kernelVaddrBase ≤ kstackPool
  stop_le : kstackPool + Sched.nrTasks * kstackSize ≤ kernelVaddrBase + peripheralBase

/-- `kstack_pool[id]`. -/
def KernelImage.kstackAt (im : KernelImage) (id : ℕ) : ℕ := im.kstackPool + id * kstackSize

/-- `struct task_struct`, with the fields that `sys_fork` only copies in `rest`. -/
structure TaskStruct (R : Type) where
  task : Sched.Task
  mm : UserMm
  /-- `tss.sp`. -/
  sp : ℕ
  rest : R

/-- The machine with the kernel stacks: `kstack` is the memory of the kernel image. -/
structure KernelTasks (R : Type) where
  machine : Machine
  sp : Sched.Slot → ℕ
  rest : Sched.Slot → R
  /-- The memory behind `task_pool`, as one more element. -/
  behind : TaskStruct R
  kstack : Mem

/-- How a system call ends. -/
inductive Outcome (R : Type) where
  | returned (ret : Sched.SyscallReturn) (σ : KernelTasks R)
  /-- The kernel stores to an address that is not mapped, and `exc_handler` prints the registers and
      loops for ever. -/
  | fault (a : ℕ) (σ : KernelTasks R)

/-- The state it ends in. -/
def Outcome.state {R : Type} : Outcome R → KernelTasks R
  | .returned _ σ => σ
  | .fault _ σ => σ

section

variable {R : Type}

/-- The slot of `current`. -/
abbrev KernelTasks.cur (σ : KernelTasks R) : Sched.Slot := σ.machine.cur

/-- `task_pool[id]`, where `id` may be `NR_TASKS`. -/
def KernelTasks.element (σ : KernelTasks R) (id : ℕ) : TaskStruct R :=
  if h : id < Sched.nrTasks then
    ⟨σ.machine.sched.pool ⟨id, h⟩, σ.machine.mm ⟨id, h⟩, σ.sp ⟨id, h⟩, σ.rest ⟨id, h⟩⟩
  else σ.behind

/-- `task_pool[id] = t`. -/
def KernelTasks.setElement (σ : KernelTasks R) (id : ℕ) (t : TaskStruct R) : KernelTasks R :=
  if h : id < Sched.nrTasks then
    { σ with
      machine := { σ.machine.setMm ⟨id, h⟩ t.mm with sched := σ.machine.sched.set ⟨id, h⟩ t.task }
      sp := Function.update σ.sp ⟨id, h⟩ t.sp
      rest := Function.update σ.rest ⟨id, h⟩ t.rest }
  else { σ with behind := t }

/-- The task that `current` points to. -/
def KernelTasks.curTask (σ : KernelTasks R) : TaskStruct R := σ.element σ.cur

/-- `find_empty_task` (`sched.c`, lines 72–81) and the number it returns. -/
def KernelTasks.findEmptyTask (σ : KernelTasks R) : ℕ × KernelTasks R :=
  let (slot, sched) := Sched.findEmptyTask σ.machine.sched
  (slot.elim Sched.nrTasks Fin.val, { σ with machine := { σ.machine with sched := sched } })

/-- `kstack_pool[id] - kstack_pool[id']` as `unsigned int`. -/
def KernelImage.kstackOffset (im : KernelImage) (id id' : ℕ) : ℕ :=
  (((im.kstackAt id : ℤ) - im.kstackAt id') % 2 ^ 32).toNat

/-- The new element of `task_pool` with its `tss.sp` (lines 102–109 and 114–116). -/
def KernelTasks.copyTask (im : KernelImage) (σ : KernelTasks R) (id trapframe : ℕ) : KernelTasks R :=
  let cur := σ.curTask
  let task := { cur.task with taskId := id, counter := cur.task.priority, lr := .exitKernel }
  let offset := im.kstackOffset id cur.task.taskId
  σ.setElement id { cur with task := task, sp := (trapframe + offset) % 2 ^ 64 }

/-- `memcpy(kstack_pool[id], kstack_pool[current->task_id], KSTACK_SIZE)`. -/
def KernelTasks.copyKstack (im : KernelImage) (σ : KernelTasks R) (id : ℕ) : KernelTasks R :=
  let src := im.kstackAt σ.curTask.task.taskId
  { σ with kstack := copy σ.kstack (im.kstackAt id) (fun i => σ.kstack (src + i)) kstackSize }

/-- The address space of the child (lines 118–137). -/
def KernelTasks.copySpace (km : Kmalloc) (σ : KernelTasks R) (id : ℕ) : KernelTasks R :=
  let (mm, machine) := forkSpace km σ.machine σ.curTask.mm
  { σ with machine := machine }.setElement id { σ.element id with mm := mm }

/-- `setup_page_table` (`mm.c`, lines 381–409) maps the first 2 GiB of the kernel's half. -/
def KernelMapped (a : ℕ) : Prop := kernelVaddrBase ≤ a ∧ a + 8 ≤ kernelVaddrBase + 2 ^ 31

instance (a : ℕ) : Decidable (KernelMapped a) := inferInstanceAs (Decidable (_ ∧ _))

/-- `trapframe->x[0] = v`, and then `next`. -/
def KernelTasks.storeX0 (σ : KernelTasks R) (trapframe v : ℕ) (next : KernelTasks R → Outcome R) :
    Outcome R :=
  if KernelMapped trapframe then next { σ with kstack := store σ.kstack trapframe v 8 }
  else .fault trapframe σ

/-- `sys_fork` before its stores to the trap frames (lines 102–137). -/
def KernelTasks.forkTask (im : KernelImage) (km : Kmalloc) (σ : KernelTasks R) (id trapframe : ℕ) :
    KernelTasks R :=
  ((σ.copyTask im id trapframe).copyKstack im id).copySpace km id

/-- `sys_fork` (lines 91–143). -/
def KernelTasks.sysFork (im : KernelImage) (km : Kmalloc) (σ : KernelTasks R) (trapframe : ℕ) :
    Outcome R :=
  let (id, σ) := σ.findEmptyTask
  let σ := σ.forkTask im km id trapframe
  σ.storeX0 (σ.element id).sp 0 fun σ => σ.storeX0 trapframe id fun σ => .returned .success σ

/-- The trap frame is in the kernel stack of a task. -/
def KernelImage.InKstack (im : KernelImage) (id trapframe : ℕ) : Prop :=
  im.kstackAt id ≤ trapframe ∧ trapframe + trapframeSize ≤ im.kstackAt id + kstackSize

/-- The words of a trap frame. -/
def trapframeWords (m : Mem) (trapframe : ℕ) : List ℕ :=
  (List.range 34).map fun i => load m (trapframe + 8 * i) 8

/-! ## The state before the stores -/

variable {σ : KernelTasks R} {im : KernelImage} {km : Kmalloc} {id j tf : ℕ} {t : TaskStruct R}

@[simp] theorem setElement_cur : (σ.setElement id t).cur = σ.cur := by
  unfold KernelTasks.setElement
  split <;> rfl

@[simp] theorem setElement_kstack : (σ.setElement id t).kstack = σ.kstack := by
  unfold KernelTasks.setElement
  split <;> rfl

@[simp] theorem setElement_blocks : (σ.setElement id t).machine.blocks = σ.machine.blocks := by
  unfold KernelTasks.setElement
  split <;> rfl

@[simp] theorem element_setElement : (σ.setElement id t).element id = t := by
  unfold KernelTasks.setElement KernelTasks.element
  split
  · simp [Sched.State.set]
  · rfl

theorem element_setElement_of_ne (hj : j < Sched.nrTasks) (hne : j ≠ id) :
    (σ.setElement id t).element j = σ.element j := by
  unfold KernelTasks.setElement
  split
  next h =>
    have hslot : (⟨j, hj⟩ : Sched.Slot) ≠ ⟨id, h⟩ := fun heq => hne (congrArg Fin.val heq)
    unfold KernelTasks.element
    rw [dif_pos hj, dif_pos hj]
    simp [Sched.State.set, Machine.setMm, Function.update_of_ne hslot]
  next h =>
    unfold KernelTasks.element
    rw [dif_pos hj, dif_pos hj]

/-- A new address space leaves the tasks alone. -/
theorem forkSpace_tasks (km : Kmalloc) (m : Machine) (cur : UserMm) :
    (forkSpace km m cur).2.sched = m.sched ∧ (forkSpace km m cur).2.mm = m.mm := by
  obtain ⟨hsched, hmm, -⟩ := forkProg_eq km m cur
  rw [forkSpace_eq]
  exact ⟨hsched, hmm⟩

theorem forkSpace_blocks (km : Kmalloc) (m : Machine) (cur : UserMm) :
    (forkSpace km m cur).2.blocks.length = m.blocks.length + 3 := by
  obtain ⟨-, -, -, hblocks, -⟩ := forkProg_eq km m cur
  rw [forkSpace_eq]
  show (forkProg km m cur).blocks.length = _
  rw [hblocks]
  simp

/-- The element of a task depends on the tasks only. -/
theorem element_congr {m : Machine} (hpool : m.sched.pool = σ.machine.sched.pool)
    (hmm : m.mm = σ.machine.mm) : ({ σ with machine := m } : KernelTasks R).element j = σ.element j := by
  unfold KernelTasks.element
  dsimp only
  rw [hpool, hmm]

theorem findEmptyTask_eq (σ : KernelTasks R) : σ.findEmptyTask.2.cur = σ.cur ∧
    σ.findEmptyTask.2.kstack = σ.kstack ∧ σ.findEmptyTask.2.machine.blocks = σ.machine.blocks ∧
    ∀ j, σ.findEmptyTask.2.element j = σ.element j := by
  have hsched : (Sched.findEmptyTask σ.machine.sched).2.pool = σ.machine.sched.pool ∧
      (Sched.findEmptyTask σ.machine.sched).2.current = σ.machine.sched.current := by
    unfold Sched.findEmptyTask
    split <;> exact ⟨rfl, rfl⟩
  exact ⟨hsched.2, rfl, rfl, fun j => element_congr hsched.1 rfl⟩

/-- What `sys_fork` has done before it stores to the trap frames. -/
structure TaskCopied (im : KernelImage) (σ σ' : KernelTasks R) (id tf : ℕ) : Prop where
  sp : (σ'.element id).sp = (tf + im.kstackOffset id σ.curTask.task.taskId) % 2 ^ 64
  others : ∀ j < Sched.nrTasks, j ≠ id → σ'.element j = σ.element j
  kstack : σ'.kstack = copy σ.kstack (im.kstackAt id)
    (fun i => σ.kstack (im.kstackAt σ.curTask.task.taskId + i)) kstackSize
  blocks : σ'.machine.blocks.length = σ.machine.blocks.length + 3

theorem copySpace_eq (km : Kmalloc) (σ : KernelTasks R) (id : ℕ) :
    (σ.copySpace km id).kstack = σ.kstack ∧
    (σ.copySpace km id).machine.blocks.length = σ.machine.blocks.length + 3 ∧
    ((σ.copySpace km id).element id).sp = (σ.element id).sp ∧
    ∀ j < Sched.nrTasks, j ≠ id → (σ.copySpace km id).element j = σ.element j := by
  obtain ⟨hsched, hmm⟩ := forkSpace_tasks km σ.machine σ.curTask.mm
  have hblocks := forkSpace_blocks km σ.machine σ.curTask.mm
  unfold KernelTasks.copySpace
  refine ⟨setElement_kstack, ?_, by rw [element_setElement], fun j hj hne => ?_⟩
  · rw [setElement_blocks]
    exact hblocks
  · rw [element_setElement_of_ne hj hne]
    exact element_congr (congrArg Sched.State.pool hsched) hmm

theorem copyTask_curTask (im : KernelImage) (tf : ℕ) (hcur : (σ.cur : ℕ) ≠ id) :
    (σ.copyTask im id tf).curTask = σ.curTask := by
  unfold KernelTasks.curTask KernelTasks.copyTask
  rw [setElement_cur]
  exact element_setElement_of_ne σ.cur.isLt hcur

theorem forkTask_copied (im : KernelImage) (km : Kmalloc) (tf : ℕ) (hcur : (σ.cur : ℕ) ≠ id) :
    TaskCopied im σ (σ.forkTask im km id tf) id tf := by
  obtain ⟨hkstack, hblocks, hsp, hothers⟩ :=
    copySpace_eq km ((σ.copyTask im id tf).copyKstack im id) id
  have helem : ∀ j, ((σ.copyTask im id tf).copyKstack im id).element j =
      (σ.copyTask im id tf).element j := fun _ => rfl
  refine ⟨?_, fun j hj hne => ?_, ?_, ?_⟩
  · unfold KernelTasks.forkTask
    rw [hsp, helem, KernelTasks.copyTask, element_setElement]
  · unfold KernelTasks.forkTask
    rw [hothers j hj hne, helem, KernelTasks.copyTask, element_setElement_of_ne hj hne]
  · unfold KernelTasks.forkTask
    rw [hkstack, KernelTasks.copyKstack, copyTask_curTask im tf hcur]
    unfold KernelTasks.copyTask
    rw [setElement_kstack]
  · unfold KernelTasks.forkTask
    rw [hblocks]
    unfold KernelTasks.copyKstack KernelTasks.copyTask
    rw [setElement_blocks]

theorem sysFork_eq (im : KernelImage) (km : Kmalloc) (σ : KernelTasks R) (tf : ℕ) : σ.sysFork im km tf =
    (σ.findEmptyTask.2.forkTask im km σ.findEmptyTask.1 tf).storeX0
      ((σ.findEmptyTask.2.forkTask im km σ.findEmptyTask.1 tf).element σ.findEmptyTask.1).sp 0 fun σ₁ =>
        σ₁.storeX0 tf σ.findEmptyTask.1 fun σ₂ => .returned .success σ₂ := rfl

/-- The state before the stores, seen from the call. -/
theorem sysFork_copied (im : KernelImage) (km : Kmalloc) (tf : ℕ)
    (hcur : (σ.cur : ℕ) ≠ σ.findEmptyTask.1) :
    ∃ σ', TaskCopied im σ σ' σ.findEmptyTask.1 tf ∧ σ.sysFork im km tf =
      σ'.storeX0 (σ'.element σ.findEmptyTask.1).sp 0 fun σ₁ =>
        σ₁.storeX0 tf σ.findEmptyTask.1 fun σ₂ => .returned .success σ₂ := by
  obtain ⟨hcur₁, hkstack, hblocks, helem⟩ := findEmptyTask_eq σ
  have h := forkTask_copied (σ := σ.findEmptyTask.2) im km tf (by rwa [hcur₁])
  have hcurTask : σ.findEmptyTask.2.curTask = σ.curTask := by
    unfold KernelTasks.curTask
    rw [hcur₁, helem]
  refine ⟨_, ⟨?_, fun j hj hne => ?_, ?_, ?_⟩, sysFork_eq im km σ tf⟩
  · rw [h.sp, hcurTask]
  · rw [h.others j hj hne, helem]
  · rw [h.kstack, hcurTask, hkstack]
  · rw [h.blocks, hblocks]

theorem kstackOffset_of_lt (im : KernelImage) {id id' : ℕ} (h : id' < id) (hid : id ≤ 16) :
    im.kstackOffset id id' = (id - id') * 4096 := by
  unfold KernelImage.kstackOffset KernelImage.kstackAt kstackSize
  omega

/-- If the stack comes first, the distance is negative and wraps. -/
theorem kstackOffset_of_gt (im : KernelImage) {id id' : ℕ} (h : id < id') (hid : id' ≤ 16) :
    im.kstackOffset id id' = 2 ^ 32 - (id' - id) * 4096 := by
  unfold KernelImage.kstackOffset KernelImage.kstackAt kstackSize
  omega

theorem getElem_trapframeWords {m : Mem} {i : ℕ} (h : i < (trapframeWords m tf).length) :
    (trapframeWords m tf)[i] = load m (tf + 8 * i) 8 := by
  simp [trapframeWords]

/-- The trap frame of the child after the two stores. -/
theorem trapframeWords_stores {m m₀ : Mem} {sp v : ℕ} (hapart : tf + trapframeSize ≤ sp)
    (hcopied : ∀ i < trapframeSize, m (sp + i) = m₀ (tf + i)) :
    trapframeWords (store (store m sp 0 8) tf v 8) sp = (trapframeWords m₀ tf).set 0 0 := by
  have hlen : ∀ (m : Mem) tf, (trapframeWords m tf).length = 34 := by simp [trapframeWords]
  have hsize : trapframeSize = 272 := rfl
  apply List.ext_getElem (by rw [List.length_set, hlen, hlen])
  intro i hi hi'
  rw [hlen] at hi
  rw [List.getElem_set, getElem_trapframeWords, Lib.load_store_of_disjoint (by omega)]
  split_ifs with h0
  · rw [← h0, mul_zero, add_zero, Lib.load_store (by norm_num)]
  · rw [getElem_trapframeWords, Lib.load_store_of_disjoint (by omega)]
    refine Lib.load_shift fun j hj => ?_
    rw [add_assoc, add_assoc]
    exact hcopied _ (by omega)

/-! ## The two ends of a fork -/

theorem findEmptyTask_of_some {child : Sched.Slot}
    (h : (Sched.findEmptyTask σ.machine.sched).1 = some child) : σ.findEmptyTask.1 = child := by
  show Option.elim (Sched.findEmptyTask σ.machine.sched).1 _ _ = _
  rw [h]
  rfl

theorem findEmptyTask_of_none (h : (Sched.findEmptyTask σ.machine.sched).1 = none) :
    σ.findEmptyTask.1 = Sched.nrTasks := by
  show Option.elim (Sched.findEmptyTask σ.machine.sched).1 _ _ = _
  rw [h]
  rfl

theorem findEmptyTask_le (σ : KernelTasks R) : σ.findEmptyTask.1 ≤ Sched.nrTasks := by
  cases h : (Sched.findEmptyTask σ.machine.sched).1 with
  | none => exact (findEmptyTask_of_none h).le
  | some child =>
    rw [findEmptyTask_of_some h]
    exact child.isLt.le

/-- The parts of the invariant of the tasks that a fork relies on. -/
theorem curTask_taskId (h : Sched.Inv σ.machine.sched) : σ.curTask.task.taskId = σ.cur := by
  have hcur : σ.curTask.task = σ.machine.sched.pool σ.cur := by
    unfold KernelTasks.curTask KernelTasks.element
    rw [dif_pos σ.cur.isLt]
  rw [hcur]
  exact (h.pool σ.cur).taskId_eq

theorem InKstack.bounds (h : im.InKstack id tf) (hid : id < Sched.nrTasks) :
    kernelVaddrBase ≤ tf ∧ tf + trapframeSize ≤ kernelVaddrBase + peripheralBase := by
  obtain ⟨h1, h2⟩ := h
  have hbase := im.base_le
  have hstop := im.stop_le
  unfold KernelImage.kstackAt Sched.nrTasks kstackSize at *
  omega

/-- The child's slot is behind that of the parent, or there is none: both stores are made. -/
theorem sysFork_forward (km : Kmalloc) (hinv : Sched.Inv σ.machine.sched) (htf : im.InKstack σ.cur tf)
    (hlt : σ.cur < σ.findEmptyTask.1) :
    ∃ σ', TaskCopied im σ σ' σ.findEmptyTask.1 tf ∧
      (σ'.element σ.findEmptyTask.1).sp =
        im.kstackAt σ.findEmptyTask.1 + (tf - im.kstackAt σ.cur) ∧
      σ.sysFork im km tf = .returned .success { σ' with
        kstack := store (store σ'.kstack (σ'.element σ.findEmptyTask.1).sp 0 8) tf
          σ.findEmptyTask.1 8 } := by
  have hle := findEmptyTask_le σ
  obtain ⟨h1, h2⟩ := InKstack.bounds htf σ.cur.isLt
  obtain ⟨σ', hσ', heq⟩ := sysFork_copied im km tf hlt.ne
  have hsp := hσ'.sp
  rw [curTask_taskId hinv, kstackOffset_of_lt im hlt hle] at hsp
  obtain ⟨h3, -⟩ := htf
  have hsize : trapframeSize = 272 := rfl
  unfold Sched.nrTasks at hle
  unfold kernelVaddrBase at h1
  unfold kernelVaddrBase peripheralBase at h2
  have hsp' : (σ'.element σ.findEmptyTask.1).sp =
      im.kstackAt σ.findEmptyTask.1 + (tf - im.kstackAt σ.cur) := by
    unfold KernelImage.kstackAt kstackSize at *
    omega
  refine ⟨σ', hσ', hsp', ?_⟩
  have hchild : KernelMapped (σ'.element σ.findEmptyTask.1).sp := by
    unfold KernelMapped kernelVaddrBase
    rw [hsp']
    unfold KernelImage.kstackAt kstackSize at *
    omega
  have hparent : KernelMapped tf := by
    unfold KernelMapped kernelVaddrBase
    omega
  rw [heq, KernelTasks.storeX0, if_pos hchild, KernelTasks.storeX0, if_pos hparent]

/-- The child's slot comes first: the store to its trap frame is not mapped. -/
theorem sysFork_backward (km : Kmalloc) (hinv : Sched.Inv σ.machine.sched) (htf : im.InKstack σ.cur tf)
    (hlt : σ.findEmptyTask.1 < σ.cur) :
    ∃ σ', TaskCopied im σ σ' σ.findEmptyTask.1 tf ∧
      (σ'.element σ.findEmptyTask.1).sp =
        im.kstackAt σ.findEmptyTask.1 + (tf - im.kstackAt σ.cur) + 2 ^ 32 ∧
      σ.sysFork im km tf = .fault (σ'.element σ.findEmptyTask.1).sp σ' := by
  obtain ⟨h1, h2⟩ := InKstack.bounds htf σ.cur.isLt
  obtain ⟨σ', hσ', heq⟩ := sysFork_copied im km tf hlt.ne'
  have hsp := hσ'.sp
  rw [curTask_taskId hinv, kstackOffset_of_gt im hlt σ.cur.isLt.le] at hsp
  obtain ⟨h3, -⟩ := htf
  have hcur := σ.cur.isLt
  have hsize : trapframeSize = 272 := rfl
  unfold Sched.nrTasks at hcur
  unfold kernelVaddrBase at h1
  unfold kernelVaddrBase peripheralBase at h2
  have hsp' : (σ'.element σ.findEmptyTask.1).sp =
      im.kstackAt σ.findEmptyTask.1 + (tf - im.kstackAt σ.cur) + 2 ^ 32 := by
    unfold KernelImage.kstackAt kstackSize at *
    omega
  refine ⟨σ', hσ', hsp', ?_⟩
  have hchild : ¬ KernelMapped (σ'.element σ.findEmptyTask.1).sp := by
    unfold KernelMapped kernelVaddrBase
    omega
  rw [heq, KernelTasks.storeX0, if_neg hchild]

/-! ## The machine and the scheduler -/

theorem createPgd_withSched (m : Machine) (s : Sched.State) :
    ({ m with sched := s } : Machine).createPgd km =
      ((m.createPgd km).1, { (m.createPgd km).2 with sched := s }) := rfl

theorem kmalloc_withSched (m : Machine) (s : Sched.State) (size : ℕ) :
    ({ m with sched := s } : Machine).kmalloc km size =
      ((m.kmalloc km size).1, { (m.kmalloc km size).2 with sched := s }) := rfl

theorem memcpy_withSched (m : Machine) (s : Sched.State) (dest src n : ℕ) :
    ({ m with sched := s } : Machine).memcpy dest src n = { m.memcpy dest src n with sched := s } := rfl

theorem mapAll_withSched (m : Machine) (s : Sched.State) (new : List MapCall) :
    ({ m with sched := s } : Machine).mapAll km new = { m.mapAll km new with sched := s } := rfl

/-- The address space does not depend on the tasks. -/
theorem forkSpace_withSched (m : Machine) (s : Sched.State) (cur : UserMm) :
    forkSpace km { m with sched := s } cur =
      ((forkSpace km m cur).1, { (forkSpace km m cur).2 with sched := s }) := by
  simp -implicitDefEqProofs only [forkSpace_eq, forkProg, forkStack, createPgd_withSched,
    kmalloc_withSched, memcpy_withSched, mapAll_withSched]

theorem forkSpace_setMm (m : Machine) (child : Sched.Slot) (mm cur : UserMm) :
    forkSpace km (m.setMm child mm) cur =
      ((forkSpace km m cur).1, (forkSpace km m cur).2.setMm child mm) := by
  simp -implicitDefEqProofs only [forkSpace_eq, forkProg, forkStack, createPgd_setMm, kmalloc_setMm,
    memcpy_setMm, mapAll_setMm, setMm_pt]

/-- A fork of the address space does not depend on the other tasks. -/
theorem forkInto_withSched (m : Machine) {s : Sched.State} (hcur : s.current = m.cur)
    (child : Sched.Slot) : forkInto km { m with sched := s } child =
      { forkInto km m child with sched := s } := by
  have hmm : ({ m with sched := s } : Machine).mm ({ m with sched := s } : Machine).cur = m.mm m.cur :=
    congrArg m.mm hcur
  rw [forkInto_eq, hmm, forkSpace_withSched, forkInto_eq]
  generalize forkSpace km m (m.mm m.cur) = p
  rfl

theorem storeX0_machine {m : Machine} {a v : ℕ} {next : KernelTasks R → Outcome R}
    (hσ : σ.machine = m) (hnext : ∀ σ₁ : KernelTasks R, σ₁.machine = m → (next σ₁).state.machine = m) :
    (σ.storeX0 a v next).state.machine = m := by
  unfold KernelTasks.storeX0
  split_ifs
  · exact hnext _ hσ
  · exact hσ

theorem element_slot (σ : KernelTasks R) (i : Sched.Slot) :
    σ.element i = ⟨σ.machine.sched.pool i, σ.machine.mm i, σ.sp i, σ.rest i⟩ := dif_pos i.isLt

theorem setElement_machine (σ : KernelTasks R) (i : Sched.Slot) (t : TaskStruct R) :
    (σ.setElement i t).machine =
      { σ.machine.setMm i t.mm with sched := σ.machine.sched.set i t.task } := by
  unfold KernelTasks.setElement
  rw [dif_pos i.isLt]

/-- What `sys_fork` writes to the task of the child. -/
theorem copyTask_sched {child : Sched.Slot} (im : KernelImage) (σ : KernelTasks R) (tf : ℕ) :
    (σ.copyTask im child tf).machine.sched = σ.machine.sched.set child { σ.machine.sched.cur with
      taskId := child, counter := σ.machine.sched.cur.priority, lr := .exitKernel } := by
  unfold KernelTasks.copyTask KernelTasks.curTask
  rw [setElement_machine, element_slot]
  rfl

theorem copySpace_machine (km : Kmalloc) (σ : KernelTasks R) (child : Sched.Slot) :
    (σ.copySpace km child).machine = { (forkSpace km σ.machine σ.curTask.mm).2.setMm child
      (forkSpace km σ.machine σ.curTask.mm).1 with sched := σ.machine.sched } := by
  have hspace : σ.copySpace km child =
      ({ σ with machine := (forkSpace km σ.machine σ.curTask.mm).2 } : KernelTasks R).setElement child
        { σ.element child with mm := (forkSpace km σ.machine σ.curTask.mm).1 } := rfl
  have hset : σ.machine.sched.set child (σ.machine.sched.pool child) = σ.machine.sched := by
    unfold Sched.State.set
    rw [Function.update_eq_self]
  rw [hspace, setElement_machine, element_slot]
  dsimp only
  rw [(forkSpace_tasks km σ.machine σ.curTask.mm).1, hset]

theorem forkTask_machine {child : Sched.Slot} (im : KernelImage) (km : Kmalloc) (σ : KernelTasks R)
    (tf : ℕ) (hne : child ≠ σ.cur) : (σ.forkTask im km child tf).machine =
      { forkInto km σ.machine child with sched := (σ.copyTask im child tf).machine.sched } := by
  have hcur : (σ.cur : ℕ) ≠ child := fun heq => hne (Fin.ext heq.symm)
  have hmm : (σ.copyTask im child tf).curTask.mm = σ.machine.mm σ.cur := by
    rw [copyTask_curTask im tf hcur, KernelTasks.curTask, element_slot]
  have hmachine : (σ.copyTask im child tf).machine = { σ.machine.setMm child (σ.machine.mm σ.cur) with
      sched := (σ.copyTask im child tf).machine.sched } := by
    rw [copyTask_sched]
    unfold KernelTasks.copyTask KernelTasks.curTask
    rw [setElement_machine, element_slot]
    rfl
  have hspace : forkSpace km (σ.copyTask im child tf).machine (σ.machine.mm σ.cur) =
      ((forkSpace km σ.machine (σ.machine.mm σ.cur)).1,
        { (forkSpace km σ.machine (σ.machine.mm σ.cur)).2.setMm child (σ.machine.mm σ.cur) with
          sched := (σ.copyTask im child tf).machine.sched }) := by
    conv_lhs => rw [hmachine]
    rw [forkSpace_withSched, forkSpace_setMm]
  have h := copySpace_machine km ((σ.copyTask im child tf).copyKstack im child) child
  have hkeeps : ((σ.copyTask im child tf).copyKstack im child).machine =
        (σ.copyTask im child tf).machine ∧
      ((σ.copyTask im child tf).copyKstack im child).curTask = (σ.copyTask im child tf).curTask :=
    ⟨rfl, rfl⟩
  rw [hkeeps.1, hkeeps.2, hmm, hspace] at h
  rw [forkInto_eq, KernelTasks.forkTask, h]
  generalize forkSpace km σ.machine (σ.machine.mm σ.cur) = p
  unfold Machine.setMm
  dsimp only
  rw [Function.update_idem]

/-- The fork as the models of the address spaces and of the scheduler have it. -/
theorem sysFork_machine {child : Sched.Slot} (im : KernelImage) (km : Kmalloc) (tf : ℕ)
    (hfind : (Sched.findEmptyTask σ.machine.sched).1 = some child) (hne : child ≠ σ.cur) :
    σ.machine.sysFork km = .ok (σ.sysFork im km tf).state.machine := by
  have hid := findEmptyTask_of_some hfind
  have hstate : (σ.sysFork im km tf).state.machine =
      (σ.findEmptyTask.2.forkTask im km child tf).machine := by
    rw [sysFork_eq, hid]
    exact storeX0_machine rfl fun σ₁ h₁ => storeX0_machine h₁ fun σ₂ h₂ => h₂
  have hsched : Sched.sysFork σ.machine.sched =
      .ok (σ.findEmptyTask.2.copyTask im child tf).machine.sched := by
    rw [copyTask_sched]
    obtain ⟨s, hs⟩ : ∃ s, Sched.findEmptyTask σ.machine.sched = (some child, s) :=
      ⟨_, Prod.ext hfind rfl⟩
    unfold Sched.sysFork KernelTasks.findEmptyTask
    rw [hs]
  have hinto : forkInto km σ.findEmptyTask.2.machine child = { forkInto km σ.machine child with
      sched := σ.findEmptyTask.2.machine.sched } :=
    forkInto_withSched σ.machine (findEmptyTask_eq σ).1 child
  rw [hstate, forkTask_machine im km _ tf (by rwa [(findEmptyTask_eq σ).1]), hinto]
  unfold Machine.sysFork
  rw [hsched]
  obtain ⟨s, hs⟩ : ∃ s, Sched.findEmptyTask σ.machine.sched = (some child, s) :=
    ⟨_, Prod.ext hfind rfl⟩
  rw [hs]
  dsimp only
  generalize forkInto km σ.machine child = m
  rfl

/-! ## Runs -/

/-- Runs of the kernel. A fork with a free slot is made with a trap frame in the kernel stack of the
    current task, where the exception handler puts it; the other calls of the scheduler are as in its
    own runs; and in between anything else may change: memory, stacks and the rest of the tasks. -/
inductive ForkRun (im : KernelImage) (km : Kmalloc) (fuel : ℕ) : KernelTasks R → Prop
  | boot {σ : KernelTasks R} (h : σ.machine.sched = Sched.taskInit) : ForkRun im km fuel σ
  | fork {σ σ' : KernelTasks R} {tf : ℕ} {ret : Sched.SyscallReturn} (h : ForkRun im km fuel σ)
      (hen : Sched.Op.fork.Enabled σ.machine.sched) (htf : im.InKstack σ.cur tf)
      (hfork : σ.sysFork im km tf = .returned ret σ') : ForkRun im km fuel σ'
  | sched {σ : KernelTasks R} {op : Sched.Op} {s : Sched.State} (h : ForkRun im km fuel σ)
      (hop : op ≠ .fork) (hen : op.Enabled σ.machine.sched)
      (hstep : Sched.step fuel σ.machine.sched op = .ok s) :
      ForkRun im km fuel { σ with machine := { σ.machine with sched := s } }
  | work {σ σ' : KernelTasks R} (h : ForkRun im km fuel σ)
      (hsched : σ'.machine.sched = σ.machine.sched) : ForkRun im km fuel σ'

variable {fuel : ℕ}

/-- The scheduler of a fork with a free slot. -/
theorem sysFork_sched (hinv : Sched.Inv σ.machine.sched) (hen : Sched.Op.fork.Enabled σ.machine.sched)
    (im : KernelImage) (km : Kmalloc) (tf : ℕ) :
    Sched.sysFork σ.machine.sched = .ok (σ.sysFork im km tf).state.machine.sched := by
  obtain ⟨child, -, hfind⟩ := Sched.findEmptyTask_spec hen
  have hsome : (Sched.findEmptyTask σ.machine.sched).1 = some child := by rw [hfind]
  obtain ⟨hne, -⟩ := Sched.findEmptyTask_ne hinv hsome
  obtain ⟨child', s, -, hs, hσ'⟩ := sysFork_eq_ok (sysFork_machine im km tf hsome hne)
  rw [hs, hσ']

/-- The tasks go through a run of the scheduler. -/
theorem ForkRun.reachable (h : ForkRun im km (fuel + 2) σ) :
    Sched.Reachable (fuel + 2) σ.machine.sched := by
  induction h with
  | boot h =>
    rw [h]
    exact .init
  | @fork _ _ tf _ _ hen htf hfork ih =>
    have hsched := sysFork_sched ih.inv hen im km tf
    rw [hfork] at hsched
    exact .step ih hen hsched
  | sched _ hop hen hstep ih => exact .step ih hen hstep
  | work _ hsched ih =>
    rw [hsched]
    exact ih

/-! ## The context of the child -/

/-- The child goes on as its parent does: `tss.sp` is in its own kernel stack, where the trap frame of
    the parent is in the other one, and the same trap frame is there but for `x[0]`. -/
def ContextPlaced (im : KernelImage) (σ : KernelTasks R) (tf : ℕ) (child : Sched.Slot) (o : Outcome R) :
    Prop :=
  ∃ ret σ', o = .returned ret σ' ∧ im.InKstack child (σ'.sp child) ∧
    σ'.sp child - im.kstackAt child = tf - im.kstackAt σ.cur ∧
    trapframeWords σ'.kstack (σ'.sp child) = (trapframeWords σ.kstack tf).set 0 0

/-- **The kernel context of the child.** In every state of every run and wherever the trap frame is in
    the kernel stack of the current task: after `sys_fork` the child has its context in its own kernel
    stack exactly if its slot is behind that of its parent. -/
theorem fork_context_iff (h : ForkRun im km (fuel + 2) σ) (htf : im.InKstack σ.cur tf)
    {child : Sched.Slot} (hfind : (Sched.findEmptyTask σ.machine.sched).1 = some child) :
    ContextPlaced im σ tf child (σ.sysFork im km tf) ↔ σ.cur < child := by
  have hinv := h.reachable.inv
  have hid := findEmptyTask_of_some hfind
  obtain ⟨hne, -⟩ := Sched.findEmptyTask_ne hinv hfind
  rcases lt_or_gt_of_ne hne with hlt | hgt
  · refine iff_of_false ?_ hlt.asymm
    rintro ⟨ret, σ₁, heq, -⟩
    obtain ⟨σ', -, -, hfork⟩ := sysFork_backward km hinv htf (by rw [hid]; exact hlt)
    rw [hfork] at heq
    cases heq
  · refine iff_of_true ?_ hgt
    obtain ⟨σ', hσ', hsp, hfork⟩ := sysFork_forward km hinv htf (by rw [hid]; exact hgt)
    rw [hid] at hσ' hsp hfork
    have hspc : (σ'.element child).sp = σ'.sp child := by rw [element_slot]
    rw [hspc] at hsp hfork
    obtain ⟨h1, h2⟩ := htf
    have hcur : (σ.cur : ℕ) + 1 ≤ child := hgt
    have hsize : trapframeSize = 272 := rfl
    have hapart : tf + trapframeSize ≤ σ'.sp child := by
      unfold KernelImage.kstackAt kstackSize at *
      omega
    have hcopied : ∀ i < trapframeSize, σ'.kstack (σ'.sp child + i) = σ.kstack (tf + i) := by
      intro i hi
      rw [hσ'.kstack, curTask_taskId hinv, Lib.copy_of_mem (by omega)]
      congr 1
      omega
    have hstack : im.InKstack child (σ'.sp child) := ⟨by omega, by omega⟩
    have hoffset : σ'.sp child - im.kstackAt child = tf - im.kstackAt σ.cur := by omega
    exact ⟨_, _, hfork, hstack, hoffset, trapframeWords_stores hapart hcopied⟩

/-! ## What a fork writes -/

/-- The call returns an error and leaves tasks, kernel stacks, `num_running_task` and the allocator as
    they are. -/
def FailsCleanly (im : KernelImage) (σ : KernelTasks R) (o : Outcome R) : Prop :=
  ∃ σ', o = .returned .error σ' ∧ (∀ i : Sched.Slot, σ'.element i = σ.element i) ∧
    (∀ a, im.kstackPool ≤ a → a < im.kstackAt Sched.nrTasks → σ'.kstack a = σ.kstack a) ∧
    σ'.machine.sched.numRunningTask = σ.machine.sched.numRunningTask ∧
    σ'.machine.blocks = σ.machine.blocks ∧ σ'.machine.pt.next = σ.machine.pt.next

/-- Of `task_pool` and `kstack_pool` the call writes the slot of the child, which was STOPPED, its
    stack, and `x[0]` of the caller. -/
def WritesOwn (im : KernelImage) (σ : KernelTasks R) (tf : ℕ) (child : Sched.Slot) (o : Outcome R) :
    Prop :=
  (σ.machine.sched.pool child).state = .stopped ∧
    (∀ i : Sched.Slot, i ≠ child → o.state.element i = σ.element i) ∧
    ∀ a, o.state.kstack a ≠ σ.kstack a →
      (im.kstackAt child ≤ a ∧ a < im.kstackAt child + kstackSize) ∨ (tf ≤ a ∧ a < tf + 8)

/-- A full pool makes the call fail, and otherwise it writes what is its own. -/
def CleanFork (im : KernelImage) (σ : KernelTasks R) (tf : ℕ) (o : Outcome R) : Prop :=
  ((∀ i : Sched.Slot, i ≠ 0 → (σ.machine.sched.pool i).state ≠ .stopped) →
      FailsCleanly im σ o) ∧
    ∀ child, (Sched.findEmptyTask σ.machine.sched).1 = some child → WritesOwn im σ tf child o

theorem TaskCopied.writesOwn {σ' : KernelTasks R} {child : Sched.Slot} {o : Outcome R}
    (h : TaskCopied im σ σ' child tf) (hstopped : (σ.machine.sched.pool child).state = .stopped)
    (helem : ∀ i : Sched.Slot, o.state.element i = σ'.element i)
    (hstore : ∀ a, o.state.kstack a ≠ σ'.kstack a →
      (im.kstackAt child ≤ a ∧ a < im.kstackAt child + kstackSize) ∨ (tf ≤ a ∧ a < tf + 8)) :
    WritesOwn im σ tf child o := by
  refine ⟨hstopped, fun i hi => ?_, fun a ha => ?_⟩
  · rw [helem, h.others i i.isLt fun heq => hi (Fin.ext heq)]
  · by_cases hin : im.kstackAt child ≤ a ∧ a < im.kstackAt child + kstackSize
    · exact Or.inl hin
    · apply hstore
      rwa [h.kstack, Lib.copy_of_not_mem hin]

/-- With a free slot, whichever end the fork comes to. -/
theorem sysFork_writesOwn (km : Kmalloc) (hinv : Sched.Inv σ.machine.sched)
    (htf : im.InKstack σ.cur tf) {child : Sched.Slot}
    (hfind : (Sched.findEmptyTask σ.machine.sched).1 = some child) :
    WritesOwn im σ tf child (σ.sysFork im km tf) := by
  have hid := findEmptyTask_of_some hfind
  obtain ⟨hne, hfree⟩ := Sched.findEmptyTask_ne hinv hfind
  have hstopped : (σ.machine.sched.pool child).state = .stopped := by
    obtain ⟨child', hstopped, heq⟩ := Sched.findEmptyTask_spec hfree
    rw [heq] at hfind
    rwa [← Option.some.inj hfind]
  rcases lt_or_gt_of_ne hne with hlt | hgt
  · obtain ⟨σ', hσ', -, hfork⟩ := sysFork_backward km hinv htf (by rw [hid]; exact hlt)
    rw [hid] at hσ' hfork
    rw [hfork]
    exact hσ'.writesOwn hstopped (fun _ => rfl) fun a ha => absurd rfl ha
  · obtain ⟨σ', hσ', hsp, hfork⟩ := sysFork_forward km hinv htf (by rw [hid]; exact hgt)
    rw [hid] at hσ' hsp hfork
    rw [hfork]
    refine hσ'.writesOwn hstopped (fun _ => rfl) fun a ha => ?_
    obtain ⟨h1, h2⟩ := htf
    have hsize : trapframeSize = 272 := rfl
    by_contra hout
    push Not at hout
    refine ha ?_
    show store _ _ _ _ a = _
    rw [Lib.store_of_not_mem (by omega), Lib.store_of_not_mem (by omega)]

/-- **A fork fails cleanly.** In every state of every run and wherever the trap frame is in the kernel
    stack of the current task: a fork fails cleanly where the pool is full, and else writes only what
    is its own, exactly if the pool is not full. -/
theorem fork_clean_iff (h : ForkRun im km (fuel + 2) σ) (htf : im.InKstack σ.cur tf) :
    CleanFork im σ tf (σ.sysFork im km tf) ↔
      ∃ i : Sched.Slot, i ≠ 0 ∧ (σ.machine.sched.pool i).state = .stopped := by
  have hinv := h.reachable.inv
  constructor
  · rintro ⟨hfull, -⟩
    by_contra hnone
    push Not at hnone
    obtain ⟨σ₁, hret, -⟩ := hfull hnone
    have hfind : (Sched.findEmptyTask σ.machine.sched).1 = none := by
      cases hfind : (Sched.findEmptyTask σ.machine.sched).1 with
      | none => rfl
      | some child =>
        obtain ⟨-, i, hi, hstopped⟩ := Sched.findEmptyTask_ne hinv hfind
        exact absurd hstopped (hnone i hi)
    obtain ⟨σ', -, -, hfork⟩ := sysFork_forward km hinv htf
      (by rw [findEmptyTask_of_none hfind]; exact σ.cur.isLt)
    rw [hfork] at hret
    cases hret
  · rintro ⟨i, hi, hstopped⟩
    exact ⟨fun hfull => absurd hstopped (hfull i hi), fun child hfind =>
      sysFork_writesOwn km hinv htf hfind⟩

end

/-! ## Concrete runs -/

/-- The stacks 1 MiB into the RAM. -/
def lowImage : KernelImage where
  kstackPool := 0xffff000000100000
  aligned := by decide
  base_le := by decide
  stop_le := by decide

/-- The trap frame at the top of the kernel stack of a task. -/
def topFrame (id : ℕ) : ℕ := lowImage.kstackAt id + (kstackSize - trapframeSize)

theorem topFrame_inKstack (id : ℕ) : lowImage.InKstack id (topFrame id) := by
  unfold topFrame KernelImage.InKstack
  have hsize : trapframeSize = 272 := rfl
  have hstack : kstackSize = 4096 := rfl
  omega

/-- The kernel after boot. -/
def bootedTasks : KernelTasks Unit where
  machine := ⟨Sched.taskInit, fun _ => ⟨0, 0, 0⟩, ⟨fun _ => 0, 0⟩, [], []⟩
  sp := fun _ => 0
  rest := fun _ => ()
  behind := ⟨Sched.stoppedTask 0, ⟨0, 0, 0⟩, 0, ()⟩
  kstack := fun a => UInt8.ofNat a

/-- Task 0 forks task 1. -/
theorem fork_context_booted : ContextPlaced lowImage bootedTasks (topFrame 0) 1
    (bootedTasks.sysFork lowImage spread (topFrame 0)) := by
  have hrun : ForkRun lowImage spread (0 + 2) bootedTasks := .boot rfl
  have hcur : bootedTasks.cur = 0 := rfl
  have htf : lowImage.InKstack bootedTasks.cur (topFrame 0) := by
    rw [hcur]
    exact topFrame_inKstack 0
  have hfind : (Sched.findEmptyTask bootedTasks.machine.sched).1 = some 1 := by decide
  refine (fork_context_iff hrun htf hfind).mpr ?_
  rw [hcur]
  decide

theorem fork_clean_booted : CleanFork lowImage bootedTasks (topFrame 0)
    (bootedTasks.sysFork lowImage spread (topFrame 0)) := by
  have hrun : ForkRun lowImage spread (0 + 2) bootedTasks := .boot rfl
  have hcur : bootedTasks.cur = 0 := rfl
  have htf : lowImage.InKstack bootedTasks.cur (topFrame 0) := by
    rw [hcur]
    exact topFrame_inKstack 0
  exact (fork_clean_iff hrun htf).mpr ⟨1, by decide, rfl⟩

/-- The tasks after `n` forks of task 0. -/
def forkedTasks (n : ℕ) : Sched.State where
  pool i := if i = 0 then Sched.taskInit.cur else if (i : ℕ) ≤ n then
    { Sched.taskInit.cur with taskId := i, counter := 1, lr := .exitKernel } else Sched.stoppedTask i
  current := 0
  numRunningTask := n + 1

theorem forkedTasks_zero : forkedTasks 0 = Sched.taskInit := by
  have hpool : (forkedTasks 0).pool = Sched.taskInit.pool := by
    funext i
    fin_cases i <;> rfl
  calc forkedTasks 0 = ⟨(forkedTasks 0).pool, 0, 1⟩ := rfl
    _ = Sched.taskInit := by rw [hpool]; rfl

theorem findEmptyTask_forkedTasks {n : ℕ} (h : n < 15) :
    (Sched.findEmptyTask (forkedTasks n)).1 = some (Fin.succ ⟨n, h⟩) := by
  have hall : ∀ n : Fin 15, (Sched.findEmptyTask (forkedTasks n)).1 = some n.succ := by decide
  exact hall ⟨n, h⟩

theorem sysFork_forkedTasks {n : ℕ} (h : n < 15) :
    Sched.sysFork (forkedTasks n) = .ok (forkedTasks (n + 1)) := by
  have hfind := findEmptyTask_forkedTasks h
  have hcount : (Sched.findEmptyTask (forkedTasks n)).2 =
      { forkedTasks n with numRunningTask := (n : ℤ) + 1 + 1 } := by
    unfold Sched.findEmptyTask at hfind ⊢
    split at hfind
    next i hi => rfl
    next hnone => cases hfind
  have heq : Sched.findEmptyTask (forkedTasks n) =
      (some (Fin.succ ⟨n, h⟩), { forkedTasks n with numRunningTask := (n : ℤ) + 1 + 1 }) :=
    Prod.ext hfind hcount
  unfold Sched.sysFork
  rw [heq]
  have hpool : Function.update (forkedTasks n).pool (Fin.succ ⟨n, h⟩)
      { (forkedTasks n).cur with
        taskId := n + 1, counter := (forkedTasks n).cur.priority, lr := .exitKernel } =
      (forkedTasks (n + 1)).pool := by
    funext i
    by_cases hi : i = Fin.succ ⟨n, h⟩
    · subst hi
      rw [Function.update_self]
      unfold forkedTasks
      dsimp only
      rw [if_neg (Fin.succ_ne_zero _), if_pos (by simp)]
      rfl
    · have hval : (i : ℕ) ≠ n + 1 := fun heq => hi (Fin.ext heq)
      rw [Function.update_of_ne hi]
      unfold forkedTasks
      dsimp only
      congr 2
      exact propext (by omega)
  show Except.ok (Sched.State.mk (Function.update _ _ _) _ _) = .ok (.mk (forkedTasks (n + 1)).pool _ _)
  rw [← hpool]
  have hcast : (n : ℤ) + 1 + 1 = ((n + 1 : ℕ) : ℤ) + 1 := by push_cast; ring
  rw [hcast]
  rfl

/-- Task 0 forks `n` times in a row. -/
theorem forkRun_forked {n : ℕ} (h : n ≤ 15) : ∃ σ : KernelTasks Unit,
    ForkRun lowImage spread (0 + 2) σ ∧ σ.machine.sched = forkedTasks n := by
  induction n with
  | zero => exact ⟨bootedTasks, .boot rfl, forkedTasks_zero.symm⟩
  | succ n ih =>
    obtain ⟨σ, hrun, hsched⟩ := ih (by omega)
    have hcur : σ.cur = 0 := by
      show σ.machine.sched.current = 0
      rw [hsched]
      rfl
    have htf : lowImage.InKstack σ.cur (topFrame 0) := by
      rw [hcur]
      exact topFrame_inKstack 0
    have hinv := hrun.reachable.inv
    have hfind : (Sched.findEmptyTask σ.machine.sched).1 = some (Fin.succ ⟨n, by omega⟩) := by
      rw [hsched]
      exact findEmptyTask_forkedTasks (by omega)
    have hen : Sched.Op.fork.Enabled σ.machine.sched := (Sched.findEmptyTask_ne hinv hfind).2
    have hlt : σ.cur < σ.findEmptyTask.1 := by
      rw [findEmptyTask_of_some hfind, hcur]
      exact Nat.succ_pos n
    obtain ⟨σ', -, -, hfork⟩ := sysFork_forward spread hinv htf hlt
    refine ⟨_, .fork hrun hen htf hfork, ?_⟩
    have hs := sysFork_sched hinv hen lowImage spread (topFrame 0)
    rw [hfork, hsched, sysFork_forkedTasks (by omega)] at hs
    exact (Except.ok.inj hs).symm

/-- Task 0 forks tasks 1 and 2, task 2 kills task 1 and forks: the child gets slot 1, `tss.sp` of it is
    4 GiB behind its stack, and the call does not come back. -/
theorem fork_context_lost : ∃ (σ σ' : KernelTasks Unit), ForkRun lowImage spread 2 σ ∧ σ.cur = 2 ∧
    lowImage.InKstack σ.cur (topFrame 2) ∧ (Sched.findEmptyTask σ.machine.sched).1 = some 1 ∧
    σ.sysFork lowImage spread (topFrame 2) = .fault (topFrame 1 + 2 ^ 32) σ' ∧
    σ'.sp 1 = topFrame 1 + 2 ^ 32 ∧ ¬ lowImage.InKstack 1 (σ'.sp 1) ∧
    ¬ ContextPlaced lowImage σ (topFrame 2) 1 (σ.sysFork lowImage spread (topFrame 2)) := by
  obtain ⟨σ, hrun, hsched⟩ := forkRun_forked (n := 2) (by norm_num)
  obtain ⟨s, hs⟩ : ∃ s, Sched.step 2 (forkedTasks 2) .tick = .ok s := ⟨_, rfl⟩
  have htick : Sched.step (0 + 2) σ.machine.sched .tick = .ok s := by rw [hsched]; exact hs
  have hen : Sched.Op.tick.Enabled σ.machine.sched := trivial
  have hrun₁ := hrun.sched (by intro h; cases h) hen htick
  have hkill : Sched.step (0 + 2) s (.kill 1) = .ok (Sched.sysKill s 1).2 := rfl
  have hen₁ : (Sched.Op.kill 1).Enabled s := trivial
  have hrun₂ := hrun₁.sched (by intro h; cases h) hen₁ hkill
  obtain ⟨hcur, hfind⟩ : (Sched.sysKill s 1).2.current = 2 ∧
      (Sched.findEmptyTask (Sched.sysKill s 1).2).1 = some 1 := by
    cases hs
    decide
  generalize hσ₂ : ({ σ with
    machine := { σ.machine with sched := (Sched.sysKill s 1).2 } } : KernelTasks Unit) = σ₂ at hrun₂
  have hsched₂ : σ₂.machine.sched = (Sched.sysKill s 1).2 := by rw [← hσ₂]
  have hcur₂ : σ₂.cur = 2 := by
    show σ₂.machine.sched.current = 2
    rw [hsched₂, hcur]
  rw [← hsched₂] at hfind
  have htf : lowImage.InKstack σ₂.cur (topFrame 2) := by
    rw [hcur₂]
    exact topFrame_inKstack 2
  have hid := findEmptyTask_of_some hfind
  obtain ⟨σ', -, hsp, hfork⟩ := sysFork_backward spread hrun₂.reachable.inv htf
    (by rw [hid, hcur₂]; decide)
  have hspc : (σ'.element (1 : Sched.Slot)).sp = σ'.sp 1 := by rw [element_slot]
  rw [hid, hspc, hcur₂] at hsp
  rw [hid, hspc] at hfork
  have hpos : σ'.sp 1 = topFrame 1 + 2 ^ 32 := by
    have h1 : ((1 : Sched.Slot) : ℕ) = 1 := rfl
    have h2 : ((2 : Sched.Slot) : ℕ) = 2 := rfl
    rw [hsp, h1, h2]
    unfold topFrame
    rw [Nat.add_sub_cancel_left]
  rw [hpos] at hfork
  refine ⟨σ₂, σ', hrun₂, hcur₂, htf, hfind, hfork, hpos, ?_, ?_⟩
  · rw [hpos]
    rintro ⟨-, hle⟩
    have hsize : trapframeSize = 272 := rfl
    have hstack : kstackSize = 4096 := rfl
    unfold topFrame at hle
    omega
  · rintro ⟨ret, σ₁, heq, -⟩
    rw [hfork] at heq
    cases heq

/-- Task 0 forks until the pool is full and once more: the call returns 16 and success, and it has
    taken three blocks. -/
theorem fork_full : ∃ (σ σ' : KernelTasks Unit), ForkRun lowImage spread 2 σ ∧
    (∀ i : Sched.Slot, i ≠ 0 → (σ.machine.sched.pool i).state ≠ .stopped) ∧
    lowImage.InKstack σ.cur (topFrame 0) ∧
    σ.sysFork lowImage spread (topFrame 0) = .returned .success σ' ∧
    load σ'.kstack (topFrame 0) 8 = 16 ∧ σ'.machine.blocks.length = σ.machine.blocks.length + 3 ∧
    ¬ CleanFork lowImage σ (topFrame 0) (σ.sysFork lowImage spread (topFrame 0)) := by
  obtain ⟨σ, hrun, hsched⟩ := forkRun_forked (n := 15) le_rfl
  have hcur : σ.cur = 0 := by
    show σ.machine.sched.current = 0
    rw [hsched]
    rfl
  have htf : lowImage.InKstack σ.cur (topFrame 0) := by
    rw [hcur]
    exact topFrame_inKstack 0
  have hfull : ∀ i : Sched.Slot, i ≠ 0 → (σ.machine.sched.pool i).state ≠ .stopped := by
    rw [hsched]
    decide
  have hnone : (Sched.findEmptyTask σ.machine.sched).1 = none := by
    rw [hsched]
    decide
  have hid := findEmptyTask_of_none hnone
  obtain ⟨σ', hσ', -, hfork⟩ := sysFork_forward spread hrun.reachable.inv htf
    (by rw [hid]; exact σ.cur.isLt)
  refine ⟨σ, _, hrun, hfull, htf, hfork, ?_, hσ'.blocks, ?_⟩
  · rw [hid]
    dsimp only
    rw [Lib.load_store (by norm_num)]
  · rintro ⟨hclean, -⟩
    obtain ⟨σ₁, hret, -⟩ := hclean hfull
    rw [hfork] at hret
    cases hret

end RaspiKernel.Mm
