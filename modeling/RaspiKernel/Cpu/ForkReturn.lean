import RaspiKernel.Cpu.Entry
import RaspiKernel.Cpu.Switch
import RaspiKernel.Mm.ForkStack

/-!
# Both returns of `fork`

From the `svc` of the parent to the first instruction of the child: `sys_fork` on the trapframe that
`save_all` has left, `switch_to` to the child and `exit_kernel` (`exception_.S`, lines 172–175), where
the child starts.

Results:
* `fork_returns_twice`: if the slot of the child is behind that of its parent, the parent goes on with
  the number of the child in `x0`, and the child, whenever it is first switched to, in the context of
  its parent with 0 in `x0`.
-/

namespace RaspiKernel.Cpu

open Lib Lib.A64
open Mm (KernelTasks KernelImage ForkRun Kmalloc trapframeSize kstackSize)

/-- The trapframe in the memory at `a`. -/
def trapframeAt (m : Mem) (a : ℕ) : Trapframe where
  x r := word m (BitVec.ofNat 64 (a + 8 * r))
  sp := word m (BitVec.ofNat 64 (a + 248))
  pstate := word m (BitVec.ofNat 64 (a + 256))
  pc := word m (BitVec.ofNat 64 (a + 264))

/-- The trapframe with a result in `x0`. -/
def Trapframe.withResult (tf : Trapframe) (result : Word) : Trapframe :=
  { tf with x := Function.update tf.x 0 result }

theorem trapframeAt_at (m : Mem) (a : ℕ) : (trapframeAt m a).At m (BitVec.ofNat 64 a) := by
  constructor <;> simp only [← BitVec.ofNat_add, trapframeAt, implies_true]

theorem word_ofNat (m : Mem) {a : ℕ} (h : a < 2 ^ 64) :
    word m (BitVec.ofNat 64 a) = BitVec.ofNat 64 (load m a 8) := by
  unfold word
  rw [BitVec.toNat_ofNat, Nat.mod_eq_of_lt h]

/-- A trapframe that is another one but for its first word. -/
theorem trapframeAt_withResult {m m' : Mem} {a a' v : ℕ} (ha : a + trapframeSize ≤ 2 ^ 64)
    (ha' : a' + trapframeSize ≤ 2 ^ 64) (hv : load m' a' 8 = v)
    (h : ∀ i, 0 < i → i < 34 → load m' (a' + 8 * i) 8 = load m (a + 8 * i) 8) :
    trapframeAt m' a' = (trapframeAt m a).withResult (BitVec.ofNat 64 v) := by
  have hsize : trapframeSize = 272 := rfl
  have hword : ∀ i, 0 < i → i < 34 →
      word m' (BitVec.ofNat 64 (a' + 8 * i)) = word m (BitVec.ofNat 64 (a + 8 * i)) := by
    intro i hi hi'
    rw [word_ofNat _ (by omega), word_ofNat _ (by omega), h i hi hi']
  refine Trapframe.ext (funext fun r => ?_) (hword 31 (by decide) (by decide))
    (hword 32 (by decide) (by decide)) (hword 33 (by decide) (by decide))
  show word m' (BitVec.ofNat 64 (a' + 8 * r)) =
    Function.update (trapframeAt m a).x 0 (BitVec.ofNat 64 v) r
  by_cases hr : r = 0
  · subst hr
    rw [Function.update_self, ← hv]
    exact word_ofNat m' (by omega)
  · have hpos : 0 < r.val := Nat.pos_of_ne_zero fun h0 => hr (Fin.ext h0)
    rw [Function.update_of_ne hr]
    exact hword r hpos (by omega)

/-! ## The two trapframes -/

section

variable {R : Type} {σ : KernelTasks R} {im : KernelImage} {km : Kmalloc} {fuel tf : ℕ} {child : Sched.Slot}

/-- What `sys_fork` leaves: the parent's trapframe with the child's number, and a copy with 0. -/
structure Forked (im : KernelImage) (σ σ' : KernelTasks R) (tf : ℕ) (child : Sched.Slot) : Prop where
  sp : σ'.sp child = im.kstackAt child + (tf - im.kstackAt σ.cur)
  lr : (σ'.machine.sched.pool child).lr = .exitKernel
  parent : trapframeAt σ'.kstack tf = (trapframeAt σ.kstack tf).withResult (BitVec.ofNat 64 child)
  copied : trapframeAt σ'.kstack (σ'.sp child) = (trapframeAt σ.kstack tf).withResult 0

theorem sysFork_lr {s s' : Sched.State} (hfind : (Sched.findEmptyTask s).1 = some child)
    (h : Sched.sysFork s = .ok s') : (s'.pool child).lr = .exitKernel := by
  unfold Sched.sysFork at h
  split at h
  next child' s₁ heq =>
    rw [heq] at hfind
    cases hfind
    cases h
    simp [Sched.State.set]
  next => cases h

theorem forked_of_lt (hrun : ForkRun im km (fuel + 2) σ) (htf : im.InKstack σ.cur tf)
    (hfind : (Sched.findEmptyTask σ.machine.sched).1 = some child) (hlt : σ.cur < child) :
    ∃ σ', σ.sysFork im km tf = .returned .success σ' ∧ Forked im σ σ' tf child := by
  have hinv := hrun.reachable.inv
  have hid := Mm.findEmptyTask_of_some hfind
  have hfree := (Sched.findEmptyTask_ne hinv hfind).2
  obtain ⟨σ₁, hcopy, hsp, hfork⟩ := Mm.sysFork_forward km hinv htf (by rw [hid]; exact hlt)
  rw [hid, Mm.element_slot] at hsp hfork
  have hsched := Mm.sysFork_sched hinv hfree im km tf
  rw [hfork] at hsched
  refine ⟨_, hfork, ?_⟩
  obtain ⟨h1, h2⟩ := htf
  have hcur : (σ.cur : ℕ) + 1 ≤ child := hlt
  have hsize : trapframeSize = 272 := rfl
  have hsp' : σ₁.sp child = im.kstackAt child + (tf - im.kstackAt σ.cur) := hsp
  have hapart : tf + trapframeSize ≤ σ₁.sp child := by
    unfold KernelImage.kstackAt kstackSize at *
    omega
  have hid16 : (child : ℕ) < 16 := child.isLt
  have hbase := im.stop_le
  have hkstack : σ₁.kstack = copy σ.kstack (im.kstackAt child)
      (fun i => σ.kstack (im.kstackAt σ.cur + i)) kstackSize := by
    rw [hcopy.kstack, hid, Mm.curTask_taskId hinv]
  have hnum : (child : ℕ) < 256 ^ 8 := by omega
  unfold KernelImage.kstackAt kstackSize Sched.nrTasks Memblock.kernelVaddrBase Mm.peripheralBase at *
  constructor
  case sp => exact hsp'
  case lr => exact sysFork_lr hfind hsched
  case parent =>
    show trapframeAt (store (store σ₁.kstack (σ₁.sp child) 0 8) tf child 8) tf = _
    apply trapframeAt_withResult (by omega) (by omega)
    · exact load_store hnum
    · intro i hi hi'
      rw [load_store_of_disjoint (by omega), load_store_of_disjoint (by omega), hkstack]
      exact load_congr fun n hn => copy_of_not_mem (by omega)
  case copied =>
    show trapframeAt (store (store σ₁.kstack (σ₁.sp child) 0 8) tf child 8) (σ₁.sp child) = _
    apply trapframeAt_withResult (by omega) (by omega)
    · rw [load_store_of_disjoint (by omega)]
      exact load_store (by decide)
    · intro i hi hi'
      rw [load_store_of_disjoint (by omega), load_store_of_disjoint (by omega), hkstack]
      apply load_shift
      intro n hn
      rw [copy_of_mem (by omega)]
      congr 1
      omega

/-! ## Both ways out of the kernel -/

/-- The child among the tasks: its `tss` and its kernel stack are as `sys_fork` has left them, where
    `entry` says where the addresses in `tss.lr` are. -/
structure ChildTask (im : KernelImage) (entry : Sched.Entry → Word) (σ' : KernelTasks R)
    (child : Sched.Slot) (p : Private) : Prop where
  sp : p.tss.sp = BitVec.ofNat 64 (σ'.sp child)
  lr : p.tss.lr = entry (σ'.machine.sched.pool child).lr
  kstack : ∀ y, im.kstackAt child ≤ y → y < im.kstackAt child + kstackSize → p.mem y = σ'.kstack y

/-- The kernel stack of the child is written by the child only. -/
def OwnsKstack (im : KernelImage) (pool : Pool Sched.Slot) (child : Sched.Slot) : Prop :=
  ∀ y, im.kstackAt child ≤ y → y < im.kstackAt child + kstackSize → y ∈ pool.own child

/-- A fork comes back twice. The parent finds the number of the child in the trapframe that it leaves
    by; the child, whenever it is first switched to, is at `exit_kernel` and leaves in the context of
    its parent with 0 in `x0`. -/
theorem fork_returns_twice (hrun : ForkRun im km (fuel + 2) σ) (htf : im.InKstack σ.cur tf)
    (hfind : (Sched.findEmptyTask σ.machine.sched).1 = some child) (hlt : σ.cur < child)
    (entry : Sched.Entry → Word) {pool : Pool Sched.Slot} (hown : OwnsKstack im pool child) :
    ∃ σ', σ.sysFork im km tf = .returned .success σ' ∧
      ((trapframeAt σ.kstack tf).withResult (BitVec.ofNat 64 child)).At σ'.kstack (BitVec.ofNat 64 tf) ∧
      ∀ (T : Tasks Sched.Slot) (es : List (Event Sched.Slot)) (s₁ s₂ s₃ : Machine Sched.Slot),
        Represents pool T s₁ → s₁.1 ≠ child → ChildTask im entry σ' child (T.task child) →
        Run pool es s₁ s₂ → (∀ e ∈ es, e.Away child) → Step pool (.switch child) s₂ s₃ →
        s₃.2.pc = entry .exitKernel ∧
          Restored ((trapframeAt σ.kstack tf).withResult 0) s₃.2 (run exitKernel s₃.2) := by
  obtain ⟨σ', hfork, h⟩ := forked_of_lt hrun htf hfind hlt
  refine ⟨σ', hfork, h.parent ▸ trapframeAt_at σ'.kstack tf, ?_⟩
  intro T es s₁ s₂ s₃ hrep hs₁ hchild hes haway hswitch
  obtain ⟨htss, hpc, hmem⟩ := hrep.switched_in hs₁ hes haway hswitch
  have hsp : s₃.2.sp = BitVec.ofNat 64 (σ'.sp child) := (congrArg Tss.sp htss).trans hchild.sp
  refine ⟨by rw [hpc, hchild.lr, h.lr], restored_exitKernel ?_⟩
  -- the child's trapframe is in its kernel stack, where nobody else has written
  have hid16 : (child : ℕ) < 16 := child.isLt
  have hcur : (σ.cur : ℕ) + 1 ≤ child := hlt
  have hsize : trapframeSize = 272 := rfl
  have hspc := h.sp
  have hbase := im.stop_le
  obtain ⟨h1, h2⟩ := htf
  have hinside : im.kstackAt child ≤ σ'.sp child ∧
      σ'.sp child + trapframeSize ≤ im.kstackAt child + kstackSize := by omega
  have hlast : im.kstackAt child + kstackSize ≤ 2 ^ 63 * 2 := by
    unfold KernelImage.kstackAt kstackSize Sched.nrTasks Memblock.kernelVaddrBase Mm.peripheralBase at *
    omega
  have hnat : (BitVec.ofNat 64 (σ'.sp child)).toNat = σ'.sp child := by
    rw [BitVec.toNat_ofNat]
    omega
  rw [hsp, ← h.copied]
  apply (trapframeAt_at σ'.kstack (σ'.sp child)).congr (by omega)
  intro i hi
  rw [hnat, hmem _ (hown _ (by omega) (by omega)), hchild.kstack _ (by omega) (by omega)]

end

theorem owns_kstack_tasks {im : KernelImage} (l : TaskPool im) (child : Sched.Slot) :
    OwnsKstack im l.tasks child := fun _ h h' => ⟨h, h'⟩

/-- The `tss` that a child is switched to with. -/
def childTss (sp : Word) : Tss := ⟨fun _ => 0x80c00, sp, 0⟩

/-- A processor that runs task 0, with the `tss` of task 1 and kernel stacks in memory. -/
def childCpu (kstack : Mem) (sp : Word) : Cpu :=
  let x := Function.update (Function.update (fun _ => 0x80c00#64) 9 sp) 2 0
  withTss 0 1 { startedCpu with mem := spill (lowTaskPool.tssAt 1) (contents x (slots tssPairs)) kstack }

theorem childCpu_tss (kstack : Mem) (sp : Word) :
    (childTss sp).At (childCpu kstack sp).mem (lowTaskPool.tssAt 1) := by
  refine Tss.At.spill kstack (lowTaskPool.fits 1) (fun r => ?_) ?_ ?_
  · rw [Function.update_of_ne (r.ne (by decide)), Function.update_of_ne (r.ne (by decide))]
    rfl
  · rw [Function.update_of_ne (by decide), Function.update_self]
    rfl
  · rw [Function.update_self]
    rfl

/-- Task 1 waits in this memory as `sys_fork` has left it. -/
theorem childCpu_child {R : Type} (σ' : KernelTasks R) :
    ChildTask Mm.lowImage (fun _ => 0x80c00) σ' 1
      ((tasksIn (childCpu σ'.kstack (BitVec.ofNat 64 (σ'.sp 1)))).task 1) := by
  have htss := (childCpu_tss σ'.kstack (BitVec.ofNat 64 (σ'.sp 1))).tssIn_eq
  constructor
  case sp => exact congrArg Tss.sp htss
  case lr => exact congrArg Tss.lr htss
  case kstack =>
    intro y hy hy'
    exact spill_of_not_mem (tss_within _) (lowTaskPool.fits 1) (lowTaskPool.kstack_apart 1 1 y ⟨hy, hy'⟩)

/-- Task 0 forks task 1 and switches to it. -/
theorem fork_returns_twice_booted : ∃ σ' c,
    Mm.bootedTasks.sysFork Mm.lowImage Mm.spread (Mm.topFrame 0) = .returned .success σ' ∧
      ((trapframeAt Mm.bootedTasks.kstack (Mm.topFrame 0)).withResult 1).At σ'.kstack
        (BitVec.ofNat 64 (Mm.topFrame 0)) ∧
      (run switchTo c).pc = 0x80c00 ∧
      Restored ((trapframeAt Mm.bootedTasks.kstack (Mm.topFrame 0)).withResult 0) (run switchTo c)
        (run exitKernel (run switchTo c)) := by
  have hrun : ForkRun Mm.lowImage Mm.spread (0 + 2) Mm.bootedTasks := .boot rfl
  have hfind : (Sched.findEmptyTask Mm.bootedTasks.machine.sched).1 = some 1 := by decide
  obtain ⟨σ', hfork, hparent, hchild⟩ := fork_returns_twice hrun (Mm.topFrame_inKstack 0) hfind (by decide)
    (fun _ => 0x80c00) (owns_kstack_tasks lowTaskPool 1)
  have hswitch : Step lowTaskPool.tasks (.switch 1) (0, childCpu σ'.kstack (BitVec.ofNat 64 (σ'.sp 1)))
      (1, run switchTo (childCpu σ'.kstack (BitVec.ofNat 64 (σ'.sp 1)))) :=
    .switch (by decide) (withTss_x0 0 1 _) (withTss_x1 0 1 _)
  have hne : (0 : Sched.Slot) ≠ 1 := by decide
  obtain ⟨hpc, hrestored⟩ := hchild _ [] _ _ _ (represents_tasksIn _) hne (childCpu_child σ') (.done _)
    (by simp) hswitch
  exact ⟨σ', _, hfork, hparent, hpc, hrestored⟩

end RaspiKernel.Cpu
