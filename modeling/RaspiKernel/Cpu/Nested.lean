import RaspiKernel.Cpu.Entry

/-!
# Interrupts between any two instructions

Kernel code runs on the stack of its task, from the top down, and an interrupt may be taken wherever
it is not masked: in a program, in a system call, in the handler of another interrupt. C code is
known here by what it keeps. It returns with the stack pointer it was called with, it writes no byte
of the stack that belongs to its callers, and it leaves the bytes of a program alone unless the
program asked for a write. Handlers come back to `load_all` with interrupts masked. What is lost if
one does not, as `sys_uart_read`, is shown in `RaspiKernel.Cpu.ExitWindow`.

Results:
* `irq_resumes`: an interrupt goes back to exactly the context it came into, whatever its handler
  does and however many interrupts are taken inside it.
* `svc_returns`: a system call changes `x0` and goes to the next instruction.
* `program_view`: a program sees its own instructions and its own system calls only.
-/

namespace RaspiKernel.Cpu

open Lib Lib.A64

/-! ## Model -/

/-- The kernel stack of a task. -/
structure Stack where
  lo : ℕ
  hi : ℕ
  hi_lt : hi < 2 ^ 64

/-- `PSTATE.I` is clear. -/
def Unmasked (c : Cpu) : Prop := c.pstate &&& 0x80#64 = 0#64

/-- C code between two states: the stack from `top` up is its callers', and `kept` is not written. -/
structure Keeps (s : Stack) (kept : Set ℕ) (top : ℕ) (c c' : Cpu) : Prop where
  sp_le : c'.sp.toNat ≤ top
  stack : ∀ y, top ≤ y → y < s.hi → c'.mem y = c.mem y
  kept : ∀ y ∈ kept, c'.mem y = c.mem y

/-- Kernel code with the interrupts that are taken in it. -/
inductive KernelRun (k : Labels) (s : Stack) (kept : Set ℕ) : ℕ → Cpu → Cpu → Prop
  | done (top : ℕ) (c : Cpu) : KernelRun k s kept top c c
  | code {top : ℕ} {c c₁ c₂ : Cpu} (h : Keeps s kept top c c₁) (rest : KernelRun k s kept top c₁ c₂) :
      KernelRun k s kept top c c₂
  | irq {top : ℕ} {c d c₂ : Cpu} (unmasked : Unmasked c) (room : s.lo + 272 ≤ c.sp.toNat)
      (handler : KernelRun k s kept (c.sp.toNat - 272) (irqEntry k c) d)
      (sp : d.sp = (irqEntry k c).sp) (masked : ¬ Unmasked d)
      (rest : KernelRun k s kept top (run exitKernel d) c₂) : KernelRun k s kept top c c₂

/-- A trapframe fits on the stack. -/
def Stack.Room (s : Stack) (c : Cpu) : Prop := s.lo + 272 ≤ c.sp.toNat ∧ c.sp.toNat ≤ s.hi

/-- An interrupt from when it is taken until its handler has returned. The handler comes back with
    interrupts masked, so that none is taken between `load_all` and `eret`. -/
inductive Irq (k : Labels) (s : Stack) (kept : Set ℕ) (c : Cpu) : Cpu → Prop
  | mk {d : Cpu} (unmasked : Unmasked c) (room : s.Room c)
      (handler : KernelRun k s kept (c.sp.toNat - 272) (irqEntry k c) d)
      (sp : d.sp = (irqEntry k c).sp) (masked : ¬ Unmasked d) : Irq k s kept c (run exitKernel d)

/-! ## One interrupt -/

/-- The CPU goes on as if nothing had happened. The two registers that exceptions use are the exception. -/
structure Resumed (s : Stack) (kept : Set ℕ) (c c' : Cpu) : Prop where
  x : c'.x = c.x
  sp : c'.sp = c.sp
  spEl0 : c'.sys .spEl0 = c.sys .spEl0
  pc : c'.pc = c.pc
  pstate : c'.pstate = c.pstate
  elr : c'.sys .elrEl1 = c.pc
  spsr : c'.sys .spsrEl1 = c.pstate
  stack : ∀ y, c.sp.toNat ≤ y → y < s.hi → c'.mem y = c.mem y
  kept : ∀ y ∈ kept, c'.mem y = c.mem y

variable {k : Labels} {s : Stack} {kept : Set ℕ}

/-- No byte of the stack is one of the kept bytes. -/
def Stack.Apart (s : Stack) (kept : Set ℕ) : Prop := ∀ y ∈ kept, ¬ (s.lo ≤ y ∧ y < s.hi)

theorem sp_sub {c e : Cpu} (h : e.sp = c.sp - 272#64) (hroom : 272 ≤ c.sp.toNat) :
    e.sp.toNat = c.sp.toNat - 272 := by
  rw [h]
  exact toNat_sub_ofNat hroom

/-- A frame that the handler keeps brings its context back. -/
theorem resumed_of_keeps (hkept : s.Apart kept) {c d : Cpu} (hroom : s.lo + 272 ≤ c.sp.toNat)
    (hhi : c.sp.toNat ≤ s.hi) (hd : Keeps s kept (c.sp.toNat - 272) (irqEntry k c) d)
    (hsp : d.sp = (irqEntry k c).sp) : Resumed s kept c (run exitKernel d) := by
  have he := run_irqEntry k (c := c) (by omega)
  have hbase := sp_sub he.sp (by omega)
  have hlt := s.hi_lt
  have hframe : (interrupted c.pc c).At d.mem d.sp := by
    rw [hsp]
    apply he.frame.congr (by omega)
    intro i hi
    exact hd.stack _ (by omega) (by omega)
  rw [run_exitKernel hframe]
  constructor
  case sp =>
    show d.sp + 272#64 = c.sp
    rw [hsp, he.sp, BitVec.sub_add_cancel]
  case stack =>
    intro y hy hy'
    exact (hd.stack y (by omega) hy').trans (he.mem y (by omega))
  case kept =>
    intro y hy
    have := hkept y hy
    exact (hd.kept y hy).trans (he.mem y (by omega))
  all_goals simp [interrupted, Function.update]

/-- What a step of C code keeps is kept by whole runs, with the interrupts in them. -/
theorem KernelRun.keeps (hkept : s.Apart kept) {top : ℕ} {c c' : Cpu} (h : KernelRun k s kept top c c')
    (hsp : c.sp.toNat ≤ top) (htop : top ≤ s.hi) : Keeps s kept top c c' := by
  induction h with
  | done top c => exact ⟨hsp, fun _ _ _ => rfl, fun _ _ => rfl⟩
  | code h _ ih =>
    have := ih h.sp_le htop
    exact ⟨this.sp_le, fun y hy hy' => (this.stack y hy hy').trans (h.stack y hy hy'),
      fun y hy => (this.kept y hy).trans (h.kept y hy)⟩
  | @irq top c d c₂ _ room _ sp _ _ ihHandler ihRest =>
    have he := run_irqEntry k (c := c) (by omega)
    have hbase := sp_sub he.sp (by omega)
    have hres := resumed_of_keeps hkept room (by omega) (ihHandler (by omega) (by omega)) sp
    have hrest := ihRest (by rw [hres.sp]; exact hsp) htop
    exact ⟨hrest.sp_le, fun y hy hy' => (hrest.stack y hy hy').trans (hres.stack y (by omega) hy'),
      fun y hy => (hrest.kept y hy).trans (hres.kept y hy)⟩

/-- An interrupt goes back to exactly the context it came into. -/
theorem irq_resumes (hkept : s.Apart kept) {c c' : Cpu} (h : Irq k s kept c c') :
    Resumed s kept c c' := by
  obtain ⟨_, ⟨room, hhi⟩, handler, sp, _⟩ := h
  have he := run_irqEntry k (c := c) (by omega)
  have hbase := sp_sub he.sp (by omega)
  exact resumed_of_keeps hkept room hhi (handler.keeps hkept (by omega) (by omega)) sp

/-- Exceptions are taken with interrupts masked. -/
theorem masked_of_entered {link : Word} {c e : Cpu} (h : Entered link c e) : ¬ Unmasked e := by
  unfold Unmasked
  rw [h.pstate]
  intro h0
  have hbit := congrArg (fun w : Word => w.getLsbD 7) h0
  simp [exceptionState] at hbit

/-- An interrupt whose handler does nothing. -/
theorem Irq.idle (k : Labels) (kept : Set ℕ) {c : Cpu} (unmasked : Unmasked c) (room : s.Room c) :
    Irq k s kept c (run exitKernel (irqEntry k c)) :=
  .mk unmasked room (.done _ _) rfl (masked_of_entered (run_irqEntry k (by have := room.1; omega)))

/-! ## System calls -/

/-- A system call from `svc` until the program goes on. Its handler may write the first word of the
    trapframe, which is `x[0]`, and comes back with interrupts masked. -/
inductive Svc (k : Labels) (s : Stack) (kept : Set ℕ) (imm : Word) (c : Cpu) : Word → Cpu → Prop
  | mk {d : Cpu} (room : s.Room c) (handler : KernelRun k s kept (c.sp.toNat - 264) (svcEntry k imm c) d)
      (sp : d.sp = (svcEntry k imm c).sp) (masked : ¬ Unmasked d) :
      Svc k s kept imm c (word d.mem d.sp) (run exitKernel d)

/-- The CPU goes on behind the `svc`, with a result in `x0`. -/
structure Returned (s : Stack) (kept : Set ℕ) (result : Word) (c c' : Cpu) : Prop where
  x : c'.x = Function.update c.x 0 result
  sp : c'.sp = c.sp
  spEl0 : c'.sys .spEl0 = c.sys .spEl0
  pc : c'.pc = c.pc + 4
  pstate : c'.pstate = c.pstate
  stack : ∀ y, c.sp.toNat ≤ y → y < s.hi → c'.mem y = c.mem y
  kept : ∀ y ∈ kept, c'.mem y = c.mem y

/-- The trapframe with another word in `x[0]`. -/
theorem Trapframe.At.set_x0 {tf : Trapframe} {m m' : Mem} {a : Word} (h : tf.At m a)
    (ha : a.toNat + 272 ≤ 2 ^ 64) (hm : ∀ i, 8 ≤ i → i < 272 → m' (a.toNat + i) = m (a.toNat + i)) :
    ({ tf with x := Function.update tf.x 0 (word m' a) } : Trapframe).At m' a := by
  have hword : ∀ n, 8 ≤ n → n + 8 ≤ 272 →
      word m' (a + BitVec.ofNat 64 n) = word m (a + BitVec.ofNat 64 n) := by
    intro n hn hn'
    apply word_congr
    intro i hi
    rw [toNat_add_ofNat (by omega), Nat.add_assoc]
    exact hm _ (by omega) (by omega)
  refine ⟨fun r => ?_, (hword _ (by omega) (by omega)).trans h.sp,
    (hword _ (by omega) (by omega)).trans h.pstate, (hword _ (by omega) (by omega)).trans h.pc⟩
  show word m' _ = Function.update tf.x 0 (word m' a) r
  by_cases hr : r = 0
  · subst hr
    rw [Function.update_self]
    exact congrArg _ (BitVec.add_zero a)
  · have hpos : 0 < r.val := Nat.pos_of_ne_zero fun h0 => hr (Fin.ext h0)
    rw [Function.update_of_ne hr, hword _ (by omega) (by omega)]
    exact h.x r

theorem svc_returns (hkept : s.Apart kept) {imm result : Word} {c c' : Cpu}
    (h : Svc k s kept imm c result c') : Returned s kept result c c' := by
  obtain @⟨d, ⟨room, hhi⟩, handler, sp, _⟩ := h
  have he := run_svcEntry k imm (c := c) (by omega)
  have hbase := sp_sub he.sp (by omega)
  have hlt := s.hi_lt
  -- the handler sees the frame from its second word on as its callers'
  have htop : c.sp.toNat - 264 ≤ s.hi := by omega
  have hd := handler.keeps hkept (by omega) htop
  have hframe := he.frame.set_x0 (by omega)
    fun i hi hi' => hd.stack _ (by omega) (by omega)
  rw [← sp] at hframe
  rw [run_exitKernel hframe]
  constructor
  case sp =>
    show d.sp + 272#64 = c.sp
    rw [sp, he.sp, BitVec.sub_add_cancel]
  case stack =>
    intro y hy hy'
    exact (hd.stack y (by omega) hy').trans (he.mem y (by omega))
  case kept =>
    intro y hy
    have := hkept y hy
    exact (hd.kept y hy).trans (he.mem y (by omega))
  all_goals simp [interrupted, Function.update]

/-- A system call whose handler only stores its result, as `sys_get_taskid` does. -/
theorem Svc.result (k : Labels) (imm result : Word) {c : Cpu} (room : s.Room c) (hkept : s.Apart kept) :
    ∃ c', Svc k s kept imm c result c' := by
  obtain ⟨hlo, hhi⟩ := room
  have hlt := s.hi_lt
  have he := run_svcEntry k imm (c := c) (by omega)
  have hsp := sp_sub he.sp (by omega)
  set e := svcEntry k imm c
  have hframe : ∀ y, ¬ (c.sp.toNat - 272 ≤ y ∧ y < c.sp.toNat - 264) → setWord e.mem e.sp result y = e.mem y :=
    fun y hy => setWord_of_not_mem (by omega)
  have hkeeps : Keeps s kept (c.sp.toNat - 264) e { e with mem := setWord e.mem e.sp result } := by
    refine ⟨?_, fun y hy _ => hframe y (by omega), fun y hy => hframe y ?_⟩
    · show e.sp.toNat ≤ _
      omega
    · have := hkept y hy
      omega
  have hmasked : ¬ Unmasked e := masked_of_entered he
  have hsvc := Svc.mk ⟨hlo, hhi⟩ (.code hkeeps (.done _ _)) rfl hmasked
  rw [word_setWord] at hsvc
  exact ⟨_, hsvc⟩

/-! ## Programs -/

/-- What a program sees of the machine, with the bytes that are its own. -/
structure View (own : Set ℕ) where
  x : Reg → Word
  sp : Word
  pc : Word
  pstate : Word
  mem : own → UInt8

def view (own : Set ℕ) (c : Cpu) : View own := ⟨c.x, c.sys .spEl0, c.pc, c.pstate, fun y => c.mem y⟩

/-- What a system call does to the view: a result, and what it has written for the program. -/
def View.answer {own : Set ℕ} (result : Word) (m : own → UInt8) (v : View own) : View own :=
  { v with x := Function.update v.x 0 result, pc := v.pc + 4, mem := m }

/-- What `bl` does to the view. -/
def View.bl {own : Set ℕ} (target : Word) (v : View own) : View own :=
  { v with x := Function.update v.x 30 (v.pc + 4), pc := target }

/-- What `ret` does to the view. -/
def View.ret {own : Set ℕ} (v : View own) : View own := { v with pc := v.x 30 }

theorem view_bl (own : Set ℕ) (target : Word) (c : Cpu) :
    view own (exec (.bl target) c) = (view own c).bl target := rfl

theorem view_ret (own : Set ℕ) (c : Cpu) : view own (exec .ret c) = (view own c).ret := rfl

/-- A program run at EL0, labelled with what its instructions and system calls do to its view. -/
inductive ProgramRun (k : Labels) (s : Stack) (own : Set ℕ) :
    List (View own → View own) → Cpu → Cpu → Prop
  | done (c : Cpu) : ProgramRun k s own [] c c
  | instr {c c₁ c₂ : Cpu} {f : View own → View own} {fs : List (View own → View own)}
      (view : view own c₁ = f (view own c)) (sp : c₁.sp = c.sp)
      (rest : ProgramRun k s own fs c₁ c₂) : ProgramRun k s own (f :: fs) c c₂
  | irq {c c₁ c₂ : Cpu} {fs : List (View own → View own)} (irq : Irq k s own c c₁)
      (rest : ProgramRun k s own fs c₁ c₂) : ProgramRun k s own fs c c₂
  | svc {c c₁ c₂ : Cpu} {imm result : Word} {kept : Set ℕ} {fs : List (View own → View own)}
      (svc : Svc k s kept imm c result c₁) (apart : s.Apart kept)
      (rest : ProgramRun k s own fs c₁ c₂) :
      ProgramRun k s own (View.answer result (fun y => c₁.mem y) :: fs) c c₂

/-- A program sees its own instructions and its own system calls only, wherever it is interrupted. -/
theorem program_view {own : Set ℕ} (hown : s.Apart own) {fs : List (View own → View own)} {c c' : Cpu}
    (h : ProgramRun k s own fs c c') :
    view own c' = fs.foldl (fun v f => f v) (view own c) ∧ c'.sp = c.sp := by
  induction h with
  | done c => exact ⟨rfl, rfl⟩
  | instr hview hsp _ ih => exact ⟨by rw [ih.1, hview, List.foldl_cons], ih.2.trans hsp⟩
  | @irq c c₁ _ _ hirq _ ih =>
    have hres := irq_resumes hown hirq
    have hsame : view own c₁ = view own c := by
      unfold view
      rw [hres.x, hres.spEl0, hres.pc, hres.pstate]
      congr 1
      funext y
      exact hres.kept y y.2
    exact ⟨by rw [ih.1, hsame], ih.2.trans hres.sp⟩
  | @svc c c₁ _ _ result _ _ hsvc hapart _ ih =>
    have hret := svc_returns hapart hsvc
    have hanswer : view own c₁ = (view own c).answer result fun y => c₁.mem y := by
      unfold view View.answer
      rw [hret.x, hret.spEl0, hret.pc, hret.pstate]
    exact ⟨by rw [ih.1, hanswer, List.foldl_cons], ih.2.trans hret.sp⟩

/-- A program that has just started. -/
def startedCpu : Cpu where
  x := fun _ => 0
  sp := 0x2000
  sys := fun _ => 0
  pc := 0
  pstate := 0
  mem := fun _ => 0

theorem hi_lt_top : 0x2000 < 2 ^ 64 := by decide

/-- Its kernel stack. -/
def startedStack : Stack := ⟨0x1000, 0x2000, hi_lt_top⟩

theorem started_room : startedStack.Room startedCpu := by
  constructor <;> decide

/-- The handlers somewhere in the kernel. -/
def lowLabels : Labels := ⟨0x80800, 0x80a00, 0x80900, 0x80b00⟩

/-- A program calls a function that makes the system call `get_taskid`, for which the kernel stores 7, and is
    interrupted behind the `bl`. It goes on behind the call, with 7 in `x0`. -/
theorem program_view_started : ∃ c' m,
    ProgramRun lowLabels startedStack {0x8000} [View.bl 0x40, View.answer 7 m, View.ret] startedCpu c' ∧
      c'.x 0 = 7 ∧ c'.pc = 4 ∧ c'.sp = startedCpu.sp := by
  have hown : startedStack.Apart {0x8000} := by
    intro y hy
    rw [Set.mem_singleton_iff.mp hy]
    decide
  have hirq := Irq.idle lowLabels {0x8000} (c := exec (.bl 0x40) startedCpu) rfl started_room
  have hres := irq_resumes hown hirq
  have hroom : startedStack.Room (run exitKernel (irqEntry lowLabels (exec (.bl 0x40) startedCpu))) := by
    unfold Stack.Room
    rw [hres.sp]
    exact started_room
  obtain ⟨c', hsvc⟩ := Svc.result lowLabels 0 7 hroom hown
  have hend : ProgramRun lowLabels startedStack {0x8000} [View.ret] c' (exec .ret c') :=
    .instr (view_ret _ c') rfl (.done _)
  have hrun : ProgramRun lowLabels startedStack {0x8000}
      [View.bl 0x40, View.answer 7 fun y => c'.mem y, View.ret] startedCpu (exec .ret c') :=
    .instr (view_bl _ 0x40 startedCpu) rfl (.irq hirq (.svc hsvc hown hend))
  obtain ⟨hview, hsp⟩ := program_view hown hrun
  exact ⟨_, _, hrun, congrArg (fun v => v.x 0) hview, congrArg View.pc hview, hsp⟩

end RaspiKernel.Cpu
