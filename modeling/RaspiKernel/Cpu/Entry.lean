import RaspiKernel.Lib.A64

/-!
# Entering and leaving the kernel

Model of `save_all` and `load_all` (`exception_.S`, lines 42–95), of the two handlers around them and of
`exit_kernel` (lines 147–175), and of what the CPU does when it takes an exception.

Results:
* `run_saveAll`: `save_all` leaves a `struct trapframe` of the interrupted context below the stack.
* `run_loadAll`: `load_all` takes the context from the trapframe at the stack pointer.
* `run_irqEntry`, `run_svcEntry`, `run_exitKernel`: the same for the handlers as a whole.
-/

namespace RaspiKernel.Cpu

open Lib Lib.A64

/-! ## Model -/

/-- `struct trapframe`. -/
@[ext] structure Trapframe where
  x : Reg → Word
  sp : Word
  pstate : Word
  pc : Word

/-- `save_all`. -/
def saveAll : List Instr :=
  [.subSp (34 * 8),
   .stp 0 1 .sp (16 * 0), .stp 2 3 .sp (16 * 1), .stp 4 5 .sp (16 * 2), .stp 6 7 .sp (16 * 3),
   .stp 8 9 .sp (16 * 4), .stp 10 11 .sp (16 * 5), .stp 12 13 .sp (16 * 6), .stp 14 15 .sp (16 * 7),
   .stp 16 17 .sp (16 * 8), .stp 18 19 .sp (16 * 9), .stp 20 21 .sp (16 * 10),
   .stp 22 23 .sp (16 * 11), .stp 24 25 .sp (16 * 12), .stp 26 27 .sp (16 * 13),
   .stp 28 29 .sp (16 * 14),
   .mrs 21 .spEl0, .stp 30 21 .sp (16 * 15),
   .mrs 21 .spsrEl1, .mrs 22 .elrEl1, .stp 21 22 .sp (16 * 16)]

/-- `load_all`. -/
def loadAll : List Instr :=
  [.ldp 30 21 .sp (16 * 15), .msr .spEl0 21,
   .ldp 21 22 .sp (16 * 16), .msr .spsrEl1 21, .msr .elrEl1 22,
   .ldp 0 1 .sp (16 * 0), .ldp 2 3 .sp (16 * 1), .ldp 4 5 .sp (16 * 2), .ldp 6 7 .sp (16 * 3),
   .ldp 8 9 .sp (16 * 4), .ldp 10 11 .sp (16 * 5), .ldp 12 13 .sp (16 * 6), .ldp 14 15 .sp (16 * 7),
   .ldp 16 17 .sp (16 * 8), .ldp 18 19 .sp (16 * 9), .ldp 20 21 .sp (16 * 10),
   .ldp 22 23 .sp (16 * 11), .ldp 24 25 .sp (16 * 12), .ldp 26 27 .sp (16 * 13),
   .ldp 28 29 .sp (16 * 14),
   .ldr 30 .sp (16 * 15), .addSp (34 * 8)]

/-- `PSTATE` once an exception is taken to EL1: the flags stay, `DAIF` is masked, `SP_EL1` is in use. -/
def exceptionState (pstate : Word) : Word := (pstate &&& 0xf0000000#64) ||| 0x3c5#64

/-- The CPU goes to the handler of an exception that is to return to `link`. -/
def enterEl1 (handler link : Word) (c : Cpu) : Cpu :=
  { c with
    sys := Function.update (Function.update c.sys .spsrEl1 c.pstate) .elrEl1 link
    pc := handler
    pstate := exceptionState c.pstate }

/-- An interrupt, which returns to the instruction it came before. -/
def takeIrq (handler : Word) (c : Cpu) : Cpu := enterEl1 handler c.pc c

/-- `svc #imm`, which returns to the instruction after it. -/
def takeSvc (handler imm : Word) (c : Cpu) : Cpu :=
  let c := enterEl1 handler (c.pc + 4) c
  { c with sys := Function.update c.sys .esrEl1 (0x56000000#64 ||| imm) }

/-- `irq_handler`, up to the call of `irq_router`. -/
def irqHandler (irqRouter : Word) : List Instr :=
  saveAll ++ [.mrs 0 .esrEl1, .mrs 1 .elrEl1, .mrs 2 .spsrEl1, .mrs 3 .farEl1, .bl irqRouter]

/-- `exception_handler`, up to the call of `svc_handler`. -/
def exceptionHandler (svcHandler : Word) : List Instr :=
  saveAll ++ [.mrs 0 .esrEl1, .mrs 1 .elrEl1, .mrs 2 .spsrEl1, .mrs 3 .farEl1, .movFromSp 4,
    .bl svcHandler]

/-- `exit_kernel`, and the end of both handlers. -/
def exitKernel : List Instr := loadAll ++ [.eret]

/-- Where the handlers and the functions they call are. -/
structure Labels where
  irqHandler : Word
  irqRouter : Word
  exceptionHandler : Word
  svcHandler : Word

/-- The CPU as `irq_router` finds it. -/
def irqEntry (k : Labels) (c : Cpu) : Cpu := run (irqHandler k.irqRouter) (takeIrq k.irqHandler c)

/-- The CPU as `svc_handler` finds it. -/
def svcEntry (k : Labels) (imm : Word) (c : Cpu) : Cpu :=
  run (exceptionHandler k.svcHandler) (takeSvc k.exceptionHandler imm c)

/-! ## The trapframe in memory -/

/-- The pairs that both macros move with one instruction each. -/
def generalPairs : Pairs :=
  [(0, 1, 16 * 0), (2, 3, 16 * 1), (4, 5, 16 * 2), (6, 7, 16 * 3), (8, 9, 16 * 4), (10, 11, 16 * 5),
   (12, 13, 16 * 6), (14, 15, 16 * 7), (16, 17, 16 * 8), (18, 19, 16 * 9), (20, 21, 16 * 10),
   (22, 23, 16 * 11), (24, 25, 16 * 12), (26, 27, 16 * 13), (28, 29, 16 * 14)]

theorem saveAll_eq :
    saveAll = .subSp 272 :: (stps .sp generalPairs ++
      [.mrs 21 .spEl0, .stp 30 21 .sp 240, .mrs 21 .spsrEl1, .mrs 22 .elrEl1, .stp 21 22 .sp 256]) := rfl

/-- The words of a trapframe. -/
def Trapframe.words (tf : Trapframe) : List (Word × ℕ) :=
  contents tf.x (slots generalPairs) ++ [(tf.x 30, 240), (tf.sp, 248), (tf.pstate, 256), (tf.pc, 264)]

/-- The memory at `a` holds the trapframe. -/
structure Trapframe.At (tf : Trapframe) (m : Mem) (a : Word) : Prop where
  x : ∀ r : Reg, word m (a + BitVec.ofNat 64 (8 * r)) = tf.x r
  sp : word m (a + 248#64) = tf.sp
  pstate : word m (a + 256#64) = tf.pstate
  pc : word m (a + 264#64) = tf.pc

theorem slots_general : ∀ r : Reg, r ≠ 30 → (r, 8 * r.val) ∈ slots generalPairs := by decide

theorem snd_words (tf : Trapframe) :
    tf.words.map Prod.snd = (slots generalPairs).map Prod.snd ++ [240, 248, 256, 264] := rfl

theorem Trapframe.words_within (tf : Trapframe) : Within 272 (tf.words.map Prod.snd) := by
  rw [snd_words]
  decide

theorem Trapframe.words_apart (tf : Trapframe) : Apart (tf.words.map Prod.snd) := by
  rw [snd_words]
  decide

theorem Trapframe.At.spill (tf : Trapframe) (m : Mem) {a : Word} (ha : a.toNat + 272 ≤ 2 ^ 64) :
    tf.At (spill a tf.words m) a := by
  have hword : ∀ p ∈ tf.words, word (A64.spill a tf.words m) (a + BitVec.ofNat 64 p.2) = p.1 :=
    fun p hp => word_spill tf.words_within tf.words_apart ha hp
  refine ⟨fun r => ?_, hword (tf.sp, 248) ?_, hword (tf.pstate, 256) ?_, hword (tf.pc, 264) ?_⟩
  · by_cases hr : r = 30
    · subst hr
      exact hword (tf.x 30, 240) (by simp [words])
    · apply hword (tf.x r, 8 * r.val)
      rw [words, List.mem_append]
      exact .inl (List.mem_map.mpr ⟨_, slots_general r hr, rfl⟩)
  all_goals simp [words]

/-- The trapframe is read from its own bytes. -/
theorem Trapframe.At.congr {tf : Trapframe} {m m' : Mem} {a : Word} (h : tf.At m a)
    (ha : a.toNat + 272 ≤ 2 ^ 64) (hm : ∀ i < 272, m' (a.toNat + i) = m (a.toNat + i)) : tf.At m' a := by
  have hword : ∀ n, n + 8 ≤ 272 → word m' (a + BitVec.ofNat 64 n) = word m (a + BitVec.ofNat 64 n) := by
    intro n hn
    apply word_congr
    intro i hi
    rw [toNat_add_ofNat (by omega), Nat.add_assoc]
    exact hm _ (by omega)
  exact ⟨fun r => (hword _ (by omega)).trans (h.x r), (hword _ (by omega)).trans h.sp,
    (hword _ (by omega)).trans h.pstate, (hword _ (by omega)).trans h.pc⟩

/-! ## The two macros -/

/-- The interrupted context, as `save_all` finds it. -/
def context (c : Cpu) : Trapframe := ⟨c.x, c.sys .spEl0, c.sys .spsrEl1, c.sys .elrEl1⟩

theorem add_lit (a : Word) (n k : ℕ) :
    a + BitVec.ofNat 64 n + BitVec.ofNat 64 k = a + BitVec.ofNat 64 (n + k) := by
  rw [BitVec.add_assoc, ← BitVec.ofNat_add]

/-- `save_all` leaves the trapframe of the context below the stack, and `x21` and `x22` changed. -/
theorem run_saveAll (c : Cpu) :
    run saveAll c =
      { c with
        x := Function.update (Function.update c.x 21 (c.sys .spsrEl1)) 22 (c.sys .elrEl1)
        sp := c.sp - 272#64
        mem := spill (c.sp - 272#64) (context c).words c.mem
        pc := c.pc + 84#64 } := by
  rw [saveAll_eq, run_cons, run_append, run_stps]
  have hx30 (v : Word) : Function.update c.x 21 v 30 = c.x 30 :=
    Function.update_of_ne (by decide : (30 : Reg) ≠ 21) v c.x
  have hx21 : ∀ v w : Word, Function.update (Function.update c.x 21 v) 22 w 21 = v := by
    intro v w
    rw [Function.update_of_ne (by decide : (21 : Reg) ≠ 22), Function.update_self]
  have h248 : c.sp - 272#64 + 240#64 + 8 = c.sp - 272#64 + 248#64 := add_lit _ 240 8
  have h264 : c.sp - 272#64 + 256#64 + 8 = c.sp - 272#64 + 264#64 := add_lit _ 256 8
  simp only [run_cons, run_nil, exec, Cpu.next, Cpu.base, Trapframe.words, spill_append, context,
    contents]
  simp only [spill, List.foldl_cons, List.foldl_nil, Function.update_idem, Function.update_self, hx30,
    hx21]
  have hpc : c.pc + 4 + BitVec.ofNat 64 (4 * generalPairs.length) + 4 + 4 + 4 + 4 + 4 = c.pc + 84#64 := by
    rw [show generalPairs.length = 15 from rfl]
    bv_omega
  rw [hpc, h248, h264]

/-- `load_all` from its fourth instruction on, with `SPSR_EL1` and `ELR_EL1` still to be set. -/
def loadRest : List Instr :=
  [.msr .spsrEl1 21, .msr .elrEl1 22] ++ (ldps .sp generalPairs ++ [.ldr 30 .sp 240, .addSp 272])

theorem loadAll_eq :
    loadAll = .ldp 30 21 .sp 240 :: .msr .spEl0 21 :: .ldp 21 22 .sp 256 :: loadRest := rfl

theorem run_loadRest {c : Cpu} {tf : Trapframe} (h : tf.At c.mem c.sp) (hpstate : c.x 21 = tf.pstate)
    (hpc : c.x 22 = tf.pc) :
    run loadRest c =
      { c with
        x := tf.x
        sp := c.sp + 272#64
        sys := Function.update (Function.update c.sys .spsrEl1 tf.pstate) .elrEl1 tf.pc
        pc := c.pc + 76#64 } := by
  have hx : ∀ y, Function.update (fill c.sp c.mem (slots generalPairs) y) 30 (word c.mem (c.sp + 240#64))
      = tf.x := by
    intro y
    funext r
    by_cases hr : r = 30
    · subst hr
      rw [Function.update_self]
      exact h.x 30
    · rw [Function.update_of_ne hr, fill_of_mem (by decide) (slots_general r hr)]
      exact h.x r
  have hend : c.pc + 4 + 4 + BitVec.ofNat 64 (4 * generalPairs.length) + 4 + 4 = c.pc + 76#64 := by
    rw [show generalPairs.length = 15 from rfl]
    bv_omega
  rw [loadRest, run_append]
  simp only [run_cons, run_nil, exec, Cpu.next, hpstate, hpc]
  rw [run_append, run_ldps _ _ _ (Base.free_sp _)]
  simp only [run_cons, run_nil, exec, Cpu.next, Cpu.base, hx, hend]

theorem ldp_pstate {c : Cpu} {tf : Trapframe} (h : tf.At c.mem c.sp) :
    (exec (.ldp 21 22 .sp 256) c).x 21 = tf.pstate ∧ (exec (.ldp 21 22 .sp 256) c).x 22 = tf.pc := by
  have hpc : word c.mem (c.sp + 256#64 + 8) = tf.pc := (congrArg _ (add_lit c.sp 256 8)).trans h.pc
  simp only [exec, Cpu.next, Cpu.base]
  rw [Function.update_of_ne (by decide : (21 : Reg) ≠ 22), Function.update_self, Function.update_self]
  exact ⟨h.pstate, hpc⟩

theorem ldp_sp {c : Cpu} {tf : Trapframe} (h : tf.At c.mem c.sp) :
    (exec (.ldp 30 21 .sp 240) c).x 21 = tf.sp := by
  simp only [exec, Cpu.next, Cpu.base]
  rw [Function.update_self]
  exact (congrArg _ (add_lit c.sp 240 8)).trans h.sp

/-- `load_all` takes the context from the trapframe at the stack pointer. -/
theorem run_loadAll {c : Cpu} {tf : Trapframe} (h : tf.At c.mem c.sp) :
    run loadAll c =
      { c with
        x := tf.x
        sp := c.sp + 272#64
        sys := Function.update (Function.update (Function.update c.sys .spEl0 tf.sp) .spsrEl1 tf.pstate)
          .elrEl1 tf.pc
        pc := c.pc + 88#64 } := by
  have hat : tf.At (exec (.msr .spEl0 21) (exec (.ldp 30 21 .sp 240) c)).mem
      (exec (.msr .spEl0 21) (exec (.ldp 30 21 .sp 240) c)).sp := h
  have hctx := ldp_pstate hat
  have hrest := run_loadRest (c := exec (.ldp 21 22 .sp 256) (exec (.msr .spEl0 21)
    (exec (.ldp 30 21 .sp 240) c))) h hctx.1 hctx.2
  have hsp := ldp_sp h
  rw [loadAll_eq, run_cons, run_cons, run_cons, hrest]
  simp only [exec, Cpu.next] at hsp ⊢
  rw [hsp, show c.pc + 4 + 4 + 4 + 76#64 = c.pc + 88#64 by bv_omega]

/-! ## The handlers -/

/-- What an exception that is to return to `link` interrupts. -/
def interrupted (link : Word) (c : Cpu) : Trapframe := ⟨c.x, c.sys .spEl0, c.pstate, link⟩

/-- How an exception leaves the stack for the C code that handles it. -/
structure Entered (link : Word) (c e : Cpu) : Prop where
  sp : e.sp = c.sp - 272#64
  frame : (interrupted link c).At e.mem e.sp
  mem : ∀ y, ¬ (c.sp.toNat - 272 ≤ y ∧ y < c.sp.toNat) → e.mem y = c.mem y
  pstate : e.pstate = exceptionState c.pstate

/-- `save_all`, and moves of registers behind it, on a CPU that has just taken an exception. -/
theorem entered_saveAll {link : Word} {c d e : Cpu} (hroom : 272 ≤ c.sp.toNat) (hd : d.sp = c.sp)
    (hm : d.mem = c.mem) (hctx : context d = interrupted link c) (hps : d.pstate = exceptionState c.pstate)
    (hsp : e.sp = (run saveAll d).sp) (hmem : e.mem = (run saveAll d).mem)
    (hpstate : e.pstate = (run saveAll d).pstate) : Entered link c e := by
  have hlt := c.sp.isLt
  rw [run_saveAll, hctx, hd, hm] at hmem
  rw [run_saveAll, hd] at hsp
  rw [run_saveAll, hps] at hpstate
  have hbase : (c.sp - 272#64).toNat = c.sp.toNat - 272 := toNat_sub_ofNat hroom
  constructor
  case sp => exact hsp
  case frame =>
    rw [hsp, hmem]
    exact .spill _ _ (by omega)
  case mem =>
    intro y hy
    rw [hmem]
    exact spill_of_not_mem (interrupted link c).words_within (by omega) (by omega)
  case pstate => exact hpstate

theorem run_irqEntry (k : Labels) {c : Cpu} (hroom : 272 ≤ c.sp.toNat) :
    Entered c.pc c (irqEntry k c) := by
  apply entered_saveAll (d := takeIrq k.irqHandler c) hroom rfl rfl rfl rfl
  all_goals
    rw [irqEntry, irqHandler, run_append]
    rfl

theorem run_svcEntry (k : Labels) (imm : Word) {c : Cpu} (hroom : 272 ≤ c.sp.toNat) :
    Entered (c.pc + 4) c (svcEntry k imm c) := by
  apply entered_saveAll (d := takeSvc k.exceptionHandler imm c) hroom rfl rfl rfl rfl
  all_goals
    rw [svcEntry, exceptionHandler, run_append]
    rfl

/-- `exit_kernel` goes back to the context in the trapframe. -/
theorem run_exitKernel {c : Cpu} {tf : Trapframe} (h : tf.At c.mem c.sp) :
    run exitKernel c =
      { c with
        x := tf.x
        sp := c.sp + 272#64
        sys := Function.update (Function.update (Function.update c.sys .spEl0 tf.sp) .spsrEl1 tf.pstate)
          .elrEl1 tf.pc
        pc := tf.pc
        pstate := tf.pstate } := by
  rw [exitKernel, run_append, run_loadAll h]
  simp [exec]

/-- The CPU is in the context of the trapframe, with the trapframe off the stack. -/
structure Restored (tf : Trapframe) (c c' : Cpu) : Prop where
  x : c'.x = tf.x
  sp : c'.sp = c.sp + 272#64
  spEl0 : c'.sys .spEl0 = tf.sp
  pc : c'.pc = tf.pc
  pstate : c'.pstate = tf.pstate

theorem restored_exitKernel {c : Cpu} {tf : Trapframe} (h : tf.At c.mem c.sp) :
    Restored tf c (run exitKernel c) := by
  rw [run_exitKernel h]
  constructor
  all_goals simp

end RaspiKernel.Cpu
