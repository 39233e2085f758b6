import RaspiKernel.Cpu.Nested
import RaspiKernel.Mm.ForkStack

/-!
# Context switches

Model of `switch_to` and `sig_restore_context` (`sched_.S`, lines 8–48), on the `struct
task_state_segment` of two tasks. There is one processor, and the registers that a called function
keeps exist once; a task that is not running has its own in its `tss`. `switch_to` stores 14 words of
it and leaves `sp_backup` alone.

Results:
* `switched_switchTo`: what `switch_to` stores, loads and leaves.
* `TaskPool.tasks`: `task_pool` and `kstack_pool` as the tasks of the machine.
* `switch_back`: a task that is switched out goes on, whatever the other tasks do, where it called
  `switch_to`, with the registers, the stack pointer and the page table that it had there.
-/

namespace RaspiKernel.Cpu

open Lib Lib.A64

/-! ## Model -/

/-- `switch_to`. -/
def switchTo : List Instr :=
  [.movFromSp 9, .mrs 2 .ttbr0El1,
   .stp 19 20 (.x 0) (16 * 0), .stp 21 22 (.x 0) (16 * 1), .stp 23 24 (.x 0) (16 * 2),
   .stp 25 26 (.x 0) (16 * 3), .stp 27 28 (.x 0) (16 * 4), .stp 29 30 (.x 0) (16 * 5),
   .stp 9 2 (.x 0) (16 * 6),
   .ldp 19 20 (.x 1) (16 * 0), .ldp 21 22 (.x 1) (16 * 1), .ldp 23 24 (.x 1) (16 * 2),
   .ldp 25 26 (.x 1) (16 * 3), .ldp 27 28 (.x 1) (16 * 4), .ldp 29 30 (.x 1) (16 * 5),
   .ldp 9 2 (.x 1) (16 * 6),
   .movToSp 9, .dsbIsh, .msr .ttbr0El1 2, .tlbiVmalle1is, .dsbIsh, .isb, .ret]

/-- `sig_restore_context`. -/
def sigRestoreContext : List Instr :=
  [.ldp 19 20 (.x 0) (16 * 0), .ldp 21 22 (.x 0) (16 * 1), .ldp 23 24 (.x 0) (16 * 2),
   .ldp 25 26 (.x 0) (16 * 3), .ldp 27 28 (.x 0) (16 * 4), .ldp 29 30 (.x 0) (16 * 5),
   .ldr 9 (.x 0) (16 * 6), .movToSp 9, .ret]

/-- `x19` to `x30`. -/
abbrev CalleeSaved := { r : Reg // 19 ≤ r.val }

theorem le_lr : 19 ≤ (30 : Reg).val := by decide

theorem CalleeSaved.ne (r : CalleeSaved) {n : Reg} (hn : n.val < 19) : r.1 ≠ n :=
  fun h => absurd r.2 (by rw [h]; omega)

/-- What `switch_to` moves of `struct task_state_segment`. -/
structure Tss where
  x : CalleeSaved → Word
  sp : Word
  pgd : Word

def Tss.lr (t : Tss) : Word := t.x ⟨30, le_lr⟩

/-- The part of the processor that belongs to the running task. -/
def tssOf (c : Cpu) : Tss := ⟨fun r => c.x r, c.sp, c.sys .ttbr0El1⟩

/-- The 14 words that `switch_to` moves. -/
abbrev tssSize : ℕ := 112

structure Tss.At (t : Tss) (m : Mem) (a : Word) : Prop where
  x : ∀ r : CalleeSaved, word m (a + BitVec.ofNat 64 (8 * (r.1.val - 19))) = t.x r
  sp : word m (a + 96#64) = t.sp
  pgd : word m (a + 104#64) = t.pgd

/-! ## `switch_to` -/

/-- The pairs that `switch_to` moves, with `sp` in `x9` and `ttbr0_el1` in `x2`. -/
def tssPairs : Pairs :=
  [(19, 20, 16 * 0), (21, 22, 16 * 1), (23, 24, 16 * 2), (25, 26, 16 * 3), (27, 28, 16 * 4),
   (29, 30, 16 * 5), (9, 2, 16 * 6)]

theorem switchTo_eq :
    switchTo = [.movFromSp 9, .mrs 2 .ttbr0El1] ++ (stps (.x 0) tssPairs ++ (ldps (.x 1) tssPairs ++
      [.movToSp 9, .dsbIsh, .msr .ttbr0El1 2, .tlbiVmalle1is, .dsbIsh, .isb, .ret])) := rfl

theorem slots_tss : ∀ r : Reg, 19 ≤ r.val → (r, 8 * (r.val - 19)) ∈ slots tssPairs := by decide

theorem free_x1 : (Base.x 1).Free (slots tssPairs) := by
  show ∀ p ∈ slots tssPairs, p.1 ≠ 1
  decide

theorem contents_snd (x : Reg → Word) (l : List (Reg × ℕ)) : (contents x l).map Prod.snd = l.map Prod.snd := by
  simp [contents]

theorem tss_within (x : Reg → Word) : Within tssSize ((contents x (slots tssPairs)).map Prod.snd) := by
  rw [contents_snd]
  decide

theorem tss_apart (x : Reg → Word) : Apart ((contents x (slots tssPairs)).map Prod.snd) := by
  rw [contents_snd]
  decide

/-- The words of a `tss` read back where they are stored. -/
theorem Tss.At.spill {t : Tss} {x : Reg → Word} (m : Mem) {a : Word} (ha : a.toNat + tssSize ≤ 2 ^ 64)
    (hx : ∀ r : CalleeSaved, x r = t.x r) (hsp : x 9 = t.sp) (hpgd : x 2 = t.pgd) :
    t.At (spill a (contents x (slots tssPairs)) m) a := by
  have hword : ∀ p ∈ slots tssPairs,
      word (A64.spill a (contents x (slots tssPairs)) m) (a + BitVec.ofNat 64 p.2) = x p.1 :=
    fun p hp => word_spill (tss_within x) (tss_apart x) ha (List.mem_map.mpr ⟨p, hp, rfl⟩)
  exact ⟨fun r => (hword _ (slots_tss r r.2)).trans (hx r), (hword (9, 96) (by decide)).trans hsp,
    (hword (2, 104) (by decide)).trans hpgd⟩

/-- A `tss` is read from its own bytes. -/
theorem Tss.At.congr {t : Tss} {m m' : Mem} {a : Word} (h : t.At m a) (ha : a.toNat + tssSize ≤ 2 ^ 64)
    (hm : ∀ i < tssSize, m' (a.toNat + i) = m (a.toNat + i)) : t.At m' a := by
  have hsize : tssSize = 112 := rfl
  have hword : ∀ n, n + 8 ≤ tssSize →
      word m' (a + BitVec.ofNat 64 n) = word m (a + BitVec.ofNat 64 n) := by
    intro n hn
    apply word_congr
    intro i hi
    rw [toNat_add_ofNat (by omega), Nat.add_assoc]
    exact hm _ (by omega)
  refine ⟨fun r => (hword _ ?_).trans (h.x r), (hword 96 (by decide)).trans h.sp,
    (hword 104 (by decide)).trans h.pgd⟩
  have := r.1.isLt
  omega

/-- What `switch_to` does: the processor is handed over and the rest of it stays. -/
structure Switched (t : Tss) (c c' : Cpu) : Prop where
  tss : tssOf c' = t
  pc : c'.pc = t.lr
  pstate : c'.pstate = c.pstate
  sys : ∀ r, r ≠ .ttbr0El1 → c'.sys r = c.sys r
  saved : (tssOf c).At c'.mem (c.x 0)
  mem : ∀ y, ¬ ((c.x 0).toNat ≤ y ∧ y < (c.x 0).toNat + tssSize) → c'.mem y = c.mem y

/-- The registers once `sp` and `ttbr0_el1` are in `x9` and `x2`. -/
def parked (c : Cpu) : Reg → Word := Function.update (Function.update c.x 9 c.sp) 2 (c.sys .ttbr0El1)

theorem parked_of_ne {c : Cpu} {r : Reg} (h9 : r ≠ 9) (h2 : r ≠ 2) : parked c r = c.x r := by
  unfold parked
  rw [Function.update_of_ne h2, Function.update_of_ne h9]

theorem parked_sp (c : Cpu) : parked c 9 = c.sp := by
  unfold parked
  rw [Function.update_of_ne (by decide), Function.update_self]

theorem parked_pgd (c : Cpu) : parked c 2 = c.sys .ttbr0El1 := by
  unfold parked
  rw [Function.update_self]

/-- The memory once the running task is saved. -/
def switchMem (c : Cpu) : Mem := spill (c.x 0) (contents (parked c) (slots tssPairs)) c.mem

/-- The registers once the next task is loaded. -/
def switchRegs (c : Cpu) : Reg → Word := fill (c.x 1) (switchMem c) (slots tssPairs) (parked c)

theorem run_switchTo (c : Cpu) :
    run switchTo c =
      { c with
        x := switchRegs c
        sp := switchRegs c 9
        sys := Function.update c.sys .ttbr0El1 (switchRegs c 2)
        pc := switchRegs c 30
        mem := switchMem c } := by
  have h0 : parked c 0 = c.x 0 := parked_of_ne (by decide) (by decide)
  have h1 : parked c 1 = c.x 1 := parked_of_ne (by decide) (by decide)
  have hstart : run [.movFromSp 9, .mrs 2 .ttbr0El1] c = { c with x := parked c, pc := c.pc + 4 + 4 } := rfl
  rw [switchTo_eq, run_append, hstart, run_append, run_stps, run_append, run_ldps _ _ _ free_x1]
  simp only [Cpu.base, h0, h1]
  rfl

theorem switchMem_of_not_mem {c : Cpu} (h0 : (c.x 0).toNat + tssSize ≤ 2 ^ 64) {y : ℕ}
    (hy : ¬ ((c.x 0).toNat ≤ y ∧ y < (c.x 0).toNat + tssSize)) : switchMem c y = c.mem y :=
  spill_of_not_mem (tss_within _) h0 hy

theorem switchRegs_slot (c : Cpu) {p : Reg × ℕ} (hp : p ∈ slots tssPairs) :
    switchRegs c p.1 = word (switchMem c) (c.x 1 + BitVec.ofNat 64 p.2) := fill_of_mem (by decide) hp

theorem switched_switchTo {t : Tss} {c : Cpu} (h0 : (c.x 0).toNat + tssSize ≤ 2 ^ 64)
    (h1 : (c.x 1).toNat + tssSize ≤ 2 ^ 64)
    (hapart : (c.x 0).toNat + tssSize ≤ (c.x 1).toNat ∨ (c.x 1).toNat + tssSize ≤ (c.x 0).toNat)
    (ht : t.At c.mem (c.x 1)) : Switched t c (run switchTo c) := by
  have hnext : t.At (switchMem c) (c.x 1) := ht.congr h1 fun i hi => switchMem_of_not_mem h0 (by omega)
  have hx (r : CalleeSaved) : switchRegs c r = t.x r :=
    (switchRegs_slot c (slots_tss r r.2)).trans (hnext.x r)
  have hsp : switchRegs c 9 = t.sp := (switchRegs_slot c (p := (9, 96)) (by decide)).trans hnext.sp
  have hpgd : switchRegs c 2 = t.pgd := (switchRegs_slot c (p := (2, 104)) (by decide)).trans hnext.pgd
  rw [run_switchTo, hsp, hpgd]
  constructor
  case tss =>
    obtain ⟨tx, tsp, tpgd⟩ := t
    unfold tssOf
    congr 1
    funext r
    exact hx r
  case pc => exact hx ⟨30, le_lr⟩
  case pstate => rfl
  case sys =>
    intro r hr
    show Function.update c.sys .ttbr0El1 t.pgd r = c.sys r
    rw [Function.update_of_ne hr]
  case saved =>
    apply Tss.At.spill _ h0
    · intro r
      exact parked_of_ne (r.ne (by decide)) (r.ne (by decide))
    · exact parked_sp c
    · exact parked_pgd c
  case mem => exact fun y hy => switchMem_of_not_mem h0 hy

/-! ## Any number of tasks -/

variable {ι : Type}

/-- Where the tasks have their `tss`, and the bytes that the code of one task only writes. -/
structure Pool (ι : Type) where
  tss : ι → Word
  fits : ∀ i, (tss i).toNat + tssSize ≤ 2 ^ 64
  apart : ∀ i j, i ≠ j →
    (tss i).toNat + tssSize ≤ (tss j).toNat ∨ (tss j).toNat + tssSize ≤ (tss i).toNat
  own : ι → Set ℕ
  own_apart : ∀ i j, ∀ y ∈ own i, ¬ ((tss j).toNat ≤ y ∧ y < (tss j).toNat + tssSize)

/-- Code that leaves the bytes of the other tasks alone. -/
structure Leaves (pool : Pool ι) (i : ι) (c c' : Cpu) : Prop where
  tss : ∀ j, j ≠ i → ∀ y, (pool.tss j).toNat ≤ y → y < (pool.tss j).toNat + tssSize → c'.mem y = c.mem y
  own : ∀ j, j ≠ i → ∀ y ∈ pool.own j, c'.mem y = c.mem y

variable {pool : Pool ι}

theorem Leaves.at {i j : ι} {c c' : Cpu} {t : Tss} (h : Leaves pool i c c') (hj : j ≠ i)
    (ht : t.At c.mem (pool.tss j)) : t.At c'.mem (pool.tss j) :=
  ht.congr (pool.fits j) fun n hn => h.tss j hj _ (by omega) (by omega)

/-- One task as if it had the machine to itself. -/
structure Private where
  tss : Tss
  mem : Mem

/-- The tasks of the machine, each with registers of its own. -/
structure Tasks (ι : Type) where
  current : ι
  task : ι → Private

inductive Event (ι : Type)
  | work (p : Private)
  | switch (next : ι)
  | create (i : ι) (p : Private)

variable [DecidableEq ι]

/-- What an event does to the tasks. -/
def Tasks.apply (σ : Tasks ι) : Event ι → Tasks ι
  | .work p => { σ with task := Function.update σ.task σ.current p }
  | .switch next => { σ with current := next }
  | .create i p => { σ with task := Function.update σ.task i p }

/-- The processor with the task in `tpidr_el1`. -/
abbrev Machine (ι : Type) := ι × Cpu

/-- The events on the one processor: code of the running task, its call of `switch_to`, and code that
    sets up a task that is not running. -/
inductive Step (pool : Pool ι) : Event ι → Machine ι → Machine ι → Prop
  | work {i : ι} {c c' : Cpu} {m : Mem} (leaves : Leaves pool i c c')
      (mem : ∀ y ∈ pool.own i, m y = c'.mem y) : Step pool (.work ⟨tssOf c', m⟩) (i, c) (i, c')
  | switch {i next : ι} {c : Cpu} (ne : next ≠ i) (prev : c.x 0 = pool.tss i)
      (arg : c.x 1 = pool.tss next) : Step pool (.switch next) (i, c) (next, run switchTo c)
  | create {i j : ι} {c c' : Cpu} {p : Private} (ne : j ≠ i) (leaves : Leaves pool j c c')
      (cpu : tssOf c' = tssOf c) (tss : p.tss.At c'.mem (pool.tss j))
      (mem : ∀ y ∈ pool.own j, p.mem y = c'.mem y) : Step pool (.create j p) (i, c) (i, c')

/-- A run over a list of events. -/
inductive Run (pool : Pool ι) : List (Event ι) → Machine ι → Machine ι → Prop
  | done (s : Machine ι) : Run pool [] s s
  | cons {e : Event ι} {es : List (Event ι)} {s s₁ s' : Machine ι} (step : Step pool e s s₁)
      (rest : Run pool es s₁ s') : Run pool (e :: es) s s'

/-- What the processor, the memory and the `tss` of the tasks stand for. -/
structure Represents (pool : Pool ι) (σ : Tasks ι) (s : Machine ι) : Prop where
  current : σ.current = s.1
  running : (σ.task s.1).tss = tssOf s.2
  waiting : ∀ j, j ≠ s.1 → (σ.task j).tss.At s.2.mem (pool.tss j)
  own : ∀ j, ∀ y ∈ pool.own j, (σ.task j).mem y = s.2.mem y

/-- One processor and the saved contexts go through each event as the tasks do. -/
theorem Represents.step {σ : Tasks ι} {e : Event ι} {s s' : Machine ι} (h : Represents pool σ s)
    (hstep : Step pool e s s') : Represents pool (σ.apply e) s' := by
  cases hstep with
  | @work i c c' m leaves mem =>
    have hcur : σ.current = i := h.current
    constructor
    case current => exact hcur
    case running => simp [Tasks.apply, hcur]
    case waiting =>
      intro j hj
      simp only [Tasks.apply, hcur, Function.update_of_ne hj]
      exact leaves.at hj (h.waiting j hj)
    case own =>
      intro j y hy
      by_cases hj : j = i
      · subst hj
        simp only [Tasks.apply, hcur, Function.update_self]
        exact mem y hy
      · simp only [Tasks.apply, hcur, Function.update_of_ne hj]
        exact (h.own j y hy).trans (leaves.own j hj y hy).symm
  | @switch i next c ne prev arg =>
    have hsw := switched_switchTo (t := (σ.task next).tss) (c := c) (by rw [prev]; exact pool.fits i)
      (by rw [arg]; exact pool.fits next) (by rw [prev, arg]; exact pool.apart i next ne.symm)
      (by rw [arg]; exact h.waiting next ne)
    constructor
    case current => rfl
    case running => exact hsw.tss.symm
    case waiting =>
      intro j hj
      by_cases hji : j = i
      · subst hji
        have hsaved := hsw.saved
        rw [prev, ← h.running] at hsaved
        exact hsaved
      · apply (h.waiting j hji).congr (pool.fits j)
        intro n hn
        apply hsw.mem
        have := pool.apart i j (Ne.symm hji)
        rw [prev]
        show ¬ _
        omega
    case own =>
      intro j y hy
      have := pool.own_apart j i y hy
      exact (h.own j y hy).trans (hsw.mem y (by rw [prev]; exact this)).symm
  | @create i j c c' p ne leaves cpu tss mem =>
    have hcur : σ.current = i := h.current
    constructor
    case current => exact hcur
    case running =>
      simp only [Tasks.apply, Function.update_of_ne ne.symm]
      exact h.running.trans cpu.symm
    case waiting =>
      intro l hl
      by_cases hlj : l = j
      · subst hlj
        simp only [Tasks.apply, Function.update_self]
        exact tss
      · simp only [Tasks.apply, Function.update_of_ne hlj]
        exact leaves.at hlj (h.waiting l hl)
    case own =>
      intro l y hy
      by_cases hlj : l = j
      · subst hlj
        simp only [Tasks.apply, Function.update_self]
        exact mem y hy
      · simp only [Tasks.apply, Function.update_of_ne hlj]
        exact (h.own l y hy).trans (leaves.own l hlj y hy).symm

theorem Represents.run {σ : Tasks ι} {es : List (Event ι)} {s s' : Machine ι} (h : Represents pool σ s)
    (hrun : Run pool es s s') : Represents pool (es.foldl Tasks.apply σ) s' := by
  induction hrun generalizing σ with
  | done => exact h
  | cons hstep _ ih => exact ih (h.step hstep)

/-- Events in which task `i` neither runs nor is set up anew. -/
def Event.Away (i : ι) : Event ι → Prop
  | .work _ => True
  | .switch next => next ≠ i
  | .create j _ => j ≠ i

theorem Tasks.apply_away {i : ι} {σ : Tasks ι} (hcur : σ.current ≠ i) {e : Event ι} (he : e.Away i) :
    (σ.apply e).current ≠ i ∧ (σ.apply e).task i = σ.task i := by
  cases e with
  | work p => exact ⟨hcur, Function.update_of_ne hcur.symm _ _⟩
  | switch next => exact ⟨he, rfl⟩
  | create j p => exact ⟨hcur, Function.update_of_ne (Ne.symm he) _ _⟩

theorem Tasks.foldl_away {i : ι} {σ : Tasks ι} (hcur : σ.current ≠ i) {es : List (Event ι)}
    (hes : ∀ e ∈ es, e.Away i) : (es.foldl Tasks.apply σ).task i = σ.task i := by
  induction es generalizing σ with
  | nil => rfl
  | cons e es ih =>
    obtain ⟨hcur', htask⟩ := apply_away hcur (hes e (by simp))
    exact (ih hcur' fun e' he' => hes e' (by simp [he'])).trans htask

/-- `switch_to` returns to the link register that it loads. -/
theorem switchTo_pc (c : Cpu) : (run switchTo c).pc = (tssOf (run switchTo c)).lr := by
  rw [run_switchTo]
  rfl

/-- A task that waits is switched in as it was left, whatever other tasks did in the meantime. -/
theorem Represents.switched_in {σ : Tasks ι} {i : ι} {es : List (Event ι)} {s₁ s₂ s₃ : Machine ι}
    (h : Represents pool σ s₁) (hi : s₁.1 ≠ i) (meanwhile : Run pool es s₁ s₂)
    (away : ∀ e ∈ es, e.Away i) (step : Step pool (.switch i) s₂ s₃) :
    tssOf s₃.2 = (σ.task i).tss ∧ s₃.2.pc = (σ.task i).tss.lr ∧
      ∀ y ∈ pool.own i, s₃.2.mem y = (σ.task i).mem y := by
  have h₃ := (h.run meanwhile).step step
  have htask : ((es.foldl Tasks.apply σ).apply (.switch i)).task i = σ.task i :=
    Tasks.foldl_away (by rw [h.current]; exact hi) away
  have hcur : s₃.1 = i := h₃.current.symm
  have htss : tssOf s₃.2 = (σ.task i).tss := by rw [← h₃.running, hcur, htask]
  refine ⟨htss, ?_, fun y hy => ?_⟩
  · cases step with
    | switch => exact (switchTo_pc _).trans (congrArg Tss.lr htss)
  · rw [← h₃.own i y hy, htask]

/-- A task that is switched out comes back to the call of `switch_to`, with the registers that a
    called function keeps, the stack pointer, the page table and the bytes of its own that it had. To
    the exceptions on its stack, the whole time is one step of C code. -/
theorem switch_back {σ : Tasks ι} {i next : ι} {c : Cpu} {es : List (Event ι)} {s₁ s₂ s₃ : Machine ι}
    (h : Represents pool σ (i, c)) (out : Step pool (.switch next) (i, c) s₁) (meanwhile : Run pool es s₁ s₂)
    (away : ∀ e ∈ es, e.Away i) (back : Step pool (.switch i) s₂ s₃) :
    tssOf s₃.2 = tssOf c ∧ s₃.2.pc = c.x 30 ∧ (∀ y ∈ pool.own i, s₃.2.mem y = c.mem y) ∧
      ∀ (s : Stack) (kept : Set ℕ) (top : ℕ), c.sp.toNat ≤ top →
        (∀ y, top ≤ y → y < s.hi → y ∈ pool.own i) → (∀ y ∈ kept, y ∈ pool.own i) →
        Keeps s kept top c s₃.2 := by
  have hne : s₁.1 ≠ i := by
    cases out with
    | switch ne => exact ne
  obtain ⟨htss, hpc, hown⟩ := (h.step out).switched_in hne meanwhile away back
  have hrunning : (σ.task i).tss = tssOf c := h.running
  have hback : tssOf s₃.2 = tssOf c := htss.trans hrunning
  have hmem : ∀ y ∈ pool.own i, s₃.2.mem y = c.mem y := fun y hy => (hown y hy).trans (h.own i y hy)
  refine ⟨hback, hpc.trans (congrArg Tss.lr hrunning), hmem, ?_⟩
  intro s kept top htop hstack hkept
  have hsp : s₃.2.sp = c.sp := congrArg Tss.sp hback
  exact ⟨by rw [hsp]; exact htop, fun y hy hy' => hmem y (hstack y hy hy'), fun y hy => hmem y (hkept y hy)⟩

/-! ## The kernel's own tasks -/

open Mm (KernelImage kstackSize)

/-- `sizeof(struct task_struct)`. -/
abbrev taskSize : ℕ := 640

/-- The offset of `tss` in `struct task_struct`. -/
abbrev tssOffset : ℕ := 120

/-- Where the linker puts `task_pool`: not in `kstack_pool`. -/
structure TaskPool (im : KernelImage) where
  base : ℕ
  stop_lt : base + Sched.nrTasks * taskSize < 2 ^ 64
  apart : base + Sched.nrTasks * taskSize ≤ im.kstackPool ∨ im.kstackAt Sched.nrTasks ≤ base

variable {im : KernelImage} (l : TaskPool im)

/-- `&task_pool[i].tss`. -/
def TaskPool.tssAt (i : Sched.Slot) : Word := BitVec.ofNat 64 (l.base + i * taskSize + tssOffset)

theorem TaskPool.toNat_tssAt (i : Sched.Slot) : (l.tssAt i).toNat = l.base + i * taskSize + tssOffset := by
  have := l.stop_lt
  have := i.isLt
  unfold tssAt
  rw [BitVec.toNat_ofNat]
  unfold Sched.nrTasks taskSize tssOffset at *
  omega

/-- `kstack_pool[i]`. -/
def kstackOf (im : KernelImage) (i : Sched.Slot) : Set ℕ :=
  { y | im.kstackAt i ≤ y ∧ y < im.kstackAt i + kstackSize }

theorem TaskPool.fits (i : Sched.Slot) : (l.tssAt i).toNat + tssSize ≤ 2 ^ 64 := by
  have := l.stop_lt
  have := i.isLt
  rw [toNat_tssAt]
  unfold Sched.nrTasks taskSize tssOffset tssSize at *
  omega

theorem TaskPool.tss_apart (i j : Sched.Slot) (h : i ≠ j) :
    (l.tssAt i).toNat + tssSize ≤ (l.tssAt j).toNat ∨ (l.tssAt j).toNat + tssSize ≤ (l.tssAt i).toNat := by
  rw [toNat_tssAt, toNat_tssAt]
  have hne : i.val ≠ j.val := fun heq => h (Fin.ext heq)
  unfold taskSize tssOffset tssSize
  omega

theorem TaskPool.kstack_apart (i j : Sched.Slot) (y : ℕ) (hy : y ∈ kstackOf im i) :
    ¬ ((l.tssAt j).toNat ≤ y ∧ y < (l.tssAt j).toNat + tssSize) := by
  obtain ⟨h1, h2⟩ := hy
  have hi := i.isLt
  have hj := j.isLt
  have hapart := l.apart
  rw [toNat_tssAt]
  unfold KernelImage.kstackAt kstackSize taskSize tssOffset tssSize Sched.nrTasks at *
  omega

/-- The tasks, each with its kernel stack. -/
def TaskPool.tasks : Pool Sched.Slot := ⟨l.tssAt, l.fits, l.tss_apart, kstackOf im, l.kstack_apart⟩

/-! ## A concrete switch -/

theorem low_stop : 0xffff000000200000 + Sched.nrTasks * taskSize < 2 ^ 64 := by decide

theorem low_apart : 0xffff000000200000 + Sched.nrTasks * taskSize ≤ Mm.lowImage.kstackPool ∨
    Mm.lowImage.kstackAt Sched.nrTasks ≤ 0xffff000000200000 := by decide

/-- `task_pool` 1 MiB behind the stacks. -/
def lowTaskPool : TaskPool Mm.lowImage := ⟨0xffff000000200000, low_stop, low_apart⟩

/-- A processor with the arguments of `switch_to`. -/
def withTss (i j : Sched.Slot) (c : Cpu) : Cpu :=
  { c with x := Function.update (Function.update c.x 0 (lowTaskPool.tssAt i)) 1 (lowTaskPool.tssAt j) }

theorem withTss_x0 (i j : Sched.Slot) (c : Cpu) : (withTss i j c).x 0 = lowTaskPool.tssAt i := by
  show Function.update (Function.update c.x 0 (lowTaskPool.tssAt i)) 1 (lowTaskPool.tssAt j) 0 = _
  rw [Function.update_of_ne (by decide), Function.update_self]

theorem withTss_x1 (i j : Sched.Slot) (c : Cpu) : (withTss i j c).x 1 = lowTaskPool.tssAt j := by
  show Function.update (Function.update c.x 0 (lowTaskPool.tssAt i)) 1 (lowTaskPool.tssAt j) 1 = _
  rw [Function.update_self]

/-- What the words of a `tss` say. -/
def tssIn (m : Mem) (a : Word) : Tss where
  x r := word m (a + BitVec.ofNat 64 (8 * (r.1.val - 19)))
  sp := word m (a + 96#64)
  pgd := word m (a + 104#64)

theorem tssIn_at (m : Mem) (a : Word) : (tssIn m a).At m a := ⟨fun _ => rfl, rfl, rfl⟩

theorem Tss.At.tssIn_eq {t : Tss} {m : Mem} {a : Word} (h : t.At m a) : tssIn m a = t := by
  obtain ⟨x, sp, pgd⟩ := t
  unfold tssIn
  congr 1
  · exact funext h.x
  · exact h.sp
  · exact h.pgd

/-- The tasks as they are in memory, on a processor that runs task 0. -/
def tasksIn (c : Cpu) : Tasks Sched.Slot :=
  ⟨0, fun i => ⟨if i = 0 then tssOf c else tssIn c.mem (lowTaskPool.tssAt i), c.mem⟩⟩

theorem represents_tasksIn (c : Cpu) : Represents lowTaskPool.tasks (tasksIn c) (0, c) := by
  constructor
  case current => rfl
  case running => rfl
  case waiting =>
    intro j hj
    simp only [tasksIn, if_neg hj]
    exact tssIn_at c.mem _
  case own => exact fun _ _ _ => rfl

/-- Task 0 switches to task 1, which switches back at once. -/
theorem switch_back_low :
    tssOf (run switchTo (withTss 1 0 (run switchTo (withTss 0 1 startedCpu)))) =
      tssOf (withTss 0 1 startedCpu) := by
  have hout : Step lowTaskPool.tasks (.switch 1) (0, withTss 0 1 startedCpu)
      (1, run switchTo (withTss 0 1 startedCpu)) :=
    .switch (by decide) (withTss_x0 0 1 _) (withTss_x1 0 1 _)
  have hwork (c : Cpu) : Step lowTaskPool.tasks (.work ⟨tssOf (withTss 1 0 c), c.mem⟩) (1, c)
      (1, withTss 1 0 c) := .work ⟨fun _ _ _ _ _ => rfl, fun _ _ _ _ => rfl⟩ fun _ _ => rfl
  have hback (c : Cpu) : Step lowTaskPool.tasks (.switch 0) (1, withTss 1 0 c)
      (0, run switchTo (withTss 1 0 c)) := .switch (by decide) (withTss_x0 1 0 _) (withTss_x1 1 0 _)
  exact (switch_back (represents_tasksIn _) hout (.cons (hwork _) (.done _)) (by simp [Event.Away])
    (hback _)).1

end RaspiKernel.Cpu
