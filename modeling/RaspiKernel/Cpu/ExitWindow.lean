import RaspiKernel.Cpu.Nested

/-!
# Interrupts on the way out of the kernel

`load_all` and `eret` (`exception_.S`, lines 70–95 and 155–156) with an interrupt before any of their
instructions. `ELR_EL1` and `SPSR_EL1` are what the next exception overwrites, so the way out is safe
until the first of them is set. The handlers are entered with interrupts masked; `sys_uart_read`
(`syscall.c`, line 52) unmasks them and comes back like that.

Results:
* `exit_restores_iff`: the way out leads to the context in the trapframe exactly if no interrupt comes
  behind its fourth instruction, and whatever number of interrupts comes before.
* `exit_masked`: with interrupts masked there are none.
-/

namespace RaspiKernel.Cpu

open Lib Lib.A64

/-- Code from its instruction `n` on, with interrupts. `hits` lists the instructions they come before. -/
inductive ExitRun (k : Labels) (s : Stack) (kept : Set ℕ) : ℕ → List Instr → List ℕ → Cpu → Cpu → Prop
  | done (n : ℕ) (c : Cpu) : ExitRun k s kept n [] [] c c
  | instr {n : ℕ} {i : Instr} {l : List Instr} {hits : List ℕ} {c c' : Cpu}
      (rest : ExitRun k s kept (n + 1) l hits (exec i c) c') : ExitRun k s kept n (i :: l) hits c c'
  | irq {n : ℕ} {i : Instr} {l : List Instr} {hits : List ℕ} {c c₁ c' : Cpu}
      (irq : Irq k s kept c c₁) (rest : ExitRun k s kept n (i :: l) hits c₁ c') :
      ExitRun k s kept n (i :: l) (n :: hits) c c'

variable {k : Labels} {s : Stack} {kept : Set ℕ} {n : ℕ} {l : List Instr} {hits : List ℕ}

/-- What some interrupts in a row leave alone. -/
structure Paused (s : Stack) (c c' : Cpu) : Prop where
  x : c'.x = c.x
  sp : c'.sp = c.sp
  spEl0 : c'.sys .spEl0 = c.sys .spEl0
  pstate : c'.pstate = c.pstate
  stack : ∀ y, c.sp.toNat ≤ y → y < s.hi → c'.mem y = c.mem y

theorem Paused.refl (s : Stack) (c : Cpu) : Paused s c c := ⟨rfl, rfl, rfl, rfl, fun _ _ _ => rfl⟩

theorem Paused.resumed {c c₁ c' : Cpu} (h : Resumed s kept c c₁) (h' : Paused s c₁ c') : Paused s c c' where
  x := h'.x.trans h.x
  sp := h'.sp.trans h.sp
  spEl0 := h'.spEl0.trans h.spEl0
  pstate := h'.pstate.trans h.pstate
  stack y hy hy' := (h'.stack y (by rw [h.sp]; exact hy) hy').trans (h.stack y hy hy')

/-! ## Runs of the way out -/

/-- Up to the next instruction: some interrupts, then the instruction. -/
theorem ExitRun.cons (hkept : s.Apart kept) {i : Instr} {c c' : Cpu}
    (h : ExitRun k s kept n (i :: l) hits c c') :
    ∃ c₁ later, Paused s c c₁ ∧ ExitRun k s kept (n + 1) l later (exec i c₁) c' ∧
      (∀ m ∈ later, m ∈ hits) ∧ ∀ m ∈ hits, m = n ∨ m ∈ later := by
  generalize hcode : i :: l = code at h
  induction h with
  | done => cases hcode
  | @instr n _ _ hits c _ rest =>
    cases hcode
    exact ⟨c, hits, .refl s c, rest, fun m hm => hm, fun m hm => .inr hm⟩
  | irq irq _ ih =>
    obtain ⟨c₁, later, hpaused, hrest, hsub, hcases⟩ := ih hcode
    refine ⟨c₁, later, .resumed (irq_resumes hkept irq) hpaused, hrest,
      fun m hm => List.mem_cons_of_mem _ (hsub m hm), ?_⟩
    intro m hm
    rcases List.mem_cons.mp hm with rfl | hm
    · exact .inl rfl
    · exact hcases m hm

/-- No interrupt comes before an instruction that is already over. -/
theorem ExitRun.le {c c' : Cpu} (h : ExitRun k s kept n l hits c c') : ∀ m ∈ hits, n ≤ m := by
  induction h with
  | done => simp
  | instr _ ih => exact fun m hm => Nat.le_of_succ_le (ih m hm)
  | irq _ _ ih =>
    intro m hm
    rcases List.mem_cons.mp hm with rfl | hm
    · exact le_rfl
    · exact ih m hm

theorem ExitRun.of_run (n : ℕ) (l : List Instr) (c : Cpu) : ExitRun k s kept n l [] c (run l c) := by
  induction l generalizing n c with
  | nil => exact .done n c
  | cons i l ih => exact .instr (ih _ _)

/-- With no interrupt left, the code runs as it is written. -/
theorem ExitRun.eq_run {c c' : Cpu} (h : ExitRun k s kept n l hits c c') (hnone : hits = []) :
    c' = run l c := by
  induction h with
  | done => rfl
  | instr _ ih => exact ih hnone
  | irq => cases hnone

/-- An instruction that leaves `PSTATE` and `SPSR_EL1` alone. -/
def Quiet (i : Instr) : Prop :=
  ∀ c, (exec i c).pstate = c.pstate ∧ (exec i c).sys .spsrEl1 = c.sys .spsrEl1

/-- Once `SPSR_EL1` says that the CPU comes from the kernel, `eret` stays in the kernel. -/
theorem ExitRun.stays (hkept : s.Apart kept) {pre : List Instr} (hpre : ∀ i ∈ pre, Quiet i) {c c' : Cpu}
    (h : ExitRun k s kept n (pre ++ [.eret]) hits c c')
    (hlost : hits ≠ [] ∨ c.sys .spsrEl1 = c.pstate) : c'.pstate = c.pstate := by
  generalize hcode : pre ++ [.eret] = code at h
  induction h generalizing pre with
  | done => simp at hcode
  | @instr n i l hits c _ rest ih =>
    cases pre with
    | nil =>
      cases hcode
      cases rest
      exact hlost.resolve_left fun h => h rfl
    | cons j pre =>
      cases hcode
      have hquiet := hpre i (by simp) c
      rw [← hquiet.1]
      apply ih (fun i hi => hpre i (by simp [hi])) _ rfl
      rw [hquiet.1, hquiet.2]
      exact hlost
  | irq irq _ ih =>
    have hres := irq_resumes hkept irq
    rw [← hres.pstate]
    exact ih hpre (.inr (hres.spsr.trans hres.pstate.symm)) hcode

/-! ## `load_all` and `eret` -/

theorem exitKernel_eq :
    exitKernel = .ldp 30 21 .sp 240 :: .msr .spEl0 21 :: .ldp 21 22 .sp 256 :: (loadRest ++ [.eret]) := rfl

/-- `loadRest` behind its first instruction. -/
def loadTail : List Instr := .msr .elrEl1 22 :: (ldps .sp generalPairs ++ [.ldr 30 .sp 240, .addSp 272])

theorem loadRest_eq : loadRest = .msr .spsrEl1 21 :: loadTail := rfl

theorem quiet_loadTail : ∀ i ∈ loadTail, Quiet i := by
  intro i hi c
  rcases List.mem_cons.mp hi with rfl | hi
  · refine ⟨rfl, ?_⟩
    rw [exec_msr_sys, Function.update_of_ne (by decide)]
  rcases List.mem_append.mp hi with hi | hi
  · obtain ⟨p, -, rfl⟩ := List.mem_map.mp hi
    exact ⟨rfl, rfl⟩
  · rcases List.mem_cons.mp hi with rfl | hi
    · exact ⟨rfl, rfl⟩
    · rw [List.mem_singleton.mp hi]
      exact ⟨rfl, rfl⟩

/-- `d` is on the way out from `c`: the trapframe is still on the stack. -/
structure Leaving (s : Stack) (tf : Trapframe) (c d : Cpu) : Prop where
  frame : tf.At d.mem d.sp
  sp : d.sp = c.sp
  pstate : d.pstate = c.pstate
  inside : c.sp.toNat + 272 ≤ s.hi

theorem Leaving.paused {tf : Trapframe} {c d d' : Cpu} (h : Leaving s tf c d) (hp : Paused s d d') :
    Leaving s tf c d' := by
  have := s.hi_lt
  have := h.inside
  refine ⟨?_, hp.sp.trans h.sp, hp.pstate.trans h.pstate, h.inside⟩
  have hsp : d.sp.toNat = c.sp.toNat := congrArg _ h.sp
  rw [hp.sp]
  apply h.frame.congr (by omega)
  intro i hi
  exact hp.stack _ (by omega) (by omega)

theorem Leaving.ldp {tf : Trapframe} {c d : Cpu} (h : Leaving s tf c d) (t t2 : Reg) (b : Base) (off : ℕ) :
    Leaving s tf c (exec (.ldp t t2 b off) d) := ⟨h.frame, h.sp, h.pstate, h.inside⟩

theorem Leaving.msr {tf : Trapframe} {c d : Cpu} (h : Leaving s tf c d) (r : SysReg) (t : Reg) :
    Leaving s tf c (exec (.msr r t) d) := ⟨h.frame, h.sp, h.pstate, h.inside⟩

/-- The first three instructions, and the interrupts up to the fourth. -/
theorem ExitRun.begin (hkept : s.Apart kept) {tf : Trapframe} {c c' : Cpu} (hc : Leaving s tf c c)
    (h : ExitRun k s kept 0 exitKernel hits c c') :
    ∃ d later, Leaving s tf c d ∧ d.sys .spEl0 = tf.sp ∧ d.x 21 = tf.pstate ∧ d.x 22 = tf.pc ∧
      ExitRun k s kept 4 (loadTail ++ [.eret]) later (exec (.msr .spsrEl1 21) d) c' ∧
      (∀ m ∈ later, m ∈ hits) ∧ ∀ m ∈ hits, m < 4 ∨ m ∈ later := by
  rw [exitKernel_eq] at h
  -- before each instruction, what the last one has loaded is still there
  obtain ⟨c₀, hits₀, p₀, h, sub₀, cases₀⟩ := h.cons hkept
  have l₀ := hc.paused p₀
  obtain ⟨c₁, hits₁, p₁, h, sub₁, cases₁⟩ := h.cons hkept
  have l₁ := (l₀.ldp 30 21 .sp 240).paused p₁
  have hx21 : c₁.x 21 = tf.sp := by rw [p₁.x, ldp_sp l₀.frame]
  obtain ⟨c₂, hits₂, p₂, h, sub₂, cases₂⟩ := h.cons hkept
  have l₂ := (l₁.msr .spEl0 21).paused p₂
  have hspEl0 : c₂.sys .spEl0 = tf.sp := by
    rw [p₂.spEl0, exec_msr_sys, Function.update_self, hx21]
  rw [loadRest_eq, List.cons_append] at h
  obtain ⟨d, later, p₃, h, sub₃, cases₃⟩ := h.cons hkept
  have hctx := ldp_pstate l₂.frame
  refine ⟨d, later, (l₂.ldp 21 22 .sp 256).paused p₃, p₃.spEl0.trans hspEl0, ?_, ?_, h, ?_, ?_⟩
  · rw [p₃.x, hctx.1]
  · rw [p₃.x, hctx.2]
  · exact fun m hm => sub₀ m (sub₁ m (sub₂ m (sub₃ m hm)))
  · intro m hm
    have h₀ := cases₀ m hm
    have h₁ := cases₁ m
    have h₂ := cases₂ m
    have h₃ := cases₃ m
    by_cases hlater : m ∈ later
    · exact .inr hlater
    · refine .inl ?_
      simp only [hlater, or_false] at h₃
      grind

/-- Up to the fourth instruction, any number of interrupts does no harm. -/
theorem ExitRun.restored (hkept : s.Apart kept) {tf : Trapframe} {c c' : Cpu} (htf : tf.At c.mem c.sp)
    (hhi : c.sp.toNat + 272 ≤ s.hi) (h : ExitRun k s kept 0 exitKernel hits c c')
    (hhits : ∀ m ∈ hits, m < 4) : Restored tf c c' := by
  obtain ⟨d, later, hd, hspEl0, hx21, hx22, hrest, hsub, -⟩ := h.begin hkept ⟨htf, rfl, rfl, hhi⟩
  have hle := hrest.le
  have hnone : later = [] := by
    rw [List.eq_nil_iff_forall_not_mem]
    intro m hm
    have := hle m hm
    have := hhits m (hsub m hm)
    omega
  have hc' := hrest.eq_run hnone
  rw [← run_cons, ← List.cons_append, ← loadRest_eq, run_append, run_loadRest hd.frame hx21 hx22] at hc'
  subst hc'
  constructor
  case sp => exact congrArg (· + 272#64) hd.sp
  all_goals simp [exec, hspEl0]

/-- The way out leads to the context in the trapframe exactly if no interrupt comes behind its fourth
    instruction. -/
theorem exit_restores_iff (hkept : s.Apart kept) {tf : Trapframe} {c c' : Cpu} (htf : tf.At c.mem c.sp)
    (hhi : c.sp.toNat + 272 ≤ s.hi) (hlevel : tf.pstate ≠ c.pstate)
    (h : ExitRun k s kept 0 exitKernel hits c c') : Restored tf c c' ↔ ∀ m ∈ hits, m < 4 := by
  refine ⟨fun hres m hm => ?_, h.restored hkept htf hhi⟩
  by_contra hm'
  obtain ⟨d, later, hd, -, -, -, hrest, -, hcases⟩ := h.begin hkept ⟨htf, rfl, rfl, hhi⟩
  have hlater : later ≠ [] := List.ne_nil_of_mem ((hcases m hm).resolve_left hm')
  have hstays := hrest.stays hkept quiet_loadTail (.inl hlater)
  exact hlevel (hres.pstate.symm.trans (hstays.trans hd.pstate))

/-- Code before the next interrupt runs as it is written. -/
theorem ExitRun.after (pre : List Instr) {c c' : Cpu}
    (h : ExitRun k s kept (n + pre.length) l hits (run pre c) c') :
    ExitRun k s kept n (pre ++ l) hits c c' := by
  induction pre generalizing n c with
  | nil => exact h
  | cons i pre ih =>
    refine .instr (ih ?_)
    rw [List.length_cons, show n + (pre.length + 1) = n + 1 + pre.length by omega] at h
    exact h

/-- The kernel on its way out to a program, with interrupts unmasked. -/
def leavingCpu : Cpu := { startedCpu with sp := 0x1800, pstate := 5 }

theorem leaving_frame : (⟨fun _ => 0, 0, 0, 0⟩ : Trapframe).At leavingCpu.mem leavingCpu.sp := by
  have hword : ∀ a, word (fun _ => 0) a = 0 := by
    intro a
    unfold word
    rw [load_eq (v := 0) fun i _ => by rw [Nat.zero_div]; rfl]
    rfl
  exact ⟨fun _ => hword _, hword _, hword _, hword _⟩

/-- An interrupt right before the `eret` sends it back into the kernel. -/
theorem exit_restores_iff_eret :
    ¬ Restored ⟨fun _ => 0, 0, 0, 0⟩ leavingCpu
      (run [.eret] (run exitKernel (irqEntry lowLabels (run loadAll leavingCpu)))) := by
  have hloaded := run_loadAll leaving_frame
  have hpstate : (run loadAll leavingCpu).pstate = 5 := by rw [hloaded]; rfl
  have hsp : (run loadAll leavingCpu).sp = 0x1910 := by rw [hloaded]; rfl
  have hirq : Irq lowLabels startedStack ∅ (run loadAll leavingCpu)
      (run exitKernel (irqEntry lowLabels (run loadAll leavingCpu))) := by
    apply Irq.idle
    · unfold Unmasked
      rw [hpstate]
      rfl
    · unfold Stack.Room
      rw [hsp]
      decide
  have hrun : ExitRun lowLabels startedStack ∅ 0 exitKernel [22] leavingCpu
      (run [.eret] (run exitKernel (irqEntry lowLabels (run loadAll leavingCpu)))) :=
    .after loadAll (.irq hirq (.of_run _ _ _))
  rw [exit_restores_iff (fun y hy => absurd hy (Set.notMem_empty y)) leaving_frame (by decide) (by decide) hrun]
  simp

/-- With interrupts masked there are none before the exception return. -/
theorem ExitRun.masked {pre : List Instr} (hpre : Instr.eret ∉ pre) {c c' : Cpu} (hmasked : ¬ Unmasked c)
    (h : ExitRun k s kept n (pre ++ [.eret]) hits c c') : hits = [] := by
  generalize hcode : pre ++ [.eret] = code at h
  induction h generalizing pre with
  | done => simp at hcode
  | @instr n i l hits c _ rest ih =>
    cases pre with
    | nil =>
      cases hcode
      cases rest
      rfl
    | cons j pre =>
      cases hcode
      rw [List.mem_cons, not_or] at hpre
      apply ih hpre.2 _ rfl
      unfold Unmasked
      rw [exec_pstate (Ne.symm hpre.1)]
      exact hmasked
  | irq irq =>
    obtain ⟨unmasked, _⟩ := irq
    exact absurd unmasked hmasked

/-- With interrupts masked the way out always leads to the context in the trapframe. -/
theorem exit_masked (hkept : s.Apart kept) {tf : Trapframe} {c c' : Cpu} (htf : tf.At c.mem c.sp)
    (hhi : c.sp.toNat + 272 ≤ s.hi) (hmasked : ¬ Unmasked c)
    (h : ExitRun k s kept 0 exitKernel hits c c') : Restored tf c c' := by
  have hnone : hits = [] := h.masked (by simp [loadAll]) hmasked
  apply h.restored hkept htf hhi
  simp [hnone]

end RaspiKernel.Cpu
