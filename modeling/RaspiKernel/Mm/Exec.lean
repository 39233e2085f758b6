import RaspiKernel.Mm.ForkSpace

/-!
# What `do_exec` leaves of earlier programs

`do_exec` makes a `pgd` for a task that has none, and maps the new program, the new
stack and the peripherals. It does not unmap anything. So the pages of the longest
program that a task has run stay mapped, and what the task sees after a further
call depends on all the earlier ones. A child of `sys_fork` starts with a copy of
one program, that of its parent.

Results:
* `ExecRun.traced`: the pages that are mapped after any sequence of calls and forks.
* `exec_image_iff`: nothing but the new image is mapped exactly if no earlier
  program had more pages, and the image is at the right place exactly if the
  program is page aligned.
-/

namespace RaspiKernel.Mm

open Lib (Span)
open Memblock (physToVirt virtToPhys kernelVaddrBase)

/-- The address is in the user stack. -/
def InStack (v : ℕ) : Prop := userStackAddr ≤ v ∧ v < userStackAddr + userStackSize

instance decidableInStack (v : ℕ) : Decidable (InStack v) :=
  inferInstanceAs (Decidable (userStackAddr ≤ v ∧ v < userStackAddr + userStackSize))

/-- The address is in the window of the peripherals. -/
def InPeripherals (v : ℕ) : Prop := peripheralBase ≤ v ∧ v < peripheralBase + peripheralSize

instance decidableInPeripherals (v : ℕ) : Decidable (InPeripherals v) :=
  inferInstanceAs (Decidable (peripheralBase ≤ v ∧ v < peripheralBase + peripheralSize))

/-- The address is on a page of a program of this size. -/
def InProg (size v : ℕ) : Prop := v < 4096 * nrPagesOf size

instance decidableInProg (size v : ℕ) : Decidable (InProg size v) :=
  inferInstanceAs (Decidable (v < 4096 * nrPagesOf size))

/-- Runs of a system in which tasks call `do_exec` and fork, with the sizes of the programs that each
    task has run so far. The first program of a child is the one that it inherits, and `child` is
    whatever slot it gets. In between, other blocks are taken from `kmalloc`, anything but the tables
    is overwritten, and any task is scheduled. -/
inductive ExecRun (km : Kmalloc) : Machine → (Sched.Slot → List ℕ) → Prop
  | boot (sched : Sched.State) (mem : ℕ → ℕ) :
    ExecRun km ⟨sched, fun _ => ⟨0, 0, 0⟩, ⟨mem, 0⟩, [], []⟩ fun _ => []
  | exec {σ : Machine} {past : Sched.Slot → List ℕ} (h : ExecRun km σ past) {func size : ℕ}
      (hram : InRam func size) :
    ExecRun km (doExec km σ func size) (Function.update past σ.cur (past σ.cur ++ [size]))
  | fork {σ : Machine} {past : Sched.Slot → List ℕ} (h : ExecRun km σ past) (child : Sched.Slot) :
    ExecRun km (forkInto km σ child) (Function.update past child [(σ.mm σ.cur).progSz])
  | kmalloc {σ : Machine} {past : Sched.Slot → List ℕ} (h : ExecRun km σ past) (size : ℕ) :
    ExecRun km (σ.kmalloc km size).2 past
  | store {σ : Machine} {past : Sched.Slot → List ℕ} (h : ExecRun km σ past) {mem : ℕ → ℕ}
      (hmem : ∀ a, InTable km.table σ.pgds σ.pt.next a → mem a = σ.pt.mem a) :
    ExecRun km (σ.setMem mem) past
  | sched {σ : Machine} {past : Sched.Slot → List ℕ} (h : ExecRun km σ past) (s : Sched.State) :
    ExecRun km { σ with sched := s } past

/-- What is mapped in a run: the pages of every program that the task has run. -/
structure Traced (km : Kmalloc) (σ : Machine) (past : Sched.Slot → List ℕ) (calls : List MapCall) :
    Prop where
  spaces : Spaces km σ calls
  mapped : ∀ t, (σ.mm t).pgd ≠ 0 → ∀ v,
    (∃ c ∈ calls, c.pgd = physToVirt (σ.mm t).pgd ∧ c.Covers v) ↔
      (∃ s ∈ past t, InProg s v) ∨ InStack v ∨ InPeripherals v
  small : ∀ t, ∀ s ∈ past t, s ≤ peripheralBase
  fresh : ∀ t, (σ.mm t).pgd = 0 → past t = []

section

variable {km : Kmalloc} {σ : Machine} {past : Sched.Slot → List ℕ} {calls : List MapCall}

theorem progCall_covers (P func size v : ℕ) : (progCall P func size).Covers v ↔ InProg size v := by
  unfold MapCall.Covers progCall InProg userProgStart
  dsimp only
  omega

theorem stackCall_covers (P stack v : ℕ) : (stackCall P stack).Covers v ↔ InStack v := by
  unfold MapCall.Covers stackCall InStack
  dsimp only
  rw [show 4096 * nrPagesOf userStackSize = userStackSize by decide]

theorem peripheralCall_covers (P v : ℕ) : (peripheralCall P).Covers v ↔ InPeripherals v := by
  unfold MapCall.Covers peripheralCall InPeripherals
  dsimp only
  rw [show 4096 * nrPagesOf peripheralSize = peripheralSize by decide]

/-- The addresses that the calls of `do_exec` cover. -/
theorem exists_execCalls_iff {P Q func size stack v : ℕ} :
    (∃ c ∈ execCalls P func size stack, c.pgd = Q ∧ c.Covers v) ↔
      P = Q ∧ (InProg size v ∨ InStack v ∨ InPeripherals v) := by
  have hpgd : (progCall P func size).pgd = P ∧ (stackCall P stack).pgd = P ∧
      (peripheralCall P).pgd = P := ⟨rfl, rfl, rfl⟩
  simp only [execCalls, List.exists_mem_cons_iff, List.not_mem_nil, false_and, exists_false, or_false,
    progCall_covers, stackCall_covers, peripheralCall_covers, hpgd]
  tauto

/-- The calls of `sys_fork` cover the same. -/
theorem exists_forkCalls_iff {P Q prog size stack v : ℕ} :
    (∃ c ∈ forkCalls P stack prog size, c.pgd = Q ∧ c.Covers v) ↔
      P = Q ∧ (InProg size v ∨ InStack v ∨ InPeripherals v) := by
  have hperm : (forkCalls P stack prog size).Perm (execCalls P prog size stack) := List.Perm.swap ..
  simp only [hperm.mem_iff]
  exact exists_execCalls_iff

theorem exists_mem_append {new : List MapCall} {p : MapCall → Prop} :
    (∃ c ∈ calls ++ new, p c) ↔ (∃ c ∈ calls, p c) ∨ ∃ c ∈ new, p c := by
  simp [or_and_right, exists_or]

/-- One call of `do_exec`. -/
theorem Traced.doExec {func size : ℕ} (h : Traced km σ past calls) (hram : InRam func size)
    (hk : km.Ok (doExec km σ func size)) :
    Traced km (doExec km σ func size) (Function.update past σ.cur (past σ.cur ++ [size]))
      (calls ++ execCalls (physToVirt ((σ.withPgd km).mm σ.cur).pgd) func size
        (km.block (σ.withPgd km).blocks.length)) := by
  have hsize : size ≤ peripheralBase := by
    obtain ⟨h1, h2⟩ := hram
    omega
  obtain ⟨hpgd, hspaces⟩ := h.spaces.doExec (hsize.trans (by decide)) hk
  have hcur : ((Mm.doExec km σ func size).mm σ.cur).pgd = ((σ.withPgd km).mm σ.cur).pgd := by
    rw [doExec_mm, Function.update_self]
  have hother : ∀ t ≠ σ.cur, (Mm.doExec km σ func size).mm t = σ.mm t := by
    intro t ht
    rw [doExec_mm, Function.update_of_ne ht, hpgd.others t ht]
  refine ⟨hspaces, fun t htp v => ?_, fun t s hs => ?_, fun t htp => ?_⟩
  · rw [exists_mem_append, exists_execCalls_iff]
    by_cases ht : t = σ.cur
    · subst ht
      rw [hcur, Function.update_self]
      have hpast : (∃ s ∈ past σ.cur ++ [size], InProg s v) ↔
          (∃ s ∈ past σ.cur, InProg s v) ∨ InProg size v := by
        simp [or_and_right, exists_or]
      rw [hpast]
      by_cases hold : (σ.mm σ.cur).pgd = 0
      · -- no call was made for the new `pgd`
        have hno : ¬ ∃ c ∈ calls, c.pgd = physToVirt ((σ.withPgd km).mm σ.cur).pgd ∧ c.Covers v := by
          rintro ⟨c, hc, hcP, -⟩
          exact (hpgd.new hold).1 _ (h.spaces.pgd_block _ (h.spaces.placed c hc).pgd) hcP
        have hempty : ¬ ∃ s ∈ past σ.cur, InProg s v := by
          rw [h.fresh σ.cur hold]
          simp
        simp only [hno, hempty, true_and, false_or]
      · rw [hpgd.old hold, h.mapped σ.cur hold v]
        simp only [true_and]
        generalize (∃ s ∈ past σ.cur, InProg s v) = earlier
        tauto
    · have hne : physToVirt ((σ.withPgd km).mm σ.cur).pgd ≠
          physToVirt ((Mm.doExec km σ func size).mm t).pgd := by
        rw [← hcur]
        intro heq
        exact ht (hspaces.pgd_inj σ.cur t (hcur ▸ hpgd.pgd_ne_zero) htp heq).symm
      rw [Function.update_of_ne ht, hother t ht] at *
      rw [h.mapped t htp v]
      simp [hne]
  · by_cases ht : t = σ.cur
    · subst ht
      rw [Function.update_self] at hs
      rcases List.mem_append.mp hs with hs | hs
      · exact h.small σ.cur s hs
      · rw [List.mem_singleton.mp hs]
        exact hsize
    · rw [Function.update_of_ne ht] at hs
      exact h.small t s hs
  · by_cases ht : t = σ.cur
    · subst ht
      exact absurd (hcur ▸ htp) hpgd.pgd_ne_zero
    · rw [hother t ht] at htp
      rw [Function.update_of_ne ht]
      exact h.fresh t htp

/-- One call of `sys_fork`. -/
theorem Traced.fork (h : Traced km σ past calls) (child : Sched.Slot) (hk : km.Ok (forkInto km σ child)) :
    ∃ calls', Traced km (forkInto km σ child) (Function.update past child [(σ.mm σ.cur).progSz]) calls' := by
  obtain ⟨P, stack, prog, src, hf⟩ := h.spaces.forkInto child hk
  have hpgd : ((forkInto km σ child).mm child).pgd = virtToPhys P := by rw [hf.mm]
  -- the `pgd` of the child is new, so that no earlier call was made for it
  have hnew : ∀ Q ∈ σ.pgds, Q ≠ P := fun Q hQ =>
    (newBase_three hk hf.blocks).1.1 _ (h.spaces.pgd_block Q hQ)
  refine ⟨_, hf.spaces, fun t htp v => ?_, fun t s hs => ?_, fun t htp => ?_⟩
  · rw [exists_mem_append, exists_forkCalls_iff]
    by_cases ht : t = child
    · subst ht
      have hno : ¬ ∃ c ∈ calls, c.pgd = P ∧ c.Covers v := by
        rintro ⟨c, hc, hcP, -⟩
        exact hnew _ (h.spaces.placed c hc).pgd hcP
      rw [hpgd, hf.virt, Function.update_self]
      simp only [hno, false_or, true_and, List.mem_singleton, exists_eq_left]
    · rw [hf.others t ht] at htp ⊢
      have hne : P ≠ physToVirt (σ.mm t).pgd := (hnew _ (h.spaces.pgd_mem t htp)).symm
      rw [Function.update_of_ne ht, ← h.mapped t htp v]
      simp only [hne, false_and, or_false]
  · by_cases ht : t = child
    · subst ht
      rw [Function.update_self, List.mem_singleton] at hs
      have hram := hk.ram ⟨prog, (σ.mm σ.cur).progSz⟩ (by simp [hf.blocks])
      simp only [Span.stop] at hram
      omega
    · rw [Function.update_of_ne ht] at hs
      exact h.small t s hs
  · by_cases ht : t = child
    · subst ht
      exact absurd (hpgd ▸ htp) hf.pgd
    · rw [hf.others t ht] at htp
      rw [Function.update_of_ne ht]
      exact h.fresh t htp

/-- Every run keeps the trace, as long as `kmalloc` does its work. -/
theorem ExecRun.traced (h : ExecRun km σ past) (hk : km.Ok σ) : ∃ calls, Traced km σ past calls := by
  induction h with
  | boot sched mem =>
    refine ⟨[], ⟨forest_init (by simp) (by simp), ⟨by simp, by simp⟩, by simp, ?_, ?_, by simp⟩, ?_, by simp,
      fun _ _ => rfl⟩
    · exact fun t ht => absurd rfl ht
    · exact fun t u ht => absurd rfl ht
    · exact fun t ht => absurd rfl ht
  | exec _ hram ih =>
    obtain ⟨calls, h⟩ := ih (hk.of_grows (grows_doExec _ _ _ _))
    exact ⟨_, h.doExec hram hk⟩
  | fork _ child ih =>
    obtain ⟨calls, h⟩ := ih (hk.of_grows (grows_forkInto km _ child))
    exact h.fork child hk
  | kmalloc _ size ih =>
    obtain ⟨calls, h⟩ := ih (hk.of_grows (grows_kmalloc _ _ size))
    exact ⟨calls, h.spaces.kmalloc size, h.mapped, h.small, h.fresh⟩
  | store _ hmem ih =>
    obtain ⟨calls, h⟩ := ih (hk.of_grows ⟨le_rfl, List.prefix_rfl⟩)
    exact ⟨calls, h.spaces.setMem hmem, h.mapped, h.small, h.fresh⟩
  | sched _ s ih =>
    obtain ⟨calls, h⟩ := ih (hk.of_grows ⟨le_rfl, List.prefix_rfl⟩)
    exact ⟨calls, h.spaces.setSched s, h.mapped, h.small, h.fresh⟩

end

/-! ## The image of a program -/

/-- Task `t` sees the program, the stack and the peripherals, and nothing else. -/
structure OnlyImage (σ : Machine) (t : Sched.Slot) (func size stack : ℕ) : Prop where
  mapped : ∀ v < 2 ^ 48, σ.Mapped t v ↔ InProg size v ∨ InStack v ∨ InPeripherals v
  prog : ∀ v, InProg size v → σ.translate t v = virtToPhys func + v
  stack : ∀ v, InStack v → σ.translate t v = virtToPhys stack + (v - userStackAddr)
  peripherals : ∀ v, InPeripherals v → σ.translate t v = v

section

variable {km : Kmalloc} {σ : Machine} {past : Sched.Slot → List ℕ} {calls : List MapCall}

/-- The last of the three calls of `do_exec` that covers an address decides. -/
theorem lastMapping_execCalls (P func size stack v : ℕ) :
    lastMapping (calls ++ execCalls P func size stack) P v =
      if InPeripherals v then some (peripheralCall P)
      else if InStack v then some (stackCall P stack)
      else if InProg size v then some (progCall P func size)
      else lastMapping calls P v := by
  have hsplit : calls ++ execCalls P func size stack =
      calls ++ [progCall P func size] ++ [stackCall P stack] ++ [peripheralCall P] := by
    simp [execCalls]
  have hP : (progCall P func size).pgd = P ∧ (stackCall P stack).pgd = P ∧
      (peripheralCall P).pgd = P := ⟨rfl, rfl, rfl⟩
  rw [hsplit, lastMapping_snoc, lastMapping_snoc, lastMapping_snoc]
  simp only [hP, true_and, progCall_covers, stackCall_covers, peripheralCall_covers]

/-- The pages of a program in RAM end before the peripherals. -/
theorem InProg.lt {size v : ℕ} (h : InProg size v) (hsize : size ≤ peripheralBase) :
    v < peripheralBase := by
  unfold InProg nrPagesOf at h
  unfold peripheralBase at hsize ⊢
  omega

theorem InProg.not_peripherals {size v : ℕ} (h : InProg size v) (hsize : size ≤ peripheralBase) :
    ¬ InPeripherals v := by
  have := h.lt hsize
  exact fun hp => absurd hp.1 (by omega)

theorem InProg.not_stack {size v : ℕ} (h : InProg size v) (hsize : size ≤ peripheralBase) :
    ¬ InStack v := by
  have := h.lt hsize
  unfold peripheralBase at this
  unfold InStack userStackAddr
  omega

theorem InStack.not_peripherals {v : ℕ} (h : InStack v) : ¬ InPeripherals v := by
  unfold InStack userStackAddr at h
  unfold InPeripherals peripheralBase peripheralSize
  omega

theorem InRam.size_le {func size : ℕ} (h : InRam func size) : size ≤ peripheralBase := by
  obtain ⟨h1, h2⟩ := h
  omega

theorem InRam.virtToPhys_eq {func size : ℕ} (h : InRam func size) :
    virtToPhys func = func - kernelVaddrBase := by
  obtain ⟨h1, h2⟩ := h
  unfold kernelVaddrBase peripheralBase at *
  rw [Memblock.virtToPhys_eq]
  omega

/-- A program in RAM that is page aligned is mapped as it should. -/
theorem progCall_valid {P func size : ℕ} (hP : P ∈ σ.pgds) (hram : InRam func size)
    (halign : 4096 ∣ func) : (progCall P func size).Valid σ.pgds := by
  have hphys := hram.virtToPhys_eq
  obtain ⟨h1, h2⟩ := hram
  unfold kernelVaddrBase peripheralBase at *
  refine ⟨hP, dvd_zero _, ?_, ?_, ?_, show pdApEl0 &&& entryAddrMask = 0 by decide⟩
  · show 4096 ∣ virtToPhys func
    rw [hphys]
    omega
  · show 0 + size ≤ 2 ^ 48
    omega
  · show virtToPhys func + size ≤ 2 ^ 48
    omega

theorem stackCall_valid {P stack : ℕ} (hP : P ∈ σ.pgds) (hram : InRam stack userStackSize)
    (halign : 4096 ∣ stack) : (stackCall P stack).Valid σ.pgds := by
  have hprog := progCall_valid hP hram halign
  exact ⟨hP, (stackCall_placed hP stack).va, hprog.pa, (stackCall_placed hP stack).va_le, hprog.pa_le,
    hprog.flags⟩

theorem peripheralCall_valid {P : ℕ} (hP : P ∈ σ.pgds) : (peripheralCall P).Valid σ.pgds :=
  ⟨hP, (peripheralCall_placed hP).va, (peripheralCall_placed hP).va, (peripheralCall_placed hP).va_le,
    (peripheralCall_placed hP).va_le, show pdApEl0 &&& entryAddrMask = 0 by decide⟩

/-- The address in an entry is page aligned. -/
theorem dvd_and_entryAddrMask (x : ℕ) : 4096 ∣ x &&& entryAddrMask := by
  have hlow : (x &&& entryAddrMask) &&& 0xfff = 0 := by
    rw [Nat.and_assoc, show entryAddrMask &&& 0xfff = 0 by decide, Nat.and_zero]
  rw [show (0xfff : ℕ) = 2 ^ 12 - 1 by norm_num, Nat.and_two_pow_sub_one_eq_mod] at hlow
  exact Nat.dvd_of_mod_eq_zero hlow

/-- Address 0 translates to the start of a page. -/
theorem dvd_simulateWalk_zero (mem : ℕ → ℕ) (P : ℕ) : 4096 ∣ simulateWalk mem P 0 := by
  rw [simulateWalk_eq, Nat.zero_and, Nat.or_zero]
  split_ifs
  · exact dvd_zero _
  · exact dvd_and_entryAddrMask _

/-- The translations of the image. -/
theorem Traced.translate_image {func size stack : ℕ} {t : Sched.Slot}
    (h : Traced km σ past (calls ++ execCalls (physToVirt (σ.mm t).pgd) func size stack))
    (hpgd : (σ.mm t).pgd ≠ 0) (hram : InRam func size) (hstack : InRam stack userStackSize)
    (halign : 4096 ∣ stack) :
    (4096 ∣ func → ∀ v, InProg size v → σ.translate t v = virtToPhys func + v) ∧
      (∀ v, InStack v → σ.translate t v = virtToPhys stack + (v - userStackAddr)) ∧
      ∀ v, InPeripherals v → σ.translate t v = v := by
  have hP := h.spaces.pgd_mem t hpgd
  refine ⟨fun hfunc v hv => ?_, fun v hv => ?_, fun v hv => ?_⟩
  · have hlast := @lastMapping_execCalls calls (physToVirt (σ.mm t).pgd) func size stack v
    rw [if_neg (hv.not_peripherals hram.size_le), if_neg (hv.not_stack hram.size_le), if_pos hv] at hlast
    exact h.spaces.simulateWalk_eq hP hlast (progCall_valid hP hram hfunc)
  · have hlast := @lastMapping_execCalls calls (physToVirt (σ.mm t).pgd) func size stack v
    rw [if_neg hv.not_peripherals, if_pos hv] at hlast
    rw [Machine.translate, h.spaces.simulateWalk_eq hP hlast (stackCall_valid hP hstack halign),
      stackCall_pa, stackCall_va]
  · have hlast := @lastMapping_execCalls calls (physToVirt (σ.mm t).pgd) func size stack v
    rw [if_pos hv] at hlast
    rw [Machine.translate, h.spaces.simulateWalk_eq hP hlast (peripheralCall_valid hP)]
    exact Nat.add_sub_cancel' hv.1

/-- What the current task sees after `do_exec`. -/
structure AfterExec (km : Kmalloc) (σ : Machine) (past : Sched.Slot → List ℕ) (func size stack : ℕ) :
    Prop where
  small : ∀ s ∈ past σ.cur, s ≤ peripheralBase
  last : (doExec km σ func size).blocks.getLast? = some ⟨stack, userStackSize⟩
  mapped : ∀ v < 2 ^ 48, (doExec km σ func size).Mapped σ.cur v ↔
    (∃ s ∈ past σ.cur ++ [size], InProg s v) ∨ InStack v ∨ InPeripherals v
  prog : 4096 ∣ func → ∀ v, InProg size v →
    (doExec km σ func size).translate σ.cur v = virtToPhys func + v
  inStack : ∀ v, InStack v →
    (doExec km σ func size).translate σ.cur v = virtToPhys stack + (v - userStackAddr)
  peripherals : ∀ v, InPeripherals v → (doExec km σ func size).translate σ.cur v = v

theorem ExecRun.afterExec (hrun : ExecRun km σ past) {func size : ℕ} (hram : InRam func size)
    (hk : km.Ok (doExec km σ func size)) : ∃ stack, AfterExec km σ past func size stack := by
  obtain ⟨calls, h⟩ := hrun.traced (hk.of_grows (grows_doExec _ _ _ _))
  have h' := h.doExec hram hk
  have hpgd : ((doExec km σ func size).mm σ.cur).pgd ≠ 0 := by
    rw [doExec_mm, Function.update_self]
    exact (h.spaces.withPgd (hk.of_grows (grows_withPgd_doExec _ _ _ _))).pgd_ne_zero
  have hcalls : physToVirt ((σ.withPgd km).mm σ.cur).pgd =
      physToVirt ((doExec km σ func size).mm σ.cur).pgd := by
    rw [doExec_mm, Function.update_self]
  rw [hcalls] at h'
  have hP := h'.spaces.pgd_mem σ.cur hpgd
  have hlast : (doExec km σ func size).blocks.getLast? =
      some ⟨km.block (σ.withPgd km).blocks.length, userStackSize⟩ := by
    rw [doExec_blocks, List.getLast?_concat]
  have hblock := List.mem_of_getLast? hlast
  obtain ⟨hprog, hst, hper⟩ := h'.translate_image hpgd hram
    ⟨(hk.ram _ hblock).1.le, (hk.ram _ hblock).2⟩
    (hk.aligned _ hblock (show 4096 ≤ userStackSize by decide))
  refine ⟨_, h.small σ.cur, hlast, fun v hv => ?_, hprog, hst, hper⟩
  have hpages := h'.mapped σ.cur hpgd v
  rw [Function.update_self] at hpages
  rw [Machine.Mapped, Machine.entry, h'.spaces.mapped_iff hP hv, hpages]

/-- An image without residue is aligned and at least as long as the earlier ones. -/
theorem AfterExec.of_image {func size stack stack' : ℕ} (h : AfterExec km σ past func size stack)
    (hram : InRam func size) (himage : OnlyImage (doExec km σ func size) σ.cur func size stack') :
    (size = 0 ∨ 4096 ∣ func) ∧ ∀ s ∈ past σ.cur, nrPagesOf s ≤ nrPagesOf size := by
  refine ⟨?_, fun s hs => ?_⟩
  · by_contra hno
    obtain ⟨hsize, hfunc⟩ := not_or.mp hno
    have hzero : InProg size 0 := by
      unfold InProg nrPagesOf
      omega
    have hdvd := dvd_simulateWalk_zero (doExec km σ func size).pt.mem
      (physToVirt ((doExec km σ func size).mm σ.cur).pgd)
    rw [show simulateWalk _ _ 0 = virtToPhys func + 0 from himage.prog 0 hzero,
      hram.virtToPhys_eq] at hdvd
    obtain ⟨hbase, -⟩ := hram
    unfold kernelVaddrBase at hbase hdvd
    omega
  · by_contra hlt
    -- the first page behind the new program
    have hin : InProg s (4096 * nrPagesOf size) := by
      unfold InProg
      omega
    have hsmall := h.small s hs
    have hlow := hin.lt hsmall
    unfold peripheralBase at hlow
    have hmapped := (h.mapped (4096 * nrPagesOf size) (by omega)).mpr
      (Or.inl ⟨s, List.mem_append_left _ hs, hin⟩)
    rcases (himage.mapped _ (by omega)).mp hmapped with hp | hp | hp
    · unfold InProg at hp
      omega
    · exact hin.not_stack hsmall hp
    · exact hin.not_peripherals hsmall hp

theorem AfterExec.image {func size stack : ℕ} (h : AfterExec km σ past func size stack)
    (halign : size = 0 ∨ 4096 ∣ func) (hle : ∀ s ∈ past σ.cur, nrPagesOf s ≤ nrPagesOf size) :
    OnlyImage (doExec km σ func size) σ.cur func size stack := by
  refine ⟨fun v hv => ?_, fun v hv => ?_, h.inStack, h.peripherals⟩
  · rw [h.mapped v hv]
    refine or_congr_left ⟨?_, fun hp => ⟨size, List.mem_append_right _ (List.mem_singleton_self _), hp⟩⟩
    rintro ⟨s, hs, hp⟩
    rcases List.mem_append.mp hs with hs | hs
    · have := hle s hs
      unfold InProg at hp ⊢
      omega
    · rwa [List.mem_singleton.mp hs] at hp
  · refine h.prog (halign.resolve_left ?_) v hv
    rintro rfl
    unfold InProg nrPagesOf at hv
    omega

/-- **Residue of earlier programs.** For every run of `do_exec` calls and forks of any tasks and a further
    call of the current one with a program in RAM: the task sees the new program, the new stack and
    the peripherals and nothing else exactly if the program is page aligned (or empty) and no program
    that the task has run or inherited before had more pages. -/
theorem exec_image_iff (hrun : ExecRun km σ past) {func size : ℕ} (hram : InRam func size)
    (hk : km.Ok (doExec km σ func size)) :
    (∃ stack, (doExec km σ func size).blocks.getLast? = some ⟨stack, userStackSize⟩ ∧
        OnlyImage (doExec km σ func size) σ.cur func size stack) ↔
      (size = 0 ∨ 4096 ∣ func) ∧ ∀ s ∈ past σ.cur, nrPagesOf s ≤ nrPagesOf size := by
  obtain ⟨stack, h⟩ := hrun.afterExec hram hk
  constructor
  · rintro ⟨stack', -, himage⟩
    exact h.of_image hram himage
  · rintro ⟨halign, hle⟩
    exact ⟨stack, h.last, h.image halign hle⟩

end

/-- A machine in which task 0 has run a program of two pages. -/
def twoPages : Machine :=
  doExec spread ⟨Sched.taskInit, fun _ => ⟨0, 0, 0⟩, ⟨fun _ => 0, 0⟩, [], []⟩ 0xffff000000100000 0x2000

theorem twoPages_run :
    ExecRun spread twoPages (Function.update (fun _ => []) 0 [0x2000]) ∧ Roomy 40000 2 twoPages := by
  have hram : InRam 0xffff000000100000 0x2000 := ⟨by decide, by decide⟩
  have hboot : Roomy 0 0 ⟨Sched.taskInit, fun _ => ⟨0, 0, 0⟩, ⟨fun _ => 0, 0⟩, [], []⟩ :=
    ⟨le_rfl, le_rfl, by simp⟩
  exact ⟨.exec (.boot Sched.taskInit fun _ => 0) hram, hboot.doExec (by norm_num)⟩

/-- After a program of two pages, one of three pages leaves no residue. -/
theorem exec_image_three : ∃ σ past, ExecRun spread σ past ∧ past σ.cur = [0x2000] ∧
    InRam 0xffff000000200000 0x2345 ∧ spread.Ok (doExec spread σ 0xffff000000200000 0x2345) ∧
    ∃ stack, (doExec spread σ 0xffff000000200000 0x2345).blocks.getLast? =
        some ⟨stack, userStackSize⟩ ∧
      OnlyImage (doExec spread σ 0xffff000000200000 0x2345) σ.cur 0xffff000000200000 0x2345 stack := by
  obtain ⟨hrun, hroom⟩ := twoPages_run
  have hram : InRam 0xffff000000200000 0x2345 := ⟨by decide, by decide⟩
  have hk : spread.Ok (doExec spread twoPages 0xffff000000200000 0x2345) :=
    (hroom.doExec (by norm_num)).ok (by norm_num) (by norm_num)
  have hcur : twoPages.cur = 0 := rfl
  refine ⟨twoPages, _, hrun, by rw [hcur, Function.update_self], hram, hk,
    (exec_image_iff hrun hram hk).mpr ⟨Or.inr (by norm_num), ?_⟩⟩
  rw [hcur, Function.update_self]
  decide

/-- After a program of two pages, one of one page leaves the second page mapped. -/
theorem exec_leaves_page : ∃ σ past, ExecRun spread σ past ∧
    InRam 0xffff000000200000 0x1000 ∧ spread.Ok (doExec spread σ 0xffff000000200000 0x1000) ∧
    ¬ ∃ stack, (doExec spread σ 0xffff000000200000 0x1000).blocks.getLast? =
        some ⟨stack, userStackSize⟩ ∧
      OnlyImage (doExec spread σ 0xffff000000200000 0x1000) σ.cur 0xffff000000200000 0x1000 stack := by
  obtain ⟨hrun, hroom⟩ := twoPages_run
  have hram : InRam 0xffff000000200000 0x1000 := ⟨by decide, by decide⟩
  have hk : spread.Ok (doExec spread twoPages 0xffff000000200000 0x1000) :=
    (hroom.doExec (by norm_num)).ok (by norm_num) (by norm_num)
  refine ⟨twoPages, _, hrun, hram, hk, ?_⟩
  rintro ⟨stack', -, himage⟩
  obtain ⟨stack, h⟩ := hrun.afterExec hram hk
  have hle := (h.of_image hram himage).2 0x2000 (by
    rw [show twoPages.cur = 0 from rfl, Function.update_self]
    exact List.mem_singleton_self _)
  exact absurd hle (by decide)

end RaspiKernel.Mm
