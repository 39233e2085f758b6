import RaspiKernel.Mm.User

/-!
# The address space that `sys_fork` makes

`sys_fork` (`src/syscall.c`, lines 116–137) takes blocks for the `pgd`, the stack and the program of the
child, copies the parent's into the last two, and maps them. What the tables say
afterwards does not depend on where in a page the program is, nor on what is copied. The same
holds of the copy that `initrd_usr_prog` makes before it calls `do_exec`.

Results:
* `Kmalloc.Ok.copy_frame`: a copy to a block that is no table stores to no table.
* `Spaces.copyProg`: `do_exec` is called with the old tables and the program in a new block.
* `Spaces.forkInto`: the child has tables of its own, and everything that is in no
  table is as the two copies have left it.
-/

namespace RaspiKernel.Mm

open Lib (Span)
open Lib.WordMem
open Memblock (physToVirt virtToPhys kernelVaddrBase)

/-! ## Blocks and tables -/

section

variable {km : Kmalloc} {σ σ' : Machine} {calls : List MapCall}

/-- Two blocks at different addresses do not meet. -/
theorem Kmalloc.Ok.blocks_apart (hk : km.Ok σ) {b b' : Span} (hb : b ∈ σ.blocks) (hb' : b' ∈ σ.blocks)
    (hne : b.base ≠ b'.base) : b.stop ≤ b'.base ∨ b'.stop ≤ b.base := by
  have : Std.Symm fun b b' : Span => b.base ≠ b'.base ∧ (b.stop ≤ b'.base ∨ b'.stop ≤ b.base) :=
    ⟨fun _ _ h => ⟨h.1.symm, h.2.symm⟩⟩
  exact (hk.apart.forall hb hb' fun heq => hne (congrArg Span.base heq)).2

/-- A block ends below the peripherals. -/
theorem Kmalloc.Ok.size_le (hk : km.Ok σ) {b : Span} (hb : b ∈ σ.blocks) : b.size ≤ peripheralBase := by
  obtain ⟨hlow, hhigh⟩ := hk.ram b hb
  unfold Span.stop at hhigh
  omega

theorem Kmalloc.Ok.isPage_table (hk : km.Ok σ) (hpgds : ∀ P ∈ σ.pgds, ⟨P, 4096⟩ ∈ σ.blocks) {t : ℕ}
    (ht : IsTable km.table σ.pgds σ.pt.next t) : IsPage t := by
  rcases ht with ht | ⟨k, hk', rfl⟩
  · exact hk.isPage (hpgds t ht) le_rfl
  · exact hk.page k hk'

/-- A page that a block which is no table reaches into holds no table. -/
theorem Kmalloc.Ok.page_not_inTable (hk : km.Ok σ) (hpgds : ∀ P ∈ σ.pgds, ⟨P, 4096⟩ ∈ σ.blocks)
    {b : Span} {x a : ℕ} (hb : b ∈ σ.blocks) (hbase : b.base ∉ σ.pgds) (hx : x ∈ b)
    (ha : a / 4096 = x / 4096) : ¬ InTable km.table σ.pgds σ.pt.next a := by
  obtain ⟨hlow, hhigh⟩ := hx
  rintro ⟨t, ht, hta⟩
  -- a table is a whole page, so that `x` is in it as well
  have halign := (hk.isPage_table hpgds ht).2.2
  rcases ht with ht | ⟨k, hk', rfl⟩
  · have hne : b.base ≠ t := by
      rintro rfl
      exact hbase ht
    have := hk.blocks_apart hb (hpgds t ht) hne
    simp only [Span.stop] at this hhigh
    omega
  · have := hk.page_apart k hk' _ hb
    omega

/-- A copy to a block that is no table stores to no table. -/
theorem Kmalloc.Ok.copy_frame (hk : km.Ok σ) (hpgds : ∀ P ∈ σ.pgds, ⟨P, 4096⟩ ∈ σ.blocks) {dst src n : ℕ}
    (hb : ⟨dst, n⟩ ∈ σ.blocks) (hdst : dst ∉ σ.pgds) {mem : ℕ → ℕ}
    (hmem : mem = copyBytes σ.pt.mem dst src n ∨ mem = moveBytes σ.pt.mem dst src n) {a : ℕ}
    (ha : InTable km.table σ.pgds σ.pt.next a) : mem a = σ.pt.mem a := by
  have hne : ∀ i < n, a ≠ (dst + i) / 8 * 8 := by
    rintro i hi rfl
    -- the word may begin in front of the block, but on the same page
    have hin : dst + i ∈ (⟨dst, n⟩ : Span) := ⟨Nat.le_add_right dst i, Nat.add_lt_add_left hi dst⟩
    exact hk.page_not_inTable hpgds hb hdst hin (by omega) ha
  rcases hmem with rfl | rfl
  · exact copyBytes_of_ne hne
  · exact moveBytes_of_ne hne

theorem Spaces.copy {dst src n : ℕ} (h : Spaces km σ calls) (hk : km.Ok σ)
    (hb : ⟨dst, n⟩ ∈ σ.blocks) (hdst : dst ∉ σ.pgds) {mem : ℕ → ℕ}
    (hmem : mem = copyBytes σ.pt.mem dst src n ∨ mem = moveBytes σ.pt.mem dst src n) :
    Spaces km (σ.setMem mem) calls :=
  h.setMem fun _ ha => hk.copy_frame h.pgd_block hb hdst hmem ha

theorem NewBase.not_mem_pgds {base : ℕ} (h : NewBase σ base) (hs : Spaces km σ calls) :
    base ∉ σ.pgds := fun hin => h _ (hs.pgd_block _ hin) rfl

/-- Nor is it one of them after another new block has become a `pgd`. -/
theorem NewBase.not_mem_new_pgds {σ' : Machine} {base P : ℕ} (h : NewBase σ base)
    (hs : Spaces km σ calls) (hP : P ≠ base) (hpgds : σ'.pgds = P :: σ.pgds) : base ∉ σ'.pgds := by
  rw [hpgds, List.mem_cons, not_or]
  exact ⟨hP.symm, h.not_mem_pgds hs⟩

/-- The three new blocks are at three new addresses. -/
theorem newBase_three {σ' : Machine} {P stack prog sz : ℕ} (hk : km.Ok σ')
    (hblocks : σ'.blocks = σ.blocks ++ [⟨P, 4096⟩, ⟨stack, userStackSize⟩, ⟨prog, sz⟩]) :
    (NewBase σ P ∧ NewBase σ stack ∧ NewBase σ prog) ∧ P ≠ stack ∧ P ≠ prog ∧ stack ≠ prog := by
  have hapart := hk.apart
  rw [hblocks, List.pairwise_append] at hapart
  obtain ⟨-, hnew, hcross⟩ := hapart
  simp only [List.pairwise_cons, List.mem_cons, List.not_mem_nil, or_false, forall_eq_or_imp,
    forall_eq] at hnew
  refine ⟨⟨fun b hb => ?_, fun b hb => ?_, fun b hb => ?_⟩, hnew.1.1.1, hnew.1.2.1, hnew.2.1.1⟩
  · exact (hcross b hb ⟨P, 4096⟩ (by simp)).1
  · exact (hcross b hb ⟨stack, userStackSize⟩ (by simp)).1
  · exact (hcross b hb ⟨prog, sz⟩ (by simp)).1

/-! ## `initrd_usr_prog` -/

theorem mem_kmalloc_blocks (km : Kmalloc) (σ : Machine) (size : ℕ) :
    ⟨(σ.kmalloc km size).1, size⟩ ∈ (σ.kmalloc km size).2.blocks :=
  List.mem_append_right _ (List.mem_singleton_self _)

theorem grows_setMem (σ : Machine) (mem : ℕ → ℕ) : Grows σ (σ.setMem mem) :=
  ⟨le_rfl, List.prefix_rfl⟩

/-- `initrd_usr_prog` before it calls `do_exec`. -/
def copyProg (km : Kmalloc) (σ : Machine) (progAddr fs : ℕ) : Machine :=
  (σ.kmalloc km fs).2.setMem
    (moveBytes (σ.kmalloc km fs).2.pt.mem (σ.kmalloc km fs).1 progAddr fs)

theorem initrdUsrProg_eq (km : Kmalloc) (σ : Machine) (progAddr fs : ℕ) :
    initrdUsrProg km σ progAddr fs =
      doExec km (copyProg km σ progAddr fs) (σ.kmalloc km fs).1 fs := rfl

/-- The copy leaves the tasks and the tables, and takes one block. -/
theorem copyProg_eq (km : Kmalloc) (σ : Machine) (progAddr fs : ℕ) :
    (copyProg km σ progAddr fs).sched = σ.sched ∧ (copyProg km σ progAddr fs).mm = σ.mm ∧
    (copyProg km σ progAddr fs).pgds = σ.pgds ∧
    (copyProg km σ progAddr fs).blocks = σ.blocks ++ [⟨(σ.kmalloc km fs).1, fs⟩] :=
  ⟨rfl, rfl, rfl, rfl⟩

theorem copyProg_cur (km : Kmalloc) (σ : Machine) (progAddr fs : ℕ) :
    (copyProg km σ progAddr fs).cur = σ.cur := rfl

theorem grows_copyProg (km : Kmalloc) (σ : Machine) (progAddr fs : ℕ) :
    Grows σ (copyProg km σ progAddr fs) :=
  (grows_kmalloc km σ fs).trans (grows_setMem _ _)

theorem grows_doExec (km : Kmalloc) (σ : Machine) (func size : ℕ) : Grows σ (doExec km σ func size) :=
  (grows_withPgd km σ).trans (grows_withPgd_doExec km σ func size)

theorem grows_copyProg_initrdUsrProg (km : Kmalloc) (σ : Machine) (progAddr fs : ℕ) :
    Grows (copyProg km σ progAddr fs) (initrdUsrProg km σ progAddr fs) :=
  grows_doExec km _ _ fs

theorem grows_initrdUsrProg (km : Kmalloc) (σ : Machine) (progAddr fs : ℕ) :
    Grows σ (initrdUsrProg km σ progAddr fs) :=
  (grows_copyProg km σ progAddr fs).trans (grows_copyProg_initrdUsrProg km σ progAddr fs)

/-- The program has a block of its own when `do_exec` is called, and the tables are the old ones. -/
structure Copied (km : Kmalloc) (σ : Machine) (calls : List MapCall) (progAddr fs : ℕ) : Prop where
  ok : km.Ok (copyProg km σ progAddr fs)
  spaces : Spaces km (copyProg km σ progAddr fs) calls
  block : ⟨(σ.kmalloc km fs).1, fs⟩ ∈ (copyProg km σ progAddr fs).blocks
  newBase : NewBase σ (σ.kmalloc km fs).1
  notPgd : (σ.kmalloc km fs).1 ∉ σ.pgds
  size : fs ≤ peripheralBase

theorem Spaces.copyProg {progAddr fs : ℕ} (h : Spaces km σ calls)
    (hk : km.Ok (initrdUsrProg km σ progAddr fs)) : Copied km σ calls progAddr fs := by
  have hk₁ := hk.of_grows (grows_copyProg_initrdUsrProg km σ progAddr fs)
  have hk₀ : km.Ok (σ.kmalloc km fs).2 := hk₁.of_grows (grows_setMem _ _)
  have hblock := mem_kmalloc_blocks km σ fs
  have hnew : NewBase σ (σ.kmalloc km fs).1 := hk₀.newBase_kmalloc
  have hnot := hnew.not_mem_pgds h
  exact ⟨hk₁, (h.kmalloc fs).copy hk₀ hblock hnot (Or.inr rfl), hblock, hnew, hnot, hk₀.size_le hblock⟩

/-- The `pgd` of the task is one of the old ones or a new block. -/
theorem HasPgd.new_pgds {σ' : Machine} (h : HasPgd km σ σ' calls) {P : ℕ} (hP : P ∈ σ'.pgds) :
    P ∈ σ.pgds ∨ NewBase σ P := by
  by_cases hold : (σ.mm σ.cur).pgd = 0
  · obtain ⟨hnew, hpgds⟩ := h.new hold
    rw [hpgds] at hP
    rcases List.mem_cons.mp hP with rfl | hP
    · exact .inr hnew
    · exact .inl hP
  · rw [h.old hold] at hP
    exact .inl hP

/-! ## `sys_fork` -/

/-- The calls that `sys_fork` makes. -/
def forkCalls (pgd stack prog size : ℕ) : List MapCall :=
  [stackCall pgd stack, progCall pgd prog size, peripheralCall pgd]

theorem mem_forkCalls {pgd stack prog size : ℕ} {c : MapCall} : c ∈ forkCalls pgd stack prog size ↔
    c = stackCall pgd stack ∨ c = progCall pgd prog size ∨ c = peripheralCall pgd := by
  simp [forkCalls]

theorem forkCalls_placed {P stack prog size : ℕ} (hP : P ∈ σ.pgds) (hsize : size ≤ 2 ^ 48) :
    ∀ c ∈ forkCalls P stack prog size, c.Placed σ.pgds := by
  intro c hc
  rcases mem_forkCalls.mp hc with rfl | rfl | rfl
  · exact stackCall_placed hP stack
  · exact progCall_placed hP hsize
  · exact peripheralCall_placed hP

/-- `sys_fork` after the new `pgd` and the first copy. -/
def forkStack (km : Kmalloc) (σ : Machine) (cur : UserMm) : Machine :=
  let σ₂ := ((σ.createPgd km).2.kmalloc km userStackSize).2
  σ₂.memcpy ((σ.createPgd km).2.kmalloc km userStackSize).1
    (physToVirt (simulateWalk σ₂.pt.mem (physToVirt cur.pgd) userStackAddr)) userStackSize

/-- `sys_fork` after the second copy. -/
def forkProg (km : Kmalloc) (σ : Machine) (cur : UserMm) : Machine :=
  ((forkStack km σ cur).kmalloc km cur.progSz).2.memcpy
    ((forkStack km σ cur).kmalloc km cur.progSz).1 cur.progAddr cur.progSz

theorem forkSpace_eq (km : Kmalloc) (σ : Machine) (cur : UserMm) : forkSpace km σ cur =
    (⟨virtToPhys (σ.createPgd km).1, ((forkStack km σ cur).kmalloc km cur.progSz).1, cur.progSz⟩,
      (forkProg km σ cur).mapAll km (forkCalls (σ.createPgd km).1
        ((σ.createPgd km).2.kmalloc km userStackSize).1
        ((forkStack km σ cur).kmalloc km cur.progSz).1 cur.progSz)) := by
  unfold forkSpace forkProg forkStack forkCalls stackCall progCall peripheralCall
  -- definitional proofs would make the kernel run the copies
  simp -implicitDefEqProofs only [mapPages_eq_mapAll, mapAll_mapAll, List.cons_append, List.nil_append]

theorem createPgd_setMm (t : Sched.Slot) (m : UserMm) :
    (σ.setMm t m).createPgd km = ((σ.createPgd km).1, (σ.createPgd km).2.setMm t m) := rfl

theorem kmalloc_setMm (t : Sched.Slot) (m : UserMm) (size : ℕ) :
    (σ.setMm t m).kmalloc km size = ((σ.kmalloc km size).1, (σ.kmalloc km size).2.setMm t m) := rfl

theorem memcpy_setMm (t : Sched.Slot) (m : UserMm) (dest src n : ℕ) :
    (σ.setMm t m).memcpy dest src n = (σ.memcpy dest src n).setMm t m := rfl

theorem mapAll_setMm (t : Sched.Slot) (m : UserMm) :
    (σ.setMm t m).mapAll km new = (σ.mapAll km new).setMm t m := rfl

theorem setMm_pt (t : Sched.Slot) (m : UserMm) : (σ.setMm t m).pt = σ.pt := rfl

theorem setMm_setMm (t : Sched.Slot) (m m' : UserMm) : (σ.setMm t m).setMm t m' = σ.setMm t m' := by
  unfold Machine.setMm
  rw [Function.update_idem]

/-- The copy of the task data is overwritten. -/
theorem forkInto_eq (km : Kmalloc) (σ : Machine) (child : Sched.Slot) : forkInto km σ child =
    (forkSpace km σ (σ.mm σ.cur)).2.setMm child (forkSpace km σ (σ.mm σ.cur)).1 := by
  unfold forkInto
  simp -implicitDefEqProofs only [forkSpace_eq, forkProg, forkStack, createPgd_setMm, kmalloc_setMm,
    memcpy_setMm, mapAll_setMm, setMm_pt, setMm_setMm]

/-! ### What it takes and what it copies -/

/-- A copy only touches the memory. -/
theorem memcpy_eq (σ : Machine) (dest src n : ℕ) : (σ.memcpy dest src n).sched = σ.sched ∧
    (σ.memcpy dest src n).mm = σ.mm ∧ (σ.memcpy dest src n).pgds = σ.pgds ∧
    (σ.memcpy dest src n).blocks = σ.blocks ∧
    (σ.memcpy dest src n).pt.mem = copyBytes σ.pt.mem dest src n := ⟨rfl, rfl, rfl, rfl, rfl⟩

theorem kmalloc_eq (km : Kmalloc) (σ : Machine) (size : ℕ) :
    (σ.kmalloc km size).2.sched = σ.sched ∧ (σ.kmalloc km size).2.mm = σ.mm ∧
    (σ.kmalloc km size).2.pgds = σ.pgds ∧
    (σ.kmalloc km size).2.blocks = σ.blocks ++ [⟨(σ.kmalloc km size).1, size⟩] ∧
    (σ.kmalloc km size).2.pt.mem = σ.pt.mem := ⟨rfl, rfl, rfl, rfl, rfl⟩

theorem createPgd_eq (km : Kmalloc) (σ : Machine) :
    (σ.createPgd km).2.sched = σ.sched ∧ (σ.createPgd km).2.mm = σ.mm ∧
    (σ.createPgd km).2.pgds = (σ.createPgd km).1 :: σ.pgds ∧
    (σ.createPgd km).2.blocks = σ.blocks ++ [⟨(σ.createPgd km).1, 4096⟩] ∧
    (σ.createPgd km).2.pt.mem = zeroPage (σ.createPgd km).1 σ.pt.mem := ⟨rfl, rfl, rfl, rfl, rfl⟩

theorem forkProg_eq (km : Kmalloc) (σ : Machine) (cur : UserMm) :
    (forkProg km σ cur).sched = σ.sched ∧ (forkProg km σ cur).mm = σ.mm ∧
    (forkProg km σ cur).pgds = (σ.createPgd km).1 :: σ.pgds ∧
    (forkProg km σ cur).blocks = σ.blocks ++ [⟨(σ.createPgd km).1, 4096⟩,
      ⟨((σ.createPgd km).2.kmalloc km userStackSize).1, userStackSize⟩,
      ⟨((forkStack km σ cur).kmalloc km cur.progSz).1, cur.progSz⟩] ∧
    (forkProg km σ cur).pt.mem = copyBytes (forkStack km σ cur).pt.mem
      ((forkStack km σ cur).kmalloc km cur.progSz).1 cur.progAddr cur.progSz := by
  have hstack : (forkStack km σ cur).sched = σ.sched ∧ (forkStack km σ cur).mm = σ.mm ∧
      (forkStack km σ cur).pgds = (σ.createPgd km).1 :: σ.pgds ∧
      (forkStack km σ cur).blocks = σ.blocks ++ [⟨(σ.createPgd km).1, 4096⟩] ++
        [⟨((σ.createPgd km).2.kmalloc km userStackSize).1, userStackSize⟩] := by
    unfold forkStack
    simp only [memcpy_eq, kmalloc_eq, createPgd_eq, and_self]
  unfold forkProg
  simp only [memcpy_eq, kmalloc_eq, hstack, List.append_assoc, List.cons_append, List.nil_append,
    and_self]

theorem forkStack_mem (km : Kmalloc) (σ : Machine) (cur : UserMm) :
    (forkStack km σ cur).pt.mem = copyBytes (zeroPage (σ.createPgd km).1 σ.pt.mem)
      ((σ.createPgd km).2.kmalloc km userStackSize).1
      (physToVirt (simulateWalk (zeroPage (σ.createPgd km).1 σ.pt.mem) (physToVirt cur.pgd)
        userStackAddr)) userStackSize := by
  unfold forkStack
  simp only [memcpy_eq, kmalloc_eq, createPgd_eq]

theorem grows_memcpy (σ : Machine) (dest src n : ℕ) : Grows σ (σ.memcpy dest src n) :=
  ⟨le_rfl, List.prefix_rfl⟩

theorem grows_forkStack (km : Kmalloc) (σ : Machine) (cur : UserMm) :
    Grows ((σ.createPgd km).2.kmalloc km userStackSize).2 (forkStack km σ cur) := by
  unfold forkStack
  exact grows_memcpy _ _ _ _

theorem grows_forkProg (km : Kmalloc) (σ : Machine) (cur : UserMm) :
    Grows ((forkStack km σ cur).kmalloc km cur.progSz).2 (forkProg km σ cur) := by
  unfold forkProg
  exact grows_memcpy _ _ _ _

theorem grows_forkInto (km : Kmalloc) (σ : Machine) (child : Sched.Slot) :
    Grows σ (forkInto km σ child) := by
  rw [forkInto_eq, forkSpace_eq]
  exact (grows_createPgd km σ).trans ((grows_kmalloc km _ _).trans ((grows_forkStack km σ _).trans
    ((grows_kmalloc km _ _).trans ((grows_forkProg km σ _).trans
      ((grows_mapAll km _ _).trans (grows_setMm _ _ _))))))

/-! ### The tables of the child -/

/-- A block is taken and filled. -/
theorem Spaces.kmalloc_memcpy {n : ℕ} (h : Spaces km σ calls) (hk : km.Ok (σ.kmalloc km n).2) (src : ℕ) :
    Spaces km ((σ.kmalloc km n).2.memcpy (σ.kmalloc km n).1 src n) calls :=
  (h.kmalloc n).copy hk (mem_kmalloc_blocks km σ n) (hk.newBase_kmalloc.not_mem_pgds h) (Or.inl rfl)

theorem Spaces.forkStack {cur : UserMm} (h : Spaces km σ calls) (hk : km.Ok (forkStack km σ cur)) :
    Spaces km (Mm.forkStack km σ cur) calls := by
  have hk₂ := hk.of_grows (grows_forkStack km σ cur)
  have hk₁ := hk₂.of_grows (grows_kmalloc km _ _)
  unfold Mm.forkStack
  exact (h.createPgd hk₁).1.kmalloc_memcpy hk₂ _

theorem Spaces.forkProg {cur : UserMm} (h : Spaces km σ calls) (hk : km.Ok (forkProg km σ cur)) :
    Spaces km (Mm.forkProg km σ cur) calls := by
  have hk₂ := hk.of_grows (grows_forkProg km σ cur)
  have hk₁ := hk₂.of_grows (grows_kmalloc km _ _)
  unfold Mm.forkProg
  exact (h.forkStack hk₁).kmalloc_memcpy hk₂ _

/-- The new `pgd` does not change what a task sees. -/
theorem Spaces.simulateWalk_createPgd (h : Spaces km σ calls) (hk : km.Ok (σ.createPgd km).2) {t : Sched.Slot}
    (hpgd : (σ.mm t).pgd ≠ 0) {v : ℕ} (hv : v < 2 ^ 48) :
    simulateWalk (zeroPage (σ.createPgd km).1 σ.pt.mem) (physToVirt (σ.mm t).pgd) v = σ.translate t v := by
  have hsame := zeroPage_inTable h.forest (h.fresh (hk.of_grows (grows_createPgd km σ)))
    hk.isPage_createPgd.1 (hk.createPgd_not_isTable h.pgd_block)
  have hP := h.pgd_mem t hpgd
  rw [Machine.translate, Mm.simulateWalk_eq, Mm.simulateWalk_eq, h.forest.tableAt_eq hsame hP hv 3 le_rfl,
    h.forest.leafEntry_eq hsame hP hv]

/-- `child` has tables that map a copy of the parent's program and a copy of what is at `src`, the stack
    of a parent that has one. -/
structure Forked (km : Kmalloc) (σ σ' : Machine) (calls : List MapCall) (child : Sched.Slot)
    (P stack prog src : ℕ) : Prop where
  spaces : Spaces km σ' (calls ++ forkCalls P stack prog (σ.mm σ.cur).progSz)
  mm : σ'.mm child = ⟨virtToPhys P, prog, (σ.mm σ.cur).progSz⟩
  pgd : virtToPhys P ≠ 0
  virt : physToVirt (virtToPhys P) = P
  others : ∀ u ≠ child, σ'.mm u = σ.mm u
  blocks : σ'.blocks = σ.blocks ++ [⟨P, 4096⟩, ⟨stack, userStackSize⟩, ⟨prog, (σ.mm σ.cur).progSz⟩]
  pgds : σ'.pgds = P :: σ.pgds
  mem : ∀ a, ¬ InTable km.table σ'.pgds σ'.pt.next a → σ'.pt.mem a =
    copyBytes (copyBytes (zeroPage P σ.pt.mem) stack src userStackSize) prog
      (σ.mm σ.cur).progAddr (σ.mm σ.cur).progSz a
  src_eq : (σ.mm σ.cur).pgd ≠ 0 → src = physToVirt (σ.translate σ.cur userStackAddr)

theorem Forked.setSched {child : Sched.Slot} {P stack prog src : ℕ}
    (h : Forked km σ σ' calls child P stack prog src) (s : Sched.State) :
    Forked km σ { σ' with sched := s } calls child P stack prog src :=
  ⟨h.spaces.setSched s, h.mm, h.pgd, h.virt, h.others, h.blocks, h.pgds, h.mem, h.src_eq⟩

/-- `sys_fork` makes a tree for the child, whatever it copies. -/
theorem Spaces.forkInto (h : Spaces km σ calls) (child : Sched.Slot) (hk : km.Ok (forkInto km σ child)) :
    ∃ P stack prog src, Forked km σ (Mm.forkInto km σ child) calls child P stack prog src := by
  rw [forkInto_eq, forkSpace_eq] at hk ⊢
  have hk₆ : km.Ok ((Mm.forkProg km σ (σ.mm σ.cur)).mapAll km (forkCalls (σ.createPgd km).1
      ((σ.createPgd km).2.kmalloc km userStackSize).1
      ((Mm.forkStack km σ (σ.mm σ.cur)).kmalloc km (σ.mm σ.cur).progSz).1 (σ.mm σ.cur).progSz)) :=
    hk.of_grows ⟨le_rfl, List.prefix_rfl⟩
  have hk₅ := hk₆.of_grows (grows_mapAll km _ _)
  have h₅ := h.forkProg hk₅
  have hk₁ : km.Ok (σ.createPgd km).2 := hk₅.of_grows ((grows_kmalloc km _ _).trans
    ((grows_forkStack km σ (σ.mm σ.cur)).trans ((grows_kmalloc km _ _).trans (grows_forkProg km σ _))))
  have hsrc (hpgd : (σ.mm σ.cur).pgd ≠ 0) := h.simulateWalk_createPgd hk₁ hpgd (v := userStackAddr)
    (by norm_num)
  obtain ⟨-, hmm, hpgds, hblocks, hmem⟩ := forkProg_eq km σ (σ.mm σ.cur)
  rw [forkStack_mem] at hmem
  generalize (σ.createPgd km).1 = P at *
  generalize ((σ.createPgd km).2.kmalloc km userStackSize).1 = stack at *
  generalize ((Mm.forkStack km σ (σ.mm σ.cur)).kmalloc km (σ.mm σ.cur).progSz).1 = prog at *
  generalize Mm.forkProg km σ (σ.mm σ.cur) = σ₅ at *
  have hP : P ∈ σ₅.pgds := by
    rw [hpgds]
    exact List.mem_cons_self
  have hPblock : ⟨P, 4096⟩ ∈ σ₅.blocks := h₅.pgd_block P hP
  have hpage := hk₅.isPage hPblock le_rfl
  have hsize : (σ.mm σ.cur).progSz ≤ peripheralBase :=
    hk₅.size_le (b := ⟨prog, (σ.mm σ.cur).progSz⟩) (by simp [hblocks])
  obtain ⟨h₆, hframe⟩ := h₅.mapAll (forkCalls_placed hP (hsize.trans (by decide))) hk₆
  have hnew : NewBase σ P := (newBase_three hk₅ hblocks).1.1
  have h₇ := h₆.setMm_new hpage hP (by
    intro u hu heq
    rw [mapAll_mm, hmm] at hu heq
    exact hnew _ (h.pgd_block _ (h.pgd_mem u hu)) heq) child
    (m := ⟨virtToPhys P, prog, (σ.mm σ.cur).progSz⟩) rfl
  refine ⟨P, stack, prog, _, h₇, Machine.setMm_self _ _ _, virtToPhys_ne_zero hpage (hk₅.ram _ hPblock).1,
    physToVirt_virtToPhys hpage, fun u hu => ?_, hblocks, hpgds, fun a ha => ?_,
    fun hpgd => congrArg physToVirt (hsrc hpgd)⟩
  · rw [Machine.setMm_of_ne _ hu, mapAll_mm, hmm]
  · rw [← hmem]
    exact hframe a ha

end

end RaspiKernel.Mm
