import RaspiKernel.Lib.WordMem
import RaspiKernel.Mm.Tables
import RaspiKernel.Sched.Run

/-!
# User address spaces: model

Model of `do_exec` (`src/exec.c`), of the part of `sys_fork` that is about memory
(`src/syscall.c`, lines 91–143) and of the way a program of the initrd gets to
`do_exec` (`src/initrd.c`, lines 134–185).

* There is one memory for tables, programs and stacks: a function of the address
  of an aligned word in the linear map of the kernel.
* `kmalloc` is two sequences: `table k` is what call `k` returns that `walk` makes
  for a table, `block k` what call `k` returns of all the others. `blocks` is the
  record of the latter, `pgds` of the tables among them.
* `struct mm_struct` and `tss.pgd` are kept next to the scheduler's part of
  `task_struct`. The kernel stacks and the registers are not modelled.

`Spaces` is the invariant that ties the tables to a flat map.
-/

namespace RaspiKernel.Mm

open Lib (Span)
open Lib.WordMem (byte copyBytes moveBytes)
open Memblock (physToVirt virtToPhys kernelVaddrBase)

/-- `PERIPHERAL_BASE`. -/
abbrev peripheralBase : ℕ := 0x3c000000

/-- `PERIPHERAL_SIZE`. -/
abbrev peripheralSize : ℕ := 0x03000000

/-- `USER_PROG_START`. -/
abbrev userProgStart : ℕ := 0

/-- `USER_STACK_ADDR`. -/
abbrev userStackAddr : ℕ := 0xffffffffb000

/-- `USER_STACK_SIZE`. -/
abbrev userStackSize : ℕ := 0x4000

/-- `PD_AP_EL0`. -/
abbrev pdApEl0 : ℕ := 1 <<< 6

/-- What the calls of `kmalloc` return. -/
structure Kmalloc where
  table : ℕ → ℕ
  block : ℕ → ℕ

/-- `tss.pgd`, `mm.prog_addr` and `mm.prog_sz`. -/
structure UserMm where
  pgd : ℕ
  progAddr : ℕ
  progSz : ℕ
  deriving DecidableEq, Repr

/-- The tasks and the memory. -/
structure Machine where
  sched : Sched.State
  mm : Sched.Slot → UserMm
  pt : PtState
  blocks : List Span
  pgds : List ℕ

/-- The slot of `current`. -/
abbrev Machine.cur (σ : Machine) : Sched.Slot := σ.sched.current

/-- Replace the memory data of one task. -/
def Machine.setMm (σ : Machine) (t : Sched.Slot) (m : UserMm) : Machine :=
  { σ with mm := Function.update σ.mm t m }

@[simp] theorem Machine.setMm_self (σ : Machine) (t : Sched.Slot) (m : UserMm) :
    (σ.setMm t m).mm t = m :=
  Function.update_self ..

theorem Machine.setMm_of_ne (σ : Machine) {t u : Sched.Slot} (h : u ≠ t) (m : UserMm) :
    (σ.setMm t m).mm u = σ.mm u := Function.update_of_ne h ..

/-- Replace the memory. -/
def Machine.setMem (σ : Machine) (mem : ℕ → ℕ) : Machine :=
  { σ with pt := { σ.pt with mem := mem } }

@[simp] theorem Machine.setMem_mem (σ : Machine) (mem : ℕ → ℕ) : (σ.setMem mem).pt.mem = mem := rfl

/-- `kmalloc(size)`. -/
def Machine.kmalloc (km : Kmalloc) (σ : Machine) (size : ℕ) : ℕ × Machine :=
  (km.block σ.blocks.length,
    { σ with blocks := σ.blocks ++ [⟨km.block σ.blocks.length, size⟩] })

/-- `create_empty_page_table` where it makes a `pgd`. -/
def Machine.createPgd (km : Kmalloc) (σ : Machine) : ℕ × Machine :=
  let (pgd, st) := createEmptyPageTable km.block ⟨σ.pt.mem, σ.blocks.length⟩
  (pgd, { σ.setMem st.mem with blocks := σ.blocks ++ [⟨pgd, 4096⟩], pgds := pgd :: σ.pgds })

/-- `map_pages(pgd, va, size, pa, PD_AP_EL0)`. -/
def Machine.mapPages (km : Kmalloc) (σ : Machine) (pgd va size pa : ℕ) : Machine :=
  { σ with pt := Mm.mapPages km.table σ.pt pgd va size pa pdApEl0 }

/-- `memcpy(dest, src, n)`. -/
def Machine.memcpy (σ : Machine) (dest src n : ℕ) : Machine :=
  σ.setMem (copyBytes σ.pt.mem dest src n)

/-- "Create pgd table first." (lines 16–18 of `exec.c`). -/
def Machine.withPgd (km : Kmalloc) (σ : Machine) : Machine :=
  if (σ.mm σ.cur).pgd = 0 then
    let (pgd, σ) := σ.createPgd km
    σ.setMm σ.cur { σ.mm σ.cur with pgd := virtToPhys pgd }
  else σ

/-- `do_exec` (lines 11–29). The rest sets up registers. -/
def doExec (km : Kmalloc) (σ : Machine) (func size : ℕ) : Machine :=
  let σ := σ.withPgd km
  let pgd := physToVirt (σ.mm σ.cur).pgd
  let (stack, σ) := σ.kmalloc km userStackSize
  let σ := σ.setMm σ.cur { σ.mm σ.cur with progAddr := func, progSz := size }
  let σ := σ.mapPages km pgd userProgStart size (virtToPhys func)
  let σ := σ.mapPages km pgd userStackAddr userStackSize (virtToPhys stack)
  σ.mapPages km pgd peripheralBase peripheralSize peripheralBase

/-- `initrd_usr_prog` (`initrd.c`, lines 161–164 and 181) once the program is found: `fs` bytes at
    `progAddr`. -/
def initrdUsrProg (km : Kmalloc) (σ : Machine) (progAddr fs : ℕ) : Machine :=
  let (progPage, σ) := σ.kmalloc km fs
  doExec km (σ.setMem (moveBytes σ.pt.mem progPage progAddr fs)) progPage fs

/-- The address space that `sys_fork` makes for the child of a task with the memory data `cur`
    (lines 116–137). -/
def forkSpace (km : Kmalloc) (σ : Machine) (cur : UserMm) : UserMm × Machine :=
  let (childPgd, σ) := σ.createPgd km
  let (childStack, σ) := σ.kmalloc km userStackSize
  let parentStack := physToVirt (simulateWalk σ.pt.mem (physToVirt cur.pgd) userStackAddr)
  let σ := σ.memcpy childStack parentStack userStackSize
  let (progAddr, σ) := σ.kmalloc km cur.progSz
  let σ := σ.memcpy progAddr cur.progAddr cur.progSz
  let σ := σ.mapPages km childPgd userStackAddr userStackSize (virtToPhys childStack)
  let σ := σ.mapPages km childPgd userProgStart cur.progSz (virtToPhys progAddr)
  let σ := σ.mapPages km childPgd peripheralBase peripheralSize peripheralBase
  (⟨virtToPhys childPgd, progAddr, cur.progSz⟩, σ)

/-- `sys_fork` (lines 91–143) from the choice of the child on: the child starts as a copy of the task,
    then gets its own address space. -/
def forkInto (km : Kmalloc) (σ : Machine) (child : Sched.Slot) : Machine :=
  let cur := σ.mm σ.cur
  let σ := σ.setMm child cur
  let (m, σ) := forkSpace km σ cur
  σ.setMm child m

/-- `sys_fork` (lines 91–143). -/
def Machine.sysFork (km : Kmalloc) (σ : Machine) : Except Sched.Stop Machine :=
  match Sched.findEmptyTask σ.sched with
  | (some child, _) => do
    let sched ← Sched.sysFork σ.sched
    .ok { forkInto km σ child with sched := sched }
  | (none, _) => .error .poolIndex

/-! ## What a task sees -/

/-- The level 3 entry that the tables of task `t` have for `va`. -/
def Machine.entry (σ : Machine) (t : Sched.Slot) (va : ℕ) : ℕ :=
  leafEntry σ.pt.mem (physToVirt (σ.mm t).pgd) va

/-- The entry is a valid page descriptor. -/
def Machine.Mapped (σ : Machine) (t : Sched.Slot) (va : ℕ) : Prop := σ.entry t va &&& 3 = 3

/-- The physical address of `va` in task `t`. -/
def Machine.translate (σ : Machine) (t : Sched.Slot) (va : ℕ) : ℕ :=
  simulateWalk σ.pt.mem (physToVirt (σ.mm t).pgd) va

/-- The byte that task `t` reads at `va`. -/
def Machine.byteAt (σ : Machine) (t : Sched.Slot) (va : ℕ) : ℕ :=
  byte σ.pt.mem (physToVirt (σ.translate t va))

/-! ## `kmalloc` -/

/-- The blocks that `kmalloc` has returned are in the RAM below the peripherals (but not at its first
    byte) and apart from each other. Blocks of a page or more are page aligned. -/
structure Kmalloc.Ok (km : Kmalloc) (σ : Machine) : Prop where
  page : ∀ k < σ.pt.next, IsPage (km.table k)
  page_ram : ∀ k < σ.pt.next, km.table k + 4096 ≤ kernelVaddrBase + peripheralBase
  page_ne : ∀ k < σ.pt.next, ∀ j < k, km.table j ≠ km.table k
  aligned : ∀ b ∈ σ.blocks, 4096 ≤ b.size → 4096 ∣ b.base
  ram : ∀ b ∈ σ.blocks, kernelVaddrBase < b.base ∧ b.stop ≤ kernelVaddrBase + peripheralBase
  apart : σ.blocks.Pairwise fun b b' =>
    b.base ≠ b'.base ∧ (b.stop ≤ b'.base ∨ b'.stop ≤ b.base)
  page_apart : ∀ k < σ.pt.next, ∀ b ∈ σ.blocks,
    km.table k + 4096 ≤ b.base ∨ b.stop ≤ km.table k

/-- More blocks have been returned in `σ'`. -/
structure Grows (σ σ' : Machine) : Prop where
  next : σ.pt.next ≤ σ'.pt.next
  blocks : σ.blocks <+: σ'.blocks

theorem Grows.refl (σ : Machine) : Grows σ σ := ⟨le_rfl, List.prefix_rfl⟩

theorem Grows.trans {σ σ' σ'' : Machine} (h : Grows σ σ') (h' : Grows σ' σ'') : Grows σ σ'' :=
  ⟨h.next.trans h'.next, h.blocks.trans h'.blocks⟩

section

variable {km : Kmalloc} {σ σ' : Machine}

theorem Kmalloc.Ok.of_grows (h : km.Ok σ') (hg : Grows σ σ') : km.Ok σ := by
  have hsub := hg.blocks.subset
  have hle := hg.next
  refine ⟨fun k hk => h.page k (by omega), fun k hk => h.page_ram k (by omega),
    fun k hk => h.page_ne k (by omega),
    fun b hb => h.aligned b (hsub hb), fun b hb => h.ram b (hsub hb),
    h.apart.sublist hg.blocks.sublist, fun k hk b hb => h.page_apart k (by omega) b (hsub hb)⟩

theorem Kmalloc.Ok.isPage (h : km.Ok σ) {b : Span} (hb : b ∈ σ.blocks) (hsize : 4096 ≤ b.size) :
    IsPage b.base := by
  have h1 := h.ram b hb
  have h2 := h.aligned b hb hsize
  unfold kernelVaddrBase peripheralBase Span.stop at h1
  exact ⟨by unfold kernelVaddrBase; omega, by omega, h2⟩

theorem grows_kmalloc (km : Kmalloc) (σ : Machine) (size : ℕ) : Grows σ (σ.kmalloc km size).2 :=
  ⟨le_rfl, List.prefix_append _ _⟩

theorem grows_createPgd (km : Kmalloc) (σ : Machine) : Grows σ (σ.createPgd km).2 :=
  ⟨le_rfl, List.prefix_append _ _⟩

theorem grows_setMm (σ : Machine) (t : Sched.Slot) (m : UserMm) : Grows σ (σ.setMm t m) :=
  ⟨le_rfl, List.prefix_rfl⟩

/-- An address at which no block was before. -/
def NewBase (σ : Machine) (base : ℕ) : Prop := ∀ b ∈ σ.blocks, b.base ≠ base

theorem NewBase.of_grows {base : ℕ} (h : NewBase σ' base) (hg : Grows σ σ') : NewBase σ base :=
  fun b hb => h b (hg.blocks.subset hb)

/-- The last block is apart from the earlier ones. -/
theorem Kmalloc.Ok.newBase {base size : ℕ} (hk : km.Ok σ')
    (hblocks : σ'.blocks = σ.blocks ++ [⟨base, size⟩]) : NewBase σ base := by
  have hapart := hk.apart
  rw [hblocks] at hapart
  intro b hb
  exact ((List.pairwise_append.mp hapart).2.2 b hb _ (List.mem_singleton_self _)).1

theorem Kmalloc.Ok.newBase_kmalloc {size : ℕ} (hk : km.Ok (σ.kmalloc km size).2) :
    NewBase σ (σ.kmalloc km size).1 := hk.newBase rfl

theorem Kmalloc.Ok.newBase_createPgd (hk : km.Ok (σ.createPgd km).2) :
    NewBase σ (σ.createPgd km).1 := hk.newBase rfl

theorem physToVirt_virtToPhys {P : ℕ} (h : IsPage P) : physToVirt (virtToPhys P) = P := by
  obtain ⟨h1, h2, -⟩ := h
  unfold kernelVaddrBase at h1
  rw [Memblock.virtToPhys_eq, Memblock.physToVirt_eq (Nat.mod_lt _ (by norm_num))]
  unfold kernelVaddrBase
  omega

theorem virtToPhys_ne_zero {P : ℕ} (h : IsPage P) (hP : kernelVaddrBase < P) : virtToPhys P ≠ 0 := by
  obtain ⟨-, h2, -⟩ := h
  unfold kernelVaddrBase at hP
  rw [Memblock.virtToPhys_eq]
  omega

/-! ## The invariant -/

/-- The tables that the machine has made are trees, and they map what `calls` say. Every
    task that has a `pgd` has one of its own. -/
structure Spaces (km : Kmalloc) (σ : Machine) (calls : List MapCall) : Prop where
  forest : Forest km.table σ.pgds σ.pt
  refines : Refines σ.pgds calls σ.pt.mem
  placed : ∀ c ∈ calls, c.Placed σ.pgds
  pgd_mem : ∀ t, (σ.mm t).pgd ≠ 0 → physToVirt (σ.mm t).pgd ∈ σ.pgds
  pgd_inj : ∀ t u, (σ.mm t).pgd ≠ 0 → (σ.mm u).pgd ≠ 0 →
    physToVirt (σ.mm t).pgd = physToVirt (σ.mm u).pgd → t = u
  pgd_block : ∀ P ∈ σ.pgds, ⟨P, 4096⟩ ∈ σ.blocks

variable {calls : List MapCall}

theorem Kmalloc.Ok.fresh {pgds : List ℕ} (hk : km.Ok σ) (hpgds : ∀ P ∈ pgds, ⟨P, 4096⟩ ∈ σ.blocks) :
    Fresh km.table pgds σ.pt.next := by
  intro k hk'
  refine ⟨hk.page k hk', fun hin => ?_, hk.page_ne k hk'⟩
  have := hk.page_apart k hk' _ (hpgds _ hin)
  simp only [Span.stop] at this
  omega

theorem Spaces.fresh (h : Spaces km σ calls) (hk : km.Ok σ) : Fresh km.table σ.pgds σ.pt.next :=
  hk.fresh h.pgd_block

theorem Spaces.kmalloc (h : Spaces km σ calls) (size : ℕ) :
    Spaces km (σ.kmalloc km size).2 calls :=
  ⟨h.forest, h.refines, h.placed, h.pgd_mem, h.pgd_inj,
    fun P hP => List.mem_append_left _ (h.pgd_block P hP)⟩

/-- Stores outside the tables. -/
theorem Spaces.setMem (h : Spaces km σ calls) {mem : ℕ → ℕ}
    (hmem : ∀ a, InTable km.table σ.pgds σ.pt.next a → mem a = σ.pt.mem a) :
    Spaces km (σ.setMem mem) calls :=
  ⟨h.forest.of_mem hmem, h.refines.of_mem h.forest hmem, h.placed, h.pgd_mem, h.pgd_inj, h.pgd_block⟩

/-- The tables do not depend on who runs. -/
theorem Spaces.setSched (h : Spaces km σ calls) (s : Sched.State) :
    Spaces km { σ with sched := s } calls :=
  ⟨h.forest, h.refines, h.placed, h.pgd_mem, h.pgd_inj, h.pgd_block⟩

theorem Spaces.setMm_same (h : Spaces km σ calls) {t : Sched.Slot} {m : UserMm}
    (hm : m.pgd = (σ.mm t).pgd) : Spaces km (σ.setMm t m) calls := by
  have hpgd : ∀ u, ((σ.setMm t m).mm u).pgd = (σ.mm u).pgd := by
    intro u
    by_cases hu : u = t
    · subst hu
      rw [σ.setMm_self, hm]
    · rw [σ.setMm_of_ne hu]
  refine ⟨h.forest, h.refines, h.placed, ?_, ?_, h.pgd_block⟩
  · intro u
    rw [hpgd]
    exact h.pgd_mem u
  · intro u v
    rw [hpgd, hpgd]
    exact h.pgd_inj u v

theorem Kmalloc.Ok.isPage_createPgd (hk : km.Ok (σ.createPgd km).2) :
    IsPage (σ.createPgd km).1 ∧ kernelVaddrBase < (σ.createPgd km).1 := by
  have hb : (⟨(σ.createPgd km).1, 4096⟩ : Span) ∈ (σ.createPgd km).2.blocks :=
    List.mem_append_right _ (List.mem_singleton_self _)
  exact ⟨hk.isPage hb le_rfl, (hk.ram _ hb).1⟩

/-- A new `pgd` is no table yet. -/
theorem Kmalloc.Ok.createPgd_not_isTable (hk : km.Ok (σ.createPgd km).2)
    (hpgds : ∀ P ∈ σ.pgds, ⟨P, 4096⟩ ∈ σ.blocks) :
    ¬ IsTable km.table σ.pgds σ.pt.next (σ.createPgd km).1 := by
  have hb : (⟨(σ.createPgd km).1, 4096⟩ : Span) ∈ (σ.createPgd km).2.blocks :=
    List.mem_append_right _ (List.mem_singleton_self _)
  rintro (hin | ⟨k, hk', heq⟩)
  · exact hk.newBase_createPgd _ (hpgds _ hin) rfl
  · have := hk.page_apart k hk' _ hb
    simp only [Span.stop] at this
    omega

/-- A new `pgd` is no table of the others. -/
theorem Spaces.createPgd (h : Spaces km σ calls) (hk : km.Ok (σ.createPgd km).2) :
    Spaces km (σ.createPgd km).2 calls ∧ (σ.createPgd km).1 ∉ σ.pgds := by
  have hf := h.fresh (hk.of_grows (grows_createPgd km σ))
  have hb : (⟨(σ.createPgd km).1, 4096⟩ : Span) ∈ (σ.createPgd km).2.blocks :=
    List.mem_append_right _ (List.mem_singleton_self _)
  have htable := hk.createPgd_not_isTable h.pgd_block
  have hP := hk.isPage_createPgd.1
  refine ⟨⟨h.forest.addPgd hf hP htable, ?_, ?_, ?_, h.pgd_inj, ?_⟩, fun hin => htable (Or.inl hin)⟩
  · exact h.refines.addPgd h.forest hf hP htable fun c hc => (h.placed c hc).pgd
  · intro c hc
    have := h.placed c hc
    exact ⟨List.mem_cons_of_mem _ this.pgd, this.va, this.va_le⟩
  · exact fun t ht => List.mem_cons_of_mem _ (h.pgd_mem t ht)
  · intro P hP
    rcases List.mem_cons.mp hP with rfl | hP
    · exact hb
    · exact List.mem_append_left _ (h.pgd_block P hP)

/-- A task gets a `pgd` that no task has. -/
theorem Spaces.setMm_new {P : ℕ} (h : Spaces km σ calls) (hP : IsPage P) (hin : P ∈ σ.pgds)
    (hold : ∀ u, (σ.mm u).pgd ≠ 0 → physToVirt (σ.mm u).pgd ≠ P) (t : Sched.Slot) {m : UserMm}
    (hm : m.pgd = virtToPhys P) : Spaces km (σ.setMm t m) calls := by
  have hvirt : physToVirt m.pgd = P := by rw [hm, physToVirt_virtToPhys hP]
  refine ⟨h.forest, h.refines, h.placed, ?_, ?_, h.pgd_block⟩
  · intro u hu
    by_cases hut : u = t
    · subst hut
      rw [σ.setMm_self, hvirt]
      exact hin
    · rw [σ.setMm_of_ne hut] at hu ⊢
      exact h.pgd_mem u hu
  · intro u v hu hv huv
    by_cases hut : u = t <;> by_cases hvt : v = t
    · exact hut.trans hvt.symm
    · subst hut
      rw [σ.setMm_self] at huv
      rw [σ.setMm_of_ne hvt] at hv huv
      exact absurd (huv.symm.trans hvirt) (hold v hv)
    · subst hvt
      rw [σ.setMm_of_ne hut] at hu huv
      rw [σ.setMm_self] at huv
      exact absurd (huv.trans hvirt) (hold u hu)
    · rw [σ.setMm_of_ne hut] at hu huv
      rw [σ.setMm_of_ne hvt] at hv huv
      exact h.pgd_inj u v hu hv huv

/-! ## Calls of `map_pages` -/

/-- A sequence of calls of `map_pages`. -/
def Machine.mapAll (km : Kmalloc) (σ : Machine) (new : List MapCall) : Machine :=
  { σ with pt := mapRun km.table new σ.pt }

@[simp] theorem mapAll_mm (km : Kmalloc) (σ : Machine) (new : List MapCall) :
    (σ.mapAll km new).mm = σ.mm := rfl

theorem grows_mapAll (km : Kmalloc) (σ : Machine) (new : List MapCall) :
    Grows σ (σ.mapAll km new) := ⟨le_mapRun_next new σ.pt, List.prefix_rfl⟩

theorem mapPages_eq_mapAll (km : Kmalloc) (σ : Machine) (pgd va size pa : ℕ) :
    σ.mapPages km pgd va size pa = σ.mapAll km [⟨pgd, va, size, pa, pdApEl0⟩] := rfl

theorem mapAll_mapAll (km : Kmalloc) (σ : Machine) (new new' : List MapCall) :
    (σ.mapAll km new).mapAll km new' = σ.mapAll km (new ++ new') := by
  unfold Machine.mapAll mapRun
  rw [List.foldl_append]

theorem Spaces.mapAll {new : List MapCall} (h : Spaces km σ calls)
    (hnew : ∀ c ∈ new, c.Placed σ.pgds) (hk : km.Ok (σ.mapAll km new)) :
    Spaces km (σ.mapAll km new) (calls ++ new) ∧
      ∀ a, ¬ InTable km.table σ.pgds (σ.mapAll km new).pt.next a →
        (σ.mapAll km new).pt.mem a = σ.pt.mem a := by
  induction new generalizing σ calls with
  | nil =>
    rw [List.append_nil]
    exact ⟨h, fun _ _ => rfl⟩
  | cons c new ih =>
    have hc := hnew c List.mem_cons_self
    -- the state after the first call
    set σ₁ : Machine := σ.mapAll km [c] with hσ₁
    have hrest : σ.mapAll km (c :: new) = σ₁.mapAll km new := rfl
    rw [hrest] at hk ⊢
    have hf₁ : Fresh km.table σ.pgds (c.exec km.table σ.pt).next :=
      (hk.of_grows (grows_mapAll km σ₁ new)).fresh h.pgd_block
    have h₁ : Spaces km σ₁ (calls ++ [c]) := by
      refine ⟨(mapPages_spec hc h.forest hf₁).1, h.refines.snoc hc h.forest hf₁, ?_, h.pgd_mem,
        h.pgd_inj, h.pgd_block⟩
      intro d hd
      rcases List.mem_append.mp hd with hd | hd
      · exact h.placed d hd
      · rw [List.mem_singleton.mp hd]
        exact hc
    obtain ⟨h₂, hframe⟩ := ih h₁ (fun d hd => hnew d (List.mem_cons_of_mem c hd)) hk
    rw [List.append_assoc, List.singleton_append] at h₂
    refine ⟨h₂, fun a ha => ?_⟩
    rw [hframe a ha]
    exact mapPages_frame hc h.forest hf₁ fun hin => ha (hin.mono (grows_mapAll km σ₁ new).next)

/-- The call that maps the program. -/
def progCall (pgd func size : ℕ) : MapCall := ⟨pgd, userProgStart, size, virtToPhys func, pdApEl0⟩

/-- The call that maps the stack. -/
def stackCall (pgd stack : ℕ) : MapCall :=
  ⟨pgd, userStackAddr, userStackSize, virtToPhys stack, pdApEl0⟩

theorem stackCall_pa (pgd stack : ℕ) : (stackCall pgd stack).pa = virtToPhys stack := rfl

theorem stackCall_va (pgd stack : ℕ) : (stackCall pgd stack).va = userStackAddr := rfl

/-- The call that maps the peripherals. -/
def peripheralCall (pgd : ℕ) : MapCall :=
  ⟨pgd, peripheralBase, peripheralSize, peripheralBase, pdApEl0⟩

theorem progCall_placed {P size : ℕ} (hP : P ∈ σ.pgds) (hsize : size ≤ 2 ^ 48) {func : ℕ} :
    (progCall P func size).Placed σ.pgds := by
  refine ⟨hP, dvd_zero _, ?_⟩
  show 0 + size ≤ _
  omega

theorem stackCall_placed {P : ℕ} (hP : P ∈ σ.pgds) (stack : ℕ) : (stackCall P stack).Placed σ.pgds :=
  ⟨hP, show 4096 ∣ userStackAddr by decide, show userStackAddr + userStackSize ≤ 2 ^ 48 by decide⟩

theorem peripheralCall_placed {P : ℕ} (hP : P ∈ σ.pgds) : (peripheralCall P).Placed σ.pgds :=
  ⟨hP, show 4096 ∣ peripheralBase by decide, show peripheralBase + peripheralSize ≤ 2 ^ 48 by decide⟩

theorem lastMapping_none_iff {P v : ℕ} :
    lastMapping calls P v = none ↔ ∀ c ∈ calls, c.pgd = P → ¬ c.Covers v := by
  simp [lastMapping]

/-- An address that a call has mapped. -/
theorem Spaces.simulateWalk_eq (h : Spaces km σ calls) {P v : ℕ} (hP : P ∈ σ.pgds) {c : MapCall}
    (hc : lastMapping calls P v = some c) (hval : c.Valid σ.pgds) :
    simulateWalk σ.pt.mem P v = c.pa + (v - c.va) := by
  obtain ⟨-, -, hcov⟩ := mem_of_lastMapping hc
  obtain ⟨htab, hleaf⟩ := h.refines.mapped P hP v (hval.placed.lt hcov) c hc
  rw [Mm.simulateWalk_eq, if_neg htab, hleaf]
  exact pageEntry_translate hval hcov

theorem pageEntry_and_three (pa flags : ℕ) : pageEntry pa flags &&& 3 = 3 := by
  have hattr : (normalPageAttr ||| pxn) &&& 3 = 3 := by decide
  apply Nat.eq_of_testBit_eq
  intro i
  have hbit := congrArg (fun x => x.testBit i) hattr
  simp only [Nat.testBit_and, Nat.testBit_or, pageEntry] at hbit ⊢
  cases h3 : Nat.testBit 3 i with
  | false => simp
  | true =>
    rw [h3, Bool.and_true] at hbit
    rw [hbit]
    simp

/-- The pages that are mapped are those of the calls. -/
theorem Spaces.mapped_iff (h : Spaces km σ calls) {P v : ℕ} (hP : P ∈ σ.pgds) (hv : v < 2 ^ 48) :
    leafEntry σ.pt.mem P v &&& 3 = 3 ↔ ∃ c ∈ calls, c.pgd = P ∧ c.Covers v := by
  cases hc : lastMapping calls P v with
  | none =>
    rw [h.refines.unmapped P hP v hv hc]
    refine iff_of_false (by decide) ?_
    rintro ⟨c, hmem, hPc, hcov⟩
    exact lastMapping_none_iff.mp hc c hmem hPc hcov
  | some c =>
    obtain ⟨hmem, hPc, hcov⟩ := mem_of_lastMapping hc
    rw [(h.refines.mapped P hP v hv c hc).2]
    exact iff_of_true (pageEntry_and_three _ _) ⟨c, hmem, hPc, hcov⟩

/-! ## `do_exec` -/

theorem withPgd_cur (km : Kmalloc) (σ : Machine) : (σ.withPgd km).cur = σ.cur := by
  unfold Machine.withPgd
  split_ifs <;> rfl

theorem grows_withPgd (km : Kmalloc) (σ : Machine) : Grows σ (σ.withPgd km) := by
  unfold Machine.withPgd
  split_ifs
  · exact ⟨le_rfl, List.prefix_append _ _⟩
  · exact Grows.refl σ

/-- The current task has a `pgd` afterwards, the one it had or a new one. -/
structure HasPgd (km : Kmalloc) (σ σ' : Machine) (calls : List MapCall) : Prop where
  spaces : Spaces km σ' calls
  pgd_ne_zero : (σ'.mm σ.cur).pgd ≠ 0
  others : ∀ t ≠ σ.cur, σ'.mm t = σ.mm t
  pgds : σ.pgds ⊆ σ'.pgds
  old : (σ.mm σ.cur).pgd ≠ 0 → σ' = σ
  new : (σ.mm σ.cur).pgd = 0 → NewBase σ (physToVirt (σ'.mm σ.cur).pgd) ∧
    σ'.pgds = physToVirt (σ'.mm σ.cur).pgd :: σ.pgds

theorem Spaces.withPgd (h : Spaces km σ calls) (hk : km.Ok (σ.withPgd km)) :
    HasPgd km σ (σ.withPgd km) calls := by
  by_cases hpgd : (σ.mm σ.cur).pgd = 0
  · have heq : σ.withPgd km = (σ.createPgd km).2.setMm σ.cur
        { σ.mm σ.cur with pgd := virtToPhys (σ.createPgd km).1 } := if_pos hpgd
    rw [heq] at hk ⊢
    have hk₁ : km.Ok (σ.createPgd km).2 := hk.of_grows ⟨le_rfl, List.prefix_rfl⟩
    obtain ⟨h₁, hnew⟩ := h.createPgd hk₁
    obtain ⟨hpage, hpos⟩ := hk₁.isPage_createPgd
    have hold : ∀ u, (σ.mm u).pgd ≠ 0 → physToVirt (σ.mm u).pgd ≠ (σ.createPgd km).1 := by
      intro u hu heq
      exact hnew (heq ▸ h.pgd_mem u hu)
    have hcur : ((σ.createPgd km).2.setMm σ.cur
        { σ.mm σ.cur with pgd := virtToPhys (σ.createPgd km).1 }).mm σ.cur =
        { σ.mm σ.cur with pgd := virtToPhys (σ.createPgd km).1 } := Function.update_self ..
    refine ⟨h₁.setMm_new hpage List.mem_cons_self hold _ rfl, ?_, ?_, ?_, fun h => absurd hpgd h, ?_⟩
    · rw [hcur]
      exact virtToPhys_ne_zero hpage hpos
    · exact fun t ht => Function.update_of_ne ht ..
    · exact List.subset_cons_self _ _
    · intro _
      rw [hcur, physToVirt_virtToPhys hpage]
      exact ⟨hk₁.newBase_createPgd, rfl⟩
  · have heq : σ.withPgd km = σ := if_neg hpgd
    rw [heq]
    exact ⟨h, hpgd, fun _ _ => rfl, fun _ hP => hP, fun _ => rfl, fun h => absurd h hpgd⟩

/-- The program lies in RAM. -/
def InRam (func size : ℕ) : Prop :=
  kernelVaddrBase ≤ func ∧ func + size ≤ kernelVaddrBase + peripheralBase

/-- The calls that `do_exec` makes. -/
def execCalls (pgd func size stack : ℕ) : List MapCall :=
  [progCall pgd func size, stackCall pgd stack, peripheralCall pgd]

theorem doExec_eq (km : Kmalloc) (σ : Machine) (func size : ℕ) : doExec km σ func size =
    (((σ.withPgd km).kmalloc km userStackSize).2.setMm (σ.withPgd km).cur
      { (σ.withPgd km).mm (σ.withPgd km).cur with progAddr := func, progSz := size }).mapAll km
      (execCalls (physToVirt ((σ.withPgd km).mm (σ.withPgd km).cur).pgd) func size
        ((σ.withPgd km).kmalloc km userStackSize).1) := by
  unfold Mm.doExec execCalls progCall stackCall peripheralCall
  -- definitional proofs would make the kernel run `map_pages`
  simp -implicitDefEqProofs only [mapPages_eq_mapAll, mapAll_mapAll, List.cons_append, List.nil_append]
  rfl

theorem grows_withPgd_doExec (km : Kmalloc) (σ : Machine) (func size : ℕ) :
    Grows (σ.withPgd km) (doExec km σ func size) := by
  rw [doExec_eq]
  exact (grows_kmalloc km _ userStackSize).trans
    ((grows_setMm _ _ _).trans (grows_mapAll km _ _))

/-- What `do_exec` leaves in the task data. -/
theorem doExec_mm (km : Kmalloc) (σ : Machine) (func size : ℕ) :
    (doExec km σ func size).mm = Function.update (σ.withPgd km).mm σ.cur
      ⟨((σ.withPgd km).mm σ.cur).pgd, func, size⟩ := by
  rw [doExec_eq, withPgd_cur]
  rfl

theorem doExec_sched (km : Kmalloc) (σ : Machine) (func size : ℕ) :
    (doExec km σ func size).sched = σ.sched := by
  rw [doExec_eq]
  show (σ.withPgd km).sched = _
  unfold Machine.withPgd
  split_ifs <;> rfl

theorem doExec_pgds (km : Kmalloc) (σ : Machine) (func size : ℕ) :
    (doExec km σ func size).pgds = (σ.withPgd km).pgds := by
  rw [doExec_eq]
  rfl

/-- The stack is the last block that it takes. -/
theorem doExec_blocks (km : Kmalloc) (σ : Machine) (func size : ℕ) : (doExec km σ func size).blocks =
    (σ.withPgd km).blocks ++ [⟨km.block (σ.withPgd km).blocks.length, userStackSize⟩] := by
  rw [doExec_eq]
  rfl

/-- What `do_exec` leaves in memory: the calls it makes are the last ones. -/
theorem Spaces.doExec {func size : ℕ} (h : Spaces km σ calls) (hsize : size ≤ 2 ^ 48)
    (hk : km.Ok (doExec km σ func size)) :
    HasPgd km σ (σ.withPgd km) calls ∧
      Spaces km (Mm.doExec km σ func size)
        (calls ++ execCalls (physToVirt ((σ.withPgd km).mm σ.cur).pgd) func size
          (km.block (σ.withPgd km).blocks.length)) := by
  have hk₁ := hk.of_grows (grows_withPgd_doExec km σ func size)
  have h₁ := h.withPgd hk₁
  rw [doExec_eq, withPgd_cur] at hk ⊢
  have hP := h₁.spaces.pgd_mem σ.cur h₁.pgd_ne_zero
  have h₂ := (h₁.spaces.kmalloc userStackSize).setMm_same (t := σ.cur)
    (m := { (σ.withPgd km).mm σ.cur with progAddr := func, progSz := size }) rfl
  refine ⟨h₁, (h₂.mapAll ?_ hk).1⟩
  intro c hc
  simp only [execCalls, List.mem_cons, List.not_mem_nil, or_false] at hc
  rcases hc with rfl | rfl | rfl
  · exact progCall_placed hP hsize
  · exact stackCall_placed hP _
  · exact peripheralCall_placed hP

end

/-! ## A concrete `kmalloc` -/

theorem walkLoop_next_le (kmalloc : ℕ → ℕ) (va pa flag rem l t : ℕ) (st : PtState) :
    (walkLoop kmalloc va pa flag rem l t st).next ≤ st.next + rem := by
  induction rem generalizing l t st with
  | zero => exact le_rfl
  | succ rem ih =>
    rw [walkLoop]
    refine (ih _ _ _).trans ?_
    split_ifs
    · show st.next + 1 + rem ≤ st.next + (rem + 1)
      omega
    · omega

/-- A page takes at most three new tables. -/
theorem mapPages_next_le (kmalloc : ℕ → ℕ) (st : PtState) (pgd va size pa flags : ℕ) :
    (Mm.mapPages kmalloc st pgd va size pa flags).next ≤ st.next + 3 * nrPagesOf size := by
  unfold Mm.mapPages
  generalize nrPagesOf size = n
  induction n with
  | zero => exact le_rfl
  | succ n ih =>
    rw [List.range_succ, List.foldl_append]
    exact (walkLoop_next_le kmalloc _ _ _ 3 0 pgd _).trans (by omega)

theorem mapAll_next_le (km : Kmalloc) (σ : Machine) (new : List MapCall) :
    (σ.mapAll km new).pt.next ≤ σ.pt.next + 3 * (new.map fun c => nrPagesOf c.size).sum := by
  induction new generalizing σ with
  | nil => exact le_rfl
  | cons c new ih =>
    refine (ih (σ.mapAll km [c])).trans ?_
    have hc := mapPages_next_le km.table σ.pt c.pgd c.va c.size c.pa c.flags
    have : (σ.mapAll km [c]).pt.next ≤ σ.pt.next + 3 * nrPagesOf c.size := hc
    rw [List.map_cons, List.sum_cons]
    omega

/-- Tables from 256 MiB on, blocks of 64 KiB from 16 MiB on. -/
def spread : Kmalloc where
  table k := kernelVaddrBase + 0x10000000 + 4096 * k
  block k := kernelVaddrBase + 0x1000000 + 0x10000 * k

/-- At most `m` tables and `k` blocks have been taken from `spread`. -/
structure Roomy (m k : ℕ) (σ : Machine) : Prop where
  next : σ.pt.next ≤ m
  length : σ.blocks.length ≤ k
  block : ∀ i b, σ.blocks[i]? = some b → b.base = spread.block i ∧ b.size ≤ 0x10000

theorem spread_table (k : ℕ) : spread.table k = 0xffff000010000000 + 4096 * k := rfl

theorem spread_block (k : ℕ) : spread.block k = 0xffff000001000000 + 0x10000 * k := rfl

theorem Roomy.ok {m k : ℕ} {σ : Machine} (h : Roomy m k σ) (hm : m ≤ 0x2c000) (hk : k ≤ 64) :
    spread.Ok σ := by
  have hnext := h.next
  have hlen := h.length
  have hblock : ∀ b ∈ σ.blocks, ∃ i < σ.blocks.length, b.base = spread.block i ∧ b.size ≤ 0x10000 := by
    intro b hb
    obtain ⟨i, hi⟩ := List.mem_iff_getElem?.mp hb
    exact ⟨i, (List.getElem?_eq_some_iff.mp hi).1, h.block i b hi⟩
  refine ⟨fun k hk => ?_, fun k hk => ?_, fun k hk j hj => ?_, fun b hb hsize => ?_, fun b hb => ?_, ?_,
    fun k hk b hb => ?_⟩
  · rw [spread_table]
    unfold IsPage kernelVaddrBase
    omega
  · rw [spread_table]
    unfold peripheralBase kernelVaddrBase
    omega
  · rw [spread_table, spread_table]
    omega
  · obtain ⟨i, -, hbase, -⟩ := hblock b hb
    rw [hbase, spread_block]
    omega
  · obtain ⟨i, hi, hbase, hsize⟩ := hblock b hb
    rw [Span.stop, hbase, spread_block]
    unfold peripheralBase kernelVaddrBase
    omega
  · rw [List.pairwise_iff_getElem]
    intro i j hi hj hij
    obtain ⟨hbase, hsize⟩ := h.block i _ (List.getElem?_eq_getElem hi)
    obtain ⟨hbase', -⟩ := h.block j _ (List.getElem?_eq_getElem hj)
    rw [Span.stop, hbase, hbase', spread_block, spread_block]
    exact ⟨by omega, by omega⟩
  · obtain ⟨i, hi, hbase, hsize⟩ := hblock b hb
    rw [Span.stop, hbase, spread_table, spread_block]
    omega

theorem getElem?_snoc_block {l : List Span}
    (h : ∀ i b, l[i]? = some b → b.base = spread.block i ∧ b.size ≤ 0x10000) {size : ℕ}
    (hsize : size ≤ 0x10000) :
    ∀ i b, (l ++ [⟨spread.block l.length, size⟩])[i]? = some b →
      b.base = spread.block i ∧ b.size ≤ 0x10000 := by
  intro i b hb
  rcases Nat.lt_trichotomy i l.length with hlt | rfl | hgt
  · rw [List.getElem?_append_left hlt] at hb
    exact h i b hb
  · rw [List.getElem?_concat_length] at hb
    obtain rfl := Option.some.inj hb
    exact ⟨rfl, hsize⟩
  · rw [List.getElem?_eq_none (by simpa using hgt)] at hb
    cases hb

section

variable {m k : ℕ} {σ : Machine}

theorem Roomy.kmalloc (h : Roomy m k σ) {size : ℕ} (hsize : size ≤ 0x10000) :
    Roomy m (k + 1) (σ.kmalloc spread size).2 := by
  refine ⟨h.next, ?_, getElem?_snoc_block h.block hsize⟩
  have := h.length
  simp only [Machine.kmalloc, List.length_append, List.length_singleton]
  omega

theorem Roomy.createPgd (h : Roomy m k σ) : Roomy m (k + 1) (σ.createPgd spread).2 := by
  have hk := h.kmalloc (show 4096 ≤ 0x10000 by norm_num)
  exact ⟨h.next, hk.length, hk.block⟩

theorem Roomy.withPgd (h : Roomy m k σ) : Roomy m (k + 1) (σ.withPgd spread) := by
  unfold Machine.withPgd
  split_ifs
  · exact ⟨h.createPgd.next, h.createPgd.length, h.createPgd.block⟩
  · exact ⟨h.next, h.length.trans (Nat.le_succ k), h.block⟩

theorem Roomy.setMm (h : Roomy m k σ) (t : Sched.Slot) (mm : UserMm) : Roomy m k (σ.setMm t mm) :=
  ⟨h.next, h.length, h.block⟩

theorem Roomy.setMem (h : Roomy m k σ) (mem : ℕ → ℕ) : Roomy m k (σ.setMem mem) :=
  ⟨h.next, h.length, h.block⟩

theorem Roomy.mapAll (h : Roomy m k σ) (new : List MapCall) :
    Roomy (m + 3 * (new.map fun c => nrPagesOf c.size).sum) k (σ.mapAll spread new) :=
  ⟨(mapAll_next_le spread σ new).trans (Nat.add_le_add_right h.next _), h.length, h.block⟩

/-- `do_exec` takes at most two blocks and three tables for every page. -/
theorem Roomy.doExec (h : Roomy m k σ) {func size : ℕ} (hsize : size ≤ 0x10000) :
    Roomy (m + 40000) (k + 2) (doExec spread σ func size) := by
  rw [doExec_eq]
  have h₁ := h.withPgd.kmalloc (show userStackSize ≤ 0x10000 by decide)
  have h₃ := (h₁.setMm (σ.withPgd spread).cur
    { (σ.withPgd spread).mm (σ.withPgd spread).cur with progAddr := func, progSz := size }).mapAll
    (execCalls (physToVirt ((σ.withPgd spread).mm (σ.withPgd spread).cur).pgd) func size
      ((σ.withPgd spread).kmalloc spread userStackSize).1)
  refine ⟨h₃.next.trans ?_, h₃.length, h₃.block⟩
  have hpages : nrPagesOf size ≤ 16 := by
    unfold nrPagesOf
    omega
  have hstack : nrPagesOf userStackSize = 4 := by decide
  have hper : nrPagesOf peripheralSize = 12288 := by decide
  simp only [execCalls, List.map_cons, List.map_nil, List.sum_cons, List.sum_nil]
  show m + 3 * (nrPagesOf size + (nrPagesOf userStackSize + (nrPagesOf peripheralSize + 0))) ≤ _
  omega

end

end RaspiKernel.Mm
