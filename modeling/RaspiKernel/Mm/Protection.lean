import RaspiKernel.Mm.Fork
import RaspiKernel.Mm.KernelMap
import RaspiKernel.Mm.Mmu

/-!
# Memory protection

What the tasks reach through the MMU in the runs in which programs are loaded, fork and store wherever
their tables let them. The tables are made by `do_exec` (`src/exec.c`) and `sys_fork` (`src/syscall.c`),
and they are in the same memory as what they map.

Results:
* `UserRun.linked`: in every run the tables of all tasks are linked by table descriptors.
* `mmu_owned`: the MMU translates as `simulate_walk`, and what a task reaches is a block of its own or
  the peripherals.
* `stores_confined`: the stores of a task change no translation, and no byte that another task reads
  outside the peripherals.
-/

namespace RaspiKernel.Mm

open Lib
open Lib.WordMem
open Memblock (physToVirt virtToPhys kernelVaddrBase)

/-! ## The tables of a run -/

/-- The tables of the tasks are linked by table descriptors. -/
def Machine.Linked (σ : Machine) : Prop := Links σ.pgds σ.pt.mem

section

variable {km : Kmalloc} {σ : Machine} {calls : List MapCall}

namespace Machine.Linked

theorem setSched (hl : σ.Linked) (s : Sched.State) : Machine.Linked { σ with sched := s } := hl

theorem setMem (hl : σ.Linked) (h : Spaces km σ calls) {mem : ℕ → ℕ}
    (hmem : ∀ a, InTable km.table σ.pgds σ.pt.next a → mem a = σ.pt.mem a) : (σ.setMem mem).Linked :=
  Links.of_mem hl h.forest hmem

theorem createPgd (hl : σ.Linked) (h : Spaces km σ calls) (hk : km.Ok (σ.createPgd km).2) :
    (σ.createPgd km).2.Linked := by
  have hf := h.fresh (hk.of_grows (grows_createPgd km σ))
  have hlinks : Links σ.pgds σ.pt.mem := hl
  exact hlinks.addPgd h.forest hf hk.isPage_createPgd.1 (hk.createPgd_not_isTable h.pgd_block)

theorem mapAll {new : List MapCall} (hl : σ.Linked) (h : Spaces km σ calls)
    (hnew : ∀ c ∈ new, c.Placed σ.pgds) (hk : km.Ok (σ.mapAll km new)) : (σ.mapAll km new).Linked := by
  induction new generalizing σ calls with
  | nil => exact hl
  | cons c new ih =>
    have hc := hnew c List.mem_cons_self
    have hk₁ : km.Ok (σ.mapAll km [c]) := hk.of_grows (grows_mapAll km (σ.mapAll km [c]) new)
    have h₁ := (h.mapAll (List.forall_mem_singleton.mpr hc) hk₁).1
    have hl₁ : (σ.mapAll km [c]).Linked := Links.exec hl hc h.forest (hk₁.fresh h.pgd_block)
    exact ih hl₁ h₁ (fun d hd => hnew d (List.mem_cons_of_mem c hd)) hk

/-- A block is taken and filled. -/
theorem fill {n : ℕ} (hl : σ.Linked) (h : Spaces km σ calls) (hk : km.Ok (σ.kmalloc km n).2) {src : ℕ}
    {mem : ℕ → ℕ} (hmem : mem = copyBytes σ.pt.mem (σ.kmalloc km n).1 src n ∨
      mem = moveBytes σ.pt.mem (σ.kmalloc km n).1 src n) : ((σ.kmalloc km n).2.setMem mem).Linked := by
  have h₁ : Spaces km (σ.kmalloc km n).2 calls := h.kmalloc n
  refine setMem (σ := (σ.kmalloc km n).2) hl h₁ fun a ha => ?_
  exact hk.copy_frame h₁.pgd_block (mem_kmalloc_blocks km σ n) (hk.newBase_kmalloc.not_mem_pgds h) hmem ha

theorem withPgd (hl : σ.Linked) (h : Spaces km σ calls) (hk : km.Ok (σ.withPgd km)) :
    (σ.withPgd km).Linked := by
  unfold Machine.withPgd at hk ⊢
  split_ifs at hk ⊢
  · exact hl.createPgd h (hk.of_grows ⟨le_rfl, List.prefix_rfl⟩)
  · exact hl

theorem doExec {func size : ℕ} (hl : σ.Linked) (h : Spaces km σ calls) (hsize : size ≤ 2 ^ 48)
    (hk : km.Ok (doExec km σ func size)) : (Mm.doExec km σ func size).Linked := by
  have hk₁ := hk.of_grows (grows_withPgd_doExec km σ func size)
  have h₁ := h.withPgd hk₁
  have hl₁ := hl.withPgd h hk₁
  rw [doExec_eq, withPgd_cur] at hk ⊢
  have hP := h₁.spaces.pgd_mem σ.cur h₁.pgd_ne_zero
  have h₂ := (h₁.spaces.kmalloc userStackSize).setMm_same (t := σ.cur)
    (m := { (σ.withPgd km).mm σ.cur with progAddr := func, progSz := size }) rfl
  refine mapAll hl₁ h₂ (fun c hc => ?_) hk
  simp only [execCalls, List.mem_cons, List.not_mem_nil, or_false] at hc
  rcases hc with rfl | rfl | rfl
  · exact progCall_placed hP hsize
  · exact stackCall_placed hP _
  · exact peripheralCall_placed hP

theorem forkInto {child : Sched.Slot} (hl : σ.Linked) (h : Spaces km σ calls)
    (hk : km.Ok (forkInto km σ child)) : (Mm.forkInto km σ child).Linked := by
  rw [forkInto_eq, forkSpace_eq] at hk ⊢
  set cur := σ.mm σ.cur
  have hk₆ : km.Ok ((forkProg km σ cur).mapAll km (forkCalls (σ.createPgd km).1
      ((σ.createPgd km).2.kmalloc km userStackSize).1
      ((forkStack km σ cur).kmalloc km cur.progSz).1 cur.progSz)) := hk.of_grows ⟨le_rfl, List.prefix_rfl⟩
  have hk₅' := hk₆.of_grows (grows_mapAll km _ _)
  have hk₅ := hk₅'.of_grows (grows_forkProg km σ cur)
  have hk₃' := hk₅.of_grows (grows_kmalloc km _ _)
  have hk₃ := hk₃'.of_grows (grows_forkStack km σ cur)
  have hk₂ := hk₃.of_grows (grows_kmalloc km _ _)
  have hl₁ := hl.createPgd h hk₂
  have hl₃ : (forkStack km σ cur).Linked := hl₁.fill (h.createPgd hk₂).1 hk₃ (.inl rfl)
  have hl₅ : (forkProg km σ cur).Linked := hl₃.fill (h.forkStack hk₃') hk₅ (.inl rfl)
  have hle : cur.progSz ≤ peripheralBase := hk₅.size_le (mem_kmalloc_blocks km _ _)
  have hP : (σ.createPgd km).1 ∈ (forkProg km σ cur).pgds := by
    rw [(forkProg_eq km σ cur).2.2.1]
    exact List.mem_cons_self
  exact hl₅.mapAll (h.forkProg hk₅') (forkCalls_placed hP (hle.trans (by decide))) hk₆

end Machine.Linked

/-- In every run the tables are linked by table descriptors. -/
theorem UserRun.linked {fuel lo : ℕ} (h : UserRun km (fuel + 2) lo σ) (hlo : lo ≤ 4096) (hk : km.Ok σ) :
    σ.Linked := by
  induction h with
  | boot mem =>
    intro P hP
    exact absurd hP List.not_mem_nil
  | @load σ hrun progAddr fs hfs ih =>
    have hk₁ : km.Ok (σ.kmalloc km fs).2 := hk.of_grows
      ((grows_setMem _ _).trans (grows_copyProg_initrdUsrProg km σ progAddr fs))
    have hk₀ := hk₁.of_grows (grows_kmalloc km σ fs)
    obtain ⟨calls, hiso⟩ := hrun.isolated hlo hk₀
    obtain ⟨-, h₁, -, -, -, hsize⟩ := hiso.spaces.copyProg hk
    rw [initrdUsrProg_eq] at hk ⊢
    have hl₁ : (copyProg km σ progAddr fs).Linked := (ih hk₀).fill hiso.spaces hk₁ (.inr rfl)
    exact hl₁.doExec h₁ (hsize.trans (by decide)) hk
  | @fork σ _ hrun hpgd hfork ih =>
    obtain ⟨child, s, -, -, rfl⟩ := sysFork_eq_ok hfork
    have hk₁ : km.Ok (forkInto km σ child) := hk.of_grows ⟨le_rfl, List.prefix_rfl⟩
    have hk₀ := hk₁.of_grows (grows_forkInto km σ child)
    obtain ⟨calls, hiso⟩ := hrun.isolated hlo hk₀
    exact ((ih hk₀).forkInto hiso.spaces hk₁).setSched s
  | @user σ hrun hpgd mem hmem ih =>
    have hk₀ := hk.of_grows (grows_setMem σ mem)
    obtain ⟨calls, hiso⟩ := hrun.isolated hlo hk₀
    refine (ih hk₀).setMem hiso.spaces fun a ha => ?_
    by_contra hne
    obtain ⟨v, hv, hmap, hva⟩ := hmem a hne
    exact hiso.user_not_inTable hk₀ hpgd hv hmap hva ha
  | @kmalloc σ _ size ih => exact ih (hk.of_grows (grows_kmalloc km σ size))
  | @kernel σ hrun mem hmem ih =>
    have hk₀ := hk.of_grows (grows_setMem σ mem)
    obtain ⟨calls, hiso⟩ := hrun.isolated hlo hk₀
    exact (ih hk₀).setMem hiso.spaces hmem
  | sched _ _ _ _ ih => exact (ih (hk.of_grows ⟨le_rfl, List.prefix_rfl⟩)).setSched _

/-! ## What a task reaches -/

/-- What the MMU makes of `v` while task `t` runs. -/
def Machine.mmu (σ : Machine) (t : Sched.Slot) (v : ℕ) : Option (ℕ × Stage1.Attrs) :=
  Stage1.translate (ramOf σ.pt.mem) (σ.mm t).pgd mmuPgdAddr v

theorem tableAddr_pgd {x : ℕ} (h : IsPage (physToVirt x)) : Stage1.tableAddr x = virtToPhys (physToVirt x) := by
  have hlow : physToVirt x % 2 ^ 12 = x % 2 ^ 12 := by
    unfold physToVirt
    rw [Nat.or_mod_two_pow, show kernelVaddrBase % 2 ^ 12 = 0 by norm_num, Nat.or_zero]
  have hphys : physToVirt x % 2 ^ 48 = x % 2 ^ 48 := by
    unfold physToVirt
    rw [Nat.or_mod_two_pow, show kernelVaddrBase % 2 ^ 48 = 0 by norm_num, Nat.or_zero]
  have hdvd := h.2.2
  rw [Memblock.virtToPhys_eq, hphys]
  unfold Stage1.tableAddr
  omega

variable {t u : Sched.Slot} {v : ℕ}

/-- The entry that the calls of `map_pages` have left. -/
theorem Spaces.entry_eq (h : Spaces km σ calls) (hpgd : (σ.mm t).pgd ≠ 0) (hv : v < 2 ^ 48) :
    σ.entry t v = (lastMapping calls (physToVirt (σ.mm t).pgd) v).elim 0
      fun c => pageEntry (c.pa + 4096 * ((v - c.va) / 4096)) c.flags := by
  have hP := h.pgd_mem t hpgd
  cases hc : lastMapping calls (physToVirt (σ.mm t).pgd) v with
  | none => exact h.refines.unmapped _ hP v hv hc
  | some c => exact (h.refines.mapped _ hP v hv c hc).2

/-- The MMU finds the entry of the page. -/
theorem Spaces.mmu_eq (h : Spaces km σ calls) (hl : σ.Linked) (hpgd : (σ.mm t).pgd ≠ 0) (hv : v < 2 ^ 48) :
    σ.mmu t v = if σ.entry t v % 4 = 3 then Stage1.output (σ.entry t v) v 0 else none := by
  have hP := h.pgd_mem t hpgd
  have hpage := h.forest.isPage _ hP
  rw [Machine.mmu, Stage1.translate_low hv, tableAddr_pgd hpage]
  exact Links.mmuWalk hl hP hv 3 0 _ rfl rfl hpage

/-- What a call has mapped, in terms of the MMU. -/
theorem Spaces.mmu_mapped (h : Spaces km σ calls) (hl : σ.Linked) (hpgd : (σ.mm t).pgd ≠ 0) {c : MapCall}
    (hc : lastMapping calls (physToVirt (σ.mm t).pgd) v = some c) (hval : c.Valid σ.pgds) :
    σ.mmu t v = some (σ.translate t v, userAttrs c.flags) := by
  obtain ⟨-, -, hcov⟩ := mem_of_lastMapping hc
  have hP := h.pgd_mem t hpgd
  have hv := hval.placed.lt hcov
  have hentry := h.entry_eq hpgd hv
  rw [hc, Option.elim_some] at hentry
  rw [h.mmu_eq hl hpgd hv, hentry, if_pos (pageEntry_type _ _), output_pageEntry hval hcov]
  exact congrArg (fun pa => some (pa, _)) (h.simulateWalk_eq hP hc hval).symm

theorem Spaces.mmu_unmapped (h : Spaces km σ calls) (hl : σ.Linked) (hpgd : (σ.mm t).pgd ≠ 0) (hv : v < 2 ^ 48)
    (hc : lastMapping calls (physToVirt (σ.mm t).pgd) v = none) : σ.mmu t v = none := by
  have hentry := h.entry_eq hpgd hv
  rw [hc, Option.elim_none] at hentry
  rw [h.mmu_eq hl hpgd hv, hentry, if_neg (by norm_num)]

/-- A call for task `t` that maps a block. -/
structure MapsBlock (σ : Machine) (calls : List MapCall) (t : Sched.Slot) (c : MapCall) (base : ℕ) : Prop where
  mem : c ∈ calls
  pgd : c.pgd = physToVirt (σ.mm t).pgd
  notPeripheral : c ≠ peripheralCall c.pgd
  backed : Backed 4096 σ c base

/-- A call maps the peripherals, or the pages of a block, and both for EL0. -/
theorem Isolated.mmu_of_call (h : Isolated km 4096 σ calls) (hl : σ.Linked) (hk : km.Ok σ)
    (hpgd : (σ.mm t).pgd ≠ 0) {c : MapCall} (hlast : lastMapping calls (physToVirt (σ.mm t).pgd) v = some c) :
    σ.mmu t v = some (σ.translate t v, userAttrs pdApEl0) ∧ (InPeripherals (σ.translate t v) ∨
      ∃ base, MapsBlock σ calls t c base ∧ OnPages base c.size (physToVirt (σ.translate t v))) := by
  have hP := h.spaces.pgd_mem t hpgd
  obtain ⟨hc, hcP, hcov⟩ := mem_of_lastMapping hlast
  by_cases hper : c = peripheralCall c.pgd
  · rw [hcP] at hper
    rw [hper] at hlast hcov
    have hval := peripheralCall_valid hP
    have heq : σ.translate t v = v :=
      (h.spaces.simulateWalk_eq hP hlast hval).trans
        (Nat.add_sub_cancel' ((peripheralCall_covers _ v).mp hcov).1)
    refine ⟨h.spaces.mmu_mapped hl hpgd hlast hval, .inl ?_⟩
    rwa [heq, ← peripheralCall_covers (physToVirt (σ.mm t).pgd)]
  · obtain ⟨base, hb⟩ := (h.data c hc).resolve_left hper
    obtain ⟨-, hon, hvirt⟩ := h.translate_backed hk hpgd hlast hb hb.size
    refine ⟨?_, .inr ⟨base, ⟨hc, hcP, hper, hb⟩, hvirt ▸ hon⟩⟩
    rw [h.spaces.mmu_mapped hl hpgd hlast (hb.valid hb.size (h.spaces.placed c hc) hk), hb.flags]

theorem Isolated.exists_call (h : Isolated km 4096 σ calls) (hpgd : (σ.mm t).pgd ≠ 0) (hv : v < 2 ^ 48)
    (hmap : σ.Mapped t v) : ∃ c, lastMapping calls (physToVirt (σ.mm t).pgd) v = some c := by
  obtain ⟨c, hc, hcP, hcov⟩ := (h.spaces.mapped_iff (h.spaces.pgd_mem t hpgd) hv).mp hmap
  refine Option.ne_none_iff_exists'.mp fun hnone => ?_
  exact lastMapping_none_iff.mp hnone c hc hcP hcov

/-- The MMU translates what is mapped, and faults elsewhere. -/
theorem Isolated.mmu_eq_some_iff (h : Isolated km 4096 σ calls) (hl : σ.Linked) (hk : km.Ok σ)
    (hpgd : (σ.mm t).pgd ≠ 0) (hv : v < 2 ^ 48) {pa : ℕ} {attrs : Stage1.Attrs} :
    σ.mmu t v = some (pa, attrs) ↔ σ.Mapped t v ∧ pa = σ.translate t v ∧ attrs = userAttrs pdApEl0 := by
  constructor
  · intro hmmu
    cases hlast : lastMapping calls (physToVirt (σ.mm t).pgd) v with
    | none =>
      rw [h.spaces.mmu_unmapped hl hpgd hv hlast] at hmmu
      cases hmmu
    | some c =>
      rw [(h.mmu_of_call hl hk hpgd hlast).1, Option.some_inj, Prod.mk.injEq] at hmmu
      exact ⟨(h.spaces.mapped_iff (h.spaces.pgd_mem t hpgd) hv).mpr ⟨c, mem_of_lastMapping hlast⟩,
        hmmu.1.symm, hmmu.2.symm⟩
  · rintro ⟨hmap, rfl, rfl⟩
    obtain ⟨c, hlast⟩ := h.exists_call hpgd hv hmap
    exact (h.mmu_of_call hl hk hpgd hlast).1

theorem Isolated.mapped_cases (h : Isolated km 4096 σ calls) (hl : σ.Linked) (hk : km.Ok σ)
    (hpgd : (σ.mm t).pgd ≠ 0) (hv : v < 2 ^ 48) (hmap : σ.Mapped t v) : InPeripherals (σ.translate t v) ∨
      ∃ c base, MapsBlock σ calls t c base ∧ OnPages base c.size (physToVirt (σ.translate t v)) := by
  obtain ⟨c, hlast⟩ := h.exists_call hpgd hv hmap
  obtain ⟨-, hper | ⟨base, hb, hon⟩⟩ := h.mmu_of_call hl hk hpgd hlast
  · exact .inl hper
  · exact .inr ⟨c, base, hb, hon⟩

/-! ## Pages -/

/-- The pages of different blocks are different. -/
theorem Kmalloc.Ok.pages_apart (hk : km.Ok σ) {base size base' size' a : ℕ} (hb : ⟨base, size⟩ ∈ σ.blocks)
    (hb' : ⟨base', size'⟩ ∈ σ.blocks) (hsize : 4096 ≤ size) (hsize' : 4096 ≤ size') (hne : base ≠ base')
    (ha : OnPages base size a) : ¬ OnPages base' size' a := by
  have hapart := hk.blocks_apart hb hb' hne
  have halign := hk.aligned _ hb hsize
  have halign' := hk.aligned _ hb' hsize'
  unfold Span.stop at hapart
  unfold OnPages nrPagesOf at *
  dsimp only at *
  omega

/-- The pages of a block are in front of the peripherals. -/
theorem Kmalloc.Ok.pages_lt (hk : km.Ok σ) {base size a : ℕ} (hb : ⟨base, size⟩ ∈ σ.blocks)
    (hsize : 4096 ≤ size) (ha : OnPages base size a) : a < kernelVaddrBase + peripheralBase := by
  have hram := hk.ram _ hb
  have halign := hk.aligned _ hb hsize
  unfold Span.stop kernelVaddrBase peripheralBase at *
  unfold OnPages nrPagesOf at ha
  dsimp only at *
  omega

theorem physToVirt_of_peripheral {pa : ℕ} (h : InPeripherals pa) :
    kernelVaddrBase + peripheralBase ≤ physToVirt pa := by
  obtain ⟨h1, h2⟩ := h
  unfold peripheralBase at h1 h2 ⊢
  unfold peripheralSize at h2
  rw [Memblock.physToVirt_eq (by omega)]
  omega

theorem MapsBlock.base_ne {t u : Sched.Slot} {c c' : MapCall} {base base' : ℕ} (h : Isolated km 4096 σ calls)
    (hb : MapsBlock σ calls t c base) (hb' : MapsBlock σ calls u c' base') (htu : t ≠ u)
    (ht : (σ.mm t).pgd ≠ 0) (hu : (σ.mm u).pgd ≠ 0) : base ≠ base' := by
  have hne : c.pgd ≠ c'.pgd := by
    rw [hb.pgd, hb'.pgd]
    exact fun heq => htu (h.spaces.pgd_inj t u ht hu heq)
  rintro rfl
  exact h.apart c hb.mem c' hb'.mem hne hb.notPeripheral hb'.notPeripheral
    (hb.backed.pa.trans hb'.backed.pa.symm)

/-- No other task reaches the pages of a block that is mapped for a task. -/
theorem MapsBlock.not_reached {t u : Sched.Slot} {c : MapCall} {base : ℕ} (h : Isolated km 4096 σ calls)
    (hl : σ.Linked) (hk : km.Ok σ) (hb : MapsBlock σ calls t c base) (ht : (σ.mm t).pgd ≠ 0) (htu : t ≠ u)
    (hu : (σ.mm u).pgd ≠ 0) (hv : v < 2 ^ 48) (hmap : σ.Mapped u v) :
    ¬ OnPages base c.size (physToVirt (σ.translate u v)) := by
  intro hon
  rcases h.mapped_cases hl hk hu hv hmap with hper | ⟨c', base', hb', hon'⟩
  · have := hk.pages_lt hb.backed.block hb.backed.size hon
    have := physToVirt_of_peripheral hper
    omega
  · exact hk.pages_apart hb.backed.block hb'.backed.block hb.backed.size hb'.backed.size
      (hb.base_ne h hb' htu ht hu) hon hon'

/-- The pages of the block are no tables, and no other task reaches them. -/
structure Machine.Owns (km : Kmalloc) (σ : Machine) (t : Sched.Slot) (b : Span) : Prop where
  mem : b ∈ σ.blocks
  noTable : ∀ a, OnPages b.base b.size a → ¬ InTable km.table σ.pgds σ.pt.next a
  apart : ∀ u ≠ t, (σ.mm u).pgd ≠ 0 → ∀ w < 2 ^ 48, ∀ pa attrs, σ.mmu u w = some (pa, attrs) →
    ¬ OnPages b.base b.size (physToVirt pa)

theorem MapsBlock.owns {c : MapCall} {base : ℕ} (h : Isolated km 4096 σ calls) (hl : σ.Linked) (hk : km.Ok σ)
    (hb : MapsBlock σ calls t c base) (ht : (σ.mm t).pgd ≠ 0) : σ.Owns km t ⟨base, c.size⟩ where
  mem := hb.backed.block
  noTable _ ha := hk.not_inTable h.spaces.pgd_block hb.backed.block hb.backed.size hb.backed.notPgd ha
  apart u hut hu w hw pa attrs hmmu := by
    obtain ⟨hmap, rfl, -⟩ := (h.mmu_eq_some_iff hl hk hu hw).mp hmmu
    exact hb.not_reached h hl hk ht hut.symm hu hw hmap

/-- In every state of every run with programs of a page or more. The MMU translates the lower half of
    a task's addresses as `simulate_walk` where they are mapped, with all rights for EL0, and faults
    elsewhere. What the task reaches is the peripherals or a block of its own. -/
theorem mmu_owned {fuel : ℕ} (hrun : UserRun km (fuel + 2) 4096 σ) (hk : km.Ok σ) (ht : (σ.mm t).pgd ≠ 0)
    (hv : v < 2 ^ 48) :
    (∀ pa attrs, σ.mmu t v = some (pa, attrs) ↔
      σ.Mapped t v ∧ pa = σ.translate t v ∧ attrs = userAttrs pdApEl0) ∧
    (σ.Mapped t v → InPeripherals (σ.translate t v) ∨
      ∃ b, σ.Owns km t b ∧ OnPages b.base b.size (physToVirt (σ.translate t v))) := by
  obtain ⟨calls, h⟩ := hrun.isolated le_rfl hk
  have hl := hrun.linked le_rfl hk
  refine ⟨fun pa attrs => h.mmu_eq_some_iff hl hk ht hv, fun hmap => ?_⟩
  rcases h.mapped_cases hl hk ht hv hmap with hper | ⟨c, base, hb, hon⟩
  · exact .inl hper
  · exact .inr ⟨_, hb.owns h hl hk ht, hon⟩

end

/-- A program of two pages. -/
theorem mmu_owned_loaded :
    (∀ pa attrs, (userMachine 0x1234).mmu 0 0x1000 = some (pa, attrs) ↔
      (userMachine 0x1234).Mapped 0 0x1000 ∧ pa = (userMachine 0x1234).translate 0 0x1000 ∧
        attrs = userAttrs pdApEl0) ∧
    ((userMachine 0x1234).Mapped 0 0x1000 → InPeripherals ((userMachine 0x1234).translate 0 0x1000) ∨
      ∃ b, (userMachine 0x1234).Owns spread 0 b ∧
        OnPages b.base b.size (physToVirt ((userMachine 0x1234).translate 0 0x1000))) :=
  mmu_owned (userMachine_run (by norm_num)) ((userMachine_roomy (by norm_num)).ok (by norm_num) (by norm_num))
    (userMachine_pgd _) (by norm_num)

end RaspiKernel.Mm
