import RaspiKernel.Mm.Protection

/-!
# The memory of a task that is away

The steps of the system in which a task has no part: others load programs, fork and store wherever the
MMU lets them, tasks are scheduled, and the kernel stores to memory of its own. The results are about
the bytes that the task reads when it comes back.

Results:
* `AwayStep.userRun`: the steps are steps of the runs of `UserRun`.
* `AwayStep.keepsSpace`: one step keeps the tables and the bytes of the task.
* `space_kept`: so does any number of them.
-/

namespace RaspiKernel.Mm

open Lib
open Lib.WordMem
open Memblock (physToVirt virtToPhys kernelVaddrBase)

/-! ## Steps -/

/-- The word at `a` is one that task `t` can store to. -/
def Machine.Stores (σ : Machine) (t : Sched.Slot) (a : ℕ) : Prop :=
  ∃ v < 2 ^ 48, ∃ pa attrs, σ.mmu t v = some (pa, attrs) ∧ attrs.el0 = true ∧ attrs.readOnly = false ∧
    physToVirt pa / 8 * 8 = a

/-- The word at `a` is one that task `u` reaches outside the peripherals. -/
def Machine.Private (σ : Machine) (u : Sched.Slot) (a : ℕ) : Prop :=
  ∃ w < 2 ^ 48, ∃ pa attrs, σ.mmu u w = some (pa, attrs) ∧ ¬ InPeripherals pa ∧ physToVirt pa / 8 * 8 = a

/-- A step of the system that is none of task `u`, unless it forks. -/
inductive AwayStep (km : Kmalloc) (fuel : ℕ) (u : Sched.Slot) : Machine → Machine → Prop
  | load {σ : Machine} (hcur : σ.cur ≠ u) (progAddr : ℕ) {fs : ℕ} (hfs : 4096 ≤ fs) :
    AwayStep km fuel u σ (initrdUsrProg km σ progAddr fs)
  | fork {σ σ' : Machine} (hpgd : (σ.mm σ.cur).pgd ≠ 0)
      (hchild : (Sched.findEmptyTask σ.sched).1 ≠ some u) (hfork : σ.sysFork km = .ok σ') :
    AwayStep km fuel u σ σ'
  | store {σ : Machine} (hcur : σ.cur ≠ u) (hpgd : (σ.mm σ.cur).pgd ≠ 0) {mem : ℕ → ℕ}
      (hmem : ∀ a, mem a ≠ σ.pt.mem a → σ.Stores σ.cur a) : AwayStep km fuel u σ (σ.setMem mem)
  | kmalloc (σ : Machine) (size : ℕ) : AwayStep km fuel u σ (σ.kmalloc km size).2
  | kernel {σ : Machine} {mem : ℕ → ℕ}
      (htable : ∀ a, InTable km.table σ.pgds σ.pt.next a → mem a = σ.pt.mem a)
      (hprivate : ∀ a, σ.Private u a → mem a = σ.pt.mem a) : AwayStep km fuel u σ (σ.setMem mem)
  | sched {σ : Machine} {op : Sched.Op} {s : Sched.State} (hop : op ≠ .fork) (hen : op.Enabled σ.sched)
      (hstep : Sched.step fuel σ.sched op = .ok s) : AwayStep km fuel u σ { σ with sched := s }

/-- What a task keeps: its tables, and the words behind them. -/
structure KeepsSpace (u : Sched.Slot) (σ σ' : Machine) : Prop where
  mm : σ'.mm u = σ.mm u
  mmu : ∀ w < 2 ^ 48, σ'.mmu u w = σ.mmu u w
  mem : ∀ a, σ.Private u a → σ'.pt.mem a = σ.pt.mem a

section

variable {km : Kmalloc} {fuel : ℕ} {u : Sched.Slot} {σ σ' σ'' : Machine} {calls : List MapCall}

theorem KeepsSpace.refl (u : Sched.Slot) (σ : Machine) : KeepsSpace u σ σ :=
  ⟨rfl, fun _ _ => rfl, fun _ _ => rfl⟩

theorem KeepsSpace.trans (h : KeepsSpace u σ σ') (h' : KeepsSpace u σ' σ'') : KeepsSpace u σ σ'' where
  mm := h'.mm.trans h.mm
  mmu w hw := (h'.mmu w hw).trans (h.mmu w hw)
  mem a ha := by
    obtain ⟨w, hw, pa, attrs, hmmu, hpa⟩ := ha
    rw [← h.mem a ⟨w, hw, pa, attrs, hmmu, hpa⟩]
    exact h'.mem a ⟨w, hw, pa, attrs, (h.mmu w hw).trans hmmu, hpa⟩

theorem AwayStep.grows (h : AwayStep km fuel u σ σ') : Grows σ σ' := by
  cases h with
  | load _ progAddr _ => exact grows_initrdUsrProg km σ progAddr _
  | fork _ _ hfork =>
    obtain ⟨child, s, -, -, rfl⟩ := sysFork_eq_ok hfork
    exact (grows_forkInto km σ child).trans ⟨le_rfl, List.prefix_rfl⟩
  | store _ _ _ => exact grows_setMem σ _
  | kmalloc size => exact grows_kmalloc km σ size
  | kernel _ _ => exact grows_setMem σ _
  | sched _ _ _ => exact ⟨le_rfl, List.prefix_rfl⟩

/-! ## What a step leaves alone -/

theorem Isolated.private_onPages (h : Isolated km 4096 σ calls) (hl : σ.Linked) (hk : km.Ok σ)
    (hu : (σ.mm u).pgd ≠ 0) {a : ℕ} (ha : σ.Private u a) :
    ∃ c base, MapsBlock σ calls u c base ∧ OnPages base c.size a := by
  obtain ⟨w, hw, pa, attrs, hmmu, hper, rfl⟩ := ha
  obtain ⟨hmap, rfl, -⟩ := (h.mmu_eq_some_iff hl hk hu hw).mp hmmu
  obtain ⟨c, base, hb, hon⟩ := (h.mapped_cases hl hk hu hw hmap).resolve_left hper
  have halign := hk.aligned _ hb.backed.block hb.backed.size
  refine ⟨c, base, hb, ?_⟩
  unfold OnPages at hon ⊢
  dsimp only at halign
  omega

/-- The calls for other tasks leave the tables of a task as they are. -/
theorem Spaces.mmu_same {new : List MapCall} (h : Spaces km σ calls) (hl : σ.Linked)
    (h' : Spaces km σ' (calls ++ new)) (hl' : σ'.Linked) (hu : (σ.mm u).pgd ≠ 0) (hmm : σ'.mm u = σ.mm u)
    (hnew : ∀ c ∈ new, c.pgd ≠ physToVirt (σ.mm u).pgd) {w : ℕ} (hw : w < 2 ^ 48) :
    σ'.mmu u w = σ.mmu u w := by
  have hu' : (σ'.mm u).pgd ≠ 0 := by rwa [hmm]
  rw [h'.mmu_eq hl' hu' hw, h.mmu_eq hl hu hw, h'.entry_eq hu' hw, h.entry_eq hu hw, hmm,
    lastMapping_append_of_ne hnew]

/-- A word of a block is in no table, also after new tables were made. -/
theorem MapsBlock.not_inTable {c : MapCall} {base a : ℕ} (hb : MapsBlock σ calls u c base)
    (ha : OnPages base c.size a) (hg : Grows σ σ') (hk' : km.Ok σ')
    (hpgds' : ∀ P ∈ σ'.pgds, ⟨P, 4096⟩ ∈ σ'.blocks) (hpgds : ∀ P ∈ σ'.pgds, P ∈ σ.pgds ∨ NewBase σ P) :
    ¬ InTable km.table σ'.pgds σ'.pt.next a := by
  refine hk'.not_inTable hpgds' (hg.blocks.subset hb.backed.block) hb.backed.size (fun hin => ?_) ha
  rcases hpgds base hin with hold | hnew
  · exact hb.backed.notPgd hold
  · exact hnew _ hb.backed.block rfl

/-- A word of a block is in no other block. -/
theorem MapsBlock.word_ne {c : MapCall} {base a dst n i : ℕ} (hb : MapsBlock σ calls u c base)
    (ha : OnPages base c.size a) (hg : Grows σ σ') (hk' : km.Ok σ') (hdst : ⟨dst, n⟩ ∈ σ'.blocks)
    (hn : 4096 ≤ n) (hnew : NewBase σ dst) (hi : i < n) : a ≠ (dst + i) / 8 * 8 := by
  have hne : base ≠ dst := hnew _ hb.backed.block
  rintro rfl
  exact hk'.pages_apart (hg.blocks.subset hb.backed.block) hdst hb.backed.size hn hne ha
    (onPages_word (hk'.aligned _ hdst hn) hi)

/-! ### `do_exec` of another task -/

/-- It stores to tables only. -/
theorem Spaces.doExec_frame {func size : ℕ} (h : Spaces km σ calls) (hsize : size ≤ 2 ^ 48)
    (hk : km.Ok (Mm.doExec km σ func size)) {a : ℕ}
    (ha : ¬ InTable km.table (Mm.doExec km σ func size).pgds (Mm.doExec km σ func size).pt.next a) :
    (Mm.doExec km σ func size).pt.mem a = σ.pt.mem a := by
  have h₁ := h.withPgd (hk.of_grows (grows_withPgd_doExec km σ func size))
  rw [doExec_pgds] at ha
  rw [doExec_eq, withPgd_cur] at hk ha ⊢
  have hP := h₁.spaces.pgd_mem σ.cur h₁.pgd_ne_zero
  have h₂ := (h₁.spaces.kmalloc userStackSize).setMm_same (t := σ.cur)
    (m := { (σ.withPgd km).mm σ.cur with progAddr := func, progSz := size }) rfl
  refine ((h₂.mapAll ?_ hk).2 a ha).trans ?_
  · intro c hc
    simp only [execCalls, List.mem_cons, List.not_mem_nil, or_false] at hc
    rcases hc with rfl | rfl | rfl
    · exact progCall_placed hP hsize
    · exact stackCall_placed hP _
    · exact peripheralCall_placed hP
  · show (σ.withPgd km).pt.mem a = σ.pt.mem a
    by_cases hpgd : (σ.mm σ.cur).pgd = 0
    · have heq : σ.withPgd km = (σ.createPgd km).2.setMm σ.cur
          { σ.mm σ.cur with pgd := virtToPhys (σ.createPgd km).1 } := if_pos hpgd
      rw [heq] at ha ⊢
      exact zeroPage_of_not_mem fun hin => ha ⟨_, .inl List.mem_cons_self, hin⟩
    · rw [h₁.old hpgd]

theorem Spaces.doExec_same {func size : ℕ} (h : Spaces km σ calls) (hl : σ.Linked) (hsize : size ≤ 2 ^ 48)
    (hk : km.Ok (Mm.doExec km σ func size)) (hcur : σ.cur ≠ u) (hu : (σ.mm u).pgd ≠ 0) :
    (Mm.doExec km σ func size).mm u = σ.mm u ∧
      ∀ w < 2 ^ 48, (Mm.doExec km σ func size).mmu u w = σ.mmu u w := by
  obtain ⟨hpgd, h'⟩ := h.doExec hsize hk
  have hmm : (σ.withPgd km).mm u = σ.mm u := hpgd.others u hcur.symm
  have hmm' : (Mm.doExec km σ func size).mm u = σ.mm u := by
    rw [doExec_mm, Function.update_of_ne hcur.symm, hmm]
  refine ⟨hmm', fun w hw => h.mmu_same hl h' (hl.doExec h hsize hk) hu hmm' (fun c hc heq => ?_) hw⟩
  have hc' : c.pgd = physToVirt ((σ.withPgd km).mm σ.cur).pgd := by
    simp only [execCalls, List.mem_cons, List.not_mem_nil, or_false] at hc
    rcases hc with rfl | rfl | rfl <;> rfl
  refine hcur (hpgd.spaces.pgd_inj σ.cur u hpgd.pgd_ne_zero (by rwa [hmm]) ?_)
  rw [hmm, ← heq, hc']

/-! ## One step -/

/-- The steps are those of the runs of `UserRun`. -/
theorem AwayStep.userRun (h : AwayStep km (fuel + 2) u σ σ') (hrun : UserRun km (fuel + 2) 4096 σ)
    (hk : km.Ok σ) : UserRun km (fuel + 2) 4096 σ' := by
  cases h with
  | load _ progAddr hfs => exact hrun.load progAddr hfs
  | fork hpgd _ hfork => exact hrun.fork hpgd hfork
  | store _ hpgd hmem =>
    obtain ⟨calls, hiso⟩ := hrun.isolated le_rfl hk
    refine hrun.user hpgd fun a hne => ?_
    obtain ⟨v, hv, pa, attrs, hmmu, -, -, rfl⟩ := hmem a hne
    obtain ⟨hmap, rfl, -⟩ := (hiso.mmu_eq_some_iff (hrun.linked le_rfl hk) hk hpgd hv).mp hmmu
    exact ⟨v, hv, hmap, by omega⟩
  | kmalloc size => exact hrun.kmalloc size
  | kernel htable _ => exact hrun.kernel htable
  | sched hop hen hstep => exact hrun.sched hop hen hstep

/-- Stores outside the tables and outside the memory of the task. -/
theorem Isolated.keeps_setMem {mem : ℕ → ℕ} (h : Isolated km 4096 σ calls) (hl : σ.Linked)
    (hu : (σ.mm u).pgd ≠ 0) (htable : ∀ a, InTable km.table σ.pgds σ.pt.next a → mem a = σ.pt.mem a)
    (hprivate : ∀ a, σ.Private u a → mem a = σ.pt.mem a) : KeepsSpace u σ (σ.setMem mem) := by
  have h' : Spaces km (σ.setMem mem) (calls ++ []) := by
    rw [List.append_nil]
    exact h.spaces.setMem htable
  refine ⟨rfl, fun w hw => ?_, hprivate⟩
  exact h.spaces.mmu_same hl h' (hl.setMem h.spaces htable) hu rfl (by simp) hw

theorem Isolated.keeps_store {mem : ℕ → ℕ} (h : Isolated km 4096 σ calls) (hl : σ.Linked) (hk : km.Ok σ)
    (hu : (σ.mm u).pgd ≠ 0) (hcur : σ.cur ≠ u) (hpgd : (σ.mm σ.cur).pgd ≠ 0)
    (hmem : ∀ a, mem a ≠ σ.pt.mem a → σ.Stores σ.cur a) : KeepsSpace u σ (σ.setMem mem) := by
  refine h.keeps_setMem hl hu (fun a ha => ?_) fun a ha => ?_
  · by_contra hne
    obtain ⟨v, hv, pa, attrs, hmmu, -, -, rfl⟩ := hmem a hne
    obtain ⟨hmap, rfl, -⟩ := (h.mmu_eq_some_iff hl hk hpgd hv).mp hmmu
    exact h.user_not_inTable hk hpgd hv hmap (by omega) ha
  · by_contra hne
    obtain ⟨c, base, hb, hon⟩ := h.private_onPages hl hk hu ha
    obtain ⟨v, hv, pa, attrs, hmmu, -, -, rfl⟩ := hmem a hne
    obtain ⟨hmap, rfl, -⟩ := (h.mmu_eq_some_iff hl hk hpgd hv).mp hmmu
    refine hb.not_reached h hl hk hu hcur.symm hpgd hv hmap ?_
    have halign := hk.aligned _ hb.backed.block hb.backed.size
    unfold OnPages nrPagesOf at hon ⊢
    dsimp only at halign
    omega

/-- Another task loads a program. -/
theorem Isolated.keeps_load {progAddr fs : ℕ} (h : Isolated km 4096 σ calls) (hl : σ.Linked)
    (hu : (σ.mm u).pgd ≠ 0) (hcur : σ.cur ≠ u) (hfs : 4096 ≤ fs) (hk : km.Ok (initrdUsrProg km σ progAddr fs)) :
    KeepsSpace u σ (initrdUsrProg km σ progAddr fs) := by
  obtain ⟨-, h₁, hb, hnew, -, hsize⟩ := h.spaces.copyProg hk
  have hk₀ : km.Ok (σ.kmalloc km fs).2 := hk.of_grows
    ((grows_setMem _ _).trans (grows_copyProg_initrdUsrProg km σ progAddr fs))
  have hl₁ : (copyProg km σ progAddr fs).Linked := hl.fill h.spaces hk₀ (.inr rfl)
  have hg := grows_initrdUsrProg km σ progAddr fs
  have hsize' : fs ≤ 2 ^ 48 := hsize.trans (by decide)
  rw [initrdUsrProg_eq] at hk hg ⊢
  -- the copy is in no table, and in no block of the task
  have hcopy : ∀ w < 2 ^ 48, (copyProg km σ progAddr fs).mmu u w = σ.mmu u w := by
    intro w hw
    have h₁' : Spaces km (copyProg km σ progAddr fs) (calls ++ []) := by rwa [List.append_nil]
    exact h.spaces.mmu_same hl h₁' hl₁ hu rfl (by simp) hw
  obtain ⟨hpgd, h₂⟩ := h₁.doExec hsize' hk
  obtain ⟨hmm, hmmu⟩ := h₁.doExec_same hl₁ hsize' hk hcur hu
  refine ⟨hmm, fun w hw => (hmmu w hw).trans (hcopy w hw), fun a ha => ?_⟩
  obtain ⟨c, base, hblock, hon⟩ := h.private_onPages hl (hk₀.of_grows (grows_kmalloc km σ fs)) hu ha
  rw [h₁.doExec_frame hsize' hk (hblock.not_inTable hon hg hk h₂.pgd_block fun P hP => ?_)]
  · exact moveBytes_of_ne fun i hi => hblock.word_ne hon (grows_kmalloc km σ fs) hk₀ hb hfs hnew hi
  · rw [doExec_pgds] at hP
    exact (hpgd.new_pgds hP).imp id fun hn => hn.of_grows (grows_copyProg km σ progAddr fs)

/-- A task forks, and the child is another one. -/
theorem Isolated.keeps_fork (h : Isolated km 4096 σ calls) (hl : σ.Linked) (hu : (σ.mm u).pgd ≠ 0)
    (hpgd : (σ.mm σ.cur).pgd ≠ 0) (hchild : (Sched.findEmptyTask σ.sched).1 ≠ some u)
    (hfork : σ.sysFork km = .ok σ') (hl' : σ'.Linked) (hg : Grows σ σ') (hk : km.Ok σ') :
    KeepsSpace u σ σ' := by
  have hk₀ := hk.of_grows hg
  obtain ⟨child, s, hfind, -, hs, rfl⟩ := sysFork_ok h.sched hfork
  obtain ⟨pstack, hloaded⟩ := h.loaded _ hpgd
  obtain ⟨P, stack, prog, hc⟩ := h.fork le_rfl hpgd hloaded hs hk
  have hne : u ≠ child := by
    rintro rfl
    exact hchild hfind
  obtain ⟨⟨hnewP, hnewS, hnewQ⟩, -⟩ := newBase_three hk hc.blocks
  have h' := hc.isolated.spaces
  have hstack : ⟨stack, userStackSize⟩ ∈ (forkInto km σ child).blocks := by
    rw [show (forkInto km σ child).blocks = _ from hc.blocks]
    simp
  have hprog : ⟨prog, (σ.mm σ.cur).progSz⟩ ∈ (forkInto km σ child).blocks := by
    rw [show (forkInto km σ child).blocks = _ from hc.blocks]
    simp
  have hpgds : ∀ Q ∈ (forkInto km σ child).pgds, Q ∈ σ.pgds ∨ NewBase σ Q := by
    intro Q hQ
    rw [show (forkInto km σ child).pgds = _ from hc.pgds] at hQ
    rcases List.mem_cons.mp hQ with rfl | hQ
    · exact .inr hnewP
    · exact .inl hQ
  refine ⟨hc.others u hne, fun w hw => ?_, fun a ha => ?_⟩
  · refine h.spaces.mmu_same hl h' hl' hu (hc.others u hne) (fun c hcall heq => ?_) hw
    have hcP : c.pgd = P := by
      rcases mem_forkCalls.mp hcall with rfl | rfl | rfl <;> rfl
    exact hnewP _ (h.spaces.pgd_block _ (h.spaces.pgd_mem u hu)) (heq.symm.trans hcP)
  · obtain ⟨c, base, hblock, hon⟩ := h.private_onPages hl hk₀ hu ha
    have htable := hblock.not_inTable hon hg hk h'.pgd_block hpgds
    rw [hc.mem a htable, copyBytes_of_ne fun i hi => hblock.word_ne hon hg hk hprog hloaded.size hnewQ hi,
      copyBytes_of_ne fun i hi => hblock.word_ne hon hg hk hstack (by decide) hnewS hi]
    refine zeroPage_of_not_mem fun hin => htable ⟨P, .inl ?_, hin⟩
    rw [hc.pgds]
    exact List.mem_cons_self

/-- One step keeps the tables of the task and the memory behind them. -/
theorem AwayStep.keepsSpace (h : AwayStep km (fuel + 2) u σ σ') (hrun : UserRun km (fuel + 2) 4096 σ)
    (hk : km.Ok σ') (hu : (σ.mm u).pgd ≠ 0) : KeepsSpace u σ σ' := by
  have hg := h.grows
  have hk₀ := hk.of_grows hg
  have hl := hrun.linked le_rfl hk₀
  have hl' := (h.userRun hrun hk₀).linked le_rfl hk
  obtain ⟨calls, hiso⟩ := hrun.isolated le_rfl hk₀
  cases h with
  | load hcur progAddr hfs => exact hiso.keeps_load hl hu hcur hfs hk
  | fork hpgd hchild hfork => exact hiso.keeps_fork hl hu hpgd hchild hfork hl' hg hk
  | store hcur hpgd hmem => exact hiso.keeps_store hl hk₀ hu hcur hpgd hmem
  | kmalloc size => exact ⟨rfl, fun _ _ => rfl, fun _ _ => rfl⟩
  | kernel htable hprivate => exact hiso.keeps_setMem hl hu htable hprivate
  | sched _ _ _ => exact ⟨rfl, fun _ _ => rfl, fun _ _ => rfl⟩

/-! ## Any number of steps -/

/-- The steps of a system while task `u` is away. -/
abbrev Away (km : Kmalloc) (fuel : ℕ) (u : Sched.Slot) : Machine → Machine → Prop :=
  Relation.ReflTransGen (AwayStep km fuel u)

theorem away_keepsSpace (h : Away km (fuel + 2) u σ σ') (hrun : UserRun km (fuel + 2) 4096 σ) (hk : km.Ok σ')
    (hu : (σ.mm u).pgd ≠ 0) : UserRun km (fuel + 2) 4096 σ' ∧ KeepsSpace u σ σ' := by
  induction h with
  | refl => exact ⟨hrun, KeepsSpace.refl u σ⟩
  | tail _ hstep ih =>
    have hk₁ := hk.of_grows hstep.grows
    obtain ⟨hrun₁, hkeep⟩ := ih hk₁
    exact ⟨hstep.userRun hrun₁ hk₁,
      hkeep.trans (hstep.keepsSpace hrun₁ hk (by rwa [hkeep.mm]))⟩

/-- In every run. While a task is away, others load programs, fork and store wherever the MMU lets them,
    and the kernel stores to memory of its own. The task comes back to the translations that it had, and
    to the bytes that it had outside the peripherals. -/
theorem space_kept (hrun : UserRun km (fuel + 2) 4096 σ) (hk : km.Ok σ') (hu : (σ.mm u).pgd ≠ 0)
    (h : Away km (fuel + 2) u σ σ') {w : ℕ} (hw : w < 2 ^ 48) :
    σ'.mmu u w = σ.mmu u w ∧ ∀ pa attrs, σ.mmu u w = some (pa, attrs) → ¬ InPeripherals pa →
      byte σ'.pt.mem (physToVirt pa) = byte σ.pt.mem (physToVirt pa) := by
  obtain ⟨-, hkeep⟩ := away_keepsSpace h hrun hk hu
  refine ⟨hkeep.mmu w hw, fun pa attrs hmmu hper => ?_⟩
  exact byte_congr (hkeep.mem _ ⟨w, hw, pa, attrs, hmmu, hper, rfl⟩)

end

/-- Task 0 has a program of two pages and forks, and the child loads another. -/
theorem space_kept_forked : ∃ σ', Away spread (0 + 2) 0 (userMachine 0x1234) σ' ∧ σ'.cur = 1 ∧
    σ'.mmu 0 0x1000 = (userMachine 0x1234).mmu 0 0x1000 ∧
    ∀ pa attrs, (userMachine 0x1234).mmu 0 0x1000 = some (pa, attrs) → ¬ InPeripherals pa →
      byte σ'.pt.mem (physToVirt pa) = byte (userMachine 0x1234).pt.mem (physToVirt pa) := by
  obtain ⟨s, -, -, hstep, hs, -, -⟩ := forkedSched_tick
  have hcur := userMachine_cur 0x1234
  have hfork := userMachine_fork 0x1234
  have hroom := (userMachine_roomy (show 0x1234 ≤ 0x10000 by norm_num)).forkInto
    (by rw [hcur, userMachine_mm]; norm_num) 1
  -- the tables that the fork has made are not to be computed
  generalize forkInto spread (userMachine 0x1234) 1 = τ at hfork hroom
  have hfork' : AwayStep spread (0 + 2) 0 (userMachine 0x1234) { τ with sched := forkedSched } :=
    .fork (by rw [hcur]; exact userMachine_pgd _) (by rw [userMachine_sched]; decide) hfork
  have htickNe : Sched.Op.tick ≠ Sched.Op.fork := by simp
  have htick : AwayStep spread (0 + 2) 0 { τ with sched := forkedSched } { τ with sched := s } :=
    .sched htickNe trivial hstep
  have hload : AwayStep spread (0 + 2) 0 { τ with sched := s }
      (initrdUsrProg spread { τ with sched := s } 0xffff000009000000 0x2000) :=
    .load (by show s.current ≠ 0; rw [hs]; decide) _ (by norm_num)
  have hready : Roomy 80000 6 { τ with sched := s } := ⟨hroom.next, hroom.length, hroom.block⟩
  have hroom' := hready.load (show 0x2000 ≤ 0x10000 by norm_num) 0xffff000009000000
  have haway : Away spread (0 + 2) 0 (userMachine 0x1234) _ := .tail (.tail (.single hfork') htick) hload
  refine ⟨_, haway, ?_, space_kept (userMachine_run (by norm_num)) (hroom'.ok (by norm_num) (by norm_num))
    (userMachine_pgd _) haway (by norm_num)⟩
  show (doExec spread _ _ _).cur = 1
  rw [Machine.cur, doExec_sched]
  exact hs

end RaspiKernel.Mm
