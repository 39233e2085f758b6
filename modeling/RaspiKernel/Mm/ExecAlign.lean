import RaspiKernel.Boot.Cat
import RaspiKernel.Mm.Fork
import RaspiKernel.Mm.Room

/-!
# Where `do_exec` maps the program

`_initrd_usr_prog` copies the program to what `kmalloc(fs)` returns, and `map_pages`
enters the pages from there on. `walk` adds the attributes to the address with `|=`,
and the hardware drops the bits below the page: a program that is no multiple of the
page size away from a page start is seen at another place.

The blocks of all address spaces are requests to one `kmalloc`, which other parts
of the kernel use in between. `HeapRun` is the run of both together.

Results:
* `Kernel.Holds.ok`: what `kmalloc` gives is as `Kmalloc.Ok` says.
* `exec_maps_iff`: the programs that are mapped as they should.
-/

namespace RaspiKernel.Mm

open Lib
open Memblock (Region physToVirt virtToPhys kernelVaddrBase)

/-! ## The blocks of the address spaces -/

/-- The tables number `i` to `i + count - 1`. -/
def tableSpans (km : Kmalloc) (i count : ℕ) : List Span :=
  (List.range' i count).map fun k => ⟨km.table k, 4096⟩

/-- Everything the address spaces are made of. -/
def Machine.spans (km : Kmalloc) (σ : Machine) : List Span := σ.blocks ++ tableSpans km 0 σ.pt.next

/-- The blocks that a call has taken, in order: those for the `pgd`, stack and program come before the
    tables that `map_pages` makes. -/
def Machine.taken (km : Kmalloc) (σ σ' : Machine) : List Span :=
  σ'.blocks.drop σ.blocks.length ++ tableSpans km σ.pt.next (σ'.pt.next - σ.pt.next)

section

variable {km : Kmalloc} {σ σ' : Machine} {n nullPfn : ℕ} {rgns : List Region} {κ κ' κp : Kernel}
  {tile : Tiles} {l m : List Span} {calls : List MapCall}

theorem mem_tableSpans {i count : ℕ} {b : Span} :
    b ∈ tableSpans km i count ↔ ∃ k, (i ≤ k ∧ k < i + count) ∧ (⟨km.table k, 4096⟩ : Span) = b := by
  simp [tableSpans]

theorem tableSpans_append (i count count' : ℕ) : tableSpans km i (count + count') =
    tableSpans km i count ++ tableSpans km (i + count) count' := by
  rw [tableSpans, tableSpans, tableSpans, ← List.map_append, List.range'_append_1]

theorem Kernel.Holds.perm (h : κ.Holds l) (hlm : l.Perm m) : κ.Holds m :=
  ⟨fun b hb => h.owns b (hlm.mem_iff.mpr hb), (hlm.map Span.base).nodup_iff.mp h.nodup⟩

/-- The blocks after a call are those before it and those it has taken. -/
theorem spans_perm (hg : Grows σ σ') : (σ.spans km ++ σ.taken km σ').Perm (σ'.spans km) := by
  obtain ⟨count, hnext⟩ := Nat.exists_eq_add_of_le hg.next
  obtain ⟨new, hblocks⟩ := hg.blocks
  rw [Machine.spans, Machine.taken, Machine.spans, hnext, ← hblocks, Nat.add_sub_cancel_left,
    tableSpans_append, Nat.zero_add, List.drop_left, List.append_assoc, List.append_assoc]
  exact (List.perm_append_comm_assoc _ _ _).append_left _

/-- Blocks that `kmalloc` gives are apart from each other, in the RAM and aligned. -/
theorem Kernel.Holds.ok (h : κ.Holds (σ.spans km)) (hheap : HeapInv n rgns κ κp tile)
    (hram : n * 4096 ≤ peripheralBase) (hzero : Reserved rgns 0) : km.Ok σ := by
  have hn : n < 2 ^ 36 := by
    unfold peripheralBase at hram
    omega
  have hblock : ∀ b ∈ σ.blocks, κ.Owns b := fun b hb => h.owns b (List.mem_append_left _ hb)
  have htable : ∀ k < σ.pt.next, κ.Owns ⟨km.table k, 4096⟩ := fun k hk =>
    h.owns _ (List.mem_append_right _ (mem_tableSpans.mpr ⟨k, ⟨Nat.zero_le k, by omega⟩, rfl⟩))
  have hend : ∀ b, κ.Owns b → kernelVaddrBase < b.base ∧ b.stop ≤ kernelVaddrBase + peripheralBase := by
    intro b hb
    have := hheap.owned_ram hn hzero hb
    omega
  have hnodup := h.nodup
  rw [Machine.spans, List.map_append, List.nodup_append] at hnodup
  obtain ⟨hblocks, htables, hcross⟩ := hnodup
  refine ⟨fun k hk => ?_, fun k hk => (hend _ (htable k hk)).2, fun k hk j hj heq => ?_,
    fun b hb => hheap.owned_dvd hn (hblock b hb), fun b hb => hend b (hblock b hb), ?_,
    fun k hk b hb => ?_⟩
  · have h1 := hend _ (htable k hk)
    have h2 := hheap.owned_dvd hn (htable k hk) le_rfl
    unfold Span.stop kernelVaddrBase peripheralBase at h1
    unfold IsPage kernelVaddrBase
    dsimp only at h1 h2
    omega
  · have hbase : (tableSpans km 0 σ.pt.next).map Span.base =
        (List.range' 0 σ.pt.next).map km.table := by
      rw [tableSpans, List.map_map]
      rfl
    rw [hbase] at htables
    have := List.inj_on_of_nodup_map htables (List.mem_range'_1.mpr ⟨Nat.zero_le j, by omega⟩)
      (List.mem_range'_1.mpr ⟨Nat.zero_le k, by omega⟩) heq
    omega
  · refine (List.pairwise_map.mp hblocks).imp_of_mem fun {b c} hb hc hne => ⟨hne, ?_⟩
    exact hheap.owned_apart hn (hblock b hb) (hblock c hc) hne
  · have hne : km.table k ≠ b.base := by
      refine (hcross _ (List.mem_map_of_mem hb) _ (List.mem_map.mpr ⟨⟨km.table k, 4096⟩, ?_, rfl⟩)).symm
      exact mem_tableSpans.mpr ⟨k, ⟨Nat.zero_le k, by omega⟩, rfl⟩
    exact hheap.owned_apart hn (htable k hk) (hblock b hb) hne

/-! ## The address spaces -/

/-- `initrd_usr_prog` copies the program before `do_exec` maps it. -/
theorem Spaces.initrdUsrProg {progAddr fs : ℕ} (h : Spaces km σ calls)
    (hk : km.Ok (initrdUsrProg km σ progAddr fs)) :
    HasPgd km (Mm.copyProg km σ progAddr fs) ((Mm.copyProg km σ progAddr fs).withPgd km) calls ∧
      Spaces km (Mm.initrdUsrProg km σ progAddr fs)
        (calls ++ execCalls (physToVirt (((Mm.copyProg km σ progAddr fs).withPgd km).mm σ.cur).pgd)
          (σ.kmalloc km fs).1 fs
          (km.block ((Mm.copyProg km σ progAddr fs).withPgd km).blocks.length)) := by
  have hc := h.copyProg hk
  rw [initrdUsrProg_eq] at hk ⊢
  exact hc.spaces.doExec (hc.size.trans (by decide)) hk

theorem mem_initrdUsrProg_blocks (km : Kmalloc) (σ : Machine) (progAddr fs : ℕ) :
    (⟨(σ.kmalloc km fs).1, fs⟩ : Span) ∈ (Mm.initrdUsrProg km σ progAddr fs).blocks :=
  ((grows_setMem _ _).trans (grows_copyProg_initrdUsrProg km σ progAddr fs)).blocks.subset
    (mem_kmalloc_blocks km σ fs)

end

/-! ## Runs -/

/-- Runs of the kernel with its allocator. Tasks load programs of any size and fork, and all requests
    that this takes are given. In between, the rest of the kernel calls `kmalloc` and `kfree` and
    writes to what it has, but frees no block of an address space; words outside the tables are
    stored, and any task is scheduled. At boot the first page is reserved (the kernel image starts
    there), and the RAM ends below the peripherals. -/
inductive HeapRun (nullPfn : ℕ) (km : Kmalloc) : Kernel → Machine → Prop
  | boot {rgns : List Region} {nrPages : ℕ} {caches : ℕ → KmemCache} {ram : Mem} {κ : Kernel}
      (hboot : Kernel.boot rgns nrPages caches ram = .ok κ) (hzero : Reserved rgns 0)
      (hend : nrPages * 4096 ≤ peripheralBase) (sched : Sched.State) (mem : ℕ → ℕ) :
    HeapRun nullPfn km κ ⟨sched, fun _ => ⟨0, 0, 0⟩, ⟨mem, 0⟩, [], []⟩
  | exec {κ κ' : Kernel} {σ : Machine} (h : HeapRun nullPfn km κ σ) (progAddr fs : ℕ)
      (hgives : GivesAll nullPfn κ (σ.taken km (initrdUsrProg km σ progAddr fs)) κ') :
    HeapRun nullPfn km κ' (initrdUsrProg km σ progAddr fs)
  | fork {κ κ' : Kernel} {σ σ' : Machine} (h : HeapRun nullPfn km κ σ) (hfork : σ.sysFork km = .ok σ')
      (hgives : GivesAll nullPfn κ (σ.taken km σ') κ') : HeapRun nullPfn km κ' σ'
  | heap {κ κ' : Kernel} {σ : Machine} (h : HeapRun nullPfn km κ σ) {op : HeapOp} (hop : op.Valid)
      (hexec : κ.heapExec nullPfn op = .ok κ') (hkeep : ∀ b ∈ σ.spans km, κ'.Owns b) :
    HeapRun nullPfn km κ' σ
  | store {κ : Kernel} {σ : Machine} (h : HeapRun nullPfn km κ σ) {mem : ℕ → ℕ}
      (hmem : ∀ a, InTable km.table σ.pgds σ.pt.next a → mem a = σ.pt.mem a) :
    HeapRun nullPfn km κ (σ.setMem mem)
  | sched {κ : Kernel} {σ : Machine} (h : HeapRun nullPfn km κ σ) (s : Sched.State) :
    HeapRun nullPfn km κ { σ with sched := s }

/-- The allocator is in a state of a run, on a machine with its RAM below the peripherals. -/
def Kernel.Sound (κ : Kernel) : Prop :=
  ∃ n rgns κp tile, n * 4096 ≤ peripheralBase ∧ Reserved rgns 0 ∧ HeapInv n rgns κ κp tile

/-- The address spaces are made of owned blocks. -/
structure HeapSpaces (km : Kmalloc) (κ : Kernel) (σ : Machine) : Prop where
  sound : κ.Sound
  holds : κ.Holds (σ.spans km)
  spaces : ∃ calls, Spaces km σ calls

section

variable {km : Kmalloc} {σ σ' : Machine} {nullPfn : ℕ} {κ κ' : Kernel} {l new : List Span}

theorem lt_of_ram {n : ℕ} (hram : n * 4096 ≤ peripheralBase) : n < 2 ^ 36 := by
  unfold peripheralBase at hram
  omega

theorem Kernel.Sound.gives (h : κ.Sound) (hl : κ.Holds l) (hg : GivesAll nullPfn κ new κ') :
    κ'.Sound ∧ κ'.Holds (l ++ new) := by
  obtain ⟨n, rgns, κp, tile, hram, hzero, hheap⟩ := h
  obtain ⟨⟨κp', tile', h'⟩, hl'⟩ := hg.holds (lt_of_ram hram) hheap hl
  exact ⟨⟨n, rgns, κp', tile', hram, hzero, h'⟩, hl'⟩

theorem Kernel.Sound.heapExec (h : κ.Sound) {op : HeapOp} (hop : op.Valid)
    (hexec : κ.heapExec nullPfn op = .ok κ') : κ'.Sound := by
  obtain ⟨n, rgns, κp, tile, hram, hzero, hheap⟩ := h
  obtain ⟨κp', tile', hexec', h'⟩ :=
    hheap.inv.heapExec_ok (padPages_le (lt_of_ram hram)) nullPfn hop
  obtain ⟨τ, hτ, hp⟩ := hheap.padded.heapExec op κp' hexec'
  obtain rfl : κ' = τ := Except.ok.inj (hexec.symm.trans hτ)
  exact ⟨n, rgns, κp', tile', hram, hzero, hp, h'⟩

theorem Kernel.Sound.ok (h : κ.Sound) (hl : κ.Holds (σ.spans km)) : km.Ok σ := by
  obtain ⟨n, rgns, κp, tile, hram, hzero, hheap⟩ := h
  exact hl.ok hheap hram hzero

/-- A call that is given its requests. -/
theorem HeapSpaces.gives (h : HeapSpaces km κ σ) (hgrows : Grows σ σ')
    (hg : GivesAll nullPfn κ (σ.taken km σ') κ') :
    κ'.Sound ∧ κ'.Holds (σ'.spans km) ∧ km.Ok σ' := by
  obtain ⟨hsound, hholds⟩ := h.sound.gives h.holds hg
  have hspans := hholds.perm (spans_perm hgrows)
  exact ⟨hsound, hspans, hsound.ok hspans⟩

theorem HeapSpaces.initrdUsrProg (h : HeapSpaces km κ σ) {progAddr fs : ℕ}
    (hg : GivesAll nullPfn κ (σ.taken km (Mm.initrdUsrProg km σ progAddr fs)) κ') :
    HeapSpaces km κ' (Mm.initrdUsrProg km σ progAddr fs) := by
  have hgrows := grows_initrdUsrProg km σ progAddr fs
  obtain ⟨hsound, hspans, hk⟩ := h.gives hgrows hg
  obtain ⟨calls, hspaces⟩ := h.spaces
  exact ⟨hsound, hspans, _, (hspaces.initrdUsrProg hk).2⟩

theorem HeapSpaces.sysFork (h : HeapSpaces km κ σ) (hfork : σ.sysFork km = .ok σ')
    (hg : GivesAll nullPfn κ (σ.taken km σ') κ') : HeapSpaces km κ' σ' := by
  obtain ⟨child, s, -, -, rfl⟩ := sysFork_eq_ok hfork
  have hgrows : Grows σ { forkInto km σ child with sched := s } :=
    (grows_forkInto km σ child).trans ⟨le_rfl, List.prefix_rfl⟩
  obtain ⟨hsound, hspans, hk⟩ := h.gives hgrows hg
  obtain ⟨calls, hspaces⟩ := h.spaces
  obtain ⟨_, _, _, _, hf⟩ := hspaces.forkInto child (hk.of_grows ⟨le_rfl, List.prefix_rfl⟩)
  exact ⟨hsound, hspans, _, hf.spaces.setSched s⟩

/-- Every run keeps the address spaces in owned blocks. -/
theorem HeapRun.heapSpaces (h : HeapRun nullPfn km κ σ) : HeapSpaces km κ σ := by
  induction h with
  | @boot rgns nrPages caches ram κ hboot hzero hend sched mem =>
    obtain ⟨κp, tile, hbootp, hp⟩ := kernel_boot_ok (dvd_padPages nrPages) (padRegions nrPages rgns)
      caches ram
    obtain ⟨κ', hκ', hpad⟩ := kernel_boot_follows nrPages rgns caches ram κp hbootp
    obtain rfl : κ = κ' := Except.ok.inj (hboot.symm.trans hκ')
    refine ⟨⟨nrPages, rgns, κp, tile, hend, hzero, hpad, hp⟩, ⟨by simp [Machine.spans, tableSpans],
      by simp [Machine.spans, tableSpans]⟩, [], forest_init (by simp) (by simp), ⟨by simp, by simp⟩,
      by simp, ?_, ?_, by simp⟩
    · exact fun t ht => absurd rfl ht
    · exact fun t u ht => absurd rfl ht
  | exec _ progAddr fs hgives ih => exact ih.initrdUsrProg hgives
  | fork _ hfork hgives ih => exact ih.sysFork hfork hgives
  | heap _ hop hexec hkeep ih => exact ⟨ih.sound.heapExec hop hexec, ⟨hkeep, ih.holds.nodup⟩, ih.spaces⟩
  | store _ hmem ih =>
    obtain ⟨calls, h⟩ := ih.spaces
    exact ⟨ih.sound, ih.holds, calls, h.setMem hmem⟩
  | sched _ s ih =>
    obtain ⟨calls, h⟩ := ih.spaces
    exact ⟨ih.sound, ih.holds, calls, h.setSched s⟩

end

/-! ## The program -/

/-- The program of task `t` is seen from address 0 on. -/
def Machine.MapsProg (σ : Machine) (t : Sched.Slot) : Prop :=
  ∀ v < (σ.mm t).progSz, σ.translate t v = virtToPhys (σ.mm t).progAddr + v

section

variable {km : Kmalloc} {σ : Machine} {nullPfn progAddr fs : ℕ} {κ κ' : Kernel}

/-- The program is the first block that the call takes. -/
theorem taken_initrdUsrProg (km : Kmalloc) (σ : Machine) (progAddr fs : ℕ) :
    ∃ rest, σ.taken km (initrdUsrProg km σ progAddr fs) = ⟨(σ.kmalloc km fs).1, fs⟩ :: rest := by
  obtain ⟨new, hnew⟩ := (grows_copyProg_initrdUsrProg km σ progAddr fs).blocks
  have hblocks : (initrdUsrProg km σ progAddr fs).blocks =
      σ.blocks ++ (⟨(σ.kmalloc km fs).1, fs⟩ :: new) := by
    refine hnew.symm.trans ?_
    rw [(copyProg_eq km σ progAddr fs).2.2.2, List.append_assoc, List.singleton_append]
  rw [Machine.taken, hblocks, List.drop_left, List.cons_append]
  exact ⟨_, rfl⟩

/-- What `kmalloc` answered to the request for the program. -/
theorem kmalloc_of_gives (hg : GivesAll nullPfn κ (σ.taken km (initrdUsrProg km σ progAddr fs)) κ') :
    ∃ st, kmalloc nullPfn κ.state fs = .ok ((σ.kmalloc km fs).1, st) := by
  obtain ⟨rest, hrest⟩ := taken_initrdUsrProg km σ progAddr fs
  rw [hrest] at hg
  cases hg with
  | cons hb _ =>
    obtain ⟨st, hrun, -⟩ := hb.returns
    exact ⟨st, hrun⟩

/-- Whatever was asked and answered before, a program that is seen from address 0 on is page aligned. -/
theorem Machine.MapsProg.dvd {t : Sched.Slot} (h : σ.MapsProg t) (hpos : 0 < (σ.mm t).progSz) :
    4096 ∣ (σ.mm t).progAddr := by
  have hdvd := dvd_simulateWalk_zero σ.pt.mem (physToVirt (σ.mm t).pgd)
  rw [show simulateWalk _ _ 0 = virtToPhys (σ.mm t).progAddr + 0 from h 0 hpos, Nat.add_zero,
    Memblock.virtToPhys_eq] at hdvd
  omega

/-- The task has the program at `prog`, and sees it from address 0 on if it is page aligned. -/
structure SeesProg (σ' : Machine) (t : Sched.Slot) (prog fs : ℕ) : Prop where
  progAddr : (σ'.mm t).progAddr = prog
  progSz : (σ'.mm t).progSz = fs
  translate : 4096 ∣ prog → ∀ v, InProg fs v → σ'.translate t v = virtToPhys prog + v

theorem HeapSpaces.seesProg (h : HeapSpaces km κ σ)
    (hg : GivesAll nullPfn κ (σ.taken km (Mm.initrdUsrProg km σ progAddr fs)) κ') :
    SeesProg (Mm.initrdUsrProg km σ progAddr fs) σ.cur (σ.kmalloc km fs).1 fs := by
  obtain ⟨-, -, hk⟩ := h.gives (grows_initrdUsrProg km σ progAddr fs) hg
  obtain ⟨calls, hspaces⟩ := h.spaces
  have hprog := mem_initrdUsrProg_blocks km σ progAddr fs
  have hram : InRam (σ.kmalloc km fs).1 fs := ⟨(hk.ram _ hprog).1.le, (hk.ram _ hprog).2⟩
  obtain ⟨hpgd, h'⟩ := hspaces.initrdUsrProg hk
  have hcur := copyProg_cur km σ progAddr fs
  rw [initrdUsrProg_eq] at h' ⊢
  generalize (σ.kmalloc km fs).1 = prog at *
  generalize copyProg km σ progAddr fs = σ₁ at *
  have hmm : (Mm.doExec km σ₁ prog fs).mm σ.cur = ⟨((σ₁.withPgd km).mm σ.cur).pgd, prog, fs⟩ := by
    rw [doExec_mm, hcur, Function.update_self]
  have hP : physToVirt ((σ₁.withPgd km).mm σ.cur).pgd ∈ (Mm.doExec km σ₁ prog fs).pgds := by
    rw [doExec_pgds]
    exact hpgd.spaces.pgd_mem σ.cur (hcur ▸ hpgd.pgd_ne_zero)
  refine ⟨by rw [hmm], by rw [hmm], fun hdvd v hv => ?_⟩
  rw [Machine.translate, hmm]
  have hlast := @lastMapping_execCalls calls (physToVirt ((σ₁.withPgd km).mm σ.cur).pgd) prog fs
    (km.block (σ₁.withPgd km).blocks.length) v
  rw [if_neg (hv.not_peripherals hram.size_le), if_neg (hv.not_stack hram.size_le), if_pos hv] at hlast
  exact h'.simulateWalk_eq hP hlast (progCall_valid hP hram hdvd)

theorem SeesProg.mapsProg_iff {σ' : Machine} {t : Sched.Slot} {prog : ℕ} (h : SeesProg σ' t prog fs)
    (hfs : 0 < fs) : σ'.MapsProg t ↔ 4096 ∣ prog := by
  refine ⟨fun hmaps => ?_, fun hdvd v hv => ?_⟩
  · rw [← h.progAddr]
    exact hmaps.dvd (by rwa [h.progSz])
  · rw [h.progSz] at hv
    rw [h.progAddr]
    refine h.translate hdvd v ?_
    unfold InProg nrPagesOf
    omega

/-- One call on a state of a run. -/
theorem HeapRun.mapsProg_iff (h : HeapRun nullPfn km κ σ) (hfs : 0 < fs)
    (hg : GivesAll nullPfn κ (σ.taken km (initrdUsrProg km σ progAddr fs)) κ') :
    (initrdUsrProg km σ progAddr fs).MapsProg σ.cur ↔ pageSize ≤ fs ∨ PageStart κ.state fs := by
  obtain ⟨st, hrun⟩ := kmalloc_of_gives hg
  rw [(h.heapSpaces.seesProg hg).mapsProg_iff hfs, kmalloc_dvd_iff hrun]

end

/-- **Programs of the archive.** For every state of a run and every file of an archive that is not empty:
    `_initrd_usr_prog` finds it, and when `kmalloc` gives what the call asks for, each address below
    the size of the program is mapped to the byte of the copy exactly if that size is a page or more,
    or the next object of its cache is the first of a page. -/
theorem exec_maps_iff {km : Kmalloc} {σ : Machine} {nullPfn : ℕ} {κ : Kernel} {m : Mem} {base fuel : ℕ}
    {entries : List Boot.Entry} {trailer : Boot.Entry} {x : Boot.Entry × Boot.Round}
    (hrun : HeapRun nullPfn km κ σ) (hat : Boot.ArchiveAt m base entries trailer)
    (hfuel : (Boot.archive entries trailer).length ≤ fuel) (hx : Boot.FoundFirst base entries x) :
    ∃ prog, Boot.initrdUsrProg fuel m base x.1.name = some (some prog) ∧
      ∀ κ', GivesAll nullPfn κ (σ.taken km (initrdUsrProg km σ prog.progAddr prog.size.toNat)) κ' →
        ((initrdUsrProg km σ prog.progAddr prog.size.toNat).MapsProg σ.cur ↔
          pageSize ≤ prog.size.toNat ∨ PageStart κ.state prog.size.toNat) := by
  refine ⟨_, Boot.initrdUsrProg_first hat hfuel hx, fun κ' hg => hrun.mapsProg_iff ?_ hg⟩
  have hpos := List.length_pos_iff.mpr hx.data_ne
  have hfs := (Boot.visits_visited hat x hx.mem).fs
  dsimp only
  omega

/-! ## Calls that are given what they ask for -/

/-- After boot nothing is taken. -/
theorem boot_empty {rgns : List Region} {n : ℕ} {caches : ℕ → KmemCache} {ram : Mem} {κ : Kernel}
    (h : Kernel.boot rgns n caches ram = .ok κ) :
    κ.used = 0 ∧ ∀ i < nrObjects, (κ.caches i).partialSlabs = [] := by
  obtain ⟨sys, hsys, hκ⟩ := bind_eq_ok.mp h
  obtain rfl := Except.ok.inj hκ
  obtain ⟨mm, -, hmm⟩ := bind_eq_ok.mp hsys
  obtain rfl := Except.ok.inj hmm
  have hcaches : ∀ i < nrObjects, ((slabInit ⟨mm, caches, ram⟩).caches i).partialSlabs = [] := by
    intro i hi
    simp only [slabInit, if_pos hi, kmemCacheInit]
  have hpages : slabPages (slabInit ⟨mm, caches, ram⟩).caches = [] := by
    refine List.eq_nil_iff_forall_not_mem.mpr fun p hp => ?_
    obtain ⟨i, hi, hmem⟩ := mem_slabPages.mp hp
    rw [hcaches i hi] at hmem
    cases hmem
  refine ⟨?_, hcaches⟩
  show (([] : List Block).map _).sum + (slabPages (slabInit ⟨mm, caches, ram⟩).caches).toFinset.card = 0
  rw [hpages]
  rfl

section

variable {km : Kmalloc} {σ : Machine} {nullPfn progAddr fs n : ℕ} {rgns : List Region} {κ κp : Kernel}
  {tile : Tiles}

/-- A task without `pgd` takes three blocks. -/
theorem initrdUsrProg_blocks (km : Kmalloc) (progAddr fs : ℕ) (hpgd : (σ.mm σ.cur).pgd = 0) :
    (initrdUsrProg km σ progAddr fs).blocks = σ.blocks ++ [⟨km.block σ.blocks.length, fs⟩,
      ⟨km.block (σ.blocks.length + 1), 4096⟩, ⟨km.block (σ.blocks.length + 2), userStackSize⟩] := by
  set σ₁ := (σ.kmalloc km fs).2.setMem
    (WordMem.moveBytes (σ.kmalloc km fs).2.pt.mem (σ.kmalloc km fs).1 progAddr fs) with hσ₁
  have hpgd₁ : (σ₁.withPgd km).blocks =
      σ.blocks ++ [⟨km.block σ.blocks.length, fs⟩] ++ [⟨km.block (σ.blocks.length + 1), 4096⟩] := by
    rw [Machine.withPgd, if_pos (show (σ₁.mm σ₁.cur).pgd = 0 from hpgd)]
    show (σ.blocks ++ [⟨km.block σ.blocks.length, fs⟩]) ++
      [⟨km.block (σ.blocks ++ ([⟨km.block σ.blocks.length, fs⟩] : List Span)).length, 4096⟩] = _
    rw [List.length_append, List.length_singleton]
  refine (doExec_blocks km σ₁ (σ.kmalloc km fs).1 fs).trans ?_
  rw [hpgd₁]
  simp

/-- It makes at most three tables for every page. -/
theorem initrdUsrProg_next_le (km : Kmalloc) (σ : Machine) (progAddr fs : ℕ) :
    (initrdUsrProg km σ progAddr fs).pt.next ≤ σ.pt.next + 3 * (nrPagesOf fs + 12292) := by
  set σ₁ := (σ.kmalloc km fs).2.setMem
    (WordMem.moveBytes (σ.kmalloc km fs).2.pt.mem (σ.kmalloc km fs).1 progAddr fs) with hσ₁
  have hnext : (σ₁.withPgd km).pt.next = σ.pt.next := by
    unfold Machine.withPgd
    split_ifs <;> rfl
  show (doExec km σ₁ (σ.kmalloc km fs).1 fs).pt.next ≤ _
  rw [doExec_eq]
  refine (mapAll_next_le km _ _).trans ?_
  have hstack : nrPagesOf userStackSize = 4 := by decide
  have hper : nrPagesOf peripheralSize = 12288 := by decide
  simp only [execCalls, List.map_cons, List.map_nil, List.sum_cons, List.sum_nil]
  show (σ₁.withPgd km).pt.next + 3 * (nrPagesOf fs +
    (nrPagesOf userStackSize + (nrPagesOf peripheralSize + 0))) ≤ _
  rw [hnext]
  omega

theorem kmallocOrder_userStackSize : kmallocOrder userStackSize = 2 := by
  rw [kmallocOrder, orderLoop, if_pos (by decide), orderLoop, if_pos (by decide), orderLoop,
    if_neg (by decide)]

/-- The first task that loads a small program is given all it asks for, if there is room. -/
theorem HeapInv.exists_exec (h : HeapInv n rgns κ κp tile) (hn : n < 2 ^ 36)
    (hroom : (rgns.flatMap pfns).length + κ.used + 36885 < n / 4) {σ : Machine} (hblocks : σ.blocks = [])
    (hnext : σ.pt.next = 0) (hpgd : (σ.mm σ.cur).pgd = 0) {fs : ℕ} (hfs : fs ≤ 2048)
    (nullPfn progAddr : ℕ) :
    ∃ km κ', GivesAll nullPfn κ (σ.taken km (initrdUsrProg km σ progAddr fs)) κ' := by
  have hpage : fs ≤ pageSize := hfs.trans (by decide)
  have horder : kmallocOrder fs = 0 := kmallocOrder_of_le hpage
  have horder' : kmallocOrder 4096 = 0 := kmallocOrder_of_le le_rfl
  have hstack := kmallocOrder_userStackSize
  have hdiv := Nat.div_le_self n 4
  obtain ⟨prog, κ₁, g₁⟩ := h.exists_gives hn nullPfn (Or.inl hfs) (orderRight_of_le hpage)
    (by rw [horder]; decide) (by rw [horder, pow_zero, Nat.div_one]; omega)
  obtain ⟨⟨κp₁, tile₁, h₁⟩, -, -⟩ := h.gives hn g₁
  have hused₁ := g₁.used_le
  rw [show kmallocOrder (⟨prog, fs⟩ : Span).size = 0 from horder] at hused₁
  obtain ⟨pgd, κ₂, g₂⟩ := h₁.exists_gives hn nullPfn (Or.inr (show pageSize ≤ 4096 from le_rfl))
    (orderRight_of_le le_rfl) (by rw [horder']; decide)
    (by rw [horder', pow_zero, Nat.div_one]; omega)
  obtain ⟨⟨κp₂, tile₂, h₂⟩, -, -⟩ := h₁.gives hn g₂
  have hused₂ := g₂.used_le
  rw [show kmallocOrder (⟨pgd, 4096⟩ : Span).size = 0 from horder'] at hused₂
  obtain ⟨stack, κ₃, g₃⟩ := h₂.exists_gives hn nullPfn
    (Or.inr (show pageSize ≤ userStackSize by decide)) (orderRight_of_enough (by rw [hstack]; decide))
    (by rw [hstack]; decide) (by rw [hstack, show 2 ^ 2 = 4 by norm_num]; omega)
  obtain ⟨⟨κp₃, tile₃, h₃⟩, -, -⟩ := h₂.gives hn g₃
  have hused₃ := g₃.used_le
  rw [show kmallocOrder (⟨stack, userStackSize⟩ : Span).size = 2 from hstack] at hused₃
  obtain ⟨table, htable⟩ := h₃.exists_tables hn nullPfn 36879 (by omega)
  -- the answers, as the calls will see them
  set km : Kmalloc := ⟨table, fun i => [prog, pgd, stack].getD i 0⟩ with hkm
  have hle : (initrdUsrProg km σ progAddr fs).pt.next ≤ 36879 := by
    refine (initrdUsrProg_next_le km σ progAddr fs).trans ?_
    rw [hnext]
    unfold nrPagesOf
    omega
  refine ⟨km, ?_⟩
  rw [Machine.taken, initrdUsrProg_blocks km progAddr fs hpgd, hblocks, hnext, Nat.sub_zero,
    List.length_nil, List.nil_append, List.drop_zero]
  generalize (initrdUsrProg km σ progAddr fs).pt.next = count at hle ⊢
  obtain ⟨κ', hall, -⟩ := htable count hle
  exact ⟨κ', .cons g₁ (.cons g₂ (.cons g₃ hall))⟩

end

/-- The machine after boot. -/
def bootMachine : Machine := ⟨Sched.taskInit, fun _ => ⟨0, 0, 0⟩, ⟨fun _ => 0, 0⟩, [], []⟩

/-- The allocator after boot, with 960 MiB of RAM whose first 512 KiB are the kernel's. -/
theorem exists_boot : ∃ κ tile κp tilep,
    Kernel.boot [⟨0, 0x80000⟩] 0x3c000 (fun _ => kmemCacheInit 0) (fun _ => 0) = .ok κ ∧
      KernelInv 0x3c000 [⟨0, 0x80000⟩] κ tile ∧ HeapInv 0x3c000 [⟨0, 0x80000⟩] κ κp tilep := by
  obtain ⟨κ, tile, hboot, h⟩ := kernel_boot_ok (n := 0x3c000) (by decide) [⟨0, 0x80000⟩]
    (fun _ => kmemCacheInit 0) (fun _ => 0)
  obtain ⟨κ₀, κ₁, κp, tilep, hboot', hrun, hheap⟩ := heap_run_ok (n := 0x3c000) (by decide) 0
    [⟨0, 0x80000⟩] (fun _ => kmemCacheInit 0) (fun _ => 0) [] (by simp)
  obtain rfl := Except.ok.inj hrun
  obtain rfl := Except.ok.inj (hboot.symm.trans hboot')
  exact ⟨κ, tile, κp, tilep, hboot, h, hheap⟩

theorem length_pfns_boot : (([⟨0, 0x80000⟩] : List Region).flatMap pfns).length = 129 := by simp [pfns]

/-- The first small program after boot is mapped as it should. -/
theorem exec_maps_small : ∃ km κ κ' σ prog, HeapRun 0 km κ σ ∧
    Boot.initrdUsrProg 400 (ofBytes (Boot.archive Boot.smallEntries Boot.smallTrailer)) 0 [0x61] =
      some (some prog) ∧
    GivesAll 0 κ (σ.taken km (initrdUsrProg km σ prog.progAddr prog.size.toNat)) κ' ∧
    (initrdUsrProg km σ prog.progAddr prog.size.toNat).MapsProg σ.cur := by
  obtain ⟨κ, -, κp, tilep, hboot, -, hheap⟩ := exists_boot
  obtain ⟨hused, hempty⟩ := boot_empty hboot
  obtain ⟨km, κ', hg⟩ := hheap.exists_exec (by decide) (by rw [length_pfns_boot, hused]; norm_num)
    (show bootMachine.blocks = [] from rfl) rfl rfl (show 8 ≤ 2048 by norm_num) 0 112
  have hrun : HeapRun 0 km κ bootMachine := .boot hboot (by decide) (by decide) _ _
  obtain ⟨prog, hprog, hiff⟩ := exec_maps_iff hrun Boot.archiveAt_small Boot.length_archive_small
    Boot.foundFirst_small
  obtain rfl := Option.some.inj (Option.some.inj (Boot.initrdUsrProg_small.symm.trans hprog))
  refine ⟨km, κ, κ', bootMachine, _, hrun, Boot.initrdUsrProg_small, hg, (hiff κ' hg).mpr (Or.inr ?_)⟩
  have hnil : (κ.state.caches (classOf 8)).partialSlabs = [] := hempty _ (by decide)
  intro slab hslab
  rw [show (8 : ℤ).toNat = 8 from rfl, hnil] at hslab
  cases hslab

/-- After another object of eight bytes it is not. -/
theorem exec_misplaced : ∃ km κ κ' σ prog, HeapRun 0 km κ σ ∧
    Boot.initrdUsrProg 400 (ofBytes (Boot.archive Boot.smallEntries Boot.smallTrailer)) 0 [0x61] =
      some (some prog) ∧
    GivesAll 0 κ (σ.taken km (initrdUsrProg km σ prog.progAddr prog.size.toNat)) κ' ∧
    ¬ (initrdUsrProg km σ prog.progAddr prog.size.toNat).MapsProg σ.cur := by
  obtain ⟨κ, tile, κp, tilep, hboot, h, hheap⟩ := exists_boot
  obtain ⟨hused, hempty⟩ := boot_empty hboot
  have horder : kmallocOrder 8 = 0 := kmallocOrder_of_le (by decide)
  obtain ⟨a, κ₁, g⟩ := hheap.exists_gives (by decide) 0 (Or.inl (show 8 ≤ 2048 by norm_num))
    (orderRight_of_le (by decide)) (by rw [horder]; decide)
    (by rw [horder, length_pfns_boot, hused]; norm_num)
  obtain ⟨⟨κp₁, tile₁, hheap₁⟩, -, -⟩ := hheap.gives (by decide) g
  have hused₁ := g.used_le
  rw [show kmallocOrder (⟨a, 8⟩ : Span).size = 0 from horder, hused] at hused₁
  obtain ⟨km, κ', hg⟩ := hheap₁.exists_exec (by decide) (by rw [length_pfns_boot]; omega)
    (show bootMachine.blocks = [] from rfl) rfl rfl (show 8 ≤ 2048 by norm_num) 0 112
  have hboot₀ : HeapRun 0 km κ bootMachine := .boot hboot (by decide) (by decide) _ _
  have hrun : HeapRun 0 km κ₁ bootMachine :=
    hboot₀.heap (show HeapOp.Valid (.kmalloc 8) from Or.inl (by norm_num)) g.heapExec
      (by simp [bootMachine, Machine.spans, tableSpans])
  refine ⟨km, κ₁, κ', bootMachine, _, hrun, Boot.initrdUsrProg_small, hg, fun hmaps => ?_⟩
  rcases (hrun.mapsProg_iff (by norm_num) hg).mp hmaps with hsize | hstart
  · exact absurd hsize (by decide)
  · refine h.not_pageStart (by norm_num) (by norm_num) (fun slab hslab => ?_) g hstart
    rw [hempty _ (by decide)] at hslab
    cases hslab

end RaspiKernel.Mm
