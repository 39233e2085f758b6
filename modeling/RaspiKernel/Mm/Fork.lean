import RaspiKernel.Mm.Exec

/-!
# `sys_fork` copies and isolates the address space

The copy goes through three views of memory: the physical address that
`simulate_walk` finds for the first page of the parent's stack, the kernel address
of its program, and the tables of the child. That the three agree is an invariant:
program and stack of a task are blocks of their own, mapped as a whole. A program of
less than a page need not begin where its page begins, and other blocks can be on
the page. So the invariant has the least size `lo` of a program as a parameter, and
what is said about bytes and frames is about the stacks and the larger programs.

Results:
* `Isolated`: the invariant, kept by `do_exec`, by `sys_fork` and by whatever the
  tasks store through their tables.
* `fork_isolates`: after `sys_fork` the child reads what the parent read, and no
  frame belongs to two tasks.
-/

namespace RaspiKernel.Mm

open Lib (Span)
open Lib.WordMem
open Memblock (physToVirt virtToPhys kernelVaddrBase)

/-! ## Blocks -/

section

variable {km : Kmalloc} {σ : Machine}

/-- The pages of a block. -/
def OnPages (base size a : ℕ) : Prop := base ≤ a ∧ a < base + 4096 * nrPagesOf size

/-- An address on a page of a block is on the page of a byte of the block. -/
theorem OnPages.exists_mem {base size a : ℕ} (h : OnPages base size a) (halign : 4096 ∣ base) :
    ∃ x ∈ (⟨base, size⟩ : Span), a / 4096 = x / 4096 := by
  obtain ⟨hlow, hhigh⟩ := h
  unfold nrPagesOf at hhigh
  have hin : (a - base) / 4096 * 4096 < size := by omega
  exact ⟨base + (a - base) / 4096 * 4096, ⟨Nat.le_add_right .., Nat.add_lt_add_left hin base⟩, by omega⟩

/-- The pages of a block of a page or more that is no table hold no table. -/
theorem Kmalloc.Ok.not_inTable (hk : km.Ok σ) (hpgds : ∀ P ∈ σ.pgds, ⟨P, 4096⟩ ∈ σ.blocks)
    {base size a : ℕ} (hb : ⟨base, size⟩ ∈ σ.blocks) (hsize : 4096 ≤ size) (hbase : base ∉ σ.pgds)
    (ha : OnPages base size a) : ¬ InTable km.table σ.pgds σ.pt.next a := by
  obtain ⟨x, hx, hpage⟩ := ha.exists_mem (hk.aligned _ hb hsize)
  exact hk.page_not_inTable hpgds hb hbase hx hpage

/-- A word that a byte of the block is part of is on its pages. -/
theorem onPages_word {base size i : ℕ} (halign : 4096 ∣ base) (hi : i < size) :
    OnPages base size ((base + i) / 8 * 8) := by
  unfold OnPages nrPagesOf
  omega

/-- The kernel address of a physical address in a block. -/
theorem physToVirt_add {base x : ℕ} (hbase : kernelVaddrBase ≤ base) (hlt : base + x < 2 ^ 64) :
    physToVirt (virtToPhys base + x) = base + x := by
  unfold kernelVaddrBase at hbase
  have hphys : virtToPhys base = base - 0xffff000000000000 := by
    rw [Memblock.virtToPhys_eq]
    omega
  rw [hphys, Memblock.physToVirt_eq (by omega)]
  unfold kernelVaddrBase
  omega

theorem Kmalloc.Ok.virtToPhys_inj (hk : km.Ok σ) {b b' : Span} (hb : b ∈ σ.blocks) (hb' : b' ∈ σ.blocks)
    (h : virtToPhys b.base = virtToPhys b'.base) : b.base = b'.base := by
  have hram := hk.ram b hb
  have hram' := hk.ram b' hb'
  rw [Memblock.virtToPhys_eq, Memblock.virtToPhys_eq] at h
  unfold Span.stop kernelVaddrBase peripheralBase at *
  omega

end

/-! ## The invariant -/

/-- The call maps the block at `base`, which has at least `lo` bytes and is no table. -/
structure Backed (lo : ℕ) (σ : Machine) (c : MapCall) (base : ℕ) : Prop where
  pa : c.pa = virtToPhys base
  flags : c.flags = pdApEl0
  block : ⟨base, c.size⟩ ∈ σ.blocks
  size : lo ≤ c.size
  notPgd : base ∉ σ.pgds

/-- Task `t` has a program of at least `lo` bytes and the stack `stack`, each in a block of its own. -/
structure Loaded (lo : ℕ) (σ : Machine) (calls : List MapCall) (t : Sched.Slot) (stack : ℕ) : Prop where
  size : lo ≤ (σ.mm t).progSz
  progBlock : ⟨(σ.mm t).progAddr, (σ.mm t).progSz⟩ ∈ σ.blocks
  stackBlock : ⟨stack, userStackSize⟩ ∈ σ.blocks
  inProg : ∀ v, InProg (σ.mm t).progSz v → lastMapping calls (physToVirt (σ.mm t).pgd) v =
    some (progCall (physToVirt (σ.mm t).pgd) (σ.mm t).progAddr (σ.mm t).progSz)
  inStack : ∀ v, InStack v → lastMapping calls (physToVirt (σ.mm t).pgd) v =
    some (stackCall (physToVirt (σ.mm t).pgd) stack)

/-- Every task has blocks of its own, and no program has less than `lo` bytes. -/
structure Isolated (km : Kmalloc) (lo : ℕ) (σ : Machine) (calls : List MapCall) : Prop where
  sched : Sched.Inv σ.sched
  spaces : Spaces km σ calls
  data : ∀ c ∈ calls, c = peripheralCall c.pgd ∨ ∃ base, Backed lo σ c base
  apart : ∀ c ∈ calls, ∀ c' ∈ calls, c.pgd ≠ c'.pgd → c ≠ peripheralCall c.pgd →
    c' ≠ peripheralCall c'.pgd → c.pa ≠ c'.pa
  loaded : ∀ t, (σ.mm t).pgd ≠ 0 → ∃ stack, Loaded lo σ calls t stack

section

variable {km : Kmalloc} {lo : ℕ} {σ σ' : Machine} {calls new : List MapCall}

theorem lastMapping_append_of_ne {Q : ℕ} (h : ∀ c ∈ new, c.pgd ≠ Q) (v : ℕ) :
    lastMapping (calls ++ new) Q v = lastMapping calls Q v := by
  have hnone : new.filter (fun c => c.pgd = Q ∧ c.Covers v) = [] := by
    rw [List.filter_eq_nil_iff]
    intro c hc
    simp [h c hc]
  rw [lastMapping, List.filter_append, hnone, List.append_nil]
  rfl

theorem Backed.mono {c : MapCall} {base : ℕ} (h : Backed lo σ c base) (hblocks : σ.blocks ⊆ σ'.blocks)
    (hpgds : base ∉ σ'.pgds) : Backed lo σ' c base :=
  ⟨h.pa, h.flags, hblocks h.block, h.size, hpgds⟩

/-- A task whose record and mappings stay keeps its image. -/
theorem Loaded.mono {calls' : List MapCall} {t : Sched.Slot} {stack : ℕ} (h : Loaded lo σ calls t stack)
    (hmm : σ'.mm t = σ.mm t) (hblocks : σ.blocks ⊆ σ'.blocks)
    (hlast : ∀ v, lastMapping calls' (physToVirt (σ.mm t).pgd) v =
      lastMapping calls (physToVirt (σ.mm t).pgd) v) : Loaded lo σ' calls' t stack := by
  refine ⟨?_, ?_, hblocks h.stackBlock, ?_, ?_⟩
  · rw [hmm]
    exact h.size
  · rw [hmm]
    exact hblocks h.progBlock
  · rw [hmm]
    exact fun v hv => (hlast v).trans (h.inProg v hv)
  · rw [hmm]
    exact fun v hv => (hlast v).trans (h.inStack v hv)

/-- Steps that leave the tasks and the tables alone. -/
theorem Isolated.same (h : Isolated km lo σ calls) (hsched : Sched.Inv σ'.sched)
    (hspaces : Spaces km σ' calls) (hmm : σ'.mm = σ.mm) (hpgds : σ'.pgds = σ.pgds)
    (hblocks : σ.blocks ⊆ σ'.blocks) : Isolated km lo σ' calls := by
  refine ⟨hsched, hspaces, fun c hc => ?_, h.apart, fun t ht => ?_⟩
  · rcases h.data c hc with hper | ⟨base, hb⟩
    · exact Or.inl hper
    · exact Or.inr ⟨base, hb.mono hblocks (hpgds ▸ hb.notPgd)⟩
  · have hmmt := congrFun hmm t
    rw [hmmt] at ht
    obtain ⟨stack, hl⟩ := h.loaded t ht
    exact ⟨stack, hl.mono hmmt hblocks fun _ => rfl⟩

/-- Task `t` gets a program and a stack in new blocks. -/
theorem Isolated.extend {t : Sched.Slot} {stack : ℕ} (h : Isolated km lo σ calls) (hk : km.Ok σ')
    (hsched : Sched.Inv σ'.sched) (hspaces : Spaces km σ' (calls ++ new))
    (hblocks : σ.blocks ⊆ σ'.blocks) (hpgds : ∀ P ∈ σ'.pgds, P ∈ σ.pgds ∨ NewBase σ P)
    (hmm : ∀ u ≠ t, σ'.mm u = σ.mm u) (hpgd : (σ'.mm t).pgd ≠ 0)
    (hnew : ∀ c ∈ new, c.pgd = physToVirt (σ'.mm t).pgd ∧
      (c = peripheralCall c.pgd ∨ ∃ base, Backed lo σ' c base ∧ NewBase σ base))
    (hloaded : Loaded lo σ' (calls ++ new) t stack) : Isolated km lo σ' (calls ++ new) := by
  have hold : ∀ {c base}, Backed lo σ c base → Backed lo σ' c base := by
    intro c base hb
    refine hb.mono hblocks fun hin => ?_
    rcases hpgds base hin with hin | hnew
    · exact hb.notPgd hin
    · exact hnew _ hb.block rfl
  -- an old block and a new one
  have hcross : ∀ c ∈ calls, ∀ c' ∈ new, c ≠ peripheralCall c.pgd → c' ≠ peripheralCall c'.pgd →
      c.pa ≠ c'.pa := by
    intro c hc c' hc' hper hper' heq
    obtain ⟨base, hb⟩ := (h.data c hc).resolve_left hper
    obtain ⟨base', hb', hbase'⟩ := (hnew c' hc').2.resolve_left hper'
    rw [hb.pa, hb'.pa] at heq
    exact hbase' _ hb.block (hk.virtToPhys_inj (hold hb).block hb'.block heq)
  refine ⟨hsched, hspaces, fun c hc => ?_, fun c hc c' hc' hne hper hper' => ?_, fun u hu => ?_⟩
  · rcases List.mem_append.mp hc with hc | hc
    · rcases h.data c hc with hper | ⟨base, hb⟩
      · exact Or.inl hper
      · exact Or.inr ⟨base, hold hb⟩
    · rcases (hnew c hc).2 with hper | ⟨base, hb, -⟩
      · exact Or.inl hper
      · exact Or.inr ⟨base, hb⟩
  · rcases List.mem_append.mp hc with hc | hc <;> rcases List.mem_append.mp hc' with hc' | hc'
    · exact h.apart c hc c' hc' hne hper hper'
    · exact hcross c hc c' hc' hper hper'
    · exact (hcross c' hc' c hc hper' hper).symm
    · exact absurd ((hnew c hc).1.trans (hnew c' hc').1.symm) hne
  · by_cases hut : u = t
    · subst hut
      exact ⟨stack, hloaded⟩
    · have hmmu := hmm u hut
      obtain ⟨stack', hl⟩ := h.loaded u (by rwa [← hmmu])
      have hQ : ∀ c ∈ new, c.pgd ≠ physToVirt (σ'.mm u).pgd := by
        intro c hc heq
        exact hut (hspaces.pgd_inj u t hu hpgd (heq.symm.trans (hnew c hc).1))
      rw [hmmu] at hQ
      exact ⟨stack', hl.mono hmmu hblocks (lastMapping_append_of_ne hQ)⟩

/-! ## Frames -/

theorem Backed.inRam {c : MapCall} {base : ℕ} (h : Backed lo σ c base) (hk : km.Ok σ) : InRam base c.size :=
  ⟨(hk.ram _ h.block).1.le, (hk.ram _ h.block).2⟩

theorem Backed.valid {c : MapCall} {base : ℕ} (h : Backed lo σ c base) (hsize : 4096 ≤ c.size)
    (hc : c.Placed σ.pgds) (hk : km.Ok σ) : c.Valid σ.pgds := by
  have hram := h.inRam hk
  have halign := hk.aligned _ h.block hsize
  have hphys := hram.virtToPhys_eq
  obtain ⟨h1, h2⟩ := hram
  unfold kernelVaddrBase peripheralBase at *
  dsimp only at halign
  refine ⟨hc.pgd, hc.va, ?_, hc.va_le, ?_, ?_⟩
  · rw [h.pa, hphys]
    omega
  · rw [h.pa, hphys]
    omega
  · rw [h.flags]
    decide

/-- An address that is mapped to a block of a page or more translates to the pages of the block. -/
theorem Isolated.translate_backed (h : Isolated km lo σ calls) (hk : km.Ok σ) {t : Sched.Slot} {v base : ℕ}
    {c : MapCall} (hpgd : (σ.mm t).pgd ≠ 0)
    (hlast : lastMapping calls (physToVirt (σ.mm t).pgd) v = some c) (hb : Backed lo σ c base)
    (hsize : 4096 ≤ c.size) :
    σ.translate t v = virtToPhys base + (v - c.va) ∧ OnPages base c.size (base + (v - c.va)) ∧
      physToVirt (σ.translate t v) = base + (v - c.va) := by
  obtain ⟨hc, -, hcov⟩ := mem_of_lastMapping hlast
  have htrans := h.spaces.simulateWalk_eq (h.spaces.pgd_mem t hpgd) hlast
    (hb.valid hsize (h.spaces.placed c hc) hk)
  rw [hb.pa] at htrans
  have hpage := hk.isPage hb.block hsize
  have hon : OnPages base c.size (base + (v - c.va)) := by
    obtain ⟨h1, h2⟩ := hcov
    unfold OnPages
    omega
  have hram := hk.ram _ hb.block
  unfold Span.stop peripheralBase kernelVaddrBase at hram
  refine ⟨htrans, hon, ?_⟩
  rw [Machine.translate, htrans]
  refine physToVirt_add hpage.1 ?_
  unfold OnPages nrPagesOf at hon
  dsimp only at hram
  omega

/-- Wherever in a page a block begins, what is mapped to it is on the page of one of its bytes. -/
theorem Isolated.translate_page (h : Isolated km lo σ calls) (hk : km.Ok σ) {t : Sched.Slot} {v base : ℕ}
    {c : MapCall} (hpgd : (σ.mm t).pgd ≠ 0)
    (hlast : lastMapping calls (physToVirt (σ.mm t).pgd) v = some c) (hb : Backed lo σ c base) :
    ∃ x ∈ (⟨base, c.size⟩ : Span), physToVirt (σ.translate t v) / 4096 = x / 4096 := by
  obtain ⟨hc, -, hcov⟩ := mem_of_lastMapping hlast
  obtain ⟨htab, hleaf⟩ := h.spaces.refines.mapped _ (h.spaces.pgd_mem t hpgd) v
    ((h.spaces.placed c hc).lt hcov) c hlast
  have hram := hb.inRam hk
  have hphys := hram.virtToPhys_eq
  obtain ⟨h1, h2⟩ := hcov
  have hin : 4096 * ((v - c.va) / 4096) < c.size := by
    unfold nrPagesOf at h2
    omega
  obtain ⟨h3, h4⟩ := hram
  unfold kernelVaddrBase peripheralBase at *
  have hpa : c.pa + 4096 * ((v - c.va) / 4096) < 2 ^ 48 := by
    rw [hb.pa]
    omega
  have hflags : c.flags &&& entryAddrMask = 0 := by
    rw [hb.flags]
    decide
  have hpage := pageEntry_page hpa hflags v
  rw [← hleaf] at hpage
  have htrans : σ.translate t v / 4096 = (c.pa + 4096 * ((v - c.va) / 4096)) / 4096 := by
    rw [Machine.translate, Mm.simulateWalk_eq, if_neg htab]
    exact hpage
  refine ⟨base + 4096 * ((v - c.va) / 4096), ⟨Nat.le_add_right .., Nat.add_lt_add_left hin base⟩, ?_⟩
  rw [hb.pa, hphys] at htrans
  rw [Memblock.physToVirt_eq (by omega)]
  unfold kernelVaddrBase
  omega

/-- The addresses of the stack, and of the program if that has a page or more. -/
def Machine.InImage (σ : Machine) (t : Sched.Slot) (v : ℕ) : Prop :=
  4096 ≤ (σ.mm t).progSz ∧ InProg (σ.mm t).progSz v ∨ InStack v

theorem progCall_ne_peripheralCall (P func size : ℕ) :
    progCall P func size ≠ peripheralCall (progCall P func size).pgd := by
  intro h
  have := congrArg MapCall.va h
  exact absurd this (show (0 : ℕ) ≠ peripheralBase by decide)

theorem stackCall_ne_peripheralCall (P stack : ℕ) :
    stackCall P stack ≠ peripheralCall (stackCall P stack).pgd := by
  intro h
  have := congrArg MapCall.va h
  exact absurd this (show userStackAddr ≠ peripheralBase by decide)

/-- The image of a task is in blocks of its own. -/
theorem Isolated.image (h : Isolated km lo σ calls) {t : Sched.Slot} {v : ℕ} (hpgd : (σ.mm t).pgd ≠ 0)
    (hv : σ.InImage t v) : ∃ c base, lastMapping calls (physToVirt (σ.mm t).pgd) v = some c ∧
      c ∈ calls ∧ c.pgd = physToVirt (σ.mm t).pgd ∧ c ≠ peripheralCall c.pgd ∧ 4096 ≤ c.size ∧
      Backed lo σ c base := by
  obtain ⟨stack, hl⟩ := h.loaded t hpgd
  obtain ⟨c, hlast, hper, hsize⟩ : ∃ c, lastMapping calls (physToVirt (σ.mm t).pgd) v = some c ∧
      c ≠ peripheralCall c.pgd ∧ 4096 ≤ c.size := by
    rcases hv with ⟨hsize, hv⟩ | hv
    · exact ⟨_, hl.inProg v hv, progCall_ne_peripheralCall _ _ _, hsize⟩
    · exact ⟨_, hl.inStack v hv, stackCall_ne_peripheralCall _ _, show 4096 ≤ userStackSize by decide⟩
  obtain ⟨hc, hcP, -⟩ := mem_of_lastMapping hlast
  obtain ⟨base, hb⟩ := (h.data c hc).resolve_left hper
  exact ⟨c, base, hlast, hc, hcP, hper, hsize, hb⟩

/-- No frame belongs to the images of two tasks. -/
def Machine.FramesApart (σ : Machine) : Prop :=
  ∀ t u, t ≠ u → (σ.mm t).pgd ≠ 0 → (σ.mm u).pgd ≠ 0 → ∀ v w, σ.InImage t v → σ.InImage u w →
    σ.translate t v / 4096 ≠ σ.translate u w / 4096

theorem Isolated.framesApart (h : Isolated km lo σ calls) (hk : km.Ok σ) : σ.FramesApart := by
  intro t u htu ht hu v w hv hw
  obtain ⟨c, base, hlast, hc, hcP, hper, hsize, hb⟩ := h.image ht hv
  obtain ⟨c', base', hlast', hc', hcP', hper', hsize', hb'⟩ := h.image hu hw
  have hne : c.pgd ≠ c'.pgd := by
    rw [hcP, hcP']
    exact fun heq => htu (h.spaces.pgd_inj t u ht hu heq)
  have hbase : base ≠ base' := by
    rintro rfl
    exact h.apart c hc c' hc' hne hper hper' (hb.pa.trans hb'.pa.symm)
  obtain ⟨htrans, hon, -⟩ := h.translate_backed hk ht hlast hb hsize
  obtain ⟨htrans', hon', -⟩ := h.translate_backed hk hu hlast' hb' hsize'
  have hapart := hk.blocks_apart hb.block hb'.block hbase
  have hal := hk.aligned _ hb.block hsize
  have hal' := hk.aligned _ hb'.block hsize'
  have hram := hk.ram _ hb.block
  have hram' := hk.ram _ hb'.block
  rw [htrans, htrans', (hb.inRam hk).virtToPhys_eq, (hb'.inRam hk).virtToPhys_eq]
  unfold Span.stop kernelVaddrBase at *
  unfold OnPages nrPagesOf at hon hon'
  dsimp only at *
  omega

/-- Whatever a task stores through its tables, it is not in a table. -/
theorem Isolated.user_not_inTable (h : Isolated km lo σ calls) (hk : km.Ok σ) {t : Sched.Slot} {v a : ℕ}
    (hpgd : (σ.mm t).pgd ≠ 0) (hv : v < 2 ^ 48) (hmap : σ.Mapped t v)
    (ha : physToVirt (σ.translate t v) / 4096 = a / 4096) :
    ¬ InTable km.table σ.pgds σ.pt.next a := by
  have hP := h.spaces.pgd_mem t hpgd
  obtain ⟨c₀, hc₀, hcP₀, hcov₀⟩ := (h.spaces.mapped_iff hP hv).mp hmap
  obtain ⟨c, hlast⟩ : ∃ c, lastMapping calls (physToVirt (σ.mm t).pgd) v = some c := by
    refine Option.ne_none_iff_exists'.mp fun hnone => ?_
    exact lastMapping_none_iff.mp hnone c₀ hc₀ hcP₀ hcov₀
  obtain ⟨hc, hcP, hcov⟩ := mem_of_lastMapping hlast
  rcases h.data c hc with hper | ⟨base, hb⟩
  · -- the peripherals are behind the RAM
    have hval := peripheralCall_valid hP
    rw [hcP] at hper
    rw [hper] at hlast hcov
    have htrans := h.spaces.simulateWalk_eq hP hlast hval
    rw [peripheralCall_covers] at hcov
    obtain ⟨h1, h2⟩ := hcov
    have heq : σ.translate t v = v := htrans.trans (Nat.add_sub_cancel' h1)
    rw [heq, Memblock.physToVirt_eq hv] at ha
    rintro ⟨s, hs | ⟨k, hk', rfl⟩, hsa⟩
    · have hram := (hk.ram _ (h.spaces.pgd_block s hs)).2
      unfold Span.stop peripheralBase kernelVaddrBase at *
      dsimp only at *
      omega
    · have hram := hk.page_ram k hk'
      unfold peripheralBase kernelVaddrBase at *
      omega
  · obtain ⟨x, hx, hpage⟩ := h.translate_page hk hpgd hlast hb
    exact hk.page_not_inTable h.spaces.pgd_block hb.block hb.notPgd hx (ha.symm.trans hpage)

/-! ## Loading a program -/

/-- The image after `do_exec`. -/
theorem loaded_execCalls {t : Sched.Slot} {P func size stack : ℕ}
    (hmm : physToVirt (σ.mm t).pgd = P ∧ (σ.mm t).progAddr = func ∧ (σ.mm t).progSz = size)
    (hsize : lo ≤ size) (hle : size ≤ peripheralBase) (hprog : ⟨func, size⟩ ∈ σ.blocks)
    (hstack : ⟨stack, userStackSize⟩ ∈ σ.blocks) :
    Loaded lo σ (calls ++ execCalls P func size stack) t stack := by
  obtain ⟨hP, hfunc, hsz⟩ := hmm
  refine ⟨by rwa [hsz], by rwa [hfunc, hsz], hstack, fun v hv => ?_, fun v hv => ?_⟩
  · rw [hsz] at hv
    rw [hP, hfunc, hsz, lastMapping_execCalls, if_neg (hv.not_peripherals hle), if_neg (hv.not_stack hle),
      if_pos hv]
  · rw [hP, lastMapping_execCalls, if_neg hv.not_peripherals, if_pos hv]

/-- `initrd_usr_prog`. -/
theorem Isolated.load (h : Isolated km lo σ calls) (hlo : lo ≤ 4096) {progAddr fs : ℕ} (hfs : lo ≤ fs)
    (hk : km.Ok (initrdUsrProg km σ progAddr fs)) :
    ∃ calls', Isolated km lo (initrdUsrProg km σ progAddr fs) calls' := by
  obtain ⟨-, h₁, hblock, hnew, hnot, hsize⟩ := h.spaces.copyProg hk
  have hg₁ := grows_copyProg km σ progAddr fs
  obtain ⟨hsched, hmm₁, hpgds₁, -⟩ := copyProg_eq km σ progAddr fs
  rw [initrdUsrProg_eq] at hk ⊢
  generalize (σ.kmalloc km fs).1 = prog at *
  generalize copyProg km σ progAddr fs = σ₁ at *
  obtain ⟨hpgd, h₂⟩ := h₁.doExec (hsize.trans (by decide)) hk
  have hg := grows_doExec km σ₁ prog fs
  have hcur : (doExec km σ₁ prog fs).mm σ₁.cur = ⟨((σ₁.withPgd km).mm σ₁.cur).pgd, prog, fs⟩ := by
    rw [doExec_mm, Function.update_self]
  have hblocks := doExec_blocks km σ₁ prog fs
  have hnewStack : NewBase (σ₁.withPgd km) (km.block (σ₁.withPgd km).blocks.length) := hk.newBase hblocks
  have hprogBlock : ⟨prog, fs⟩ ∈ (doExec km σ₁ prog fs).blocks := hg.blocks.subset hblock
  have hstackBlock : ⟨km.block (σ₁.withPgd km).blocks.length, userStackSize⟩ ∈
      (doExec km σ₁ prog fs).blocks := by
    rw [hblocks]
    exact List.mem_append_right _ (List.mem_singleton_self _)
  -- the tables are the old ones and possibly a new `pgd`
  have hpgds : ∀ Q ∈ (doExec km σ₁ prog fs).pgds, Q ∈ σ.pgds ∨ NewBase σ₁ Q := by
    intro Q hQ
    rw [doExec_pgds] at hQ
    rw [← hpgds₁]
    exact hpgd.new_pgds hQ
  refine ⟨_, h.extend (t := σ₁.cur) hk ?_ h₂ ?_ ?_ ?_ ?_ ?_
    (loaded_execCalls ⟨by rw [hcur], by rw [hcur], by rw [hcur]⟩ hfs hsize hprogBlock hstackBlock)⟩
  · rw [doExec_sched, hsched]
    exact h.sched
  · exact (hg₁.trans hg).blocks.subset
  · exact fun Q hQ => (hpgds Q hQ).imp id fun hn => hn.of_grows hg₁
  · intro u hu
    rw [doExec_mm, Function.update_of_ne hu, hpgd.others u hu, hmm₁]
  · rw [hcur]
    exact hpgd.pgd_ne_zero
  · intro c hc
    simp only [execCalls, List.mem_cons, List.not_mem_nil, or_false] at hc
    rw [hcur]
    rcases hc with rfl | rfl | rfl
    · refine ⟨rfl, Or.inr ⟨prog, ⟨rfl, rfl, hprogBlock, hfs, fun hin => ?_⟩, hnew⟩⟩
      rcases hpgds prog hin with hin | hn
      · exact hnot hin
      · exact hn _ hblock rfl
    · refine ⟨rfl, Or.inr ⟨_, ⟨rfl, rfl, hstackBlock, hlo.trans (show 4096 ≤ userStackSize by decide), ?_⟩,
        hnewStack.of_grows (hg₁.trans (grows_withPgd km σ₁))⟩⟩
      rw [doExec_pgds]
      exact hnewStack.not_mem_pgds hpgd.spaces
    · exact ⟨rfl, Or.inl rfl⟩

/-! ## `sys_fork` -/

/-! ### What the tables say about program and stack -/

theorem Loaded.stack_inRam {t : Sched.Slot} {stack : ℕ} (h : Loaded lo σ calls t stack) (hk : km.Ok σ) :
    InRam stack userStackSize ∧ 4096 ∣ stack :=
  ⟨⟨(hk.ram _ h.stackBlock).1.le, (hk.ram _ h.stackBlock).2⟩,
    hk.aligned _ h.stackBlock (show 4096 ≤ userStackSize by decide)⟩

theorem Loaded.prog_inRam {t : Sched.Slot} {stack : ℕ} (h : Loaded lo σ calls t stack) (hk : km.Ok σ) :
    InRam (σ.mm t).progAddr (σ.mm t).progSz :=
  ⟨(hk.ram _ h.progBlock).1.le, (hk.ram _ h.progBlock).2⟩

/-- The stack as `simulate_walk` finds it. -/
theorem Spaces.translate_stack {t : Sched.Slot} {stack v : ℕ} (h : Spaces km σ calls) (hk : km.Ok σ)
    (hpgd : (σ.mm t).pgd ≠ 0) (hl : Loaded lo σ calls t stack) (hv : InStack v) :
    physToVirt (simulateWalk σ.pt.mem (physToVirt (σ.mm t).pgd) v) = stack + (v - userStackAddr) := by
  have hP := h.pgd_mem t hpgd
  obtain ⟨hram, halign⟩ := hl.stack_inRam hk
  rw [h.simulateWalk_eq hP (hl.inStack v hv) (stackCall_valid hP hram halign), stackCall_pa, stackCall_va]
  obtain ⟨h1, h2⟩ := hv
  obtain ⟨h3, h4⟩ := hram
  refine physToVirt_add h3 ?_
  unfold peripheralBase kernelVaddrBase userStackSize at *
  omega

theorem Spaces.translate_prog {t : Sched.Slot} {stack v : ℕ} (h : Spaces km σ calls) (hk : km.Ok σ)
    (hpgd : (σ.mm t).pgd ≠ 0) (hl : Loaded lo σ calls t stack) (hsize : 4096 ≤ (σ.mm t).progSz)
    (hv : v < (σ.mm t).progSz) :
    physToVirt (simulateWalk σ.pt.mem (physToVirt (σ.mm t).pgd) v) = (σ.mm t).progAddr + v := by
  have hP := h.pgd_mem t hpgd
  have hram := hl.prog_inRam hk
  have halign := hk.aligned _ hl.progBlock hsize
  have hin : InProg (σ.mm t).progSz v := by
    unfold InProg nrPagesOf
    omega
  rw [h.simulateWalk_eq hP (hl.inProg v hin) (progCall_valid hP hram halign)]
  obtain ⟨h3, h4⟩ := hram
  refine physToVirt_add h3 ?_
  unfold peripheralBase kernelVaddrBase at *
  show _ + (v - 0) < _
  omega

/-! ### The two copies -/

/-- A copy between two blocks, read at a byte of a block: the source if it is the target, what was
    there before otherwise. -/
theorem byte_copy_target {dst src n i : ℕ} {mem : ℕ → ℕ} (h : dst + n ≤ src ∨ src + n ≤ dst)
    (hi : i < n) : byte (copyBytes mem dst src n) (dst + i) = byte mem (src + i) := by
  rw [byte_copyBytes h, if_pos ⟨by omega, by omega⟩, Nat.add_sub_cancel_left]

theorem byte_copy_other {dst src n a : ℕ} {mem : ℕ → ℕ} (h : dst + n ≤ src ∨ src + n ≤ dst)
    (ha : a < dst ∨ dst + n ≤ a) : byte (copyBytes mem dst src n) a = byte mem a := by
  rw [byte_copyBytes h, if_neg (by omega)]

theorem byte_zeroPage {P a : ℕ} {mem : ℕ → ℕ} (hP : 4096 ∣ P) (ha : a < P ∨ P + 4096 ≤ a) :
    byte (zeroPage P mem) a = byte mem a :=
  byte_congr (zeroPage_of_not_mem (by omega))

end

section

variable {km : Kmalloc} {lo : ℕ} {σ : Machine} {calls : List MapCall}

/-! ### The child -/

theorem lastMapping_forkCalls (P stack prog size v : ℕ) :
    lastMapping (calls ++ forkCalls P stack prog size) P v =
      if InPeripherals v then some (peripheralCall P)
      else if InProg size v then some (progCall P prog size)
      else if InStack v then some (stackCall P stack)
      else lastMapping calls P v := by
  have hsplit : calls ++ forkCalls P stack prog size =
      calls ++ [stackCall P stack] ++ [progCall P prog size] ++ [peripheralCall P] := by
    simp [forkCalls]
  have hP : (progCall P prog size).pgd = P ∧ (stackCall P stack).pgd = P ∧
      (peripheralCall P).pgd = P := ⟨rfl, rfl, rfl⟩
  rw [hsplit, lastMapping_snoc, lastMapping_snoc, lastMapping_snoc]
  simp only [hP, true_and, progCall_covers, stackCall_covers, peripheralCall_covers]

theorem loaded_forkCalls {t : Sched.Slot} {P prog size stack : ℕ}
    (hmm : physToVirt (σ.mm t).pgd = P ∧ (σ.mm t).progAddr = prog ∧ (σ.mm t).progSz = size)
    (hsize : lo ≤ size) (hle : size ≤ peripheralBase) (hprog : ⟨prog, size⟩ ∈ σ.blocks)
    (hstack : ⟨stack, userStackSize⟩ ∈ σ.blocks) :
    Loaded lo σ (calls ++ forkCalls P stack prog size) t stack := by
  obtain ⟨hP, hfunc, hsz⟩ := hmm
  refine ⟨by rwa [hsz], by rwa [hfunc, hsz], hstack, fun v hv => ?_, fun v hv => ?_⟩
  · rw [hsz] at hv
    rw [hP, hfunc, hsz, lastMapping_forkCalls, if_neg (hv.not_peripherals hle), if_pos hv]
  · rw [hP, lastMapping_forkCalls, if_neg hv.not_peripherals, if_neg fun hp => hp.not_stack hle hv,
      if_pos hv]

/-- The child of a task with the stack `parentStack` has blocks of its own. -/
structure Child (km : Kmalloc) (lo : ℕ) (σ σ' : Machine) (calls : List MapCall) (child : Sched.Slot)
    (P stack prog parentStack : ℕ) : Prop extends Forked km σ σ' calls child P stack prog parentStack where
  isolated : Isolated km lo σ' (calls ++ forkCalls P stack prog (σ.mm σ.cur).progSz)
  loaded : Loaded lo σ' (calls ++ forkCalls P stack prog (σ.mm σ.cur).progSz) child stack

/-- `sys_fork` gives the child an address space of its own. -/
theorem Isolated.fork {child : Sched.Slot} {pstack : ℕ} (h : Isolated km lo σ calls) (hlo : lo ≤ 4096)
    (hpgd : (σ.mm σ.cur).pgd ≠ 0) (hl : Loaded lo σ calls σ.cur pstack) {s : Sched.State}
    (hs : Sched.Inv s) (hk : km.Ok { forkInto km σ child with sched := s }) :
    ∃ P stack prog,
      Child km lo σ { forkInto km σ child with sched := s } calls child P stack prog pstack := by
  have hk₁ : km.Ok (forkInto km σ child) := hk.of_grows ⟨le_rfl, List.prefix_rfl⟩
  have hk₀ : km.Ok σ := hk₁.of_grows (grows_forkInto km σ child)
  obtain ⟨P, stack, prog, src, hf⟩ := h.spaces.forkInto child hk₁
  -- `simulate_walk` finds the parent's stack
  obtain rfl : src = pstack := by
    rw [hf.src_eq hpgd, Machine.translate, h.spaces.translate_stack hk₀ hpgd hl ⟨le_rfl, by decide⟩]
    omega
  have hf' := hf.setSched s
  set σ' : Machine := { forkInto km σ child with sched := s } with hσ'
  have hpgd' : physToVirt (σ'.mm child).pgd = P := by rw [hf'.mm, hf'.virt]
  have hprogBlock : ⟨prog, (σ.mm σ.cur).progSz⟩ ∈ σ'.blocks := by simp [hf'.blocks]
  have hstackBlock : ⟨stack, userStackSize⟩ ∈ σ'.blocks := by simp [hf'.blocks]
  have hsize : (σ.mm σ.cur).progSz ≤ peripheralBase := hk.size_le hprogBlock
  obtain ⟨⟨hnewP, hnewS, hnewQ⟩, hPS, hPQ, hSQ⟩ := newBase_three hk hf'.blocks
  have hloaded : Loaded lo σ' (calls ++ forkCalls P stack prog (σ.mm σ.cur).progSz) child stack :=
    loaded_forkCalls ⟨hpgd', by rw [hf'.mm], by rw [hf'.mm]⟩ hl.size hsize hprogBlock hstackBlock
  refine ⟨P, stack, prog, hf', h.extend hk hs hf'.spaces ?_ ?_ hf'.others ?_ ?_ hloaded, hloaded⟩
  · intro b hb
    rw [hf'.blocks]
    exact List.mem_append_left _ hb
  · intro Q hQ
    rcases List.mem_cons.mp (hf'.pgds ▸ hQ) with rfl | hQ
    · exact Or.inr hnewP
    · exact Or.inl hQ
  · rw [hf'.mm]
    exact hf'.pgd
  · intro c hc
    rw [hpgd']
    rcases mem_forkCalls.mp hc with rfl | rfl | rfl
    · exact ⟨rfl, Or.inr ⟨stack, ⟨rfl, rfl, hstackBlock, hlo.trans (show 4096 ≤ userStackSize by decide),
        hnewS.not_mem_new_pgds h.spaces hPS hf'.pgds⟩, hnewS⟩⟩
    · exact ⟨rfl, Or.inr ⟨prog, ⟨rfl, rfl, hprogBlock, hl.size,
        hnewQ.not_mem_new_pgds h.spaces hPQ hf'.pgds⟩, hnewQ⟩⟩
    · exact ⟨rfl, Or.inl rfl⟩

/-- The child reads the copies. -/
theorem Child.byteAt_eq {σ' : Machine} {child : Sched.Slot} {P stack prog pstack : ℕ}
    (h : Child km lo σ σ' calls child P stack prog pstack) (hiso : Isolated km lo σ calls)
    (hpgd : (σ.mm σ.cur).pgd ≠ 0) (hl : Loaded lo σ calls σ.cur pstack) (hk₀ : km.Ok σ) (hk : km.Ok σ')
    {v : ℕ} (hv : 4096 ≤ (σ.mm σ.cur).progSz ∧ v < (σ.mm σ.cur).progSz ∨ InStack v) :
    σ'.byteAt child v = σ.byteAt σ.cur v := by
  have hblock : ∀ b ∈ σ.blocks, b ∈ σ'.blocks := by
    intro b hb
    rw [h.blocks]
    exact List.mem_append_left _ hb
  have hP : ⟨P, 4096⟩ ∈ σ'.blocks := h.isolated.spaces.pgd_block P (by
    rw [h.pgds]
    exact List.mem_cons_self)
  have hstackB : ⟨stack, userStackSize⟩ ∈ σ'.blocks := h.loaded.stackBlock
  have hprogB : ⟨prog, (σ.mm σ.cur).progSz⟩ ∈ σ'.blocks := by
    have := h.loaded.progBlock
    rwa [h.mm] at this
  have hpstackB := hblock _ hl.stackBlock
  have hpprogB := hblock _ hl.progBlock
  obtain ⟨⟨hnewP, hnewS, hnewQ⟩, hPS, hPQ, hSQ⟩ := newBase_three hk h.blocks
  have halign := hk.aligned _ hP le_rfl
  have hchild : (σ'.mm child).pgd ≠ 0 := by
    rw [h.mm]
    exact h.pgd
  -- outside the tables, the memory is that of the copies
  have hmem : ∀ base size i, ⟨base, size⟩ ∈ σ'.blocks → 4096 ≤ size → base ∉ σ'.pgds → i < size →
      byte σ'.pt.mem (base + i) = byte (copyBytes (copyBytes (zeroPage P σ.pt.mem) stack pstack
        userStackSize) prog (σ.mm σ.cur).progAddr (σ.mm σ.cur).progSz) (base + i) := by
    intro base size i hb hsize hbase hi
    exact byte_congr (h.mem _ (hk.not_inTable h.isolated.spaces.pgd_block hb hsize hbase
      (onPages_word (hk.aligned _ hb hsize) hi)))
  have hsp := hk.blocks_apart hstackB hpstackB (hnewS _ hl.stackBlock).symm
  have hqp := hk.blocks_apart hprogB hpprogB (hnewQ _ hl.progBlock).symm
  have hPp := hk.blocks_apart hP hpstackB (hnewP _ hl.stackBlock).symm
  have hPq := hk.blocks_apart hP hpprogB (hnewP _ hl.progBlock).symm
  have hsq := hk.blocks_apart hstackB hprogB hSQ
  have hspq := hk.blocks_apart hstackB hpprogB (hnewS _ hl.progBlock).symm
  unfold Span.stop at hsp hqp hPp hPq hsq hspq
  dsimp only at hsp hqp hPp hPq hsq hspq halign
  unfold Machine.byteAt Machine.translate
  rcases hv with ⟨hsize, hv⟩ | hv
  · have hsize' : 4096 ≤ (σ'.mm child).progSz := by rwa [h.mm]
    have hv' : v < (σ'.mm child).progSz := by rwa [h.mm]
    rw [h.isolated.spaces.translate_prog hk hchild h.loaded hsize' hv',
      hiso.spaces.translate_prog hk₀ hpgd hl hsize hv, h.mm]
    dsimp only
    rw [hmem prog _ v hprogB hsize (hnewQ.not_mem_new_pgds hiso.spaces hPQ h.pgds) hv,
      byte_copy_target hqp hv, byte_copy_other hsp (by omega), byte_zeroPage halign (by omega)]
  · rw [h.isolated.spaces.translate_stack hk hchild h.loaded hv,
      hiso.spaces.translate_stack hk₀ hpgd hl hv]
    have hoff : v - userStackAddr < userStackSize := by
      obtain ⟨h1, h2⟩ := hv
      omega
    rw [hmem stack _ _ hstackB (by decide) (hnewS.not_mem_new_pgds hiso.spaces hPS h.pgds) hoff,
      byte_copy_other hqp (by omega), byte_copy_target hsp hoff, byte_zeroPage halign (by omega)]

end

/-! ## Runs -/

/-- Runs of a system in which programs of at least `lo` bytes are loaded from the initrd and tasks fork.
    In between, the current task stores to any page that its tables map, other blocks are taken from
    `kmalloc`, the kernel stores anywhere outside the tables, and tasks are scheduled, exit and are
    killed. -/
inductive UserRun (km : Kmalloc) (fuel lo : ℕ) : Machine → Prop
  | boot (mem : ℕ → ℕ) : UserRun km fuel lo ⟨Sched.taskInit, fun _ => ⟨0, 0, 0⟩, ⟨mem, 0⟩, [], []⟩
  | load {σ : Machine} (h : UserRun km fuel lo σ) (progAddr : ℕ) {fs : ℕ} (hfs : lo ≤ fs) :
    UserRun km fuel lo (initrdUsrProg km σ progAddr fs)
  | fork {σ σ' : Machine} (h : UserRun km fuel lo σ) (hpgd : (σ.mm σ.cur).pgd ≠ 0)
      (hfork : σ.sysFork km = .ok σ') : UserRun km fuel lo σ'
  | user {σ : Machine} (h : UserRun km fuel lo σ) (hpgd : (σ.mm σ.cur).pgd ≠ 0) {mem : ℕ → ℕ}
      (hmem : ∀ a, mem a ≠ σ.pt.mem a → ∃ v < 2 ^ 48, σ.Mapped σ.cur v ∧
        physToVirt (σ.translate σ.cur v) / 4096 = a / 4096) : UserRun km fuel lo (σ.setMem mem)
  | kmalloc {σ : Machine} (h : UserRun km fuel lo σ) (size : ℕ) : UserRun km fuel lo (σ.kmalloc km size).2
  | kernel {σ : Machine} (h : UserRun km fuel lo σ) {mem : ℕ → ℕ}
      (hmem : ∀ a, InTable km.table σ.pgds σ.pt.next a → mem a = σ.pt.mem a) :
    UserRun km fuel lo (σ.setMem mem)
  | sched {σ : Machine} (h : UserRun km fuel lo σ) {op : Sched.Op} {s : Sched.State} (hop : op ≠ .fork)
      (hen : op.Enabled σ.sched) (hstep : Sched.step fuel σ.sched op = .ok s) :
    UserRun km fuel lo { σ with sched := s }

/-- What a successful `sys_fork` does. -/
theorem sysFork_eq_ok {km : Kmalloc} {σ σ' : Machine} (hfork : σ.sysFork km = .ok σ') :
    ∃ child s, (Sched.findEmptyTask σ.sched).1 = some child ∧ Sched.sysFork σ.sched = .ok s ∧
      σ' = { forkInto km σ child with sched := s } := by
  unfold Machine.sysFork at hfork
  split at hfork
  next child s₀ hfind =>
    obtain ⟨s, hs, hσ'⟩ := Lib.bind_eq_ok.mp hfork
    exact ⟨child, s, by rw [hfind], hs, (Except.ok.inj hσ').symm⟩
  next s₀ hfind => cases hfork

theorem sysFork_ok {km : Kmalloc} {σ σ' : Machine} (h : Sched.Inv σ.sched)
    (hfork : σ.sysFork km = .ok σ') : ∃ child s, (Sched.findEmptyTask σ.sched).1 = some child ∧
      child ≠ σ.cur ∧ Sched.Inv s ∧ σ' = { forkInto km σ child with sched := s } := by
  obtain ⟨child, s, hfind, hs, hσ'⟩ := sysFork_eq_ok hfork
  obtain ⟨hne, hfree⟩ := Sched.findEmptyTask_ne h hfind
  obtain ⟨s', hs', hinv⟩ := Sched.sysFork_spec h hfree
  obtain rfl : s = s' := Except.ok.inj (hs.symm.trans hs')
  exact ⟨child, s, hfind, hne, hinv, hσ'⟩

theorem Kmalloc.Ok.setSched {km : Kmalloc} {σ : Machine} (h : km.Ok σ) (s : Sched.State) :
    km.Ok { σ with sched := s } :=
  ⟨h.page, h.page_ram, h.page_ne, h.aligned, h.ram, h.apart, h.page_apart⟩

section

variable {km : Kmalloc} {fuel lo : ℕ} {σ : Machine}

theorem UserRun.isolated (h : UserRun km (fuel + 2) lo σ) (hlo : lo ≤ 4096) (hk : km.Ok σ) :
    ∃ calls, Isolated km lo σ calls := by
  induction h with
  | boot mem =>
    refine ⟨[], Sched.taskInit_inv, ⟨forest_init (by simp) (by simp), ⟨by simp, by simp⟩, by simp, ?_, ?_,
      by simp⟩, by simp, by simp, ?_⟩
    · exact fun t ht => absurd rfl ht
    · exact fun t u ht => absurd rfl ht
    · exact fun t ht => absurd rfl ht
  | load _ progAddr hfs ih =>
    obtain ⟨calls, h⟩ := ih (hk.of_grows (grows_initrdUsrProg km _ progAddr _))
    exact h.load hlo hfs hk
  | fork _ hpgd hfork ih =>
    obtain ⟨child₀, s₀, -, -, rfl⟩ := sysFork_eq_ok hfork
    obtain ⟨calls, h⟩ := ih (hk.of_grows ((grows_forkInto km _ child₀).trans ⟨le_rfl, List.prefix_rfl⟩))
    obtain ⟨child, s, -, -, hs, heq⟩ := sysFork_ok h.sched hfork
    rw [heq] at hk ⊢
    obtain ⟨pstack, hl⟩ := h.loaded _ hpgd
    obtain ⟨P, stack, prog, hchild⟩ := h.fork hlo hpgd hl hs hk
    exact ⟨_, hchild.isolated⟩
  | user _ hpgd hmem ih =>
    have hk' := hk.of_grows (grows_setMem _ _)
    obtain ⟨calls, h⟩ := ih hk'
    refine ⟨calls, h.same h.sched (h.spaces.setMem fun a ha => ?_) rfl rfl (List.Subset.refl _)⟩
    by_contra hne
    obtain ⟨v, hv, hmap, hva⟩ := hmem a hne
    exact h.user_not_inTable hk' hpgd hv hmap hva ha
  | kmalloc _ size ih =>
    obtain ⟨calls, h⟩ := ih (hk.of_grows (grows_kmalloc km _ size))
    exact ⟨calls, h.same h.sched (h.spaces.kmalloc size) rfl rfl (List.subset_append_left _ _)⟩
  | kernel _ hmem ih =>
    obtain ⟨calls, h⟩ := ih (hk.of_grows ⟨le_rfl, List.prefix_rfl⟩)
    exact ⟨calls, h.same h.sched (h.spaces.setMem hmem) rfl rfl (List.Subset.refl _)⟩
  | sched _ hop hen hstep ih =>
    obtain ⟨calls, h⟩ := ih (hk.of_grows ⟨le_rfl, List.prefix_rfl⟩)
    obtain ⟨s, hs, hinv, -⟩ := Sched.step_spec h.sched hen fuel
    obtain rfl := Except.ok.inj (hs.symm.trans hstep)
    exact ⟨calls, h.same hinv (h.spaces.setSched s) rfl rfl (List.Subset.refl _)⟩

/-- **Fork.** In every state of every run, with programs of any size, the images of different tasks are
    in different frames. And when the current task, which has a program, forks: the child has a program
    of the same size, and at every address of the stack, and of a program of a page or more, it reads
    the byte that the parent read. -/
theorem fork_isolates (hrun : UserRun km (fuel + 2) 0 σ) (hk : km.Ok σ) :
    σ.FramesApart ∧ ∀ σ', (σ.mm σ.cur).pgd ≠ 0 → σ.sysFork km = .ok σ' → km.Ok σ' →
      ∃ child, (Sched.findEmptyTask σ.sched).1 = some child ∧ child ≠ σ.cur ∧
        (σ'.mm child).pgd ≠ 0 ∧ (σ'.mm child).progSz = (σ.mm σ.cur).progSz ∧
        σ'.mm σ.cur = σ.mm σ.cur ∧
        (∀ v, 4096 ≤ (σ.mm σ.cur).progSz ∧ v < (σ.mm σ.cur).progSz ∨ InStack v →
          σ'.byteAt child v = σ.byteAt σ.cur v) ∧
        σ'.FramesApart := by
  obtain ⟨calls, h⟩ := hrun.isolated (Nat.zero_le _) hk
  refine ⟨h.framesApart hk, fun σ' hpgd hfork hk' => ?_⟩
  obtain ⟨child, s, hfind, hne, hs, rfl⟩ := sysFork_ok h.sched hfork
  obtain ⟨pstack, hl⟩ := h.loaded _ hpgd
  obtain ⟨P, stack, prog, hchild⟩ := h.fork (Nat.zero_le _) hpgd hl hs hk'
  refine ⟨child, hfind, hne, ?_, ?_, hchild.others _ hne.symm, fun v hv => ?_,
    hchild.isolated.framesApart hk'⟩
  · rw [hchild.mm]
    exact hchild.pgd
  · rw [hchild.mm]
  · exact hchild.byteAt_eq h hpgd hl hk hk' hv

end

/-- `sys_fork` takes three blocks and at most three tables for every page. -/
theorem Roomy.forkInto {m k : ℕ} {σ : Machine} (h : Roomy m k σ)
    (hsize : (σ.mm σ.cur).progSz ≤ 0x10000) (child : Sched.Slot) :
    Roomy (m + 40000) (k + 3) (forkInto spread σ child) := by
  rw [forkInto_eq, forkSpace_eq]
  have hstack : Roomy m (k + 2) (forkStack spread σ (σ.mm σ.cur)) := by
    unfold forkStack
    exact (h.createPgd.kmalloc (show userStackSize ≤ 0x10000 by decide)).setMem _
  have hprog : Roomy m (k + 3) (forkProg spread σ (σ.mm σ.cur)) := by
    unfold forkProg
    exact (hstack.kmalloc hsize).setMem _
  have hmap := (hprog.mapAll (forkCalls (σ.createPgd spread).1
    ((σ.createPgd spread).2.kmalloc spread userStackSize).1
    ((forkStack spread σ (σ.mm σ.cur)).kmalloc spread (σ.mm σ.cur).progSz).1
    (σ.mm σ.cur).progSz)).setMm child ⟨virtToPhys (σ.createPgd spread).1,
      ((forkStack spread σ (σ.mm σ.cur)).kmalloc spread (σ.mm σ.cur).progSz).1, (σ.mm σ.cur).progSz⟩
  refine ⟨hmap.next.trans ?_, hmap.length, hmap.block⟩
  have hpages : nrPagesOf (σ.mm σ.cur).progSz ≤ 16 := by
    unfold nrPagesOf
    omega
  have hst : nrPagesOf userStackSize = 4 := by decide
  have hper : nrPagesOf peripheralSize = 12288 := by decide
  simp only [forkCalls, List.map_cons, List.map_nil, List.sum_cons, List.sum_nil]
  show m + 3 * (nrPagesOf userStackSize + (nrPagesOf (σ.mm σ.cur).progSz +
    (nrPagesOf peripheralSize + 0))) ≤ _
  omega

theorem Roomy.load {m k fs : ℕ} {σ : Machine} (h : Roomy m k σ) (hfs : fs ≤ 0x10000) (progAddr : ℕ) :
    Roomy (m + 40000) (k + 3) (initrdUsrProg spread σ progAddr fs) :=
  ((h.kmalloc hfs).setMem _).doExec hfs

/-- The machine before the first program is loaded. -/
def userBoot : Machine := ⟨Sched.taskInit, fun _ => ⟨0, 0, 0⟩, ⟨fun a => a % 251, 0⟩, [], []⟩

/-- Task 0 loads a program. -/
def userMachine (fs : ℕ) : Machine := initrdUsrProg spread userBoot 0xffff000008000000 fs

theorem userMachine_sched (fs : ℕ) : (userMachine fs).sched = Sched.taskInit := doExec_sched _ _ _ _

theorem userMachine_cur (fs : ℕ) : (userMachine fs).cur = 0 := by
  rw [Machine.cur, userMachine_sched]
  rfl

theorem userMachine_mm (fs : ℕ) :
    (userMachine fs).mm 0 = ⟨virtToPhys (spread.block 1), spread.block 0, fs⟩ := by
  rw [userMachine, initrdUsrProg, doExec_mm]
  rfl

theorem userMachine_pgd (fs : ℕ) : ((userMachine fs).mm 0).pgd ≠ 0 := by
  rw [userMachine_mm]
  show virtToPhys (spread.block 1) ≠ 0
  decide

theorem userMachine_run {lo fs : ℕ} (hfs : lo ≤ fs) : UserRun spread (0 + 2) lo (userMachine fs) :=
  .load (.boot fun a => a % 251) 0xffff000008000000 hfs

theorem userMachine_roomy {fs : ℕ} (hfs : fs ≤ 0x10000) : Roomy 40000 3 (userMachine fs) := by
  have hboot : Roomy 0 0 userBoot := ⟨le_rfl, le_rfl, by simp [userBoot]⟩
  exact hboot.load hfs 0xffff000008000000

/-- The tasks after task 0 has forked. -/
def forkedSched : Sched.State :=
  { Sched.taskInit.set 1 { Sched.taskInit.cur with taskId := 1, counter := 1, lr := .exitKernel } with
    numRunningTask := 2 }

theorem userMachine_fork (fs : ℕ) : (userMachine fs).sysFork spread =
    .ok { forkInto spread (userMachine fs) 1 with sched := forkedSched } := by
  unfold Machine.sysFork
  rw [userMachine_sched]
  rfl

/-- The next tick switches to the child, which can fork as well. -/
theorem forkedSched_tick : ∃ s s' t, Sched.step (0 + 2) forkedSched .tick = .ok s ∧ s.current = 1 ∧
    Sched.findEmptyTask s = (some 2, t) ∧ Sched.sysFork s = .ok s' :=
  ⟨_, _, _, rfl, rfl, rfl, rfl⟩

/-- A task with a `pgd` keeps it. -/
theorem initrdUsrProg_mm (km : Kmalloc) {σ : Machine} (hpgd : (σ.mm σ.cur).pgd ≠ 0) (progAddr fs : ℕ) :
    (initrdUsrProg km σ progAddr fs).mm =
      Function.update σ.mm σ.cur ⟨(σ.mm σ.cur).pgd, (σ.kmalloc km fs).1, fs⟩ := by
  set σ₁ := (σ.kmalloc km fs).2.setMem
    (moveBytes (σ.kmalloc km fs).2.pt.mem (σ.kmalloc km fs).1 progAddr fs) with hσ₁
  have hsame : σ₁.withPgd km = σ₁ := if_neg hpgd
  show (doExec km σ₁ (σ.kmalloc km fs).1 fs).mm = _
  rw [doExec_mm, hsame]
  rfl

/-- Task 0 loads a program of 24 bytes and forks. The child loads one of two pages and forks. -/
theorem fork_isolates_loaded : ∃ σ σ' child, UserRun spread 2 0 σ ∧ spread.Ok σ ∧
    σ.sysFork spread = .ok σ' ∧ spread.Ok σ' ∧ (σ.mm 0).progSz = 24 ∧ σ.cur = 1 ∧
    (σ.mm 1).progSz = 0x1234 ∧ child ≠ 1 ∧
    (∀ v, v < 0x1234 ∨ InStack v → σ'.byteAt child v = σ.byteAt 1 v) ∧ σ'.FramesApart := by
  have hrun₁ := userMachine_run (Nat.zero_le 24)
  have hroom₁ := userMachine_roomy (show 24 ≤ 0x10000 by norm_num)
  obtain ⟨calls, hiso⟩ := hrun₁.isolated (Nat.zero_le _) (hroom₁.ok (by norm_num) (by norm_num))
  have hroom₂ := hroom₁.forkInto (by rw [userMachine_cur, userMachine_mm]; norm_num) 1
  obtain ⟨P, stack, prog, src, hf⟩ := hiso.spaces.forkInto 1 (hroom₂.ok (by norm_num) (by norm_num))
  have hfork₁ := userMachine_fork 24
  obtain ⟨s, s', s'', htick, hs, hfind, hforked⟩ := forkedSched_tick
  have hmm₀ : (forkInto spread (userMachine 24) 1).mm 0 = (userMachine 24).mm 0 := hf.others 0 (by decide)
  -- the tables that the fork has made are not to be computed
  generalize forkInto spread (userMachine 24) 1 = τ at *
  have hpgd₁ : ((userMachine 24).mm (userMachine 24).cur).pgd ≠ 0 := by
    rw [userMachine_cur]
    exact userMachine_pgd 24
  have htickNe : Sched.Op.tick ≠ Sched.Op.fork := by simp
  have hrun₂ : UserRun spread (0 + 2) 0 { τ with sched := s } :=
    .sched (.fork hrun₁ hpgd₁ hfork₁) htickNe trivial htick
  have hready : Roomy 80000 6 { τ with sched := s } := ⟨hroom₂.next, hroom₂.length, hroom₂.block⟩
  have hroom₃ := hready.load (show 0x1234 ≤ 0x10000 by norm_num) 0xffff000009000000
  have hrun₃ := hrun₂.load 0xffff000009000000 (Nat.zero_le 0x1234)
  set σ := initrdUsrProg spread { τ with sched := s } 0xffff000009000000 0x1234 with hσ
  have hsched : σ.sched = s := doExec_sched _ _ _ _
  have hcur : σ.cur = 1 := by rw [Machine.cur, hsched, hs]
  have hpgd₂ : (({ τ with sched := s } : Machine).mm s.current).pgd ≠ 0 := by
    rw [hs, show ({ τ with sched := s } : Machine).mm = τ.mm from rfl, hf.mm]
    exact hf.pgd
  have hmm := initrdUsrProg_mm spread hpgd₂ 0xffff000009000000 0x1234
  rw [← hσ, show ({ τ with sched := s } : Machine).cur = s.current from rfl, hs] at hmm
  have hsize : (σ.mm 1).progSz = 0x1234 := by rw [hmm, Function.update_self]
  have hsize₀ : (σ.mm 0).progSz = 24 := by
    rw [hmm, Function.update_of_ne (by decide)]
    show (τ.mm 0).progSz = 24
    rw [hmm₀, userMachine_mm]
  have hpgd : (σ.mm σ.cur).pgd ≠ 0 := by
    rw [hcur, hmm, Function.update_self, ← hs]
    exact hpgd₂
  have hfork : σ.sysFork spread = .ok { forkInto spread σ 2 with sched := s' } := by
    unfold Machine.sysFork
    rw [hsched, hfind, hforked]
    rfl
  have hroom₄ := hroom₃.forkInto (by rw [hcur, hsize]; norm_num) 2
  have hk := hroom₃.ok (by norm_num) (by norm_num)
  have hk' : spread.Ok { forkInto spread σ 2 with sched := s' } :=
    (hroom₄.ok (by norm_num) (by norm_num)).setSched _
  obtain ⟨child, -, hne, -, -, -, hbytes, happart⟩ := (fork_isolates hrun₃ hk).2 _ hpgd hfork hk'
  rw [hcur] at hne hbytes
  rw [hsize] at hbytes
  exact ⟨σ, _, child, hrun₃, hk, hfork, hk', hsize₀, hcur, hsize, hne,
    fun v hv => hbytes v (hv.imp (And.intro (by norm_num)) id), happart⟩

end RaspiKernel.Mm
