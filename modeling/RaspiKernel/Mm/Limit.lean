import RaspiKernel.Mm.BuddyRun

/-!
# Memory limits that are no multiple of 2 MiB

With `nr_pages` no multiple of 512, a block at the end of `mem_map` has buddies
behind the array. As long as the memory there does not look like a free block,
nothing is merged across the end, and the allocator behaves as if `mem_map` were
longer, up to a multiple of 512, with the extra pages reserved.

`Padded n s s'` relates a state `s` to such a longer state `s'`. Every function
of the allocator follows its counterpart on the longer array, so the invariants
of `RaspiKernel.Mm.BuddyRun` carry over to any number of pages.

Results:
* `PaddedSystem.exec`: a call follows the call on the longer array.
* `buddyInit_padded`: so does `buddy_init`, over a zeroed `mem_map`.
* `run_any_ok`: runs for every number of pages.
-/

namespace RaspiKernel.Mm

open Lib
open Memblock (Region)

/-! ## The longer array -/

/-- The two contents of the `struct page` with index `x`. -/
def PaddedPage (n x : ℕ) (page page' : Page) : Prop :=
  page' = page ∨ n ≤ x ∧ page.flags = 0 ∧ page' = { page with flags := PG_RESERVED }

/-- `s'` is `s` with some of the pages from `n` on reserved. -/
structure Padded (n : ℕ) (s s' : MmState) : Prop where
  freeArea : s'.freeArea = s.freeArea
  page : ∀ x, PaddedPage n x (s.memMap x) (s'.memMap x)

theorem PaddedPage.priv {n x : ℕ} {page page' : Page} (h : PaddedPage n x page page') :
    page'.priv = page.priv := by
  rcases h with rfl | ⟨-, -, rfl⟩ <;> rfl

theorem PaddedPage.freelist {n x : ℕ} {page page' : Page} (h : PaddedPage n x page page') :
    page'.freelist = page.freelist := by
  rcases h with rfl | ⟨-, -, rfl⟩ <;> rfl

/-- The two pages differ in no flag the allocators look for. -/
theorem PaddedPage.flags_eq_iff {n x : ℕ} {page page' : Page} (h : PaddedPage n x page page')
    {f : ℕ} (hzero : f ≠ 0) (hres : f ≠ PG_RESERVED) : page'.flags = f ↔ page.flags = f := by
  rcases h with rfl | ⟨-, h0, rfl⟩
  · exact Iff.rfl
  · rw [h0]
    exact iff_of_false hres.symm hzero.symm

theorem PaddedPage.setPriv {n x : ℕ} {page page' : Page} (h : PaddedPage n x page page') (v : ℕ) :
    PaddedPage n x { page with priv := v } { page' with priv := v } := by
  rcases h with rfl | ⟨hx, h0, rfl⟩
  · exact Or.inl rfl
  · exact Or.inr ⟨hx, h0, rfl⟩

theorem PaddedPage.setFreelist {n x : ℕ} {page page' : Page} (h : PaddedPage n x page page')
    (v : ℕ) : PaddedPage n x { page with freelist := v } { page' with freelist := v } := by
  rcases h with rfl | ⟨hx, h0, rfl⟩
  · exact Or.inl rfl
  · exact Or.inr ⟨hx, h0, rfl⟩

section Padded

variable {n : ℕ} {s s' : MmState}

theorem Padded.pageIsBuddy (h : Padded n s s') (x k : ℕ) :
    pageIsBuddy (s'.memMap x) k = pageIsBuddy (s.memMap x) k := by
  have hflags := (h.page x).flags_eq_iff (f := PG_buddy) (by decide) (by decide)
  rw [Bool.eq_iff_iff]
  simp only [Mm.pageIsBuddy, (h.page x).priv, Bool.and_eq_true, beq_iff_eq, hflags]

theorem Padded.setPage (h : Padded n s s') {i : ℕ} {page page' : Page}
    (hpage : PaddedPage n i page page') : Padded n (s.setPage i page) (s'.setPage i page') where
  freeArea := h.freeArea
  page x := by
    rw [setPage_memMap, setPage_memMap]
    by_cases hx : x = i
    · subst hx
      rwa [Function.update_self, Function.update_self]
    · rw [Function.update_of_ne hx, Function.update_of_ne hx]
      exact h.page x

theorem Padded.setFlags (h : Padded n s s') (i flags : ℕ) :
    Padded n (s.setFlags i flags) (s'.setFlags i flags) := by
  refine h.setPage (Or.inl ?_)
  simp only [(h.page i).priv, (h.page i).freelist]

theorem Padded.setBuddyOrder (h : Padded n s s') (p k : ℕ) :
    Padded n (setBuddyOrder s p k) (setBuddyOrder s' p k) := by
  rw [setBuddyOrder_eq, setBuddyOrder_eq]
  refine h.setPage (Or.inl ?_)
  simp only [(h.page p).freelist]

theorem Padded.setUsed (h : Padded n s s') (p k : ℕ) :
    Padded n ((setPageOrder s p k).setFlags p PG_USED) ((setPageOrder s' p k).setFlags p PG_USED) := by
  have heq : ∀ s : MmState, (setPageOrder s p k).setFlags p PG_USED =
      s.setPage p { s.memMap p with flags := PG_USED, priv := k } := by
    intro s
    simp [setPageOrder, MmState.setFlags, MmState.setPage]
  rw [heq, heq]
  refine h.setPage (Or.inl ?_)
  simp only [(h.page p).freelist]

theorem Padded.add (h : Padded n s s') (p k : ℕ) :
    Padded n (addToFreeArea s p k) (addToFreeArea s' p k) where
  freeArea := by rw [addToFreeArea_freeArea, addToFreeArea_freeArea, h.freeArea]
  page := h.page

theorem Padded.del (h : Padded n s s') (p k : ℕ) :
    Follows (Padded n) (delPageFromFreeArea s p k) (delPageFromFreeArea s' p k) := by
  unfold delPageFromFreeArea
  rw [h.freeArea]
  dsimp only
  by_cases hp : p ∈ (s.freeArea k).freeList
  · rw [if_pos hp, if_pos hp]
    exact Follows.ok ⟨rfl, h.page⟩
  · rw [if_neg hp, if_neg hp]
    exact Follows.error

theorem Padded.freeLoop (rem : ℕ) : ∀ {s s' : MmState}, Padded n s s' → ∀ p q k : ℕ,
    Follows (Padded n) (freeLoop rem s p q k) (freeLoop rem s' p q k) := by
  induction rem with
  | zero =>
    intro s s' h p q k
    exact Follows.ok ((h.setBuddyOrder p k).add p k)
  | succ rem ih =>
    intro s s' h p q k
    rw [Mm.freeLoop, Mm.freeLoop, findBuddyPagePfn, findBuddyPagePfn, h.pageIsBuddy]
    dsimp only
    by_cases hb : Mm.pageIsBuddy (s.memMap (p + findBuddyPfn q k - q)) k = true
    · rw [if_pos hb]
      exact (h.del _ k).bind fun s₁ s₁' h₁ => ih h₁ _ _ _
    · rw [if_neg hb]
      exact Follows.ok ((h.setBuddyOrder p k).add p k)

theorem Padded.freeOnePage (h : Padded n s s') (p q k : ℕ) :
    Follows (Padded n) (freeOnePage s p q k) (freeOnePage s' p q k) := by
  have hflags := (h.page p).flags_eq_iff (f := PG_USED) (by decide) (by decide)
  unfold Mm.freeOnePage
  by_cases hu : (s.memMap p).flags = PG_USED
  · rw [if_neg (not_not.mpr hu), if_neg (not_not.mpr (hflags.mpr hu))]
    exact h.freeLoop _ _ _ _
  · rw [if_pos fun hu' => hu (hflags.mp hu')]
    exact Follows.error

theorem Padded.expandLoop (p low : ℕ) (high : ℕ) : ∀ {s s' : MmState}, Padded n s s' → ∀ size,
    Padded n (expandLoop p low high size s) (expandLoop p low high size s') := by
  induction high with
  | zero =>
    intro s s' h size
    exact h
  | succ high ih =>
    intro s s' h size
    rw [Mm.expandLoop, Mm.expandLoop]
    split_ifs
    · exact ih ((h.setBuddyOrder _ _).add _ _) _
    · exact h

theorem Padded.expand (h : Padded n s s') (p low high : ℕ) :
    Padded n (expand s p low high) (expand s' p low high) := by
  unfold Mm.expand
  dsimp only
  split_ifs
  · exact h
  · exact Padded.expandLoop p low high h _

/-- The same answer, and states that are padded again. -/
def PaddedResult {α : Type} (n : ℕ) (r r' : α × MmState) : Prop := r'.1 = r.1 ∧ Padded n r.2 r'.2

theorem Padded.rmqueueLoop (h : Padded n s s') (order : ℕ) (rem : ℕ) : ∀ cur : ℕ,
    Follows (PaddedResult n) (rmqueueLoop order rem cur s) (rmqueueLoop order rem cur s') := by
  induction rem with
  | zero =>
    intro cur
    exact Follows.ok ⟨rfl, h⟩
  | succ rem ih =>
    intro cur
    rw [Mm.rmqueueLoop, Mm.rmqueueLoop, h.freeArea]
    cases getPageFromFreeArea (s.freeArea cur) with
    | none => exact ih (cur + 1)
    | some page =>
      exact (h.del page cur).bind fun s₁ s₁' h₁ =>
        Follows.ok ⟨rfl, (h₁.expand page order cur).setUsed page order⟩

theorem Padded.allocPages (h : Padded n s s') (order : ℕ) :
    Follows (PaddedResult n) (allocPages s order) (allocPages s' order) :=
  h.rmqueueLoop order _ order

end Padded

/-! ## Calls -/

/-- `σ'` is `σ` over a longer array. -/
structure PaddedSystem (n : ℕ) (σ σ' : System) : Prop where
  mm : Padded n σ.mm σ'.mm
  live : σ'.live = σ.live

/-- A call follows the call on the longer array. -/
theorem PaddedSystem.exec {n : ℕ} {σ σ' : System} (h : PaddedSystem n σ σ') (op : Op) :
    Follows (PaddedSystem n) (σ.exec op) (σ'.exec op) := by
  cases op with
  | alloc order =>
    refine (h.mm.allocPages order).bind ?_
    rintro ⟨r, mm⟩ ⟨r', mm'⟩ ⟨hr, hmm⟩
    obtain rfl : r' = r := hr
    cases r' with
    | none => exact Follows.ok ⟨hmm, h.live⟩
    | some page => exact Follows.ok ⟨hmm, congrArg (⟨page, order⟩ :: ·) h.live⟩
  | free i =>
    simp only [System.exec, h.live]
    cases σ.live[i]? with
    | none => exact Follows.ok h
    | some b =>
      exact (h.mm.freeOnePage b.start b.start b.order).bind fun mm mm' hmm =>
        Follows.ok ⟨hmm, rfl⟩

/-! ## Initialisation -/

/-- The next multiple of 512. -/
def padPages (n : ℕ) : ℕ := 512 * (n / 512 + 1)

theorem lt_padPages (n : ℕ) : n < padPages n := by
  unfold padPages
  omega

theorem dvd_padPages (n : ℕ) : 512 ∣ padPages n := Dvd.intro _ rfl

/-- The pages behind the array. -/
def padRegion (n : ℕ) : Region := ⟨n <<< 12, (padPages n - n) <<< 12 - 1⟩

theorem mem_pfns_padRegion {n x : ℕ} : x ∈ pfns (padRegion n) ↔ n ≤ x ∧ x < padPages n := by
  have hlt := lt_padPages n
  have hbase : (n <<< 12) >>> 12 = n := by
    rw [Nat.shiftLeft_eq, Nat.shiftRight_eq_div_pow]
    omega
  have hend : (n <<< 12 + ((padPages n - n) <<< 12 - 1)) >>> 12 = padPages n - 1 := by
    rw [Nat.shiftLeft_eq, Nat.shiftLeft_eq, Nat.shiftRight_eq_div_pow]
    omega
  simp only [pfns, padRegion, List.mem_range'_1, hbase, hend]
  omega

/-- The regions of the longer array. -/
def padRegions (n : ℕ) (rgns : List Region) : List Region := rgns ++ [padRegion n]

theorem reserved_padRegions {n x : ℕ} {rgns : List Region} :
    Reserved (padRegions n rgns) x ↔ Reserved rgns x ∨ n ≤ x ∧ x < padPages n := by
  simp [Reserved, padRegions, or_and_right, exists_or, mem_pfns_padRegion]

theorem initPage_of_reserved {s : MmState} {i : ℕ} (h : (s.memMap i).flags = PG_RESERVED) :
    initPage s i = .ok s := if_pos h

theorem Padded.initPage {n i : ℕ} {s s' : MmState} (h : Padded n s s') (hi : i < n) :
    Follows (Padded n) (initPage s i) (initPage s' i) := by
  have hpage : s'.memMap i = s.memMap i := by
    rcases h.page i with heq | ⟨hle, -⟩
    · exact heq
    · omega
  unfold Mm.initPage
  rw [hpage]
  split_ifs
  · exact Follows.ok h
  · exact (h.setFlags i PG_AVAIL).freeLoop _ _ _ _

theorem padded_markReserved (n : ℕ) (rgns : List Region) {s : MmState}
    (hs : ∀ x, s.memMap x = Page.zero) :
    Padded n (markReserved rgns s) (markReserved (padRegions n rgns) s) := by
  obtain ⟨harea, hmap⟩ := markReserved_spec rgns s
  obtain ⟨harea', hmap'⟩ := markReserved_spec (padRegions n rgns) s
  refine ⟨harea'.trans harea.symm, fun x => ?_⟩
  simp only [hmap, hmap', hs, reserved_padRegions]
  by_cases hr : Reserved rgns x
  · simp [hr, PaddedPage]
  · by_cases hx : n ≤ x ∧ x < padPages n
    · simp [hr, hx, PaddedPage, Page.zero]
    · simp [hr, hx, PaddedPage]

/-- The second loop of `page_frame_init` over the longer array: the rounds for the pages of the array
    itself are followed, the others pass over reserved pages. -/
theorem buddyInit_padded (n : ℕ) (rgns : List Region) :
    ∃ s s' tile, buddyInit (fun _ => Page.zero) rgns n = .ok s ∧
      buddyInit (fun _ => Page.zero) (padRegions n rgns) (padPages n) = .ok s' ∧ Padded n s s' ∧
      InitInv (padPages n) (padRegions n rgns) (padPages n) s' tile := by
  set s₀ := markReserved rgns (buddyFreeAreaInit (MmState.boot fun _ => Page.zero)) with hs₀
  have hzero := initInv_zero (dvd_padPages n) (padRegions n rgns) (fun _ => Page.zero)
    (fun x _ => by simp [Page.zero])
  have hpad := padded_markReserved n rgns (s := buddyFreeAreaInit (MmState.boot fun _ => Page.zero))
    fun _ => rfl
  -- `i` rounds of the longer loop are `min i n` rounds of the loop
  obtain ⟨s', hrun', s, hrun, hp, tile, h⟩ := foldlM_range_ok (f := initPage) (n := padPages n)
    (P := fun i s' => ∃ s, (List.range (min i n)).foldlM initPage s₀ = .ok s ∧ Padded n s s' ∧
      ∃ tile, InitInv (padPages n) (padRegions n rgns) i s' tile)
    (fun i hi s' hs => by
      obtain ⟨s, hrun, hp, tile, h⟩ := hs
      obtain ⟨t', tile', hstep, h'⟩ := initPage_spec hi h
      refine ⟨t', hstep, ?_⟩
      by_cases hin : i < n
      · obtain ⟨t, ht, hpt⟩ := hp.initPage hin t' hstep
        refine ⟨t, ?_, hpt, tile', h'⟩
        rw [show min (i + 1) n = min i n + 1 by omega, List.range_succ, List.foldlM_append, hrun]
        show (List.foldlM initPage s [min i n]) = _
        rw [show min i n = i by omega, List.foldlM_cons, ht]
        rfl
      · -- page `i` is behind the array
        have hres := h.inv.mark i hi .reserved 0
          (h.reserved i hi (reserved_padRegions.mpr (Or.inr ⟨by omega, hi⟩)))
        obtain rfl : s' = t' := by
          rw [initPage_of_reserved hres] at hstep
          exact Except.ok.inj hstep
        refine ⟨s, ?_, hp, tile', h'⟩
        rw [show min (i + 1) n = min i n by omega]
        exact hrun) _ ⟨s₀, rfl, hpad, _, hzero⟩
  rw [show min (padPages n) n = n by have := lt_padPages n; omega] at hrun
  exact ⟨s, s', tile, hrun, hrun', hp, h⟩

/-! ## Runs -/

/-- A state over any number of pages, and the invariant of the longer array. -/
structure AnyInv (n : ℕ) (rgns : List Region) (σ σ' : System) (tile : Tiles) : Prop where
  padded : PaddedSystem n σ σ'
  inv : RunInv (padPages n) (padRegions n rgns) [] σ' tile

theorem boot_follows (n : ℕ) (rgns : List Region) :
    Follows (PaddedSystem n) (System.boot rgns n)
      (System.boot (padRegions n rgns) (padPages n)) := by
  obtain ⟨s, s', tile, hrun, hrun', hp, -⟩ := buddyInit_padded n rgns
  rw [System.boot, System.boot, hrun, hrun']
  exact Follows.ok ⟨hp, rfl⟩

theorem boot_any_ok (n : ℕ) (rgns : List Region) :
    ∃ σ σ' tile, System.boot rgns n = .ok σ ∧ AnyInv n rgns σ σ' tile := by
  obtain ⟨s, s', tile, hrun, -, hp, h⟩ := buddyInit_padded n rgns
  exact ⟨⟨s, []⟩, ⟨s', []⟩, tile, by simp only [System.boot, hrun]; rfl, ⟨hp, rfl⟩, h.runInv⟩

theorem AnyInv.exec_ok {n : ℕ} {rgns : List Region} {σ σ' : System} {tile : Tiles}
    (h : AnyInv n rgns σ σ' tile) (op : Op) :
    ∃ τ τ' tile', σ.exec op = .ok τ ∧ AnyInv n rgns τ τ' tile' := by
  obtain ⟨τ', tile', hrun', h', -⟩ := Mm.exec_ok h.inv op
  obtain ⟨τ, hrun, hp⟩ := h.padded.exec op τ' hrun'
  exact ⟨τ, τ', tile', hrun, hp, h'⟩

/-- Runs over any number of pages come back. -/
theorem run_any_ok {n : ℕ} {rgns : List Region} {σ σ' : System} {tile : Tiles}
    (h : AnyInv n rgns σ σ' tile) (ops : List Op) :
    ∃ τ τ' tile', σ.run ops = .ok τ ∧ AnyInv n rgns τ τ' tile' := by
  obtain ⟨τ, hrun, τ', tile', h'⟩ := foldlM_ok (f := System.exec)
    (P := fun σ => ∃ σ' tile, AnyInv n rgns σ σ' tile)
    (fun op _ σ ⟨σ', tile, h⟩ => by
      obtain ⟨τ, τ', tile', hrun, h'⟩ := h.exec_ok op
      exact ⟨τ, hrun, τ', tile', h'⟩) σ ⟨σ', tile, h⟩
  exact ⟨τ, τ', tile', hrun, h'⟩

end RaspiKernel.Mm
