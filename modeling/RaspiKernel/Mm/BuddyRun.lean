import RaspiKernel.Lib.Run
import RaspiKernel.Mm.BuddyInv

/-!
# Runs of the buddy allocator

A run starts in the state `buddy_init` builds over a zeroed `mem_map` and makes
any sequence of `__alloc_pages(order)` calls and of `free_one_page` calls on
blocks that are allocated at that moment, with the page, page frame number and
order they were allocated with. `System.live` records those blocks.

Results:
* `run_partition`: no call stops; the free blocks, the live blocks and the
  reserved pages partition the page frames, and the free lists, the marks of
  their pages and the counters agree.
* `run_coalesced`: two buddies are never both free, the free lists hold exactly
  the maximal aligned runs of free pages, and an allocation of order `k` fails
  only if there is no aligned run of `2 ^ k` free pages.
-/

namespace RaspiKernel.Mm

open Lib
open Memblock (Region)

/-! ## The system -/

/-- The allocator and the blocks its callers hold. -/
structure System where
  mm : MmState
  live : List Block

/-- The calls of a run. -/
inductive Op where
  /-- `__alloc_pages(order)`. -/
  | alloc (order : ℕ)
  /-- `free_one_page` on the `i`-th live block. -/
  | free (i : ℕ)
  deriving DecidableEq, Repr

/-- One call. -/
def System.exec (σ : System) : Op → Except Stop System
  | .alloc order => do
    match ← allocPages σ.mm order with
    | (none, mm) => .ok { σ with mm := mm }
    | (some page, mm) => .ok { mm := mm, live := ⟨page, order⟩ :: σ.live }
  | .free i =>
    match σ.live[i]? with
    | none => .ok σ
    | some b => do
      let mm ← freeOnePage σ.mm b.start b.start b.order
      .ok { mm := mm, live := σ.live.eraseIdx i }

/-- A sequence of calls. -/
def System.run (σ : System) (ops : List Op) : Except Stop System := ops.foldlM System.exec σ

/-- The state after `buddy_init` over a zeroed `mem_map`. -/
def System.boot (rgns : List Region) (nrPages : ℕ) : Except Stop System := do
  let mm ← buddyInit (fun _ => Page.zero) rgns nrPages
  .ok { mm := mm, live := [] }

/-- `page_frame_init` marks page `x` as reserved. -/
def Reserved (rgns : List Region) (x : ℕ) : Prop := ∃ rgn ∈ rgns, x ∈ pfns rgn

instance (rgns : List Region) (x : ℕ) : Decidable (Reserved rgns x) :=
  inferInstanceAs (Decidable (∃ rgn ∈ rgns, x ∈ pfns rgn))

/-- Every finite set of pages is the reserved set of some list of regions. -/
theorem exists_reserved_iff (R : Finset ℕ) : ∃ rgns, ∀ x, Reserved rgns x ↔ x ∈ R := by
  refine ⟨R.toList.map fun p => ⟨p <<< 12, 0⟩, fun x => ?_⟩
  simp only [Reserved, List.mem_map, Finset.mem_toList, pfns]
  constructor
  · rintro ⟨_, ⟨p, hp, rfl⟩, hx⟩
    obtain rfl : x = p := by simpa using hx
    exact hp
  · intro hx
    exact ⟨_, ⟨x, hx, rfl⟩, by simp⟩

/-! ## The invariant of a run -/

/-- `tile` describes a state between two calls. `slabs` are the pages that the slab allocator has
    taken over. -/
structure RunInv (n : ℕ) (rgns : List Region) (slabs : List ℕ) (σ : System) (tile : Tiles) :
    Prop where
  inv : BuddyInv n σ.mm tile
  owner : ∀ x < n, (tile x).1 = .free ∨ (tile x).1 = .used ∨ (tile x).1 = .reserved ∨
    (tile x).1 = .slab
  reserved : ∀ x < n, (tile x).1 = .reserved ↔ Reserved rgns x
  slab : ∀ p, p ∈ slabs ↔ p < n ∧ (tile p).1 = .slab
  slab_order : ∀ p < n, (tile p).1 = .slab → (tile p).2 = ⟨p, 0⟩
  live : ∀ b, b ∈ σ.live ↔ b.start < n ∧ tile b.start = (.used, b)
  nodup : σ.live.Nodup

section RunInv

variable {n : ℕ} {rgns : List Region} {slabs : List ℕ} {σ : System} {tile : Tiles}

theorem RunInv.idle (h : RunInv n rgns slabs σ tile) : Idle n tile := by
  intro x hx hh
  rcases h.owner x hx with ho | ho | ho | ho <;> rw [hh] at ho <;> cases ho

/-- A change that only frees and hands out pages leaves the reserved and the slab pages alone. -/
theorem RunInv.of_other (h : RunInv n rgns slabs σ tile) {σ' : System} {tile' : Tiles}
    (hinv : BuddyInv n σ'.mm tile')
    (howner : ∀ x < n, (tile' x).1 = .free ∨ (tile' x).1 = .used ∨ tile' x = tile x)
    (hother : ∀ x < n, (tile x).1 = .reserved ∨ (tile x).1 = .slab → tile' x = tile x)
    (hlive : ∀ b, b ∈ σ'.live ↔ b.start < n ∧ tile' b.start = (.used, b)) (hnodup : σ'.live.Nodup) :
    RunInv n rgns slabs σ' tile' := by
  -- neither owner comes or goes
  have hiff : ∀ t, t = .reserved ∨ t = .slab → ∀ x < n, ((tile' x).1 = t ↔ (tile x).1 = t) := by
    intro t ht x hx
    constructor
    · intro hx'
      rcases howner x hx with ho | ho | ho
      · rw [hx'] at ho; subst ho; simp at ht
      · rw [hx'] at ho; subst ho; simp at ht
      · rw [← ho, hx']
    · intro hx'
      rw [hother x hx (by rw [hx']; exact ht), hx']
  refine ⟨hinv, ?_, ?_, ?_, ?_, hlive, hnodup⟩
  · intro x hx
    rcases howner x hx with ho | ho | ho
    · exact Or.inl ho
    · exact Or.inr (Or.inl ho)
    · rw [ho]; exact h.owner x hx
  · intro x hx
    rw [hiff .reserved (Or.inl rfl) x hx, h.reserved x hx]
  · intro p
    rw [h.slab p]
    exact and_congr_right fun hp => (hiff .slab (Or.inr rfl) p hp).symm
  · intro p hp hs
    have hs' := (hiff .slab (Or.inr rfl) p hp).mp hs
    rw [hother p hp (Or.inr hs')]
    exact h.slab_order p hp hs'

/-- An allocation. -/
theorem RunInv.taken (h : RunInv n rgns slabs σ tile) {s' : MmState} {tile' : Tiles} {b : Block}
    (h' : BuddyInv n s' tile') (ht : Taken n σ.mm tile s' tile' b) :
    RunInv n rgns slabs ⟨s', b :: σ.live⟩ tile' := by
  refine h.of_other h' ?_ ?_ ?_ ?_
  · intro x hx
    by_cases hxb : x ∈ b
    · rw [(h'.tiling.tile_eq_of_mem ht.lt ht.used hxb).2]; simp
    · by_cases hf : (tile x).1 = .free
      · exact Or.inl (ht.free x hx hxb hf)
      · exact Or.inr (Or.inr (ht.frame x hx hf).1)
  · intro x hx ho
    refine (ht.frame x hx ?_).1
    rcases ho with ho | ho <;> simp [ho]
  · intro c
    rw [List.mem_cons, h.live c]
    constructor
    · rintro (rfl | ⟨hc, hct⟩)
      · exact ⟨ht.lt, ht.used⟩
      · exact ⟨hc, by rw [(ht.frame _ hc (by rw [hct]; simp)).1, hct]⟩
    · rintro ⟨hc, hct⟩
      by_cases hf : (tile c.start).1 = .free
      · by_cases hcb : c.start ∈ b
        · left
          have := (h'.tiling.tile_eq_of_mem ht.lt ht.used hcb).2
          rw [hct] at this
          exact (Prod.mk.injEq _ _ _ _ ▸ this).2
        · have := ht.free _ hc hcb hf
          rw [hct] at this; cases this
      · right; exact ⟨hc, by rw [← (ht.frame _ hc hf).1, hct]⟩
  · refine List.nodup_cons.mpr ⟨?_, h.nodup⟩
    rw [h.live]
    rintro ⟨-, hbt⟩
    have := ht.was_free _ b.start_mem
    rw [hbt] at this; cases this

/-- A release of a live block. -/
theorem RunInv.released (h : RunInv n rgns slabs σ tile) {s' : MmState} {tile' : Tiles} {i : ℕ}
    {b : Block} (hi : σ.live[i]? = some b) (h' : BuddyInv n s' tile')
    (hrel : Released n σ.mm tile s' tile' b) :
    RunInv n rgns slabs ⟨s', σ.live.eraseIdx i⟩ tile' := by
  obtain ⟨hb, hbt⟩ := (h.live b).mp (List.mem_of_getElem? hi)
  have herase : ∀ c, c ∈ σ.live.eraseIdx i ↔ c ∈ σ.live ∧ c ≠ b := by
    intro c
    have hib : i < σ.live.length := (List.getElem?_eq_some_iff.mp hi).1
    have hget : σ.live[i] = b := (List.getElem?_eq_some_iff.mp hi).2
    rw [← hget, ← h.nodup.erase_getElem i hib, h.nodup.mem_erase_iff, and_comm]
  refine h.of_other h' ?_ ?_ ?_ ?_
  · intro x hx
    by_cases hxb : x ∈ b ∨ (tile x).1 = .free
    · exact Or.inl (hrel.free x hx hxb)
    · exact Or.inr (Or.inr (hrel.frame x hx (by tauto) (by tauto)).1)
  · intro x hx ho
    have hxb : x ∉ b := by
      intro hxb
      rw [(h.inv.tiling.tile_eq_of_mem hb hbt hxb).2] at ho
      simp at ho
    refine (hrel.frame x hx hxb ?_).1
    rcases ho with ho | ho <;> simp [ho]
  · intro c
    rw [herase, h.live]
    constructor
    · rintro ⟨⟨hc, hct⟩, hne⟩
      have hcb : c.start ∉ b := by
        intro hcb
        have := (h.inv.tiling.tile_eq_of_mem hb hbt hcb).2
        rw [hct] at this
        exact hne (Prod.mk.injEq _ _ _ _ ▸ this).2
      exact ⟨hc, by rw [(hrel.frame _ hc hcb (by rw [hct]; simp)).1, hct]⟩
    · rintro ⟨hc, hct⟩
      by_cases hcb : c.start ∈ b ∨ (tile c.start).1 = .free
      · have := hrel.free _ hc hcb
        rw [hct] at this; cases this
      · have he := (hrel.frame _ hc (by tauto) (by tauto)).1
        refine ⟨⟨hc, by rw [← he, hct]⟩, ?_⟩
        rintro rfl
        exact hcb (Or.inl c.start_mem)
  · exact (List.eraseIdx_sublist _ _).nodup h.nodup

/-- One call comes back, keeps the invariant and does not touch the `struct page` of a slab. -/
theorem exec_ok (h : RunInv n rgns slabs σ tile) (op : Op) :
    ∃ σ' tile', σ.exec op = .ok σ' ∧ RunInv n rgns slabs σ' tile' ∧
      ∀ p ∈ slabs, σ'.mm.memMap p = σ.mm.memMap p := by
  cases op with
  | alloc order =>
    rcases allocPages_spec h.inv order with ⟨hrun, -⟩ | ⟨page, s', tile', hrun, h', ht⟩
    · refine ⟨σ, tile, ?_, h, fun _ _ => rfl⟩
      simp only [System.exec, hrun]
      rfl
    · refine ⟨⟨s', ⟨page, order⟩ :: σ.live⟩, tile', ?_, h.taken h' ht, ?_⟩
      · simp only [System.exec, hrun]
        rfl
      · intro p hp
        obtain ⟨hpn, hps⟩ := (h.slab p).mp hp
        exact (ht.frame p hpn (by simp [hps])).2
  | free i =>
    cases hi : σ.live[i]? with
    | none => exact ⟨σ, tile, by simp only [System.exec, hi], h, fun _ _ => rfl⟩
    | some b =>
      obtain ⟨hb, hbt⟩ := (h.live b).mp (List.mem_of_getElem? hi)
      have hflags := (h.inv.mark b.start hb .used b.order hbt).1
      obtain ⟨s', tile', hrun, h', hrel⟩ := freeOnePage'_spec h.inv h.idle hb hbt (by simp)
      refine ⟨⟨s', σ.live.eraseIdx i⟩, tile', ?_, h.released hi h' hrel, ?_⟩
      · simp only [System.exec, hi, freeOnePage, hflags, ne_eq, not_true_eq_false, if_false, hrun]
        rfl
      · intro p hp
        obtain ⟨hpn, hps⟩ := (h.slab p).mp hp
        have hpb : p ∉ b := by
          intro hpb
          rw [(h.inv.tiling.tile_eq_of_mem hb hbt hpb).2] at hps
          simp at hps
        exact (hrel.frame p hpn hpb (by simp [hps])).2

theorem run_ok (h : RunInv n rgns slabs σ tile) (ops : List Op) :
    ∃ σ' tile', σ.run ops = .ok σ' ∧ RunInv n rgns slabs σ' tile' := by
  have hstep : ∀ op ∈ ops, ∀ σ, (∃ tile, RunInv n rgns slabs σ tile) →
      ∃ σ', σ.exec op = .ok σ' ∧ ∃ tile', RunInv n rgns slabs σ' tile' := by
    rintro op - σ ⟨tile, h⟩
    obtain ⟨σ', tile', hrun, h', -⟩ := exec_ok h op
    exact ⟨σ', hrun, tile', h'⟩
  obtain ⟨σ', hrun, tile', h'⟩ := foldlM_ok hstep σ ⟨tile, h⟩
  exact ⟨σ', tile', hrun, h'⟩

end RunInv

/-! ## Initialisation -/

theorem foldl_setFlags (l : List ℕ) (flags : ℕ) : ∀ s : MmState,
    (l.foldl (fun s pfn => s.setFlags pfn flags) s).freeArea = s.freeArea ∧
    ∀ x, ((l.foldl (fun s pfn => s.setFlags pfn flags) s).memMap x) =
      if x ∈ l then { s.memMap x with flags := flags } else s.memMap x := by
  induction l with
  | nil => intro s; exact ⟨rfl, fun x => by simp⟩
  | cons p l ih =>
    intro s
    obtain ⟨h1, h2⟩ := ih (s.setFlags p flags)
    refine ⟨h1, fun x => ?_⟩
    rw [List.foldl_cons, h2 x]
    by_cases hxp : x = p
    · subst hxp; simp [MmState.setFlags]
    · simp [MmState.setFlags, hxp]

/-- `mem_map` after the first loop of `page_frame_init`. -/
theorem markReserved_spec (rgns : List Region) : ∀ s : MmState,
    (markReserved rgns s).freeArea = s.freeArea ∧
    ∀ x, (markReserved rgns s).memMap x =
      if Reserved rgns x then { s.memMap x with flags := PG_RESERVED } else s.memMap x := by
  induction rgns with
  | nil => intro s; exact ⟨rfl, fun x => by simp [markReserved, Reserved]⟩
  | cons r rgns ih =>
    intro s
    obtain ⟨h1, h2⟩ := foldl_setFlags (pfns r) PG_RESERVED s
    obtain ⟨h3, h4⟩ := ih ((pfns r).foldl (fun s pfn => s.setFlags pfn PG_RESERVED) s)
    refine ⟨h3.trans h1, fun x => ?_⟩
    have hcons : Reserved (r :: rgns) x ↔ x ∈ (pfns r) ∨ Reserved rgns x := by simp [Reserved]
    rw [show markReserved (r :: rgns) s =
      markReserved rgns ((pfns r).foldl (fun s pfn => s.setFlags pfn PG_RESERVED) s) from rfl, h4 x, h2 x]
    by_cases hx1 : Reserved rgns x <;> by_cases hx2 : x ∈ (pfns r) <;> simp [hcons, hx1, hx2]

/-- Before round `i` of the second loop of `page_frame_init`: the pages from `i` on that are not
    reserved are still pending. -/
structure InitInv (n : ℕ) (rgns : List Region) (i : ℕ) (s : MmState) (tile : Tiles) : Prop where
  inv : BuddyInv n s tile
  reserved : ∀ x < n, Reserved rgns x → tile x = (.reserved, ⟨x, 0⟩)
  done : ∀ x < n, ¬ Reserved rgns x → x < i → (tile x).1 = .free
  pending : ∀ x < n, ¬ Reserved rgns x → i ≤ x → tile x = (.pending, ⟨x, 0⟩)

theorem InitInv.idle {n i : ℕ} {rgns : List Region} {s : MmState} {tile : Tiles}
    (h : InitInv n rgns i s tile) : Idle n tile := by
  intro x hx hh
  by_cases hr : Reserved rgns x
  · rw [h.reserved x hx hr] at hh; cases hh
  · by_cases hi : x < i
    · rw [h.done x hx hr hi] at hh; cases hh
    · rw [h.pending x hx hr (by omega)] at hh; cases hh

/-- The state the second loop of `page_frame_init` starts from. -/
theorem initInv_zero {n : ℕ} (hn : 2 ^ (maxOrder - 1) ∣ n) (rgns : List Region) (f : ℕ → Page)
    (hf : ∀ x < n, (f x).flags ≠ PG_buddy ∧ (f x).flags ≠ PG_RESERVED) :
    InitInv n rgns 0 (markReserved rgns (buddyFreeAreaInit (MmState.boot f)))
      fun x => (if Reserved rgns x then .reserved else .pending, ⟨x, 0⟩) := by
  obtain ⟨harea, hmap⟩ := markReserved_spec rgns (buddyFreeAreaInit (MmState.boot f))
  have hempty : ∀ k < maxOrder,
      (markReserved rgns (buddyFreeAreaInit (MmState.boot f))).freeArea k = ⟨[], 0⟩ := by
    intro k hk
    rw [harea]
    simp [buddyFreeAreaInit, hk]
  have hnofree : ∀ p k, ¬ Tiles.Free
      (fun x => (if Reserved rgns x then .reserved else .pending, ⟨x, 0⟩)) p k := by
    intro p k hfree
    have := congrArg Prod.fst hfree
    simp only at this
    split_ifs at this
  refine ⟨⟨hn, ⟨fun x _ => ?_, fun x _ => ?_, fun x hx y hy => ?_, fun x _ y hy => ?_⟩,
    fun x _ => by simp, fun k hk p => ?_, fun k hk => ?_, fun k hk => ?_, fun x hx t k ht => ?_,
    fun p _ k _ _ hfree => absurd hfree (hnofree p k)⟩, ?_, ?_, ?_⟩
  · exact Block.start_mem ⟨x, 0⟩
  · exact Block.aligned_order_zero x
  · obtain rfl := Block.mem_order_zero.mp hy; exact hx
  · obtain rfl := Block.mem_order_zero.mp hy; rfl
  · rw [hempty k hk]; simp [hnofree p k]
  · rw [hempty k hk]; exact List.nodup_nil
  · rw [hempty k hk]; rfl
  · rw [hmap x]
    obtain ⟨rfl, -⟩ : (if Reserved rgns x then Owner.reserved else .pending) = t ∧ 0 = k := by
      simpa using ht
    by_cases hr : Reserved rgns x
    · simp [hr, Owner.Mark]
    · simpa [hr, Owner.Mark, buddyFreeAreaInit, MmState.boot] using hf x hx
  · intro x _ hr; simp [hr]
  · intro x _ _ hx; omega
  · intro x _ hr _; simp [hr]

/-- A pending page is still pending after `flags = PG_AVAIL`. -/
theorem InitInv.avail {n i : ℕ} {rgns : List Region} {s : MmState} {tile : Tiles} (hi : i < n)
    (h : InitInv n rgns i s tile) (hr : ¬ Reserved rgns i) :
    BuddyInv n (s.setFlags i PG_AVAIL) tile := by
  have ht := h.pending i hi hr le_rfl
  have hsame : Tiling.recolor tile .pending ⟨i, 0⟩ = tile := by
    funext x
    by_cases hx : x = i
    · subst hx; rw [Tiling.recolor_of_mem (Block.mem_order_zero.mpr rfl), ht]
    · rw [Tiling.recolor_of_not_mem (by rw [Block.mem_order_zero]; exact hx)]
  have hav := h.inv.retag .pending (b := ⟨i, 0⟩) hi ht (by simp) (by simp)
    { s.memMap i with flags := PG_AVAIL } (by simp [Owner.Mark])
  rwa [hsame] at hav

/-- One round of the second loop of `page_frame_init`. -/
theorem initPage_spec {n i : ℕ} {rgns : List Region} {s : MmState} {tile : Tiles} (hi : i < n)
    (h : InitInv n rgns i s tile) :
    ∃ s' tile', initPage s i = .ok s' ∧ InitInv n rgns (i + 1) s' tile' := by
  by_cases hr : Reserved rgns i
  · have hm := h.inv.mark i hi .reserved 0 (h.reserved i hi hr)
    refine ⟨s, tile, if_pos hm, h.inv, h.reserved, fun x hx hxr hlt => ?_, fun x hx hxr hle => ?_⟩
    · have hne : x ≠ i := by rintro rfl; exact hxr hr
      exact h.done x hx hxr (by omega)
    · exact h.pending x hx hxr (by omega)
  · have ht := h.pending i hi hr le_rfl
    have hm := h.inv.mark i hi .pending 0 ht
    obtain ⟨s', tile', hrun, h', hrel⟩ := freeOnePage'_spec (h.avail hi hr) h.idle hi ht (by simp)
    refine ⟨s', tile', ?_, h', fun x hx hxr => ?_, fun x hx hxr hlt => ?_, fun x hx hxr hle => ?_⟩
    · rw [initPage, if_neg hm.2]; exact hrun
    · have hxi : x ∉ (⟨i, 0⟩ : Block) := by
        rw [Block.mem_order_zero]; rintro rfl; exact hr hxr
      rw [(hrel.frame x hx hxi (by rw [h.reserved x hx hxr]; simp)).1, h.reserved x hx hxr]
    · refine hrel.free x hx ?_
      rcases Nat.lt_succ_iff_lt_or_eq.mp hlt with hlt | rfl
      · exact Or.inr (h.done x hx hxr hlt)
      · exact Or.inl (Block.mem_order_zero.mpr rfl)
    · have hxi : x ∉ (⟨i, 0⟩ : Block) := by rw [Block.mem_order_zero]; omega
      have hp := h.pending x hx hxr (by omega)
      rw [(hrel.frame x hx hxi (by rw [hp]; simp)).1, hp]

/-- `buddy_init` over a `mem_map` whose flags are neither `PG_buddy` nor `PG_RESERVED`. -/
theorem buddyInit_spec {n : ℕ} (hn : 2 ^ (maxOrder - 1) ∣ n) (rgns : List Region) (f : ℕ → Page)
    (hf : ∀ x < n, (f x).flags ≠ PG_buddy ∧ (f x).flags ≠ PG_RESERVED) :
    ∃ s tile, buddyInit f rgns n = .ok s ∧ InitInv n rgns n s tile := by
  obtain ⟨s, hrun, tile, h⟩ := foldlM_range_ok (f := initPage)
    (P := fun i s => ∃ tile, InitInv n rgns i s tile)
    (fun i hi s ⟨tile, h⟩ => by
      obtain ⟨s', tile', hrun, h'⟩ := initPage_spec hi h
      exact ⟨s', hrun, tile', h'⟩) _ ⟨_, initInv_zero hn rgns f hf⟩
  exact ⟨s, tile, hrun, h⟩

/-- The state after `buddy_init`, before the first call. -/
theorem InitInv.runInv {n : ℕ} {rgns : List Region} {s : MmState} {tile : Tiles}
    (h : InitInv n rgns n s tile) : RunInv n rgns [] ⟨s, []⟩ tile := by
  have howner : ∀ x < n, (tile x).1 = .free ∨ (tile x).1 = .reserved := by
    intro x hx
    by_cases hr : Reserved rgns x
    · rw [h.reserved x hx hr]; simp
    · exact Or.inl (h.done x hx hr hx)
  have hno : ∀ x < n, (tile x).1 ≠ .slab := by
    intro x hx hs
    rcases howner x hx with ho | ho <;> rw [hs] at ho <;> cases ho
  refine ⟨h.inv, ?_, ?_, ?_, ?_, ?_, List.nodup_nil⟩
  · intro x hx
    rcases howner x hx with ho | ho <;> simp [ho]
  · intro x hx
    by_cases hr : Reserved rgns x
    · rw [h.reserved x hx hr]; simp [hr]
    · rw [h.done x hx hr hx]; simp [hr]
  · intro p
    simp only [List.not_mem_nil, false_iff]
    rintro ⟨hp, hs⟩
    exact hno p hp hs
  · intro p hp hs
    exact absurd hs (hno p hp)
  · intro b
    simp only [List.not_mem_nil, false_iff]
    rintro ⟨hb, hbt⟩
    by_cases hr : Reserved rgns b.start
    · rw [h.reserved _ hb hr] at hbt; cases hbt
    · have := h.done _ hb hr hb
      rw [hbt] at this; cases this

theorem boot_ok {n : ℕ} (hn : 512 ∣ n) (rgns : List Region) :
    ∃ σ tile, System.boot rgns n = .ok σ ∧ RunInv n rgns [] σ tile := by
  obtain ⟨s, tile, hrun, h⟩ := buddyInit_spec hn rgns (fun _ => Page.zero)
    (fun x _ => by simp [Page.zero])
  exact ⟨⟨s, []⟩, tile, by simp only [System.boot, hrun]; rfl, h.runInv⟩

theorem onlyBuddy_initPage {s s' : MmState} {i : ℕ} (h : initPage s i = .ok s') :
    OnlyBuddy s s' ∨ OnlyBuddy (s.setFlags i PG_AVAIL) s' := by
  unfold initPage at h
  split_ifs at h
  · rw [← Except.ok.inj h]
    exact Or.inl (OnlyBuddy.refl s)
  · exact Or.inr (onlyBuddy_freeLoop _ _ _ _ h)

/-- The flags of the pages after `buddy_init`. -/
theorem boot_flags {rgns : List Region} {n : ℕ} {σ : System} (h : System.boot rgns n = .ok σ)
    (x : ℕ) : (σ.mm.memMap x).flags ∈ [0, PG_RESERVED, PG_AVAIL, PG_buddy] := by
  obtain ⟨mm, hinit, h⟩ := bind_eq_ok.mp h
  obtain rfl := Except.ok.inj h
  have hstep : ∀ i ∈ List.range n, ∀ s s' : MmState,
      (∀ x, (s.memMap x).flags ∈ [0, PG_RESERVED, PG_AVAIL, PG_buddy]) → initPage s i = .ok s' →
        ∀ x, (s'.memMap x).flags ∈ [0, PG_RESERVED, PG_AVAIL, PG_buddy] := by
    intro i _ s s' hs hinit x
    rcases onlyBuddy_initPage hinit with hb | hb
    · rcases hb x with he | he
      · rw [he]; exact hs x
      · simp [he]
    · rcases hb x with he | he
      · rw [he]
        show (Function.update s.memMap i _ x).flags ∈ _
        by_cases hx : x = i
        · subst hx; simp
        · rw [Function.update_of_ne hx]; exact hs x
      · simp [he]
  refine foldlM_keep hstep hinit (fun x => ?_) x
  rw [(markReserved_spec rgns _).2 x]
  split_ifs <;> simp [buddyFreeAreaInit, MmState.boot, Page.zero]

/-- Every run from boot comes back, in a state that a tiling describes. -/
theorem boot_run_ok {n : ℕ} (hn : 512 ∣ n) (rgns : List Region) (ops : List Op) :
    ∃ σ₀ σ tile, System.boot rgns n = .ok σ₀ ∧ σ₀.run ops = .ok σ ∧ RunInv n rgns [] σ tile := by
  obtain ⟨σ₀, tile₀, hboot, h₀⟩ := boot_ok hn rgns
  obtain ⟨σ, tile, hrun, h⟩ := run_ok h₀ ops
  exact ⟨σ₀, σ, tile, hboot, hrun, h⟩

/-! ## The partition -/

/-- The blocks on the free lists. -/
def freeBlocks (s : MmState) : List Block :=
  (List.range maxOrder).flatMap fun k => (s.freeArea k).freeList.map fun p => ⟨p, k⟩

theorem mem_freeBlocks {s : MmState} {b : Block} :
    b ∈ freeBlocks s ↔ b.order < maxOrder ∧ b.start ∈ (s.freeArea b.order).freeList := by
  simp only [freeBlocks, List.mem_flatMap, List.mem_range, List.mem_map]
  constructor
  · rintro ⟨k, hk, p, hp, rfl⟩; exact ⟨hk, hp⟩
  · rintro ⟨hk, hp⟩; exact ⟨b.order, hk, b.start, hp, rfl⟩

/-- The free and the live blocks. -/
def System.blocks (σ : System) : List Block := freeBlocks σ.mm ++ σ.live

/-- The free blocks, the live blocks and the reserved pages partition the page frames, and the free
    lists, the marks of their pages and the counters agree. -/
structure Partition (nrPages : ℕ) (rgns : List Region) (σ : System) : Prop where
  head : ∀ k < maxOrder, ∀ p ∈ (σ.mm.freeArea k).freeList,
    2 ^ k ∣ p ∧ (σ.mm.memMap p).flags = PG_buddy ∧ (σ.mm.memMap p).priv = k
  disjoint : σ.blocks.Pairwise fun b c => ∀ x ∈ b, x ∉ c
  unreserved : ∀ b ∈ σ.blocks, ∀ x ∈ b, ¬ Reserved rgns x
  cover : ∀ x, (∃ b ∈ σ.blocks, x ∈ b) ∨ (x < nrPages ∧ Reserved rgns x) ↔ x < nrPages
  count : ∀ k < maxOrder, (σ.mm.freeArea k).nrFree = (σ.mm.freeArea k).freeList.length

section Partition

variable {n : ℕ} {rgns : List Region} {σ : System} {tile : Tiles}

theorem RunInv.mem_blocks_iff (h : RunInv n rgns [] σ tile) {b : Block} :
    b ∈ σ.blocks ↔ b.start < n ∧ (tile b.start = (.free, b) ∨ tile b.start = (.used, b)) := by
  rw [System.blocks, List.mem_append, mem_freeBlocks, h.live]
  constructor
  · rintro (⟨hk, hb⟩ | ⟨hb, hbt⟩)
    · obtain ⟨hbn, hf⟩ := (h.inv.free_iff _ hk _).mp hb
      exact ⟨hbn, Or.inl hf⟩
    · exact ⟨hb, Or.inr hbt⟩
  · rintro ⟨hb, hbt | hbt⟩
    · have hk : b.order < maxOrder := by have := h.inv.order_lt _ hb; rwa [hbt] at this
      exact Or.inl ⟨hk, (h.inv.free_iff _ hk _).mpr ⟨hb, hbt⟩⟩
    · exact Or.inr ⟨hb, hbt⟩

/-- A point of a free or live block has that block as its tile. -/
theorem RunInv.tile_of_mem_blocks (h : RunInv n rgns [] σ tile) {b : Block} (hb : b ∈ σ.blocks) {x : ℕ}
    (hx : x ∈ b) : x < n ∧ (tile x).2 = b ∧ ((tile x).1 = .free ∨ (tile x).1 = .used) := by
  obtain ⟨hbn, hbt | hbt⟩ := h.mem_blocks_iff.mp hb <;>
  · obtain ⟨hxn, hxt⟩ := h.inv.tiling.tile_eq_of_mem hbn hbt hx
    exact ⟨hxn, by rw [hxt], by rw [hxt]; simp⟩

theorem RunInv.freeBlocks_nodup (h : RunInv n rgns [] σ tile) : (freeBlocks σ.mm).Nodup := by
  rw [freeBlocks, List.nodup_flatMap]
  refine ⟨?_, ?_⟩
  · intro k hk
    exact (h.inv.nodup k (List.mem_range.mp hk)).map (fun p q hpq => by simpa using hpq)
  · refine List.nodup_range.imp ?_
    intro j k hjk b hb hb'
    simp only [List.mem_map] at hb hb'
    obtain ⟨p, -, rfl⟩ := hb
    obtain ⟨q, -, hq⟩ := hb'
    simp only [Block.mk.injEq] at hq
    exact hjk hq.2.symm

theorem RunInv.blocks_nodup (h : RunInv n rgns [] σ tile) : σ.blocks.Nodup := by
  refine List.nodup_append.mpr ⟨h.freeBlocks_nodup, h.nodup, ?_⟩
  rintro b hb c hc rfl
  obtain ⟨hk, hb⟩ := mem_freeBlocks.mp hb
  have h1 := ((h.inv.free_iff _ hk _).mp hb).2
  have h2 := ((h.live b).mp hc).2
  rw [Tiles.Free, h2] at h1
  cases h1

theorem RunInv.partition (h : RunInv n rgns [] σ tile) : Partition n rgns σ := by
  refine ⟨?_, ?_, ?_, ?_, h.inv.count⟩
  · intro k hk p hp
    obtain ⟨hpn, hf⟩ := (h.inv.free_iff k hk p).mp hp
    exact ⟨h.inv.tiling.aligned_of_tile (b := ⟨p, k⟩) hpn hf, h.inv.mark p hpn .free k hf⟩
  · refine h.blocks_nodup.pairwise_of_forall_ne ?_
    intro b hb c hc hne x hxb hxc
    exact hne ((h.tile_of_mem_blocks hb hxb).2.1.symm.trans (h.tile_of_mem_blocks hc hxc).2.1)
  · intro b hb x hx hr
    obtain ⟨hxn, -, ho⟩ := h.tile_of_mem_blocks hb hx
    rw [(h.reserved x hxn).mpr hr] at ho
    rcases ho with ho | ho <;> cases ho
  · intro x
    constructor
    · rintro (⟨b, hb, hx⟩ | ⟨hx, -⟩)
      · exact (h.tile_of_mem_blocks hb hx).1
      · exact hx
    · intro hx
      by_cases hr : Reserved rgns x
      · exact Or.inr ⟨hx, hr⟩
      · refine Or.inl ⟨(tile x).2, ?_, h.inv.tiling.mem x hx⟩
        rw [h.mem_blocks_iff, h.inv.tiling.tile_start hx]
        refine ⟨h.inv.tiling.start_lt hx, ?_⟩
        rcases h.owner x hx with ho | ho | ho | ho
        · exact Or.inl (Prod.ext ho rfl)
        · exact Or.inr (Prod.ext ho rfl)
        · exact absurd ((h.reserved x hx).mp ho) hr
        · exact absurd ((h.slab x).mpr ⟨hx, ho⟩) List.not_mem_nil

end Partition

/-- **Partition invariant.** For every `nr_pages` that is a multiple of 512, every list of reserved
    regions and every sequence of calls, `buddy_init` and all the calls come back, and the state
    they leave is a partition of the page frames. -/
theorem run_partition (nrPages : ℕ) (hn : 512 ∣ nrPages) (rgns : List Region) (ops : List Op) :
    ∃ σ₀ σ, System.boot rgns nrPages = .ok σ₀ ∧ σ₀.run ops = .ok σ ∧ Partition nrPages rgns σ := by
  obtain ⟨σ₀, σ, tile, hboot, hrun, h⟩ := boot_run_ok hn rgns ops
  exact ⟨σ₀, σ, hboot, hrun, h.partition⟩

theorem run_partition_512 : ∃ σ₀ σ, System.boot [⟨0, 0x80000⟩] 512 = .ok σ₀ ∧
    σ₀.run [.alloc 3, .alloc 0, .free 1, .alloc 12, .free 0] = .ok σ ∧
    Partition 512 [⟨0, 0x80000⟩] σ :=
  run_partition 512 (by decide) [⟨0, 0x80000⟩] [.alloc 3, .alloc 0, .free 1, .alloc 12, .free 0]

/-! ## Maximal coalescing -/

/-- Page `x` is neither reserved nor part of a live block. -/
def System.FreePage (nrPages : ℕ) (rgns : List Region) (σ : System) (x : ℕ) : Prop :=
  x < nrPages ∧ ¬ Reserved rgns x ∧ ∀ b ∈ σ.live, x ∉ b

/-- `b` is an aligned run of free pages. -/
def System.FreeRun (nrPages : ℕ) (rgns : List Region) (σ : System) (b : Block) : Prop :=
  b.Aligned ∧ ∀ x ∈ b, σ.FreePage nrPages rgns x

/-- Nothing is left to merge, and the free lists say so. -/
structure Coalesced (nrPages : ℕ) (rgns : List Region) (σ : System) : Prop where
  buddies : ∀ k < maxOrder - 1, ∀ p ∈ (σ.mm.freeArea k).freeList,
    p ^^^ 2 ^ k ∉ (σ.mm.freeArea k).freeList
  /-- The free lists hold exactly the maximal aligned runs of free pages. -/
  maximal : ∀ k < maxOrder, ∀ p, p ∈ (σ.mm.freeArea k).freeList ↔
    σ.FreeRun nrPages rgns ⟨p, k⟩ ∧
      ∀ c : Block, k < c.order → c.order < maxOrder → p ∈ c → ¬ σ.FreeRun nrPages rgns c
  complete : ∀ k < maxOrder, (∃ s', allocPages σ.mm k = .ok (none, s')) ↔
    ¬ ∃ b : Block, b.order = k ∧ σ.FreeRun nrPages rgns b

section Coalesced

variable {n : ℕ} {rgns : List Region} {σ : System} {tile : Tiles}

theorem RunInv.freePage_iff (h : RunInv n rgns [] σ tile) {x : ℕ} :
    σ.FreePage n rgns x ↔ x < n ∧ (tile x).1 = .free := by
  constructor
  · rintro ⟨hx, hr, hl⟩
    refine ⟨hx, ?_⟩
    rcases h.owner x hx with ho | ho | ho | ho
    · exact ho
    · exfalso
      refine hl (tile x).2 ((h.live _).mpr ⟨h.inv.tiling.start_lt hx, ?_⟩) (h.inv.tiling.mem x hx)
      rw [h.inv.tiling.tile_start hx]
      exact Prod.ext ho rfl
    · exact absurd ((h.reserved x hx).mp ho) hr
    · exact absurd ((h.slab x).mpr ⟨hx, ho⟩) List.not_mem_nil
  · rintro ⟨hx, ho⟩
    refine ⟨hx, fun hr => ?_, fun b hb hxb => ?_⟩
    · rw [(h.reserved x hx).mpr hr] at ho; cases ho
    · obtain ⟨hbn, hbt⟩ := (h.live b).mp hb
      rw [(h.inv.tiling.tile_eq_of_mem hbn hbt hxb).2] at ho; cases ho

/-- An aligned run of free pages lies inside one free block. -/
theorem RunInv.order_le_of_freeRun (h : RunInv n rgns [] σ tile) {b : Block} (ho : b.order < maxOrder)
    (hb : σ.FreeRun n rgns b) : b.order ≤ (tile b.start).2.order := by
  refine h.inv.tiling.order_le_of_run (t := .free) (K := maxOrder - 1) ?_ b hb.1 (by omega)
    fun x hx => h.freePage_iff.mp (hb.2 x hx)
  intro c hc hc' hk ht
  exact h.inv.coalesced c.start hc c.order hk hc' ht

/-- A free block is an aligned run of free pages. -/
theorem RunInv.freeRun_of_free (h : RunInv n rgns [] σ tile) {b : Block} (hb : b.start < n)
    (ht : tile b.start = (.free, b)) : σ.FreeRun n rgns b := by
  refine ⟨h.inv.tiling.aligned_of_tile hb ht, fun x hx => h.freePage_iff.mpr ?_⟩
  obtain ⟨hxn, hxt⟩ := h.inv.tiling.tile_eq_of_mem hb ht hx
  exact ⟨hxn, by rw [hxt]⟩

/-- The tile at a free page is a free block. -/
theorem RunInv.mem_freeList_of_freePage (h : RunInv n rgns [] σ tile) {x : ℕ}
    (hx : σ.FreePage n rgns x) :
    (tile x).2.order < maxOrder ∧ (tile x).2.start ∈ (σ.mm.freeArea (tile x).2.order).freeList ∧
      (tile x).2.start < n ∧ tile (tile x).2.start = (.free, (tile x).2) := by
  obtain ⟨hxn, hfree⟩ := h.freePage_iff.mp hx
  have hk := h.inv.order_lt x hxn
  have hs := h.inv.tiling.start_lt hxn
  have ht : tile (tile x).2.start = (.free, (tile x).2) := by
    rw [h.inv.tiling.tile_start hxn]; exact Prod.ext hfree rfl
  exact ⟨hk, (h.inv.free_iff _ hk _).mpr ⟨hs, ht⟩, hs, ht⟩

/-- The free lists hold exactly the maximal aligned runs of free pages. -/
theorem RunInv.mem_freeList_iff_maximal (h : RunInv n rgns [] σ tile) {k : ℕ} (hk : k < maxOrder)
    (p : ℕ) : p ∈ (σ.mm.freeArea k).freeList ↔
      σ.FreeRun n rgns ⟨p, k⟩ ∧
        ∀ c : Block, k < c.order → c.order < maxOrder → p ∈ c → ¬ σ.FreeRun n rgns c := by
  rw [h.inv.free_iff k hk p]
  constructor
  · rintro ⟨hp, ht⟩
    refine ⟨h.freeRun_of_free (b := ⟨p, k⟩) hp ht, fun c hkc hc hpc hrun => ?_⟩
    -- a longer run around `p` would lie in the tile of `p`, which has order `k`
    have hcs := h.freePage_iff.mp (hrun.2 _ c.start_mem)
    have hle := h.order_le_of_freeRun hc hrun
    have hpt : p ∈ (tile c.start).2 := Block.subset_of_mem hrun.1 (h.inv.tiling.aligned _ hcs.1) hle
      c.start_mem (h.inv.tiling.mem _ hcs.1) hpc
    have := h.inv.tiling.same _ hcs.1 p hpt
    rw [← this, ht] at hle
    simp only at hle
    omega
  · rintro ⟨hrun, hmax⟩
    have hp := hrun.2 p (Block.start_mem ⟨p, k⟩)
    obtain ⟨hord, -, hs, ht⟩ := h.mem_freeList_of_freePage hp
    have hle := h.order_le_of_freeRun (b := ⟨p, k⟩) hk hrun
    have hpm := h.inv.tiling.mem p hp.1
    have heq : (tile p).2.order = k := by
      by_contra hne
      exact hmax (tile p).2 (by simp only at hle; omega) hord hpm (h.freeRun_of_free hs ht)
    have hb : (tile p).2 = ⟨p, k⟩ := Block.eq_of_mem (h.inv.tiling.aligned p hp.1) hrun.1 heq hpm
      (Block.start_mem ⟨p, k⟩)
    exact ⟨hp.1, Prod.ext (h.freePage_iff.mp hp).2 hb⟩

/-- An allocation fails exactly when there is no aligned run of free pages of its order. -/
theorem RunInv.allocPages_none_iff (h : RunInv n rgns [] σ tile) {k : ℕ} (hk : k < maxOrder) :
    (∃ s', allocPages σ.mm k = .ok (none, s')) ↔ ¬ ∃ b : Block, b.order = k ∧ σ.FreeRun n rgns b := by
  rcases allocPages_spec h.inv k with ⟨hrun, hall⟩ | ⟨page, s', tile', hrun, h', ht⟩
  · refine ⟨fun _ => ?_, fun _ => ⟨_, hrun⟩⟩
    rintro ⟨b, rfl, hb⟩
    obtain ⟨hord, hmem, -, -⟩ := h.mem_freeList_of_freePage (hb.2 _ b.start_mem)
    rw [hall _ (h.order_le_of_freeRun hk hb) hord] at hmem
    cases hmem
  · rw [hrun]
    refine ⟨fun ⟨_, he⟩ => (by cases he), fun hno => ?_⟩
    refine absurd ⟨⟨page, k⟩, rfl, h'.tiling.aligned_of_tile ht.lt ht.used, fun x hx => ?_⟩ hno
    exact h.freePage_iff.mpr
      ⟨(h'.tiling.tile_eq_of_mem ht.lt ht.used hx).1, ht.was_free x hx⟩

theorem RunInv.coalesced (h : RunInv n rgns [] σ tile) : Coalesced n rgns σ := by
  refine ⟨?_, fun k hk p => h.mem_freeList_iff_maximal hk p, fun k hk => h.allocPages_none_iff hk⟩
  intro k hk p hp hb
  have hbud : p ^^^ 2 ^ k = findBuddyPfn p k := by rw [findBuddyPfn, Nat.one_shiftLeft]
  rw [hbud] at hb
  obtain ⟨hpn, hf⟩ := (h.inv.free_iff k (by omega) p).mp hp
  obtain ⟨hbn, hbf⟩ := (h.inv.free_iff k (by omega) _).mp hb
  exact h.inv.coalesced p hpn k hk hbn hf hbf

end Coalesced

/-- **Maximal coalescing and completeness.** In every state of a run, two buddies of an order below
    `MAX_ORDER - 1` are never both on a free list, the free lists hold exactly the maximal aligned
    runs of free pages (of order below `MAX_ORDER`), and `__alloc_pages(k)` returns NULL if and only
    if there is no aligned run of `2 ^ k` free pages. -/
theorem run_coalesced (nrPages : ℕ) (hn : 512 ∣ nrPages) (rgns : List Region) (ops : List Op) :
    ∃ σ₀ σ, System.boot rgns nrPages = .ok σ₀ ∧ σ₀.run ops = .ok σ ∧ Coalesced nrPages rgns σ := by
  obtain ⟨σ₀, σ, tile, hboot, hrun, h⟩ := boot_run_ok hn rgns ops
  exact ⟨σ₀, σ, hboot, hrun, h.coalesced⟩

theorem run_coalesced_1024 : ∃ σ₀ σ, System.boot [⟨0x1000, 0x2345⟩] 1024 = .ok σ₀ ∧
    σ₀.run [.alloc 2, .alloc 9, .free 0] = .ok σ ∧ Coalesced 1024 [⟨0x1000, 0x2345⟩] σ :=
  run_coalesced 1024 (by decide) [⟨0x1000, 0x2345⟩] [.alloc 2, .alloc 9, .free 0]

end RaspiKernel.Mm
