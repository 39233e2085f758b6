import RaspiKernel.Lib.Run
import RaspiKernel.Mm.Buddy

/-!
# The buddy system keeps a tiling of the page frames

`BuddyInv n s tile` says that the page frames `[0, n)` are tiled by aligned
blocks, each with an owner, that the tiles owned by the free lists are exactly
the entries of `free_area`, and that the first page of every tile carries the
mark of its owner. Nothing is said about the pages inside a tile: splitting and
merging leave stale `PG_buddy`, `PG_USED` and `private` values there.
`Tiling.buddy_tile` is the reason this is enough: `page_is_buddy` looks at the
buddy of a tile, and the buddy of a tile is never inside another tile.

The operations of `mm.c` decompose into four moves on the tiling, each with its
own lemma: take a block off a free list (`BuddyInv.del`), put one on a free
list (`BuddyInv.add`), join two buddies (`BuddyInv.join`) and cut a block in
halves (`BuddyInv.split`). A block in between has the owner `Owner.hand`.

Results:
* `freeOnePage'_spec`: freeing a block that is on no free list succeeds.
* `allocPages_spec`: what an allocation returns and changes.
* `onlyBuddy_freeLoop`, `rmqueueLoop_flags`: the flags that the calls write.
-/

namespace RaspiKernel.Mm

open Lib

/-! ## Owners and the invariant -/

/-- Who owns a block of page frames. -/
inductive Owner where
  /-- A free list. -/
  | free
  /-- A caller of `__alloc_pages`. -/
  | used
  /-- The slab allocator. -/
  | slab
  /-- Nobody: `PG_RESERVED`. -/
  | reserved
  /-- A page that `page_frame_init` has not reached yet. -/
  | pending
  /-- The block a running `__free_one_page` or `__rmqueue_smallest` works on. -/
  | hand
  deriving DecidableEq, Repr

/-- What the first page of a block of order `k` looks like. -/
def Owner.Mark : Owner → Page → ℕ → Prop
  | .free, page, k => page.flags = PG_buddy ∧ page.priv = k
  | .used, page, k => page.flags = PG_USED ∧ page.priv = k
  | .slab, page, _ => page.flags = PG_slab
  | .reserved, page, _ => page.flags = PG_RESERVED
  | .pending, page, _ => page.flags ≠ PG_buddy ∧ page.flags ≠ PG_RESERVED
  | .hand, _, _ => True

/-- The owner and the extent of the block of every page frame. -/
abbrev Tiles := ℕ → Owner × Block

/-- The block of order `k` at `p` is on a free list. -/
def Tiles.Free (tile : Tiles) (p k : ℕ) : Prop := tile p = (.free, ⟨p, k⟩)

/-- The state `s` represents the tiling `tile` of the page frames `[0, n)`. -/
structure BuddyInv (n : ℕ) (s : MmState) (tile : Tiles) : Prop where
  dvd : 2 ^ (maxOrder - 1) ∣ n
  tiling : Tiling n tile
  order_lt : ∀ x < n, (tile x).2.order < maxOrder
  free_iff : ∀ k < maxOrder, ∀ p, p ∈ (s.freeArea k).freeList ↔ p < n ∧ tile.Free p k
  nodup : ∀ k < maxOrder, (s.freeArea k).freeList.Nodup
  count : ∀ k < maxOrder, (s.freeArea k).nrFree = (s.freeArea k).freeList.length
  mark : ∀ x < n, ∀ t k, tile x = (t, ⟨x, k⟩) → t.Mark (s.memMap x) k
  /-- Two buddies are never both free. -/
  coalesced : ∀ p < n, ∀ k < maxOrder - 1, findBuddyPfn p k < n → tile.Free p k →
    ¬ tile.Free (findBuddyPfn p k) k

/-! ## Frame lemmas of the updates -/

@[simp] theorem setPage_freeArea (s : MmState) (i : ℕ) (page : Page) :
    (s.setPage i page).freeArea = s.freeArea := rfl

@[simp] theorem setPage_memMap (s : MmState) (i : ℕ) (page : Page) :
    (s.setPage i page).memMap = Function.update s.memMap i page := rfl

@[simp] theorem addToFreeArea_memMap (s : MmState) (page order : ℕ) :
    (addToFreeArea s page order).memMap = s.memMap := rfl

@[simp] theorem addToFreeArea_freeArea (s : MmState) (page order : ℕ) :
    (addToFreeArea s page order).freeArea = Function.update s.freeArea order
      ⟨(s.freeArea order).freeList ++ [page], (s.freeArea order).nrFree + 1⟩ := rfl

theorem setBuddyOrder_eq (s : MmState) (page order : ℕ) :
    setBuddyOrder s page order =
      s.setPage page { s.memMap page with flags := PG_buddy, priv := order } := by
  simp [setBuddyOrder, setPageBuddy, setPageOrder, MmState.setFlags, MmState.setPage]

/-! ## The moves -/

section Moves

variable {n : ℕ} {s : MmState} {tile : Tiles}

/-- A change of the tiling that touches no free block, together with a change of `mem_map` that
    agrees with it. -/
theorem BuddyInv.of_free_iff (h : BuddyInv n s tile) {s' : MmState} {tile' : Tiles}
    (htiling : Tiling n tile') (horder : ∀ x < n, (tile' x).2.order < maxOrder)
    (harea : s'.freeArea = s.freeArea)
    (hfree : ∀ p < n, ∀ k, tile'.Free p k ↔ tile.Free p k)
    (hmark : ∀ x < n, ∀ t k, tile' x = (t, ⟨x, k⟩) → t.Mark (s'.memMap x) k) :
    BuddyInv n s' tile' := by
  refine ⟨h.dvd, htiling, horder, ?_, ?_, ?_, hmark, ?_⟩
  · intro k hk p
    rw [harea, h.free_iff k hk p]
    constructor
    · rintro ⟨hp, hf⟩; exact ⟨hp, (hfree p hp k).mpr hf⟩
    · rintro ⟨hp, hf⟩; exact ⟨hp, (hfree p hp k).mp hf⟩
  · intro k hk; rw [harea]; exact h.nodup k hk
  · intro k hk; rw [harea]; exact h.count k hk
  · intro p hp k hk hbn hf hb
    exact h.coalesced p hp k hk hbn ((hfree p hp k).mp hf) ((hfree _ hbn k).mp hb)

theorem recolor_free_iff (h : Tiling n tile) {t t' : Owner} {b : Block} (hb : b.start < n)
    (ht : tile b.start = (t, b)) (htf : t ≠ .free) (htf' : t' ≠ .free) {p k : ℕ} :
    Tiles.Free (Tiling.recolor tile t' b) p k ↔ tile.Free p k := by
  unfold Tiles.Free
  by_cases hp : p ∈ b
  · rw [Tiling.recolor_of_mem hp, (h.tile_eq_of_mem hb ht hp).2]
    simp [htf, htf']
  · rw [Tiling.recolor_of_not_mem hp]

/-- Hand a tile that is on no free list to another owner. -/
theorem BuddyInv.retag (h : BuddyInv n s tile) {t : Owner} (t' : Owner) {b : Block}
    (hb : b.start < n) (ht : tile b.start = (t, b)) (htf : t ≠ .free) (htf' : t' ≠ .free)
    (page : Page) (hmark : t'.Mark page b.order) :
    BuddyInv n (s.setPage b.start page) (Tiling.recolor tile t' b) := by
  refine h.of_free_iff (h.tiling.retag t' hb ht) ?_ rfl
    (fun p _ k => recolor_free_iff h.tiling hb ht htf htf') ?_
  · intro x hx
    by_cases hxb : x ∈ b
    · rw [Tiling.recolor_of_mem hxb]
      have := h.order_lt _ hb; rwa [ht] at this
    · rw [Tiling.recolor_of_not_mem hxb]; exact h.order_lt x hx
  · intro x hx u k hu
    by_cases hxb : x ∈ b
    · rw [Tiling.recolor_of_mem hxb] at hu
      obtain ⟨rfl, rfl⟩ : t' = u ∧ b = ⟨x, k⟩ := by simpa using hu
      simpa using hmark
    · rw [Tiling.recolor_of_not_mem hxb] at hu
      have hne : x ≠ b.start := by rintro rfl; exact hxb b.start_mem
      simpa [Function.update_of_ne hne] using h.mark x hx u k hu

/-- The running operation picks up a tile that is on no free list. -/
theorem BuddyInv.pick (h : BuddyInv n s tile) {t : Owner} {b : Block} (hb : b.start < n)
    (ht : tile b.start = (t, b)) (htf : t ≠ .free) :
    BuddyInv n s (Tiling.recolor tile .hand b) := by
  have := h.retag .hand hb ht htf (by simp) (s.memMap b.start) trivial
  simpa [MmState.setPage] using this

/-- Two buddies in hand are one block in hand. -/
theorem BuddyInv.join (h : BuddyInv n s tile) {b : Block} (hb : b.start < n)
    (ht : tile b.start = (.hand, b)) (hb' : b.buddy.start < n)
    (ht' : tile b.buddy.start = (.hand, b.buddy)) (ho : b.order + 1 < maxOrder) :
    BuddyInv n s (Tiling.recolor tile .hand b.parent) := by
  have ha := h.tiling.aligned_of_tile hb ht
  have hhand : ∀ x ∈ b.parent, (tile x).1 = .hand := by
    intro x hx
    rcases (Block.mem_parent_iff ha).mp hx with hx | hx
    · rw [(h.tiling.tile_eq_of_mem hb ht hx).2]
    · rw [(h.tiling.tile_eq_of_mem hb' ht' hx).2]
  refine h.of_free_iff (h.tiling.join .hand hb ht hb' ht') ?_ rfl ?_ ?_
  · intro x hx
    by_cases hxb : x ∈ b.parent
    · rw [Tiling.recolor_of_mem hxb]; exact ho
    · rw [Tiling.recolor_of_not_mem hxb]; exact h.order_lt x hx
  · intro p _ k
    unfold Tiles.Free
    by_cases hp : p ∈ b.parent
    · have hne : tile p ≠ (.free, ⟨p, k⟩) := by
        intro he; have := hhand p hp; rw [he] at this; cases this
      rw [Tiling.recolor_of_mem hp]; simp [hne]
    · rw [Tiling.recolor_of_not_mem hp]
  · intro x hx u k hu
    by_cases hxb : x ∈ b.parent
    · rw [Tiling.recolor_of_mem hxb] at hu
      obtain ⟨rfl, -⟩ : Owner.hand = u ∧ b.parent = ⟨x, k⟩ := by simpa using hu
      trivial
    · rw [Tiling.recolor_of_not_mem hxb] at hu
      exact h.mark x hx u k hu

/-- A block in hand is cut in halves. -/
theorem BuddyInv.split (h : BuddyInv n s tile) {b : Block} (ho : 0 < b.order) (hb : b.start < n)
    (ht : tile b.start = (.hand, b)) :
    BuddyInv n s (Tiling.recolor (Tiling.recolor tile .hand b.left) .hand b.right) := by
  have hhalf : ∀ x ∈ b, ∃ c : Block, c.order < maxOrder ∧
      Tiling.recolor (Tiling.recolor tile .hand b.left) .hand b.right x = (.hand, c) := by
    have hord : b.order < maxOrder := by have := h.order_lt _ hb; rwa [ht] at this
    intro x hx
    by_cases hr : x ∈ b.right
    · exact ⟨b.right, by simp only [Block.right]; omega, Tiling.recolor_of_mem hr⟩
    · have hl := ((Block.mem_halves ho).mp hx).resolve_right hr
      exact ⟨b.left, by simp only [Block.left]; omega,
        by rw [Tiling.recolor_of_not_mem hr, Tiling.recolor_of_mem hl]⟩
  have hout : ∀ x, x ∉ b →
      Tiling.recolor (Tiling.recolor tile .hand b.left) .hand b.right x = tile x := by
    intro x hx
    rw [Block.mem_halves ho] at hx
    rw [Tiling.recolor_of_not_mem (by tauto), Tiling.recolor_of_not_mem (by tauto)]
  refine h.of_free_iff (h.tiling.split .hand .hand ho hb ht) ?_ rfl ?_ ?_
  · intro x hx
    by_cases hxb : x ∈ b
    · obtain ⟨c, hc, he⟩ := hhalf x hxb; rw [he]; exact hc
    · rw [hout x hxb]; exact h.order_lt x hx
  · intro p _ k
    unfold Tiles.Free
    by_cases hp : p ∈ b
    · obtain ⟨c, -, he⟩ := hhalf p hp
      rw [he, (h.tiling.tile_eq_of_mem hb ht hp).2]
      simp
    · rw [hout p hp]
  · intro x hx u k hu
    by_cases hxb : x ∈ b
    · obtain ⟨c, -, he⟩ := hhalf x hxb
      rw [he] at hu
      obtain ⟨rfl, -⟩ : Owner.hand = u ∧ c = ⟨x, k⟩ := by simpa using hu
      trivial
    · rw [hout x hxb] at hu; exact h.mark x hx u k hu

theorem findBuddyPfn_invol (p k : ℕ) : findBuddyPfn (findBuddyPfn p k) k = p := by
  simp [findBuddyPfn]

theorem recolor_hand_free_iff (h : Tiling n tile) {p k : ℕ} (hp : p < n) (ht : tile.Free p k)
    {q j : ℕ} : Tiles.Free (Tiling.recolor tile .hand ⟨p, k⟩) q j ↔
      tile.Free q j ∧ ¬ (q = p ∧ j = k) := by
  unfold Tiles.Free at ht ⊢
  by_cases hq : q ∈ (⟨p, k⟩ : Block)
  · rw [Tiling.recolor_of_mem hq, (h.tile_eq_of_mem (b := ⟨p, k⟩) hp ht hq).2]
    simp only [Prod.mk.injEq, reduceCtorEq, false_and, true_and, Block.mk.injEq, false_iff]
    omega
  · rw [Tiling.recolor_of_not_mem hq]
    have hne : q ≠ p := by rintro rfl; exact hq (Block.start_mem ⟨q, k⟩)
    simp [hne]

/-- `del_page_from_free_area` on a page of the list: the block is in hand. -/
theorem BuddyInv.del (h : BuddyInv n s tile) {p k : ℕ} (hk : k < maxOrder)
    (hp : p ∈ (s.freeArea k).freeList) :
    ∃ s', delPageFromFreeArea s p k = .ok s' ∧ s'.memMap = s.memMap ∧
      BuddyInv n s' (Tiling.recolor tile .hand ⟨p, k⟩) := by
  obtain ⟨hpn, hfree⟩ := (h.free_iff k hk p).mp hp
  have hiff := fun q j => recolor_hand_free_iff h.tiling hpn hfree (q := q) (j := j)
  refine ⟨_, if_pos hp, rfl, h.dvd, h.tiling.retag .hand (b := ⟨p, k⟩) hpn hfree,
    ?_, ?_, ?_, ?_, ?_, ?_⟩
  · intro x hx
    by_cases hxb : x ∈ (⟨p, k⟩ : Block)
    · rw [Tiling.recolor_of_mem hxb]; exact hk
    · rw [Tiling.recolor_of_not_mem hxb]; exact h.order_lt x hx
  · intro j hj q
    rw [hiff]
    by_cases hjk : j = k
    · subst hjk
      simp only [Function.update_self, (h.nodup j hk).mem_erase_iff, h.free_iff j hk q]
      tauto
    · simp only [Function.update_of_ne hjk, h.free_iff j hj q]
      tauto
  · intro j hj
    by_cases hjk : j = k
    · subst hjk; simpa using (h.nodup j hk).erase p
    · simpa [Function.update_of_ne hjk] using h.nodup j hj
  · intro j hj
    by_cases hjk : j = k
    · subst hjk
      have hlen := List.length_pos_of_mem hp
      simp only [Function.update_self, h.count j hk, List.length_erase_of_mem hp]
      omega
    · simpa [Function.update_of_ne hjk] using h.count j hj
  · intro x hx u j hu
    by_cases hxb : x ∈ (⟨p, k⟩ : Block)
    · rw [Tiling.recolor_of_mem hxb] at hu
      obtain ⟨rfl, -⟩ : Owner.hand = u ∧ (⟨p, k⟩ : Block) = ⟨x, j⟩ := by
        simpa only [Prod.mk.injEq] using hu
      trivial
    · rw [Tiling.recolor_of_not_mem hxb] at hu
      exact h.mark x hx u j hu
  · intro q hq j hj hbn hf hb
    exact h.coalesced q hq j hj hbn ((hiff q j).mp hf).1 ((hiff _ j).mp hb).1

theorem recolor_free_free_iff (h : Tiling n tile) {p k : ℕ} (hp : p < n)
    (ht : tile p = (.hand, ⟨p, k⟩)) {q j : ℕ} :
    Tiles.Free (Tiling.recolor tile .free ⟨p, k⟩) q j ↔ tile.Free q j ∨ (q = p ∧ j = k) := by
  unfold Tiles.Free
  by_cases hq : q ∈ (⟨p, k⟩ : Block)
  · rw [Tiling.recolor_of_mem hq, (h.tile_eq_of_mem (b := ⟨p, k⟩) hp ht hq).2]
    simp only [Prod.mk.injEq, reduceCtorEq, false_and, true_and, Block.mk.injEq, false_or]
    omega
  · rw [Tiling.recolor_of_not_mem hq]
    have hne : q ≠ p := by rintro rfl; exact hq (Block.start_mem ⟨q, k⟩)
    simp [hne]

/-- `set_buddy_order` and `add_to_free_area` on a block in hand whose buddy is not free. -/
theorem BuddyInv.add (h : BuddyInv n s tile) {p k : ℕ} (hp : p < n)
    (ht : tile p = (.hand, ⟨p, k⟩))
    (hbud : k < maxOrder - 1 → findBuddyPfn p k < n → ¬ tile.Free (findBuddyPfn p k) k) :
    BuddyInv n (addToFreeArea (setBuddyOrder s p k) p k) (Tiling.recolor tile .free ⟨p, k⟩) := by
  have hk : k < maxOrder := by have := h.order_lt p hp; rwa [ht] at this
  have hiff := fun q j => recolor_free_free_iff h.tiling hp ht (q := q) (j := j)
  have hnot : p ∉ (s.freeArea k).freeList := by
    rw [h.free_iff k hk]
    rintro ⟨-, hf⟩
    rw [Tiles.Free, ht] at hf
    cases hf
  rw [setBuddyOrder_eq]
  refine ⟨h.dvd, h.tiling.retag .free (b := ⟨p, k⟩) hp ht, ?_, ?_, ?_, ?_, ?_, ?_⟩
  · intro x hx
    by_cases hxb : x ∈ (⟨p, k⟩ : Block)
    · rw [Tiling.recolor_of_mem hxb]; exact hk
    · rw [Tiling.recolor_of_not_mem hxb]; exact h.order_lt x hx
  · intro j hj q
    rw [hiff]
    by_cases hjk : j = k
    · subst hjk
      simp only [addToFreeArea_freeArea, setPage_freeArea, Function.update_self, List.mem_append,
        List.mem_singleton, h.free_iff j hk q]
      constructor
      · rintro (⟨hq, hf⟩ | rfl)
        · exact ⟨hq, Or.inl hf⟩
        · exact ⟨hp, Or.inr ⟨rfl, trivial⟩⟩
      · rintro ⟨hq, hf | ⟨rfl, -⟩⟩
        · exact Or.inl ⟨hq, hf⟩
        · exact Or.inr rfl
    · simp only [addToFreeArea_freeArea, setPage_freeArea, Function.update_of_ne hjk,
        h.free_iff j hj q]
      tauto
  · intro j hj
    by_cases hjk : j = k
    · subst hjk
      simpa [List.nodup_append, h.nodup j hk] using fun a ha (he : a = p) => hnot (he ▸ ha)
    · simpa [Function.update_of_ne hjk] using h.nodup j hj
  · intro j hj
    by_cases hjk : j = k
    · subst hjk; simp [h.count j hk]
    · simpa [Function.update_of_ne hjk] using h.count j hj
  · intro x hx u j hu
    by_cases hxb : x ∈ (⟨p, k⟩ : Block)
    · rw [Tiling.recolor_of_mem hxb] at hu
      obtain ⟨rfl, rfl, rfl⟩ : Owner.free = u ∧ p = x ∧ k = j := by
        simpa only [Prod.mk.injEq, Block.mk.injEq] using hu
      simp [Owner.Mark]
    · rw [Tiling.recolor_of_not_mem hxb] at hu
      have hne : x ≠ p := by rintro rfl; exact hxb (Block.start_mem ⟨x, k⟩)
      simpa [Function.update_of_ne hne] using h.mark x hx u j hu
  · intro q hq j hj hbn hf hb
    rw [hiff] at hf hb
    rcases hf with hf | ⟨rfl, rfl⟩
    · rcases hb with hb | ⟨hqp, rfl⟩
      · exact h.coalesced q hq j hj hbn hf hb
      · have he : findBuddyPfn p j = q := by rw [← hqp, findBuddyPfn_invol]
        exact hbud hj (by rw [he]; exact hq) (by rw [he]; exact hf)
    · rcases hb with hb | ⟨hqp, -⟩
      · exact hbud hj hbn hb
      · have hself := Block.not_mem_buddy (h.tiling.aligned_of_tile (b := ⟨q, j⟩) hp ht)
          (Block.start_mem ⟨q, j⟩)
        apply hself
        show q ∈ (⟨findBuddyPfn q j, j⟩ : Block)
        rw [hqp]
        exact Block.start_mem ⟨q, j⟩

/-- `page_is_buddy` on the buddy of a block in hand says whether that buddy is free. -/
theorem BuddyInv.pageIsBuddy_iff (h : BuddyInv n s tile) {p k : ℕ} (hk : k < maxOrder - 1)
    (hp : p < n) (ht : tile p = (.hand, ⟨p, k⟩))
    (hone : ∀ x < n, (tile x).1 = .hand → x ∈ (⟨p, k⟩ : Block)) :
    findBuddyPfn p k < n ∧
      (pageIsBuddy (s.memMap (findBuddyPfn p k)) k = true ↔ tile.Free (findBuddyPfn p k) k) := by
  have hdvd : 2 ^ (k + 1) ∣ n := (pow_dvd_pow 2 (by omega)).trans h.dvd
  obtain ⟨hbn, hstart, -⟩ := h.tiling.buddy_tile (b := ⟨p, k⟩) hp ht hdvd
  change findBuddyPfn p k < n at hbn
  refine ⟨hbn, ?_⟩
  set q := findBuddyPfn p k with hq
  obtain ⟨t, j, hqt⟩ : ∃ t j, tile q = (t, ⟨q, j⟩) :=
    ⟨(tile q).1, (tile q).2.order, Prod.ext rfl (Block.ext hstart rfl)⟩
  have hm := h.mark q hbn t j hqt
  simp only [pageIsBuddy, Bool.and_eq_true, beq_iff_eq, Tiles.Free, hqt]
  constructor
  · rintro ⟨hfl, hpr⟩
    cases t with
    | free => rw [← hpr, hm.2]
    | hand =>
      have hqb : q ∈ (⟨p, k⟩ : Block) := hone q hbn (by rw [hqt])
      exact absurd (Block.start_mem ⟨q, k⟩)
        (Block.not_mem_buddy (h.tiling.aligned_of_tile (b := ⟨p, k⟩) hp ht) hqb)
    | used => rw [hm.1] at hfl; cases hfl
    | slab => rw [show (s.memMap q).flags = PG_slab from hm] at hfl; cases hfl
    | reserved => rw [show (s.memMap q).flags = PG_RESERVED from hm] at hfl; cases hfl
    | pending => exact absurd hfl hm.1
  · intro he
    obtain ⟨rfl, rfl⟩ : t = .free ∧ j = k := by simpa using he
    exact hm

end Moves

/-! ## Freeing -/

/-- What `__free_one_page` does to the owners: the block `b` goes to the free lists, together with
    what was there before. Other blocks and their first pages are left alone. -/
structure Released (n : ℕ) (s : MmState) (tile : Tiles) (s' : MmState) (tile' : Tiles) (b : Block) :
    Prop where
  free : ∀ x < n, x ∈ b ∨ (tile x).1 = .free → (tile' x).1 = .free
  frame : ∀ x < n, x ∉ b → (tile x).1 ≠ .free → tile' x = tile x ∧ s'.memMap x = s.memMap x

/-- The end of `__free_one_page`: the block in hand goes to its free list. -/
theorem released_add {n : ℕ} {s : MmState} {tile : Tiles} {p k : ℕ} :
    Released n s tile (addToFreeArea (setBuddyOrder s p k) p k)
      (Tiling.recolor tile .free ⟨p, k⟩) ⟨p, k⟩ := by
  refine ⟨?_, ?_⟩
  · intro x _ hx
    by_cases hxb : x ∈ (⟨p, k⟩ : Block)
    · rw [Tiling.recolor_of_mem hxb]
    · rw [Tiling.recolor_of_not_mem hxb]; exact hx.resolve_left hxb
  · intro x _ hxb _
    have hne : x ≠ p := by rintro rfl; exact hxb (Block.start_mem ⟨x, k⟩)
    refine ⟨Tiling.recolor_of_not_mem hxb, ?_⟩
    simp [setBuddyOrder_eq, Function.update_of_ne hne]

/-- A round of the merging loop: the free buddy of the block in hand is taken off its list, and the
    two are one block in hand. -/
structure Merged (n : ℕ) (s : MmState) (tile : Tiles) (s' : MmState) (tile' : Tiles) (p k : ℕ) :
    Prop where
  inv : BuddyInv n s' tile'
  memMap : s'.memMap = s.memMap
  lt : findBuddyPfn p k &&& p < n
  mem_iff : ∀ x, x ∈ (⟨findBuddyPfn p k &&& p, k + 1⟩ : Block) ↔
    x ∈ (⟨p, k⟩ : Block) ∨ x ∈ (⟨findBuddyPfn p k, k⟩ : Block)
  tile_eq : ∀ x, tile' x = if x ∈ (⟨findBuddyPfn p k &&& p, k + 1⟩ : Block) then
    (.hand, ⟨findBuddyPfn p k &&& p, k + 1⟩) else tile x

theorem BuddyInv.merge {n : ℕ} {s : MmState} {tile : Tiles} (h : BuddyInv n s tile) {p k : ℕ}
    (hk : k < maxOrder - 1) (hp : p < n) (ht : tile p = (.hand, ⟨p, k⟩))
    (hbn : findBuddyPfn p k < n) (hfree : tile.Free (findBuddyPfn p k) k) :
    ∃ s' tile', delPageFromFreeArea s (findBuddyPfn p k) k = .ok s' ∧
      Merged n s tile s' tile' p k := by
  set q := findBuddyPfn p k with hq
  have ha := h.tiling.aligned_of_tile (b := ⟨p, k⟩) hp ht
  have hmem : q ∈ (s.freeArea k).freeList := (h.free_iff k (by omega) q).mpr ⟨hbn, hfree⟩
  obtain ⟨s₁, hdel, hmm, h₁⟩ := h.del (by omega) hmem
  have hpq : p ∉ (⟨q, k⟩ : Block) := Block.not_mem_buddy ha (Block.start_mem ⟨p, k⟩)
  have ht₁ : Tiling.recolor tile .hand ⟨q, k⟩ p = (.hand, ⟨p, k⟩) := by
    rw [Tiling.recolor_of_not_mem hpq, ht]
  have h₂ := h₁.join (b := ⟨p, k⟩) hp ht₁ hbn (Tiling.recolor_start Owner.hand ⟨q, k⟩)
    (show k + 1 < maxOrder by omega)
  have hpar : (⟨p, k⟩ : Block).parent = ⟨q &&& p, k + 1⟩ := rfl
  rw [hpar] at h₂
  have hmp : ∀ x, x ∈ (⟨q &&& p, k + 1⟩ : Block) ↔ x ∈ (⟨p, k⟩ : Block) ∨ x ∈ (⟨q, k⟩ : Block) :=
    fun x => Block.mem_parent_iff ha
  refine ⟨s₁, _, hdel, h₂, hmm, ?_, hmp, ?_⟩
  · exact h₂.tiling.lt p hp _ (by
      rw [Tiling.recolor_of_mem ((hmp p).mpr (Or.inl (Block.start_mem ⟨p, k⟩)))]
      exact Block.start_mem ⟨q &&& p, k + 1⟩)
  · intro x
    rw [← hq]
    by_cases hx : x ∈ (⟨q &&& p, k + 1⟩ : Block)
    · rw [Tiling.recolor_of_mem hx, if_pos hx]
    · rw [Tiling.recolor_of_not_mem hx, if_neg hx,
        Tiling.recolor_of_not_mem fun hxq => hx ((hmp x).mpr (Or.inr hxq))]

section Merged

variable {n p k : ℕ} {s s' : MmState} {tile tile' : Tiles}

theorem Merged.head (h : Merged n s tile s' tile' p k) :
    tile' (findBuddyPfn p k &&& p) = (.hand, ⟨findBuddyPfn p k &&& p, k + 1⟩) := by
  rw [h.tile_eq, if_pos (Block.start_mem ⟨_, k + 1⟩)]

/-- The merged block is the only one in hand. -/
theorem Merged.one (h : Merged n s tile s' tile' p k)
    (hone : ∀ x < n, (tile x).1 = .hand → x ∈ (⟨p, k⟩ : Block)) :
    ∀ x < n, (tile' x).1 = .hand → x ∈ (⟨findBuddyPfn p k &&& p, k + 1⟩ : Block) := by
  intro x hx hh
  by_contra hxm
  rw [h.tile_eq, if_neg hxm] at hh
  exact hxm ((h.mem_iff x).mpr (Or.inl (hone x hx hh)))

end Merged

/-- The merging loop of `__free_one_page`: by induction on the number of orders left, with the
    block in hand growing to the parent in each round. -/
theorem freeLoop_spec {n : ℕ} : ∀ (rem : ℕ) (s : MmState) (tile : Tiles) (p k : ℕ),
    rem + k = maxOrder - 1 → BuddyInv n s tile → p < n → tile p = (.hand, ⟨p, k⟩) →
    (∀ x < n, (tile x).1 = .hand → x ∈ (⟨p, k⟩ : Block)) →
    ∃ s' tile', freeLoop rem s p p k = .ok s' ∧ BuddyInv n s' tile' ∧
      Released n s tile s' tile' ⟨p, k⟩ := by
  intro rem
  induction rem with
  | zero =>
    intro s tile p k hrem h hp ht hone
    exact ⟨_, _, rfl, h.add hp ht (fun hk => by omega), released_add⟩
  | succ rem ih =>
    intro s tile p k hrem h hp ht hone
    have hk : k < maxOrder - 1 := by omega
    obtain ⟨hbn, hbud⟩ := h.pageIsBuddy_iff hk hp ht hone
    set q := findBuddyPfn p k with hq
    have hidx : p + q - p = q := by omega
    by_cases hfree : tile.Free q k
    · -- the buddy is free: take it off its list and continue with the parent
      obtain ⟨s₁, tile₁, hdel, hm⟩ := h.merge hk hp ht hbn hfree
      rw [← hq] at hdel
      obtain ⟨s', tile', hrun, h', hrel⟩ := ih s₁ tile₁ (q &&& p) (k + 1) (by omega) hm.inv hm.lt
        hm.head (hm.one hone)
      refine ⟨s', tile', ?_, h', ?_, ?_⟩
      · simp only [freeLoop, findBuddyPagePfn, ← hq, hidx, hbud.mpr hfree, if_true, hdel]
        rw [show p + (q &&& p) - p = q &&& p by omega]
        exact hrun
      · intro x hx hor
        refine hrel.free x hx ?_
        by_cases hxp : x ∈ (⟨q &&& p, k + 1⟩ : Block)
        · exact Or.inl hxp
        · right
          rw [hm.tile_eq, if_neg hxp]
          exact hor.resolve_left fun hxb => hxp ((hm.mem_iff x).mpr (Or.inl hxb))
      · intro x hx hxb hnf
        have hxp : x ∉ (⟨q &&& p, k + 1⟩ : Block) := by
          intro hxp
          rcases (hm.mem_iff x).mp hxp with hx' | hx'
          · exact hxb hx'
          · rw [(h.tiling.tile_eq_of_mem (b := ⟨q, k⟩) hbn hfree hx').2] at hnf
            exact hnf rfl
        have := hrel.frame x hx hxp (by rw [hm.tile_eq, if_neg hxp]; exact hnf)
        rw [hm.tile_eq, if_neg hxp, hm.memMap] at this
        exact this
    · -- no free buddy: the block is maximal
      refine ⟨_, _, ?_, h.add hp ht (fun _ _ => hfree), released_add⟩
      have hno : pageIsBuddy (s.memMap q) k = false := by
        rw [← Bool.not_eq_true, hbud]; exact hfree
      simp [freeLoop, findBuddyPagePfn, ← hq, hidx, hno]

/-- No block is in hand: the state between two calls. -/
def Idle (n : ℕ) (tile : Tiles) : Prop := ∀ x < n, (tile x).1 ≠ .hand

/-- `__free_one_page` on a block that is on no free list. -/
theorem freeOnePage'_spec {n : ℕ} {s : MmState} {tile : Tiles} (h : BuddyInv n s tile)
    (hidle : Idle n tile) {t : Owner} {p k : ℕ} (hp : p < n) (ht : tile p = (t, ⟨p, k⟩))
    (htf : t ≠ .free) :
    ∃ s' tile', freeOnePage' s p p k = .ok s' ∧ BuddyInv n s' tile' ∧
      Released n s tile s' tile' ⟨p, k⟩ := by
  have hk : k < maxOrder := by have := h.order_lt p hp; rwa [ht] at this
  have hpick := h.pick (b := ⟨p, k⟩) hp ht htf
  obtain ⟨s', tile', hrun, h', hrel⟩ := freeLoop_spec (maxOrder - 1 - k) s _ p k (by omega) hpick hp
    (Tiling.recolor_start Owner.hand ⟨p, k⟩) (by
      intro x hx hh
      by_contra hxb
      rw [Tiling.recolor_of_not_mem hxb] at hh
      exact hidle x hx hh)
  refine ⟨s', tile', hrun, h', ?_, ?_⟩
  · intro x hx hor
    refine hrel.free x hx ?_
    by_cases hxb : x ∈ (⟨p, k⟩ : Block)
    · exact Or.inl hxb
    · right; rw [Tiling.recolor_of_not_mem hxb]; exact hor.resolve_left hxb
  · intro x hx hxb hnf
    have := hrel.frame x hx hxb (by rw [Tiling.recolor_of_not_mem hxb]; exact hnf)
    rwa [Tiling.recolor_of_not_mem hxb] at this

/-! ## Allocating -/

/-- `expand` from order `high` down to `low`: the block in hand shrinks to `⟨p, low⟩`, the rest of
    it goes to the free lists. -/
structure Expanded (n : ℕ) (s : MmState) (tile : Tiles) (s' : MmState) (tile' : Tiles)
    (p low high : ℕ) : Prop where
  head : tile' p = (.hand, ⟨p, low⟩)
  rest : ∀ x < n, x ∈ (⟨p, high⟩ : Block) → x ∉ (⟨p, low⟩ : Block) → (tile' x).1 = .free
  frame : ∀ x < n, x ∉ (⟨p, high⟩ : Block) → tile' x = tile x ∧ s'.memMap x = s.memMap x

/-- One round of `expand`: the upper half of the block in hand goes to its free list. -/
theorem BuddyInv.cut {n : ℕ} {s : MmState} {tile : Tiles} (h : BuddyInv n s tile) {p k : ℕ}
    (hp : p < n) (ht : tile p = (.hand, ⟨p, k + 1⟩)) :
    ∃ tile', BuddyInv n (addToFreeArea (setBuddyOrder s (p + 2 ^ k) k) (p + 2 ^ k) k) tile' ∧
      tile' p = (.hand, ⟨p, k⟩) ∧
      (∀ x ∈ (⟨p + 2 ^ k, k⟩ : Block), (tile' x).1 = .free) ∧
      ∀ x, x ∉ (⟨p, k + 1⟩ : Block) → tile' x = tile x := by
  have ha := h.tiling.aligned_of_tile (b := ⟨p, k + 1⟩) hp ht
  have hpos : 0 < (⟨p, k + 1⟩ : Block).order := Nat.succ_pos k
  have hpr : p ∉ (⟨p + 2 ^ k, k⟩ : Block) :=
    Block.not_mem_right_of_mem_left (b := ⟨p, k + 1⟩) (Block.start_mem ⟨p, k⟩)
  have h₁ : BuddyInv n s (Tiling.recolor (Tiling.recolor tile .hand ⟨p, k⟩) .hand ⟨p + 2 ^ k, k⟩) :=
    h.split (b := ⟨p, k + 1⟩) hpos hp ht
  have hright : Tiling.recolor (Tiling.recolor tile .hand ⟨p, k⟩) .hand ⟨p + 2 ^ k, k⟩ (p + 2 ^ k) =
      (.hand, ⟨p + 2 ^ k, k⟩) := Tiling.recolor_start Owner.hand ⟨p + 2 ^ k, k⟩
  have hleft : Tiling.recolor (Tiling.recolor tile .hand ⟨p, k⟩) .hand ⟨p + 2 ^ k, k⟩ p =
      (.hand, ⟨p, k⟩) := by
    rw [Tiling.recolor_of_not_mem hpr]
    exact Tiling.recolor_start Owner.hand ⟨p, k⟩
  have hrn : p + 2 ^ k < n := h.tiling.lt p hp _ (by
    rw [ht]
    exact (Block.mem_halves hpos).mpr (Or.inr (Block.start_mem _)))
  have hbud : findBuddyPfn (p + 2 ^ k) k = p := congrArg Block.start (Block.buddy_right ha hpos)
  have h₂ := h₁.add hrn hright (by
    intro _ _ hf
    rw [hbud] at hf
    exact absurd (hleft.symm.trans hf) (by simp))
  refine ⟨_, h₂, ?_, ?_, ?_⟩
  · rw [Tiling.recolor_of_not_mem hpr]; exact hleft
  · intro x hx; rw [Tiling.recolor_of_mem hx]
  · intro x hx
    have hl : x ∉ (⟨p, k⟩ : Block) := fun hl => hx ((Block.mem_halves hpos).mpr (Or.inl hl))
    have hr : x ∉ (⟨p + 2 ^ k, k⟩ : Block) := fun hr => hx ((Block.mem_halves hpos).mpr (Or.inr hr))
    rw [Tiling.recolor_of_not_mem hr, Tiling.recolor_of_not_mem hr, Tiling.recolor_of_not_mem hl]

theorem expandLoop_spec {n p low : ℕ} : ∀ (high : ℕ) (s : MmState) (tile : Tiles),
    low ≤ high → BuddyInv n s tile → p < n → tile p = (.hand, ⟨p, high⟩) →
    ∃ tile', BuddyInv n (expandLoop p low high (2 ^ high) s) tile' ∧
      Expanded n s tile (expandLoop p low high (2 ^ high) s) tile' p low high := by
  intro high
  induction high with
  | zero =>
    intro s tile hle h hp ht
    obtain rfl : low = 0 := by omega
    exact ⟨tile, h, ht, fun x _ h1 h2 => absurd h1 h2, fun x _ _ => ⟨rfl, rfl⟩⟩
  | succ k ih =>
    intro s tile hle h hp ht
    by_cases hlow : low = k + 1
    · subst hlow
      refine ⟨tile, ?_⟩
      simp only [expandLoop, gt_iff_lt, lt_irrefl, if_false]
      exact ⟨h, ht, fun x _ h1 h2 => absurd h1 h2, fun x _ _ => ⟨rfl, rfl⟩⟩
    · obtain ⟨tile₁, h₁, hhead, hrest, hframe⟩ := h.cut hp ht
      obtain ⟨tile', h', hexp⟩ := ih _ tile₁ (by omega) h₁ hp hhead
      have hstep : expandLoop p low (k + 1) (2 ^ (k + 1)) s = expandLoop p low k (2 ^ k)
          (addToFreeArea (setBuddyOrder s (p + 2 ^ k) k) (p + 2 ^ k) k) := by
        rw [expandLoop, if_pos (by omega), show 2 ^ (k + 1) >>> 1 = 2 ^ k by
          rw [Nat.shiftRight_one, pow_succ]; omega]
      have hhalves : ∀ x, x ∈ (⟨p, k + 1⟩ : Block) ↔
          x ∈ (⟨p, k⟩ : Block) ∨ x ∈ (⟨p + 2 ^ k, k⟩ : Block) := fun x =>
        Block.mem_halves (b := ⟨p, k + 1⟩) (Nat.succ_pos k)
      refine ⟨tile', by rw [hstep]; exact h', hexp.head, ?_, ?_⟩
      · intro x hx hx1 hx0
        rcases (hhalves x).mp hx1 with hl | hr
        · exact hexp.rest x hx hl hx0
        · have hl : x ∉ (⟨p, k⟩ : Block) := fun hl =>
            Block.not_mem_right_of_mem_left (b := ⟨p, k + 1⟩) hl hr
          rw [(hexp.frame x hx hl).1]
          exact hrest x hr
      · intro x hx hx1
        have hl : x ∉ (⟨p, k⟩ : Block) := fun hl => hx1 ((hhalves x).mpr (Or.inl hl))
        have hne : x ≠ p + 2 ^ k := by
          rintro rfl; exact hx1 ((hhalves _).mpr (Or.inr (Block.start_mem ⟨_, k⟩)))
        obtain ⟨e1, e2⟩ := hexp.frame x hx hl
        rw [hstep, e1, e2, hframe x hx1]
        exact ⟨rfl, by simp [setBuddyOrder_eq, Function.update_of_ne hne]⟩

theorem expand_spec {n p low high : ℕ} {s : MmState} {tile : Tiles} (hle : low ≤ high)
    (h : BuddyInv n s tile) (hp : p < n) (ht : tile p = (.hand, ⟨p, high⟩)) :
    ∃ tile', BuddyInv n (expand s p low high) tile' ∧
      Expanded n s tile (expand s p low high) tile' p low high := by
  unfold expand
  by_cases heq : low = high
  · subst heq
    simp only [if_true]
    exact ⟨tile, h, ht, fun x _ h1 h2 => absurd h1 h2, fun x _ _ => ⟨rfl, rfl⟩⟩
  · simp only [heq, if_false, Nat.one_shiftLeft]
    exact expandLoop_spec high s tile hle h hp ht

/-- What a successful allocation does to the owners: the block `b` was free and is used now, the
    rest of the free pages stays free, everything else is left alone. -/
structure Taken (n : ℕ) (s : MmState) (tile : Tiles) (s' : MmState) (tile' : Tiles) (b : Block) :
    Prop where
  lt : b.start < n
  used : tile' b.start = (.used, b)
  was_free : ∀ x ∈ b, (tile x).1 = .free
  free : ∀ x < n, x ∉ b → (tile x).1 = .free → (tile' x).1 = .free
  frame : ∀ x < n, (tile x).1 ≠ .free → tile' x = tile x ∧ s'.memMap x = s.memMap x

/-- The body of the `for` loop of `__rmqueue_smallest` when `free_area[cur]` has a page. -/
theorem take_spec {n order cur : ℕ} {s : MmState} {tile : Tiles} (h : BuddyInv n s tile) (page : ℕ)
    (hcur : cur < maxOrder) (hle : order ≤ cur) (hpage : page ∈ (s.freeArea cur).freeList) :
    ∃ s₁ s' tile', delPageFromFreeArea s page cur = .ok s₁ ∧
      s' = (setPageOrder (expand s₁ page order cur) page order).setFlags page PG_USED ∧
      BuddyInv n s' tile' ∧ Taken n s tile s' tile' ⟨page, order⟩ := by
  obtain ⟨hpn, hfree⟩ := (h.free_iff cur hcur page).mp hpage
  obtain ⟨s₁, hdel, hmm, h₁⟩ := h.del hcur hpage
  obtain ⟨tile₂, h₂, hexp⟩ := expand_spec hle h₁ hpn (Tiling.recolor_start Owner.hand ⟨page, cur⟩)
  set s₂ := expand s₁ page order cur with hs₂
  have h₃ := h₂.retag .used (b := ⟨page, order⟩) hpn hexp.head (by simp) (by simp)
    { s₂.memMap page with flags := PG_USED, priv := order } ⟨rfl, rfl⟩
  refine ⟨s₁, _, Tiling.recolor tile₂ .used ⟨page, order⟩, hdel, rfl, ?_, hpn,
    Tiling.recolor_start _ _, ?_, ?_, ?_⟩
  · convert h₃ using 1
    rw [← hs₂]
    simp [setPageOrder, MmState.setFlags, MmState.setPage]
  · intro x hx
    have hsub : x ∈ (⟨page, cur⟩ : Block) := Block.subset_of_mem
      (h₂.tiling.aligned_of_tile (b := ⟨page, order⟩) hpn hexp.head)
      (h.tiling.aligned_of_tile (b := ⟨page, cur⟩) hpn hfree) hle
      (Block.start_mem ⟨page, order⟩) (Block.start_mem ⟨page, cur⟩) hx
    rw [(h.tiling.tile_eq_of_mem (b := ⟨page, cur⟩) hpn hfree hsub).2]
  · intro x hx hxb hxf
    rw [Tiling.recolor_of_not_mem hxb]
    by_cases hxc : x ∈ (⟨page, cur⟩ : Block)
    · exact hexp.rest x hx hxc hxb
    · rw [(hexp.frame x hx hxc).1, Tiling.recolor_of_not_mem hxc, hxf]
  · intro x hx hxf
    have hxc : x ∉ (⟨page, cur⟩ : Block) := by
      intro hxc
      rw [(h.tiling.tile_eq_of_mem (b := ⟨page, cur⟩) hpn hfree hxc).2] at hxf
      exact hxf rfl
    have hne : x ≠ page := by rintro rfl; exact hxc (Block.start_mem ⟨x, cur⟩)
    have hxb : x ∉ (⟨page, order⟩ : Block) := by
      intro hxb
      exact hxc (Block.subset_of_mem (h₂.tiling.aligned_of_tile (b := ⟨page, order⟩) hpn hexp.head)
        (h.tiling.aligned_of_tile (b := ⟨page, cur⟩) hpn hfree) hle
        (Block.start_mem ⟨page, order⟩) (Block.start_mem ⟨page, cur⟩) hxb)
    obtain ⟨e1, e2⟩ := hexp.frame x hx hxc
    rw [Tiling.recolor_of_not_mem hxb, e1, Tiling.recolor_of_not_mem hxc]
    refine ⟨rfl, ?_⟩
    simp only [setPageOrder, MmState.setFlags, setPage_memMap, Function.update_of_ne hne]
    rw [e2, hmm]

theorem rmqueueLoop_spec {n order : ℕ} {s : MmState} {tile : Tiles} (h : BuddyInv n s tile) :
    ∀ rem cur, rem + cur = maxOrder → order ≤ cur →
      (rmqueueLoop order rem cur s = .ok (none, s) ∧
        ∀ k, cur ≤ k → k < maxOrder → (s.freeArea k).freeList = []) ∨
      ∃ page s' tile', rmqueueLoop order rem cur s = .ok (some page, s') ∧
        BuddyInv n s' tile' ∧ Taken n s tile s' tile' ⟨page, order⟩ := by
  intro rem
  induction rem with
  | zero => intro cur hrem _; exact Or.inl ⟨rfl, fun k h1 h2 => by omega⟩
  | succ rem ih =>
    intro cur hrem hle
    cases hl : (s.freeArea cur).freeList with
    | nil =>
      have hget : getPageFromFreeArea (s.freeArea cur) = none := by
        rw [getPageFromFreeArea, hl]; rfl
      have hstep : rmqueueLoop order (rem + 1) cur s = rmqueueLoop order rem (cur + 1) s := by
        rw [rmqueueLoop, hget]
      rcases ih (cur + 1) (by omega) (by omega) with ⟨hrun, hall⟩ | hsome
      · refine Or.inl ⟨by rw [hstep]; exact hrun, fun k h1 h2 => ?_⟩
        rcases Nat.eq_or_lt_of_le h1 with rfl | h1
        · exact hl
        · exact hall k h1 h2
      · rw [hstep]; exact Or.inr hsome
    | cons page l =>
      have hget : getPageFromFreeArea (s.freeArea cur) = some page := by
        rw [getPageFromFreeArea, hl]; rfl
      obtain ⟨s₁, s', tile', hdel, hs', h', htaken⟩ :=
        take_spec h page (by omega) hle (by rw [hl]; exact List.mem_cons_self)
      refine Or.inr ⟨page, s', tile', ?_, h', htaken⟩
      rw [rmqueueLoop, hget, hs']
      simp only [hdel]
      rfl

/-- `__alloc_pages(order)` either finds every free list from `order` on empty and changes nothing,
    or returns a block of the free pages. -/
theorem allocPages_spec {n : ℕ} {s : MmState} {tile : Tiles} (h : BuddyInv n s tile) (order : ℕ) :
    (allocPages s order = .ok (none, s) ∧
      ∀ k, order ≤ k → k < maxOrder → (s.freeArea k).freeList = []) ∨
    ∃ page s' tile', allocPages s order = .ok (some page, s') ∧ BuddyInv n s' tile' ∧
      Taken n s tile s' tile' ⟨page, order⟩ := by
  by_cases ho : order ≤ maxOrder
  · exact rmqueueLoop_spec h (maxOrder - order) order (by omega) le_rfl
  · refine Or.inl ⟨?_, fun k h1 h2 => by omega⟩
    have h0 : maxOrder - order = 0 := by omega
    simp only [allocPages, rmqueue, rmqueueSmallest, h0, rmqueueLoop]

/-! ## The flags that the calls write -/

/-- The only flags that have been written are `PG_buddy`. -/
def OnlyBuddy (s s' : MmState) : Prop :=
  ∀ x, (s'.memMap x).flags = (s.memMap x).flags ∨ (s'.memMap x).flags = PG_buddy

theorem OnlyBuddy.refl (s : MmState) : OnlyBuddy s s := fun _ => Or.inl rfl

theorem OnlyBuddy.trans {s s' s'' : MmState} (h : OnlyBuddy s s') (h' : OnlyBuddy s' s'') :
    OnlyBuddy s s'' := by
  intro x
  rcases h' x with hx | hx
  · rw [hx]
    exact h x
  · exact Or.inr hx

/-- A page with other flags had them before. -/
theorem OnlyBuddy.flags {s s' : MmState} (h : OnlyBuddy s s') {x f : ℕ} (hf : f ≠ PG_buddy)
    (hx : (s'.memMap x).flags = f) : (s.memMap x).flags = f := by
  rcases h x with he | he
  · rw [← he, hx]
  · exact absurd (hx.symm.trans he) hf

theorem onlyBuddy_add (s : MmState) (page order : ℕ) :
    OnlyBuddy s (addToFreeArea (setBuddyOrder s page order) page order) := by
  intro x
  rw [addToFreeArea_memMap, setBuddyOrder_eq, setPage_memMap]
  by_cases hx : x = page
  · subst hx
    rw [Function.update_self]
    exact Or.inr rfl
  · rw [Function.update_of_ne hx]
    exact Or.inl rfl

theorem delPage_memMap {s s' : MmState} {page order : ℕ}
    (h : delPageFromFreeArea s page order = .ok s') : s'.memMap = s.memMap := by
  simp only [delPageFromFreeArea] at h
  split_ifs at h
  rw [← Except.ok.inj h]

theorem onlyBuddy_del {s s' : MmState} {page order : ℕ}
    (h : delPageFromFreeArea s page order = .ok s') : OnlyBuddy s s' :=
  fun x => Or.inl (by rw [delPage_memMap h])

theorem onlyBuddy_freeLoop {s s' : MmState} (rem page pfn order : ℕ)
    (h : freeLoop rem s page pfn order = .ok s') : OnlyBuddy s s' := by
  induction rem generalizing s page pfn order with
  | zero =>
    obtain rfl := Except.ok.inj h
    exact onlyBuddy_add s page order
  | succ rem ih =>
    rw [freeLoop] at h
    split at h
    · obtain rfl := Except.ok.inj h
      exact onlyBuddy_add s page order
    · obtain ⟨s₁, hdel, h⟩ := bind_eq_ok.mp h
      exact (onlyBuddy_del hdel).trans (ih _ _ _ h)

theorem onlyBuddy_expandLoop (page low high size : ℕ) (s : MmState) :
    OnlyBuddy s (expandLoop page low high size s) := by
  induction high generalizing size s with
  | zero => exact OnlyBuddy.refl s
  | succ high ih =>
    rw [expandLoop]
    split_ifs
    · exact (onlyBuddy_add s _ _).trans (ih _ _)
    · exact OnlyBuddy.refl s

theorem onlyBuddy_expand (s : MmState) (page low high : ℕ) :
    OnlyBuddy s (expand s page low high) := by
  unfold expand
  dsimp only
  split_ifs
  · exact OnlyBuddy.refl s
  · exact onlyBuddy_expandLoop page low high _ s

/-- An allocation writes `PG_USED` into the page it returns, and else `PG_buddy` only. -/
theorem rmqueueLoop_flags {order : ℕ} {s s' : MmState} {r : Option ℕ} (rem cur : ℕ)
    (h : rmqueueLoop order rem cur s = .ok (r, s')) :
    ∃ s₁, OnlyBuddy s s₁ ∧ ∀ x, (r ≠ some x ∧ (s'.memMap x).flags = (s₁.memMap x).flags) ∨
      (r = some x ∧ (s'.memMap x).flags = PG_USED) := by
  induction rem generalizing cur with
  | zero =>
    obtain ⟨rfl, rfl⟩ := Prod.mk.inj (Except.ok.inj h)
    exact ⟨s, OnlyBuddy.refl s, fun x => Or.inl ⟨by simp, rfl⟩⟩
  | succ rem ih =>
    rw [rmqueueLoop] at h
    cases hpage : getPageFromFreeArea (s.freeArea cur) with
    | none =>
      rw [hpage] at h
      exact ih _ h
    | some page =>
      rw [hpage] at h
      obtain ⟨s₁, hdel, h⟩ := bind_eq_ok.mp h
      obtain ⟨rfl, rfl⟩ := Prod.mk.inj (Except.ok.inj h)
      refine ⟨_, (onlyBuddy_del hdel).trans (onlyBuddy_expand s₁ page order cur), fun x => ?_⟩
      by_cases hx : x = page
      · subst hx
        exact Or.inr ⟨rfl, by simp [MmState.setFlags]⟩
      · left
        refine ⟨fun he => hx (Option.some.inj he).symm, ?_⟩
        simp [MmState.setFlags, setPageOrder, Function.update_of_ne hx]

end RaspiKernel.Mm
