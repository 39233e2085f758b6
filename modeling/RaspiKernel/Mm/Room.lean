import RaspiKernel.Mm.Owned

/-!
# When `kmalloc` has memory left

A request for `2 ^ k` pages needs an aligned run of free pages. There is one as long
as fewer pages are taken than there are runs, wherever they lie.

Results:
* `HeapInv.exists_gives`: a request is given as long as there is room.
* `Gives.used_le`: what a request takes.
* `HeapInv.exists_tables`: any number of requests for one page.
-/

namespace RaspiKernel.Mm

open Lib
open Memblock (Region)

/-- The number of pages that are not reserved and not free. -/
def Kernel.used (κ : Kernel) : ℕ :=
  (κ.sys.live.map fun b => 2 ^ b.order).sum + (slabPages κ.caches).toFinset.card

/-- The pages of the live blocks. -/
def livePages (live : List Block) : List ℕ := live.flatMap fun b => List.range' b.start (2 ^ b.order)

section

variable {n nullPfn : ℕ} {rgns : List Region} {κ κ' κp : Kernel} {tile : Tiles} {b : Span}

theorem mem_livePages {live : List Block} {x : ℕ} : x ∈ livePages live ↔ ∃ b ∈ live, x ∈ b := by
  simp [livePages, Block.mem_def]

theorem length_livePages (live : List Block) :
    (livePages live).length = (live.map fun b => 2 ^ b.order).sum := by
  simp [livePages, List.length_flatMap]

theorem mem_flatMap_pfns {x : ℕ} : x ∈ rgns.flatMap pfns ↔ Reserved rgns x := by
  simp [Reserved]

/-- A page that is in no list is free. -/
theorem HeapInv.free_of_not_mem (h : HeapInv n rgns κ κp tile) {x : ℕ} (hx : x < n)
    (hres : x ∉ rgns.flatMap pfns) (hlive : x ∉ livePages κ.sys.live)
    (hslab : x ∉ slabPages κ.caches) : (tile x).1 = .free := by
  have hxp : x < padPages n := hx.trans (lt_padPages n)
  rcases h.inv.run.owner x hxp with ho | ho | ho | ho
  · exact ho
  · refine absurd ?_ hlive
    rw [mem_livePages, ← h.padded.sys.live]
    refine ⟨_, (h.inv.run.live _).mpr ⟨h.inv.run.inv.tiling.start_lt hxp, ?_⟩,
      h.inv.run.inv.tiling.mem x hxp⟩
    rw [h.inv.run.inv.tiling.tile_start hxp]
    exact Prod.ext ho rfl
  · refine absurd ?_ hres
    rw [mem_flatMap_pfns]
    refine (reserved_padRegions.mp ((h.inv.run.reserved x hxp).mp ho)).resolve_right ?_
    omega
  · refine absurd ?_ hslab
    rw [← h.padded.caches]
    exact (h.inv.run.slab x).mpr ⟨hxp, ho⟩

/-- With fewer pages taken than there are runs of `2 ^ k` pages, a run is free. -/
theorem HeapInv.exists_freeRun (h : HeapInv n rgns κ κp tile) {k : ℕ}
    (hroom : (rgns.flatMap pfns).length + κ.used < n / 2 ^ k) :
    ∃ g, ∀ x, x / 2 ^ k = g → x < n ∧ (tile x).1 = .free := by
  set taken : Finset ℕ := (rgns.flatMap pfns).toFinset ∪
    ((livePages κ.sys.live).toFinset ∪ (slabPages κ.caches).toFinset) with htaken
  have hcard : (taken.image (· / 2 ^ k)).card < (Finset.range (n / 2 ^ k)).card := by
    rw [Finset.card_range]
    have h1 := List.toFinset_card_le (rgns.flatMap pfns)
    have h2 := List.toFinset_card_le (livePages κ.sys.live)
    have h3 := Finset.card_union_le (rgns.flatMap pfns).toFinset
      ((livePages κ.sys.live).toFinset ∪ (slabPages κ.caches).toFinset)
    have h4 := Finset.card_union_le (livePages κ.sys.live).toFinset (slabPages κ.caches).toFinset
    have h5 := Finset.card_image_le (s := taken) (f := (· / 2 ^ k))
    rw [← htaken] at h3
    rw [length_livePages] at h2
    unfold Kernel.used at hroom
    omega
  obtain ⟨g, hg, hfree⟩ := Finset.exists_mem_notMem_of_card_lt_card hcard
  rw [Finset.mem_range] at hg
  refine ⟨g, fun x hx => ?_⟩
  have hxn : x < n := by
    have hlt := Nat.lt_mul_div_succ x (Nat.two_pow_pos k)
    have hle := (Nat.mul_le_mul_left (2 ^ k) hg).trans (Nat.mul_div_le n (2 ^ k))
    rw [hx] at hlt
    exact lt_of_lt_of_le hlt hle
  have hnot : x ∉ taken := fun hmem => hfree (Finset.mem_image.mpr ⟨x, hmem, hx⟩)
  simp only [htaken, Finset.mem_union, List.mem_toFinset, not_or] at hnot
  exact ⟨hxn, h.free_of_not_mem hxn hnot.1 hnot.2.1 hnot.2.2⟩

/-- A free run is in a block of a free list. -/
theorem KernelInv.exists_freeList (h : KernelInv n rgns κ tile) {k g : ℕ} (hk : k < maxOrder)
    (hrun : ∀ x, x / 2 ^ k = g → x < n ∧ (tile x).1 = .free) :
    ∃ j, k ≤ j ∧ j < maxOrder ∧ (κ.sys.mm.freeArea j).freeList ≠ [] := by
  have hb : ∀ x ∈ (⟨2 ^ k * g, k⟩ : Block), x < n ∧ (tile x).1 = .free := by
    rintro x ⟨hlow, hhigh⟩
    refine hrun x (Nat.div_eq_of_lt_le ?_ ?_)
    · rw [Nat.mul_comm]
      exact hlow
    · rw [Nat.mul_comm, Nat.mul_succ]
      exact hhigh
  have hinv := h.run.inv
  obtain ⟨hlt, hfree⟩ := hb _ (Block.start_mem _)
  have hle := hinv.tiling.order_le_of_run (t := .free) (K := maxOrder - 1)
    (fun c hc hc' hj ht => hinv.coalesced c.start hc c.order hj hc' ht) ⟨2 ^ k * g, k⟩ (Dvd.intro g rfl)
    (show k ≤ maxOrder - 1 by omega) hb
  have hj := hinv.order_lt _ hlt
  refine ⟨_, hle, hj, List.ne_nil_of_mem (a := (tile (2 ^ k * g)).2.start) ?_⟩
  refine (hinv.free_iff _ hj _).mpr ⟨hinv.tiling.start_lt hlt, ?_⟩
  rw [Tiles.Free, hinv.tiling.tile_start hlt]
  exact Prod.ext hfree rfl

theorem kmallocOrder_of_le {size : ℕ} (h : size ≤ pageSize) : kmallocOrder size = 0 := by
  rw [kmallocOrder, orderLoop, if_neg (Nat.not_lt.mpr h)]

/-- With room for the request, there is memory. -/
theorem HeapInv.not_noMemory (h : HeapInv n rgns κ κp tile) {size : ℕ}
    (hk : kmallocOrder size < maxOrder)
    (hroom : (rgns.flatMap pfns).length + κ.used < n / 2 ^ kmallocOrder size) :
    ¬ NoMemory κ.state size := by
  obtain ⟨g, hrun⟩ := h.exists_freeRun hroom
  obtain ⟨j, hkj, hj, hne⟩ := h.inv.exists_freeList hk fun x hx =>
    ⟨(hrun x hx).1.trans (lt_padPages n), (hrun x hx).2⟩
  rw [h.padded.sys.mm.freeArea] at hne
  intro hno
  unfold NoMemory at hno
  split_ifs at hno
  · exact hne (hno j hj hkj)
  · exact hne (hno.2 j hj)

/-- A request is given as long as there is room. -/
theorem HeapInv.exists_gives (h : HeapInv n rgns κ κp tile) (hn : n < 2 ^ 36) (nullPfn : ℕ) {size : ℕ}
    (hsize : size ≤ 2048 ∨ pageSize ≤ size) (hright : OrderRight size)
    (hk : kmallocOrder size < maxOrder)
    (hroom : (rgns.flatMap pfns).length + κ.used < n / 2 ^ kmallocOrder size) :
    ∃ a κ', Gives nullPfn κ ⟨a, size⟩ κ' := by
  obtain ⟨κp', tile', hexec', -⟩ := h.inv.heapExec_ok (padPages_le hn) nullPfn
    (show HeapOp.Valid (.kmalloc size) from hsize)
  obtain ⟨τ, hexec, -⟩ := h.padded.heapExec _ κp' hexec'
  obtain ⟨⟨a, st⟩, hrun, -⟩ := bind_eq_ok.mp hexec
  exact ⟨a, _, h.not_noMemory hk hroom, hsize, hright, st, hrun, rfl⟩

/-! ## What a request takes -/

/-- The caches after a request for an object. -/
theorem getObject_caches {st st' : SlabState} {size : ℕ} {r : Option ℕ}
    (h : getObject st size = .ok (r, st')) :
    st'.caches = st.caches ∨ ∃ p, st'.caches = pushSlab st.caches (classOf size) p := by
  change getObject' st (classOf size) = _ at h
  rcases getObject'_cases st (classOf size) with ⟨slab, -, -, hget⟩ | hget
  · rw [h] at hget
    obtain ⟨-, rfl⟩ := Prod.mk.inj (Except.ok.inj hget)
    exact Or.inl rfl
  · rw [h] at hget
    obtain ⟨⟨r', st₁⟩, halloc, hrest⟩ := bind_eq_ok.mp hget.symm
    obtain ⟨⟨page, mm⟩, -, hst⟩ := bind_eq_ok.mp halloc
    cases page with
    | none =>
      obtain ⟨rfl, rfl⟩ := Prod.mk.inj (Except.ok.inj hst)
      obtain ⟨-, rfl⟩ := Prod.mk.inj (Except.ok.inj hrest)
      exact Or.inl rfl
    | some slab =>
      obtain ⟨rfl, rfl⟩ := Prod.mk.inj (Except.ok.inj hst)
      obtain ⟨-, rfl⟩ := Prod.mk.inj (Except.ok.inj hrest)
      exact Or.inr ⟨slab, rfl⟩

theorem card_slabPages_pushSlab (caches : ℕ → KmemCache) {i : ℕ} (hi : i < nrObjects) (p : ℕ) :
    (slabPages (pushSlab caches i p)).toFinset.card ≤ (slabPages caches).toFinset.card + 1 := by
  refine le_trans (Finset.card_le_card fun q hq => ?_) (Finset.card_insert_le p _)
  rw [List.mem_toFinset, mem_slabPages_pushSlab hi, List.mem_cons] at hq
  rwa [Finset.mem_insert, List.mem_toFinset]

/-- A request takes at most the pages of its block. -/
theorem Gives.used_le (h : Gives nullPfn κ b κ') : κ'.used ≤ κ.used + 2 ^ kmallocOrder b.size := by
  obtain ⟨st, hrun, rfl⟩ := h.returns
  unfold kmalloc at hrun
  split_ifs at hrun with hsize
  · obtain ⟨⟨page, mm⟩, -, hst⟩ := bind_eq_ok.mp hrun
    obtain ⟨-, rfl⟩ := Prod.mk.inj (Except.ok.inj hst)
    rw [record_pages hsize]
    simp only [Kernel.used, Kernel.setState, Kernel.state, List.map_cons, List.sum_cons]
    omega
  · obtain ⟨⟨object, st₁⟩, hget, hst⟩ := bind_eq_ok.mp hrun
    obtain ⟨-, rfl⟩ := Prod.mk.inj (Except.ok.inj hst)
    have hlt : b.size < pageSize := Nat.not_le.mp hsize
    have hclass := (classOf_spec (h.cache.resolve_right hsize)).1
    have hcaches := getObject_caches hget
    rw [record_object hlt, kmallocOrder_of_le hlt.le]
    simp only [Kernel.used, Kernel.setState]
    rcases hcaches with heq | ⟨p, heq⟩
    · rw [heq]
      exact Nat.le_add_right _ _
    · rw [heq]
      have := card_slabPages_pushSlab κ.state.caches hclass p
      change _ ≤ (slabPages κ.caches).toFinset.card + 1 at this
      omega

theorem orderRight_of_le {size : ℕ} (h : size ≤ pageSize) : OrderRight size := by
  refine orderRight_of_enough ?_
  rwa [kmallocOrder_of_le h, pow_zero, Nat.mul_one]

/-- Any number of requests for a page are given as long as there is room. -/
theorem HeapInv.exists_tables (h : HeapInv n rgns κ κp tile) (hn : n < 2 ^ 36) (nullPfn count : ℕ)
    (hroom : (rgns.flatMap pfns).length + κ.used + count ≤ n) : ∃ table : ℕ → ℕ, ∀ m ≤ count, ∃ κ',
      GivesAll nullPfn κ ((List.range' 0 m).map fun k => ⟨table k, 4096⟩) κ' ∧ κ'.used ≤ κ.used + m ∧
        ∃ κp' tile', HeapInv n rgns κ' κp' tile' := by
  induction count with
  | zero =>
    refine ⟨fun _ => 0, fun m hm => ?_⟩
    obtain rfl := Nat.le_zero.mp hm
    exact ⟨κ, .nil κ, le_rfl, κp, tile, h⟩
  | succ count ih =>
    obtain ⟨table, htable⟩ := ih (by omega)
    obtain ⟨κ₁, hall, hused, κp₁, tile₁, h₁⟩ := htable count le_rfl
    have horder : kmallocOrder 4096 = 0 := kmallocOrder_of_le le_rfl
    obtain ⟨a, κ₂, hgives⟩ := h₁.exists_gives hn nullPfn (Or.inr (show pageSize ≤ 4096 from le_rfl))
      (orderRight_of_le le_rfl) (by rw [horder]; decide) (by rw [horder, pow_zero, Nat.div_one]; omega)
    -- the answers before the last one stay
    have hsame : ∀ m ≤ count, (List.range' 0 m).map (fun k =>
        (⟨Function.update table count a k, 4096⟩ : Span)) =
          (List.range' 0 m).map fun k => ⟨table k, 4096⟩ := by
      intro m hm
      refine List.map_congr_left fun k hk => ?_
      rw [List.mem_range'_1] at hk
      rw [Function.update_of_ne (by omega)]
    refine ⟨Function.update table count a, fun m hm => ?_⟩
    rcases Nat.lt_or_eq_of_le hm with hlt | rfl
    · rw [hsame m (by omega)]
      exact htable m (by omega)
    · have hlast := hgives.used_le
      rw [show kmallocOrder (⟨a, 4096⟩ : Span).size = 0 from horder] at hlast
      refine ⟨κ₂, ?_, by omega, (h₁.gives hn hgives).1⟩
      rw [List.range'_concat, List.map_append, hsame count le_rfl, List.map_singleton, Nat.zero_add,
        Nat.one_mul, Function.update_self]
      exact hall.append (.single hgives)

end

end RaspiKernel.Mm
