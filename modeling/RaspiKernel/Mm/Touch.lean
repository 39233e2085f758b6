import RaspiKernel.Mm.Leftover
import RaspiKernel.Mm.Limit

/-!
# The indices of `mem_map` that are read and written

Each function here lists the indices that its namesake in `src/mm.c` reads or
writes, following its control flow. The lists are circular and intrusive:
`list_del` also writes into the neighbours of a page and `list_add_tail` into the
last page of the list.

Two things lead behind the array: a region that reaches the last page frame, and
the merged block at the end of the array, whose buddy starts with page `nr_pages`.
`MergesTo` describes that block.

Results:
* `freeLoop_touches_lt`: a free stays inside if the block at the end cannot become
  one whose buddy is behind the array.
* `mem_map_safe_iff`: when boot and all calls after it stay inside the array.
-/

namespace RaspiKernel.Mm

open Lib
open Memblock (Region)

/-! ## Traces -/

/-- The pages linked directly before and after `page` on a list. -/
def neighbours (l : List ℕ) (page : ℕ) : List ℕ :=
  let i := l.idxOf page
  (if i = 0 then [] else l[i - 1]?.toList) ++ l[i + 1]?.toList

/-- `del_page_from_free_area`. -/
def delTouches (s : MmState) (page order : ℕ) : List ℕ :=
  page :: neighbours (s.freeArea order).freeList page

/-- `set_buddy_order` and `add_to_free_area`. -/
def addTouches (s : MmState) (page order : ℕ) : List ℕ :=
  page :: (s.freeArea order).freeList.getLast?.toList

/-- The loop of `__free_one_page` and the insertion after it. -/
def freeLoopTouches : ℕ → MmState → ℕ → ℕ → ℕ → List ℕ
  | 0, s, page, _, order => addTouches s page order
  | rem + 1, s, page, pfn, order =>
    (page + findBuddyPfn pfn order - pfn) ::
      match findBuddyPagePfn s page pfn order with
      | (none, _) => addTouches s page order
      | (some buddy, buddyPfn) => delTouches s buddy order ++
        match delPageFromFreeArea s buddy order with
        | .error _ => []
        | .ok s =>
          let combinedPfn := buddyPfn &&& pfn
          freeLoopTouches rem s (page + combinedPfn - pfn) combinedPfn (order + 1)

/-- `free_one_page`. -/
def freeOnePageTouches (s : MmState) (page pfn order : ℕ) : List ℕ :=
  page :: if (s.memMap page).flags ≠ PG_USED then []
    else freeLoopTouches (maxOrder - 1 - order) s page pfn order

/-- The loop of `expand`. -/
def expandTouches (page lowOrder : ℕ) : ℕ → ℕ → MmState → List ℕ
  | 0, _, _ => []
  | highOrder + 1, size, s =>
    if highOrder + 1 > lowOrder then
      let size := size >>> 1
      addTouches s (page + size) highOrder ++ expandTouches page lowOrder highOrder size
        (addToFreeArea (setBuddyOrder s (page + size) highOrder) (page + size) highOrder)
    else []

/-- The `for` loop of `__rmqueue_smallest`. -/
def rmqueueTouches (order : ℕ) : ℕ → ℕ → MmState → List ℕ
  | 0, _, _ => []
  | rem + 1, currentOrder, s =>
    match getPageFromFreeArea (s.freeArea currentOrder) with
    | none => rmqueueTouches order rem (currentOrder + 1) s
    | some page => delTouches s page currentOrder ++
      match delPageFromFreeArea s page currentOrder with
      | .error _ => []
      | .ok s => expandTouches page order currentOrder (1 <<< currentOrder) s ++ [page]

/-- `__alloc_pages`. -/
def allocTouches (s : MmState) (order : ℕ) : List ℕ :=
  rmqueueTouches order (maxOrder - order) order s

/-- One call. -/
def System.touches (σ : System) : Op → List ℕ
  | .alloc order => allocTouches σ.mm order
  | .free i =>
    match σ.live[i]? with
    | none => []
    | some b => freeOnePageTouches σ.mm b.start b.start b.order

/-- A sequence of calls. -/
def System.runTouches : System → List Op → List ℕ
  | _, [] => []
  | σ, op :: ops => σ.touches op ++
    match σ.exec op with
    | .error _ => []
    | .ok σ => σ.runTouches ops

/-- A round of the second loop of `page_frame_init`. -/
def initPageTouches (s : MmState) (i : ℕ) : List ℕ :=
  i :: if (s.memMap i).flags = PG_RESERVED then []
    else freeLoopTouches (maxOrder - 1) (s.setFlags i PG_AVAIL) i i 0

/-- Rounds of the second loop of `page_frame_init`. -/
def initTouches : List ℕ → MmState → List ℕ
  | [], _ => []
  | i :: l, s => initPageTouches s i ++
    match initPage s i with
    | .error _ => []
    | .ok s => initTouches l s

/-- `page_frame_init` over a zeroed `mem_map`. -/
def bootTouches (rgns : List Region) (nrPages : ℕ) : List ℕ :=
  rgns.flatMap pfns ++ initTouches (List.range nrPages)
    (markReserved rgns (buddyFreeAreaInit (MmState.boot fun _ => Page.zero)))

/-- Boot and every sequence of calls after it stay inside `mem_map`. -/
structure MemMapSafe (rgns : List Region) (nrPages : ℕ) : Prop where
  boot : ∀ i ∈ bootTouches rgns nrPages, i < nrPages
  run : ∀ σ, System.boot rgns nrPages = .ok σ → ∀ ops, ∀ i ∈ σ.runTouches ops, i < nrPages

/-! ## Lists -/

theorem mem_of_mem_neighbours {l : List ℕ} {page x : ℕ} (h : x ∈ neighbours l page) : x ∈ l := by
  simp only [neighbours, List.mem_append, Option.mem_toList] at h
  rcases h with h | h
  · split_ifs at h
    · cases h
    · exact List.mem_of_getElem? (Option.mem_toList.mp h)
  · exact List.mem_of_getElem? h

/-- Unlinking a page of the list touches pages of the list only. -/
theorem delTouches_mem {s : MmState} {page order x : ℕ} (h : x ∈ delTouches s page order) :
    x = page ∨ x ∈ (s.freeArea order).freeList := by
  rcases List.mem_cons.mp h with h | h
  · exact Or.inl h
  · exact Or.inr (mem_of_mem_neighbours h)

theorem addTouches_mem {s : MmState} {page order x : ℕ} (h : x ∈ addTouches s page order) :
    x = page ∨ x ∈ (s.freeArea order).freeList := by
  rcases List.mem_cons.mp h with h | h
  · exact Or.inl h
  · exact Or.inr (List.mem_of_getLast? (Option.mem_toList.mp h))

/-! ## The longer array -/

section Padded

variable {n : ℕ} {s s' : MmState}

theorem Padded.delTouches (h : Padded n s s') (page order : ℕ) :
    delTouches s page order = delTouches s' page order := by
  rw [Mm.delTouches, Mm.delTouches, h.freeArea]

theorem Padded.addTouches (h : Padded n s s') (page order : ℕ) :
    addTouches s page order = addTouches s' page order := by
  rw [Mm.addTouches, Mm.addTouches, h.freeArea]

/-- `list_del` meets the same list in both states. -/
theorem Padded.del_cases (h : Padded n s s') (page order : ℕ) :
    (∃ e, delPageFromFreeArea s page order = .error e ∧
      delPageFromFreeArea s' page order = .error e) ∨
    ∃ t t', delPageFromFreeArea s page order = .ok t ∧
      delPageFromFreeArea s' page order = .ok t' ∧ Padded n t t' := by
  unfold delPageFromFreeArea
  rw [h.freeArea]
  dsimp only
  by_cases hp : page ∈ (s.freeArea order).freeList
  · rw [if_pos hp, if_pos hp]
    exact Or.inr ⟨_, _, rfl, rfl, rfl, h.page⟩
  · rw [if_neg hp, if_neg hp]
    exact Or.inl ⟨_, rfl, rfl⟩

theorem Padded.freeLoopTouches (rem : ℕ) : ∀ {s s' : MmState}, Padded n s s' → ∀ p q k : ℕ,
    freeLoopTouches rem s p q k = freeLoopTouches rem s' p q k := by
  induction rem with
  | zero =>
    intro s s' h p q k
    exact h.addTouches p k
  | succ rem ih =>
    intro s s' h p q k
    rw [Mm.freeLoopTouches, Mm.freeLoopTouches, findBuddyPagePfn, findBuddyPagePfn, h.pageIsBuddy]
    dsimp only
    by_cases hb : Mm.pageIsBuddy (s.memMap (p + findBuddyPfn q k - q)) k = true
    · rw [if_pos hb]
      dsimp only
      rw [h.delTouches]
      rcases h.del_cases (p + findBuddyPfn q k - q) k with ⟨e, he, he'⟩ | ⟨t, t', ht, ht', hp⟩
      · rw [he, he']
      · rw [ht, ht']
        dsimp only
        rw [ih hp]
    · rw [if_neg hb]
      dsimp only
      rw [h.addTouches]

theorem Padded.freeOnePageTouches (h : Padded n s s') (p q k : ℕ) :
    freeOnePageTouches s p q k = freeOnePageTouches s' p q k := by
  have hflags := (h.page p).flags_eq_iff (f := PG_USED) (by decide) (by decide)
  rw [Mm.freeOnePageTouches, Mm.freeOnePageTouches, Padded.freeLoopTouches _ h]
  simp only [ne_eq, hflags]

theorem Padded.expandTouches (p low high : ℕ) : ∀ {s s' : MmState}, Padded n s s' → ∀ size,
    expandTouches p low high size s = expandTouches p low high size s' := by
  induction high with
  | zero => intro s s' _ size; rfl
  | succ high ih =>
    intro s s' h size
    rw [Mm.expandTouches, Mm.expandTouches]
    split_ifs
    · dsimp only
      rw [h.addTouches, ih ((h.setBuddyOrder _ _).add _ _)]
    · rfl

theorem Padded.rmqueueTouches (h : Padded n s s') (order : ℕ) (rem : ℕ) : ∀ cur : ℕ,
    rmqueueTouches order rem cur s = rmqueueTouches order rem cur s' := by
  induction rem with
  | zero => intro cur; rfl
  | succ rem ih =>
    intro cur
    rw [Mm.rmqueueTouches, Mm.rmqueueTouches, h.freeArea]
    cases getPageFromFreeArea (s.freeArea cur) with
    | none => exact ih (cur + 1)
    | some page =>
      dsimp only
      rw [h.delTouches]
      rcases h.del_cases page cur with ⟨e, he, he'⟩ | ⟨t, t', ht, ht', hp⟩
      · rw [he, he']
      · rw [ht, ht']
        dsimp only
        rw [Padded.expandTouches _ _ _ hp]

theorem PaddedSystem.touches {σ σ' : System} (h : PaddedSystem n σ σ') (op : Op) :
    σ.touches op = σ'.touches op := by
  cases op with
  | alloc order => exact h.mm.rmqueueTouches order _ order
  | free i =>
    simp only [System.touches, h.live]
    cases σ.live[i]? with
    | none => rfl
    | some b => exact h.mm.freeOnePageTouches _ _ _

theorem Padded.initPageTouches (h : Padded n s s') {i : ℕ} (hi : i < n) :
    initPageTouches s i = initPageTouches s' i := by
  have hpage : s'.memMap i = s.memMap i := by
    rcases h.page i with heq | ⟨hle, -⟩
    · exact heq
    · omega
  rw [Mm.initPageTouches, Mm.initPageTouches, hpage,
    Padded.freeLoopTouches _ (h.setFlags i PG_AVAIL)]

end Padded

/-! ## Calls stay inside -/

/-- No merged block at the end of the array has its buddy behind it. -/
def EndsClosed (rgns : List Region) (nrPages : ℕ) : Prop :=
  ∀ k < maxOrder - 1, ¬ MergesTo (Reserved rgns) nrPages k

/-- The tiling of the longer array, with the pages behind the array reserved. -/
structure Inside (n : ℕ) (rgns : List Region) (s : MmState) (tile : Tiles) : Prop where
  inv : BuddyInv (padPages n) s tile
  reserved : ∀ x < padPages n, Reserved (padRegions n rgns) x → (tile x).1 = .reserved

section Inside

variable {n : ℕ} {rgns : List Region} {s : MmState} {tile : Tiles}

/-- A page that is not reserved is inside the array. -/
theorem Inside.lt (h : Inside n rgns s tile) {x : ℕ} (hx : x < padPages n)
    (ht : (tile x).1 ≠ .reserved) : x < n ∧ ¬ Reserved rgns x := by
  have hr : ¬ Reserved (padRegions n rgns) x := fun hr => ht (h.reserved x hx hr)
  rw [reserved_padRegions] at hr
  refine ⟨?_, fun h => hr (Or.inl h)⟩
  by_contra hle
  exact hr (Or.inr ⟨by omega, hx⟩)

theorem Inside.free_lt (h : Inside n rgns s tile) {k p : ℕ} (hk : k < maxOrder)
    (hp : p ∈ (s.freeArea k).freeList) : p < n := by
  obtain ⟨hpn, hf⟩ := (h.inv.free_iff k hk p).mp hp
  exact (h.lt hpn (by rw [hf]; simp)).1

theorem Inside.delTouches_lt (h : Inside n rgns s tile) {k p x : ℕ} (hk : k < maxOrder) (hp : p < n)
    (hx : x ∈ delTouches s p k) : x < n := by
  rcases delTouches_mem hx with rfl | hx
  · exact hp
  · exact h.free_lt hk hx

theorem Inside.addTouches_lt (h : Inside n rgns s tile) {k p x : ℕ} (hk : k < maxOrder) (hp : p < n)
    (hx : x ∈ addTouches s p k) : x < n := by
  rcases addTouches_mem hx with rfl | hx
  · exact hp
  · exact h.free_lt hk hx

/-- The pages of a tile that is not reserved are inside the array. -/
theorem Inside.block_lt (h : Inside n rgns s tile) {b : Block} {t : Owner} (hb : b.start < padPages n)
    (ht : tile b.start = (t, b)) (hres : t ≠ .reserved) {x : ℕ} (hx : x ∈ b) :
    x < n ∧ ¬ Reserved rgns x := by
  obtain ⟨hxn, hxt⟩ := h.inv.tiling.tile_eq_of_mem hb ht hx
  exact h.lt hxn (by rw [hxt]; exact hres)

/-- A step that keeps the reserved pages reserved. -/
theorem Inside.step (h : Inside n rgns s tile) {s' : MmState} {tile' : Tiles}
    (hinv : BuddyInv (padPages n) s' tile')
    (hframe : ∀ x < padPages n, (tile x).1 = .reserved → tile' x = tile x) :
    Inside n rgns s' tile' := by
  refine ⟨hinv, fun x hx hr => ?_⟩
  have hres := h.reserved x hx hr
  rw [hframe x hx hres]
  exact hres

/-- A block that is not reserved has no reserved page. -/
theorem Inside.not_mem_of_reserved (h : Inside n rgns s tile) {b : Block} {t : Owner}
    (hb : b.start < padPages n) (ht : tile b.start = (t, b)) (hres : t ≠ .reserved) {x : ℕ}
    (hx : (tile x).1 = .reserved) : x ∉ b := by
  intro hxb
  rw [(h.inv.tiling.tile_eq_of_mem hb ht hxb).2] at hx
  exact hres hx

/-- The buddy of a block in hand is inside the array. -/
theorem Inside.buddy_lt (h : Inside n rgns s tile) (hends : EndsClosed rgns n) {p k : ℕ}
    (hk : k < maxOrder - 1) (hp : p < padPages n) (ht : tile p = (.hand, ⟨p, k⟩)) :
    findBuddyPfn p k < n := by
  have hblock := fun x hx => h.block_lt (b := ⟨p, k⟩) hp ht (by simp) (x := x) hx
  have hpos := Nat.two_pow_pos k
  have hlast : p + (2 ^ k - 1) < n := (hblock _ ⟨Nat.le_add_right _ _, by dsimp only; omega⟩).1
  rcases buddy_cases (h.inv.tiling.aligned_of_tile (b := ⟨p, k⟩) hp ht) with
    ⟨hdvd, hq⟩ | ⟨-, hq, -⟩
  · by_contra hlt
    -- the block ends where the array ends
    have hend : p + 2 ^ k = n := by omega
    refine hends k hk ⟨?_, ?_, fun y hy hyn => (hblock y ⟨by dsimp only; omega, by dsimp only; omega⟩).2⟩
    · rw [← hend]
      exact Dvd.dvd.add ((pow_dvd_pow 2 (Nat.le_succ k)).trans hdvd) dvd_rfl
    · rw [← hend]
      intro hdvd'
      have := Nat.le_of_dvd hpos ((Nat.dvd_add_right hdvd).mp hdvd')
      rw [pow_succ] at this
      omega
  · omega

/-- The loop of `__free_one_page` stays inside the array. -/
theorem freeLoop_touches_lt (hends : EndsClosed rgns n) (rem : ℕ) : ∀ {s : MmState} {tile : Tiles}
    {p k : ℕ}, rem + k = maxOrder - 1 → Inside n rgns s tile → p < padPages n →
    tile p = (.hand, ⟨p, k⟩) → (∀ x < padPages n, (tile x).1 = .hand → x ∈ (⟨p, k⟩ : Block)) →
    ∀ i ∈ freeLoopTouches rem s p p k, i < n := by
  have hstart : ∀ {s : MmState} {tile : Tiles} {p k : ℕ}, Inside n rgns s tile → p < padPages n →
      tile p = (.hand, ⟨p, k⟩) → p < n := fun {s tile p k} h hp ht =>
    (h.block_lt (b := ⟨p, k⟩) hp ht (by simp) (Block.start_mem ⟨p, k⟩)).1
  induction rem with
  | zero =>
    intro s tile p k hrem h hp ht _ i hi
    have hk : k < maxOrder := by have := h.inv.order_lt p hp; rwa [ht] at this
    exact h.addTouches_lt hk (hstart h hp ht) hi
  | succ rem ih =>
    intro s tile p k hrem h hp ht hone i hi
    have hk : k < maxOrder - 1 := by omega
    have hpn := hstart h hp ht
    obtain ⟨hbn, hbud⟩ := h.inv.pageIsBuddy_iff hk hp ht hone
    have hlt := h.buddy_lt hends hk hp ht
    have hidx : p + findBuddyPfn p k - p = findBuddyPfn p k := by omega
    rw [freeLoopTouches, findBuddyPagePfn, hidx] at hi
    rcases List.mem_cons.mp hi with rfl | hi
    · exact hlt
    by_cases hfree : tile.Free (findBuddyPfn p k) k
    · obtain ⟨s₁, tile₁, hdel, hm⟩ := h.inv.merge hk hp ht hbn hfree
      dsimp only at hi
      rw [if_pos (hbud.mpr hfree)] at hi
      dsimp only at hi
      rw [hdel, show p + (findBuddyPfn p k &&& p) - p = findBuddyPfn p k &&& p by omega] at hi
      rcases List.mem_append.mp hi with hi | hi
      · exact h.delTouches_lt (by omega) hlt hi
      · refine ih (by omega) (h.step hm.inv fun x hx hres => ?_) hm.lt hm.head (hm.one hone) i hi
        rw [hm.tile_eq, if_neg ?_]
        intro hxm
        rcases (hm.mem_iff x).mp hxm with hx' | hx'
        · exact h.not_mem_of_reserved (b := ⟨p, k⟩) hp ht (by simp) hres hx'
        · exact h.not_mem_of_reserved (b := ⟨_, k⟩) hbn hfree (by simp) hres hx'
    · dsimp only at hi
      rw [if_neg fun hb => hfree (hbud.mp hb)] at hi
      exact h.addTouches_lt (by omega) hpn hi

/-- Splitting a block stays inside the array. -/
theorem expandTouches_lt {p low : ℕ} (high : ℕ) : ∀ {s : MmState} {tile : Tiles},
    Inside n rgns s tile → p < padPages n → tile p = (.hand, ⟨p, high⟩) →
    ∀ i ∈ expandTouches p low high (2 ^ high) s, i < n := by
  induction high with
  | zero =>
    intro s tile _ _ _ i hi
    cases hi
  | succ high ih =>
    intro s tile h hp ht i hi
    have hk : high + 1 < maxOrder := by have := h.inv.order_lt p hp; rwa [ht] at this
    have hright : p + 2 ^ high < n := (h.block_lt (b := ⟨p, high + 1⟩) hp ht (by simp)
      ((Block.mem_halves (b := ⟨p, high + 1⟩) (Nat.succ_pos high)).mpr
        (Or.inr (Block.start_mem ⟨p + 2 ^ high, high⟩)))).1
    rw [expandTouches] at hi
    split_ifs at hi
    · dsimp only at hi
      rw [show 2 ^ (high + 1) >>> 1 = 2 ^ high by rw [Nat.shiftRight_one, pow_succ]; omega] at hi
      rcases List.mem_append.mp hi with hi | hi
      · exact h.addTouches_lt (by omega) hright hi
      · obtain ⟨tile', hinv, hhead, -, hframe⟩ := h.inv.cut hp ht
        refine ih (h.step hinv fun x hx hres => hframe x ?_) hp hhead i hi
        exact h.not_mem_of_reserved (b := ⟨p, high + 1⟩) hp ht (by simp) hres
    · cases hi

theorem rmqueueTouches_lt (h : Inside n rgns s tile) (order : ℕ) (rem : ℕ) : ∀ cur,
    rem + cur = maxOrder → ∀ i ∈ rmqueueTouches order rem cur s, i < n := by
  induction rem with
  | zero =>
    intro cur _ i hi
    cases hi
  | succ rem ih =>
    intro cur hrem i hi
    rw [rmqueueTouches] at hi
    cases hl : (s.freeArea cur).freeList with
    | nil =>
      rw [show getPageFromFreeArea (s.freeArea cur) = none by rw [getPageFromFreeArea, hl]; rfl] at hi
      exact ih (cur + 1) (by omega) i hi
    | cons page l =>
      have hmem : page ∈ (s.freeArea cur).freeList := by rw [hl]; exact List.mem_cons_self
      have hpage := h.free_lt (by omega) hmem
      obtain ⟨hpn, hfree⟩ := (h.inv.free_iff cur (by omega) page).mp hmem
      obtain ⟨s₁, hdel, -, h₁⟩ := h.inv.del (by omega) hmem
      rw [show getPageFromFreeArea (s.freeArea cur) = some page by
        rw [getPageFromFreeArea, hl]; rfl] at hi
      dsimp only at hi
      rw [hdel] at hi
      dsimp only at hi
      rw [Nat.one_shiftLeft] at hi
      rcases List.mem_append.mp hi with hi | hi
      · exact h.delTouches_lt (by omega) hpage hi
      rcases List.mem_append.mp hi with hi | hi
      · refine expandTouches_lt cur (h.step h₁ fun x hx hres => ?_) hpn (Tiling.recolor_start _ _) i hi
        exact Tiling.recolor_of_not_mem
          (h.not_mem_of_reserved (b := ⟨page, cur⟩) hpn hfree (by simp) hres)
      · rw [List.mem_singleton.mp hi]
        exact hpage

/-- `__free_one_page` on a block that is on no free list stays inside the array. -/
theorem Inside.freeOnePage'_lt (h : Inside n rgns s tile) (hends : EndsClosed rgns n)
    (hidle : Idle (padPages n) tile) {t : Owner} {p k : ℕ} (hp : p < padPages n)
    (ht : tile p = (t, ⟨p, k⟩)) (htf : t ≠ .free) (htr : t ≠ .reserved) :
    ∀ i ∈ freeLoopTouches (maxOrder - 1 - k) s p p k, i < n := by
  have hk : k < maxOrder := by have := h.inv.order_lt p hp; rwa [ht] at this
  have hpick := h.inv.pick (b := ⟨p, k⟩) hp ht htf
  refine freeLoop_touches_lt hends _ (by omega) (h.step hpick fun x hx hres => ?_) hp
    (Tiling.recolor_start Owner.hand ⟨p, k⟩) fun x hx hh => ?_
  · exact Tiling.recolor_of_not_mem (h.not_mem_of_reserved (b := ⟨p, k⟩) hp ht htr hres)
  · by_contra hxb
    rw [Tiling.recolor_of_not_mem hxb] at hh
    exact hidle x hx hh

end Inside

/-! ## Runs stay inside -/

section Runs

variable {n : ℕ} {rgns : List Region} {σ σ' : System} {tile : Tiles}

theorem AnyInv.inside (h : AnyInv n rgns σ σ' tile) : Inside n rgns σ'.mm tile :=
  ⟨h.inv.inv, fun x hx hr => (h.inv.reserved x hx).mpr hr⟩

/-- A call stays inside the array. -/
theorem AnyInv.touches_lt (h : AnyInv n rgns σ σ' tile) (hends : EndsClosed rgns n) (op : Op) :
    ∀ i ∈ σ.touches op, i < n := by
  rw [h.padded.touches]
  cases op with
  | alloc order =>
    by_cases ho : order ≤ maxOrder
    · exact rmqueueTouches_lt h.inside order _ order (by omega)
    · intro i hi
      rw [System.touches, allocTouches, show maxOrder - order = 0 by omega] at hi
      cases hi
  | free j =>
    intro i hi
    rw [System.touches] at hi
    cases hb : σ'.live[j]? with
    | none =>
      rw [hb] at hi
      cases hi
    | some b =>
      rw [hb] at hi
      obtain ⟨hbn, hbt⟩ := (h.inv.live b).mp (List.mem_of_getElem? hb)
      rcases List.mem_cons.mp hi with rfl | hi
      · exact (h.inside.block_lt hbn hbt (by simp) b.start_mem).1
      · rw [h.inv.inv.mark b.start hbn .used b.order hbt |>.1, if_neg (by simp)] at hi
        exact h.inside.freeOnePage'_lt hends h.inv.idle hbn hbt (by simp) (by simp) i hi

theorem AnyInv.runTouches_lt (hends : EndsClosed rgns n) (ops : List Op) :
    ∀ {σ σ' : System} {tile : Tiles}, AnyInv n rgns σ σ' tile → ∀ i ∈ σ.runTouches ops, i < n := by
  induction ops with
  | nil =>
    intro σ σ' tile _ i hi
    cases hi
  | cons op ops ih =>
    intro σ σ' tile h i hi
    obtain ⟨τ, τ', tile', hexec, h'⟩ := h.exec_ok op
    rw [System.runTouches, hexec] at hi
    rcases List.mem_append.mp hi with hi | hi
    · exact h.touches_lt hends op i hi
    · exact ih h' i hi

end Runs

/-! ## Boot stays inside -/

section Boot

variable {n : ℕ} {rgns : List Region}

theorem InitInv.inside {i : ℕ} {s : MmState} {tile : Tiles}
    (h : InitInv (padPages n) (padRegions n rgns) i s tile) : Inside n rgns s tile :=
  ⟨h.inv, fun x hx hr => by rw [h.reserved x hx hr]⟩

/-- A round of the second loop of `page_frame_init`. -/
theorem InitInv.initPageTouches_lt {i : ℕ} {s : MmState} {tile : Tiles}
    (h : InitInv (padPages n) (padRegions n rgns) i s tile) (hends : EndsClosed rgns n) (hi : i < n) :
    ∀ x ∈ initPageTouches s i, x < n := by
  intro x hx
  have hin : i < padPages n := hi.trans (lt_padPages n)
  rcases List.mem_cons.mp hx with rfl | hx
  · exact hi
  split_ifs at hx with hflags
  · cases hx
  · have hr : ¬ Reserved (padRegions n rgns) i := by
      intro hr
      exact hflags (h.inv.mark i hin .reserved 0 (h.reserved i hin hr))
    have hinside := h.inside.step (h.avail hin hr) fun _ _ _ => rfl
    exact hinside.freeOnePage'_lt hends h.idle hin (h.pending i hin hr le_rfl) (by simp) (by simp) x hx

theorem initTouches_lt (hends : EndsClosed rgns n) (m : ℕ) : ∀ {i : ℕ} {s s' : MmState}
    {tile : Tiles}, i + m = n → Padded n s s' →
    InitInv (padPages n) (padRegions n rgns) i s' tile → ∀ x ∈ initTouches (List.range' i m) s, x < n := by
  induction m with
  | zero =>
    intro i s s' tile _ _ _ x hx
    cases hx
  | succ m ih =>
    intro i s s' tile him hp h x hx
    have hi : i < n := by omega
    obtain ⟨t', tile', hstep', h'⟩ := initPage_spec (hi.trans (lt_padPages n)) h
    obtain ⟨t, hstep, hpt⟩ := hp.initPage hi t' hstep'
    rw [List.range'_succ, initTouches, hstep, hp.initPageTouches hi] at hx
    rcases List.mem_append.mp hx with hx | hx
    · exact h.initPageTouches_lt hends hi x hx
    · exact ih (by omega) hpt h' x hx

theorem bootTouches_lt (hrgns : ∀ rgn ∈ rgns, (rgn.base + rgn.size) >>> 12 < n)
    (hends : EndsClosed rgns n) : ∀ x ∈ bootTouches rgns n, x < n := by
  intro x hx
  rcases List.mem_append.mp hx with hx | hx
  · obtain ⟨rgn, hrgn, hx⟩ := List.mem_flatMap.mp hx
    have := hrgns rgn hrgn
    simp only [pfns, List.mem_range'_1] at hx
    omega
  · rw [List.range_eq_range'] at hx
    have hzero := initInv_zero (dvd_padPages n) (padRegions n rgns) (fun _ => Page.zero)
      (fun x _ => by simp [Page.zero])
    have hpad := padded_markReserved n rgns (s := buddyFreeAreaInit (MmState.boot fun _ => Page.zero))
      fun _ => rfl
    exact initTouches_lt hends n (Nat.zero_add n) hpad hzero x hx

/-! ## Boot reaches behind the array -/

/-- A block of the free lists was put there after its buddy had been looked at. -/
theorem freeLoop_mem (rem : ℕ) : ∀ {s s' : MmState} {p k : ℕ}, rem + k = maxOrder - 1 →
    freeLoop rem s p p k = .ok s' → ∀ j < maxOrder - 1, ∀ q ∈ (s'.freeArea j).freeList,
      q ∈ (s.freeArea j).freeList ∨ findBuddyPfn q j ∈ freeLoopTouches rem s p p k := by
  induction rem with
  | zero =>
    intro s s' p k hrem h j hj q hq
    obtain rfl := Except.ok.inj h
    left
    rwa [addToFreeArea_freeArea, setBuddyOrder_eq, setPage_freeArea,
      Function.update_of_ne (by omega)] at hq
  | succ rem ih =>
    intro s s' p k hrem h j hj q hq
    rw [freeLoop_succ] at h
    rw [freeLoopTouches, findBuddyPagePfn, show p + findBuddyPfn p k - p = findBuddyPfn p k by omega]
    dsimp only
    by_cases hb : pageIsBuddy (s.memMap (findBuddyPfn p k)) k = true
    · rw [if_pos hb] at h ⊢
      obtain ⟨s₁, hdel, h⟩ := bind_eq_ok.mp h
      dsimp only
      rw [hdel, show p + (findBuddyPfn p k &&& p) - p = findBuddyPfn p k &&& p by omega]
      rcases ih (by omega) h j hj q hq with hq | hq
      · left
        -- unlinking only removes a page
        simp only [delPageFromFreeArea] at hdel
        split_ifs at hdel
        obtain rfl := Except.ok.inj hdel
        by_cases hjk : j = k
        · subst hjk
          simp only [Function.update_self] at hq
          exact List.mem_of_mem_erase hq
        · simpa only [Function.update_of_ne hjk] using hq
      · right
        exact List.mem_cons_of_mem _ (List.mem_append_right _ hq)
    · rw [if_neg hb] at h
      obtain rfl := Except.ok.inj h
      rw [addToFreeArea_freeArea, setBuddyOrder_eq, setPage_freeArea] at hq
      by_cases hjk : j = k
      · subst hjk
        rw [Function.update_self] at hq
        rcases List.mem_append.mp hq with hq | hq
        · exact Or.inl hq
        · right
          rw [List.mem_singleton.mp hq]
          exact List.mem_cons_self
      · rw [Function.update_of_ne hjk] at hq
        exact Or.inl hq

theorem initTouches_mem (l : List ℕ) : ∀ {s s' : MmState}, l.foldlM initPage s = .ok s' →
    ∀ j < maxOrder - 1, ∀ q ∈ (s'.freeArea j).freeList,
      q ∈ (s.freeArea j).freeList ∨ findBuddyPfn q j ∈ initTouches l s := by
  induction l with
  | nil =>
    intro s s' h j _ q hq
    obtain rfl := Except.ok.inj h
    exact Or.inl hq
  | cons i l ih =>
    intro s s' h j hj q hq
    rw [List.foldlM_cons] at h
    obtain ⟨s₁, hi, h⟩ := bind_eq_ok.mp h
    rw [initTouches, hi]
    rcases ih h j hj q hq with hq | hq
    · have hround : q ∈ (s.freeArea j).freeList ∨ findBuddyPfn q j ∈ initPageTouches s i := by
        unfold initPage at hi
        rw [initPageTouches]
        split_ifs at hi ⊢
        · obtain rfl := Except.ok.inj hi
          exact Or.inl hq
        · rcases freeLoop_mem _ (by omega) hi j hj q hq with hq | hq
          · exact Or.inl hq
          · exact Or.inr (List.mem_cons_of_mem _ hq)
      exact hround.imp_right fun hq => List.mem_append_left _ hq
    · exact Or.inr (List.mem_append_right _ hq)

/-- The merged block at the end starts at an even multiple of its size, and its buddy starts where the
    array ends. -/
theorem MergesTo.block {skip : ℕ → Prop} {k : ℕ} (h : MergesTo skip n k) :
    2 ^ k ≤ n ∧ 2 ^ (k + 1) ∣ n - 2 ^ k ∧ findBuddyPfn (n - 2 ^ k) k = n := by
  obtain ⟨hdvd, hodd, -⟩ := h
  have hn : 0 < n := by
    rcases Nat.eq_zero_or_pos n with rfl | hpos
    · exact absurd (dvd_zero _) hodd
    · exact hpos
  have hle : 2 ^ k ≤ n := Nat.le_of_dvd hn hdvd
  have heven : 2 ^ (k + 1) ∣ n - 2 ^ k := by
    obtain ⟨m, rfl⟩ := hdvd
    rcases Nat.even_or_odd' m with ⟨t, rfl | rfl⟩
    · exact absurd ⟨t, by ring⟩ hodd
    · exact ⟨t, by rw [Nat.mul_add, Nat.mul_one, Nat.add_sub_cancel]; ring⟩
  refine ⟨hle, heven, ?_⟩
  have haligned : (⟨n - 2 ^ k, k⟩ : Block).Aligned := (pow_dvd_pow 2 (Nat.le_succ k)).trans heven
  rcases buddy_cases haligned with ⟨-, hq⟩ | ⟨hdvd', -⟩
  · omega
  · rw [Nat.sub_add_cancel hle] at hdvd'
    exact absurd hdvd' hodd

/-- The merged block at the end of the array is on a free list after boot. -/
theorem mem_freeList_of_mergesTo {k : ℕ} (hk : k < maxOrder - 1)
    (h : MergesTo (Reserved rgns) n k) : ∃ s, buddyInit (fun _ => Page.zero) rgns n = .ok s ∧
      n - 2 ^ k ∈ (s.freeArea k).freeList := by
  obtain ⟨s, s', tile, hrun, -, hp, hinit⟩ := buddyInit_padded n rgns
  obtain ⟨hle, heven, -⟩ := h.block
  have hfree := h.2.2
  refine ⟨s, hrun, ?_⟩
  rw [← hp.freeArea, hinit.runInv.mem_freeList_iff_maximal (by omega)]
  refine ⟨⟨(pow_dvd_pow 2 (Nat.le_succ k)).trans heven, fun x hx => ?_⟩, fun c hkc hc hmem hrun => ?_⟩
  · have hxn : x < n := by
      have := hx.2
      dsimp only at this
      omega
    refine ⟨hxn.trans (lt_padPages n), ?_, fun b hb => by cases hb⟩
    rw [reserved_padRegions]
    rintro (hr | ⟨hnx, -⟩)
    · have := hx.1
      dsimp only at this
      exact hfree x (by omega) hxn hr
    · omega
  · -- a longer block would reach behind the array
    have hn' : n ∈ c := by
      obtain ⟨hlow, hhigh⟩ := hmem
      refine ⟨by omega, ?_⟩
      by_contra hlt
      have hend : 2 ^ (k + 1) ∣ c.start + 2 ^ c.order :=
        Dvd.dvd.add ((pow_dvd_pow 2 (by omega)).trans hrun.1) (pow_dvd_pow 2 (by omega))
      have hgap := Nat.le_of_dvd (by omega) (Nat.dvd_sub hend heven)
      rw [pow_succ] at hgap
      have := Nat.two_pow_pos k
      omega
    exact (hrun.2 n hn').2.1 (reserved_padRegions.mpr (Or.inr ⟨le_rfl, lt_padPages n⟩))

theorem mem_bootTouches_of_mergesTo {k : ℕ} (hk : k < maxOrder - 1)
    (h : MergesTo (Reserved rgns) n k) : n ∈ bootTouches rgns n := by
  obtain ⟨s, hrun, hmem⟩ := mem_freeList_of_mergesTo hk h
  rcases initTouches_mem _ hrun k hk _ hmem with hold | htouch
  · rw [(markReserved_spec rgns _).1] at hold
    simp [buddyFreeAreaInit, MmState.boot] at hold
  · rw [h.block.2.2] at htouch
    exact List.mem_append_right _ htouch

theorem mem_bootTouches_of_region {rgn : Region} (h : rgn ∈ rgns) :
    (rgn.base + rgn.size) >>> 12 ∈ bootTouches rgns n := by
  refine List.mem_append_left _ (List.mem_flatMap.mpr ⟨rgn, h, ?_⟩)
  have hle : rgn.base >>> 12 ≤ (rgn.base + rgn.size) >>> 12 := by
    simp only [Nat.shiftRight_eq_div_pow]
    exact Nat.div_le_div_right (Nat.le_add_right _ _)
  simp only [pfns, List.mem_range'_1]
  omega

end Boot

/-- **Index safety.** For every number of pages and every list of regions, boot over a zeroed `mem_map`
    and all calls after it stay inside the array if and only if no region reaches the page frame
    behind the array, and the pages before the end of the array are not merged into a block of order
    below `MAX_ORDER - 1` whose buddy starts at the end. -/
theorem mem_map_safe_iff (rgns : List Region) (nrPages : ℕ) : MemMapSafe rgns nrPages ↔
    (∀ rgn ∈ rgns, (rgn.base + rgn.size) >>> 12 < nrPages) ∧ EndsClosed rgns nrPages := by
  constructor
  · intro h
    refine ⟨fun rgn hrgn => h.boot _ (mem_bootTouches_of_region hrgn), fun k hk hm => ?_⟩
    exact absurd (h.boot _ (mem_bootTouches_of_mergesTo hk hm)) (lt_irrefl _)
  · rintro ⟨hrgns, hends⟩
    refine ⟨bootTouches_lt hrgns hends, fun σ hboot ops => ?_⟩
    obtain ⟨τ, τ', tile, hboot', h⟩ := boot_any_ok nrPages rgns
    obtain rfl : τ = σ := Except.ok.inj (hboot'.symm.trans hboot)
    exact h.runTouches_lt hends ops

/-- The region that ends with the memory leads behind the array, and so does a limit of 1000 pages whose
    last 8 are free. -/
theorem mem_map_unsafe : ¬ MemMapSafe [⟨0x1ff000, 0x1000⟩] 512 ∧
    ¬ MemMapSafe [⟨0, 0x80000⟩] 1000 := by
  constructor
  · intro h
    have hmem := @mem_bootTouches_of_region 512 [⟨0x1ff000, 0x1000⟩] _ List.mem_cons_self
    exact absurd (h.boot _ hmem) (by decide)
  · intro h
    have hm : MergesTo (Reserved [⟨0, 0x80000⟩]) 1000 3 := by
      refine ⟨by decide, by decide, fun y hy _ hr => ?_⟩
      obtain ⟨rgn, hrgn, hx⟩ := hr
      obtain rfl := List.mem_singleton.mp hrgn
      simp only [pfns, List.mem_range'_1, Nat.shiftRight_eq_div_pow] at hx
      omega
    exact absurd (h.boot _ (mem_bootTouches_of_mergesTo (by decide) hm)) (lt_irrefl _)

end RaspiKernel.Mm
