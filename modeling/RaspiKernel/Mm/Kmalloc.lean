import RaspiKernel.Mm.SlabRun

/-!
# `kmalloc` and `kfree`

Model of `src/mm.c` (lines 344–378): sizes from `PAGE_SIZE` on are served by the
page allocator, smaller ones by the slab allocator.

`page_to_phys(NULL)` subtracts `mem_map` from the NULL pointer. Its value depends
on where `mem_map` is and how the compiler divides; it is the parameter
`nullPfn`, and nothing is assumed about it.

Results:
* `kmallocOrder_right_iff`: the order is the right one unless the size lies less
  than `2 ^ k` bytes above `PAGE_SIZE * 2 ^ k` for some `k`.
* `kmalloc_no_memory`: without memory the state is left alone, and the address
  that is returned is not NULL.
-/

namespace RaspiKernel.Mm

open Lib
open Memblock (Region physToVirt virtToPhys kernelVaddrBase)

/-! ## Model -/

/-- `while (size > PAGE_SIZE) { size >>= 1; order++; }` (lines 354–357). -/
def orderLoop (size order : ℕ) : ℕ :=
  if size > pageSize then orderLoop (size >>> 1) (order + 1) else order
termination_by size
decreasing_by
  rw [Nat.shiftRight_one]
  omega

/-- The order that `kmalloc` asks the page allocator for. -/
def kmallocOrder (size : ℕ) : ℕ := orderLoop size 0

/-- `page_to_pfn`, NULL is `none`. -/
def pageToPfn (nullPfn : ℕ) (page : Option ℕ) : ℕ := page.getD nullPfn

/-- `kmalloc` (lines 348–363). -/
def kmalloc (nullPfn : ℕ) (st : SlabState) (size : ℕ) : Except Stop (ℕ × SlabState) :=
  if size ≥ pageSize then do
    let (page, mm) ← allocPages st.mm (kmallocOrder size)
    .ok (physToVirt (pageToPhys (pageToPfn nullPfn page) % 2 ^ 64), { st with mm := mm })
  else do
    let (object, st) ← getObject st size
    .ok (physToVirt (object.getD 0), st)

/-- `buddy_order` (lines 37–40). -/
def buddyOrder (page : Page) : ℕ := page.priv

/-- `kfree` (lines 365–378). -/
def kfree (st : SlabState) (obj : ℕ) : Except Stop SlabState :=
  let page := physToPage (virtToPhys obj)
  let order := buddyOrder (st.mm.memMap page)
  if (st.mm.memMap page).flags = PG_slab then .ok (freeObject st obj)
  else do
    let mm ← freeOnePage st.mm page page order
    .ok { st with mm := mm }

/-! ## The order -/

theorem orderLoop_spec (size order : ℕ) :
    order ≤ orderLoop size order ∧ size >>> (orderLoop size order - order) ≤ pageSize ∧
      ∀ j < orderLoop size order - order, pageSize < size >>> j := by
  fun_induction orderLoop size order with
  | case1 size order hsize ih =>
    obtain ⟨hle, hstop, hgo⟩ := ih
    obtain ⟨r, hr⟩ : ∃ r, orderLoop (size >>> 1) (order + 1) = order + 1 + r :=
      ⟨_, (Nat.add_sub_cancel' hle).symm⟩
    rw [hr] at hstop hgo ⊢
    rw [Nat.add_sub_cancel_left] at hstop hgo
    rw [show order + 1 + r - order = 1 + r by omega]
    refine ⟨by omega, by rwa [Nat.shiftRight_add], fun j hj => ?_⟩
    cases j with
    | zero => exact hsize
    | succ j =>
      rw [Nat.add_comm j 1, Nat.shiftRight_add]
      exact hgo j (by omega)
  | case2 size order hsize =>
    rw [Nat.sub_self]
    exact ⟨le_rfl, Nat.le_of_not_lt hsize, fun j hj => absurd hj (Nat.not_lt_zero j)⟩

/-- The loop stops at the first order whose truncated size is at most a page. -/
theorem kmallocOrder_spec (size : ℕ) : size < (pageSize + 1) * 2 ^ kmallocOrder size ∧
    ∀ j < kmallocOrder size, (pageSize + 1) * 2 ^ j ≤ size := by
  obtain ⟨-, hstop, hgo⟩ := orderLoop_spec size 0
  rw [Nat.sub_zero] at hstop hgo
  refine ⟨?_, fun j hj => ?_⟩
  · rw [Nat.shiftRight_eq_div_pow] at hstop
    exact (Nat.div_lt_iff_lt_mul (Nat.two_pow_pos _)).mp (Nat.lt_succ_of_le hstop)
  · have hj := hgo j hj
    rw [Nat.shiftRight_eq_div_pow] at hj
    exact (Nat.le_div_iff_mul_le (Nat.two_pow_pos j)).mp hj

/-- The order of `kmalloc` is the smallest whose block holds `size` bytes. -/
structure OrderRight (size : ℕ) : Prop where
  enough : size ≤ pageSize * 2 ^ kmallocOrder size
  least : ∀ j, size ≤ pageSize * 2 ^ j → kmallocOrder size ≤ j
  /-- Every byte is in a page of the block. -/
  holds : ∀ page, ∀ x < size, page + x / pageSize ∈ (⟨page, kmallocOrder size⟩ : Block)

theorem orderRight_of_enough {size : ℕ} (h : size ≤ pageSize * 2 ^ kmallocOrder size) :
    OrderRight size := by
  refine ⟨h, fun j hj => ?_, fun page x hx => ?_⟩
  · by_contra hlt
    have hgo := (kmallocOrder_spec size).2 j (by omega)
    have hpos := Nat.two_pow_pos j
    rw [Nat.add_mul, Nat.one_mul] at hgo
    omega
  · have hdiv : x / pageSize < 2 ^ kmallocOrder size :=
      Nat.div_lt_of_lt_mul (lt_of_lt_of_le hx h)
    exact ⟨Nat.le_add_right _ _, Nat.add_lt_add_left hdiv page⟩

/-- **The order of large requests.** The bits that the shifts discard are lost: the order is the right
    one exactly if the size is not within `2 ^ k` bytes above `PAGE_SIZE * 2 ^ k`, for any `k`. -/
theorem kmallocOrder_right_iff (size : ℕ) : OrderRight size ↔
    ∀ k, ¬ (pageSize * 2 ^ k < size ∧ size < pageSize * 2 ^ k + 2 ^ k) := by
  obtain ⟨hstop, hgo⟩ := kmallocOrder_spec size
  constructor
  · rintro h k ⟨hlow, hhigh⟩
    -- the loop stops at `k` at the latest
    have hle : kmallocOrder size ≤ k := by
      by_contra hlt
      have := hgo k (by omega)
      rw [Nat.add_mul, Nat.one_mul] at this
      omega
    have hmono := Nat.mul_le_mul_left pageSize (Nat.pow_le_pow_right (n := 2) (by norm_num) hle)
    have := h.enough
    omega
  · intro h
    apply orderRight_of_enough
    by_contra hlt
    rw [Nat.add_mul, Nat.one_mul] at hstop
    exact h _ ⟨by omega, hstop⟩

/-- 8193 bytes are given the two pages of order 1. -/
theorem kmallocOrder_8193 : kmallocOrder 8193 = 1 ∧ ¬ OrderRight 8193 := by
  have horder : kmallocOrder 8193 = 1 := by
    rw [kmallocOrder, orderLoop, if_pos (by decide), orderLoop, if_neg (by decide)]
  refine ⟨horder, fun h => ?_⟩
  have := h.enough
  rw [horder] at this
  exact absurd this (by decide)

/-! ## Out of memory -/

/-- `kmalloc(size)` has no suitable memory: no free block of the order it computes or above, or, for
    a small size, no free object of the cache and no free page. -/
def NoMemory (st : SlabState) (size : ℕ) : Prop :=
  if size ≥ pageSize then
    ∀ k < maxOrder, kmallocOrder size ≤ k → (st.mm.freeArea k).freeList = []
  else
    (∀ slab ∈ (st.caches (classOf size)).partialSlabs, (st.mm.memMap slab).freelist = 0) ∧
      ∀ k < maxOrder, (st.mm.freeArea k).freeList = []

instance (st : SlabState) (size : ℕ) : Decidable (NoMemory st size) :=
  inferInstanceAs (Decidable (if size ≥ pageSize then _ else _))

theorem rmqueueLoop_of_empty {s : MmState} {order : ℕ} (rem cur : ℕ) (hrem : rem + cur = maxOrder)
    (h : ∀ k, cur ≤ k → k < maxOrder → (s.freeArea k).freeList = []) :
    rmqueueLoop order rem cur s = .ok (none, s) := by
  induction rem generalizing cur with
  | zero => rfl
  | succ rem ih =>
    have hget : getPageFromFreeArea (s.freeArea cur) = none := by
      rw [getPageFromFreeArea, h cur le_rfl (by omega)]
      rfl
    rw [rmqueueLoop, hget]
    exact ih (cur + 1) (by omega) fun k hk => h k (by omega)

theorem allocPages_of_empty {s : MmState} {order : ℕ}
    (h : ∀ k, order ≤ k → k < maxOrder → (s.freeArea k).freeList = []) :
    allocPages s order = .ok (none, s) := by
  by_cases ho : order ≤ maxOrder
  · exact rmqueueLoop_of_empty (maxOrder - order) order (by omega) h
  · have h0 : maxOrder - order = 0 := by omega
    simp only [allocPages, rmqueue, rmqueueSmallest, h0, rmqueueLoop]

theorem getObject_of_empty {st : SlabState} {size : ℕ}
    (hobj : ∀ slab ∈ (st.caches (classOf size)).partialSlabs, (st.mm.memMap slab).freelist = 0)
    (hpage : ∀ k < maxOrder, (st.mm.freeArea k).freeList = []) :
    getObject st size = .ok (none, st) := by
  have halloc : allocateSlab st (classOf size) = .ok (none, st) := by
    rw [allocateSlab, allocPages_of_empty fun k _ hk => hpage k hk]
    rfl
  rcases getObject'_cases st (classOf size) with ⟨slab, hslab, hfree, -⟩ | hget
  · exact absurd (hobj slab hslab) hfree
  · rw [halloc] at hget
    exact hget

/-- `kmalloc` reports that there is no memory: it returns NULL and changes nothing. -/
def ReportsNoMemory (nullPfn : ℕ) (st : SlabState) (size : ℕ) : Prop :=
  kmalloc nullPfn st size = .ok (0, st)

theorem physToVirt_ne_zero (phys : ℕ) : physToVirt phys ≠ 0 := by
  have hle : kernelVaddrBase ≤ physToVirt phys := Nat.right_le_or
  have hpos : 0 < kernelVaddrBase := by decide
  omega

theorem kmalloc_of_noMemory (nullPfn : ℕ) {st : SlabState} {size : ℕ} (h : NoMemory st size) :
    ∃ a, a ≠ 0 ∧ kmalloc nullPfn st size = .ok (a, st) := by
  unfold NoMemory at h
  unfold kmalloc
  split_ifs at h ⊢
  · rw [allocPages_of_empty fun k hk hlt => h k hlt hk]
    exact ⟨_, physToVirt_ne_zero _, rfl⟩
  · rw [getObject_of_empty h.1 h.2]
    exact ⟨_, physToVirt_ne_zero _, rfl⟩

theorem not_reportsNoMemory {nullPfn : ℕ} {st st' : SlabState} {size a : ℕ} (ha : a ≠ 0)
    (h : kmalloc nullPfn st size = .ok (a, st')) : ¬ ReportsNoMemory nullPfn st size := by
  intro hrep
  rw [ReportsNoMemory, h] at hrep
  exact ha (Prod.mk.inj (Except.ok.inj hrep)).1

/-- **Out of memory.** In every state and for every size without suitable memory, `kmalloc` leaves the
    state as it is, and `phys_to_virt` makes an address of the NULL that the allocators return: the
    result is never NULL. -/
theorem kmalloc_no_memory (nullPfn : ℕ) (st : SlabState) (size : ℕ) (h : NoMemory st size) :
    ¬ ReportsNoMemory nullPfn st size ∧ ∃ a, a ≠ 0 ∧ kmalloc nullPfn st size = .ok (a, st) := by
  obtain ⟨a, ha, hrun⟩ := kmalloc_of_noMemory nullPfn h
  exact ⟨not_reportsNoMemory ha hrun, a, ha, hrun⟩

/-- A request for 4 MiB is of order 10, and no free list has that order. -/
theorem noMemory_4M (st : SlabState) : NoMemory st 0x400000 := by
  have horder : kmallocOrder 0x400000 = 10 := by
    obtain ⟨hstop, hgo⟩ := kmallocOrder_spec 0x400000
    have hlow : ¬ kmallocOrder 0x400000 < 10 := by
      intro hlt
      have := Nat.mul_le_mul_left (pageSize + 1)
        (Nat.pow_le_pow_right (n := 2) (by norm_num) (Nat.le_of_lt_succ hlt))
      exact absurd (lt_of_lt_of_le hstop this) (by decide)
    have hhigh : ¬ 10 < kmallocOrder 0x400000 := fun hlt => absurd (hgo 10 hlt) (by decide)
    omega
  rw [NoMemory, if_pos (by decide)]
  intro k hlt hk
  unfold maxOrder at hlt
  omega

/-- With 2 MiB of memory after boot, a request for 4 MiB is answered with an address. -/
theorem kmalloc_4M_not_null : ∃ κ,
    Kernel.boot [⟨0, 0x80000⟩] 512 (fun _ => kmemCacheInit 0) (fun _ => 0) = .ok κ ∧
      NoMemory κ.state 0x400000 ∧ ¬ ReportsNoMemory 0 κ.state 0x400000 := by
  obtain ⟨κ, -, hboot, -⟩ := kernel_boot_ok (n := 512) (by decide) [⟨0, 0x80000⟩]
    (fun _ => kmemCacheInit 0) (fun _ => 0)
  obtain ⟨a, ha, hrun⟩ := kmalloc_of_noMemory 0 (noMemory_4M κ.state)
  exact ⟨κ, hboot, noMemory_4M κ.state, not_reportsNoMemory ha hrun⟩

/-- Of three free pages one has become a slab of another cache and two are handed out. A request for 64
    bytes is answered with an address. -/
theorem kmalloc_no_memory_exhausted : ∃ κ₀ κ,
    Kernel.boot [⟨0x2000, 0x1000⟩] 4 (fun _ => kmemCacheInit 0) (fun _ => 0) = .ok κ₀ ∧
      κ₀.run [.getObject 24, .page (.alloc 0), .page (.alloc 0)] = .ok κ ∧
      ¬ ReportsNoMemory 0 κ.state 64 ∧ ∃ a, a ≠ 0 ∧ kmalloc 0 κ.state 64 = .ok (a, κ.state) := by
  obtain ⟨κ₀, hboot⟩ : ∃ κ₀, Kernel.boot [⟨0x2000, 0x1000⟩] 4 (fun _ => kmemCacheInit 0) (fun _ => 0) =
      .ok κ₀ := ⟨_, rfl⟩
  obtain ⟨κ, hrun⟩ : ∃ κ, κ₀.run [.getObject 24, .page (.alloc 0), .page (.alloc 0)] = .ok κ := by
    cases hboot
    exact ⟨_, rfl⟩
  have hempty : NoMemory κ.state 64 := by
    cases hboot
    cases hrun
    decide
  exact ⟨κ₀, κ, hboot, hrun, kmalloc_no_memory 0 κ.state 64 hempty⟩

end RaspiKernel.Mm
