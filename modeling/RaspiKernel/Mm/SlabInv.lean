import RaspiKernel.Memblock.Alloc
import RaspiKernel.Mm.BuddyRun
import RaspiKernel.Mm.Slab

/-!
# The slab allocator: objects, free lists and slab pages

The objects of a page are aligned blocks of addresses, so that two of them are
equal or disjoint. The free list of a page is a pointer chain through memory
(`Lib.Chain`).

Results:
* `classOf_spec`: `get_object` takes the smallest class that fits.
* `slot_apart`: two objects are the same or share no byte.
* `linkObjects_spec`: a new slab is a chain through all its objects.
* `noNewSlab_exec`: the page allocator makes no slab pages.
-/

namespace RaspiKernel.Mm

open Lib
open Memblock (Region kernelVaddrBase physToVirt virtToPhys physToVirt_eq virtToPhys_eq)

/-! ## Size classes -/

/-- The class `get_object` uses. -/
def classOf (size : ℕ) : ℕ := cacheLoop size nrObjects 0

theorem objectSize_eq (i : ℕ) : objectSize i = 2 ^ (i + 3) := Nat.one_shiftLeft _

theorem cacheLoop_spec (size rem idx : ℕ) (hrem : rem + idx = nrObjects)
    (hlow : ∀ j < idx, objectSize j < size) (hsize : size ≤ 2048) (hpos : 0 < rem) :
    cacheLoop size rem idx < nrObjects ∧ size ≤ objectSize (cacheLoop size rem idx) ∧
      ∀ j < cacheLoop size rem idx, objectSize j < size := by
  induction rem generalizing idx with
  | zero => omega
  | succ rem ih =>
    rw [cacheLoop]
    split_ifs with h
    · exact ⟨by omega, h, hlow⟩
    · have hrem' : 0 < rem := by
        by_contra h0
        -- the last class takes every size up to 2048
        obtain rfl : idx = 8 := by unfold nrObjects at hrem; omega
        rw [objectSize_eq] at h
        omega
      refine ih (idx + 1) (by omega) ?_ hrem'
      intro j hj
      rcases Nat.lt_succ_iff_lt_or_eq.mp hj with hj | rfl
      · exact hlow j hj
      · omega

/-- The smallest class that holds `size`. -/
theorem classOf_spec {size : ℕ} (h : size ≤ 2048) :
    classOf size < nrObjects ∧ size ≤ objectSize (classOf size) ∧
      ∀ j < classOf size, objectSize j < size :=
  cacheLoop_spec size nrObjects 0 rfl (fun _ hj => absurd hj (Nat.not_lt_zero _)) h (by norm_num)

/-! ## The objects of a page -/

/-- The addresses of a page. -/
def pageBlock (p : ℕ) : Block := ⟨slabAddress p, 12⟩

/-- The addresses of an object of class `i` at `a`. -/
def slotBlock (i a : ℕ) : Block := ⟨a, i + 3⟩

/-- There is an object of class `i` at the address `a` of page `p`. -/
def Slot (p i a : ℕ) : Prop := a ∈ pageBlock p ∧ (slotBlock i a).Aligned

theorem slabAddress_eq {p : ℕ} (hp : p < 2 ^ 36) : slabAddress p = kernelVaddrBase + p * 4096 := by
  unfold slabAddress pageToPhys pageShift
  rw [Nat.shiftLeft_eq, physToVirt_eq (by omega)]

section Slots

variable {p q i j a b : ℕ}

theorem pageBlock_aligned (hp : p < 2 ^ 36) : (pageBlock p).Aligned := by
  unfold pageBlock Block.Aligned
  rw [slabAddress_eq hp]
  exact ⟨0xffff000000000 + p, by simp only [kernelVaddrBase]; omega⟩

theorem Slot.subset (h : Slot p i a) (hp : p < 2 ^ 36) (hi : i < nrObjects) {x : ℕ}
    (hx : x ∈ slotBlock i a) : x ∈ pageBlock p := by
  have hle : i + 3 ≤ 12 := by unfold nrObjects at hi; omega
  exact Block.subset_of_mem h.2 (pageBlock_aligned hp) hle (Block.start_mem (slotBlock i a)) h.1 hx

theorem pageBlock_inj (hp : p < 2 ^ 36) (hq : q < 2 ^ 36) {x : ℕ} (h : x ∈ pageBlock p)
    (h' : x ∈ pageBlock q) : p = q := by
  have heq := congrArg Block.start
    (Block.eq_of_mem (pageBlock_aligned hp) (pageBlock_aligned hq) rfl h h')
  simp only [pageBlock, slabAddress_eq hp, slabAddress_eq hq] at heq
  omega

/-- Two objects are the same or share no byte. -/
theorem slot_apart (h : Slot p i a) (h' : Slot q j b) (hp : p < 2 ^ 36) (hq : q < 2 ^ 36)
    (hi : i < nrObjects) (hj : j < nrObjects) (hij : p = q → i = j) (hab : a ≠ b) {x : ℕ}
    (hx : x ∈ slotBlock i a) : x ∉ slotBlock j b := by
  intro hx'
  have hpq := pageBlock_inj hp hq (h.subset hp hi hx) (h'.subset hq hj hx')
  obtain rfl := hij hpq
  exact hab (congrArg Block.start (Block.eq_of_mem h.2 h'.2 rfl hx hx'))

/-- The free pointer of an object is inside the object. -/
theorem add_mem_slotBlock {k : ℕ} (hk : k < 8) : a + k ∈ slotBlock i a := by
  have : 8 ≤ 2 ^ (i + 3) := by
    rw [pow_add]; exact Nat.le_mul_of_pos_left 8 (Nat.two_pow_pos i)
  simp only [slotBlock, Block.mem_def]
  omega

/-- The free pointers of disjoint objects are apart. -/
theorem link_apart (h : ∀ x ∈ slotBlock i a, x ∉ slotBlock j b) : b + 8 ≤ a ∨ a + 8 ≤ b := by
  by_contra hno
  have hmax : a + (max a b - a) = b + (max a b - b) := by omega
  refine h (a + (max a b - a)) (add_mem_slotBlock (by omega)) ?_
  rw [hmax]
  exact add_mem_slotBlock (by omega)

theorem Slot.bounds (h : Slot p i a) (hp : p < 2 ^ 36) :
    kernelVaddrBase + p * 4096 ≤ a ∧ a < kernelVaddrBase + p * 4096 + 4096 := by
  have := h.1
  rw [pageBlock, Block.mem_def, slabAddress_eq hp] at this
  exact this

/-- `phys_to_page(virt_to_phys(object))` is the page of the object. -/
theorem Slot.page (h : Slot p i a) (hp : p < 2 ^ 36) : physToPage (virtToPhys a) = p := by
  have hb := h.bounds hp
  unfold physToPage pageShift
  rw [virtToPhys_eq, Nat.shiftRight_eq_div_pow]
  unfold kernelVaddrBase at hb
  omega

/-- `phys_to_virt` of a kernel virtual address is the address. -/
theorem Slot.physToVirt (h : Slot p i a) (hp : p < 2 ^ 36) : physToVirt a = a := by
  have hb := h.bounds hp
  obtain ⟨c, rfl⟩ : ∃ c, a = kernelVaddrBase + c := ⟨a - kernelVaddrBase, by omega⟩
  have hc : c < 2 ^ 48 := by omega
  rw [← physToVirt_eq hc]
  unfold Memblock.physToVirt
  rw [Nat.or_assoc, Nat.or_self]

end Slots

/-! ## A new slab -/

/-- The addresses of `n` objects of `size` bytes from `p` on. -/
def slots (p size n : ℕ) : List ℕ := (List.range n).map fun k => p + k * size

theorem slots_succ (p size n : ℕ) : slots p size (n + 1) = p :: slots (p + size) size n := by
  unfold slots
  rw [List.range_succ_eq_map, List.map_cons, List.map_map]
  simp only [Nat.zero_mul, Nat.add_zero, List.cons.injEq, true_and]
  refine List.map_congr_left fun k _ => ?_
  simp only [Function.comp_apply, Nat.succ_eq_add_one]
  ring

theorem slots_nodup {size : ℕ} (hsize : 0 < size) (p n : ℕ) : (slots p size n).Nodup := by
  refine List.nodup_range.map fun k l h => ?_
  have h' : k * size = l * size := by simpa using h
  exact Nat.eq_of_mul_eq_mul_right hsize h'

/-- `allocate_slab` leaves a chain through all the objects and writes nothing else. -/
theorem linkObjects_spec {cache : KmemCache} (hoff : cache.offset = 0) (hsize : 8 ≤ cache.size)
    (rem p : ℕ) (ram : Mem) (hp : 0 < p) (hend : p + (rem + 1) * cache.size ≤ 2 ^ 64) :
    Chain (linkObjects cache rem p ram) p (slots p cache.size (rem + 1)) ∧
      ∀ x, ¬ (p ≤ x ∧ x < p + (rem + 1) * cache.size) → linkObjects cache rem p ram x = ram x := by
  induction rem generalizing p ram with
  | zero =>
    simp only [linkObjects, setFreepointer, hoff, Nat.add_zero]
    refine ⟨?_, ?_⟩
    · rw [slots_succ]
      exact ⟨rfl, by omega, load_store (by norm_num)⟩
    · intro x hx
      exact store_of_not_mem (by omega)
  | succ rem ih =>
    rw [show (rem + 1 + 1) * cache.size = cache.size + (rem + 1) * cache.size by ring] at hend ⊢
    have hpos : 0 < (rem + 1) * cache.size := Nat.mul_pos (by omega) (by omega)
    generalize hlen : (rem + 1) * cache.size = len at hend hpos ⊢
    rw [hlen] at ih
    obtain ⟨hchain, hframe⟩ := ih (p + cache.size) (store ram p (p + cache.size) 8) (by omega)
      (by omega)
    simp only [linkObjects, setFreepointer, hoff, Nat.add_zero]
    refine ⟨?_, ?_⟩
    · rw [slots_succ]
      refine ⟨rfl, by omega, ?_⟩
      -- the link of the first object is written before the rest, and is not touched again
      have hload : load (linkObjects cache rem (p + cache.size)
          (store ram p (p + cache.size) 8)) p 8 = p + cache.size := by
        rw [load_congr fun k hk => hframe (p + k) (by omega), load_store (by omega)]
      rw [hload]
      exact hchain
    · intro x hx
      rw [hframe x (by omega)]
      exact store_of_not_mem (by omega)

/-- The objects of a page. -/
theorem mem_slots_iff {p i a : ℕ} (hp : p < 2 ^ 36) (hi : i < nrObjects) :
    a ∈ slots (slabAddress p) (2 ^ (i + 3)) (pageSize / 2 ^ (i + 3)) ↔ Slot p i a := by
  have hle : i + 3 ≤ 12 := by unfold nrObjects at hi; omega
  obtain ⟨c, hc⟩ : 2 ^ (i + 3) ∣ 4096 := pow_dvd_pow 2 hle
  have hpos := Nat.two_pow_pos (i + 3)
  have hpage : pageSize / 2 ^ (i + 3) = c := by
    rw [show pageSize = 4096 from rfl, hc, Nat.mul_div_cancel_left _ hpos]
  obtain ⟨d, hd⟩ : 2 ^ (i + 3) ∣ slabAddress p :=
    (pow_dvd_pow 2 hle).trans (pageBlock_aligned hp)
  rw [hpage]
  simp only [slots, List.mem_map, List.mem_range, Slot, pageBlock, slotBlock, Block.mem_def,
    Block.Aligned, show (2 : ℕ) ^ 12 = 4096 from rfl]
  generalize 2 ^ (i + 3) = w at *
  rw [hd, hc]
  constructor
  · rintro ⟨k, hk, rfl⟩
    have := Nat.mul_lt_mul_of_pos_right hk hpos
    refine ⟨⟨by omega, by rw [Nat.mul_comm w c]; omega⟩, ⟨d + k, by ring⟩⟩
  · rintro ⟨⟨h1, h2⟩, ⟨e, rfl⟩⟩
    have hde : d ≤ e := Nat.le_of_mul_le_mul_left h1 hpos
    refine ⟨e - d, ?_, ?_⟩
    · rw [← Nat.mul_add] at h2
      have := Nat.lt_of_mul_lt_mul_left h2
      omega
    · rw [Nat.sub_mul, Nat.mul_comm d w, Nat.mul_comm e w]
      omega

/-- The free list of a new slab of class `i` at page `p`. -/
theorem linkObjects_page {cache : KmemCache} {p i : ℕ} (hp : p < 2 ^ 36) (hi : i < nrObjects)
    (hsize : cache.size = 2 ^ (i + 3)) (hoff : cache.offset = 0) (ram : Mem) :
    Chain (linkObjects cache (pageSize / cache.size - 1) (slabAddress p) ram) (slabAddress p)
        (slots (slabAddress p) (2 ^ (i + 3)) (pageSize / 2 ^ (i + 3))) ∧
      ∀ x ∉ pageBlock p,
        linkObjects cache (pageSize / cache.size - 1) (slabAddress p) ram x = ram x := by
  have hle : i + 3 ≤ 12 := by unfold nrObjects at hi; omega
  have h8 : 8 ≤ 2 ^ (i + 3) := by
    rw [pow_add]; exact Nat.le_mul_of_pos_left 8 (Nat.two_pow_pos i)
  obtain ⟨c, hc⟩ : 2 ^ (i + 3) ∣ 4096 := pow_dvd_pow 2 hle
  have hnr : pageSize / 2 ^ (i + 3) = c := by
    rw [show pageSize = 4096 from rfl, hc, Nat.mul_div_cancel_left _ (by omega)]
  have hcpos : 0 < c := by
    rcases Nat.eq_zero_or_pos c with rfl | hpos
    · simp at hc
    · exact hpos
  have hlen : (c - 1 + 1) * cache.size = 4096 := by
    rw [Nat.sub_add_cancel hcpos, hsize, hc, Nat.mul_comm]
  have hstart := slabAddress_eq hp
  unfold kernelVaddrBase at hstart
  have h := linkObjects_spec hoff (hsize ▸ h8) (c - 1) (slabAddress p) ram (by omega) (by omega)
  rw [hlen, Nat.sub_add_cancel hcpos, hsize] at h
  rw [hsize, hnr]
  refine ⟨h.1, fun x hx => h.2 x ?_⟩
  rwa [pageBlock, Block.mem_def] at hx

/-! ## Pages become slabs in `allocate_slab` only -/

/-- No page has become a slab page. -/
def NoNewSlab (s s' : MmState) : Prop :=
  ∀ x, (s'.memMap x).flags = PG_slab → (s.memMap x).flags = PG_slab

theorem NoNewSlab.refl (s : MmState) : NoNewSlab s s := fun _ h => h

/-- The page allocator writes no `PG_slab`. -/
theorem OnlyBuddy.noNewSlab {s s' : MmState} (h : OnlyBuddy s s') : NoNewSlab s s' :=
  fun _ hx => h.flags (by decide) hx

theorem noNewSlab_rmqueueLoop {order : ℕ} {s s' : MmState} {r : Option ℕ} (rem cur : ℕ)
    (h : rmqueueLoop order rem cur s = .ok (r, s')) : NoNewSlab s s' := by
  obtain ⟨s₁, h₁, hflags⟩ := rmqueueLoop_flags rem cur h
  intro x hx
  rcases hflags x with ⟨-, he⟩ | ⟨-, he⟩
  · exact h₁.noNewSlab x (he ▸ hx)
  · exact absurd (hx.symm.trans he) (by decide)

/-- A call of the page allocator. -/
theorem noNewSlab_exec {σ σ' : System} {op : Op} (h : σ.exec op = .ok σ') :
    NoNewSlab σ.mm σ'.mm := by
  cases op with
  | alloc order =>
    obtain ⟨⟨r, mm⟩, halloc, h⟩ := bind_eq_ok.mp h
    have hmm := noNewSlab_rmqueueLoop _ _ halloc
    cases r <;> obtain rfl := Except.ok.inj h <;> exact hmm
  | free i =>
    simp only [System.exec] at h
    cases hi : σ.live[i]? with
    | none =>
      rw [hi] at h
      obtain rfl := Except.ok.inj h
      exact NoNewSlab.refl _
    | some b =>
      rw [hi] at h
      obtain ⟨mm, hfree, h⟩ := bind_eq_ok.mp h
      obtain rfl := Except.ok.inj h
      unfold freeOnePage at hfree
      split_ifs at hfree
      exact (onlyBuddy_freeLoop _ _ _ _ hfree).noNewSlab

/-- After `buddy_init` no page is a slab. -/
theorem noNewSlab_boot {rgns : List Region} {n : ℕ} {σ : System}
    (h : System.boot rgns n = .ok σ) (x : ℕ) : (σ.mm.memMap x).flags ≠ PG_slab := by
  intro hx
  have hflags := boot_flags h x
  rw [hx] at hflags
  exact absurd hflags (by decide)

end RaspiKernel.Mm
