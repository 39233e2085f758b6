import RaspiKernel.Lib.ByteMem
import RaspiKernel.Mm.Buddy

/-!
# The slab allocator: model

Model of `src/slab.c` over `include/slab.h`, on top of the page allocator.

* A `struct kmem_cache *` is its index in `kmem_caches`. The array is a function
  of the index, so that an index from `NR_OBJECTS` on reads the memory behind
  the array.
* `node.partial` is the list of the page frame numbers linked on it, in list
  order (`partialSlabs`). `nr_partial` is set to 0 and never read, it is left
  out.
* The bytes of the slabs are in `ram`, indexed by kernel virtual addresses. The
  free pointers are stored there, inside the objects, and users overwrite them.
-/

namespace RaspiKernel.Mm

open Lib
open Memblock (physToVirt virtToPhys align)

/-- `NR_OBJECTS`. -/
abbrev nrObjects : ℕ := 9

/-- `OBJECT_SIZE(n)`. -/
def objectSize (n : ℕ) : ℕ := 1 <<< (n + 3)

/-- `PAGE_SIZE`. -/
abbrev pageSize : ℕ := 1 <<< 12

/-- `struct kmem_cache` with its `struct kmem_cache_node`. -/
structure KmemCache where
  size : ℕ
  objectSize : ℕ
  offset : ℕ
  partialSlabs : List ℕ
  deriving DecidableEq, Repr

/-- The page allocator, `kmem_caches` and the memory. -/
structure SlabState where
  mm : MmState
  caches : ℕ → KmemCache
  ram : Mem

/-! ## Initialisation -/

/-- `calculate_size` (lines 16–20): `ALIGN(obj_size, sizeof(void *))` as an `unsigned int`. -/
def calculateSize (objSize : ℕ) : ℕ := align objSize 8 % 2 ^ 32

/-- `kmem_cache_init` and `kmem_cache_node_init` (lines 9–13, 22–28). -/
def kmemCacheInit (objectSize : ℕ) : KmemCache where
  size := calculateSize objectSize
  objectSize := objectSize
  offset := 0
  partialSlabs := []

/-- `slab_init` and `kmem_caches_init` (lines 31–35, 161–164). -/
def slabInit (st : SlabState) : SlabState :=
  { st with caches := fun i => if i < nrObjects then kmemCacheInit (objectSize i) else st.caches i }

/-! ## Slabs -/

/-- `page_to_phys`. -/
def pageToPhys (page : ℕ) : ℕ := page <<< pageShift

/-- `phys_to_page`. -/
def physToPage (phys : ℕ) : ℕ := phys >>> pageShift

/-- `slab_address` (lines 38–41). -/
def slabAddress (slab : ℕ) : ℕ := physToVirt (pageToPhys slab)

/-- `set_freepointer` (lines 51–55). -/
def setFreepointer (cache : KmemCache) (ram : Mem) (object fp : ℕ) : Mem :=
  store ram (object + cache.offset) fp 8

/-- The loop of `allocate_slab` that links the objects, and the NULL after it (lines 88–95). The
    second argument is `nr_objects - 1 - i`. `setup_object` returns its argument. -/
def linkObjects (cache : KmemCache) : ℕ → ℕ → Mem → Mem
  | 0, p, ram => setFreepointer cache ram p 0
  | rem + 1, p, ram =>
    let next := p + cache.size
    linkObjects cache rem next (setFreepointer cache ram p next)

/-- `allocate_slab` (lines 58–98). -/
def allocateSlab (st : SlabState) (idx : ℕ) : Except Stop (Option ℕ × SlabState) := do
  match ← allocPages st.mm 0 with
  | (none, mm) => .ok (none, { st with mm := mm })
  | (some slab, mm) =>
    let cache := st.caches idx
    let mm := mm.setFlags slab PG_slab
    let cache := { cache with partialSlabs := slab :: cache.partialSlabs }
    let mm := mm.setPage slab { mm.memMap slab with priv := idx }
    let start := slabAddress slab
    let mm := mm.setPage slab { mm.memMap slab with freelist := start }
    let nrObjs := pageSize / cache.size
    .ok (some slab, {
      mm := mm
      caches := Function.update st.caches idx cache
      ram := linkObjects cache (nrObjs - 1) start st.ram })

/-! ## Objects -/

/-- `object = slab->freelist; slab->freelist = *(void **) phys_to_virt(object); return object;`
    (lines 108–110 and 118–120). -/
def takeObject (st : SlabState) (slab : ℕ) : ℕ × SlabState :=
  let object := (st.mm.memMap slab).freelist
  let mm := st.mm.setPage slab
    { st.mm.memMap slab with freelist := load st.ram (physToVirt object) 8 }
  (object, { st with mm := mm })

/-- `__get_object` (lines 100–121), NULL is `none`. -/
def getObject' (st : SlabState) (idx : ℕ) : Except Stop (Option ℕ × SlabState) :=
  match (st.caches idx).partialSlabs.find? fun slab => (st.mm.memMap slab).freelist ≠ 0 with
  | some slab =>
    let (object, st) := takeObject st slab
    .ok (some object, st)
  | none => do
    match ← allocateSlab st idx with
    | (none, st) => .ok (none, st)
    | (some slab, st) =>
      let (object, st) := takeObject st slab
      .ok (some object, st)

/-- The loop of `get_object` that finds the cache (lines 130–132). The second argument is
    `NR_OBJECTS - idx`. -/
def cacheLoop (size : ℕ) : ℕ → ℕ → ℕ
  | 0, idx => idx
  | rem + 1, idx => if size ≤ objectSize idx then idx else cacheLoop size rem (idx + 1)

/-- `get_object` (lines 124–139). -/
def getObject (st : SlabState) (size : ℕ) : Except Stop (Option ℕ × SlabState) :=
  getObject' st (cacheLoop size nrObjects 0)

/-- `free_object` (lines 141–158). -/
def freeObject (st : SlabState) (object : ℕ) : SlabState :=
  let slab := physToPage (virtToPhys object)
  if (st.mm.memMap slab).flags ≠ PG_slab then st
  else
    let cache := st.caches (st.mm.memMap slab).priv
    { st with
      ram := setFreepointer cache st.ram object (st.mm.memMap slab).freelist
      mm := st.mm.setPage slab { st.mm.memMap slab with freelist := object } }

end RaspiKernel.Mm
