import RaspiKernel.Lib.AlignedBlock
import RaspiKernel.Memblock.Basic

/-!
# The page frame database and the buddy system: model

Model of the buddy part of `src/mm.c` (lines 29–331) over the data types of
`include/mm.h`.

* A `struct page *` into `mem_map` is its index (`page_to_pfn`), a total
  function `ℕ → Page` is the array. `struct page` keeps the words the allocators
  read: `flags`, the word shared by `private` and `slab_cache` (they overlap in
  the union), and `freelist`.
* The intrusive list `free_area[order].free_list` is the list of the page
  frame numbers linked on it, in list order. `list_del` of a page that is not
  linked there would follow NULL or foreign links, so the model stops with
  `Stop.notLinked` in that case; the theorems show that it never does.
* `nr_free` and `managed_pages` are `unsigned long`; they are integers here, so
  that a decrement below zero would be visible.
* The `DEMO` blocks only print and are left out.
* Names drop the leading `__` of the source. Where that would give two functions one name, the
  inner one has a prime: `freeOnePage'` is `__free_one_page`.
-/

namespace RaspiKernel.Mm

open Memblock (Region)

/-! ## Constants of `include/mm.h` -/

/-- `MAX_ORDER`. -/
abbrev maxOrder : ℕ := 10

/-- `PAGE_SHIFT`. -/
abbrev pageShift : ℕ := 12

/-- `PG_USED`: page frame used. -/
abbrev PG_USED : ℕ := 1
/-- `PG_AVAIL`: free and not (yet) in the buddy system. -/
abbrev PG_AVAIL : ℕ := 4
/-- `PG_slab`: used by the slab allocator. -/
abbrev PG_slab : ℕ := 0x20
/-- `PG_buddy`: first page of a free block. -/
abbrev PG_buddy : ℕ := 0x40
/-- `PG_RESERVED`. -/
abbrev PG_RESERVED : ℕ := 0x80

/-! ## Data types -/

/-- `struct page`. -/
structure Page where
  flags : ℕ
  /-- `private` and `slab_cache`, one word of the union. A `struct kmem_cache *` is its index in
      `kmem_caches`. -/
  priv : ℕ
  /-- `freelist`, NULL is `0`. -/
  freelist : ℕ
  deriving DecidableEq, Repr

/-- A `struct page` whose bytes are zero. -/
def Page.zero : Page := ⟨0, 0, 0⟩

/-- `struct free_area`. -/
structure FreeArea where
  freeList : List ℕ
  nrFree : ℤ
  deriving DecidableEq, Repr

/-- `mem_map` and the one `struct zone`. -/
structure MmState where
  memMap : ℕ → Page
  freeArea : ℕ → FreeArea
  managedPages : ℤ

/-- The ways in which a call does not come back. -/
inductive Stop where
  /-- The error branch of `free_one_page`: it prints
      "Error: Try to page %x order %d, which is not allocated from buddy system (flag %x)." with
      these arguments and spins in `while (1)`. -/
  | notAllocated (phys order flags : ℕ)
  /-- `list_del` of a page that is not linked on the list. -/
  | notLinked (page order : ℕ)
  /-- A memblock call that does not come back. -/
  | memblock (e : Memblock.Stop)
  deriving DecidableEq, Repr

/-- `mem_map[i] = page`. -/
def MmState.setPage (s : MmState) (i : ℕ) (page : Page) : MmState :=
  { s with memMap := Function.update s.memMap i page }

/-- `page->flags = flags`. -/
def MmState.setFlags (s : MmState) (i flags : ℕ) : MmState :=
  s.setPage i { s.memMap i with flags := flags }

/-! ## Buddies -/

/-- `__find_buddy_pfn` (lines 30–34). -/
def findBuddyPfn (pagePfn order : ℕ) : ℕ := pagePfn ^^^ 1 <<< order

/-- `page_is_buddy` (lines 49–52). -/
def pageIsBuddy (buddy : Page) (order : ℕ) : Bool := buddy.flags == PG_buddy && buddy.priv == order

/-- `find_buddy_page_pfn` (lines 55–67): the buddy if it can be merged, and `*buddy_pfn`. The
    pointer `page + (__buddy_pfn - pfn)` is computed on indices of `mem_map`. -/
def findBuddyPagePfn (s : MmState) (page pfn order : ℕ) : Option ℕ × ℕ :=
  let buddyPfn := findBuddyPfn pfn order
  let buddy := page + buddyPfn - pfn
  (if pageIsBuddy (s.memMap buddy) order then some buddy else none, buddyPfn)

/-! ## Free areas -/

/-- `del_page_from_free_area` (lines 70–75). -/
def delPageFromFreeArea (s : MmState) (page order : ℕ) : Except Stop MmState :=
  let area := s.freeArea order
  if page ∈ area.freeList then
    .ok { s with
      freeArea := Function.update s.freeArea order
        { freeList := area.freeList.erase page, nrFree := area.nrFree - 1 }
      managedPages := s.managedPages - 1 }
  else .error (.notLinked page order)

/-- `add_to_free_area` (lines 78–83). -/
def addToFreeArea (s : MmState) (page order : ℕ) : MmState :=
  let area := s.freeArea order
  { s with
    freeArea := Function.update s.freeArea order
      { freeList := area.freeList ++ [page], nrFree := area.nrFree + 1 }
    managedPages := s.managedPages + 1 }

/-- `set_page_order` (lines 86–89). -/
def setPageOrder (s : MmState) (page order : ℕ) : MmState :=
  s.setPage page { s.memMap page with priv := order }

/-- `set_page_buddy` (lines 92–95). -/
def setPageBuddy (s : MmState) (page : ℕ) : MmState := s.setFlags page PG_buddy

/-- `set_buddy_order` (lines 98–102). -/
def setBuddyOrder (s : MmState) (page order : ℕ) : MmState :=
  setPageBuddy (setPageOrder s page order) page

/-! ## Freeing -/

/-- The `while (order < MAX_ORDER - 1)` loop of `__free_one_page` and the insertion after it (lines
    111–151). The first argument is `MAX_ORDER - 1 - order`, the number of times the loop test can
    still succeed. -/
def freeLoop : ℕ → MmState → ℕ → ℕ → ℕ → Except Stop MmState
  | 0, s, page, _, order => .ok (addToFreeArea (setBuddyOrder s page order) page order)
  | rem + 1, s, page, pfn, order =>
    match findBuddyPagePfn s page pfn order with
    | (none, _) => .ok (addToFreeArea (setBuddyOrder s page order) page order)
    | (some buddy, buddyPfn) => do
      let s ← delPageFromFreeArea s buddy order
      let combinedPfn := buddyPfn &&& pfn
      freeLoop rem s (page + combinedPfn - pfn) combinedPfn (order + 1)

/-- `__free_one_page` (lines 105–152). -/
def freeOnePage' (s : MmState) (page pfn order : ℕ) : Except Stop MmState :=
  freeLoop (maxOrder - 1 - order) s page pfn order

/-- `free_one_page` (lines 321–331). -/
def freeOnePage (s : MmState) (page pfn order : ℕ) : Except Stop MmState :=
  if (s.memMap page).flags ≠ PG_USED then
    .error (.notAllocated (pfn <<< pageShift) order (s.memMap page).flags)
  else freeOnePage' s page pfn order

/-! ## Allocating -/

/-- `get_page_from_free_area` (lines 198–203). -/
def getPageFromFreeArea (area : FreeArea) : Option ℕ := area.freeList.head?

/-- The `while (high_order > low_order)` loop of `expand` (lines 227–247). -/
def expandLoop (page lowOrder : ℕ) : ℕ → ℕ → MmState → MmState
  | 0, _, s => s
  | highOrder + 1, size, s =>
    if highOrder + 1 > lowOrder then
      let size := size >>> 1
      let s := setBuddyOrder s (page + size) highOrder
      let s := addToFreeArea s (page + size) highOrder
      expandLoop page lowOrder highOrder size s
    else s

/-- `expand` (lines 206–248). -/
def expand (s : MmState) (page lowOrder highOrder : ℕ) : MmState :=
  let size := 1 <<< highOrder
  if lowOrder = highOrder then s else expandLoop page lowOrder highOrder size s

/-- The `for` loop of `__rmqueue_smallest` (lines 265–284). The second argument is
    `MAX_ORDER - current_order`, the third is `current_order`. -/
def rmqueueLoop (order : ℕ) : ℕ → ℕ → MmState → Except Stop (Option ℕ × MmState)
  | 0, _, s => .ok (none, s)
  | rem + 1, currentOrder, s =>
    match getPageFromFreeArea (s.freeArea currentOrder) with
    | none => rmqueueLoop order rem (currentOrder + 1) s
    | some page => do
      let s ← delPageFromFreeArea s page currentOrder
      let s := expand s page order currentOrder
      let s := setPageOrder s page order
      .ok (some page, s.setFlags page PG_USED)

/-- `__rmqueue_smallest` (lines 251–285). -/
def rmqueueSmallest (s : MmState) (order : ℕ) : Except Stop (Option ℕ × MmState) :=
  rmqueueLoop order (maxOrder - order) order s

/-- `rmqueue` (lines 288–294). -/
def rmqueue (s : MmState) (order : ℕ) : Except Stop (Option ℕ × MmState) := rmqueueSmallest s order

/-- `__alloc_pages` (lines 315–318). -/
def allocPages (s : MmState) (order : ℕ) : Except Stop (Option ℕ × MmState) := rmqueue s order

/-! ## Initialisation -/

/-- The page frame numbers the inner loop of `page_frame_init` visits for `rgn` (line 169). -/
def pfns (rgn : Region) : List ℕ :=
  List.range' (rgn.base >>> 12) ((rgn.base + rgn.size) >>> 12 + 1 - (rgn.base >>> 12))

/-- The first loop of `page_frame_init` (lines 168–173). `INIT_LIST_HEAD` on a page that is on no
    list has no counterpart here. -/
def markReserved (rgns : List Region) (s : MmState) : MmState :=
  rgns.foldl (fun s rgn => (pfns rgn).foldl (fun s pfn => s.setFlags pfn PG_RESERVED) s) s

/-- The body of the second loop of `page_frame_init` (lines 176–180). -/
def initPage (s : MmState) (i : ℕ) : Except Stop MmState :=
  if (s.memMap i).flags = PG_RESERVED then .ok s
  else freeOnePage' (s.setFlags i PG_AVAIL) i i 0

/-- The two loops of `page_frame_init` (lines 167–181), after `nr_pages` and `mem_map` have been set:
    `rgns` are the regions of `memblock.reserved`. -/
def pageFrameLoops (s : MmState) (rgns : List Region) (nrPages : ℕ) : Except Stop MmState :=
  (List.range nrPages).foldlM initPage (markReserved rgns s)

/-- `buddy_free_area_init` (lines 188–195). -/
def buddyFreeAreaInit (s : MmState) : MmState :=
  { s with freeArea := fun i => if i < maxOrder then ⟨[], 0⟩ else s.freeArea i }

/-- The state before `buddy_init`: `zone` is zero initialised, `mem_map` has the given contents. -/
def MmState.boot (memMap : ℕ → Page) : MmState := ⟨memMap, fun _ => ⟨[], 0⟩, 0⟩

/-- `buddy_init` (lines 299–305) on a `mem_map` with the given contents. -/
def buddyInit (memMap : ℕ → Page) (rgns : List Region) (nrPages : ℕ) : Except Stop MmState :=
  pageFrameLoops (buddyFreeAreaInit (MmState.boot memMap)) rgns nrPages

/-- `sizeof(struct page)`. -/
abbrev sizeofPage : ℕ := 48

/-- `page_frame_init` (lines 155–185): `mem_map`, `nr_pages` and the two structures it leaves. The
    storage that memblock hands out for `mem_map` has the given contents. -/
def pageFrameInit (fuel : ℕ) (stack : ℕ × ℕ) (mb : Memblock.State) (contents : ℕ → Page)
    (s : MmState) : Except Stop (ℕ × ℕ × Memblock.State × MmState) := do
  let nrPages := mb.currentLimit >>> 12
  let (memMap, mb) ← (Memblock.physAlloc fuel stack mb (sizeofPage * nrPages)).mapError .memblock
  let s ← pageFrameLoops { s with memMap := contents } mb.reserved.list nrPages
  .ok (memMap, nrPages, mb, s)

end RaspiKernel.Mm
