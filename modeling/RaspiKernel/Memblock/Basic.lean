import RaspiKernel.Lib.Bits
import RaspiKernel.Lib.Span

/-!
# memblock: model

Model of `src/memblock.c` (lines 26–292) over `include/memblock.h` and the
macros of `library/kernel.h` and `include/mm.h` it uses.

* `unsigned long` and `phys_addr_t` values are naturals; `u64` is the
  reduction modulo `2 ^ 64` at the additions that can wrap.
* `regions` is the memory behind the array pointer, as a function of the slot
  number. It goes on after the array, so a write at a slot `≥ max` is visible.
* `memblock_find_in_range` has no bound on its rounds. `findInRange` takes one,
  and stops with `Stop.searching` when it is used up.
* `memmove` on whole slots is `moveRegions`.
* `memblock_double_array` is `while (1);`, a call that reaches it does not come
  back (`Stop.doubleArray`). Every path of `memblock_add_range` that comes back
  returns `0`, so the models return the new state only.
-/

namespace RaspiKernel.Memblock

open Lib

/-- Reduction of an `unsigned long`. -/
def u64 (x : ℕ) : ℕ := x % 2 ^ 64

theorem u64_eq {x : ℕ} (h : x < 2 ^ 64) : u64 x = x := Nat.mod_eq_of_lt h

/-- `ALIGN(x, a)` on `unsigned long` (library/kernel.h line 44): `((x) + (a) - 1) & ~(a - 1)`. -/
def align (x a : ℕ) : ℕ := u64 (x + a - 1) &&& (2 ^ 64 - a)

/-- `struct memblock_region`. -/
abbrev Region := Span

/-- `struct memblock_type`. -/
structure MemblockType where
  cnt : ℕ
  max : ℕ
  totalSize : ℕ
  regions : ℕ → Region

/-- `regions[0..cnt)`, what `for_each_memblock_type` goes through. -/
def MemblockType.list (t : MemblockType) : List Region := (List.range t.cnt).map t.regions

/-- One of the two types of `struct memblock memblock` as initialised (lines 29–37): an array of
    `max` zeroed slots, whose first one is the empty dummy entry, and whatever memory `g` follows the
    array. The source has `max = INIT_MEMLBOCK_REGIONS`, which is 32. -/
def MemblockType.init (max : ℕ) (g : ℕ → Region) : MemblockType where
  cnt := 1
  max := max
  totalSize := 0
  regions j := if j < max then ⟨0, 0⟩ else g j

/-- A call that does not come back. -/
inductive Stop where
  /-- `memblock_double_array` (lines 128–134). -/
  | doubleArray
  /-- `memblock_find_in_range` is still searching after the given number of rounds. -/
  | searching
  deriving DecidableEq, Repr

/-! ## Insertion -/

/-- `memmove(&regions[dest], &regions[src], n * sizeof(*regions))`. -/
def moveRegions (regions : ℕ → Region) (dest src n : ℕ) : ℕ → Region :=
  fun j => if dest ≤ j ∧ j < dest + n then regions (src + (j - dest)) else regions j

/-- `memblock_insert_region` (lines 116–126). -/
def insertRegion (type : MemblockType) (idx base size : ℕ) : MemblockType :=
  { type with
    regions := Function.update (moveRegions type.regions (idx + 1) idx (type.cnt - idx)) idx
      ⟨base, size⟩
    cnt := type.cnt + 1
    totalSize := u64 (type.totalSize + size) }

/-- The variables of the insertion loop of `memblock_add_range`. -/
structure Scan where
  idx : ℕ
  base : ℕ
  nrNew : ℕ
  type : MemblockType

/-- `nr_new++; if (insert) memblock_insert_region(type, idx, base, stop - base);`, the two places in
    `memblock_add_range` that add a region. -/
def Scan.addNew (insert : Bool) (stop : ℕ) (st : Scan) : Scan :=
  { st with
    nrNew := st.nrNew + 1
    type := if insert then insertRegion st.type st.idx st.base (stop - st.base) else st.type }

/-- The `for_each_memblock_type` loop of `memblock_add_range` (lines 193–208). The first argument is
    `type->cnt - idx`: a round either advances `idx` by one, or inserts a region (one more to go)
    and advances `idx` by two. -/
def scanLoop (insert : Bool) (stop : ℕ) : ℕ → Scan → Scan
  | 0, st => st
  | rem + 1, st =>
    let rbase := (st.type.regions st.idx).base
    let rend := u64 (rbase + (st.type.regions st.idx).size)
    if rbase ≥ stop then st
    else if rend ≤ st.base then scanLoop insert stop rem { st with idx := st.idx + 1 }
    else
      let st := if rbase > st.base then
          let st := st.addNew insert rbase
          if insert then { st with idx := st.idx + 1 } else st
        else st
      scanLoop insert stop rem { st with base := min rend stop, idx := st.idx + 1 }

/-- The remaining portion (lines 210–215). -/
def Scan.addRest (insert : Bool) (stop : ℕ) (st : Scan) : Scan :=
  if st.base < stop then st.addNew insert stop else st

/-- One pass over the regions, from the label `repeat` to the insertion of the remaining portion
    (lines 187–215): `nr_new` and the new state. -/
def pass (insert : Bool) (type : MemblockType) (obase stop : ℕ) : ℕ × MemblockType :=
  let st := scanLoop insert stop type.cnt { idx := 0, base := obase, nrNew := 0, type := type }
  let st := st.addRest insert stop
  (st.nrNew, st.type)

/-- The loop of `memblock_merge_regions` (lines 140–152). The first argument is
    `type->cnt - 1 - i`. -/
def mergeLoop : ℕ → ℕ → MemblockType → MemblockType
  | 0, _, type => type
  | rem + 1, i, type =>
    let this := type.regions i
    let next := type.regions (i + 1)
    if u64 (this.base + this.size) ≠ next.base then mergeLoop rem (i + 1) type
    else
      let regions := Function.update type.regions i ⟨this.base, u64 (this.size + next.size)⟩
      let regions := moveRegions regions (i + 1) (i + 2) (type.cnt - (i + 2))
      mergeLoop rem i { type with regions := regions, cnt := type.cnt - 1 }

/-- `memblock_merge_regions` (lines 136–153). -/
def mergeRegions (type : MemblockType) : MemblockType := mergeLoop (type.cnt - 1) 0 type

/-- `memblock_add_range` (lines 158–233). -/
def addRange (type : MemblockType) (base size : ℕ) : Except Stop MemblockType :=
  let stop := u64 (base + size)
  if size = 0 then .ok type
  else if (type.regions 0).size = 0 then
    .ok { type with regions := Function.update type.regions 0 ⟨base, size⟩, totalSize := size }
  else
    let insert : Bool := type.cnt * 2 + 1 < type.max
    let (nrNew, type) := pass insert type base stop
    if nrNew = 0 then .ok type
    else if insert then .ok (mergeRegions type)
    else if type.cnt + nrNew > type.max then .error .doubleArray
    else
      let (nrNew, type) := pass true type base stop
      if nrNew = 0 then .ok type else .ok (mergeRegions type)

/-- `memblock_reserve` (lines 239–242) on `memblock.reserved`. -/
def reserve (type : MemblockType) (base size : ℕ) : Except Stop MemblockType :=
  addRange type base (align size 8)

/-! ## Addresses (`include/mm.h`) -/

/-- `KERNEL_VADDR_BASE`. -/
abbrev kernelVaddrBase : ℕ := 0xffff000000000000

/-- `phys_to_virt`. -/
def physToVirt (phys : ℕ) : ℕ := phys ||| kernelVaddrBase

/-- `virt_to_phys`: `virt & ~KERNEL_VADDR_BASE`. -/
def virtToPhys (virt : ℕ) : ℕ := virt &&& (2 ^ 64 - 1 - kernelVaddrBase)

/-! ## Free ranges -/

/-- `struct memblock` with the variable `phys_addr_max`. -/
structure State where
  currentLimit : ℕ
  physAddrMax : ℕ
  memory : MemblockType
  reserved : MemblockType

/-- The variables `*idx`, `*out_start` and `*out_end` that `__next_mem_range` updates. -/
structure RangeIter where
  idx : ℕ
  outStart : ℕ
  outEnd : ℕ
  deriving DecidableEq, Repr

/-- `(u32) idx_a | ((u64) idx_b << 32)`. -/
def rangeIdx (idxA idxB : ℕ) : ℕ := idxA % 2 ^ 32 ||| idxB <<< 32

/-- The loop over the gaps of `type_b` in `__next_mem_range` (lines 68–92) for one region
    `[mStart, mEnd)` of `type_a`: the range found, or the value of `idx_b` the loop is left with. The
    first argument is `type_b->cnt + 1 - idx_b`. -/
def nextGap (typeB : MemblockType) (physAddrMax mStart mEnd idxA : ℕ) : ℕ → ℕ → RangeIter ⊕ ℕ
  | 0, idxB => .inr idxB
  | rem + 1, idxB =>
    let prev := typeB.regions (idxB - 1)
    let rStart := if idxB ≠ 0 then u64 (prev.base + prev.size) else 0
    let rEnd := if idxB < typeB.cnt then (typeB.regions idxB).base else physAddrMax
    if rStart ≥ mEnd then .inr idxB
    else if mStart < rEnd then
      .inl {
        idx := if mEnd ≤ rEnd then rangeIdx (idxA + 1) idxB else rangeIdx idxA (idxB + 1)
        outStart := max mStart rStart
        outEnd := min mEnd rEnd }
    else nextGap typeB physAddrMax mStart mEnd idxA rem (idxB + 1)

/-- The loop over `type_a` in `__next_mem_range` (lines 51–93). The first argument is
    `type_a->cnt - idx_a`. -/
def nextMemRangeLoop (typeA typeB : MemblockType) (physAddrMax : ℕ) :
    ℕ → ℕ → ℕ → RangeIter → RangeIter
  | 0, _, _, it => it
  | rem + 1, idxA, idxB, it =>
    let m := typeA.regions idxA
    match nextGap typeB physAddrMax m.base (u64 (m.base + m.size)) idxA (typeB.cnt + 1 - idxB)
        idxB with
    | .inl it => it
    | .inr idxB => nextMemRangeLoop typeA typeB physAddrMax rem (idxA + 1) idxB it

/-- `__next_mem_range` (lines 44–94) with a `type_b`; both of its callers pass one. When no range
    is left it changes nothing. -/
def nextMemRange (typeA typeB : MemblockType) (physAddrMax : ℕ) (it : RangeIter) : RangeIter :=
  let idxA := it.idx &&& 0xffffffff
  let idxB := it.idx >>> 32
  nextMemRangeLoop typeA typeB physAddrMax (typeA.cnt - idxA) idxA idxB it

/-- `clamp(val, lo, hi)` (library/kernel.h line 49). -/
def clamp (val lo hi : ℕ) : ℕ := min (max val lo) hi

/-- The loop of `memblock_find_in_range` (lines 105–113), at most `fuel` rounds. -/
def findLoop (mb : State) (size algn start stop : ℕ) : ℕ → RangeIter → Except Stop ℕ
  | 0, _ => .error .searching
  | fuel + 1, it =>
    if it.idx = 2 ^ 64 - 1 then .ok 0
    else
      let thisStart := clamp it.outStart start stop
      let thisEnd := clamp it.outEnd start stop
      let cand := align thisStart algn
      if cand < thisEnd ∧ thisEnd - cand ≥ size then .ok cand
      else findLoop mb size algn start stop fuel (nextMemRange mb.memory mb.reserved mb.physAddrMax
        { it with outStart := thisStart, outEnd := thisEnd })

/-- `memblock_find_in_range` (lines 99–114). `this_start` and `this_end` are not initialised, they
    hold what `stack` says. -/
def findInRange (fuel : ℕ) (stack : ℕ × ℕ) (mb : State) (size algn start stop : ℕ) :
    Except Stop ℕ :=
  findLoop mb size algn start stop fuel (nextMemRange mb.memory mb.reserved mb.physAddrMax
    { idx := 0, outStart := stack.1, outEnd := stack.2 })

/-- `memblock_reserve` on the whole structure. -/
def State.reserve (mb : State) (base size : ℕ) : Except Stop State := do
  let type ← Memblock.reserve mb.reserved base size
  .ok { mb with reserved := type }

/-- `memblock_phys_alloc_range` (lines 246–257). -/
def physAllocRange (fuel : ℕ) (stack : ℕ × ℕ) (mb : State) (size algn start stop : ℕ) :
    Except Stop (ℕ × State) := do
  -- `MEMBLOCK_ALLOC_ACCESSIBLE` is 0
  let stop := if stop = 0 then mb.physAddrMax else stop
  let ret ← findInRange fuel stack mb size algn start stop
  if ret ≠ 0 then
    let mb ← mb.reserve ret size
    .ok (ret, mb)
  else .ok (ret, mb)

/-- `memblock_phys_alloc` (lines 263–267), a kernel virtual address. -/
def physAlloc (fuel : ℕ) (stack : ℕ × ℕ) (mb : State) (size : ℕ) :
    Except Stop (ℕ × State) := do
  let (ret, mb) ← physAllocRange fuel stack mb size 8 0 0
  .ok (physToVirt ret, mb)

/-! ## Initialisation -/

/-- `struct memblock memblock` as initialised (lines 29–37), with the memory `g` and `g'` that
    follows the two arrays of `INIT_MEMLBOCK_REGIONS` slots. -/
def State.start (g g' : ℕ → Region) : State where
  currentLimit := 0
  physAddrMax := 0x3F000000
  memory := MemblockType.init 32 g
  reserved := MemblockType.init 32 g'

/-- The part of `memblock_init` before the reservations (lines 272–282): `base` and `size` are the
    two `unsigned int` that `__get_memory_info` reports. -/
def addMemory (mb : State) (base size : ℕ) : Except Stop State := do
  let max := (base + size) % 2 ^ 32
  let type ← addRange mb.memory base size
  .ok { mb with physAddrMax := max, currentLimit := max, memory := type }

/-- A sequence of `memblock_reserve` calls. -/
def reserveAll (mb : State) (calls : List (ℕ × ℕ)) : Except Stop State :=
  calls.foldlM (fun mb c => mb.reserve c.1 c.2) mb

/-- `memblock_init` (lines 269–292). `kernelEnd` is the address of `_end`; `initrd` and `fdt` are the
    calls that `initrd_reserve_memory` and `fdt_reserve_memory` make, none if the magic does not
    match. -/
def memblockInit (mb : State) (base size kernelEnd : ℕ) (initrd fdt : Option (ℕ × ℕ)) :
    Except Stop State := do
  let mb ← addMemory mb base size
  reserveAll mb ((0, kernelEnd &&& 0xffffffff) :: (initrd.toList ++ fdt.toList))

end RaspiKernel.Memblock
