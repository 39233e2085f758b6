import RaspiKernel.Memblock.Basic

/-!
# Page tables: model

Model of `create_empty_page_table`, `walk`, `map_pages` and `simulate_walk` of
`src/mm.c` (lines 411–483).

* Memory is a function from the address of an aligned 8-byte word to its value,
  `table_p[idx]` is the word at `table_p + 8 * idx`.
* `kmalloc k` is what the `k`-th call of `kmalloc(PAGE_SIZE)` in
  `create_empty_page_table` returns.
* The address arithmetic of `map_pages` is on naturals: the ranges end below
  `2 ^ 64`.
-/

namespace RaspiKernel.Mm

open Memblock (physToVirt virtToPhys)

/-- `ENTRY_ADDR_MASK`. -/
abbrev entryAddrMask : ℕ := 0xfffffffff000

/-- `TABLE_ENTRY`. -/
abbrev tableEntry : ℕ := 3

/-- `NORMAL_PAGE_ATTR`: `PD_ACCESS | (MAIR_IDX_NORMAL_NOCACHE << 2) | PD_PAGE`. -/
abbrev normalPageAttr : ℕ := 1 <<< 10 ||| 1 <<< 2 ||| 3

/-- `PXN`. -/
abbrev pxn : ℕ := 1 <<< 53

/-- The memory that holds the tables, and the number of pages taken for tables. -/
structure PtState where
  mem : ℕ → ℕ
  next : ℕ

/-- `table_p[idx] = v`. -/
def PtState.set (st : PtState) (table idx v : ℕ) : PtState :=
  { st with mem := Function.update st.mem (table + 8 * idx) v }

/-- `create_empty_page_table` (lines 411–418). -/
def createEmptyPageTable (kmalloc : ℕ → ℕ) (st : PtState) : ℕ × PtState :=
  let pgd := kmalloc st.next
  (pgd, {
    mem := fun a => if pgd ≤ a ∧ a < pgd + 4096 then 0 else st.mem a
    next := st.next + 1 })

/-- `(va >> (39 - level * 9)) & 0x1ff`. -/
def tableIndex (va level : ℕ) : ℕ := va >>> (39 - level * 9) &&& 0x1ff

/-- `phys_to_virt(entry & ENTRY_ADDR_MASK)`, the table an entry points to. -/
def nextTable (entry : ℕ) : ℕ := physToVirt (entry &&& entryAddrMask)

/-- The entry that `walk` writes at level 3 (lines 434–435). -/
def pageEntry (pa flag : ℕ) : ℕ := pa ||| (normalPageAttr ||| pxn ||| flag)

/-- The loop of `walk` (lines 431–448). The first argument is `3 - level`. -/
def walkLoop (kmalloc : ℕ → ℕ) (va pa flag : ℕ) : ℕ → ℕ → ℕ → PtState → PtState
  | 0, level, table, st => st.set table (tableIndex va level) (pageEntry pa flag)
  | rem + 1, level, table, st =>
    let idx := tableIndex va level
    let st := if st.mem (table + 8 * idx) = 0 then
        let (newtable, st) := createEmptyPageTable kmalloc st
        st.set table idx (virtToPhys newtable ||| tableEntry)
      else st
    walkLoop kmalloc va pa flag rem (level + 1) (nextTable (st.mem (table + 8 * idx))) st

/-- `walk` (lines 426–449). -/
def walk (kmalloc : ℕ → ℕ) (st : PtState) (pgd va pa flag : ℕ) : PtState :=
  walkLoop kmalloc va pa flag 3 0 pgd st

/-- The number of rounds of the loop of `map_pages`. -/
def nrPagesOf (size : ℕ) : ℕ := (size + 4095) / 4096

/-- `map_pages` (lines 455–462): `i = 0, PAGE_SIZE, 2 * PAGE_SIZE, ..` as long as `i < size`. -/
def mapPages (kmalloc : ℕ → ℕ) (st : PtState) (pgd va size pa flags : ℕ) : PtState :=
  (List.range (nrPagesOf size)).foldl
    (fun st i => walk kmalloc st pgd (va + 4096 * i) (pa + 4096 * i) flags) st

/-- The loop of `simulate_walk` (lines 470–481). The first argument is `3 - level`. -/
def simulateWalkLoop (mem : ℕ → ℕ) (va : ℕ) : ℕ → ℕ → ℕ → ℕ
  | 0, level, table =>
    (mem (table + 8 * tableIndex va level) &&& entryAddrMask) ||| (va &&& 0xfff)
  | rem + 1, level, table =>
    let entry := mem (table + 8 * tableIndex va level)
    if entry = 0 then 0
    else simulateWalkLoop mem va rem (level + 1) (nextTable entry)

/-- `simulate_walk` (lines 464–483). -/
def simulateWalk (mem : ℕ → ℕ) (pgd va : ℕ) : ℕ := simulateWalkLoop mem va 3 0 pgd

end RaspiKernel.Mm
