import RaspiKernel.Lib.Stage1
import RaspiKernel.Mm.PagingRefine

/-!
# The kernel's own page tables

Model of `setup_page_table` (`src/mm.c`, lines 381–409), which runs before the MMU is on. It stores to
four pages that nobody has cleared, and both table bases point to the first of them.

Results:
* `kernel_map`: whatever was in memory, and whatever is stored outside of the four pages later, the MMU
  maps the first 2 GiB to themselves, at their own addresses and at those of `phys_to_virt`, as device
  memory from `PERIPH_MMIO_BASE` on.
-/

namespace RaspiKernel.Mm

open Lib
open Memblock (physToVirt kernelVaddrBase)

/-! ## Model -/

/-- `MMU_PGD_ADDR`. -/
def mmuPgdAddr : ℕ := 0x1000

/-- `MMU_PUD_ADDR`. -/
def mmuPudAddr : ℕ := mmuPgdAddr + 0x1000

/-- `MMU_PMD_ADDR`. -/
def mmuPmdAddr : ℕ := mmuPgdAddr + 0x2000

/-- `PERIPH_MMIO_BASE`. -/
def periphMmioBase : ℕ := 0x3f000000

/-- `DEVICE_BLOCK_ATTR`: `PD_ACCESS | (MAIR_IDX_DEVICE_nGnRnE << 2) | PD_BLOCK`. -/
def deviceBlockAttr : ℕ := 1 <<< 10 ||| 0 <<< 2 ||| 1

/-- `NORMAL_BLOCK_ATTR`: `PD_ACCESS | (MAIR_IDX_NORMAL_NOCACHE << 2) | PD_BLOCK`. -/
def normalBlockAttr : ℕ := 1 <<< 10 ||| 1 <<< 2 ||| 1

/-- `table[idx] = v`. -/
def setEntry (ram : ℕ → ℕ) (table idx v : ℕ) : ℕ → ℕ := Function.update ram (table + 8 * idx) v

/-- The body of the loop of `setup_page_table` (lines 398–403). -/
def setupBlock (ram : ℕ → ℕ) (i : ℕ) : ℕ → ℕ :=
  let addr := i <<< 21
  let ram :=
    if addr ≥ periphMmioBase then setEntry ram mmuPmdAddr i (addr ||| deviceBlockAttr)
    else setEntry ram mmuPmdAddr i (addr ||| normalBlockAttr)
  setEntry ram (mmuPmdAddr + 0x1000) i ((addr + 0x40000000) ||| deviceBlockAttr)

/-- `setup_page_table` (lines 381–409) without the two table bases. -/
def setupPageTable (ram : ℕ → ℕ) : ℕ → ℕ :=
  let ram := setEntry ram mmuPgdAddr 0 (mmuPudAddr ||| tableEntry)
  let ram := setEntry ram mmuPudAddr 0 (mmuPmdAddr ||| tableEntry)
  let ram := setEntry ram mmuPudAddr 1 ((mmuPmdAddr + 0x1000) ||| tableEntry)
  (List.range 512).foldl setupBlock ram

/-! ## The four pages -/

theorem setEntry_self (ram : ℕ → ℕ) (table idx v : ℕ) : setEntry ram table idx v (table + 8 * idx) = v :=
  Function.update_self ..

theorem setEntry_of_ne {ram : ℕ → ℕ} {table idx v a : ℕ} (h : a ≠ table + 8 * idx) :
    setEntry ram table idx v a = ram a := Function.update_of_ne h ..

/-- The attributes of the block at a physical address. -/
def blockAttr (pa : ℕ) : ℕ := if pa ≥ periphMmioBase then deviceBlockAttr else normalBlockAttr

theorem setupBlock_eq (ram : ℕ → ℕ) (i : ℕ) :
    setupBlock ram i = setEntry (setEntry ram mmuPmdAddr i (i <<< 21 ||| blockAttr (i <<< 21)))
      (mmuPmdAddr + 0x1000) i ((i <<< 21 + 0x40000000) ||| deviceBlockAttr) := by
  unfold setupBlock blockAttr
  dsimp only
  split_ifs <;> rfl

/-- What `n` rounds of the loop have made of the words. -/
theorem setupBlocks (ram : ℕ → ℕ) {n : ℕ} (hn : n ≤ 512) :
    (∀ j < n, (List.range n).foldl setupBlock ram (mmuPmdAddr + 8 * j) = j <<< 21 ||| blockAttr (j <<< 21) ∧
      (List.range n).foldl setupBlock ram (mmuPmdAddr + 0x1000 + 8 * j) =
        (j <<< 21 + 0x40000000) ||| deviceBlockAttr) ∧
      ∀ a < mmuPmdAddr, (List.range n).foldl setupBlock ram a = ram a := by
  induction n with
  | zero => exact ⟨fun j hj => absurd hj (Nat.not_lt_zero j), fun _ _ => rfl⟩
  | succ n ih =>
    obtain ⟨hblocks, hother⟩ := ih (by omega)
    rw [List.range_succ, List.foldl_append, List.foldl_cons, List.foldl_nil, setupBlock_eq]
    refine ⟨fun j hj => ?_, fun a ha => ?_⟩
    · rcases Nat.lt_succ_iff_lt_or_eq.mp hj with hj | rfl
      · obtain ⟨hpmd, hpmd1⟩ := hblocks j hj
        rw [setEntry_of_ne (by omega), setEntry_of_ne (by omega), setEntry_of_ne (by omega),
          setEntry_of_ne (by omega)]
        exact ⟨hpmd, hpmd1⟩
      · rw [setEntry_of_ne (by omega), setEntry_self, setEntry_self]
        exact ⟨rfl, rfl⟩
    · rw [setEntry_of_ne (by omega), setEntry_of_ne (by omega)]
      exact hother a ha

/-- The tables that are in use. -/
structure KernelTables (ram : ℕ → ℕ) : Prop where
  pgd : ram mmuPgdAddr = mmuPudAddr ||| tableEntry
  pud : ram mmuPudAddr = mmuPmdAddr ||| tableEntry
  pud1 : ram (mmuPudAddr + 8) = (mmuPmdAddr + 0x1000) ||| tableEntry
  pmd : ∀ j < 512, ram (mmuPmdAddr + 8 * j) = j <<< 21 ||| blockAttr (j <<< 21)
  pmd1 : ∀ j < 512, ram (mmuPmdAddr + 0x1000 + 8 * j) = (j <<< 21 + 0x40000000) ||| deviceBlockAttr

theorem kernelTables_setupPageTable (ram : ℕ → ℕ) : KernelTables (setupPageTable ram) := by
  unfold setupPageTable
  dsimp only
  obtain ⟨hblocks, hother⟩ := setupBlocks (setEntry (setEntry (setEntry ram mmuPgdAddr 0
    (mmuPudAddr ||| tableEntry)) mmuPudAddr 0 (mmuPmdAddr ||| tableEntry)) mmuPudAddr 1
    ((mmuPmdAddr + 0x1000) ||| tableEntry)) (n := 512) le_rfl
  have hpgd := hother mmuPgdAddr (by decide)
  have hpud := hother mmuPudAddr (by decide)
  have hpud1 := hother (mmuPudAddr + 8) (by decide)
  rw [setEntry_of_ne (by decide), setEntry_of_ne (by decide)] at hpgd
  rw [setEntry_of_ne (by decide)] at hpud
  exact ⟨hpgd.trans (setEntry_self ram mmuPgdAddr 0 _), hpud.trans (setEntry_self _ mmuPudAddr 0 _),
    hpud1.trans (setEntry_self _ mmuPudAddr 1 _), fun j hj => (hblocks j hj).1, fun j hj => (hblocks j hj).2⟩

theorem KernelTables.of_eq {ram ram' : ℕ → ℕ} (h : KernelTables ram)
    (heq : ∀ a, mmuPgdAddr ≤ a → a < mmuPgdAddr + 0x4000 → ram' a = ram a) : KernelTables ram' := by
  unfold mmuPgdAddr at heq
  constructor
  · rw [heq _ (by decide) (by decide), h.pgd]
  · rw [heq _ (by decide) (by decide), h.pud]
  · rw [heq _ (by decide) (by decide), h.pud1]
  · intro j hj
    rw [heq _ (by unfold mmuPmdAddr mmuPgdAddr; omega) (by unfold mmuPmdAddr mmuPgdAddr; omega), h.pmd j hj]
  · intro j hj
    rw [heq _ (by unfold mmuPmdAddr mmuPgdAddr; omega) (by unfold mmuPmdAddr mmuPgdAddr; omega), h.pmd1 j hj]

/-! ## The map -/

open Stage1 (translate Attrs)

/-- What the MMU makes of the first 2 GiB. -/
def kernelAttrs (pa : ℕ) : Attrs where
  attrIndx := if pa < periphMmioBase then 1 else 0
  el0 := false
  readOnly := false
  pxn := false
  uxn := false

/-- The address in a block descriptor is no part of its attributes. -/
theorem ofDescriptor_or {x attr : ℕ} (hx : x < 2 ^ 48) (hx' : 2 ^ 21 ∣ x) (hattr : attr < 2 ^ 21) :
    Attrs.ofDescriptor (x ||| attr) = Attrs.ofDescriptor attr := by
  have hlow : ∀ i < 21, (x ||| attr).testBit i = attr.testBit i := by
    intro i hi
    obtain ⟨q, rfl⟩ := hx'
    rw [Nat.testBit_or, Nat.testBit_two_pow_mul, decide_eq_false (by omega), Bool.false_and, Bool.false_or]
  have hhigh : ∀ i ≥ 48, (x ||| attr).testBit i = attr.testBit i := by
    intro i hi
    rw [Nat.testBit_or, Nat.testBit_lt_two_pow (hx.trans_le (Nat.pow_le_pow_right (by norm_num) hi)),
      Bool.false_or]
  have hindx : (x ||| attr) / 2 ^ 2 % 2 ^ 3 = attr / 2 ^ 2 % 2 ^ 3 := by
    obtain ⟨q, rfl⟩ := hx'
    rw [← Nat.two_pow_add_eq_or_of_lt hattr]
    omega
  unfold Attrs.ofDescriptor
  rw [hindx, hlow 6 (by norm_num), hlow 7 (by norm_num), hhigh 53 (by norm_num), hhigh 54 (by norm_num)]

/-- A block of 2 MiB. -/
theorem walk_block {ram : ℕ → ℕ} {table n attr pa : ℕ} (hn : n < 2 ^ 27) (hattr : attr < 2 ^ 21)
    (htype : attr % 4 = 1) (haf : attr.testBit 10) (hpa : pa / 2 ^ 21 = n)
    (hd : ram (table + 8 * Stage1.index pa 1) = 2 ^ 21 * n ||| attr) :
    Stage1.walk ram pa 1 table = some (pa, Attrs.ofDescriptor attr) := by
  have hx : 2 ^ 21 * n < 2 ^ 48 := by omega
  have hsum : 2 ^ 21 * n ||| attr = 2 ^ 21 * n + attr := (Nat.two_pow_add_eq_or_of_lt hattr n).symm
  have haddr : (2 ^ 21 * n ||| attr) / 2 ^ 21 % 2 ^ 27 = n := by
    rw [hsum]
    omega
  rw [Stage1.walk_block hd (by omega) (by norm_num)]
  unfold Stage1.output
  rw [ofDescriptor_or hx (Nat.dvd_mul_right ..) hattr, Nat.testBit_or, haf, Bool.or_true, if_pos rfl,
    show Stage1.shift (0 + 1) = 21 from rfl, show 48 - 21 = 27 from rfl, haddr, ← hpa, Nat.div_add_mod']

theorem blockAttr_type (pa : ℕ) : blockAttr pa < 2 ^ 21 ∧ (blockAttr pa).testBit 10 ∧ blockAttr pa % 4 = 1 := by
  unfold blockAttr
  split_ifs <;> decide

theorem ofDescriptor_blockAttr (pa : ℕ) : Attrs.ofDescriptor (blockAttr pa) = kernelAttrs pa := by
  unfold blockAttr kernelAttrs
  by_cases h : pa ≥ periphMmioBase
  · rw [if_pos h, if_neg (by omega)]
    decide
  · rw [if_neg h, if_pos (by omega)]
    decide

theorem KernelTables.walk {ram : ℕ → ℕ} (h : KernelTables ram) {pa : ℕ} (hpa : pa < 2 ^ 31) :
    Stage1.walk ram pa 3 mmuPgdAddr = some (pa, kernelAttrs pa) := by
  have hindex : Stage1.index pa 1 = pa / 2 ^ 21 % 512 ∧ Stage1.index pa 2 = pa / 2 ^ 30 % 512 ∧
      Stage1.index pa 3 = pa / 2 ^ 39 % 512 := ⟨rfl, rfl, rfl⟩
  obtain ⟨hindex₁, hindex₂, hindex₃⟩ := hindex
  have hpgd : ram (mmuPgdAddr + 8 * Stage1.index pa 3) = mmuPudAddr ||| tableEntry := by
    rw [hindex₃, show pa / 2 ^ 39 % 512 = 0 by omega]
    exact h.pgd
  rw [Stage1.walk_table hpgd (by decide),
    show Stage1.tableAddr (mmuPudAddr ||| tableEntry) = mmuPudAddr by decide]
  have hj : pa / 2 ^ 21 % 512 < 512 := Nat.mod_lt _ (by norm_num)
  by_cases hlow : pa < 2 ^ 30
  · have hpud : ram (mmuPudAddr + 8 * Stage1.index pa 2) = mmuPmdAddr ||| tableEntry := by
      rw [hindex₂, show pa / 2 ^ 30 % 512 = 0 by omega]
      exact h.pud
    have hattr : blockAttr ((pa / 2 ^ 21 % 512) <<< 21) = blockAttr pa := by
      unfold blockAttr periphMmioBase
      rw [Nat.shiftLeft_eq]
      exact if_congr (by omega) rfl rfl
    obtain ⟨hsize, haf, htype⟩ := blockAttr_type pa
    rw [Stage1.walk_table hpud (by decide),
      show Stage1.tableAddr (mmuPmdAddr ||| tableEntry) = mmuPmdAddr by decide, ← ofDescriptor_blockAttr]
    refine walk_block (n := pa / 2 ^ 21) (by omega) hsize htype haf rfl ?_
    rw [hindex₁, h.pmd _ hj, hattr, Nat.shiftLeft_eq, Nat.mod_eq_of_lt (by omega), mul_comm]
  · have hpud : ram (mmuPudAddr + 8 * Stage1.index pa 2) = (mmuPmdAddr + 0x1000) ||| tableEntry := by
      rw [hindex₂, show pa / 2 ^ 30 % 512 = 1 by omega]
      exact h.pud1
    have hattr : blockAttr pa = deviceBlockAttr := if_pos (by unfold periphMmioBase; omega)
    obtain ⟨hsize, haf, htype⟩ := blockAttr_type pa
    rw [Stage1.walk_table hpud (by decide),
      show Stage1.tableAddr ((mmuPmdAddr + 0x1000) ||| tableEntry) = mmuPmdAddr + 0x1000 by decide,
      ← ofDescriptor_blockAttr]
    refine walk_block (n := pa / 2 ^ 21) (by omega) hsize htype haf rfl ?_
    rw [hindex₁, h.pmd1 _ hj, hattr, Nat.shiftLeft_eq]
    congr 1
    omega

/-- Whatever was in memory before `setup_page_table`, and whatever is stored to other pages later. Each
    of the first 2 GiB is at its own address and at that of `phys_to_virt`, as device memory from
    `PERIPH_MMIO_BASE` on, and not for EL0. -/
theorem kernel_map {ram ram' : ℕ → ℕ}
    (hkeep : ∀ a, mmuPgdAddr ≤ a → a < mmuPgdAddr + 0x4000 → ram' a = setupPageTable ram a) {pa : ℕ}
    (hpa : pa < 2 ^ 31) :
    translate ram' mmuPgdAddr mmuPgdAddr pa = some (pa, kernelAttrs pa) ∧
      ∀ ttbr0, translate ram' ttbr0 mmuPgdAddr (physToVirt pa) = some (pa, kernelAttrs pa) := by
  have hwalk := ((kernelTables_setupPageTable ram).of_eq hkeep).walk hpa
  have hbase : Stage1.tableAddr mmuPgdAddr = mmuPgdAddr := by decide
  have hvirt : physToVirt pa = 2 ^ 64 - 2 ^ 48 + pa := by
    rw [Memblock.physToVirt_eq (by omega), show kernelVaddrBase = 2 ^ 64 - 2 ^ 48 by norm_num, add_comm]
  refine ⟨?_, fun ttbr0 => ?_⟩
  · rw [Stage1.translate_low (by omega), hbase, hwalk]
  · rw [hvirt, Stage1.translate_high (by omega), hbase, Stage1.walk_high _ _ _ _ le_rfl, hwalk]

/-- `AUX_MU_IO_REG`, over a memory full of other words. -/
theorem kernel_map_uart :
    translate (setupPageTable fun a => a) mmuPgdAddr mmuPgdAddr 0x3f215040 =
        some (0x3f215040, kernelAttrs 0x3f215040) ∧
      ∀ ttbr0, translate (setupPageTable fun a => a) ttbr0 mmuPgdAddr (physToVirt 0x3f215040) =
        some (0x3f215040, kernelAttrs 0x3f215040) :=
  kernel_map (fun _ _ _ => rfl) (by norm_num)

end RaspiKernel.Mm
