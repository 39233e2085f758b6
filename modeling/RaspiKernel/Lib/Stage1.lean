import RaspiKernel.Lib.Bits

/-!
# Stage 1 translation

The walk that the MMU makes: AArch64, granules of 4 KB, addresses of 48 bits, one table base for each
half of the address space. The tables are in `ram`, which gives the word at a physical address. Blocks
are allowed at the levels 1 and 2, and a descriptor without the access flag faults.

Results:
* `walk_table`: how the walk goes on behind a table descriptor.
* `walk_block`, `walk_invalid`: how it ends.
-/

namespace RaspiKernel.Lib.Stage1

/-- The attributes in a block or page descriptor. -/
structure Attrs where
  attrIndx : ℕ
  el0 : Bool
  readOnly : Bool
  pxn : Bool
  uxn : Bool
  deriving DecidableEq, Repr

def Attrs.ofDescriptor (d : ℕ) : Attrs where
  attrIndx := d / 2 ^ 2 % 2 ^ 3
  el0 := d.testBit 6
  readOnly := d.testBit 7
  pxn := d.testBit 53
  uxn := d.testBit 54

/-- The number of the bits below the index at level `3 - rem`. -/
def shift (rem : ℕ) : ℕ := 12 + 9 * rem

/-- The index at level `3 - rem`. -/
def index (va rem : ℕ) : ℕ := va / 2 ^ shift rem % 2 ^ 9

/-- The address in a table descriptor. -/
def tableAddr (d : ℕ) : ℕ := d / 2 ^ 12 % 2 ^ 36 * 2 ^ 12

/-- What a block or page descriptor makes of an address, with its attributes. -/
def output (d va rem : ℕ) : Option (ℕ × Attrs) :=
  if d.testBit 10 then
    some (d / 2 ^ shift rem % 2 ^ (48 - shift rem) * 2 ^ shift rem + va % 2 ^ shift rem, .ofDescriptor d)
  else none

/-- The walk from a table at level `3 - rem`, `none` for a fault. -/
def walk (ram : ℕ → ℕ) (va : ℕ) : ℕ → ℕ → Option (ℕ × Attrs)
  | 0, table =>
    let d := ram (table + 8 * index va 0)
    if d % 4 = 3 then output d va 0 else none
  | rem + 1, table =>
    let d := ram (table + 8 * index va (rem + 1))
    if d % 4 = 3 then walk ram va rem (tableAddr d)
    else if d % 4 = 1 ∧ rem < 2 then output d va (rem + 1)
    else none

/-- The translation of a 64-bit address with the tables of both halves. -/
def translate (ram : ℕ → ℕ) (ttbr0 ttbr1 va : ℕ) : Option (ℕ × Attrs) :=
  if va < 2 ^ 48 then walk ram va 3 (tableAddr ttbr0)
  else if 2 ^ 64 - 2 ^ 48 ≤ va ∧ va < 2 ^ 64 then walk ram va 3 (tableAddr ttbr1)
  else none

variable {ram : ℕ → ℕ} {va rem table d : ℕ}

theorem walk_table (hd : ram (table + 8 * index va (rem + 1)) = d) (htype : d % 4 = 3) :
    walk ram va (rem + 1) table = walk ram va rem (tableAddr d) := by
  subst hd
  exact if_pos htype

theorem walk_block (hd : ram (table + 8 * index va (rem + 1)) = d) (htype : d % 4 = 1) (hrem : rem < 2) :
    walk ram va (rem + 1) table = output d va (rem + 1) := by
  subst hd
  rw [walk]
  rw [if_neg (by omega), if_pos ⟨htype, hrem⟩]

/-- A descriptor of type 0 faults at any level. -/
theorem walk_invalid (hd : ram (table + 8 * index va rem) = d) (htype : d % 4 = 0) :
    walk ram va rem table = none := by
  subst hd
  cases rem with
  | zero => exact if_neg (by omega)
  | succ rem =>
    rw [walk]
    rw [if_neg (by omega), if_neg (by omega)]

/-- A descriptor that is made of an address and of bits below or above it. -/
theorem tableAddr_or {x attr : ℕ} (hx : x < 2 ^ 48) (hx' : 2 ^ 12 ∣ x) (hattr : attr < 2 ^ 12) :
    tableAddr (x ||| attr) = x := by
  obtain ⟨q, rfl⟩ := hx'
  rw [← Nat.two_pow_add_eq_or_of_lt hattr]
  unfold tableAddr
  omega

theorem translate_low {ttbr0 ttbr1 : ℕ} (h : va < 2 ^ 48) :
    translate ram ttbr0 ttbr1 va = walk ram va 3 (tableAddr ttbr0) := if_pos h

theorem translate_high {ttbr0 ttbr1 : ℕ} (h : va < 2 ^ 48) :
    translate ram ttbr0 ttbr1 (2 ^ 64 - 2 ^ 48 + va) = walk ram (2 ^ 64 - 2 ^ 48 + va) 3 (tableAddr ttbr1) := by
  unfold translate
  rw [if_neg (by omega), if_pos (by omega)]

/-- The bits above the 48 do not take part in a walk. -/
theorem walk_high (ram : ℕ → ℕ) (va rem table : ℕ) (hrem : rem ≤ 3) :
    walk ram (2 ^ 64 - 2 ^ 48 + va) rem table = walk ram va rem table := by
  have hindex : ∀ r ≤ 3, index (2 ^ 64 - 2 ^ 48 + va) r = index va r := by
    intro r hr
    unfold index shift
    interval_cases r <;> omega
  have hoffset : ∀ r ≤ 3, (2 ^ 64 - 2 ^ 48 + va) % 2 ^ shift r = va % 2 ^ shift r := by
    intro r hr
    unfold shift
    interval_cases r <;> omega
  have houtput : ∀ d, ∀ r ≤ 3, output d (2 ^ 64 - 2 ^ 48 + va) r = output d va r := by
    intro d r hr
    unfold output
    rw [hoffset r hr]
  induction rem generalizing table with
  | zero => rw [walk, walk, hindex 0 hrem, houtput _ 0 hrem]
  | succ rem ih =>
    rw [walk, walk, hindex (rem + 1) hrem]
    rw [ih _ (by omega), houtput _ _ hrem]

end RaspiKernel.Lib.Stage1
