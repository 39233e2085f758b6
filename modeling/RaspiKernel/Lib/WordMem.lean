import Mathlib

/-!
# The bytes of a memory of words

A memory that is accessed by words and by bytes: a function from the address of
an aligned 8-byte word to its value. A byte is a digit of its word in base 256,
the lowest address holds the lowest digit.

`copyBytes` and `moveBytes` are the byte loops of `memcpy` and `memmove`. The
lemmas say what a copy does to the bytes (`byte_copyBytes`) and which words the
two leave alone (`copyBytes_of_ne`, `moveBytes_of_ne`).
-/

namespace RaspiKernel.Lib.WordMem

/-- The byte at address `a`. -/
def byte (mem : ℕ → ℕ) (a : ℕ) : ℕ := mem (a / 8 * 8) / 256 ^ (a % 8) % 256

/-- Replace the digit `i` of `w`. -/
def setDigit (w i b : ℕ) : ℕ := w / 256 ^ (i + 1) * 256 ^ (i + 1) + b * 256 ^ i + w % 256 ^ i

/-- Store the byte `b` at address `a`. -/
def setByte (mem : ℕ → ℕ) (a b : ℕ) : ℕ → ℕ :=
  Function.update mem (a / 8 * 8) (setDigit (mem (a / 8 * 8)) (a % 8) b)

/-- `dst[i] = src[i]`. -/
def copyByte (dst src : ℕ) (mem : ℕ → ℕ) (i : ℕ) : ℕ → ℕ :=
  setByte mem (dst + i) (byte mem (src + i))

/-- Copy `n` bytes, from the first to the last. -/
def copyBytes (mem : ℕ → ℕ) (dst src n : ℕ) : ℕ → ℕ := (List.range n).foldl (copyByte dst src) mem

/-- Copy `n` bytes to a range that may meet the source: from the last to the first if the source comes
    first. -/
def moveBytes (mem : ℕ → ℕ) (dst src n : ℕ) : ℕ → ℕ :=
  if src < dst then (List.range n).reverse.foldl (copyByte dst src) mem
  else (List.range n).foldl (copyByte dst src) mem

theorem byte_lt (mem : ℕ → ℕ) (a : ℕ) : byte mem a < 256 := Nat.mod_lt _ (by norm_num)

/-- The byte of a memory that has the same word there. -/
theorem byte_congr {mem mem' : ℕ → ℕ} {a : ℕ} (h : mem' (a / 8 * 8) = mem (a / 8 * 8)) :
    byte mem' a = byte mem a := by
  unfold byte
  rw [h]

/-! ## Digits -/

theorem setDigit_div {w i b : ℕ} (hb : b < 256) :
    setDigit w i b / 256 ^ (i + 1) = w / 256 ^ (i + 1) := by
  have hpos : 0 < 256 ^ i := by positivity
  have hlow : w % 256 ^ i < 256 ^ i := Nat.mod_lt _ hpos
  have hdigit : b * 256 ^ i + w % 256 ^ i < 256 ^ (i + 1) := by
    calc b * 256 ^ i + w % 256 ^ i < b * 256 ^ i + 256 ^ i := by omega
      _ = (b + 1) * 256 ^ i := by ring
      _ ≤ 256 * 256 ^ i := Nat.mul_le_mul_right _ hb
      _ = 256 ^ (i + 1) := by ring
  rw [setDigit, add_assoc, mul_comm, Nat.mul_add_div (by positivity), Nat.div_eq_of_lt hdigit,
    add_zero]

theorem setDigit_mod (w i b : ℕ) : setDigit w i b % 256 ^ i = w % 256 ^ i := by
  have hdvd : 256 ^ i ∣ w / 256 ^ (i + 1) * 256 ^ (i + 1) + b * 256 ^ i := by
    refine Nat.dvd_add (Dvd.dvd.mul_left ?_ _) (Dvd.intro_left _ rfl)
    exact pow_dvd_pow 256 (Nat.le_succ i)
  rw [setDigit, Nat.add_mod, Nat.mod_eq_zero_of_dvd hdvd, zero_add, Nat.mod_mod, Nat.mod_mod]

theorem setDigit_self {w i b : ℕ} (hb : b < 256) : setDigit w i b / 256 ^ i % 256 = b := by
  have hpos : 0 < 256 ^ i := by positivity
  have hlow : w % 256 ^ i < 256 ^ i := Nat.mod_lt _ hpos
  have hsplit : setDigit w i b = 256 ^ i * (w / 256 ^ (i + 1) * 256 + b) + w % 256 ^ i := by
    rw [setDigit]
    ring
  rw [hsplit, Nat.mul_add_div hpos, Nat.div_eq_of_lt hlow, add_zero, Nat.mul_add_mod',
    Nat.mod_eq_of_lt hb]

theorem setDigit_ne {w i j b : ℕ} (hb : b < 256) (hij : j ≠ i) :
    setDigit w i b / 256 ^ j % 256 = w / 256 ^ j % 256 := by
  rcases Nat.lt_or_gt_of_ne hij with hlt | hgt
  · -- the digits below are those of the remainder
    have hdigit : ∀ x : ℕ, x / 256 ^ j % 256 = x % 256 ^ i % 256 ^ (j + 1) / 256 ^ j := by
      intro x
      rw [Nat.mod_mod_of_dvd _ (pow_dvd_pow 256 hlt), pow_succ, Nat.mod_mul_right_div_self]
    rw [hdigit, hdigit, setDigit_mod]
  · -- the digits above are those of the quotient
    obtain ⟨k, rfl⟩ : ∃ k, j = i + 1 + k := ⟨j - (i + 1), by omega⟩
    rw [pow_add, ← Nat.div_div_eq_div_mul, ← Nat.div_div_eq_div_mul, setDigit_div hb]

/-! ## Bytes -/

theorem setByte_of_ne {mem : ℕ → ℕ} {a b w : ℕ} (h : w ≠ a / 8 * 8) : setByte mem a b w = mem w :=
  Function.update_of_ne h ..

theorem byte_setByte {mem : ℕ → ℕ} {a b : ℕ} (hb : b < 256) (x : ℕ) :
    byte (setByte mem a b) x = if x = a then b else byte mem x := by
  by_cases hword : x / 8 * 8 = a / 8 * 8
  · have hval : setByte mem a b (x / 8 * 8) = setDigit (mem (x / 8 * 8)) (a % 8) b := by
      rw [hword, setByte, Function.update_self]
    rw [byte, hval]
    split_ifs with hx
    · rw [hx, setDigit_self hb]
    · rw [setDigit_ne hb (by omega), byte]
  · have hne : x ≠ a := by
      rintro rfl
      exact hword rfl
    rw [if_neg hne]
    exact byte_congr (setByte_of_ne hword)

/-- What a copy does to the bytes, where the two ranges do not meet. -/
theorem byte_copyBytes {mem : ℕ → ℕ} {dst src n : ℕ} (h : dst + n ≤ src ∨ src + n ≤ dst) (x : ℕ) :
    byte (copyBytes mem dst src n) x =
      if dst ≤ x ∧ x < dst + n then byte mem (src + (x - dst)) else byte mem x := by
  -- after `k` rounds, the first `k` bytes are copied
  have hround : ∀ k ≤ n, ∀ y, byte (copyBytes mem dst src k) y =
      if dst ≤ y ∧ y < dst + k then byte mem (src + (y - dst)) else byte mem y := by
    intro k
    induction k with
    | zero =>
      intro _ y
      rw [if_neg (by omega)]
      rfl
    | succ k ih =>
      intro hk y
      have hstep : copyBytes mem dst src (k + 1) =
          setByte (copyBytes mem dst src k) (dst + k) (byte (copyBytes mem dst src k) (src + k)) := by
        rw [copyBytes, List.range_succ, List.foldl_append]
        rfl
      have hsrc : byte (copyBytes mem dst src k) (src + k) = byte mem (src + k) := by
        rw [ih (by omega), if_neg (by omega)]
      rw [hstep, byte_setByte (byte_lt _ _), hsrc, ih (by omega)]
      by_cases hy : y = dst + k
      · subst hy
        rw [if_pos rfl, if_pos (by omega)]
        congr 1
        omega
      · rw [if_neg hy]
        by_cases hin : dst ≤ y ∧ y < dst + k
        · rw [if_pos hin, if_pos (by omega)]
        · rw [if_neg hin, if_neg (by omega)]
  exact hround n le_rfl x

theorem foldl_copyByte_of_ne {dst src w : ℕ} {l : List ℕ} {mem : ℕ → ℕ}
    (h : ∀ i ∈ l, w ≠ (dst + i) / 8 * 8) : l.foldl (copyByte dst src) mem w = mem w := by
  induction l generalizing mem with
  | nil => rfl
  | cons i l ih =>
    rw [List.foldl_cons, ih fun j hj => h j (List.mem_cons_of_mem i hj)]
    exact setByte_of_ne (h i List.mem_cons_self)

/-- A copy leaves the words outside its target alone. -/
theorem copyBytes_of_ne {mem : ℕ → ℕ} {dst src n w : ℕ} (h : ∀ i < n, w ≠ (dst + i) / 8 * 8) :
    copyBytes mem dst src n w = mem w :=
  foldl_copyByte_of_ne fun i hi => h i (List.mem_range.mp hi)

theorem moveBytes_of_ne {mem : ℕ → ℕ} {dst src n w : ℕ} (h : ∀ i < n, w ≠ (dst + i) / 8 * 8) :
    moveBytes mem dst src n w = mem w := by
  unfold moveBytes
  split_ifs
  · exact foldl_copyByte_of_ne fun i hi => h i (List.mem_range.mp (List.mem_reverse.mp hi))
  · exact foldl_copyByte_of_ne fun i hi => h i (List.mem_range.mp hi)

end RaspiKernel.Lib.WordMem
