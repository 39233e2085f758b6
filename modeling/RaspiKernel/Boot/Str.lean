import RaspiKernel.Lib.Bits
import RaspiKernel.Lib.ByteMem

/-!
# Strings and numbers in memory

Model of the functions of `src/string.c` and of the macros of `library/kernel.h`
and `library/byteswap.h` that read what the boot loader has put into memory: the
device tree and the initial ramdisk.

* `char` is unsigned, as on AArch64, and an `int` wraps around at 32 bits.
* A loop that looks for the NUL of a string has a bound on its rounds.
* A string that is compared with one in memory is the list of its bytes.

Results:
* `strlen_spec`, `memcmp_eq_zero`, `strcmp_eq_zero`: on what memory holds.
* `bswap32_load`: `bswap_32` of a loaded word is its big-endian value.
* `strcpy_keeps_iff`: the bytes that `strcpy` leaves.
* `hex2bin_spec`: `hex2bin` of hexadecimal digits is their value.
-/

namespace RaspiKernel.Boot

open Lib

/-! ## Numbers -/

/-- Conversion to `int`. -/
def toInt (x : ℤ) : ℤ := x.bmod (2 ^ 32)

/-- `ALIGN(x, 4)` of an `int`. -/
def alignInt (x : ℤ) : ℤ := toInt (x + 3) / 4 * 4

/-- A pointer moved by a number of bytes. -/
def ptrAdd (p : ℕ) (n : ℤ) : ℕ := ((p + n) % 2 ^ 64).toNat

/-- `bswap_32`. -/
def bswap32 (num : ℕ) : ℕ :=
  (num >>> 24) ||| (num <<< 24 % 2 ^ 32) ||| ((num &&& 0x0000ff00) <<< 8 % 2 ^ 32) |||
    ((num &&& 0x00ff0000) >>> 8)

theorem toInt_of_lt {x : ℕ} (h : x < 2 ^ 31) : toInt x = x := by
  unfold toInt
  rw [Int.bmod_eq_of_le_mul_two] <;> omega

theorem alignInt_of_lt {x : ℕ} (h : x + 3 < 2 ^ 31) : alignInt x = ((x + 3) / 4 * 4 : ℕ) := by
  unfold alignInt
  rw [show (x : ℤ) + 3 = (x + 3 : ℕ) by norm_num, toInt_of_lt h]
  norm_num

theorem ptrAdd_of_lt {p n : ℕ} (h : p + n < 2 ^ 64) : ptrAdd p n = p + n := by
  unfold ptrAdd
  omega

/-- Four bytes, most significant first. -/
def be32 (v : ℕ) : List UInt8 :=
  [UInt8.ofNat (v / 2 ^ 24), UInt8.ofNat (v / 2 ^ 16), UInt8.ofNat (v / 2 ^ 8), UInt8.ofNat v]

theorem bswap32_bytes {b₀ b₁ b₂ b₃ : ℕ} (h₀ : b₀ < 256) (h₁ : b₁ < 256) (h₂ : b₂ < 256)
    (h₃ : b₃ < 256) :
    bswap32 (b₀ + 256 * (b₁ + 256 * (b₂ + 256 * b₃))) =
      b₃ + 256 * (b₂ + 256 * (b₁ + 256 * b₀)) := by
  set num := b₀ + 256 * (b₁ + 256 * (b₂ + 256 * b₃)) with hnum
  have e₃ : num >>> 24 = b₃ := by
    rw [Nat.shiftRight_eq_div_pow]
    omega
  have e₀ : num <<< 24 % 2 ^ 32 = 2 ^ 24 * b₀ := by
    rw [Nat.shiftLeft_eq]
    omega
  have e₁ : (num &&& 0x0000ff00) <<< 8 % 2 ^ 32 = 2 ^ 16 * b₁ := by
    rw [show 0x0000ff00 = 2 ^ 16 - 2 ^ 8 from rfl, and_mid_mask num (by norm_num), Nat.shiftLeft_eq]
    omega
  have e₂ : (num &&& 0x00ff0000) >>> 8 = 2 ^ 8 * b₂ := by
    rw [show 0x00ff0000 = 2 ^ 24 - 2 ^ 16 from rfl, and_mid_mask num (by norm_num),
      Nat.shiftRight_eq_div_pow]
    omega
  have hor : bswap32 num = 2 ^ 24 * b₀ ||| (2 ^ 16 * b₁ ||| (2 ^ 8 * b₂ ||| b₃)) := by
    unfold bswap32
    rw [e₃, e₀, e₁, e₂]
    ac_rfl
  -- the four parts do not overlap, so that the disjunctions are sums
  rw [hor, ← Nat.two_pow_add_eq_or_of_lt (show b₃ < 2 ^ 8 by omega),
    ← Nat.two_pow_add_eq_or_of_lt (show 2 ^ 8 * b₂ + b₃ < 2 ^ 16 by omega),
    ← Nat.two_pow_add_eq_or_of_lt (show 2 ^ 16 * b₁ + (2 ^ 8 * b₂ + b₃) < 2 ^ 24 by omega)]
  omega

theorem bswap32_load {m : Mem} {a v : ℕ} (h : Holds m a (be32 v)) (hv : v < 2 ^ 32) :
    bswap32 (load m a 4) = v := by
  obtain ⟨h₀, h₁, h₂, h₃, -⟩ := h
  have hload : load m a 4 = (m a).toNat +
      256 * ((m (a + 1)).toNat + 256 * ((m (a + 1 + 1)).toNat + 256 * (m (a + 1 + 1 + 1)).toNat)) := by
    simp only [load, Nat.mul_zero, Nat.add_zero]
  rw [hload, bswap32_bytes (m a).toNat_lt (m _).toNat_lt (m _).toNat_lt (m _).toNat_lt, h₀, h₁, h₂, h₃]
  simp only [UInt8.toNat_ofNat']
  omega

/-! ## Padding -/

/-- Zero bytes up to the next word. -/
def pad4 (l : List UInt8) : List UInt8 := l ++ List.replicate ((4 - l.length % 4) % 4) 0

theorem length_pad4 (l : List UInt8) : (pad4 l).length = (l.length + 3) / 4 * 4 := by
  unfold pad4
  rw [List.length_append, List.length_replicate]
  omega

/-! ## Strings -/

/-- The string at an address: the bytes before the first NUL. -/
def readStr (m : Mem) : ℕ → ℕ → Option (List UInt8)
  | 0, _ => none
  | fuel + 1, a => if m a = 0 then some [] else (readStr m fuel (a + 1)).map (m a :: ·)

/-- `strlen`. -/
def strlen (m : Mem) (fuel a : ℕ) : Option ℤ := (readStr m fuel a).map fun s => toInt s.length

/-- `memcmp` of memory with a literal. -/
def memcmp (m : Mem) (a : ℕ) : List UInt8 → ℤ
  | [] => 0
  | b :: l => if m a ≠ b then (m a).toNat - b.toNat else memcmp m (a + 1) l

/-- `strcmp` of a string with one in memory. -/
def strcmp (m : Mem) : List UInt8 → ℕ → ℤ
  | [], a => (0 : UInt8).toNat - (m a).toNat
  | c :: s, a => if c ≠ m a then c.toNat - (m a).toNat else strcmp m s (a + 1)

theorem readStr_spec {m : Mem} {a : ℕ} {s : List UInt8} (h : HoldsStr m a s) {fuel : ℕ}
    (hfuel : s.length < fuel) : readStr m fuel a = some s := by
  induction s generalizing a fuel with
  | nil =>
    obtain ⟨fuel, rfl⟩ := Nat.exists_eq_add_of_lt hfuel
    rw [readStr, if_pos (holdsStr_nil.mp h)]
  | cons c s ih =>
    obtain ⟨fuel, rfl⟩ := Nat.exists_eq_add_of_lt hfuel
    obtain ⟨rfl, hne, hs⟩ := holdsStr_cons.mp h
    rw [readStr, if_neg hne, ih hs]
    · rfl
    · simp only [List.length_cons]
      omega

/-- With too small a bound the search does not come back. -/
theorem readStr_eq_none {m : Mem} {a : ℕ} {s : List UInt8} (h : HoldsStr m a s) {fuel : ℕ}
    (hfuel : fuel ≤ s.length) : readStr m fuel a = none := by
  induction s generalizing a fuel with
  | nil =>
    obtain rfl : fuel = 0 := Nat.le_zero.mp hfuel
    rfl
  | cons c s ih =>
    cases fuel with
    | zero => rfl
    | succ fuel =>
      obtain ⟨rfl, hne, hs⟩ := holdsStr_cons.mp h
      rw [readStr, if_neg hne, ih hs (Nat.le_of_succ_le_succ hfuel)]
      rfl

theorem strlen_spec {m : Mem} {a : ℕ} {s : List UInt8} (h : HoldsStr m a s) {fuel : ℕ}
    (hfuel : s.length < fuel) : strlen m fuel a = some (toInt s.length) := by
  rw [strlen, readStr_spec h hfuel]
  rfl

theorem toNat_sub_eq_zero {b c : UInt8} : (b.toNat : ℤ) - c.toNat = 0 ↔ b = c := by
  rw [sub_eq_zero, Nat.cast_inj, UInt8.toNat_inj]

theorem memcmp_eq_zero {m : Mem} {a : ℕ} {l : List UInt8} : memcmp m a l = 0 ↔ Holds m a l := by
  induction l generalizing a with
  | nil => simp [memcmp, Holds]
  | cons b l ih =>
    rw [memcmp, Holds]
    split
    next hne =>
      rw [toNat_sub_eq_zero]
      exact iff_of_false hne fun h => hne h.1
    next heq =>
      rw [not_not] at heq
      rw [ih]
      simp [heq]

/-- A literal without NUL is found at a string exactly if the string starts with it. -/
theorem holds_iff_prefix {m : Mem} {a : ℕ} {s l : List UInt8} (h : HoldsStr m a s) (hl : 0 ∉ l) :
    Holds m a l ↔ l <+: s := by
  induction l generalizing a s with
  | nil => simp [Holds]
  | cons b l ih =>
    rw [List.mem_cons, not_or] at hl
    cases s with
    | nil =>
      refine iff_of_false (fun hh => hl.1 ?_) (by simp)
      rw [← holdsStr_nil.mp h, hh.1]
    | cons c s =>
      obtain ⟨hc, -, hs⟩ := holdsStr_cons.mp h
      rw [Holds, hc, ih hs hl.2, List.cons_prefix_cons, eq_comm]

theorem strcmp_eq_zero {m : Mem} {a : ℕ} {s t : List UInt8} (h : HoldsStr m a t) (hs : 0 ∉ s) :
    strcmp m s a = 0 ↔ s = t := by
  induction s generalizing a t with
  | nil =>
    have h0 : strcmp m [] a = 0 ↔ 0 = m a := toNat_sub_eq_zero
    rw [h0]
    cases t with
    | nil => exact iff_of_true (holdsStr_nil.mp h).symm rfl
    | cons d t =>
      obtain ⟨hd, hne, -⟩ := holdsStr_cons.mp h
      rw [hd]
      exact iff_of_false hne.symm (by simp)
  | cons c s ih =>
    rw [List.mem_cons, not_or] at hs
    rw [strcmp]
    cases t with
    | nil =>
      have hne : c ≠ m a := by
        rw [holdsStr_nil.mp h]
        exact Ne.symm hs.1
      rw [if_pos hne, toNat_sub_eq_zero]
      exact iff_of_false hne (by simp)
    | cons d t =>
      obtain ⟨hd, -, ht⟩ := holdsStr_cons.mp h
      rw [hd]
      split
      next hne =>
        rw [toNat_sub_eq_zero]
        exact iff_of_false hne (by simp [hne])
      next heq =>
        rw [not_not] at heq
        rw [ih ht hs.2]
        simp [heq]

/-! ## Copies -/

/-- `strcpy` (`string.c`, lines 67–73) of a string. -/
def strcpyTo (m : Mem) (dst : ℕ) : List UInt8 → Mem
  | [] => Function.update m dst 0
  | c :: src => strcpyTo (Function.update m dst c) (dst + 1) src

section

variable {m : Mem} {dst i x : ℕ} {s : List UInt8}

theorem strcpyTo_of_lt (hx : x < dst) : strcpyTo m dst s x = m x := by
  induction s generalizing m dst with
  | nil => exact Function.update_of_ne hx.ne ..
  | cons c s ih =>
    rw [strcpyTo, ih (Nat.lt_succ_of_lt hx), Function.update_of_ne hx.ne]

theorem strcpyTo_of_gt (hx : dst + s.length < x) : strcpyTo m dst s x = m x := by
  induction s generalizing m dst with
  | nil => exact Function.update_of_ne hx.ne' ..
  | cons c s ih =>
    rw [List.length_cons] at hx
    rw [strcpyTo, ih (by omega), Function.update_of_ne (by omega)]

/-- The characters and the NUL. -/
theorem strcpyTo_add (hi : i ≤ s.length) : strcpyTo m dst s (dst + i) = (s ++ [0]).getD i 0 := by
  induction s generalizing m dst i with
  | nil =>
    obtain rfl := Nat.le_zero.mp hi
    exact Function.update_self ..
  | cons c s ih =>
    rw [strcpyTo]
    cases i with
    | zero =>
      rw [show dst + 0 = dst from rfl, strcpyTo_of_lt (Nat.lt_add_one dst), Function.update_self]
      rfl
    | succ i =>
      rw [show dst + (i + 1) = dst + 1 + i by omega, ih (Nat.le_of_succ_le_succ hi)]
      rfl

/-- A byte behind the destination is left in every memory exactly if the string ends before it. -/
theorem strcpy_keeps_iff (hx : dst ≤ x) :
    (∀ m, strcpyTo m dst s x = m x) ↔ dst + s.length < x := by
  constructor
  · intro h
    by_contra hlen
    obtain ⟨i, rfl⟩ := Nat.exists_eq_add_of_le hx
    have hbyte : ∀ c : UInt8, (s ++ [0]).getD i 0 = c := by
      intro c
      rw [← h fun _ => c, strcpyTo_add (by omega)]
    exact absurd ((hbyte 0).symm.trans (hbyte 1)) (by decide)
  · exact fun h m => strcpyTo_of_gt h

end

/-! ## Hexadecimal numbers -/

/-- The value of a character that `hex2bin` takes for a digit. -/
def hexDigit (c : UInt8) : Option ℕ :=
  if 0x30 ≤ c ∧ c ≤ 0x39 then some (c.toNat - 0x30) -- '0' to '9'
  else if 0x61 ≤ c ∧ c ≤ 0x66 then some (c.toNat - 0x61 + 10) -- 'a' to 'f'
  else if 0x41 ≤ c ∧ c ≤ 0x46 then some (c.toNat - 0x41 + 10) -- 'A' to 'F'
  else none

/-- The loop of `hex2bin` (lines 19–29). -/
def hex2binLoop (m : Mem) : ℕ → ℕ → ℤ → ℤ
  | 0, _, r => r
  | n + 1, s, r => match hexDigit (m s) with
    | some d => hex2binLoop m n (s + 1) (toInt (toInt (r * 16) + d))
    | none => -1

/-- `hex2bin` (lines 16–31). -/
def hex2bin (m : Mem) (s n : ℕ) : ℤ := hex2binLoop m n s 0

/-- The number that is written in hexadecimal behind the digits of `r`. -/
def hexValue : List UInt8 → ℕ → Option ℕ
  | [], r => some r
  | c :: s, r => (hexDigit c).bind fun d => hexValue s (r * 16 + d)

theorem le_hexValue {s : List UInt8} {r v : ℕ} (h : hexValue s r = some v) : r ≤ v := by
  induction s generalizing r with
  | nil => exact (Option.some.inj h).le
  | cons c s ih =>
    obtain ⟨d, -, hv⟩ := Option.bind_eq_some_iff.mp h
    have := ih hv
    omega

theorem hex2binLoop_spec {m : Mem} {a r v : ℕ} {s : List UInt8} (h : Holds m a s)
    (hv : hexValue s r = some v) (hlt : v < 2 ^ 31) : hex2binLoop m s.length a r = v := by
  induction s generalizing a r with
  | nil =>
    obtain rfl := Option.some.inj hv
    rfl
  | cons c s ih =>
    obtain ⟨hc, hs⟩ := h
    obtain ⟨d, hd, hv⟩ := Option.bind_eq_some_iff.mp hv
    have hle := le_hexValue hv
    have hr : toInt (toInt ((r : ℤ) * 16) + d) = (r * 16 + d : ℕ) := by
      rw [show (r : ℤ) * 16 = (r * 16 : ℕ) by norm_num, toInt_of_lt (by omega),
        show ((r * 16 : ℕ) : ℤ) + d = (r * 16 + d : ℕ) by norm_num, toInt_of_lt (by omega)]
    rw [List.length_cons, hex2binLoop, hc, hd]
    show hex2binLoop m s.length (a + 1) (toInt (toInt ((r : ℤ) * 16) + d)) = v
    rw [hr]
    exact ih hs hv

theorem hex2bin_spec {m : Mem} {a v : ℕ} {s : List UInt8} (h : Holds m a s)
    (hv : hexValue s 0 = some v) (hlt : v < 2 ^ 31) : hex2bin m a s.length = v :=
  hex2binLoop_spec h hv hlt

end RaspiKernel.Boot
