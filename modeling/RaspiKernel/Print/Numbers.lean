import RaspiKernel.Boot.Str
import RaspiKernel.Print.Sprintf

/-!
# Numbers there and back

The numbers that `%d`, `%x` and `uart_hex` (`src/uart.c`, lines 110–121) write, and the functions
of `src/string.c` that read numbers: `atoi` (lines 84–96) and `hex2bin`.

* An `int` that overflows in `atoi` stops the model.

Results:
* `atoi_decimal_iff`: `atoi` reads back what `%d` writes exactly if it is not the least `int` and,
  unless it is zero, has no space before it.
* `hex2bin_hex`: `hex2bin` reads the low half of any number back that `%x` writes, also of a negative
  one and with zeros before it.
* `uartHex_hex2bin_iff`: `uart_hex` writes a field of eight characters as `hex2bin` has read it, in
  upper case, exactly if all of them are digits.
-/

namespace RaspiKernel.Print

open Lib Boot
open Vfs (Str ofString)

/-! ## Decimal -/

/-- `*s >= '0' && *s <= '9'`. -/
def IsDigit (c : UInt8) : Prop := 0x30 ≤ c ∧ c ≤ 0x39

instance : DecidablePred IsDigit := fun c => inferInstanceAs (Decidable (0x30 ≤ c ∧ c ≤ 0x39))

/-- The loop of `atoi` (lines 91–94). -/
def atoiLoop : Str → ℕ → Option ℕ
  | [], n => some n
  | c :: s, n =>
    if IsDigit c then
      if n * 10 + (c.toNat - 0x30) < 2 ^ 31 then atoiLoop s (n * 10 + (c.toNat - 0x30)) else none
    else some n

/-- `atoi` (lines 84–96). -/
def atoi : Str → Option ℤ
  | [] => some 0
  | c :: s =>
    if c = 0x2d then (atoiLoop s 0).map fun n : ℕ => (n : ℤ) * -1
    else (atoiLoop (c :: s) 0).map fun n : ℕ => (n : ℤ) * 1

/-- What is behind the number does not belong to it. -/
def Ends (rest : Str) : Prop := ∀ c ∈ rest.head?, ¬IsDigit c

theorem atoiLoop_ends {rest : Str} (h : Ends rest) (n : ℕ) : atoiLoop rest n = some n := by
  cases rest with
  | nil => rfl
  | cons c s => rw [atoiLoop, if_neg (h c rfl)]

/-- The digit of `d`. -/
theorem digit_toNat {d : ℕ} (h : d < 10) : (UInt8.ofNat (0x30 + d)).toNat = 0x30 + d := by
  rw [UInt8.toNat_ofNat']
  omega

theorem isDigit_digit {d : ℕ} (h : d < 10) : IsDigit (UInt8.ofNat (0x30 + d)) := by
  unfold IsDigit
  rw [UInt8.le_iff_toNat_le, UInt8.le_iff_toNat_le, digit_toNat h]
  exact ⟨Nat.le_add_right _ _, by change 0x30 + d ≤ 0x39; omega⟩

/-- Reading one more digit. -/
theorem atoiLoop_digit {d n : ℕ} (hd : d < 10) (s : Str) :
    atoiLoop (UInt8.ofNat (0x30 + d) :: s) n =
      if n * 10 + d < 2 ^ 31 then atoiLoop s (n * 10 + d) else none := by
  rw [atoiLoop, if_pos (isDigit_digit hd), digit_toNat hd, Nat.add_sub_cancel_left]

/-- The digits that the loop of `%d` has in front of `tmpstr` are read first. -/
theorem atoiLoop_decimalLoop {i arg : ℕ} {tmpstr : Str} (hi : 1 ≤ i) (harg : arg < 10 ^ i) :
    atoiLoop (decimalLoop i arg tmpstr) 0 = if arg < 2 ^ 31 then atoiLoop tmpstr arg else none := by
  induction i generalizing arg tmpstr with
  | zero => omega
  | succ i ih =>
    have hmod : arg % 10 < 10 := Nat.mod_lt _ (by norm_num)
    rw [decimalLoop]
    split_ifs with hgo hlt hlt
    · rw [ih hgo.2 (by rw [pow_succ] at harg; omega), if_pos (by omega), atoiLoop_digit hmod,
        show arg / 10 * 10 + arg % 10 = arg by omega, if_pos hlt]
    · rw [ih hgo.2 (by rw [pow_succ] at harg; omega)]
      split_ifs
      · rw [atoiLoop_digit hmod, if_neg (by omega)]
      · rfl
    all_goals
      have hsmall : arg < 10 := by
        by_contra hge
        refine hgo ⟨by omega, ?_⟩
        by_contra h0
        obtain rfl : i = 0 := by omega
        omega
      rw [atoiLoop_digit hmod, show 0 * 10 + arg % 10 = arg by omega]
    · rw [if_pos hlt]
    · rw [if_neg hlt]

theorem decimalLoop_append (i arg : ℕ) (tmpstr rest : Str) :
    decimalLoop i arg tmpstr ++ rest = decimalLoop i arg (tmpstr ++ rest) := by
  induction i generalizing arg tmpstr with
  | zero => rfl
  | succ i ih =>
    rw [decimalLoop, decimalLoop]
    split_ifs
    · rw [ih, List.cons_append]
    · rfl

/-- What the loop writes begins with a digit. -/
theorem decimalLoop_head {i : ℕ} (hi : 1 ≤ i) (arg : ℕ) (tmpstr : Str) :
    ∃ c s, decimalLoop i arg tmpstr = c :: s ∧ IsDigit c := by
  induction i generalizing arg tmpstr with
  | zero => omega
  | succ i ih =>
    rw [decimalLoop]
    split_ifs with hgo
    · exact ih hgo.2 _ _
    · exact ⟨_, _, rfl, isDigit_digit (Nat.mod_lt _ (by norm_num))⟩

theorem atoi_digits {s rest : Str} {c : UInt8} (hs : s = c :: rest) (hc : IsDigit c) :
    atoi s = (atoiLoop s 0).map fun n : ℕ => (n : ℤ) := by
  have hne : c ≠ 0x2d := by
    rintro rfl
    exact absurd hc.1 (by decide)
  rw [hs, atoi, if_neg hne]
  simp

/-- `%d` without a size. -/
theorem decimal_zero (v : BitVec 32) :
    decimal 0 v = (if v.toInt < 0 then [0x2d] else []) ++ decimalLoop 18 v.toInt.natAbs [] := by
  have hle : v.toInt.natAbs ≤ 2 ^ 31 := by
    have := v.le_two_mul_toInt
    have := v.two_mul_toInt_lt
    omega
  unfold decimal
  simp only [Nat.min_eq_left (show v.toInt.natAbs ≤ 99999999999999999 by omega)]
  split_ifs <;> simp_all

/-- `%d` with one: spaces up to it. -/
theorem decimal_eq (len : ℕ) (v : BitVec 32) :
    decimal len v = if len < 18 ∧ (decimal 0 v).length < len then
      List.replicate (len - (decimal 0 v).length) 0x20 ++ decimal 0 v else decimal 0 v := by
  have hzero : ∀ {s : Str}, (if 0 > 0 ∧ 0 < 18 then s.leftpad 0 0x20 else s) = s := by simp
  unfold decimal
  dsimp only
  rw [hzero]
  generalize (if v.toInt < 0 then _ else _ : Str) = s
  by_cases hpad : len < 18 ∧ s.length < len
  · rw [if_pos hpad, if_pos ⟨by omega, hpad.1⟩]
    rfl
  · rw [if_neg hpad]
    split_ifs with h
    · rw [List.leftpad, show len - s.length = 0 by omega]
      rfl
    · rfl

/-- What `atoi` makes of a number without spaces. -/
theorem atoi_decimal_zero (v : BitVec 32) {rest : Str} (hrest : Ends rest) :
    atoi (decimal 0 v ++ rest) = if v.toInt = -2 ^ 31 then none else some v.toInt := by
  have hlo := v.le_two_mul_toInt
  have hhi := v.two_mul_toInt_lt
  have harg : v.toInt.natAbs < 10 ^ 18 := by omega
  have hloop : atoiLoop (decimalLoop 18 v.toInt.natAbs rest) 0 =
      if v.toInt = -2 ^ 31 then none else some v.toInt.natAbs := by
    rw [atoiLoop_decimalLoop (by norm_num) harg, atoiLoop_ends hrest]
    by_cases hmin : v.toInt = -2 ^ 31
    · rw [if_pos hmin, if_neg (by omega)]
    · rw [if_neg hmin, if_pos (by omega)]
  rw [decimal_zero, List.append_assoc, decimalLoop_append, List.nil_append]
  by_cases hsign : v.toInt < 0
  · rw [if_pos hsign, List.singleton_append, atoi, if_pos rfl, hloop]
    split_ifs with hmin
    · rfl
    · rw [Option.map_some, Option.some_inj]
      omega
  · obtain ⟨c, s, hs, hc⟩ := decimalLoop_head (by norm_num : 1 ≤ 18) v.toInt.natAbs rest
    rw [if_neg hsign, List.nil_append, atoi_digits hs hc, hloop, if_neg (by omega), if_neg (by omega),
      Option.map_some, Option.some_inj]
    omega

/-- `atoi` does not skip the spaces. -/
theorem atoi_space (s : Str) : atoi (0x20 :: s) = some 0 := by
  rw [atoi, if_neg (by decide), atoiLoop, if_neg (by decide)]
  rfl

/-- `atoi` reads a number back as `%d` with the size `len` has written it exactly if it is zero, or has
    its digits and is not padded: the digits of the least `int` overflow, and a space ends the number
    before it begins. -/
theorem atoi_decimal_iff (len : ℕ) (v : BitVec 32) {rest : Str} (hrest : Ends rest) :
    atoi (decimal len v ++ rest) = some v.toInt ↔
      v.toInt = 0 ∨ v.toInt ≠ -2 ^ 31 ∧ (18 ≤ len ∨ len ≤ (decimal 0 v).length) := by
  rw [decimal_eq]
  by_cases hpad : len < 18 ∧ (decimal 0 v).length < len
  · obtain ⟨k, hk⟩ := Nat.exists_eq_succ_of_ne_zero (by omega : len - (decimal 0 v).length ≠ 0)
    rw [if_pos hpad, hk, List.replicate_succ, List.cons_append, List.cons_append, atoi_space,
      Option.some_inj]
    constructor
    · intro h
      exact .inl h.symm
    · rintro (h | h)
      · exact h.symm
      · omega
  · rw [if_neg hpad, atoi_decimal_zero v hrest]
    split_ifs with hmin
    · refine iff_of_false (by simp) ?_
      omega
    · refine iff_of_true rfl (.inr ⟨hmin, by omega⟩)

theorem atoi_decimal_iff_line :
    atoi (decimal 0 (BitVec.ofInt 32 (-42)) ++ ofString "\n") = some (BitVec.ofInt 32 (-42)).toInt := by
  have hrest : Ends (ofString "\n") := by
    intro c hc
    obtain rfl := Option.some.inj hc
    decide
  exact (atoi_decimal_iff 0 _ hrest).mpr (.inr ⟨by decide, .inr (Nat.zero_le _)⟩)

/-! ## Hexadecimal -/

/-- `n + (n > 9 ? 0x37 : 0x30)`. -/
def hexChar (n : ℕ) : UInt8 := UInt8.ofNat (n + if n > 9 then 0x37 else 0x30)

theorem hexDigit_hexChar {n : ℕ} (h : n < 16) : Boot.hexDigit (hexChar n) = some n := by
  interval_cases n <;> rfl

theorem hexDigit_eq (arg : BitVec 64) : hexDigit arg = hexChar (arg.toNat % 16) := by
  unfold hexDigit hexChar
  rw [show (arg &&& 0xf#64).toNat = arg.toNat % 16 by
    rw [BitVec.toNat_and]
    exact Nat.and_two_pow_sub_one_eq_mod _ 4]

/-- Up to the sign, an arithmetic shift divides. -/
theorem sshiftRight_mod (arg : BitVec 64) {i : ℕ} (hi : i ≤ 15) :
    (arg.sshiftRight 4).toNat % 16 ^ i = arg.toNat / 16 % 16 ^ i := by
  rw [show 16 = 2 ^ 4 by norm_num, ← pow_mul]
  refine Nat.eq_of_testBit_eq fun j => ?_
  rw [Nat.testBit_mod_two_pow, Nat.testBit_mod_two_pow, Nat.testBit_div_two_pow]
  by_cases hj : j < 4 * i
  · have hbit := BitVec.getLsbD_sshiftRight arg 4 j
    rw [if_pos (by omega), BitVec.getLsbD, BitVec.getLsbD] at hbit
    rw [hbit, Nat.add_comm 4 j]
    simp [hj]
    omega
  · simp [hj]

/-- The digits that the loop of `%x` has in front of `tmpstr` are read first: the low ones, and those of
    a number that is not negative are all there are. -/
theorem hexValue_hexLoop {i : ℕ} {arg : BitVec 64} {tmpstr : Str} (hi : 1 ≤ i) (hi' : i ≤ 16)
    (harg : arg.msb = false → arg.toNat < 16 ^ i) :
    hexValue (hexLoop i arg tmpstr) 0 = hexValue tmpstr (arg.toNat % 16 ^ i) := by
  induction i generalizing arg tmpstr with
  | zero => omega
  | succ i ih =>
    have hdigit : ∀ r, hexValue (hexDigit arg :: tmpstr) r = hexValue tmpstr (r * 16 + arg.toNat % 16) := by
      intro r
      rw [hexValue, hexDigit_eq, hexDigit_hexChar (Nat.mod_lt _ (by norm_num))]
      rfl
    have hmod : arg.toNat % 16 ^ (i + 1) = arg.toNat / 16 % 16 ^ i * 16 + arg.toNat % 16 := by
      rw [pow_succ', Nat.mod_mul]
      omega
    rw [hexLoop]
    by_cases hgo : arg.sshiftRight 4 ≠ 0 ∧ i > 0
    · have hnext : (arg.sshiftRight 4).msb = false → (arg.sshiftRight 4).toNat < 16 ^ i := by
        intro hmsb
        rw [BitVec.msb_sshiftRight] at hmsb
        have hlt := harg hmsb
        rw [BitVec.toNat_sshiftRight_of_msb_false hmsb, Nat.shiftRight_eq_div_pow]
        rw [pow_succ] at hlt
        omega
      simp only [if_pos hgo]
      rw [ih hgo.2 (by omega) hnext, hdigit, sshiftRight_mod arg (by omega), hmod]
    · simp only [if_neg hgo]
      rw [hdigit, hmod]
      congr 1
      -- Nothing is left above the digit: the shift is zero, or all the room is taken.
      by_cases hi0 : i = 0
      · subst hi0
        simp [Nat.mod_one]
      · have hzero : arg.sshiftRight 4 = 0 := by
          by_contra hne
          exact hgo ⟨hne, by omega⟩
        rw [← sshiftRight_mod arg (by omega), hzero]
        simp

theorem hexValue_zeros (k : ℕ) (s : Str) : hexValue (List.replicate k 0x30 ++ s) 0 = hexValue s 0 := by
  induction k with
  | zero => rfl
  | succ k ih =>
    rw [List.replicate_succ, List.cons_append, hexValue]
    exact ih

/-- What `%x` writes has the value of the argument, whatever the size. -/
theorem hexValue_hex (len : ℕ) (arg : BitVec 64) : hexValue (hex len arg) 0 = some arg.toNat := by
  have hloop : hexValue (hexLoop 16 arg []) 0 = some arg.toNat := by
    have hlt : arg.toNat < 16 ^ 16 := arg.isLt
    rw [hexValue_hexLoop (by norm_num) le_rfl (fun _ => hlt), Nat.mod_eq_of_lt hlt]
    rfl
  unfold hex
  dsimp only
  split_ifs
  · rw [List.leftpad, hexValue_zeros, hloop]
  · exact hloop

theorem toInt_step (x : ℤ) (d : ℕ) : toInt (toInt (toInt x * 16) + d) = toInt (x * 16 + d) := by
  unfold toInt
  rw [Int.bmod_add_bmod, Int.add_bmod_eq_add_bmod_right]
  exact Int.bmod_mul_bmod

/-- `hex2bin` computes modulo `2 ^ 32`. -/
theorem hex2binLoop_mod {m : Mem} {a r v : ℕ} {s : Str} (h : Holds m a s) (hv : hexValue s r = some v) :
    hex2binLoop m s.length a (toInt r) = toInt v := by
  induction s generalizing a r with
  | nil =>
    obtain rfl := Option.some.inj hv
    rfl
  | cons c s ih =>
    obtain ⟨hc, hs⟩ := h
    obtain ⟨d, hd, hv⟩ := Option.bind_eq_some_iff.mp hv
    rw [List.length_cons, hex2binLoop, hc, hd]
    show hex2binLoop m s.length (a + 1) (toInt (toInt (toInt (r : ℤ) * 16) + d)) = toInt v
    rw [toInt_step]
    exact_mod_cast ih hs hv

theorem hex2bin_mod {m : Mem} {a v : ℕ} {s : Str} (h : Holds m a s) (hv : hexValue s 0 = some v) :
    hex2bin m a s.length = toInt v := by
  have hloop := hex2binLoop_mod h hv
  rwa [toInt_of_lt (by norm_num), Nat.cast_zero] at hloop

/-- `hex2bin` reads the low 32 bits back of a number that `%x` has written with any size. -/
theorem hex2bin_hex {m : Mem} {a : ℕ} (len : ℕ) (arg : BitVec 64) (h : Holds m a (hex len arg)) :
    hex2bin m a (hex len arg).length = (arg.setWidth 32).toInt := by
  rw [hex2bin_mod h (hexValue_hex len arg), BitVec.toInt_setWidth]
  rfl

theorem holds_hex_minus_two : Holds (fun i => if i < 15 then 0x46 else 0x45) 0 (hex 0 (-2)) := by
  have hdigits : hex 0 (-2) = List.replicate 15 0x46 ++ [0x45] := by decide
  rw [hdigits]
  exact ⟨rfl, rfl, rfl, rfl, rfl, rfl, rfl, rfl, rfl, rfl, rfl, rfl, rfl, rfl, rfl, rfl, trivial⟩

theorem hex2bin_hex_minus_two :
    hex2bin (fun i => if i < 15 then 0x46 else 0x45) 0 (hex 0 (-2)).length = -2 :=
  hex2bin_hex 0 (-2) holds_hex_minus_two

/-! ## `uart_hex` -/

/-- `uart_hex` (`uart.c`, lines 110–121): what it sends. -/
def uartHex (d : BitVec 32) : Str :=
  [28, 24, 20, 16, 12, 8, 4, 0].map fun c =>
    let n := (d >>> c) &&& 0xf
    UInt8.ofNat (n.toNat + if n.toNat > 9 then 0x37 else 0x30)

/-- A letter in upper case. -/
def upper (c : UInt8) : UInt8 := if 0x61 ≤ c ∧ c ≤ 0x66 then c - 0x20 else c

/-- The `n` lowest digits of `v`, the highest first. -/
def hexChars (n v : ℕ) : Str := ((List.range n).map fun k => hexChar (v / 16 ^ k % 16)).reverse

theorem uartHex_eq (d : BitVec 32) : uartHex d = hexChars 8 d.toNat := by
  have hdigit : ∀ c, ((d >>> c) &&& 0xf).toNat = d.toNat / 2 ^ c % 16 := by
    intro c
    rw [BitVec.toNat_and, BitVec.toNat_ushiftRight, Nat.shiftRight_eq_div_pow]
    exact Nat.and_two_pow_sub_one_eq_mod _ 4
  unfold uartHex hexChars
  simp only [hdigit, hexChar, List.range_succ, List.range_zero]
  rfl

theorem hexValue_append (s : Str) (c : UInt8) (r : ℕ) :
    hexValue (s ++ [c]) r = (hexValue s r).bind fun v => (Boot.hexDigit c).map fun d => v * 16 + d := by
  induction s generalizing r with
  | nil =>
    show (Boot.hexDigit c).bind (fun d => hexValue [] (r * 16 + d)) = _
    cases Boot.hexDigit c <;> rfl
  | cons b s ih =>
    rw [List.cons_append, hexValue, hexValue]
    cases Boot.hexDigit b with
    | none => rfl
    | some d => exact ih _

theorem hexChar_of_hexDigit {c : UInt8} {d : ℕ} (h : Boot.hexDigit c = some d) :
    d < 16 ∧ hexChar d = upper c := by
  have hval : ∀ n, (hexChar n).toNat = (n + if n > 9 then 0x37 else 0x30) % 256 := by
    intro n
    exact UInt8.toNat_ofNat'
  unfold Boot.hexDigit at h
  unfold upper
  rw [← UInt8.toNat_inj, hval]
  simp only [UInt8.le_iff_toNat_le, UInt8.reduceToNat] at h ⊢
  split_ifs at h with hdec hlow hupp
  all_goals obtain rfl := Option.some.inj h
  · rw [if_neg (by omega), if_neg (by omega)]
    omega
  · have hsub : (c - 0x20).toNat = c.toNat - 0x20 :=
      UInt8.toNat_sub_of_le c 0x20 (UInt8.le_iff_toNat_le.mpr (show 0x20 ≤ c.toNat by omega))
    rw [if_pos (by omega), if_pos hlow, hsub]
    omega
  · rw [if_pos (by omega), if_neg (by omega)]
    omega

/-- The digits of its value are those of the field. -/
theorem hexChars_of_hexValue {s : Str} {v : ℕ} (hv : hexValue s 0 = some v) :
    hexChars s.length v = s.map upper := by
  induction s using List.reverseRecOn generalizing v with
  | nil => rfl
  | append_singleton s c ih =>
    rw [hexValue_append] at hv
    obtain ⟨w, hw, hv⟩ := Option.bind_eq_some_iff.mp hv
    obtain ⟨d, hd, rfl⟩ := Option.map_eq_some_iff.mp hv
    obtain ⟨hlt, hchar⟩ := hexChar_of_hexDigit hd
    have hshift : ∀ k, (w * 16 + d) / 16 ^ (k + 1) % 16 = w / 16 ^ k % 16 := by
      intro k
      rw [pow_succ', ← Nat.div_div_eq_div_mul, show (w * 16 + d) / 16 = w by omega]
    have hlow : (w * 16 + d) / 16 ^ 0 % 16 = d := by
      rw [pow_zero, Nat.div_one]
      omega
    rw [List.map_append, ← ih hw]
    unfold hexChars
    rw [List.length_append, List.length_singleton, List.range_succ_eq_map, List.map_cons, List.map_map,
      List.reverse_cons, hlow, hchar]
    simp only [Function.comp_def, Nat.succ_eq_add_one, hshift]
    rfl

/-- Digits have a value, and nothing else has. -/
theorem hexValue_isSome_iff (s : Str) (r : ℕ) :
    (hexValue s r).isSome ↔ ∀ c ∈ s, (Boot.hexDigit c).isSome := by
  induction s generalizing r with
  | nil => simp [hexValue]
  | cons c s ih =>
    rw [hexValue, List.forall_mem_cons]
    cases Boot.hexDigit c with
    | none => simp
    | some d => simpa using ih (r * 16 + d)

theorem hexValue_lt {s : Str} {v : ℕ} (hv : hexValue s 0 = some v) : v < 16 ^ s.length := by
  induction s using List.reverseRecOn generalizing v with
  | nil =>
    obtain rfl := Option.some.inj hv
    norm_num
  | append_singleton s c ih =>
    rw [hexValue_append] at hv
    obtain ⟨w, hw, hv⟩ := Option.bind_eq_some_iff.mp hv
    obtain ⟨d, hd, rfl⟩ := Option.map_eq_some_iff.mp hv
    have hlt := (hexChar_of_hexDigit hd).1
    have hw' := ih hw
    rw [List.length_append, List.length_singleton, pow_succ]
    omega

theorem hex2binLoop_none {m : Mem} {a r : ℕ} {x : ℤ} {s : Str} (h : Holds m a s)
    (hv : hexValue s r = none) : hex2binLoop m s.length a x = -1 := by
  induction s generalizing a r x with
  | nil => cases hv
  | cons c s ih =>
    obtain ⟨hc, hs⟩ := h
    rw [hexValue] at hv
    rw [List.length_cons, hex2binLoop, hc]
    cases hd : Boot.hexDigit c with
    | none => rfl
    | some d =>
      rw [hd] at hv
      exact ih hs hv

theorem hexDigit_of_upper {c : UInt8} (h : upper c = 0x46) : (Boot.hexDigit c).isSome := by
  unfold upper at h
  unfold Boot.hexDigit
  by_cases hlow : 0x61 ≤ c ∧ c ≤ 0x66
  · rw [if_pos hlow]
    split_ifs <;> rfl
  · rw [if_neg hlow] at h
    subst h
    rfl

/-- `uart_hex` writes a field of eight characters as `hex2bin` has read it, in upper case, exactly if
    all of them are hexadecimal digits. -/
theorem uartHex_hex2bin_iff {m : Mem} {a : ℕ} {s : Str} (h : Holds m a s) (hlen : s.length = 8) :
    uartHex (BitVec.ofInt 32 (hex2bin m a 8)) = s.map upper ↔ ∀ c ∈ s, (Boot.hexDigit c).isSome := by
  rw [← hexValue_isSome_iff s 0, ← hlen]
  cases hv : hexValue s 0 with
  | some v =>
    refine iff_of_true ?_ rfl
    have hlt : v < 2 ^ 32 := by
      have := hexValue_lt hv
      rw [hlen] at this
      omega
    have hval : (BitVec.ofInt 32 (toInt v)).toNat = v := by
      unfold toInt
      rw [BitVec.toNat_ofInt, Int.bmod_emod]
      omega
    rw [hex2bin_mod h hv, uartHex_eq, hval, ← hlen]
    exact hexChars_of_hexValue hv
  | none =>
    refine iff_of_false ?_ (by simp)
    intro heq
    -- The field would have to read `FFFFFFFF`, and those are digits.
    have hfield : s.map upper = List.replicate 8 0x46 := by
      rw [← heq, hex2bin, hex2binLoop_none h hv]
      rfl
    have hdigits : ∀ c ∈ s, (Boot.hexDigit c).isSome := by
      intro c hc
      have hmem : upper c ∈ s.map upper := List.mem_map_of_mem hc
      rw [hfield] at hmem
      exact hexDigit_of_upper (List.eq_of_mem_replicate hmem)
    have hsome := (hexValue_isSome_iff s 0).mpr hdigits
    rw [hv] at hsome
    cases hsome

/-- `000081a4`, the mode of a regular file. -/
def modeField : Str := [0x30, 0x30, 0x30, 0x30, 0x38, 0x31, 0x61, 0x34]

theorem holds_modeField : Holds (fun i => modeField.getD i 0) 0 modeField :=
  ⟨rfl, rfl, rfl, rfl, rfl, rfl, rfl, rfl, trivial⟩

theorem uartHex_hex2bin_iff_mode :
    uartHex (BitVec.ofInt 32 (hex2bin (fun i => modeField.getD i 0) 0 8)) = modeField.map upper :=
  (uartHex_hex2bin_iff holds_modeField rfl).mpr ((hexValue_isSome_iff modeField 0).mp rfl)

end RaspiKernel.Print
