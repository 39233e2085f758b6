import RaspiKernel.Vfs.Basic

/-!
# `vsprintf` and the buffer of `printf`

Model of `vsprintf` of `src/sprintf.c` and of `printf` of `src/uart.c`, which formats
into a static array of 128 characters. `vsprintf` does not know the size of the array.

* A string is the list of its bytes before the NUL. The arguments have the types that
  `__builtin_va_arg` is called with; an argument of another type, and a format that
  ends inside of a conversion, stop the model.
* The size in a conversion does not overflow an `int`.
* `tmpstr` is filled from its end. The loops that fill it have the index `i`.

Results:
* `length_decimal_le`, `length_hex_le`: `tmpstr` is not left.
* `vsprintf_text`, `vsprintf_string`: what a format without conversions and one with a
  `%s` come to.
* `fits_plain`, `fits_string`: the messages that fit in the buffer.
-/

namespace RaspiKernel.Print

open Vfs (Str ofString)

/-! ## The model -/

/-- An argument of `printf`. -/
inductive Arg where
  | int (v : BitVec 32)
  | long (v : BitVec 64)
  /-- A pointer to a string, or NULL. -/
  | str (s : Option Str)
  deriving DecidableEq

/-- `'%'`. -/
abbrev percent : UInt8 := 0x25

/-- The `do` loop of `%d` (lines 79–82). The first argument is `i`. -/
def decimalLoop : ℕ → ℕ → Str → Str
  | 0, _, tmpstr => tmpstr
  | i + 1, arg, tmpstr =>
    let tmpstr := UInt8.ofNat (0x30 + arg % 10) :: tmpstr
    let arg := arg / 10
    if arg ≠ 0 ∧ i > 0 then decimalLoop i arg tmpstr else tmpstr

/-- The string of `%d` (lines 66–92). -/
def decimal (len : ℕ) (arg : BitVec 32) : Str :=
  let sign := arg.toInt < 0
  let tmpstr := decimalLoop 18 (min arg.toInt.natAbs 99999999999999999) []
  let tmpstr := if sign then 0x2d :: tmpstr else tmpstr
  if len > 0 ∧ len < 18 then tmpstr.leftpad len 0x20 else tmpstr

/-- `n + (n > 9 ? 0x37 : 0x30)` of the lowest digit. -/
def hexDigit (arg : BitVec 64) : UInt8 :=
  let n := (arg &&& 0xf#64).toNat
  UInt8.ofNat (n + if n > 9 then 0x37 else 0x30)

/-- The `do` loop of `%x` (lines 99–104). The first argument is `i`. -/
def hexLoop : ℕ → BitVec 64 → Str → Str
  | 0, _, tmpstr => tmpstr
  | i + 1, arg, tmpstr =>
    let tmpstr := hexDigit arg :: tmpstr
    let arg := arg.sshiftRight 4
    if arg ≠ 0 ∧ i > 0 then hexLoop i arg tmpstr else tmpstr

/-- The string of `%x` (lines 94–112). -/
def hex (len : ℕ) (arg : BitVec 64) : Str :=
  let tmpstr := hexLoop 16 arg []
  if len > 0 ∧ len ≤ 16 then tmpstr.leftpad len 0x30 else tmpstr

/-- What a conversion stores, and the arguments that are left. A character that is none of the four is
    skipped. -/
def convert (len : ℕ) (c : UInt8) (args : List Arg) : Option (Str × List Arg) :=
  if c = 0x63 then match args with
    | .int v :: args => some ([UInt8.ofBitVec (v.setWidth 8)], args)
    | _ => none
  else if c = 0x64 then match args with
    | .int v :: args => some (decimal len v, args)
    | _ => none
  else if c = 0x78 then match args with
    | .long v :: args => some (hex len v, args)
    | _ => none
  else if c = 0x73 then match args with
    | .str s :: args => some (s.getD (ofString "(null)"), args)
    | _ => none
  else some ([], args)

/-- Where the main loop is in the format. -/
inductive Place where
  | text
  /-- Behind a `%`. -/
  | percent
  /-- In the size. -/
  | size (len : ℕ)
  /-- Behind the `l`. -/
  | long (len : ℕ)
  deriving DecidableEq

/-- What the next character of the format is. -/
inductive Token where
  /-- Itself. -/
  | put
  | goto (place : Place)
  | conv (len : ℕ)

/-- A character behind the `%` or behind digits (lines 49–58). -/
def sizeToken (len : ℕ) (c : UInt8) : Token :=
  if 0x30 ≤ c ∧ c ≤ 0x39 then .goto (.size (len * 10 + (c.toNat - 0x30)))
  else if c = 0x6c then .goto (.long len)
  else .conv len

def Place.token (c : UInt8) : Place → Token
  | .text => if c = Print.percent then .goto .percent else .put
  | .percent => if c = Print.percent then .put else sizeToken 0 c
  | .size len => sizeToken len c
  | .long len => .conv len

/-- The main loop of `vsprintf` (lines 38–122): what it stores before the NUL. -/
def vsprintfLoop : Str → Place → List Arg → Option Str
  | [], .text, _ => some []
  | [], _, _ => none
  | c :: fmt, place, args => match place.token c with
    | .put => (vsprintfLoop fmt .text args).map (c :: ·)
    | .goto place => vsprintfLoop fmt place args
    | .conv len => do
      let (s, args) ← convert len c args
      let rest ← vsprintfLoop fmt .text args
      some (s ++ rest)

/-- `vsprintf` (lines 30–126), into an array and with a format. -/
def vsprintf (fmt : Str) (args : List Arg) : Option Str := vsprintfLoop fmt .text args

/-- What a call of `printf` is called with. -/
structure Message where
  fmt : Str
  args : List Arg
  deriving DecidableEq

/-- The size of `tmp`. -/
abbrev tmpSize : ℕ := 128

/-- `printf` (`uart.c`, lines 126–144): what it sends. A text that does not fit in `tmp` with its NUL
    stops the model. -/
def printf (m : Message) : Option Str := do
  let tmp ← vsprintf m.fmt m.args
  if tmp.length + 1 ≤ tmpSize then
    some ((tmp.takeWhile (· ≠ 0)).flatMap fun c => if c = 0x0a then [0x0d, c] else [c])
  else none

/-- `vsprintf` formats the message into at most 128 bytes, with the NUL. -/
def Message.Fits (m : Message) : Prop :=
  ∃ tmp, vsprintf m.fmt m.args = some tmp ∧ tmp.length + 1 ≤ tmpSize

variable {fmt pre post s : Str} {args : List Arg} {m : Message}

theorem fits_iff_printf : m.Fits ↔ (printf m).isSome := by
  unfold Message.Fits printf
  cases h : vsprintf m.fmt m.args with
  | none => simp
  | some tmp =>
    change _ ↔ (if tmp.length + 1 ≤ tmpSize then _ else none : Option Str).isSome
    split_ifs with hlen
    · exact iff_of_true ⟨tmp, rfl, hlen⟩ rfl
    · refine iff_of_false ?_ (by simp)
      rintro ⟨tmp', htmp, hlen'⟩
      obtain rfl := Option.some.inj htmp
      exact hlen hlen'

/-! ## Numbers -/

/-- A number of `k` digits takes at most `k` places. -/
theorem length_decimalLoop_le {i k arg : ℕ} {tmpstr : Str} (hk : 1 ≤ k) (harg : arg < 10 ^ k) :
    (decimalLoop i arg tmpstr).length ≤ tmpstr.length + k := by
  induction i generalizing k arg tmpstr with
  | zero => exact Nat.le_add_right _ _
  | succ i ih =>
    rw [decimalLoop]
    split_ifs with hgo
    · have hk' : 1 ≤ k - 1 := by
        by_contra hlt
        obtain rfl : k = 1 := by omega
        exact hgo.1 (Nat.div_eq_of_lt harg)
      have hdiv : arg / 10 < 10 ^ (k - 1) := by
        apply Nat.div_lt_of_lt_mul
        calc arg < 10 ^ k := harg
          _ = 10 * 10 ^ (k - 1) := by rw [← pow_succ', Nat.sub_add_cancel hk]
      have hle : (decimalLoop i (arg / 10) (UInt8.ofNat (0x30 + arg % 10) :: tmpstr)).length ≤
          tmpstr.length + 1 + (k - 1) := ih hk' hdiv
      omega
    · rw [List.length_cons]
      omega

/-- The digits, the sign and the spaces of `%d` are written to `tmpstr[0..18)`. -/
theorem length_decimal_le (len : ℕ) (arg : BitVec 32) : (decimal len arg).length ≤ 18 := by
  obtain ⟨digits, hdigits⟩ :
      ∃ digits, decimalLoop 18 (min arg.toInt.natAbs 99999999999999999) [] = digits := ⟨_, rfl⟩
  have hlen : digits.length ≤ 17 := by
    have harg : min arg.toInt.natAbs 99999999999999999 < 10 ^ 17 :=
      lt_of_le_of_lt (min_le_right _ _) (by norm_num)
    have hle : (decimalLoop 18 (min arg.toInt.natAbs 99999999999999999) []).length ≤ 0 + 17 :=
      length_decimalLoop_le (by norm_num) harg
    rwa [hdigits, Nat.zero_add] at hle
  have hsign : (if arg.toInt < 0 then 0x2d :: digits else digits).length ≤ 18 := by
    split_ifs
    · rw [List.length_cons]
      omega
    · omega
  unfold decimal
  dsimp only
  rw [hdigits]
  by_cases hpad : len > 0 ∧ len < 18
  · rw [if_pos hpad, List.length_leftpad]
    exact max_le hpad.2.le hsign
  · rw [if_neg hpad]
    exact hsign

theorem length_hexLoop_le {i : ℕ} {arg : BitVec 64} {tmpstr : Str} :
    (hexLoop i arg tmpstr).length ≤ tmpstr.length + i := by
  induction i generalizing arg tmpstr with
  | zero => exact le_rfl
  | succ i ih =>
    rw [hexLoop]
    split_ifs
    · refine ih.trans ?_
      rw [List.length_cons]
      omega
    · rw [List.length_cons]
      omega

/-- The digits and the zeros of `%x` are written to `tmpstr[0..16)`. -/
theorem length_hex_le (len : ℕ) (arg : BitVec 64) : (hex len arg).length ≤ 16 := by
  have hdigits : (hexLoop 16 arg []).length ≤ 16 := length_hexLoop_le
  unfold hex
  dsimp only
  split_ifs with hlen
  · rw [List.length_leftpad]
    exact max_le hlen.2 hdigits
  · exact hdigits

/-! ## Formats -/

theorem vsprintfLoop_cons (c : UInt8) (hc : c ≠ percent) :
    vsprintfLoop (c :: fmt) .text args = (vsprintfLoop fmt .text args).map (c :: ·) := by
  have htoken : Place.text.token c = .put := if_neg hc
  rw [vsprintfLoop, htoken]

/-- Characters without a `%` are copied. -/
theorem vsprintfLoop_append (hpre : percent ∉ pre) :
    vsprintfLoop (pre ++ fmt) .text args = (vsprintfLoop fmt .text args).map (pre ++ ·) := by
  induction pre with
  | nil => simp
  | cons c pre ih =>
    rw [List.mem_cons, not_or] at hpre
    rw [List.cons_append, vsprintfLoop_cons c (Ne.symm hpre.1), ih hpre.2, Option.map_map]
    rfl

/-- A format without conversions is the text. -/
theorem vsprintf_text (hfmt : percent ∉ fmt) : vsprintf fmt args = some fmt := by
  have happend : vsprintfLoop (fmt ++ []) .text args = _ := vsprintfLoop_append hfmt
  rw [List.append_nil] at happend
  rw [vsprintf, happend, vsprintfLoop, Option.map_some, List.append_nil]

/-- A `%s` is replaced by the whole string. -/
theorem vsprintf_string (hpre : percent ∉ pre) (hpost : percent ∉ post) :
    vsprintf (pre ++ percent :: 0x73 :: post) [.str (some s)] = some (pre ++ (s ++ post)) := by
  have hconv : vsprintfLoop (percent :: 0x73 :: post) .text [.str (some s)] =
      (vsprintf post []).map (s ++ ·) := by
    change (vsprintfLoop post .text [] >>= fun rest => some (s ++ rest)) = _
    cases h : vsprintfLoop post .text [] with
    | none => simp [vsprintf, h]
    | some rest => simp [vsprintf, h]
  rw [vsprintf, vsprintfLoop_append hpre, hconv, vsprintf_text hpost]
  rfl

example : vsprintf (ofString "%c%%%4d 0x%3x %s%k\n") [.int 65, .int (-7), .long 0x2a, .str none] =
    some (ofString "A%  -7 0x02A (null)\n") := by decide

/-- A message without conversions. -/
def plain (text : String) : Message := ⟨ofString text, []⟩

theorem fits_plain (hfmt : percent ∉ fmt) (hlen : fmt.length + 1 ≤ tmpSize) :
    (⟨fmt, []⟩ : Message).Fits :=
  ⟨fmt, vsprintf_text hfmt, hlen⟩

/-- A message with one `%s` fits exactly if the string is not longer than what the rest of it leaves. -/
theorem fits_string (pre post : Str) {k : ℕ} (hpre : percent ∉ pre) (hpost : percent ∉ post)
    (hfmt : fmt = pre ++ percent :: 0x73 :: post) (hk : pre.length + k + post.length + 1 = tmpSize) :
    (⟨fmt, [.str (some s)]⟩ : Message).Fits ↔ s.length ≤ k := by
  unfold Message.Fits
  dsimp only
  rw [hfmt, vsprintf_string hpre hpost, ← hk]
  constructor
  · rintro ⟨tmp, htmp, hlen⟩
    obtain rfl := Option.some.inj htmp
    simp only [List.length_append] at hlen
    omega
  · intro hlen
    refine ⟨_, rfl, ?_⟩
    simp only [List.length_append]
    omega

end RaspiKernel.Print
