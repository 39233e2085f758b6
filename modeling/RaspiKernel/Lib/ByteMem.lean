import Mathlib

/-!
# Byte memory

Memory as a function from addresses to bytes, with little-endian loads and
stores of `w` bytes, and chains of 8-byte pointers threaded through it.

Results:
* `load_store`: a load reads back what was stored.
* `load_congr`: a load depends on the bytes it reads only.
* `bytes_copy`: what a copy leaves of the bytes around it.
* `copyDown_eq`, `copyUp_eq`: byte loops between two ranges that may overlap.
* `Chain.frame`, `Chain.push`: pointer chains.
-/

namespace RaspiKernel.Lib

/-- Memory. -/
abbrev Mem := ℕ → UInt8

/-- The `w` bytes at `a`, as a little-endian number. -/
def load (m : Mem) (a : ℕ) : ℕ → ℕ
  | 0 => 0
  | w + 1 => (m a).toNat + 256 * load m (a + 1) w

/-- Store the low `w` bytes of `v` at `a`. -/
def store (m : Mem) (a v w : ℕ) : Mem :=
  fun x => if a ≤ x ∧ x < a + w then UInt8.ofNat (v / 256 ^ (x - a)) else m x

theorem store_of_not_mem {m : Mem} {a v w x : ℕ} (h : ¬ (a ≤ x ∧ x < a + w)) :
    store m a v w x = m x := if_neg h

/-- A load depends on the bytes it reads only, wherever they are. -/
theorem load_shift {m m' : Mem} {a a' w : ℕ} (h : ∀ i < w, m' (a' + i) = m (a + i)) :
    load m' a' w = load m a w := by
  induction w generalizing a a' with
  | zero => rfl
  | succ w ih =>
    have h0 := h 0 (by omega)
    have ht : load m' (a' + 1) w = load m (a + 1) w := by
      apply ih
      intro i hi
      have := h (i + 1) (by omega)
      rwa [show a + (i + 1) = a + 1 + i by omega, show a' + (i + 1) = a' + 1 + i by omega] at this
    rw [load, load, ht]
    rw [add_zero, add_zero] at h0
    rw [h0]

theorem load_congr {m m' : Mem} {a w : ℕ} (h : ∀ i < w, m' (a + i) = m (a + i)) :
    load m' a w = load m a w := load_shift h

theorem load_lt (m : Mem) (a w : ℕ) : load m a w < 256 ^ w := by
  induction w generalizing a with
  | zero => exact Nat.one_pos
  | succ w ih =>
    have hbyte := (m a).toNat_lt
    have htail := ih (a + 1)
    rw [load, pow_succ]
    omega

theorem load_eq {m : Mem} {a v w : ℕ}
    (h : ∀ i < w, m (a + i) = UInt8.ofNat (v / 256 ^ i)) : load m a w = v % 256 ^ w := by
  induction w generalizing a v with
  | zero => simp [load, Nat.mod_one]
  | succ w ih =>
    have h0 := h 0 (by omega)
    have ht : load m (a + 1) w = v / 256 % 256 ^ w := by
      apply ih
      intro i hi
      have := h (i + 1) (by omega)
      rwa [show a + (i + 1) = a + 1 + i by omega, pow_succ', ← Nat.div_div_eq_div_mul] at this
    rw [add_zero, pow_zero, Nat.div_one] at h0
    rw [load, ht, h0, UInt8.toNat_ofNat', pow_succ' 256 w, Nat.mod_mul]

theorem load_store {m : Mem} {a v w : ℕ} (h : v < 256 ^ w) : load (store m a v w) a w = v := by
  rw [load_eq (v := v), Nat.mod_eq_of_lt h]
  intro i hi
  unfold store
  rw [if_pos (by omega), Nat.add_sub_cancel_left]

/-- A load elsewhere does not see the store. -/
theorem load_store_of_disjoint {m : Mem} {a b v w n : ℕ} (h : b + n ≤ a ∨ a + w ≤ b) :
    load (store m a v w) b n = load m b n := by
  apply load_congr
  intro i hi
  apply store_of_not_mem
  omega

/-! ## Copies -/

/-- `n` bytes of `src`, from its start, over the bytes of `m` at `a`. -/
def copy (m : Mem) (a : ℕ) (src : Mem) (n : ℕ) : Mem :=
  fun x => if a ≤ x ∧ x < a + n then src (x - a) else m x

/-- The `n` bytes at `a`. -/
def bytes (m : Mem) (a n : ℕ) : List UInt8 := (List.range n).map fun i => m (a + i)

/-- A memory that starts with the given bytes. -/
def ofBytes (l : List UInt8) : Mem := fun i => l.getD i 0

theorem copy_of_mem {m src : Mem} {a n x : ℕ} (h : a ≤ x ∧ x < a + n) :
    copy m a src n x = src (x - a) := if_pos h

theorem copy_of_not_mem {m src : Mem} {a n x : ℕ} (h : ¬ (a ≤ x ∧ x < a + n)) :
    copy m a src n x = m x := if_neg h

@[simp] theorem length_bytes (m : Mem) (a n : ℕ) : (bytes m a n).length = n := by
  simp [bytes]

theorem getElem?_bytes (m : Mem) (a n i : ℕ) :
    (bytes m a n)[i]? = if i < n then some (m (a + i)) else none := by
  unfold bytes
  split <;> simp [*]

theorem bytes_append (m : Mem) (a n k : ℕ) :
    bytes m a n ++ bytes m (a + n) k = bytes m a (n + k) := by
  unfold bytes
  rw [List.range_add, List.map_append, List.map_map]
  congr 1
  apply List.map_congr_left
  intro i _
  rw [Function.comp_apply, Nat.add_assoc]

theorem take_bytes (m : Mem) (a n k : ℕ) : (bytes m a n).take k = bytes m a (min k n) := by
  unfold bytes
  rw [← List.map_take, List.take_range]

theorem bytes_congr {m m' : Mem} {a n : ℕ} (h : ∀ i < n, m' (a + i) = m (a + i)) :
    bytes m' a n = bytes m a n := by
  unfold bytes
  apply List.map_congr_left
  intro i hi
  exact h i (List.mem_range.mp hi)

theorem bytes_eq {m : Mem} {a n : ℕ} {l : List UInt8} (hn : l.length = n)
    (h : ∀ i < n, m (a + i) = ofBytes l i) : bytes m a n = l := by
  subst hn
  apply List.ext_getElem?
  intro i
  rw [getElem?_bytes]
  split
  next hi =>
    rw [h i hi, List.getElem?_eq_getElem hi]
    simp [ofBytes, hi]
  next hi => rw [List.getElem?_eq_none (by omega)]

/-- A copy into a prefix, that may make it longer. -/
theorem bytes_copy (m : Mem) {a size : ℕ} (ha : a ≤ size) (l : List UInt8) :
    bytes (copy m a (ofBytes l) l.length) 0 (max size (a + l.length)) =
      (bytes m 0 size).take a ++ l ++ (bytes m 0 size).drop (a + l.length) := by
  apply List.ext_getElem?
  intro i
  rw [getElem?_bytes, List.append_assoc, zero_add]
  have hlen : ((bytes m 0 size).take a).length = a := by simp [ha]
  rcases lt_or_ge i a with hi | hi
  · rw [if_pos (by omega), copy_of_not_mem (by omega), List.getElem?_append_left (by omega),
      List.getElem?_take_of_lt hi, getElem?_bytes, if_pos (by omega), zero_add]
  · rw [List.getElem?_append_right (by omega), hlen]
    rcases lt_or_ge i (a + l.length) with hil | hil
    · rw [if_pos (by omega), copy_of_mem ⟨hi, hil⟩, List.getElem?_append_left (by omega)]
      simp [ofBytes, show i - a < l.length by omega]
    · rw [List.getElem?_append_right (by omega), List.getElem?_drop, getElem?_bytes,
        copy_of_not_mem (by omega), show a + l.length + (i - a - l.length) = i by omega, zero_add]
      congr 1
      apply propext
      omega

/-! ## Copies within a memory -/

/-- `dest[i] = src[i]`. -/
def copyAt (dest src : ℕ) (m : Mem) (i : ℕ) : Mem := Function.update m (dest + i) (m (src + i))

/-- The bytes `n - 1`, …, 0, in this order. -/
def copyDown (dest src : ℕ) : ℕ → Mem → Mem
  | 0, m => m
  | i + 1, m => copyDown dest src i (copyAt dest src m i)

/-- The bytes `i`, …, `i + n - 1`, in this order. -/
def copyUp (dest src : ℕ) : ℕ → ℕ → Mem → Mem
  | 0, _, m => m
  | n + 1, i, m => copyUp dest src n (i + 1) (copyAt dest src m i)

theorem copyAt_of_ne {m : Mem} {dest src i x : ℕ} (h : x ≠ dest + i) : copyAt dest src m i x = m x :=
  Function.update_of_ne h _ _

theorem copyAt_self (m : Mem) (dest src i : ℕ) : copyAt dest src m i (dest + i) = m (src + i) :=
  Function.update_self _ _ _

/-- Downwards, a byte of the source is written only after it has been read, if the source does not
    come behind. -/
theorem copyDown_eq {dest src : ℕ} (h : src ≤ dest) (n : ℕ) (m : Mem) :
    copyDown dest src n m = copy m dest (fun i => m (src + i)) n := by
  induction n generalizing m with
  | zero =>
    funext x
    rw [copyDown, copy_of_not_mem (by omega)]
  | succ n ih =>
    funext x
    rw [copyDown, ih]
    by_cases hx : dest ≤ x ∧ x < dest + n
    · rw [copy_of_mem hx, copy_of_mem (by omega), copyAt_of_ne (by omega)]
    · rw [copy_of_not_mem hx]
      by_cases hlast : x = dest + n
      · rw [hlast, copyAt_self, copy_of_mem (by omega), Nat.add_sub_cancel_left]
      · rw [copyAt_of_ne hlast, copy_of_not_mem (by omega)]

/-- Upwards, the source must not come before. -/
theorem copyUp_eq {dest src : ℕ} (h : dest ≤ src) (n i : ℕ) (m : Mem) :
    copyUp dest src n i m = copy m (dest + i) (fun k => m (src + i + k)) n := by
  induction n generalizing i m with
  | zero =>
    funext x
    rw [copyUp, copy_of_not_mem (by omega)]
  | succ n ih =>
    funext x
    rw [copyUp, ih]
    by_cases hx : dest + (i + 1) ≤ x ∧ x < dest + (i + 1) + n
    · rw [copy_of_mem hx, copy_of_mem (by omega), copyAt_of_ne (by omega)]
      congr 1
      omega
    · rw [copy_of_not_mem hx]
      by_cases hfirst : x = dest + i
      · rw [hfirst, copyAt_self, copy_of_mem (by omega), Nat.sub_self, add_zero]
      · rw [copyAt_of_ne hfirst, copy_of_not_mem (by omega)]

/-! ## Byte strings in memory -/

/-- The bytes of the list are in memory, starting at `a`. -/
def Holds (m : Mem) (a : ℕ) : List UInt8 → Prop
  | [] => True
  | b :: l => m a = b ∧ Holds m (a + 1) l

theorem holds_append {m : Mem} {a : ℕ} {l l' : List UInt8} :
    Holds m a (l ++ l') ↔ Holds m a l ∧ Holds m (a + l.length) l' := by
  induction l generalizing a with
  | nil => simp [Holds]
  | cons b l ih =>
    rw [List.cons_append, Holds, Holds, ih, and_assoc, List.length_cons,
      show a + 1 + l.length = a + (l.length + 1) by omega]

theorem holds_iff {m : Mem} {a : ℕ} {l : List UInt8} :
    Holds m a l ↔ ∀ i (h : i < l.length), m (a + i) = l.get ⟨i, h⟩ := by
  induction l generalizing a with
  | nil => simp [Holds]
  | cons b l ih =>
    rw [Holds, ih]
    constructor
    · rintro ⟨hb, hl⟩ i hi
      cases i with
      | zero => exact hb
      | succ i =>
        rw [show a + (i + 1) = a + 1 + i by omega]
        exact hl i (Nat.lt_of_succ_lt_succ hi)
    · intro h
      refine ⟨h 0 (Nat.succ_pos _), fun i hi => ?_⟩
      rw [show a + 1 + i = a + (i + 1) by omega]
      exact h (i + 1) (Nat.succ_lt_succ hi)

/-- A list placed at `a`. -/
theorem holds_ofBytes {m : Mem} {a : ℕ} {l : List UInt8}
    (h : ∀ i < l.length, m (a + i) = ofBytes l i) : Holds m a l := by
  rw [holds_iff]
  intro i hi
  rw [h i hi]
  simp [ofBytes, hi]

/-- Memory holds a byte string with the NUL that ends it. -/
def HoldsStr (m : Mem) (a : ℕ) (s : List UInt8) : Prop := Holds m a (s ++ [0]) ∧ 0 ∉ s

theorem holdsStr_nil {m : Mem} {a : ℕ} : HoldsStr m a [] ↔ m a = 0 := by
  simp [HoldsStr, Holds]

theorem holdsStr_cons {m : Mem} {a : ℕ} {c : UInt8} {s : List UInt8} :
    HoldsStr m a (c :: s) ↔ m a = c ∧ c ≠ 0 ∧ HoldsStr m (a + 1) s := by
  unfold HoldsStr
  rw [List.cons_append, Holds, List.mem_cons, not_or, ne_comm]
  tauto

/-! ## Pointer chains -/

/-- From the pointer `p`, the 8-byte pointers threaded through memory lead through the addresses of
    the list and end in NULL. -/
def Chain (m : Mem) (p : ℕ) : List ℕ → Prop
  | [] => p = 0
  | a :: l => p = a ∧ a ≠ 0 ∧ Chain m (load m a 8) l

theorem Chain.frame {m m' : Mem} {p : ℕ} {l : List ℕ} (h : Chain m p l)
    (hm : ∀ a ∈ l, ∀ i < 8, m' (a + i) = m (a + i)) : Chain m' p l := by
  induction l generalizing p with
  | nil => exact h
  | cons a l ih =>
    obtain ⟨hp, ha, hl⟩ := h
    refine ⟨hp, ha, ?_⟩
    rw [load_congr (hm a List.mem_cons_self)]
    exact ih hl fun b hb => hm b (List.mem_cons_of_mem _ hb)

/-- A chain that does not start with NULL has a first element. -/
theorem Chain.exists_cons {m : Mem} {p : ℕ} {l : List ℕ} (h : Chain m p l) (hp : p ≠ 0) :
    ∃ l', l = p :: l' ∧ Chain m (load m p 8) l' := by
  cases l with
  | nil => exact absurd h hp
  | cons a l =>
    obtain ⟨rfl, -, hl⟩ := h
    exact ⟨l, rfl, hl⟩

/-- Push an address that the chain does not touch. -/
theorem Chain.push {m : Mem} {p a : ℕ} {l : List ℕ} (h : Chain m p l) (hp : p < 2 ^ 64)
    (ha : a ≠ 0) (hapart : ∀ b ∈ l, b + 8 ≤ a ∨ a + 8 ≤ b) :
    Chain (store m a p 8) a (a :: l) := by
  refine ⟨rfl, ha, ?_⟩
  rw [load_store (by omega)]
  refine h.frame fun b hb i hi => store_of_not_mem ?_
  have := hapart b hb
  omega

end RaspiKernel.Lib
