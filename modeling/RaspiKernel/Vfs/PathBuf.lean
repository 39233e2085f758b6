import RaspiKernel.Boot.Str
import RaspiKernel.Vfs.Lookup

/-!
# Buffers of path names

The loops of `vfs.c` put path names together character by character in buffers of
`MAX_PATH_LEN` bytes, at an `int` index. A buffer is memory here, and a write at
an index that is none of the buffer stops the model.

Results:
* `putChar_of_holds`: a character behind those that a buffer holds.
* `readStr_of_holds`: the string in a buffer that has been terminated.
-/

namespace RaspiKernel.Vfs

open Lib

/-- An access outside a buffer of `MAX_PATH_LEN` bytes. -/
inductive BufStop where
  | overrun
  | underrun
  deriving DecidableEq, Repr

/-- `buf[idx] = c;`. -/
def putChar (buf : Mem) (idx : ℤ) (c : UInt8) : Except BufStop Mem :=
  if idx < 0 then .error .underrun
  else if maxPathLen ≤ idx then .error .overrun
  else .ok (Function.update buf idx.toNat c)

/-! ## Splitting at slashes -/

theorem splitOn_cons_slash (rest : Str) : (slash :: rest).splitOn slash = [] :: rest.splitOn slash := by
  simp [List.splitOn, List.splitOnP_cons_eq_if_modifyHead]

theorem splitOn_cons_of_ne {c : UInt8} (hc : c ≠ slash) (rest : Str) :
    (c :: rest).splitOn slash = (rest.splitOn slash).modifyHead (c :: ·) := by
  simp [List.splitOn, List.splitOnP_cons_eq_if_modifyHead, hc]

theorem splitOn_ne_nil (s : Str) : s.splitOn slash ≠ [] := List.splitOnP_ne_nil _ _

/-- No part has a slash. -/
theorem slash_notMem_of_splitOn {s p : Str} (h : p ∈ s.splitOn slash) : slash ∉ p := by
  induction s generalizing p with
  | nil =>
    obtain rfl : p = [] := by simpa [show ([] : Str).splitOn slash = [[]] from rfl] using h
    exact List.not_mem_nil
  | cons c s ih =>
    by_cases hc : c = slash
    · rw [hc, splitOn_cons_slash, List.mem_cons] at h
      rcases h with rfl | h
      · exact List.not_mem_nil
      · exact ih h
    · rw [splitOn_cons_of_ne hc] at h
      obtain ⟨x, xs, hsplit⟩ := List.exists_cons_of_ne_nil (splitOn_ne_nil s)
      rw [hsplit] at h ih
      rcases List.mem_cons.mp h with rfl | h
      · rw [List.mem_cons, not_or]
        exact ⟨Ne.symm hc, ih List.mem_cons_self⟩
      · exact ih (List.mem_cons_of_mem _ h)

/-! ## A buffer and the string in it -/

variable {buf : Mem} {s : Str} {c : UInt8}

theorem putChar_of_lt {i : ℕ} (hi : i < maxPathLen) (buf : Mem) (c : UInt8) :
    putChar buf i c = .ok (Function.update buf i c) := by
  rw [putChar, if_neg (by omega), if_neg (by omega), Int.toNat_natCast]

/-- A write behind the characters of a string keeps them. -/
theorem holds_update_behind {i : ℕ} (h : Holds buf 0 s) (hi : s.length ≤ i) :
    Holds (Function.update buf i c) 0 s := by
  rw [holds_iff] at h ⊢
  intro j hj
  rw [Function.update_of_ne (by omega)]
  exact h j hj

theorem holds_snoc (h : Holds buf 0 s) (hc : buf s.length = c) : Holds buf 0 (s ++ [c]) :=
  holds_append.mpr ⟨h, by simpa [Holds] using hc⟩

/-- A character behind those that the buffer holds. -/
theorem putChar_of_holds (h : Holds buf 0 s) (hlen : s.length < maxPathLen) (c : UInt8) :
    putChar buf s.length c = .ok (Function.update buf s.length c) ∧
      Holds (Function.update buf s.length c) 0 (s ++ [c]) :=
  ⟨putChar_of_lt hlen buf c,
    holds_snoc (holds_update_behind h le_rfl) (Function.update_self _ _ _)⟩

/-- The string in a buffer that has been terminated. -/
theorem readStr_of_holds (h : Holds buf 0 (s ++ [0])) (hs : 0 ∉ s) (hlen : s.length < maxPathLen) :
    Boot.readStr buf maxPathLen 0 = some s :=
  Boot.readStr_spec ⟨h, hs⟩ hlen

end RaspiKernel.Vfs
