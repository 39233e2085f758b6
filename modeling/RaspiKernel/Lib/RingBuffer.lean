import Mathlib

/-!
# Ring buffers

A buffer of `size` cells that is written at `head` and read at `tail`, both
running around it. What it holds are the cells from `tail` to `head`; one cell
stays free, so that `head = tail` says that it holds nothing.

Results:
* `contents_write`: a write at `head` changes nothing that the buffer holds.
* `contents_push`: a write followed by a step of `head` appends, with room for it.
* `contents_eq_cons`: a read at `tail` followed by a step of `tail` takes the first.
-/

namespace RaspiKernel.Lib

structure RingBuffer (α : Type*) where
  buffer : ℕ → α
  head : ℕ
  tail : ℕ
  size : ℕ

namespace RingBuffer

variable {α : Type*}

/-- Both ends are in the buffer. -/
structure Ok (r : RingBuffer α) : Prop where
  head_lt : r.head < r.size
  tail_lt : r.tail < r.size

/-- Store at `head`. -/
def write (r : RingBuffer α) (x : α) : RingBuffer α :=
  { r with buffer := Function.update r.buffer r.head x }

/-- Move `head` to the next cell. -/
def advance (r : RingBuffer α) : RingBuffer α := { r with head := (r.head + 1) % r.size }

/-- Move `tail` to the next cell. -/
def release (r : RingBuffer α) : RingBuffer α := { r with tail := (r.tail + 1) % r.size }

/-- The cell `k` places behind `tail`. -/
def cell (r : RingBuffer α) (k : ℕ) : ℕ :=
  if r.tail + k < r.size then r.tail + k else r.tail + k - r.size

/-- How much the buffer holds. -/
def count (r : RingBuffer α) : ℕ :=
  if r.tail ≤ r.head then r.head - r.tail else r.head + r.size - r.tail

/-- What the buffer holds, oldest first. -/
def contents (r : RingBuffer α) : List α := (List.range r.count).map fun k => r.buffer (r.cell k)

@[simp] theorem length_contents (r : RingBuffer α) : r.contents.length = r.count := by
  rw [contents, List.length_map, List.length_range]

/-! ## Indices -/

theorem succ_mod {i n : ℕ} (h : i < n) : (i + 1) % n = if i + 1 = n then 0 else i + 1 := by
  split_ifs with hn
  · rw [hn, Nat.mod_self]
  · exact Nat.mod_eq_of_lt (by omega)

theorem Ok.advance {r : RingBuffer α} (h : r.Ok) : r.advance.Ok :=
  ⟨Nat.mod_lt _ (Nat.zero_lt_of_lt h.head_lt), h.tail_lt⟩

theorem Ok.release {r : RingBuffer α} (h : r.Ok) : r.release.Ok :=
  ⟨h.head_lt, Nat.mod_lt _ (Nat.zero_lt_of_lt h.tail_lt)⟩

theorem Ok.count_lt {r : RingBuffer α} (h : r.Ok) : r.count < r.size := by
  have := h.head_lt
  have := h.tail_lt
  unfold count
  split_ifs <;> omega

/-- The first free cell is `head`. -/
theorem Ok.cell_count {r : RingBuffer α} (h : r.Ok) : r.cell r.count = r.head := by
  have := h.head_lt
  have := h.tail_lt
  unfold cell count
  split_ifs <;> omega

theorem Ok.cell_ne_head {r : RingBuffer α} (h : r.Ok) {k : ℕ} (hk : k < r.count) :
    r.cell k ≠ r.head := by
  have := h.head_lt
  have := h.tail_lt
  revert hk
  unfold cell count
  split_ifs <;> omega

theorem Ok.count_eq_zero {r : RingBuffer α} (h : r.Ok) : r.count = 0 ↔ r.head = r.tail := by
  have := h.head_lt
  have := h.tail_lt
  unfold count
  split_ifs <;> omega

theorem Ok.contents_eq_nil {r : RingBuffer α} (h : r.Ok) : r.contents = [] ↔ r.head = r.tail := by
  rw [← List.length_eq_zero_iff, length_contents, h.count_eq_zero]

theorem Ok.count_advance {r : RingBuffer α} (h : r.Ok) (hroom : r.count + 1 < r.size) :
    r.advance.count = r.count + 1 := by
  have := h.head_lt
  have := h.tail_lt
  revert hroom
  unfold count RingBuffer.advance
  rw [succ_mod h.head_lt]
  dsimp only
  split_ifs <;> omega

/-- A step of `head` into the one cell that has to stay free: the buffer looks empty. -/
theorem Ok.count_advance_full {r : RingBuffer α} (h : r.Ok) (hfull : r.count + 1 = r.size) :
    r.advance.count = 0 := by
  have := h.head_lt
  have := h.tail_lt
  revert hfull
  unfold count RingBuffer.advance
  rw [succ_mod h.head_lt]
  dsimp only
  split_ifs <;> omega

theorem Ok.count_release {r : RingBuffer α} (h : r.Ok) (hne : r.head ≠ r.tail) :
    r.count = r.release.count + 1 := by
  have := h.head_lt
  have := h.tail_lt
  unfold count RingBuffer.release
  rw [succ_mod h.tail_lt]
  dsimp only
  split_ifs <;> omega

theorem Ok.cell_release {r : RingBuffer α} (h : r.Ok) {k : ℕ} (hk : k + 1 < r.size) :
    r.release.cell k = r.cell (k + 1) := by
  have := h.tail_lt
  unfold cell RingBuffer.release
  rw [succ_mod h.tail_lt]
  dsimp only
  split_ifs <;> omega

/-! ## Contents -/

/-- A write alone is to a free cell. -/
theorem Ok.contents_write {r : RingBuffer α} (h : r.Ok) (x : α) :
    (r.write x).contents = r.contents := by
  refine List.map_congr_left fun k hk => ?_
  show Function.update r.buffer r.head x (r.cell k) = r.buffer (r.cell k)
  rw [Function.update_of_ne (h.cell_ne_head (List.mem_range.mp hk))]

/-- A step of `head` appends what its cell holds. -/
theorem Ok.contents_advance {r : RingBuffer α} (h : r.Ok) (hroom : r.count + 1 < r.size) :
    r.advance.contents = r.contents ++ [r.buffer r.head] := by
  rw [contents, h.count_advance hroom, List.range_succ, List.map_append]
  show r.contents ++ [r.buffer (r.cell r.count)] = _
  rw [h.cell_count]

theorem Ok.contents_push {r : RingBuffer α} (h : r.Ok) (hroom : r.count + 1 < r.size) (x : α) :
    (r.write x).advance.contents = r.contents ++ [x] := by
  have hw : (r.write x).Ok := ⟨h.head_lt, h.tail_lt⟩
  have hcell : (r.write x).buffer (r.write x).head = x := Function.update_self _ _ _
  rw [hw.contents_advance hroom, h.contents_write, hcell]

/-- A step of `tail` takes the oldest. -/
theorem Ok.contents_eq_cons {r : RingBuffer α} (h : r.Ok) (hne : r.head ≠ r.tail) :
    r.contents = r.buffer r.tail :: r.release.contents := by
  have hcount := h.count_release hne
  have hlt := h.count_lt
  have hfirst : r.cell 0 = r.tail := if_pos h.tail_lt
  rw [contents, hcount, List.range_succ_eq_map, List.map_cons, List.map_map, hfirst]
  congr 1
  refine List.map_congr_left fun k hk => ?_
  have hk := List.mem_range.mp hk
  show r.buffer (r.cell (k + 1)) = r.buffer (r.release.cell k)
  rw [h.cell_release (by omega)]

end RingBuffer

end RaspiKernel.Lib
