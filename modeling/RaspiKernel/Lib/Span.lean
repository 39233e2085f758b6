import Mathlib

/-!
# Sorted lists of disjoint spans

A span is a half-open run `[base, base + size)` of naturals. `fill lo hi l`
inserts the parts of `[lo, hi)` that a sorted list `l` does not cover yet, in
one pass from left to right; `coalesce` then joins touching neighbours. Together
they add a range to a normalised list.

Results:
* `covers_fill`, `fill_sorted`: `fill` adds exactly `[lo, hi)` and keeps the
  list sorted and disjoint.
* `covers_coalesce`, `coalesce_normal`: `coalesce` keeps the covered set and
  leaves a gap between any two spans.
-/

namespace RaspiKernel.Lib

/-- The half-open run `[base, base + size)`. -/
@[ext] structure Span where
  base : ℕ
  size : ℕ
  deriving DecidableEq, Repr

namespace Span

/-- The first point after the span. -/
def stop (s : Span) : ℕ := s.base + s.size

instance : Membership ℕ Span := ⟨fun s x => s.base ≤ x ∧ x < s.stop⟩

instance (x : ℕ) (s : Span) : Decidable (x ∈ s) :=
  inferInstanceAs (Decidable (s.base ≤ x ∧ x < s.stop))

theorem mem_def {x : ℕ} {s : Span} : x ∈ s ↔ s.base ≤ x ∧ x < s.stop := Iff.rfl

/-- Some span of the list contains `x`. -/
def Covers (l : List Span) (x : ℕ) : Prop := ∃ s ∈ l, x ∈ s

@[simp] theorem covers_nil (x : ℕ) : ¬ Covers [] x := by simp [Covers]

@[simp] theorem covers_cons (s : Span) (l : List Span) (x : ℕ) :
    Covers (s :: l) x ↔ x ∈ s ∨ Covers l x := by simp [Covers]

/-- The total length. -/
def total (l : List Span) : ℕ := (l.map size).sum

@[simp] theorem total_nil : total [] = 0 := rfl

@[simp] theorem total_cons (s : Span) (l : List Span) : total (s :: l) = s.size + total l := rfl

@[simp] theorem total_append (l m : List Span) : total (l ++ m) = total l + total m := by
  simp [total]

/-- Non-empty spans in increasing order, disjoint. -/
structure Sorted (l : List Span) : Prop where
  pos : ∀ s ∈ l, 0 < s.size
  pairwise : l.Pairwise fun a b => a.stop ≤ b.base

/-- Non-empty spans in increasing order with a gap between any two. -/
structure Normal (l : List Span) : Prop where
  pos : ∀ s ∈ l, 0 < s.size
  pairwise : l.Pairwise fun a b => a.stop < b.base

theorem Normal.sorted {l : List Span} (h : Normal l) : Sorted l :=
  ⟨h.pos, h.pairwise.imp fun h => h.le⟩

theorem sorted_cons {s : Span} {l : List Span} :
    Sorted (s :: l) ↔ 0 < s.size ∧ (∀ b ∈ l, s.stop ≤ b.base) ∧ Sorted l := by
  constructor
  · rintro ⟨hp, hw⟩
    rw [List.pairwise_cons] at hw
    exact ⟨hp s List.mem_cons_self, hw.1, fun b hb => hp b (List.mem_cons_of_mem _ hb), hw.2⟩
  · rintro ⟨hp, hb, hl⟩
    refine ⟨?_, List.pairwise_cons.mpr ⟨hb, hl.pairwise⟩⟩
    intro b hb'
    rcases List.mem_cons.mp hb' with rfl | hb'
    · exact hp
    · exact hl.pos b hb'

theorem normal_cons {s : Span} {l : List Span} :
    Normal (s :: l) ↔ 0 < s.size ∧ (∀ b ∈ l, s.stop < b.base) ∧ Normal l := by
  constructor
  · rintro ⟨hp, hw⟩
    rw [List.pairwise_cons] at hw
    exact ⟨hp s List.mem_cons_self, hw.1, fun b hb => hp b (List.mem_cons_of_mem _ hb), hw.2⟩
  · rintro ⟨hp, hb, hl⟩
    exact ⟨List.forall_mem_cons.mpr ⟨hp, hl.pos⟩, List.pairwise_cons.mpr ⟨hb, hl.pairwise⟩⟩

/-- The total length of a sorted list fits between its ends. -/
theorem Sorted.total_le {l : List Span} (h : Sorted l) {lo hi : ℕ} (hlo : ∀ s ∈ l, lo ≤ s.base)
    (hhi : ∀ s ∈ l, s.stop ≤ hi) (hle : lo ≤ hi) : lo + total l ≤ hi := by
  induction l generalizing lo with
  | nil => simpa using hle
  | cons s l ih =>
    obtain ⟨-, hb, hl⟩ := sorted_cons.mp h
    have h1 := hlo s List.mem_cons_self
    have h2 := hhi s List.mem_cons_self
    have := ih hl hb (fun t ht => hhi t (List.mem_cons_of_mem _ ht)) h2
    simp only [total_cons, stop] at this ⊢
    omega

/-! ## Filling the gaps -/

/-- Insert the parts of `[lo, hi)` that the list does not cover. -/
def fill (lo hi : ℕ) : List Span → List Span
  | [] => if lo < hi then [⟨lo, hi - lo⟩] else []
  | s :: l =>
    if hi ≤ s.base then (if lo < hi then ⟨lo, hi - lo⟩ :: s :: l else s :: l)
    else if s.stop ≤ lo then s :: fill lo hi l
    else if lo < s.base then ⟨lo, s.base - lo⟩ :: s :: fill (min s.stop hi) hi l
    else s :: fill (min s.stop hi) hi l

theorem covers_fill (lo hi : ℕ) (l : List Span) (x : ℕ) :
    Covers (fill lo hi l) x ↔ Covers l x ∨ (lo ≤ x ∧ x < hi) := by
  induction l generalizing lo with
  | nil =>
    rw [fill]
    split_ifs with h
    · simp only [covers_cons, covers_nil, or_false, false_or, mem_def, stop]; omega
    · simp only [covers_nil, false_or, false_iff]; omega
  | cons s l ih =>
    rw [fill]
    by_cases hc : Covers l x
    · split_ifs <;> simp [ih, hc]
    · split_ifs with h1 h2 h3 h4 <;>
        simp only [covers_cons, ih, hc, or_false, false_or, mem_def, stop] at * <;> omega

/-- A span of the result is an old one or a non-empty part of `[lo, hi)`. -/
theorem mem_fill {lo hi : ℕ} {l : List Span} {b : Span} (hb : b ∈ fill lo hi l) :
    b ∈ l ∨ (lo ≤ b.base ∧ b.stop ≤ hi ∧ 0 < b.size) := by
  induction l generalizing lo with
  | nil =>
    rw [fill] at hb
    split_ifs at hb with h
    · rw [List.mem_singleton] at hb
      subst hb; right; simp only [stop]; omega
    · simp at hb
  | cons s l ih =>
    rw [fill] at hb
    split_ifs at hb with h1 h2 h3 h4
    · rcases List.mem_cons.mp hb with rfl | hb
      · right; simp only [stop]; omega
      · exact Or.inl hb
    · exact Or.inl hb
    · rcases List.mem_cons.mp hb with rfl | hb
      · exact Or.inl List.mem_cons_self
      · rcases ih hb with hb | hb
        · exact Or.inl (List.mem_cons_of_mem _ hb)
        · exact Or.inr hb
    · rcases List.mem_cons.mp hb with rfl | hb
      · right; simp only [stop] at *; omega
      · rcases List.mem_cons.mp hb with rfl | hb
        · exact Or.inl List.mem_cons_self
        · rcases ih hb with hb | hb
          · exact Or.inl (List.mem_cons_of_mem _ hb)
          · right; simp only [stop] at *; omega
    · rcases List.mem_cons.mp hb with rfl | hb
      · exact Or.inl List.mem_cons_self
      · rcases ih hb with hb | hb
        · exact Or.inl (List.mem_cons_of_mem _ hb)
        · right; simp only [stop] at *; omega

theorem fill_sorted {lo hi : ℕ} {l : List Span} (h : Sorted l) : Sorted (fill lo hi l) := by
  induction l generalizing lo with
  | nil =>
    rw [fill]
    split_ifs with hlt
    · refine sorted_cons.mpr ⟨?_, by simp, ⟨by simp, List.Pairwise.nil⟩⟩
      simp only; omega
    · exact ⟨by simp, List.Pairwise.nil⟩
  | cons s l ih =>
    obtain ⟨hs, hb, hl⟩ := sorted_cons.mp h
    -- what comes after `s` in the result starts at or after its end
    have hafter : ∀ m, s.stop ≤ m ∨ hi ≤ m → ∀ b ∈ fill m hi l, s.stop ≤ b.base := by
      intro m hm b hbm
      rcases mem_fill hbm with hbm | hbm
      · exact hb b hbm
      · simp only [stop] at *; omega
    rw [fill]
    split_ifs with h1 h2 h3 h4
    · refine sorted_cons.mpr ⟨by simp only; omega, ?_, h⟩
      intro b hbm
      rcases List.mem_cons.mp hbm with rfl | hbm
      · simp only [stop]; omega
      · have := hb b hbm; simp only [stop] at *; omega
    · exact h
    · exact sorted_cons.mpr ⟨hs, hafter lo (Or.inl h3), ih hl⟩
    · have hrest : Sorted (s :: fill (min s.stop hi) hi l) :=
        sorted_cons.mpr ⟨hs, hafter _ (by omega), ih hl⟩
      refine sorted_cons.mpr ⟨by simp only; omega, ?_, hrest⟩
      intro b hbm
      rcases List.mem_cons.mp hbm with rfl | hbm
      · simp only [stop]; omega
      · have := hafter _ (by omega) b hbm; simp only [stop] at *; omega
    · exact sorted_cons.mpr ⟨hs, hafter _ (by omega), ih hl⟩

/-- At most one new span per old one, and one at the end. -/
theorem length_fill_le (lo hi : ℕ) (l : List Span) : (fill lo hi l).length ≤ 2 * l.length + 1 := by
  induction l generalizing lo with
  | nil => rw [fill]; split_ifs <;> simp
  | cons s l ih =>
    have h1 := ih lo
    have h2 := ih (min s.stop hi)
    rw [fill]
    split_ifs <;> simp only [List.length_cons] <;> omega

theorem length_le_fill (lo hi : ℕ) (l : List Span) : l.length ≤ (fill lo hi l).length := by
  induction l generalizing lo with
  | nil => simp
  | cons s l ih =>
    have h1 := ih lo
    have h2 := ih (min s.stop hi)
    rw [fill]
    split_ifs <;> simp only [List.length_cons] <;> omega

/-- If nothing was inserted, nothing changed. -/
theorem fill_eq_self {lo hi : ℕ} {l : List Span} (h : (fill lo hi l).length = l.length) :
    fill lo hi l = l := by
  induction l generalizing lo with
  | nil => exact List.eq_nil_of_length_eq_zero h
  | cons s l ih =>
    have h2 := length_le_fill (min s.stop hi) hi l
    rw [fill] at h ⊢
    split_ifs at h ⊢ with h1 h2 h3 h4
    · simp at h
    · rfl
    · rw [ih (by simpa using h)]
    · simp only [List.length_cons] at h; omega
    · rw [ih (by simpa using h)]

/-! ## Joining neighbours -/

/-- `s :: l` with touching neighbours joined. -/
def coalesce (s : Span) : List Span → List Span
  | [] => [s]
  | t :: l => if s.stop ≠ t.base then s :: coalesce t l else coalesce ⟨s.base, s.size + t.size⟩ l

theorem covers_coalesce (s : Span) (l : List Span) (x : ℕ) :
    Covers (coalesce s l) x ↔ Covers (s :: l) x := by
  induction l generalizing s with
  | nil => rfl
  | cons t l ih =>
    rw [coalesce]
    split_ifs with h
    · rw [covers_cons, ih, covers_cons s]
    · rw [ih]
      by_cases hc : Covers l x
      · simp [hc]
      · simp only [covers_cons, hc, or_false, mem_def, stop] at *
        omega

theorem total_coalesce (s : Span) (l : List Span) : total (coalesce s l) = total (s :: l) := by
  induction l generalizing s with
  | nil => rfl
  | cons t l ih =>
    rw [coalesce]
    split_ifs with h
    · rw [total_cons, ih]; rfl
    · rw [ih]; simp only [total_cons]; omega

/-- `coalesce s l` starts at `s.base`. -/
theorem base_le_of_mem_coalesce {s : Span} {l : List Span} (h : Sorted (s :: l)) {b : Span}
    (hb : b ∈ coalesce s l) : s.base ≤ b.base := by
  induction l generalizing s with
  | nil => rw [coalesce, List.mem_singleton] at hb; rw [hb]
  | cons t l ih =>
    obtain ⟨hs, hbs, hl⟩ := sorted_cons.mp h
    have hst := hbs t List.mem_cons_self
    rw [coalesce] at hb
    split_ifs at hb with hne
    · rcases List.mem_cons.mp hb with rfl | hb
      · exact le_rfl
      · have := ih hl hb; simp only [stop] at *; omega
    · obtain ⟨ht, hbt, hl'⟩ := sorted_cons.mp hl
      refine ih (s := ⟨s.base, s.size + t.size⟩) (sorted_cons.mpr ⟨by simp only; omega, ?_, hl'⟩) hb
      intro c hc
      have := hbt c hc
      simp only [stop] at *; omega

theorem coalesce_normal {s : Span} {l : List Span} (h : Sorted (s :: l)) :
    Normal (coalesce s l) := by
  induction l generalizing s with
  | nil => exact ⟨by simpa [coalesce] using (sorted_cons.mp h).1, by simp [coalesce]⟩
  | cons t l ih =>
    obtain ⟨hs, hbs, hl⟩ := sorted_cons.mp h
    have hst := hbs t List.mem_cons_self
    rw [coalesce]
    split_ifs with hne
    · have hn := ih hl
      refine ⟨?_, List.pairwise_cons.mpr ⟨?_, hn.pairwise⟩⟩
      · intro b hb
        rcases List.mem_cons.mp hb with rfl | hb
        · exact hs
        · exact hn.pos b hb
      · intro b hb
        have := base_le_of_mem_coalesce hl hb
        omega
    · obtain ⟨ht, hbt, hl'⟩ := sorted_cons.mp hl
      refine ih (s := ⟨s.base, s.size + t.size⟩) (sorted_cons.mpr ⟨by simp only; omega, ?_, hl'⟩)
      intro c hc
      have := hbt c hc
      simp only [stop] at *; omega

theorem length_coalesce_le (s : Span) (l : List Span) :
    (coalesce s l).length ≤ l.length + 1 ∧ 0 < (coalesce s l).length := by
  induction l generalizing s with
  | nil => simp [coalesce]
  | cons t l ih =>
    rw [coalesce]
    split_ifs with h
    · have := ih t; simp only [List.length_cons]; omega
    · have := ih ⟨s.base, s.size + t.size⟩; simp only [List.length_cons]; omega

end Span

end RaspiKernel.Lib
