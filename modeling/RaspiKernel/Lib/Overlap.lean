import RaspiKernel.Lib.Span

/-!
# Overlaps of two lists of intervals

A half-open interval is a pair of its ends. `gaps` are the intervals around the
spans of a sorted list, and `overlap` walks two ascending lists side by side and
gives the parts they have in common. A gap may be empty or turned around, where a
list starts at the lower bound or goes on behind the upper one.

Results:
* `mem_gaps_iff`: the gaps hold what the list does not cover.
* `mem_overlap_iff`: the overlaps hold what both lists hold.
* `overlap_ascending`, `overlap_nonempty`: the overlaps are non-empty, and something
  lies between any two of them.
* `exists_of_run`: a run of points of such a list lies in one interval.
-/

open RaspiKernel.Lib.Span

namespace RaspiKernel.Lib.Interval

/-- Some interval of the list holds `x`. -/
def Holds (l : List (ℕ × ℕ)) (x : ℕ) : Prop := ∃ p ∈ l, p.1 ≤ x ∧ x < p.2

@[simp] theorem holds_nil (x : ℕ) : ¬ Holds [] x := by simp [Holds]

@[simp] theorem holds_cons (p : ℕ × ℕ) (l : List (ℕ × ℕ)) (x : ℕ) :
    Holds (p :: l) x ↔ (p.1 ≤ x ∧ x < p.2) ∨ Holds l x := by simp [Holds]

/-- The intervals are in increasing order, with something between any two of which the first does not
    end at 0. -/
def Ascending (l : List (ℕ × ℕ)) : Prop :=
  l.Pairwise fun p q => p.1 ≤ q.1 ∧ (p.2 = 0 ∨ p.2 < q.1)

theorem ascending_cons {p : ℕ × ℕ} {l : List (ℕ × ℕ)} :
    Ascending (p :: l) ↔ (∀ q ∈ l, p.1 ≤ q.1 ∧ (p.2 = 0 ∨ p.2 < q.1)) ∧ Ascending l :=
  List.pairwise_cons

/-- What a later interval holds is behind the first one. -/
theorem Ascending.later {p : ℕ × ℕ} {l : List (ℕ × ℕ)} (h : Ascending (p :: l)) {x : ℕ}
    (hx : Holds l x) : p.1 ≤ x ∧ p.2 ≤ x := by
  obtain ⟨q, hq, h1, -⟩ := hx
  have := (ascending_cons.mp h).1 q hq
  omega

/-- The ends of the spans. -/
def ends (l : List Span) : List (ℕ × ℕ) := l.map fun s => (s.base, s.stop)

theorem holds_ends {l : List Span} {x : ℕ} : Holds (ends l) x ↔ Covers l x := by
  simp [Holds, ends, Covers, mem_def]

theorem ends_ascending {l : List Span} (h : Normal l) : Ascending (ends l) := by
  refine List.pairwise_map.mpr (h.pairwise.imp fun {a b} hab => ⟨?_, Or.inr hab⟩)
  unfold stop at hab
  dsimp only
  omega

/-! ## Gaps -/

/-- What lies between `lo` and `hi` around the spans. -/
def gaps (lo hi : ℕ) : List Span → List (ℕ × ℕ)
  | [] => [(lo, hi)]
  | s :: l => (lo, s.base) :: gaps s.stop hi l

theorem length_gaps (lo hi : ℕ) (l : List Span) : (gaps lo hi l).length = l.length + 1 := by
  induction l generalizing lo with
  | nil => rfl
  | cons s l ih => rw [gaps, List.length_cons, ih, List.length_cons]

/-- A gap starts behind a span or at `lo`, and ends before a span or at `hi`. -/
theorem getElem?_gaps (lo hi : ℕ) (l : List Span) {i : ℕ} (hi' : i ≤ l.length) :
    (gaps lo hi l)[i]? = some (
      if h : i = 0 then lo else (l.get ⟨i - 1, by omega⟩).stop,
      if h : i < l.length then (l.get ⟨i, h⟩).base else hi) := by
  induction l generalizing lo i with
  | nil =>
    obtain rfl : i = 0 := by simpa using hi'
    simp [gaps]
  | cons s l ih =>
    cases i with
    | zero => simp [gaps]
    | succ i =>
      rw [List.length_cons] at hi'
      rw [gaps, List.getElem?_cons_succ, ih _ (by omega)]
      cases i with
      | zero => simp
      | succ i => simp

/-- The gaps before `hi` hold what the list does not cover. -/
theorem mem_gaps_iff {l : List Span} (h : Sorted l) {lo hi x : ℕ} (hlo : ∀ s ∈ l, lo ≤ s.base)
    (hx : x < hi) : Holds (gaps lo hi l) x ↔ lo ≤ x ∧ ¬ Covers l x := by
  induction l generalizing lo with
  | nil => simp [gaps, hx]
  | cons s l ih =>
    obtain ⟨-, hafter, hl⟩ := sorted_cons.mp h
    have hs := hlo s List.mem_cons_self
    have hle : s.base ≤ s.stop := Nat.le_add_right _ _
    -- the later spans start behind this one
    have hlater : Covers l x → s.stop ≤ x := by
      rintro ⟨t, ht, htx⟩
      exact (hafter t ht).trans htx.1
    rw [gaps, holds_cons, ih hl hafter, covers_cons, mem_def]
    by_cases hc : Covers l x
    · have := hlater hc
      simp only [hc, not_true_eq_false, and_false, or_true, or_false, iff_false]
      omega
    · simp only [hc, not_false_eq_true, and_true, or_false]
      omega

theorem le_of_mem_gaps {l : List Span} (h : Sorted l) {lo hi : ℕ} (hlo : ∀ s ∈ l, lo ≤ s.base)
    {p : ℕ × ℕ} (hp : p ∈ gaps lo hi l) : lo ≤ p.1 := by
  induction l generalizing lo with
  | nil => rw [List.mem_singleton.mp hp]
  | cons s l ih =>
    obtain ⟨-, hafter, hl⟩ := sorted_cons.mp h
    rcases List.mem_cons.mp hp with rfl | hp
    · exact le_rfl
    · have h1 := hlo s List.mem_cons_self
      have h2 := ih hl hafter hp
      have h3 : s.base ≤ s.stop := Nat.le_add_right _ _
      exact (h1.trans h3).trans h2

/-- Only the last gap can be empty or turned around. -/
theorem nonempty_of_mem_gaps {l : List Span} (h : Normal l) {lo hi : ℕ} (hlo : ∀ s ∈ l, lo < s.base)
    {p : ℕ × ℕ} (hp : p ∈ gaps lo hi l) : p.1 < p.2 ∨ p.2 = hi := by
  induction l generalizing lo with
  | nil => exact Or.inr (by rw [List.mem_singleton.mp hp])
  | cons s l ih =>
    rcases List.mem_cons.mp hp with rfl | hp
    · exact Or.inl (hlo s List.mem_cons_self)
    · obtain ⟨-, hafter, hl⟩ := normal_cons.mp h
      exact ih hl hafter hp

theorem gaps_ascending {l : List Span} (h : Normal l) {lo hi : ℕ} (hlo : ∀ s ∈ l, lo ≤ s.base) :
    Ascending (gaps lo hi l) := by
  induction l generalizing lo with
  | nil => exact List.pairwise_singleton _ _
  | cons s l ih =>
    obtain ⟨hpos, hafter, hl⟩ := normal_cons.mp h
    have hs := hlo s List.mem_cons_self
    have hlt : s.base < s.stop := Nat.lt_add_of_pos_right hpos
    have hafter' : ∀ t ∈ l, s.stop ≤ t.base := fun t ht => (hafter t ht).le
    refine ascending_cons.mpr ⟨fun q hq => ?_, ih hl hafter'⟩
    have := le_of_mem_gaps hl.sorted hafter' hq
    exact ⟨by omega, Or.inr (by omega)⟩

/-! ## Overlaps -/

/-- The common parts of two ascending lists. Whichever interval ends first is left behind. -/
def overlap : List (ℕ × ℕ) → List (ℕ × ℕ) → List (ℕ × ℕ)
  | [], _ => []
  | _ :: _, [] => []
  | a :: l, b :: m =>
    if a.2 ≤ b.1 then overlap l (b :: m)
    else if a.1 < b.2 then
      (max a.1 b.1, min a.2 b.2) ::
        (if a.2 ≤ b.2 then overlap l (b :: m) else overlap (a :: l) m)
    else overlap (a :: l) m
termination_by l m => l.length + m.length

@[simp] theorem overlap_nil_right (l : List (ℕ × ℕ)) : overlap l [] = [] := by
  cases l <;> simp [overlap]

@[simp] theorem overlap_nil_left (m : List (ℕ × ℕ)) : overlap [] m = [] := by simp [overlap]

variable {l m : List (ℕ × ℕ)} {x : ℕ}

/-- The rule of induction for two lists of which one loses its head at a time. -/
theorem overlap_induct {P : List (ℕ × ℕ) → List (ℕ × ℕ) → Prop} (hl : ∀ m, P [] m) (hm : ∀ l, P l [])
    (hcons : ∀ a l b m, P l (b :: m) → P (a :: l) m → P (a :: l) (b :: m)) (l m : List (ℕ × ℕ)) :
    P l m := by
  induction l generalizing m with
  | nil => exact hl m
  | cons a l ihl =>
    induction m with
    | nil => exact hm _
    | cons b m ihm => exact hcons a l b m (ihl (b :: m)) ihm

/-- An overlap is the common part of two intervals that meet. -/
theorem mem_overlap {p : ℕ × ℕ} (hp : p ∈ overlap l m) :
    ∃ a ∈ l, ∃ b ∈ m, b.1 < a.2 ∧ a.1 < b.2 ∧ p = (max a.1 b.1, min a.2 b.2) := by
  induction l, m using overlap_induct with
  | hl m => simp at hp
  | hm l => simp at hp
  | hcons a l b m ihl ihm =>
    have hleft : p ∈ overlap l (b :: m) → ∃ a' ∈ a :: l, ∃ b' ∈ b :: m,
        b'.1 < a'.2 ∧ a'.1 < b'.2 ∧ p = (max a'.1 b'.1, min a'.2 b'.2) := by
      intro h
      obtain ⟨a', ha', rest⟩ := ihl h
      exact ⟨a', List.mem_cons_of_mem _ ha', rest⟩
    have hright : p ∈ overlap (a :: l) m → ∃ a' ∈ a :: l, ∃ b' ∈ b :: m,
        b'.1 < a'.2 ∧ a'.1 < b'.2 ∧ p = (max a'.1 b'.1, min a'.2 b'.2) := by
      intro h
      obtain ⟨a', ha', b', hb', rest⟩ := ihm h
      exact ⟨a', ha', b', List.mem_cons_of_mem _ hb', rest⟩
    rw [overlap] at hp
    split_ifs at hp with h1 h2 h3
    · exact hleft hp
    · rcases List.mem_cons.mp hp with rfl | hp
      · exact ⟨a, List.mem_cons_self, b, List.mem_cons_self, by omega, h2, rfl⟩
      · exact hleft hp
    · rcases List.mem_cons.mp hp with rfl | hp
      · exact ⟨a, List.mem_cons_self, b, List.mem_cons_self, by omega, h2, rfl⟩
      · exact hright hp
    · exact hright hp

theorem mem_overlap_iff (hl : Ascending l) (hm : Ascending m) :
    Holds (overlap l m) x ↔ Holds l x ∧ Holds m x := by
  induction l, m using overlap_induct with
  | hl m => simp
  | hm l => simp
  | hcons a l b m ihl ihm =>
    have hl' := (ascending_cons.mp hl).2
    have hm' := (ascending_cons.mp hm).2
    have hmeet : max a.1 b.1 ≤ x ∧ x < min a.2 b.2 ↔
        (a.1 ≤ x ∧ x < a.2) ∧ (b.1 ≤ x ∧ x < b.2) := by omega
    rw [overlap]
    split_ifs with h1 h2 h3
    · -- `a` ends before everything that is left of `m`
      have hno : Holds (b :: m) x → ¬ (a.1 ≤ x ∧ x < a.2) := by
        rw [holds_cons]
        rintro (hx | hx)
        · omega
        · have := hm.later hx
          omega
      rw [ihl hl' hm, holds_cons a]
      exact and_congr_left fun hx => (or_iff_right (hno hx)).symm
    · -- `a` ends first, so the later parts of `m` do not meet it
      have hno : Holds m x → ¬ (a.1 ≤ x ∧ x < a.2) := by
        intro hx
        have := hm.later hx
        omega
      rw [holds_cons, hmeet, ihl hl' hm, holds_cons, holds_cons]
      constructor
      · rintro (⟨hx, hy⟩ | ⟨hx, hy⟩)
        · exact ⟨Or.inl hx, Or.inl hy⟩
        · exact ⟨Or.inr hx, hy⟩
      · rintro ⟨hx | hx, hy⟩
        · exact Or.inl ⟨hx, hy.resolve_right fun hy => hno hy hx⟩
        · exact Or.inr ⟨hx, hy⟩
    · have hno : Holds l x → ¬ (b.1 ≤ x ∧ x < b.2) := by
        intro hx
        have := hl.later hx
        omega
      rw [holds_cons, hmeet, ihm hl hm', holds_cons, holds_cons]
      constructor
      · rintro (⟨hx, hy⟩ | ⟨hx, hy⟩)
        · exact ⟨Or.inl hx, Or.inl hy⟩
        · exact ⟨hx, Or.inr hy⟩
      · rintro ⟨hx, hy | hy⟩
        · exact Or.inl ⟨hx.resolve_right fun hx => hno hx hy, hy⟩
        · exact Or.inr ⟨hx, hy⟩
    · have hno : Holds (a :: l) x → ¬ (b.1 ≤ x ∧ x < b.2) := by
        rw [holds_cons]
        rintro (hx | hx)
        · omega
        · have := hl.later hx
          omega
      rw [ihm hl hm', holds_cons b]
      exact and_congr_right fun hx => (or_iff_right (hno hx)).symm

/-- The overlaps are not empty if no empty interval meets one of the other list. -/
theorem overlap_nonempty
    (h : ∀ a ∈ l, ∀ b ∈ m, b.1 < a.2 → a.1 < b.2 → a.1 < a.2 ∧ b.1 < b.2) {p : ℕ × ℕ}
    (hp : p ∈ overlap l m) : p.1 < p.2 := by
  obtain ⟨a, ha, b, hb, h1, h2, rfl⟩ := mem_overlap hp
  obtain ⟨h3, h4⟩ := h a ha b hb h1 h2
  exact max_lt (lt_min h3 h2) (lt_min h1 h4)

theorem overlap_ascending (hl : Ascending l) (hm : Ascending m) :
    (overlap l m).Pairwise fun p q => p.2 < q.1 := by
  induction l, m using overlap_induct with
  | hl m => simp
  | hm l => simp
  | hcons a l b m ihl ihm =>
    obtain ⟨ha, hl'⟩ := ascending_cons.mp hl
    obtain ⟨hb, hm'⟩ := ascending_cons.mp hm
    rw [overlap]
    split_ifs with h1 h2 h3
    · exact ihl hl' hm
    · refine List.pairwise_cons.mpr ⟨fun q hq => ?_, ihl hl' hm⟩
      obtain ⟨a', ha', b', -, -, -, rfl⟩ := mem_overlap hq
      have := ha a' ha'
      dsimp only
      omega
    · refine List.pairwise_cons.mpr ⟨fun q hq => ?_, ihm hl hm'⟩
      obtain ⟨a', -, b', hb', -, -, rfl⟩ := mem_overlap hq
      have := hb b' hb'
      dsimp only
      omega
    · exact ihm hl hm'

/-! ## Runs of points -/

/-- A run of points that the intervals hold lies in one of them, if something lies between any two. -/
theorem exists_of_run (h : l.Pairwise fun p q => p.2 < q.1) {lo size : ℕ} (hsize : 0 < size)
    (hrun : ∀ x, lo ≤ x → x < lo + size → Holds l x) : ∃ p ∈ l, p.1 ≤ lo ∧ lo + size ≤ p.2 := by
  obtain ⟨p, hp, h1, h2⟩ := hrun lo le_rfl (by omega)
  refine ⟨p, hp, h1, ?_⟩
  by_contra hlt
  obtain ⟨q, hq, h3, h4⟩ := hrun p.2 (by omega) (by omega)
  obtain ⟨i, hi, rfl⟩ := List.mem_iff_getElem.mp hp
  obtain ⟨j, hj, rfl⟩ := List.mem_iff_getElem.mp hq
  have hpair := List.pairwise_iff_getElem.mp h
  rcases lt_trichotomy i j with hij | rfl | hij
  · have := hpair i j hi hj hij
    omega
  · omega
  · have := hpair j i hj hi hij
    omega

end RaspiKernel.Lib.Interval
