import RaspiKernel.Memblock.FreeRange

/-!
# memblock: the search for a free range

`__next_mem_range` leaves its index as it is when no range is left, and the loop
of `memblock_find_in_range` only ends at the index `ULLONG_MAX`. So the search
comes back from a range that can hold the request or not at all. When there is
no free range to begin with it tries the uninitialised `this_start` and
`this_end`.

Results:
* `align_spec`, `align_wrap`: `ALIGN` for any power of two.
* `findInRange_eq`: the search as a walk over the ranges it sees.
* `findInRange_iff`: when the search is complete.
* `physAllocRange_contract`: when the allocation keeps its contract, and runs of
  allocations.
-/

namespace RaspiKernel.Memblock

open Lib Lib.Span Lib.Interval

/-! ## Alignment -/

theorem align_eq (x : ℕ) {k : ℕ} (hk : k < 64) :
    align x (2 ^ k) = (x + 2 ^ k - 1) % 2 ^ 64 / 2 ^ k * 2 ^ k := by
  unfold align u64
  rw [and_high_mask (Nat.mod_lt _ (by norm_num)) hk.le]

/-- `ALIGN` gives the least multiple from `x` on. -/
theorem align_spec {x k : ℕ} (hk : k < 64) (h : x + 2 ^ k ≤ 2 ^ 64) :
    2 ^ k ∣ align x (2 ^ k) ∧ x ≤ align x (2 ^ k) ∧
      ∀ q, 2 ^ k ∣ q → x ≤ q → align x (2 ^ k) ≤ q := by
  have hpos : 0 < 2 ^ k := Nat.two_pow_pos k
  rw [align_eq x hk, Nat.mod_eq_of_lt (by omega)]
  refine ⟨Nat.dvd_mul_left _ _, ?_, ?_⟩
  · have := Nat.lt_div_mul_add hpos (a := x + 2 ^ k - 1)
    omega
  · rintro q ⟨m, rfl⟩ hq
    rw [mul_comm (2 ^ k) m]
    refine Nat.mul_le_mul_right _ (Nat.le_of_lt_succ ((Nat.div_lt_iff_lt_mul hpos).mpr ?_))
    rw [Nat.succ_mul, mul_comm m]
    omega

/-- Close to the end of the address space the addition wraps and `ALIGN` gives 0. -/
theorem align_wrap {x k : ℕ} (hk : k < 64) (hx : x < 2 ^ 64) (h : 2 ^ 64 < x + 2 ^ k) :
    align x (2 ^ k) = 0 := by
  have hle : 2 ^ k ≤ 2 ^ 63 := Nat.pow_le_pow_right (by norm_num) (by omega)
  have hmod : (x + 2 ^ k - 1) % 2 ^ 64 < 2 ^ k := by omega
  rw [align_eq x hk, Nat.div_eq_of_lt hmod, Nat.zero_mul]

/-! ## One range -/

/-- The arguments of a search: the size is not zero, the alignment is a power of two, and the bounds
    are `unsigned long` values. -/
structure Args (size algn start stop : ℕ) : Prop where
  size_pos : 0 < size
  algn_eq : ∃ k < 64, algn = 2 ^ k
  start_lt : start < 2 ^ 64
  stop_lt : stop < 2 ^ 64

/-- What one round of `memblock_find_in_range` (lines 106–110) finds in a range. -/
def probe (size algn start stop : ℕ) (r : ℕ × ℕ) : Option ℕ :=
  let cand := align (clamp r.1 start stop) algn
  if cand < clamp r.2 start stop ∧ clamp r.2 start stop - cand ≥ size then some cand else none

/-- `q` is aligned and `[q, q + size)` lies in the range, clamped to `[start, stop)`. -/
structure FitsIn (size algn start stop : ℕ) (r : ℕ × ℕ) (q : ℕ) : Prop where
  dvd : algn ∣ q
  left : r.1 ≤ q
  start_le : start ≤ q
  right : q + size ≤ r.2
  le_stop : q + size ≤ stop

variable {size algn start stop : ℕ} {r : ℕ × ℕ}

theorem clamp_clamp (x start stop : ℕ) : clamp (clamp x start stop) start stop = clamp x start stop := by
  unfold clamp
  omega

/-- The next round finds the same in the values that this one left. -/
theorem probe_clamp (size algn start stop : ℕ) (r : ℕ × ℕ) :
    probe size algn start stop (clamp r.1 start stop, clamp r.2 start stop) =
      probe size algn start stop r := by
  simp only [probe, clamp_clamp]

/-- A round finds the lowest place, if there is one. -/
theorem probe_spec (ha : Args size algn start stop) (hwrap : clamp r.1 start stop + algn ≤ 2 ^ 64) :
    match probe size algn start stop r with
    | some c => FitsIn size algn start stop r c ∧ ∀ q, FitsIn size algn start stop r q → c ≤ q
    | none => ∀ q, ¬ FitsIn size algn start stop r q := by
  obtain ⟨k, hk, rfl⟩ := ha.algn_eq
  have hsize := ha.size_pos
  obtain ⟨hdvd, hle, hleast⟩ := align_spec hk hwrap
  -- a place is aligned, and the clamped range holds it
  have hfits : ∀ q, FitsIn size (2 ^ k) start stop r q ↔
      2 ^ k ∣ q ∧ clamp r.1 start stop ≤ q ∧ q + size ≤ clamp r.2 start stop := by
    intro q
    constructor
    · rintro ⟨h1, h2, h3, h4, h5⟩
      exact ⟨h1, by unfold clamp; omega, by unfold clamp; omega⟩
    · rintro ⟨h1, h2, h3⟩
      unfold clamp at h2 h3
      exact ⟨h1, by omega, by omega, by omega, by omega⟩
  simp only [probe, hfits]
  split_ifs with hhit
  · exact ⟨⟨hdvd, hle, by omega⟩, fun q hq => hleast q hq.1 hq.2.1⟩
  · rintro q ⟨h1, h2, h3⟩
    have := hleast q h1 h2
    omega

theorem probe_eq_some_iff (ha : Args size algn start stop)
    (hwrap : clamp r.1 start stop + algn ≤ 2 ^ 64) {c : ℕ} :
    probe size algn start stop r = some c ↔
      FitsIn size algn start stop r c ∧ ∀ q, FitsIn size algn start stop r q → c ≤ q := by
  have h := probe_spec ha hwrap
  cases hp : probe size algn start stop r with
  | none =>
    rw [hp] at h
    constructor
    · intro hcon
      cases hcon
    · rintro ⟨hc, -⟩
      exact absurd hc (h c)
  | some d =>
    rw [hp] at h
    rw [Option.some.injEq]
    constructor
    · rintro rfl
      exact h
    · rintro ⟨hc, hle⟩
      exact le_antisymm (h.2 c hc) (hle d h.1)

/-- Where `ALIGN` wraps, a round finds address 0. -/
theorem probe_wrap (ha : Args size algn start stop) (hwrap : 2 ^ 64 < clamp r.1 start stop + algn) :
    probe size algn start stop r = if size ≤ clamp r.2 start stop then some 0 else none := by
  obtain ⟨k, hk, rfl⟩ := ha.algn_eq
  have hsize := ha.size_pos
  have hstop := ha.stop_lt
  have hlt : clamp r.1 start stop < 2 ^ 64 := by unfold clamp; omega
  simp only [probe, align_wrap hk hlt hwrap]
  refine if_congr ?_ rfl rfl
  omega

/-! ## The search -/

/-- The ranges that the search sees: the free ranges, or what is on the stack if there are none. -/
def State.seen (mb : State) (stack : ℕ × ℕ) : List (ℕ × ℕ) :=
  if mb.freeRanges = [] then [stack] else mb.freeRanges

/-- One round, when the index is not `ULLONG_MAX`. -/
theorem findLoop_succ {mb : State} (fuel : ℕ) {it : RangeIter} (hne : it.idx ≠ 2 ^ 64 - 1) :
    findLoop mb size algn start stop (fuel + 1) it =
      match probe size algn start stop (it.outStart, it.outEnd) with
      | some c => .ok c
      | none => findLoop mb size algn start stop fuel
          (nextMemRange mb.memory mb.reserved mb.physAddrMax ⟨it.idx, clamp it.outStart start stop,
            clamp it.outEnd start stop⟩) := by
  simp only [findLoop, if_neg hne, probe]
  split_ifs <;> rfl

/-- The loop goes on for good when neither the values at hand nor the ranges that are left can hold
    the request. -/
theorem findLoop_none {mb : State} (h : Normalised mb) {idxA idxB : ℕ} (hA : idxA ≤ mb.memory.cnt)
    (hB : idxB ≤ mb.reserved.cnt + 1) {it : RangeIter} (hidx : it.idx = rangeIdx idxA idxB)
    (hit : probe size algn start stop (it.outStart, it.outEnd) = none)
    (hrest : ∀ r ∈ mb.freeFrom idxA idxB, probe size algn start stop r = none) (fuel : ℕ) :
    findLoop mb size algn start stop fuel it = .error .searching := by
  induction fuel generalizing idxA idxB it with
  | zero => rfl
  | succ fuel ih =>
    have hcnt := h.reserved_cnt
    rw [findLoop_succ fuel (hidx ▸ rangeIdx_ne (by omega)), hit]
    dsimp only
    rcases nextMemRange_spec h hA hB ⟨it.idx, clamp it.outStart start stop,
      clamp it.outEnd start stop⟩ hidx with ⟨hnil, heq⟩ | ⟨p, a, b, hp, ha', hb', -, heq⟩
    · -- the same index and the same values again
      rw [heq]
      exact ih hA hB hidx ((probe_clamp size algn start stop (it.outStart, it.outEnd)).trans hit)
        hrest
    · rw [heq]
      rw [hp] at hrest
      exact ih ha' hb' rfl (hrest p List.mem_cons_self)
        fun r hr => hrest r (List.mem_cons_of_mem _ hr)

/-- The loop ends at the first range that can hold the request. -/
theorem findLoop_some {mb : State} (h : Normalised mb) {c : ℕ} {idxA idxB : ℕ}
    (hA : idxA ≤ mb.memory.cnt) (hB : idxB ≤ mb.reserved.cnt + 1) {it : RangeIter}
    (hidx : it.idx = rangeIdx idxA idxB)
    (hfind : ((it.outStart, it.outEnd) :: mb.freeFrom idxA idxB).findSome?
      (probe size algn start stop) = some c) :
    ∃ n, ∀ fuel, findLoop mb size algn start stop fuel it =
      if n ≤ fuel then .ok c else .error .searching := by
  have hcnt := h.reserved_cnt
  induction hl : mb.freeFrom idxA idxB generalizing idxA idxB it with
  | nil =>
    rw [hl, List.findSome?_singleton] at hfind
    refine ⟨1, fun fuel => ?_⟩
    cases fuel with
    | zero => rfl
    | succ fuel => rw [findLoop_succ fuel (hidx ▸ rangeIdx_ne (by omega)), hfind, if_pos (by omega)]
  | cons p l ih =>
    rw [List.findSome?_cons] at hfind
    cases hp : probe size algn start stop (it.outStart, it.outEnd) with
    | some d =>
      rw [hp] at hfind
      obtain rfl := Option.some.inj hfind
      refine ⟨1, fun fuel => ?_⟩
      cases fuel with
      | zero => rfl
      | succ fuel => rw [findLoop_succ fuel (hidx ▸ rangeIdx_ne (by omega)), hp, if_pos (by omega)]
    | none =>
      rw [hp] at hfind
      dsimp only at hfind
      rcases nextMemRange_spec h hA hB ⟨it.idx, clamp it.outStart start stop,
        clamp it.outEnd start stop⟩ hidx with ⟨hnil, -⟩ | ⟨q, a, b, hq, ha', hb', -, heq⟩
      · rw [hl] at hnil
        cases hnil
      · rw [hq] at hl hfind
        obtain ⟨rfl, rfl⟩ := List.cons.inj hl
        have hidx' : (⟨rangeIdx a b, q.1, q.2⟩ : RangeIter).idx = rangeIdx a b := rfl
        obtain ⟨n, hn⟩ := ih ha' hb' hidx' hfind rfl
        refine ⟨n + 1, fun fuel => ?_⟩
        cases fuel with
        | zero => rfl
        | succ fuel =>
          rw [findLoop_succ fuel (hidx ▸ rangeIdx_ne (by omega)), hp]
          dsimp only
          rw [heq, hn fuel]
          simp only [Nat.add_le_add_iff_right]

/-- `memblock_find_in_range` returns what the first range it sees that can hold the request gives, and
    does not come back if there is none. -/
theorem findInRange_eq {mb : State} (h : Normalised mb) (stack : ℕ × ℕ)
    (size algn start stop : ℕ) :
    match (mb.seen stack).findSome? (probe size algn start stop) with
    | some c => ∃ n, ∀ fuel, findInRange fuel stack mb size algn start stop =
        if n ≤ fuel then .ok c else .error .searching
    | none => ∀ fuel, findInRange fuel stack mb size algn start stop = .error .searching := by
  have hcases := nextMemRange_spec h (Nat.zero_le _) (Nat.zero_le _)
    ⟨0, stack.1, stack.2⟩ (by simp [rangeIdx])
  -- the first call gives the first range, or leaves what is on the stack
  obtain ⟨it, a, b, ha, hb, hidx, heq, hseen⟩ : ∃ it a b, a ≤ mb.memory.cnt ∧
      b ≤ mb.reserved.cnt + 1 ∧ it.idx = rangeIdx a b ∧
      nextMemRange mb.memory mb.reserved mb.physAddrMax ⟨0, stack.1, stack.2⟩ = it ∧
      mb.seen stack = (it.outStart, it.outEnd) :: mb.freeFrom a b := by
    rcases hcases with ⟨hnil, heq⟩ | ⟨p, a, b, hp, ha, hb, -, heq⟩
    · refine ⟨_, 0, 0, Nat.zero_le _, Nat.zero_le _, by simp [rangeIdx], heq, ?_⟩
      rw [State.seen, State.freeRanges, if_pos hnil, hnil]
    · refine ⟨_, a, b, ha, hb, rfl, heq, ?_⟩
      rw [State.seen, State.freeRanges, if_neg (by rw [hp]; simp), hp]
  simp only [findInRange, heq]
  cases hfind : (mb.seen stack).findSome? (probe size algn start stop) with
  | some c => exact findLoop_some h ha hb hidx (hseen ▸ hfind)
  | none =>
    rw [hseen, List.findSome?_eq_none_iff] at hfind
    exact findLoop_none h ha hb hidx (hfind _ List.mem_cons_self)
      fun r hr => hfind r (List.mem_cons_of_mem _ hr)

/-! ## Completeness -/

/-- `[p, p + size)` is aligned, free and inside `[start, stop)`. -/
structure Candidate (mb : State) (size algn start stop p : ℕ) : Prop where
  dvd : algn ∣ p
  start_le : start ≤ p
  le_stop : p + size ≤ stop
  free : ∀ x, p ≤ x → x < p + size → Covers mb.memory.list x ∧ ¬ Covers mb.reserved.list x

/-- A free range lies in one region of memory. -/
theorem memory_of_mem_freeRanges {mb : State} {r : ℕ × ℕ} (hr : r ∈ mb.freeRanges) :
    ∃ s ∈ mb.memory.list, s.base ≤ r.1 ∧ r.2 ≤ s.stop := by
  rw [State.freeRanges, State.freeFrom, List.drop_zero] at hr
  obtain ⟨a, ha, b, -, -, -, rfl⟩ := mem_overlap hr
  obtain ⟨s, hs, rfl⟩ := List.mem_map.mp ha
  exact ⟨s, hs, Nat.le_max_left _ _, Nat.min_le_left _ _⟩

theorem lt_of_mem_freeRanges {mb : State} (h : Normalised mb) {r : ℕ × ℕ} (hr : r ∈ mb.freeRanges) :
    r.1 < 2 ^ 32 ∧ r.2 < 2 ^ 32 := by
  obtain ⟨s, hs, -, hle⟩ := memory_of_mem_freeRanges hr
  have h1 := freeRanges_nonempty h hr
  have h2 := h.memory_le s hs
  have h3 := h.max_lt
  omega

/-- A candidate lies in one free range. -/
theorem candidate_iff {mb : State} (h : Normalised mb) (hsize : 0 < size) (p : ℕ) :
    Candidate mb size algn start stop p ↔
      ∃ r ∈ mb.freeRanges, FitsIn size algn start stop r p := by
  constructor
  · rintro ⟨hdvd, hstart, hstop, hfree⟩
    obtain ⟨r, hr, h1, h2⟩ := exists_of_run (freeRanges_apart h) hsize
      fun x hx hx' => (holds_freeRanges h x).mpr (hfree x hx hx')
    exact ⟨r, hr, hdvd, h1, hstart, h2, hstop⟩
  · rintro ⟨r, hr, hdvd, h1, hstart, h2, hstop⟩
    exact ⟨hdvd, hstart, hstop, fun x hx hx' =>
      (holds_freeRanges h x).mp ⟨r, hr, h1.trans hx, hx'.trans_le h2⟩⟩

/-- In a range below `2 ^ 32` the clamped start is low, or it is the lower of the two bounds. -/
theorem clamp_wrap (ha : Args size algn start stop) {x : ℕ} (hx : x < 2 ^ 32) :
    2 ^ 64 < clamp x start stop + algn ↔ 2 ^ 64 < min start stop + algn := by
  obtain ⟨k, hk, rfl⟩ := ha.algn_eq
  have hle : 2 ^ k ≤ 2 ^ 63 := Nat.pow_le_pow_right (by norm_num) (by omega)
  unfold clamp
  omega

/-- Where `ALIGN` wraps nothing can be a candidate, all memory lies far below. -/
theorem not_wrap_of_candidate {mb : State} (h : Normalised mb) (ha : Args size algn start stop) {p : ℕ}
    (hp : Candidate mb size algn start stop p) : min start stop + algn ≤ 2 ^ 64 := by
  obtain ⟨k, hk, rfl⟩ := ha.algn_eq
  have hle : 2 ^ k ≤ 2 ^ 63 := Nat.pow_le_pow_right (by norm_num) (by omega)
  obtain ⟨r, hr, hfit⟩ := (candidate_iff h ha.size_pos p).mp hp
  have h1 := (lt_of_mem_freeRanges h hr).2
  have h2 := hfit.start_le
  have h3 := hfit.right
  omega

/-- The search finds the lowest candidate. -/
theorem findSome?_freeRanges {mb : State} (h : Normalised mb) (ha : Args size algn start stop)
    (hex : ∃ p, Candidate mb size algn start stop p) :
    ∃ c, mb.freeRanges.findSome? (probe size algn start stop) = some c ∧
      IsLeast {p | Candidate mb size algn start stop p} c := by
  obtain ⟨p, hp⟩ := hex
  have hno := not_wrap_of_candidate h ha hp
  have hwrap : ∀ r ∈ mb.freeRanges, clamp r.1 start stop + algn ≤ 2 ^ 64 := fun r hr =>
    not_lt.mp fun hlt => absurd ((clamp_wrap ha (lt_of_mem_freeRanges h hr).1).mp hlt) (by omega)
  cases hfind : mb.freeRanges.findSome? (probe size algn start stop) with
  | none =>
    obtain ⟨r, hr, hfit⟩ := (candidate_iff h ha.size_pos p).mp hp
    have hspec := probe_spec ha (hwrap r hr)
    rw [List.findSome?_eq_none_iff.mp hfind r hr] at hspec
    exact absurd hfit (hspec p)
  | some c =>
    obtain ⟨l, r, m, hl, hr, hbefore⟩ := List.findSome?_eq_some_iff.mp hfind
    have hmem : r ∈ mb.freeRanges := by rw [hl]; simp
    obtain ⟨hc, hleast⟩ := (probe_eq_some_iff ha (hwrap r hmem)).mp hr
    refine ⟨c, rfl, (candidate_iff h ha.size_pos c).mpr ⟨r, hmem, hc⟩, fun q hq => ?_⟩
    obtain ⟨r', hr', hq'⟩ := (candidate_iff h ha.size_pos q).mp hq
    have hpair := freeRanges_apart h
    rw [hl] at hr' hpair
    rcases List.mem_append.mp hr' with hin | hin
    · -- the ranges before `r` hold nothing
      have hspec := probe_spec ha (hwrap r' (hl ▸ hr'))
      rw [hbefore r' hin] at hspec
      exact absurd hq' (hspec q)
    · rcases List.mem_cons.mp hin with rfl | hin
      · exact hleast q hq'
      · have hlt := (List.pairwise_cons.mp (List.pairwise_append.mp hpair).2.1).1 r' hin
        have h1 := hc.right
        have h2 := hq'.left
        omega

/-- The search ends with the lowest candidate, or with 0 if there is none. -/
def Complete (mb : State) (size algn start stop : ℕ) : Prop :=
  ∀ stack, ∃ fuel ret, findInRange fuel stack mb size algn start stop = .ok ret ∧
    (IsLeast {p | Candidate mb size algn start stop p} ret ∨
      (ret = 0 ∧ ∀ p, ¬ Candidate mb size algn start stop p))

/-- Without a candidate no range that the search sees gives anything, unless `ALIGN` wraps at the lower
    bound and the request fits below it. -/
theorem findInRange_searching {mb : State} (h : Normalised mb) (ha : Args size algn start stop)
    (hno : ∀ p, ¬ Candidate mb size algn start stop p)
    (hwrap : 2 ^ 64 < min start stop + algn → min start stop < size) (fuel : ℕ) :
    findInRange fuel (0, 0) mb size algn start stop = .error .searching := by
  have hseen : ∀ r ∈ mb.seen (0, 0), r.1 < 2 ^ 32 ∧ r.2 < 2 ^ 32 ∧
      ∀ q, ¬ FitsIn size algn start stop r q := by
    intro r hr
    unfold State.seen at hr
    split_ifs at hr with hnil
    · rw [List.mem_singleton.mp hr]
      refine ⟨by norm_num, by norm_num, fun q hq => ?_⟩
      have := hq.right
      have := ha.size_pos
      omega
    · obtain ⟨h1, h2⟩ := lt_of_mem_freeRanges h hr
      exact ⟨h1, h2, fun q hq => hno q ((candidate_iff h ha.size_pos q).mpr ⟨r, hr, hq⟩)⟩
  have hnone : (mb.seen (0, 0)).findSome? (probe size algn start stop) = none := by
    rw [List.findSome?_eq_none_iff]
    intro r hr
    obtain ⟨h1, h2, hfit⟩ := hseen r hr
    by_cases hw : 2 ^ 64 < clamp r.1 start stop + algn
    · have hm := (clamp_wrap ha h1).mp hw
      have hlt := hwrap hm
      obtain ⟨k, hk, hk'⟩ := ha.algn_eq
      have hle : 2 ^ k ≤ 2 ^ 63 := Nat.pow_le_pow_right (by norm_num) (by omega)
      have hclamp : clamp r.2 start stop = min start stop := by
        unfold clamp
        omega
      rw [probe_wrap ha hw, if_neg (by omega)]
    · have hspec := probe_spec ha (not_lt.mp hw)
      cases hp : probe size algn start stop r with
      | none => rfl
      | some c =>
        rw [hp] at hspec
        exact absurd hspec.1 (hfit c)
  have heq := findInRange_eq h (0, 0) size algn start stop
  rw [hnone] at heq
  exact heq fuel

/-- `memblock_find_in_range` is complete exactly if some free range can hold the request, or if it
    finds address 0 by a wrapped `ALIGN`. -/
theorem findInRange_iff {mb : State} (h : Normalised mb) (ha : Args size algn start stop) :
    Complete mb size algn start stop ↔
      (∃ p, Candidate mb size algn start stop p) ∨
        (2 ^ 64 < min start stop + algn ∧ size ≤ min start stop) := by
  constructor
  · intro hcomplete
    by_contra hnot
    rw [not_or, not_exists, not_and, not_le] at hnot
    obtain ⟨fuel, ret, hret, -⟩ := hcomplete (0, 0)
    rw [findInRange_searching h ha hnot.1 hnot.2 fuel] at hret
    cases hret
  · rintro (hex | ⟨hwrap, hsize⟩) stack
    · obtain ⟨c, hc, hleast⟩ := findSome?_freeRanges h ha hex
      have hne : mb.freeRanges ≠ [] := by
        rintro hnil
        rw [hnil] at hc
        cases hc
      have heq := findInRange_eq h stack size algn start stop
      rw [State.seen, if_neg hne, hc] at heq
      obtain ⟨n, hn⟩ := heq
      exact ⟨n, c, by rw [hn, if_pos le_rfl], Or.inl hleast⟩
    · have hno : ∀ p, ¬ Candidate mb size algn start stop p := fun p hp => by
        have := not_wrap_of_candidate h ha hp
        omega
      have hclamp : ∀ x, min start stop ≤ clamp x start stop := fun x => by
        unfold clamp
        omega
      -- the first range already gives address 0
      obtain ⟨r, l, hseen⟩ : ∃ r l, mb.seen stack = r :: l := by
        apply List.exists_cons_of_ne_nil
        unfold State.seen
        split_ifs with hnil
        · exact List.cons_ne_nil _ _
        · exact hnil
      have hfind : (mb.seen stack).findSome? (probe size algn start stop) = some 0 := by
        have h1 := hclamp r.1
        have h2 := hclamp r.2
        rw [hseen, List.findSome?_cons, probe_wrap ha (by omega), if_pos (by omega)]
      have heq := findInRange_eq h stack size algn start stop
      rw [hfind] at heq
      obtain ⟨n, hn⟩ := heq
      exact ⟨n, 0, by rw [hn, if_pos le_rfl], Or.inr ⟨rfl, hno⟩⟩

theorem args_page : Args 0x1000 8 0 0x1000 := ⟨by norm_num, ⟨3, by norm_num⟩, by norm_num, by norm_num⟩

theorem findInRange_iff_twoBanks : Normalised twoBanks ∧ Args 0x1000 8 0 0x1000 ∧
    (Complete twoBanks 0x1000 8 0 0x1000 ↔
      (∃ p, Candidate twoBanks 0x1000 8 0 0x1000 p) ∨
        (2 ^ 64 < min 0 0x1000 + 8 ∧ 0x1000 ≤ min 0 0x1000)) :=
  ⟨twoBanks_normalised, args_page, findInRange_iff twoBanks_normalised args_page⟩

/-- Address 0x100 of `twoBanks` is reserved. -/
theorem not_candidate_twoBanks (p : ℕ) : ¬ Candidate twoBanks 0x1000 8 0 0x1000 p := by
  intro hp
  have h0 := hp.le_stop
  obtain rfl : p = 0 := by omega
  exact (hp.free 0x100 (by norm_num) (by norm_num)).2 ⟨⟨0x100, 0x100⟩, by decide, by decide⟩

/-- No range of `twoBanks` can hold 4096 bytes, and the search for them goes on for good. -/
theorem findInRange_twoBanks : ¬ Complete twoBanks 0x1000 8 0 0x1000 := by
  intro hcomplete
  obtain ⟨fuel, ret, hret, -⟩ := hcomplete (0, 0)
  rw [findInRange_searching twoBanks_normalised args_page not_candidate_twoBanks (by norm_num)
    fuel] at hret
  cases hret

/-! ## The allocation contract -/

/-- `memblock_phys_alloc_range` took `[p, p + size)`. -/
structure Allocated (mb mb' : State) (size algn start stop p : ℕ) : Prop where
  dvd : algn ∣ p
  memory : ∃ s ∈ mb.memory.list, s.base ≤ p ∧ p + size ≤ s.stop
  start_le : start ≤ p
  le_stop : p + size ≤ stop
  unreserved : ∀ x, p ≤ x → x < p + size → ¬ Covers mb.reserved.list x
  reserved : ∀ x, Covers mb'.reserved.list x ↔
    Covers mb.reserved.list x ∨ (p ≤ x ∧ x < p + (size + 7) / 8 * 8)

/-- The `end` of the search: `MEMBLOCK_ALLOC_ACCESSIBLE` stands for `phys_addr_max`. -/
def State.limit (mb : State) (stop : ℕ) : ℕ := if stop = 0 then mb.physAddrMax else stop

/-- Every call that returns an address keeps the contract. -/
def Contract (mb : State) (size algn start stop : ℕ) : Prop :=
  ∀ fuel stack p mb', physAllocRange fuel stack mb size algn start stop = .ok (p, mb') → p ≠ 0 →
    Allocated mb mb' size algn start (mb.limit stop) p

/-- Some memory is free, or the bounds leave no room for an aligned block but at address 0. -/
def Guard (mb : State) (size algn start stop : ℕ) : Prop :=
  (∃ x, Covers mb.memory.list x ∧ ¬ Covers mb.reserved.list x) ∨
    ∀ p, p ≠ 0 → algn ∣ p → start ≤ p → mb.limit stop < p + size

/-- The invariant of `struct memblock` that the allocation keeps. The reserved array is followed by
    the memory `g`. -/
structure AllocInv (g : ℕ → Region) (mb : State) : Prop extends Normalised mb where
  typeInv : TypeInv g mb.reserved
  array_lt : mb.reserved.max < 2 ^ 31

theorem Args.limit {mb : State} (h : Normalised mb) (ha : Args size algn start stop) :
    Args size algn start (mb.limit stop) := by
  refine ⟨ha.size_pos, ha.algn_eq, ha.start_lt, ?_⟩
  have h1 := h.max_lt
  have h2 := ha.stop_lt
  unfold State.limit
  split_ifs <;> omega

/-- What comes out of the search is a candidate, if the guard holds. -/
theorem candidate_of_findInRange {mb : State} (h : Normalised mb) (ha : Args size algn start stop)
    (hguard : (∃ x, Covers mb.memory.list x ∧ ¬ Covers mb.reserved.list x) ∨
      ∀ p, p ≠ 0 → algn ∣ p → start ≤ p → stop < p + size) {fuel : ℕ} {stack : ℕ × ℕ} {p : ℕ}
    (hp : p ≠ 0) (hfind : findInRange fuel stack mb size algn start stop = .ok p) :
    Candidate mb size algn start stop p := by
  have heq := findInRange_eq h stack size algn start stop
  cases hseen : (mb.seen stack).findSome? (probe size algn start stop) with
  | none =>
    rw [hseen] at heq
    rw [heq fuel] at hfind
    cases hfind
  | some c =>
    rw [hseen] at heq
    obtain ⟨n, hn⟩ := heq
    rw [hn] at hfind
    split_ifs at hfind with hle
    obtain rfl := Except.ok.inj hfind
    obtain ⟨r, hr, hprobe⟩ := List.exists_of_findSome?_eq_some hseen
    have hwrap : clamp r.1 start stop + algn ≤ 2 ^ 64 := by
      by_contra hw
      rw [probe_wrap ha (not_le.mp hw)] at hprobe
      split_ifs at hprobe
      exact hp (Option.some.inj hprobe).symm
    have hfit := ((probe_eq_some_iff ha hwrap).mp hprobe).1
    unfold State.seen at hr
    split_ifs at hr with hnil
    · -- what the stack held may be anything, but the guard excludes it
      rcases hguard with ⟨x, hx⟩ | hnone
      · obtain ⟨q, hq, -⟩ := (holds_freeRanges h x).mpr hx
        rw [hnil] at hq
        cases hq
      · have h1 := hnone c hp hfit.dvd hfit.start_le
        have h2 := hfit.le_stop
        omega
    · exact (candidate_iff h ha.size_pos c).mpr ⟨r, hr, hfit⟩

/-- A call that returns an address, if the guard holds. -/
theorem allocated_of_guard {g : ℕ → Region} {mb mb' : State} (h : AllocInv g mb)
    (ha : Args size algn start stop) (hguard : Guard mb size algn start stop) {fuel : ℕ}
    {stack : ℕ × ℕ} {p : ℕ} (hcall : physAllocRange fuel stack mb size algn start stop = .ok (p, mb'))
    (hp : p ≠ 0) : Allocated mb mb' size algn start (mb.limit stop) p ∧ AllocInv g mb' := by
  simp only [physAllocRange, bind_eq_ok] at hcall
  obtain ⟨ret, hfind, hcall⟩ := hcall
  split_ifs at hcall with hret
  · obtain ⟨mb₁, hres, hcall⟩ := bind_eq_ok.mp hcall
    obtain ⟨rfl, rfl⟩ := Prod.mk.inj (Except.ok.inj hcall)
    have hc := candidate_of_findInRange h.toNormalised (ha.limit h.toNormalised) hguard hret hfind
    obtain ⟨r, hr, hfit⟩ := (candidate_iff h.toNormalised ha.size_pos ret).mp hc
    obtain ⟨s, hs, h1, h2⟩ := memory_of_mem_freeRanges hr
    have h3 := (lt_of_mem_freeRanges h.toNormalised hr).2
    have h4 := hfit.left
    have h5 := hfit.right
    obtain ⟨hinv, heq, hmax, hcov⟩ := reserve_spec h.typeInv
      (by simp only [Call.range, Span.stop]; omega) hres
    refine ⟨⟨hfit.dvd, ⟨s, hs, by omega, by omega⟩, hfit.start_le, hfit.le_stop,
      fun x hx hx' => (hc.free x hx hx').2, fun x => ?_⟩, ?_⟩
    · rw [hcov, mem_def]
      rfl
    · rw [heq] at hinv hmax ⊢
      have hcnt := hinv.cnt_le
      have hlt := h.array_lt
      dsimp only at hcnt hmax
      exact ⟨⟨h.memory, hinv.shape, h.memory_le, h.max_lt, hinv.fits, h.memory_cnt, by
        dsimp only; omega⟩, hinv, by dsimp only; omega⟩
  · obtain ⟨rfl, rfl⟩ := Prod.mk.inj (Except.ok.inj hcall)
    exact absurd hp hret

/-- With room for the worst case `memblock_reserve` comes back. -/
theorem reserve_ok {mb : State} (hroom : mb.reserved.cnt * 2 + 1 < mb.reserved.max) (base size : ℕ) :
    ∃ mb', mb.reserve base size = .ok mb' := by
  obtain ⟨t, ht⟩ : ∃ t, Memblock.reserve mb.reserved base size = .ok t := by
    simp only [Memblock.reserve, addRange, hroom, decide_true, if_true]
    split_ifs
    · exact ⟨_, rfl⟩
    · exact ⟨_, rfl⟩
    · exact ⟨_, rfl⟩
    · exact ⟨_, rfl⟩
  exact ⟨_, by rw [State.reserve, ht]; rfl⟩

/-- With nothing free the search returns any aligned place that the stack happens to hold. -/
theorem findInRange_stack {mb : State} (h : Normalised mb) (ha : Args size algn start stop)
    (hnil : mb.freeRanges = []) {p : ℕ} (hdvd : algn ∣ p) (hstart : start ≤ p) (hstop : p + size ≤ stop) :
    ∃ fuel, findInRange fuel (p, p + size) mb size algn start stop = .ok p := by
  obtain ⟨k, hk, rfl⟩ := ha.algn_eq
  have hclamp : clamp p start stop = p := by unfold clamp; omega
  -- the next multiple of the alignment is not behind `2 ^ 64`
  have hwrap : p + 2 ^ k ≤ 2 ^ 64 := by
    have hlt : p < 2 ^ 64 := by
      have := ha.stop_lt
      omega
    obtain ⟨m, rfl⟩ := hdvd
    rw [show (2 : ℕ) ^ 64 = 2 ^ k * 2 ^ (64 - k) by rw [← pow_add]; congr 1; omega] at hlt ⊢
    rw [← Nat.mul_succ]
    exact Nat.mul_le_mul_left _ (Nat.lt_of_mul_lt_mul_left hlt)
  have hprobe : probe size (2 ^ k) start stop (p, p + size) = some p :=
    (probe_eq_some_iff ha (by dsimp only; rwa [hclamp])).mpr
      ⟨⟨hdvd, le_rfl, hstart, le_rfl, hstop⟩, fun q hq => hq.left⟩
  have heq := findInRange_eq h (p, p + size) size (2 ^ k) start stop
  rw [State.seen, if_pos hnil, List.findSome?_singleton, hprobe] at heq
  obtain ⟨n, hn⟩ := heq
  exact ⟨n, by rw [hn, if_pos le_rfl]⟩

theorem guard_of_contract {mb : State} (h : Normalised mb)
    (hroom : mb.reserved.cnt * 2 + 1 < mb.reserved.max) (ha : Args size algn start stop)
    (hcontract : Contract mb size algn start stop) : Guard mb size algn start stop := by
  by_contra hnot
  rw [Guard, not_or] at hnot
  obtain ⟨hfull, hplace⟩ := hnot
  push Not at hplace
  obtain ⟨p, hp, hdvd, hstart, hstop⟩ := hplace
  have hsize := ha.size_pos
  have hnil : mb.freeRanges = [] := by
    rw [List.eq_nil_iff_forall_not_mem]
    intro r hr
    exact hfull ⟨r.1, (holds_freeRanges h _).mp ⟨r, hr, le_rfl, freeRanges_nonempty h hr⟩⟩
  obtain ⟨fuel, hfind⟩ := findInRange_stack h (ha.limit h) hnil hdvd hstart hstop
  obtain ⟨mb', hres⟩ := reserve_ok hroom p size
  have hcall : physAllocRange fuel (p, p + size) mb size algn start stop = .ok (p, mb') := by
    rw [State.limit] at hfind
    simp only [physAllocRange, hfind, bind, Except.bind, if_pos hp, hres]
  have hall := hcontract fuel _ p mb' hcall hp
  -- the block would have to be memory that is not reserved
  obtain ⟨s, hs, h1, h2⟩ := hall.memory
  exact hfull ⟨p, ⟨s, hs, h1, by omega⟩, hall.unreserved p le_rfl (by omega)⟩

/-! ## Runs of allocations -/

/-- Consecutive calls that meet the guard: the address that each of them returned with the size that it
    was asked for. -/
inductive AllocRun : State → List (ℕ × ℕ) → State → Prop
  | nil (mb : State) : AllocRun mb [] mb
  | cons {mb mb₁ mb' : State} {fuel : ℕ} {stack : ℕ × ℕ} {size algn start stop p : ℕ}
      {l : List (ℕ × ℕ)} (hargs : Args size algn start stop) (hguard : Guard mb size algn start stop)
      (hcall : physAllocRange fuel stack mb size algn start stop = .ok (p, mb₁))
      (hrest : AllocRun mb₁ l mb') : AllocRun mb ((p, size) :: l) mb'

/-- A call keeps the invariant, and what is reserved stays reserved. -/
theorem physAllocRange_keeps {g : ℕ → Region} {mb mb' : State} (h : AllocInv g mb)
    (ha : Args size algn start stop) (hguard : Guard mb size algn start stop) {fuel : ℕ}
    {stack : ℕ × ℕ} {p : ℕ}
    (hcall : physAllocRange fuel stack mb size algn start stop = .ok (p, mb')) :
    AllocInv g mb' ∧ ∀ x, Covers mb.reserved.list x → Covers mb'.reserved.list x := by
  by_cases hp : p = 0
  · subst hp
    simp only [physAllocRange, bind_eq_ok] at hcall
    obtain ⟨ret, -, hcall⟩ := hcall
    split_ifs at hcall with hret
    · obtain ⟨mb₁, -, hcall⟩ := bind_eq_ok.mp hcall
      exact absurd (Prod.mk.inj (Except.ok.inj hcall)).1 hret
    · obtain ⟨-, rfl⟩ := Prod.mk.inj (Except.ok.inj hcall)
      exact ⟨h, fun _ hx => hx⟩
  · obtain ⟨hall, hinv⟩ := allocated_of_guard h ha hguard hcall hp
    exact ⟨hinv, fun x hx => (hall.reserved x).mpr (Or.inl hx)⟩

/-- No block of a run was reserved when the run began. -/
theorem AllocRun.unreserved {g : ℕ → Region} {mb mb' : State} {l : List (ℕ × ℕ)}
    (hrun : AllocRun mb l mb') (h : AllocInv g mb) {b : ℕ × ℕ} (hb : b ∈ l) (hne : b.1 ≠ 0) {x : ℕ}
    (hx : b.1 ≤ x ∧ x < b.1 + b.2) : ¬ Covers mb.reserved.list x := by
  induction hrun with
  | nil mb => cases hb
  | cons hargs hguard hcall hrest ih =>
    rcases List.mem_cons.mp hb with rfl | hb
    · exact (allocated_of_guard h hargs hguard hcall hne).1.unreserved x hx.1 hx.2
    · obtain ⟨hinv, hkeep⟩ := physAllocRange_keeps h hargs hguard hcall
      exact fun hcov => ih hinv hb (hkeep x hcov)

theorem AllocRun.disjoint {g : ℕ → Region} {mb mb' : State} {l : List (ℕ × ℕ)}
    (hrun : AllocRun mb l mb') (h : AllocInv g mb) :
    l.Pairwise fun a b => a.1 ≠ 0 → b.1 ≠ 0 →
      ∀ x, a.1 ≤ x ∧ x < a.1 + a.2 → ¬ (b.1 ≤ x ∧ x < b.1 + b.2) := by
  induction hrun with
  | nil mb => exact List.Pairwise.nil
  | cons hargs hguard hcall hrest ih =>
    obtain ⟨hinv, -⟩ := physAllocRange_keeps h hargs hguard hcall
    refine List.pairwise_cons.mpr ⟨fun b hb ha0 hb0 x hxa hxb => ?_, ih hinv⟩
    have hall := (allocated_of_guard h hargs hguard hcall ha0).1
    refine hrest.unreserved hinv hb hb0 hxb ((hall.reserved x).mpr (Or.inr ⟨hxa.1, ?_⟩))
    have := hxa.2
    dsimp only at this
    omega

/-- The allocation keeps its contract if the guard holds, and, where `memblock_reserve` has room, only
    then. The blocks of consecutive calls that meet the guard are disjoint. -/
theorem physAllocRange_contract {g : ℕ → Region} {mb : State} (h : AllocInv g mb)
    (ha : Args size algn start stop) :
    (Guard mb size algn start stop → Contract mb size algn start stop) ∧
    (mb.reserved.cnt * 2 + 1 < mb.reserved.max → Contract mb size algn start stop →
      Guard mb size algn start stop) ∧
    ∀ l mb', AllocRun mb l mb' → l.Pairwise fun a b => a.1 ≠ 0 → b.1 ≠ 0 →
      ∀ x, a.1 ≤ x ∧ x < a.1 + a.2 → ¬ (b.1 ≤ x ∧ x < b.1 + b.2) :=
  ⟨fun hguard _ _ _ _ hcall hp => (allocated_of_guard h ha hguard hcall hp).1,
    fun hroom hcontract => guard_of_contract h.toNormalised hroom ha hcontract,
    fun _ _ hrun => hrun.disjoint h⟩

theorem twoBanks_allocInv : AllocInv twoBanks.reserved.regions twoBanks where
  toNormalised := twoBanks_normalised
  typeInv := ⟨by decide, by decide, twoBanks_normalised.reserved, twoBanks_normalised.fits, by decide,
    fun _ _ => rfl⟩
  array_lt := by decide

theorem physAllocRange_contract_twoBanks : AllocInv twoBanks.reserved.regions twoBanks ∧
    Args 0x1000 8 0 0x1000 ∧
    (Guard twoBanks 0x1000 8 0 0x1000 → Contract twoBanks 0x1000 8 0 0x1000) ∧
    (twoBanks.reserved.cnt * 2 + 1 < twoBanks.reserved.max → Contract twoBanks 0x1000 8 0 0x1000 →
      Guard twoBanks 0x1000 8 0 0x1000) ∧
    ∀ l mb', AllocRun twoBanks l mb' → l.Pairwise fun a b => a.1 ≠ 0 → b.1 ≠ 0 →
      ∀ x, a.1 ≤ x ∧ x < a.1 + a.2 → ¬ (b.1 ≤ x ∧ x < b.1 + b.2) :=
  ⟨twoBanks_allocInv, args_page, physAllocRange_contract twoBanks_allocInv args_page⟩

/-- One bank of memory, all of it reserved. -/
def allReserved : State where
  currentLimit := 0x1000
  physAddrMax := 0x1000
  memory := ⟨1, 32, 0x1000, fun i => [⟨0, 0x1000⟩].getD i ⟨0, 0⟩⟩
  reserved := ⟨1, 32, 0x1000, fun i => [⟨0, 0x1000⟩].getD i ⟨0, 0⟩⟩

/-- With all memory reserved, `memblock_phys_alloc(8)` returns an address that was on the stack. -/
theorem physAllocRange_allReserved :
    (∃ mb', physAllocRange 1 (0x800, 0x808) allReserved 8 8 0 0 = .ok (0x800, mb')) ∧
      ¬ Contract allReserved 8 8 0 0 := by
  have hcov : Covers allReserved.reserved.list 0x800 := ⟨⟨0, 0x1000⟩, by decide, by decide⟩
  have hcall : ∃ mb', physAllocRange 1 (0x800, 0x808) allReserved 8 8 0 0 = .ok (0x800, mb') := by
    have hroom : allReserved.reserved.cnt * 2 + 1 < allReserved.reserved.max := by decide
    obtain ⟨mb', hres⟩ := reserve_ok hroom 0x800 8
    have hfind : findInRange 1 (0x800, 0x808) allReserved 8 8 0 allReserved.physAddrMax = .ok 0x800 := by
      decide
    refine ⟨mb', ?_⟩
    simp only [physAllocRange, if_true, hfind, bind, Except.bind]
    rw [if_pos (by norm_num), hres]
  refine ⟨hcall, fun hcontract => ?_⟩
  obtain ⟨mb', hcall⟩ := hcall
  exact (hcontract _ _ _ _ hcall (by norm_num)).unreserved 0x800 le_rfl (by norm_num) hcov

end RaspiKernel.Memblock
