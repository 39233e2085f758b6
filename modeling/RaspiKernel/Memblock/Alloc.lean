import RaspiKernel.Lib.Run
import RaspiKernel.Memblock.AddRange

/-!
# memblock: allocation

What `memblock_phys_alloc` returns when it comes back: the search of
`memblock_find_in_range` round by round, and the reservation that follows it.

Results:
* `virtToPhys_physToVirt`
* `reserveAll_spec`: the reserved list after any sequence of reservations.
* `physAllocRange_spec`: memory inside the bounds, and reserved unless it is at
  address 0.
* `findInRange_pos`: no range at address 0 is found when address 0 is reserved.
-/

namespace RaspiKernel.Memblock

open Lib Lib.Span

/-! ## Addresses -/

theorem kernelVaddrBase_eq : kernelVaddrBase = 2 ^ 64 - 2 ^ 48 := by norm_num

theorem physToVirt_eq {p : ℕ} (hp : p < 2 ^ 48) : physToVirt p = kernelVaddrBase + p := by
  unfold physToVirt
  rw [kernelVaddrBase_eq]
  exact or_high_mask hp (by norm_num)

theorem virtToPhys_eq (v : ℕ) : virtToPhys v = v % 2 ^ 48 := by
  unfold virtToPhys
  rw [show 2 ^ 64 - 1 - kernelVaddrBase = 2 ^ 48 - 1 by norm_num]
  exact Nat.and_two_pow_sub_one_eq_mod v 48

theorem virtToPhys_physToVirt {p : ℕ} (hp : p < 2 ^ 48) : virtToPhys (physToVirt p) = p := by
  rw [virtToPhys_eq, physToVirt_eq hp, show kernelVaddrBase = 0xffff * 2 ^ 48 by norm_num,
    Nat.mul_add_mod_self_right, Nat.mod_eq_of_lt hp]

theorem le_align {x : ℕ} (h : x + 7 < 2 ^ 64) : x ≤ align x 8 := by
  rw [align_eight h]; omega

/-! ## Reservations -/

theorem reserve_spec {g : ℕ → Region} {mb mb' : State} {base size : ℕ}
    (hinv : TypeInv g mb.reserved) (hwrap : (Call.reserve base size).range.stop < 2 ^ 64)
    (h : mb.reserve base size = .ok mb') :
    TypeInv g mb'.reserved ∧ mb' = { mb with reserved := mb'.reserved } ∧
      mb'.reserved.max = mb.reserved.max ∧
      ∀ x, Covers mb'.reserved.list x ↔
        Covers mb.reserved.list x ∨ x ∈ (Call.reserve base size).range := by
  rw [State.reserve, bind_eq_ok] at h
  obtain ⟨t, ht, h⟩ := h
  obtain rfl := Except.ok.inj h
  obtain ⟨hinv', hmax, hcov⟩ := exec_spec hinv (c := .reserve base size) hwrap ht
  exact ⟨hinv', rfl, hmax, hcov⟩

/-- Any sequence of `memblock_reserve` calls that comes back. -/
theorem reserveAll_spec {g : ℕ → Region} {mb mb' : State} (calls : List (ℕ × ℕ))
    (hinv : TypeInv g mb.reserved)
    (hwrap : ∀ c ∈ calls, (Call.reserve c.1 c.2).range.stop < 2 ^ 64)
    (h : reserveAll mb calls = .ok mb') :
    TypeInv g mb'.reserved ∧ mb' = { mb with reserved := mb'.reserved } ∧
      mb'.reserved.max = mb.reserved.max ∧
      ∀ x, Covers mb'.reserved.list x ↔
        Covers mb.reserved.list x ∨ ∃ c ∈ calls, x ∈ (Call.reserve c.1 c.2).range := by
  induction calls generalizing mb with
  | nil =>
    obtain rfl : mb = mb' := Except.ok.inj h
    exact ⟨hinv, rfl, rfl, by simp⟩
  | cons c calls ih =>
    rw [reserveAll, List.foldlM_cons, bind_eq_ok] at h
    obtain ⟨mb₁, hc, h⟩ := h
    obtain ⟨hinv₁, heq₁, hmax₁, hcov₁⟩ := reserve_spec hinv (hwrap c List.mem_cons_self) hc
    obtain ⟨hinv', heq, hmax, hcov⟩ := ih hinv₁ (fun d hd => hwrap d (List.mem_cons_of_mem _ hd)) h
    refine ⟨hinv', ?_, hmax.trans hmax₁, fun x => ?_⟩
    · rw [heq, heq₁]
    · simp only [hcov, hcov₁, List.exists_mem_cons_iff, or_assoc]

/-! ## The search -/

theorem rangeIdx_ne {a b : ℕ} (hb : b < 2 ^ 32 - 1) : rangeIdx a b ≠ 2 ^ 64 - 1 := by
  have ha : a % 2 ^ 32 < 2 ^ 32 := Nat.mod_lt _ (by norm_num)
  unfold rangeIdx
  rw [Nat.or_comm, ← Nat.shiftLeft_add_eq_or_of_lt ha, Nat.shiftLeft_eq]
  omega

theorem rangeIdx_shiftRight (a b : ℕ) : rangeIdx a b >>> 32 = b := by
  have ha : a % 2 ^ 32 < 2 ^ 32 := Nat.mod_lt _ (by norm_num)
  unfold rangeIdx
  rw [Nat.or_comm, ← Nat.shiftLeft_add_eq_or_of_lt ha, Nat.shiftLeft_eq, Nat.shiftRight_eq_div_pow]
  omega

/-- No gap of the reserved list that `__next_mem_range` pairs with a region from `mStart` on starts
    at address 0. -/
def StartsAbove (typeB : MemblockType) (mStart : ℕ) : Prop :=
  0 < mStart ∨ ((typeB.regions 0).base = 0 ∧ 0 < typeB.cnt ∧
    ∀ i < typeB.cnt, 0 < u64 ((typeB.regions i).base + (typeB.regions i).size))

theorem nextGap_spec {typeB : MemblockType} {mStart : ℕ} (hpos : StartsAbove typeB mStart)
    (physAddrMax mEnd idxA rem idxB : ℕ) (hrem : rem + idxB = typeB.cnt + 1) :
    match nextGap typeB physAddrMax mStart mEnd idxA rem idxB with
    | .inl it => 0 < it.outStart ∧ ∃ a b, it.idx = rangeIdx a b ∧ b ≤ typeB.cnt + 1
    | .inr idxB' => idxB' ≤ typeB.cnt + 1 := by
  induction rem generalizing idxB with
  | zero => simp only [nextGap]; omega
  | succ rem ih =>
    simp only [nextGap]
    generalize hs : (if idxB ≠ 0 then u64 ((typeB.regions (idxB - 1)).base +
      (typeB.regions (idxB - 1)).size) else 0) = rStart
    generalize he : (if idxB < typeB.cnt then (typeB.regions idxB).base else physAddrMax) = rEnd
    by_cases h1 : rStart ≥ mEnd
    · rw [if_pos h1]; show idxB ≤ _; omega
    rw [if_neg h1]
    by_cases h2 : mStart < rEnd
    · rw [if_pos h2]
      refine ⟨?_, ?_⟩
      · show 0 < max mStart rStart
        rcases hpos with h | ⟨h0, hc, hend⟩
        · exact lt_max_of_lt_left h
        · -- a gap before slot 0 would end at address 0
          have hne : idxB ≠ 0 := by
            rintro rfl
            rw [if_pos hc, h0] at he
            omega
          rw [if_pos hne] at hs
          exact lt_max_of_lt_right (hs ▸ hend (idxB - 1) (by omega))
      · show ∃ a b, (if mEnd ≤ rEnd then rangeIdx (idxA + 1) idxB
          else rangeIdx idxA (idxB + 1)) = rangeIdx a b ∧ b ≤ typeB.cnt + 1
        split_ifs
        · exact ⟨_, _, rfl, by omega⟩
        · exact ⟨_, _, rfl, by omega⟩
    · rw [if_neg h2]
      exact ih (idxB + 1) (by omega)

/-- The iterator after `__next_mem_range` found a range. -/
structure IterOk (typeB : MemblockType) (it : RangeIter) : Prop where
  pos : 0 < it.outStart
  idx : ∃ a b, it.idx = rangeIdx a b ∧ b ≤ typeB.cnt + 1

theorem nextMemRangeLoop_spec {typeA typeB : MemblockType}
    (hpos : ∀ i < typeA.cnt, StartsAbove typeB (typeA.regions i).base)
    (physAddrMax rem idxA idxB : ℕ)
    (hrem : rem + idxA ≤ typeA.cnt) (hb : idxB ≤ typeB.cnt + 1) (it : RangeIter) :
    nextMemRangeLoop typeA typeB physAddrMax rem idxA idxB it = it ∨
      IterOk typeB (nextMemRangeLoop typeA typeB physAddrMax rem idxA idxB it) := by
  induction rem generalizing idxA idxB with
  | zero => exact Or.inl rfl
  | succ rem ih =>
    have h := nextGap_spec (hpos idxA (by omega)) physAddrMax
      (u64 ((typeA.regions idxA).base + (typeA.regions idxA).size)) idxA (typeB.cnt + 1 - idxB) idxB
      (by omega)
    simp only [nextMemRangeLoop]
    generalize nextGap typeB physAddrMax _ _ idxA _ idxB = r at h ⊢
    cases r with
    | inl it' => exact Or.inr ⟨h.1, h.2⟩
    | inr idxB' => exact ih (idxA + 1) idxB' (by omega) h

/-- `__next_mem_range` after a range was found. -/
theorem IterOk.next {typeA typeB : MemblockType} {physAddrMax : ℕ} {it : RangeIter}
    (h : IterOk typeB it) (hpos : ∀ i < typeA.cnt, StartsAbove typeB (typeA.regions i).base) :
    IterOk typeB (nextMemRange typeA typeB physAddrMax it) := by
  obtain ⟨a, b, hidx, hb⟩ := h.idx
  have hcases : ∀ idxA, typeA.cnt - idxA + idxA ≤ typeA.cnt ∨ typeA.cnt - idxA = 0 := by
    intro idxA; omega
  unfold nextMemRange
  rcases hcases (it.idx &&& 0xffffffff) with hle | h0
  · have := nextMemRangeLoop_spec hpos physAddrMax _ _ (it.idx >>> 32) hle
      (by rw [hidx, rangeIdx_shiftRight]; exact hb) it
    rcases this with heq | hok
    · simp only [heq]; exact h
    · exact hok
  · simp only [h0]; exact h

/-- A region of `type_a` that goes on past the last reservation has a gap. -/
theorem nextGap_found {typeB : MemblockType} {physAddrMax mStart mEnd : ℕ} (idxA : ℕ)
    (hend : ∀ i < typeB.cnt, u64 ((typeB.regions i).base + (typeB.regions i).size) < mEnd)
    (hpos : 0 < mEnd) (hmax : mStart < physAddrMax) (rem idxB : ℕ)
    (hrem : rem + 1 + idxB = typeB.cnt + 1) :
    ∃ it, nextGap typeB physAddrMax mStart mEnd idxA (rem + 1) idxB = .inl it := by
  induction rem generalizing idxB with
  | zero =>
    have hlast : ¬ idxB < typeB.cnt := by omega
    simp only [nextGap, if_neg hlast, if_pos hmax]
    rw [if_neg]
    · exact ⟨_, rfl⟩
    · split_ifs with hne
      · have := hend (idxB - 1) (by omega); omega
      · omega
  | succ rem ih =>
    rw [nextGap, if_neg]
    · generalize (if idxB < typeB.cnt then (typeB.regions idxB).base else physAddrMax) = rEnd
      by_cases h2 : mStart < rEnd
      · rw [if_pos h2]; exact ⟨_, rfl⟩
      · rw [if_neg h2]; exact ih (idxB + 1) (by omega)
    · split_ifs with hne
      · have := hend (idxB - 1) (by omega); omega
      · omega

/-- The first call of `__next_mem_range` finds a range when memory goes on past the last
    reservation. -/
theorem iterOk_first {typeA typeB : MemblockType} {physAddrMax : ℕ} (hcnt : 0 < typeA.cnt)
    (hpos : ∀ i < typeA.cnt, StartsAbove typeB (typeA.regions i).base)
    (hend : ∀ i < typeB.cnt, u64 ((typeB.regions i).base + (typeB.regions i).size) <
      u64 ((typeA.regions 0).base + (typeA.regions 0).size))
    (hpos' : 0 < u64 ((typeA.regions 0).base + (typeA.regions 0).size))
    (hmax : (typeA.regions 0).base < physAddrMax) (it : RangeIter) (hidx : it.idx = 0) :
    IterOk typeB (nextMemRange typeA typeB physAddrMax it) := by
  obtain ⟨rem, hrem⟩ : ∃ rem, typeA.cnt = rem + 1 := ⟨typeA.cnt - 1, by omega⟩
  obtain ⟨it', hit⟩ := nextGap_found 0 hend hpos' hmax typeB.cnt 0 rfl
  have h := nextGap_spec (hpos 0 hcnt) physAddrMax
    (u64 ((typeA.regions 0).base + (typeA.regions 0).size)) 0 (typeB.cnt + 1) 0 rfl
  rw [hit] at h
  have heq : nextMemRange typeA typeB physAddrMax it = it' := by
    simp only [nextMemRange, hidx, Nat.zero_and, Nat.zero_shiftRight, Nat.sub_zero, hrem,
      nextMemRangeLoop, hit]
  rw [heq]
  exact ⟨h.1, h.2⟩

theorem findLoop_spec {mb : State} {size algn start stop : ℕ} (fuel : ℕ) (it : RangeIter)
    {ret : ℕ} (h : findLoop mb size algn start stop fuel it = .ok ret) :
    ret = 0 ∨ ret + size ≤ stop := by
  induction fuel generalizing it with
  | zero => cases h
  | succ fuel ih =>
    simp only [findLoop] at h
    split_ifs at h with h1 h2
    · exact Or.inl (Except.ok.inj h).symm
    · obtain rfl := Except.ok.inj h
      have : clamp it.outEnd start stop ≤ stop := Nat.min_le_right _ _
      exact Or.inr (by omega)
    · exact ih _ h

/-- The search does not return address 0 once a first range was found, if no range starts there. -/
theorem findLoop_pos {mb : State} {size start stop : ℕ} (hstop : 0 < stop) (hstop' : stop + 7 < 2 ^ 64)
    (hpos : ∀ i < mb.memory.cnt, StartsAbove mb.reserved (mb.memory.regions i).base)
    (hcnt : mb.reserved.cnt + 1 < 2 ^ 32 - 1) (fuel : ℕ) (it : RangeIter) (hit : IterOk mb.reserved it)
    {ret : ℕ} (h : findLoop mb size 8 start stop fuel it = .ok ret) : 0 < ret := by
  induction fuel generalizing it with
  | zero => cases h
  | succ fuel ih =>
    have hthis : 0 < clamp it.outStart start stop := by
      have := hit.pos
      unfold clamp
      omega
    have hle : clamp it.outStart start stop ≤ stop := Nat.min_le_right _ _
    simp only [findLoop] at h
    split_ifs at h with h1 h2
    · obtain ⟨a, b, hidx, hb⟩ := hit.idx
      exact absurd (hidx ▸ h1) (rangeIdx_ne (by omega))
    · obtain rfl := Except.ok.inj h
      exact lt_of_lt_of_le hthis (le_align (by omega))
    · have hit' : IterOk mb.reserved
          { it with outStart := clamp it.outStart start stop, outEnd := clamp it.outEnd start stop } :=
        ⟨hthis, hit.idx⟩
      exact ih _ (hit'.next hpos) h

/-- The reserved list has no gap at address 0 if address 0 is reserved. -/
theorem startsAbove_of_covers {g : ℕ → Region} {t : MemblockType} (hinv : TypeInv g t)
    (h0 : Covers t.list 0) (mStart : ℕ) : StartsAbove t mStart := by
  obtain ⟨s, hs, hmem⟩ := h0
  rw [mem_def] at hmem
  have hn : Normal t.list := by
    rcases hinv.shape with hd | hn
    · rw [hd, List.mem_singleton] at hs
      subst hs
      simp [Span.stop] at hmem
    · exact hn
  refine Or.inr ⟨?_, hinv.cnt_pos, fun i hi => ?_⟩
  · -- the region at address 0 comes first
    obtain ⟨u, S, huS⟩ := List.exists_cons_of_length_pos
      (lt_of_lt_of_le hinv.cnt_pos (length_list t).ge)
    have hu : t.regions 0 = u := regions_of_list (P := []) huS
    rw [hu]
    rw [huS] at hs
    rcases List.mem_cons.mp hs with rfl | hs
    · omega
    · have := (List.pairwise_cons.mp (huS ▸ hn.pairwise)).1 s hs
      omega
  · have hmem' : t.regions i ∈ t.list := List.mem_map_of_mem (List.mem_range.mpr hi)
    have hstop := u64_eq (hinv.fits _ hmem')
    have := hn.pos _ hmem'
    simp only [Span.stop] at hstop
    rw [hstop]
    omega

/-! ## The allocation -/

/-- `memblock_phys_alloc_range` with the alignment of `memblock_phys_alloc`: what it returns ends
    below the bound, and it is reserved unless it is 0. -/
theorem physAllocRange_spec {g : ℕ → Region} {mb mb' : State} {fuel : ℕ} {stack : ℕ × ℕ}
    {size ret : ℕ} (hinv : TypeInv g mb.reserved) (hmax : mb.physAddrMax < 2 ^ 32)
    (h : physAllocRange fuel stack mb size 8 0 0 = .ok (ret, mb')) :
    (ret = 0 ∧ mb' = mb) ∨ (0 < ret ∧ ret + size ≤ mb.physAddrMax ∧ TypeInv g mb'.reserved ∧
      mb' = { mb with reserved := mb'.reserved } ∧
      ∀ x, Covers mb'.reserved.list x ↔
        Covers mb.reserved.list x ∨ x ∈ (Call.reserve ret size).range) := by
  simp only [physAllocRange, if_true, bind_eq_ok] at h
  obtain ⟨r, hf, h⟩ := h
  have hspec := findLoop_spec _ _ hf
  split_ifs at h with hr
  · obtain ⟨mb₁, hres, h⟩ := bind_eq_ok.mp h
    obtain ⟨rfl, rfl⟩ := Prod.mk.inj (Except.ok.inj h)
    have hle : r + size ≤ mb.physAddrMax := hspec.resolve_left hr
    obtain ⟨hinv', heq, -, hcov⟩ := reserve_spec hinv
      (by simp only [Call.range, Span.stop]; omega) hres
    exact Or.inr ⟨Nat.pos_of_ne_zero hr, hle, hinv', heq, hcov⟩
  · obtain ⟨rfl, rfl⟩ := Prod.mk.inj (Except.ok.inj h)
    exact Or.inl ⟨not_not.mp hr, rfl⟩

end RaspiKernel.Memblock
