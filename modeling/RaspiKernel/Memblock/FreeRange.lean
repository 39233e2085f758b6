import RaspiKernel.Lib.Overlap
import RaspiKernel.Memblock.Alloc

/-!
# memblock: the free ranges

`__next_mem_range` walks the memory list against the gaps of the reserved list.
The ranges that are left when its indices stand at `idx_a` and `idx_b` are the
overlaps of the two lists from there on, and one call takes the first of them.

Results:
* `nextMemRange_spec`: one call of `__next_mem_range`.
* `holds_freeRanges`, `freeRanges_nonempty`, `freeRanges_apart`: the free ranges
  of a normalised state.
* `enumerates_iff`: repeated calls give exactly the free memory.
-/

namespace RaspiKernel.Memblock

open Lib Lib.Span Lib.Interval

/-- The two lists of `struct memblock` are normalised or the empty dummy, memory ends below
    `phys_addr_max`, an `unsigned int`, and the slots are numbered by an `int`. -/
structure Normalised (mb : State) : Prop where
  memory : mb.memory.list = [⟨0, 0⟩] ∨ Normal mb.memory.list
  reserved : mb.reserved.list = [⟨0, 0⟩] ∨ Normal mb.reserved.list
  memory_le : ∀ s ∈ mb.memory.list, s.stop ≤ mb.physAddrMax
  max_lt : mb.physAddrMax < 2 ^ 32
  fits : Fits mb.reserved.list
  memory_cnt : mb.memory.cnt < 2 ^ 31
  reserved_cnt : mb.reserved.cnt < 2 ^ 31

theorem Normalised.memory_fits {mb : State} (h : Normalised mb) : Fits mb.memory.list := by
  intro s hs
  have h1 := h.memory_le s hs
  have h2 := h.max_lt
  omega

/-! ## The index -/

theorem rangeIdx_and (a b : ℕ) : rangeIdx a b &&& 0xffffffff = a % 2 ^ 32 := by
  have ha : a % 2 ^ 32 < 2 ^ 32 := Nat.mod_lt _ (by norm_num)
  unfold rangeIdx
  rw [Nat.or_comm, ← Nat.shiftLeft_add_eq_or_of_lt ha, Nat.shiftLeft_eq,
    show 0xffffffff = 2 ^ 32 - 1 by norm_num, Nat.and_two_pow_sub_one_eq_mod]
  omega

theorem rangeIdx_inj {a b a' b' : ℕ} (ha : a < 2 ^ 32) (ha' : a' < 2 ^ 32)
    (h : rangeIdx a b = rangeIdx a' b') : a = a' ∧ b = b' := by
  have h1 := congrArg (· &&& 0xffffffff) h
  have h2 := congrArg (· >>> 32) h
  simp only [rangeIdx_and, rangeIdx_shiftRight] at h1 h2
  rw [Nat.mod_eq_of_lt ha, Nat.mod_eq_of_lt ha'] at h1
  exact ⟨h1, h2⟩

/-! ## One call -/

/-- The free ranges from the indices `idx_a` and `idx_b` on. -/
def State.freeFrom (mb : State) (idxA idxB : ℕ) : List (ℕ × ℕ) :=
  overlap ((ends mb.memory.list).drop idxA) ((gaps 0 mb.physAddrMax mb.reserved.list).drop idxB)

/-- The free ranges. -/
def State.freeRanges (mb : State) : List (ℕ × ℕ) := mb.freeFrom 0 0

/-- The variables `r_start` and `r_end` are the ends of a gap. -/
theorem drop_gaps {t : MemblockType} (hfit : Fits t.list) (hi : ℕ) {i : ℕ} (h : i ≤ t.cnt) :
    (gaps 0 hi t.list).drop i =
      (if i ≠ 0 then u64 ((t.regions (i - 1)).base + (t.regions (i - 1)).size) else 0,
        if i < t.cnt then (t.regions i).base else hi) :: (gaps 0 hi t.list).drop (i + 1) := by
  have hlen : i < (gaps 0 hi t.list).length := by rw [length_gaps, length_list]; omega
  have hget := getElem?_gaps 0 hi t.list (i := i) (by rwa [length_list])
  rw [List.getElem?_eq_getElem hlen, Option.some.injEq] at hget
  rw [List.drop_eq_getElem_cons hlen, hget]
  simp only [length_list, List.get_eq_getElem]
  congr 2
  · by_cases h0 : i = 0
    · simp [h0]
    · have hlt : i - 1 < t.list.length := by rw [length_list]; omega
      rw [dif_neg h0, if_pos h0, getElem_list rfl (i - 1) hlt]
      exact (u64_eq (hfit _ (List.getElem_mem hlt))).symm
  · by_cases hlt : i < t.cnt
    · rw [dif_pos hlt, if_pos hlt, getElem_list rfl i (by rwa [length_list])]
    · rw [dif_neg hlt, if_neg hlt]

/-- The inner loop passes the gaps that a region does not meet. -/
theorem nextGap_overlap {typeB : MemblockType} (hfit : Fits typeB.list) (physAddrMax : ℕ)
    (a : ℕ × ℕ) (l : List (ℕ × ℕ)) (idxA rem idxB : ℕ) (hrem : rem + idxB = typeB.cnt + 1) :
    match nextGap typeB physAddrMax a.1 a.2 idxA rem idxB with
    | .inl it => ∃ idxA' l' idxB', it.idx = rangeIdx idxA' idxB' ∧ idxB' ≤ typeB.cnt + 1 ∧
        ((idxA' = idxA + 1 ∧ l' = l ∧ idxB ≤ idxB') ∨
          (idxA' = idxA ∧ l' = a :: l ∧ idxB < idxB')) ∧
        overlap (a :: l) ((gaps 0 physAddrMax typeB.list).drop idxB) =
          (it.outStart, it.outEnd) :: overlap l' ((gaps 0 physAddrMax typeB.list).drop idxB')
    | .inr idxB' => idxB ≤ idxB' ∧ idxB' ≤ typeB.cnt + 1 ∧
        overlap (a :: l) ((gaps 0 physAddrMax typeB.list).drop idxB) =
          overlap l ((gaps 0 physAddrMax typeB.list).drop idxB') := by
  induction rem generalizing idxB with
  | zero =>
    have hnil : (gaps 0 physAddrMax typeB.list).drop idxB = [] := by
      rw [List.drop_eq_nil_iff, length_gaps, length_list]
      omega
    simp only [nextGap, hnil, overlap_nil_right]
    exact ⟨le_rfl, by omega, trivial⟩
  | succ rem ih =>
    have hdrop := drop_gaps hfit physAddrMax (i := idxB) (by omega)
    simp only [nextGap]
    generalize (if idxB ≠ 0 then u64 ((typeB.regions (idxB - 1)).base +
      (typeB.regions (idxB - 1)).size) else 0) = rStart at hdrop ⊢
    generalize (if idxB < typeB.cnt then (typeB.regions idxB).base else physAddrMax) = rEnd
      at hdrop ⊢
    rw [hdrop, overlap]
    by_cases h1 : a.2 ≤ rStart
    · rw [if_pos h1, if_pos h1, ← hdrop]
      exact ⟨le_rfl, by omega, rfl⟩
    rw [if_neg h1, if_neg h1]
    by_cases h2 : a.1 < rEnd
    · rw [if_pos h2, if_pos h2]
      by_cases h3 : a.2 ≤ rEnd
      · simp only [if_pos h3]
        exact ⟨idxA + 1, l, idxB, rfl, by omega, Or.inl ⟨rfl, rfl, le_rfl⟩, by rw [hdrop]⟩
      · simp only [if_neg h3]
        exact ⟨idxA, a :: l, idxB + 1, rfl, by omega, Or.inr ⟨rfl, rfl, by omega⟩, rfl⟩
    · rw [if_neg h2, if_neg h2]
      have h := ih (idxB + 1) (by omega)
      generalize nextGap typeB physAddrMax a.1 a.2 idxA rem (idxB + 1) = r at h ⊢
      cases r with
      | inl it =>
        obtain ⟨idxA', l', idxB', hidx, hle, hcases, heq⟩ := h
        refine ⟨idxA', l', idxB', hidx, hle, ?_, heq⟩
        rcases hcases with ⟨hA, hl, hB⟩ | ⟨hA, hl, hB⟩
        · exact Or.inl ⟨hA, hl, by omega⟩
        · exact Or.inr ⟨hA, hl, by omega⟩
      | inr idxB' => exact ⟨by omega, h.2.1, h.2.2⟩

/-- The outer loop: nothing is left and nothing changes, or the first range that is left comes out. -/
theorem nextMemRangeLoop_freeFrom {mb : State} (h : Normalised mb) (rem idxA idxB : ℕ)
    (hrem : rem + idxA = mb.memory.cnt) (hB : idxB ≤ mb.reserved.cnt + 1) (it : RangeIter) :
    (mb.freeFrom idxA idxB = [] ∧
      nextMemRangeLoop mb.memory mb.reserved mb.physAddrMax rem idxA idxB it = it) ∨
    ∃ p idxA' idxB', mb.freeFrom idxA idxB = p :: mb.freeFrom idxA' idxB' ∧
      idxA' ≤ mb.memory.cnt ∧ idxB' ≤ mb.reserved.cnt + 1 ∧ idxA + idxB < idxA' + idxB' ∧
      nextMemRangeLoop mb.memory mb.reserved mb.physAddrMax rem idxA idxB it =
        ⟨rangeIdx idxA' idxB', p.1, p.2⟩ := by
  induction rem generalizing idxA idxB with
  | zero =>
    refine Or.inl ⟨?_, rfl⟩
    have hnil : (ends mb.memory.list).drop idxA = [] := by
      rw [List.drop_eq_nil_iff, ends, List.length_map, length_list]
      omega
    rw [State.freeFrom, hnil, overlap_nil_left]
  | succ rem ih =>
    have hlt : idxA < mb.memory.list.length := by rw [length_list]; omega
    have hm := getElem_list (t := mb.memory) rfl idxA hlt
    have hstop : u64 ((mb.memory.regions idxA).base + (mb.memory.regions idxA).size) =
        (mb.memory.regions idxA).stop := by
      rw [hm]
      exact u64_eq (h.memory_fits _ (List.getElem_mem hlt))
    have hdrop : (ends mb.memory.list).drop idxA =
        ((mb.memory.regions idxA).base, (mb.memory.regions idxA).stop) ::
          (ends mb.memory.list).drop (idxA + 1) := by
      rw [List.drop_eq_getElem_cons (by rwa [ends, List.length_map]), hm]
      simp only [ends, List.getElem_map]
    have hgap := nextGap_overlap h.fits mb.physAddrMax
      ((mb.memory.regions idxA).base, (mb.memory.regions idxA).stop)
      ((ends mb.memory.list).drop (idxA + 1)) idxA (mb.reserved.cnt + 1 - idxB) idxB (by omega)
    simp only [nextMemRangeLoop, hstop, State.freeFrom, hdrop]
    dsimp only at hgap
    generalize nextGap mb.reserved mb.physAddrMax _ _ idxA _ idxB = r at hgap ⊢
    cases r with
    | inl it' =>
      obtain ⟨idxA', l', idxB', hidx, hle, hcases, heq⟩ := hgap
      refine Or.inr ⟨(it'.outStart, it'.outEnd), idxA', idxB', ?_, ?_, hle, ?_, ?_⟩
      · rw [heq]
        rcases hcases with ⟨rfl, rfl, -⟩ | ⟨rfl, rfl, -⟩
        · rfl
        · rw [hdrop]
      · omega
      · omega
      · rw [← hidx]
    | inr idxB' =>
      obtain ⟨hle, hle', heq⟩ := hgap
      rw [heq]
      rcases ih (idxA + 1) idxB' (by omega) hle' with hnone | ⟨p, a, b, hp, ha, hb, hlt', hres⟩
      · exact Or.inl hnone
      · exact Or.inr ⟨p, a, b, hp, ha, hb, by omega, hres⟩

/-- `__next_mem_range` gives the first range from its indices on, or changes nothing if none is
    left. -/
theorem nextMemRange_spec {mb : State} (h : Normalised mb) {idxA idxB : ℕ}
    (hA : idxA ≤ mb.memory.cnt) (hB : idxB ≤ mb.reserved.cnt + 1) (it : RangeIter)
    (hidx : it.idx = rangeIdx idxA idxB) :
    (mb.freeFrom idxA idxB = [] ∧ nextMemRange mb.memory mb.reserved mb.physAddrMax it = it) ∨
    ∃ p idxA' idxB', mb.freeFrom idxA idxB = p :: mb.freeFrom idxA' idxB' ∧
      idxA' ≤ mb.memory.cnt ∧ idxB' ≤ mb.reserved.cnt + 1 ∧ idxA + idxB < idxA' + idxB' ∧
      nextMemRange mb.memory mb.reserved mb.physAddrMax it =
        ⟨rangeIdx idxA' idxB', p.1, p.2⟩ := by
  have hcnt := h.memory_cnt
  simp only [nextMemRange, hidx, rangeIdx_and, rangeIdx_shiftRight]
  rw [Nat.mod_eq_of_lt (by omega)]
  exact nextMemRangeLoop_freeFrom h _ idxA idxB (by omega) hB it

/-! ## The ranges -/

/-- The shape of a list that the invariant allows. -/
theorem ascending_of_shape {l : List Region} (h : l = [⟨0, 0⟩] ∨ Normal l) (hi : ℕ) :
    Ascending (ends l) ∧ Ascending (gaps 0 hi l) := by
  rcases h with rfl | h
  · simp [ends, gaps, Ascending, Span.stop]
  · exact ⟨ends_ascending h, gaps_ascending h fun s _ => Nat.zero_le _⟩

/-- The free ranges hold what memory covers and no reservation does. -/
theorem holds_freeRanges {mb : State} (h : Normalised mb) (x : ℕ) :
    Holds mb.freeRanges x ↔ Covers mb.memory.list x ∧ ¬ Covers mb.reserved.list x := by
  rw [State.freeRanges, State.freeFrom, List.drop_zero, List.drop_zero,
    mem_overlap_iff (ascending_of_shape h.memory 0).1 (ascending_of_shape h.reserved _).2,
    holds_ends]
  refine and_congr_right ?_
  rintro ⟨s, hs, hx⟩
  have hmax : x < mb.physAddrMax := hx.2.trans_le (h.memory_le s hs)
  rcases h.reserved with hd | hn
  · rw [hd]
    simp [gaps, Span.stop, mem_def, hmax]
  · simp [mem_gaps_iff hn.sorted (fun s _ => Nat.zero_le s.base) hmax]

/-- Something lies between any two free ranges. -/
theorem freeRanges_apart {mb : State} (h : Normalised mb) :
    mb.freeRanges.Pairwise fun p q => p.2 < q.1 :=
  overlap_ascending (ascending_of_shape h.memory 0).1 (ascending_of_shape h.reserved _).2

theorem freeRanges_nonempty {mb : State} (h : Normalised mb) {p : ℕ × ℕ} (hp : p ∈ mb.freeRanges) :
    p.1 < p.2 := by
  refine overlap_nonempty (fun a ha b hb h1 h2 => ⟨?_, ?_⟩) hp
  · rw [List.drop_zero] at ha
    obtain ⟨s, hs, rfl⟩ := List.mem_map.mp ha
    rcases h.memory with hd | hn
    · -- the dummy ends at address 0
      rw [hd, List.mem_singleton] at hs
      subst hs
      exact absurd h1 (Nat.not_lt_zero _)
    · exact Nat.lt_add_of_pos_right (hn.pos s hs)
  · have hmax : a.2 ≤ mb.physAddrMax := by
      rw [List.drop_zero] at ha
      obtain ⟨s, hs, rfl⟩ := List.mem_map.mp ha
      exact h.memory_le s hs
    have hlast : b.2 = mb.physAddrMax → b.1 < b.2 := fun heq => heq ▸ h1.trans_le hmax
    rw [List.drop_zero] at hb
    rcases h.reserved with hd | hn
    · rw [hd] at hb
      rcases List.mem_cons.mp hb with rfl | hb
      · exact absurd h2 (Nat.not_lt_zero _)
      · rw [List.mem_singleton.mp hb] at hlast ⊢
        exact hlast rfl
    · cases hl : mb.reserved.list with
      | nil =>
        rw [hl] at hb
        rw [List.mem_singleton.mp hb] at hlast ⊢
        exact hlast rfl
      | cons s l =>
        rw [hl] at hb hn
        rcases List.mem_cons.mp hb with rfl | hb
        · exact (Nat.zero_le _).trans_lt h2
        · obtain ⟨-, hafter, hnl⟩ := normal_cons.mp hn
          exact (nonempty_of_mem_gaps hnl hafter hb).elim id hlast

/-! ## The enumeration -/

/-- The ranges that repeated calls of `__next_mem_range` give, up to the first call that leaves the
    index unchanged. -/
inductive Enumerates (mb : State) : RangeIter → List (ℕ × ℕ) → Prop
  | done {it : RangeIter}
      (hidx : (nextMemRange mb.memory mb.reserved mb.physAddrMax it).idx = it.idx) :
      Enumerates mb it []
  | more {it it' : RangeIter} {l : List (ℕ × ℕ)}
      (hnext : nextMemRange mb.memory mb.reserved mb.physAddrMax it = it') (hidx : it'.idx ≠ it.idx)
      (hrest : Enumerates mb it' l) : Enumerates mb it ((it'.outStart, it'.outEnd) :: l)

theorem enumerates_freeFrom {mb : State} (h : Normalised mb) {idxA idxB : ℕ}
    (hA : idxA ≤ mb.memory.cnt) (hB : idxB ≤ mb.reserved.cnt + 1) {it : RangeIter}
    (hidx : it.idx = rangeIdx idxA idxB) : Enumerates mb it (mb.freeFrom idxA idxB) := by
  induction hlen : mb.freeFrom idxA idxB generalizing idxA idxB it with
  | nil =>
    rcases nextMemRange_spec h hA hB _ hidx with ⟨-, heq⟩ | ⟨p, a, b, hp, -⟩
    · exact .done (by rw [heq])
    · rw [hlen] at hp
      cases hp
  | cons p l ih =>
    rcases nextMemRange_spec h hA hB _ hidx with ⟨hnil, -⟩ | ⟨q, a, b, hq, ha, hb, hlt, heq⟩
    · rw [hlen] at hnil
      cases hnil
    · rw [hlen] at hq
      obtain ⟨rfl, hl⟩ := List.cons.inj hq
      have hne : rangeIdx a b ≠ it.idx := by
        intro hcon
        have hcnt := h.memory_cnt
        have := rangeIdx_inj (by omega) (by omega) (hcon.trans hidx)
        omega
      exact .more heq hne (ih ha hb rfl hl.symm)

theorem Enumerates.unique {mb : State} {it : RangeIter} {l l' : List (ℕ × ℕ)}
    (h : Enumerates mb it l) (h' : Enumerates mb it l') : l = l' := by
  induction h generalizing l' with
  | done hidx =>
    cases h' with
    | done _ => rfl
    | more hnext' hidx' _ => exact absurd (hnext' ▸ hidx) hidx'
  | more hnext hidx _ ih =>
    cases h' with
    | done hidx' => exact absurd (hnext ▸ hidx') hidx
    | more hnext' _ hrest' =>
      obtain rfl := hnext.symm.trans hnext'
      rw [ih hrest']

/-- Repeated calls of `__next_mem_range` from index 0 give non-empty ranges in increasing order,
    apart from each other, which hold exactly the memory that is not reserved. -/
theorem enumerates_iff {mb : State} (h : Normalised mb) (outStart outEnd : ℕ) :
    ∃ l, (∀ l', Enumerates mb ⟨0, outStart, outEnd⟩ l' ↔ l' = l) ∧ (∀ p ∈ l, p.1 < p.2) ∧
      (l.Pairwise fun p q => p.2 < q.1) ∧
      ∀ x, (∃ p ∈ l, p.1 ≤ x ∧ x < p.2) ↔
        Covers mb.memory.list x ∧ ¬ Covers mb.reserved.list x := by
  have hrun : Enumerates mb ⟨0, outStart, outEnd⟩ mb.freeRanges :=
    enumerates_freeFrom h (Nat.zero_le _) (Nat.zero_le _) (by simp [rangeIdx])
  refine ⟨mb.freeRanges, fun l' => ⟨fun hl' => hl'.unique hrun, ?_⟩,
    fun _ => freeRanges_nonempty h, freeRanges_apart h, holds_freeRanges h⟩
  rintro rfl
  exact hrun

/-- Two banks of memory. The first reservation lies in the first bank, the second one covers the end
    of the first bank and the start of the second, and the third one starts behind all memory. -/
def twoBanks : State where
  currentLimit := 0x1000
  physAddrMax := 0x1000
  memory := ⟨2, 32, 0xc00, fun i => [⟨0, 0x600⟩, ⟨0xa00, 0x600⟩].getD i ⟨0, 0⟩⟩
  reserved := ⟨3, 32, 0x900, fun i =>
    [⟨0x100, 0x100⟩, ⟨0x500, 0x600⟩, ⟨0x1200, 0x200⟩].getD i ⟨0, 0⟩⟩

theorem twoBanks_normalised : Normalised twoBanks where
  memory := Or.inr ⟨by decide, by decide⟩
  reserved := Or.inr ⟨by decide, by decide⟩
  memory_le := by decide
  max_lt := by decide
  fits := show ∀ s ∈ twoBanks.reserved.list, s.stop < 2 ^ 64 by decide
  memory_cnt := by decide
  reserved_cnt := by decide

theorem enumerates_iff_twoBanks : Normalised twoBanks ∧
    ∃ l, (∀ l', Enumerates twoBanks ⟨0, 0, 0⟩ l' ↔ l' = l) ∧ (∀ p ∈ l, p.1 < p.2) ∧
      (l.Pairwise fun p q => p.2 < q.1) ∧
      ∀ x, (∃ p ∈ l, p.1 ≤ x ∧ x < p.2) ↔
        Covers twoBanks.memory.list x ∧ ¬ Covers twoBanks.reserved.list x :=
  ⟨twoBanks_normalised, enumerates_iff twoBanks_normalised 0 0⟩

example : twoBanks.freeRanges = [(0, 0x100), (0x200, 0x500), (0xb00, 0x1000)] := by
  simp [State.freeRanges, State.freeFrom, twoBanks, MemblockType.list, List.range_succ, ends, gaps,
    overlap, Span.stop]

end RaspiKernel.Memblock
