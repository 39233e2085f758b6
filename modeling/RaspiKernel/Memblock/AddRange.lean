import RaspiKernel.Lib.Bits
import RaspiKernel.Memblock.Basic

/-!
# memblock: the region list

The array of a `memblock_type` against sorted lists of spans: the insertion loop
is `Span.fill` and the merge loop is `Span.coalesce`.

Results:
* `pass_insert`, `pass_count`: the two rounds of `memblock_add_range`.
* `mergeRegions_spec`
* `addRange_spec`: one call adds exactly its range.
* `run_regions`: every sequence of calls keeps the list normalised.
-/

namespace RaspiKernel.Memblock

open Lib Lib.Span

/-! ## The array as a list -/

@[simp] theorem length_list (t : MemblockType) : t.list.length = t.cnt := by
  simp [MemblockType.list]

theorem getElem_list {t : MemblockType} {L : List Region} (h : t.list = L) (i : ℕ)
    (hi : i < L.length) : t.regions i = L[i] := by
  subst h
  simp [MemblockType.list]

theorem list_eq {t : MemblockType} {L : List Region} (hcnt : t.cnt = L.length)
    (h : ∀ i, ∀ hi : i < L.length, t.regions i = L[i]) : t.list = L := by
  apply List.ext_getElem (by simpa using hcnt)
  intro i _ hi
  rw [← h i hi]
  simp [MemblockType.list]

theorem cnt_of_list {t : MemblockType} {P S : List Region} (h : t.list = P ++ S) :
    t.cnt = P.length + S.length := by rw [← length_list, h, List.length_append]

theorem regions_of_list {t : MemblockType} {P S : List Region} {s : Region}
    (h : t.list = P ++ s :: S) : t.regions P.length = s := by
  rw [getElem_list h P.length (by simp)]
  simp

theorem moveRegions_up (r : ℕ → Region) (idx n j : ℕ) :
    moveRegions r (idx + 1) idx n j = if idx < j ∧ j ≤ idx + n then r (j - 1) else r j := by
  unfold moveRegions
  by_cases h : idx < j ∧ j ≤ idx + n
  · rw [if_pos (by omega), if_pos h]; congr 1; omega
  · rw [if_neg (by omega), if_neg h]

theorem moveRegions_down (r : ℕ → Region) (idx n j : ℕ) :
    moveRegions r idx (idx + 1) n j = if idx ≤ j ∧ j < idx + n then r (j + 1) else r j := by
  unfold moveRegions
  split_ifs with h
  · congr 1; omega
  · rfl

/-- `memblock_insert_region` inserts at `idx`. -/
theorem list_insertRegion {t : MemblockType} {P S : List Region} (h : t.list = P ++ S)
    (base size : ℕ) : (insertRegion t P.length base size).list = P ++ ⟨base, size⟩ :: S := by
  have hcnt := cnt_of_list h
  apply list_eq (by simp only [insertRegion, List.length_append, List.length_cons]; omega)
  intro i hi
  simp only [List.length_append, List.length_cons] at hi
  have hold := getElem_list h
  simp only [insertRegion]
  rcases lt_trichotomy i P.length with hlt | rfl | hgt
  · rw [Function.update_of_ne (by omega), moveRegions_up, if_neg (by omega),
      hold i (by simp; omega), List.getElem_append_left hlt, List.getElem_append_left hlt]
  · simp
  · rw [Function.update_of_ne (by omega), moveRegions_up, if_pos (by omega),
      hold (i - 1) (by simp; omega), List.getElem_append_right (by omega),
      List.getElem_append_right (by omega), List.getElem_cons, dif_neg (by omega)]
    congr 1; omega

/-! ## The insertion loop -/

/-- `t'` comes from `t` by inserting regions: only slots below the new `cnt` are written, and
    `total_size` follows. -/
structure Grows (t t' : MemblockType) : Prop where
  max_eq : t'.max = t.max
  cnt_le : t.cnt ≤ t'.cnt
  frame : ∀ j, t'.cnt ≤ j → t'.regions j = t.regions j
  total : t.totalSize = u64 (total t.list) → t'.totalSize = u64 (total t'.list)

theorem Grows.refl (t : MemblockType) : Grows t t :=
  ⟨rfl, le_rfl, fun _ _ => rfl, fun h => h⟩

theorem Grows.trans {t t' t'' : MemblockType} (h : Grows t t') (h' : Grows t' t'') :
    Grows t t'' where
  max_eq := h'.max_eq.trans h.max_eq
  cnt_le := h.cnt_le.trans h'.cnt_le
  frame j hj := (h'.frame j hj).trans (h.frame j (h'.cnt_le.trans hj))
  total ht := h'.total (h.total ht)

theorem grows_insertRegion {t : MemblockType} {P S : List Region} (h : t.list = P ++ S)
    (base size : ℕ) : Grows t (insertRegion t P.length base size) where
  max_eq := rfl
  cnt_le := Nat.le_succ _
  frame j hj := by
    have hcnt := cnt_of_list h
    simp only [insertRegion] at hj ⊢
    rw [Function.update_of_ne (by omega), moveRegions_up, if_neg (by omega)]
  total ht := by
    rw [list_insertRegion h]
    simp only [insertRegion, ht, h, total_append, total_cons, u64]
    omega

/-- No span of the list reaches `2 ^ 64`. -/
def Fits (l : List Region) : Prop := ∀ s ∈ l, s.stop < 2 ^ 64

theorem Fits.tail {s : Region} {l : List Region} (h : Fits (s :: l)) : Fits l :=
  fun t ht => h t (List.mem_cons_of_mem _ ht)

/-- The inserting round: what the loop leaves, with the remaining portion, is `fill`. -/
theorem scanLoop_insert (stop : ℕ) (S : List Region) (P : List Region) (st : Scan)
    (hlist : st.type.list = P ++ S) (hidx : st.idx = P.length) (hfit : Fits S) :
    let r := (scanLoop true stop S.length st).addRest true stop
    r.type.list = P ++ fill st.base stop S ∧ Grows st.type r.type ∧
      r.nrNew + S.length = st.nrNew + (fill st.base stop S).length := by
  induction S generalizing P st with
  | nil =>
    simp only [List.length_nil, scanLoop, Scan.addRest, fill]
    split_ifs with hlt
    · simp only [Scan.addNew, if_true, hidx]
      exact ⟨list_insertRegion hlist _ _, grows_insertRegion hlist _ _, rfl⟩
    · exact ⟨hlist, Grows.refl _, rfl⟩
  | cons s S ih =>
    have hs : st.type.regions st.idx = s := by rw [hidx]; exact regions_of_list hlist
    have hend : u64 (s.base + s.size) = s.stop := u64_eq (hfit s List.mem_cons_self)
    simp only [List.length_cons, scanLoop, hs, hend, fill, ge_iff_le]
    by_cases h1 : stop ≤ s.base
    · simp only [if_pos h1, Scan.addRest]
      split_ifs with hlt
      · simp only [Scan.addNew, if_true, hidx]
        refine ⟨list_insertRegion hlist _ _, grows_insertRegion hlist _ _, ?_⟩
        simp only [List.length_cons]; omega
      · exact ⟨hlist, Grows.refl _, rfl⟩
    · simp only [if_neg h1]
      by_cases h2 : s.stop ≤ st.base
      · simp only [if_pos h2]
        obtain ⟨hl, hg, hn⟩ := ih (P ++ [s]) { st with idx := st.idx + 1 } (by simpa using hlist)
          (by simp [hidx]) hfit.tail
        refine ⟨by simpa using hl, hg, ?_⟩
        simp only [List.length_cons] at hn ⊢; omega
      · simp only [if_neg h2]
        by_cases h3 : st.base < s.base
        · simp only [if_pos h3, gt_iff_lt, if_true, Scan.addNew]
          have hl' := list_insertRegion hlist st.base (s.base - st.base)
          have hg' := grows_insertRegion hlist st.base (s.base - st.base)
          rw [← hidx] at hl' hg'
          obtain ⟨hl, hg, hn⟩ := ih (P ++ [⟨st.base, s.base - st.base⟩, s])
            { idx := st.idx + 1 + 1, base := min s.stop stop, nrNew := st.nrNew + 1,
              type := insertRegion st.type st.idx st.base (s.base - st.base) }
            (by simpa using hl') (by simp [hidx]) hfit.tail
          refine ⟨by simpa using hl, hg'.trans hg, ?_⟩
          simp only [List.length_cons] at hn ⊢; omega
        · simp only [if_neg h3, gt_iff_lt]
          obtain ⟨hl, hg, hn⟩ := ih (P ++ [s])
            { st with base := min s.stop stop, idx := st.idx + 1 } (by simpa using hlist)
            (by simp [hidx]) hfit.tail
          refine ⟨by simpa using hl, hg, ?_⟩
          simp only [List.length_cons] at hn ⊢; omega

/-- The counting round changes nothing and counts what the inserting round adds. -/
theorem scanLoop_count (stop : ℕ) (S : List Region) (P : List Region) (st : Scan)
    (hlist : st.type.list = P ++ S) (hidx : st.idx = P.length) (hfit : Fits S) :
    let r := (scanLoop false stop S.length st).addRest false stop
    r.type = st.type ∧ r.nrNew + S.length = st.nrNew + (fill st.base stop S).length := by
  induction S generalizing P st with
  | nil =>
    simp only [List.length_nil, scanLoop, Scan.addRest, fill]
    split_ifs with hlt
    · simp [Scan.addNew]
    · simp
  | cons s S ih =>
    have hs : st.type.regions st.idx = s := by rw [hidx]; exact regions_of_list hlist
    have hend : u64 (s.base + s.size) = s.stop := u64_eq (hfit s List.mem_cons_self)
    -- the three ways into the next round differ in `base` and `nr_new` only
    have hnext : ∀ base nrNew,
        let r := (scanLoop false stop S.length
          { idx := st.idx + 1, base := base, nrNew := nrNew, type := st.type }).addRest false stop
        r.type = st.type ∧ r.nrNew + S.length = nrNew + (fill base stop S).length :=
      fun base nrNew => ih (P ++ [s]) ⟨st.idx + 1, base, nrNew, st.type⟩ (by simpa using hlist)
        (by simp [hidx]) hfit.tail
    simp only [List.length_cons, scanLoop, hs, hend, fill, ge_iff_le]
    by_cases h1 : stop ≤ s.base
    · simp only [if_pos h1, Scan.addRest]
      split_ifs with hlt
      · simp only [Scan.addNew, List.length_cons]
        exact ⟨rfl, by omega⟩
      · exact ⟨rfl, rfl⟩
    · simp only [if_neg h1]
      by_cases h2 : s.stop ≤ st.base
      · simp only [if_pos h2]
        obtain ⟨ht, hn⟩ := hnext st.base st.nrNew
        refine ⟨ht, ?_⟩
        simp only [List.length_cons] at hn ⊢; omega
      · simp only [if_neg h2]
        by_cases h3 : st.base < s.base
        · simp only [if_pos h3, gt_iff_lt, Scan.addNew]
          obtain ⟨ht, hn⟩ := hnext (min s.stop stop) (st.nrNew + 1)
          refine ⟨ht, ?_⟩
          simp only [List.length_cons] at hn ⊢
          simp at hn ⊢; omega
        · simp only [if_neg h3, gt_iff_lt]
          obtain ⟨ht, hn⟩ := hnext (min s.stop stop) st.nrNew
          refine ⟨ht, ?_⟩
          simp only [List.length_cons] at hn ⊢; omega

theorem pass_insert {t : MemblockType} (hfit : Fits t.list) (base stop : ℕ) :
    (pass true t base stop).2.list = fill base stop t.list ∧
      Grows t (pass true t base stop).2 ∧
      (pass true t base stop).1 + t.cnt = (fill base stop t.list).length := by
  have h := scanLoop_insert stop t.list [] ⟨0, base, 0, t⟩ rfl rfl hfit
  rw [length_list] at h
  simpa [pass] using h

theorem pass_count {t : MemblockType} (hfit : Fits t.list) (base stop : ℕ) :
    (pass false t base stop).2 = t ∧
      (pass false t base stop).1 + t.cnt = (fill base stop t.list).length := by
  have h := scanLoop_count stop t.list [] ⟨0, base, 0, t⟩ rfl rfl hfit
  rw [length_list] at h
  simpa [pass] using h

/-! ## The merge loop -/

/-- Joining slot `i` with its successor. -/
theorem list_merge {t : MemblockType} {P S : List Region} {s u : Region}
    (h : t.list = P ++ s :: u :: S) (v : Region) :
    MemblockType.list { t with
      regions := moveRegions (Function.update t.regions P.length v) (P.length + 1) (P.length + 2)
        (t.cnt - (P.length + 2))
      cnt := t.cnt - 1 } = P ++ v :: S := by
  have hcnt := cnt_of_list h
  simp only [List.length_cons] at hcnt
  apply list_eq (by simp only [List.length_append, List.length_cons]; omega)
  intro i hi
  simp only [List.length_append, List.length_cons] at hi
  have hold := getElem_list h
  simp only [moveRegions_down]
  rcases lt_trichotomy i P.length with hlt | rfl | hgt
  · rw [if_neg (by omega), Function.update_of_ne (by omega), hold i (by simp; omega),
      List.getElem_append_left hlt, List.getElem_append_left hlt]
  · rw [if_neg (by omega), Function.update_self]
    simp
  · rw [if_pos (by omega), Function.update_of_ne (by omega), hold (i + 1) (by simp; omega),
      List.getElem_append_right (by omega), List.getElem_append_right (by omega),
      List.getElem_cons, dif_neg (by omega), List.getElem_cons, dif_neg (by omega),
      List.getElem_cons, dif_neg (by omega)]
    congr 1; omega

/-- `t'` comes from `t` by joining regions: no slot from `cnt` on is written. -/
structure Shrinks (t t' : MemblockType) : Prop where
  max_eq : t'.max = t.max
  cnt_le : t'.cnt ≤ t.cnt
  frame : ∀ j, t.cnt ≤ j → t'.regions j = t.regions j
  total_eq : t'.totalSize = t.totalSize

theorem Shrinks.trans {t t' t'' : MemblockType} (h : Shrinks t t') (h' : Shrinks t' t'') :
    Shrinks t t'' where
  max_eq := h'.max_eq.trans h.max_eq
  cnt_le := h'.cnt_le.trans h.cnt_le
  frame j hj := (h'.frame j (h.cnt_le.trans hj)).trans (h.frame j hj)
  total_eq := h'.total_eq.trans h.total_eq

/-- What merging makes of the regions from `s` on, whatever they are. -/
def mergeList : Region → List Region → List Region
  | s, [] => [s]
  | s, u :: S =>
    if u64 (s.base + s.size) ≠ u.base then s :: mergeList u S
    else mergeList ⟨s.base, u64 (s.size + u.size)⟩ S

theorem mergeLoop_list (S : List Region) (P : List Region) (s : Region) (t : MemblockType)
    (hlist : t.list = P ++ s :: S) : (mergeLoop S.length P.length t).list = P ++ mergeList s S := by
  induction S generalizing P s t with
  | nil => exact hlist
  | cons u S ih =>
    have hs : t.regions P.length = s := regions_of_list hlist
    have hu : t.regions (P.length + 1) = u := by
      simpa using regions_of_list (P := P ++ [s]) (by simpa using hlist)
    simp only [List.length_cons, mergeLoop, hs, hu, mergeList]
    by_cases hne : u64 (s.base + s.size) ≠ u.base
    · rw [if_pos hne, if_pos hne]
      have h := ih (P ++ [s]) u t (by simpa using hlist)
      rw [List.length_append, List.length_singleton] at h
      simpa using h
    · rw [if_neg hne, if_neg hne]
      exact ih P _ _ (list_merge hlist ⟨s.base, u64 (s.size + u.size)⟩)

/-- Where two regions that fit are joined, their sizes add up without wrapping. -/
theorem fits_join {s u : Region} {S : List Region} (h : Fits (s :: u :: S)) (heq : s.stop = u.base) :
    Fits (⟨s.base, s.size + u.size⟩ :: S) := by
  intro v hv
  rcases List.mem_cons.mp hv with rfl | hv
  · have hu := h u (by simp)
    simp only [Span.stop] at hu heq ⊢
    omega
  · exact h v (by simp [hv])

theorem mergeList_eq_coalesce {s : Region} {S : List Region} (h : Fits (s :: S)) :
    mergeList s S = coalesce s S := by
  induction S generalizing s with
  | nil => rfl
  | cons u S ih =>
    have hend : u64 (s.base + s.size) = s.stop := u64_eq (h s List.mem_cons_self)
    rw [mergeList, coalesce, hend]
    by_cases hne : s.stop ≠ u.base
    · rw [if_pos hne, if_pos hne, ih h.tail]
    · rw [if_neg hne, if_neg hne]
      have hjoin := fits_join h (not_not.mp hne)
      -- the joined region ends where `u` ends
      have hsize : u64 (s.size + u.size) = s.size + u.size := by
        apply u64_eq
        have hstop := hjoin _ List.mem_cons_self
        simp only [Span.stop] at hstop
        omega
      rw [hsize, ih hjoin]

theorem mergeLoop_shrinks (rem i : ℕ) (t : MemblockType) (hi : i + rem < t.cnt) :
    Shrinks t (mergeLoop rem i t) := by
  induction rem generalizing i t with
  | zero => exact ⟨rfl, le_rfl, fun _ _ => rfl, rfl⟩
  | succ rem ih =>
    rw [mergeLoop]
    dsimp only
    split_ifs
    · exact ih (i + 1) t (by omega)
    · refine Shrinks.trans ?_ (ih i _ ?_)
      · refine ⟨rfl, Nat.sub_le _ _, fun j hj => ?_, rfl⟩
        dsimp only
        rw [moveRegions_down, if_neg (by omega), Function.update_of_ne (by omega)]
      · dsimp only
        omega

theorem mergeRegions_spec {t : MemblockType} {s : Region} {S : List Region}
    (hlist : t.list = s :: S) (hfit : Fits t.list) :
    (mergeRegions t).list = coalesce s S ∧ Shrinks t (mergeRegions t) := by
  have hlen : t.cnt = S.length + 1 := by rw [← length_list, hlist]; rfl
  have hcnt : t.cnt - 1 = S.length := by omega
  unfold mergeRegions
  rw [hcnt]
  constructor
  · rw [← mergeList_eq_coalesce (hlist ▸ hfit)]
    exact mergeLoop_list S [] s t hlist
  · exact mergeLoop_shrinks S.length 0 t (by omega)

/-! ## One call -/

/-- The invariant of a `memblock_type` whose array is followed by the memory `g`. -/
structure TypeInv (g : ℕ → Region) (t : MemblockType) : Prop where
  cnt_pos : 1 ≤ t.cnt
  cnt_le : t.cnt ≤ t.max
  /-- The empty dummy, or a normalised list. -/
  shape : t.list = [⟨0, 0⟩] ∨ Normal t.list
  fits : Fits t.list
  total : t.totalSize = total t.list
  frame : ∀ j, t.max ≤ j → t.regions j = g j

theorem list_init {max : ℕ} (hmax : 1 ≤ max) (g : ℕ → Region) :
    (MemblockType.init max g).list = [⟨0, 0⟩] := by
  simp [MemblockType.list, MemblockType.init, List.range_succ, show 0 < max by omega]

theorem typeInv_init {max : ℕ} (hmax : 1 ≤ max) (g : ℕ → Region) :
    TypeInv g (MemblockType.init max g) := by
  have hl := list_init hmax g
  refine ⟨le_rfl, hmax, Or.inl hl, ?_, ?_, ?_⟩
  · rw [hl]; intro s hs; rw [List.mem_singleton] at hs; subst hs; decide
  · rw [hl]; rfl
  · intro j hj
    simp only [MemblockType.init] at hj ⊢
    rw [if_neg (by omega)]

/-- A list that fits and is sorted has a total below `2 ^ 64`. -/
theorem total_lt {l : List Region} (hs : Sorted l) (hfit : Fits l) : total l < 2 ^ 64 := by
  have h : 0 + total l ≤ 2 ^ 64 - 1 := hs.total_le (fun _ _ => Nat.zero_le _)
    (fun s hs => Nat.le_sub_one_of_lt (hfit s hs)) (Nat.zero_le _)
  omega

theorem fits_fill {base stop : ℕ} {l : List Region} (h : Fits l) (hstop : stop < 2 ^ 64) :
    Fits (fill base stop l) := by
  intro s hs
  rcases mem_fill hs with hs | hs
  · exact h s hs
  · omega

theorem fits_coalesce {s : Region} {l : List Region} (h : Fits (s :: l)) :
    Fits (coalesce s l) := by
  induction l generalizing s with
  | nil => exact h
  | cons u l ih =>
    rw [coalesce]
    split_ifs with hne
    · intro v hv
      rcases List.mem_cons.mp hv with rfl | hv
      · exact h v List.mem_cons_self
      · exact ih h.tail v hv
    · exact ih (fits_join h (not_not.mp hne))

/-- A round that inserts, followed by the merge. -/
theorem insert_merge_spec {g : ℕ → Region} {t : MemblockType} (hinv : TypeInv g t)
    (hn : Normal t.list) {base stop : ℕ} (hstop : stop < 2 ^ 64)
    (hroom : (fill base stop t.list).length ≤ t.max) :
    let t' := mergeRegions (pass true t base stop).2
    TypeInv g t' ∧ t'.max = t.max ∧
      ∀ x, Covers t'.list x ↔ Covers t.list x ∨ (base ≤ x ∧ x < stop) := by
  obtain ⟨hl, hg, -⟩ := pass_insert hinv.fits base stop
  set u := (pass true t base stop).2 with hu
  have hfit : Fits u.list := hl ▸ fits_fill hinv.fits hstop
  have hsorted : Sorted u.list := hl ▸ fill_sorted hn.sorted
  have hlen : u.cnt = (fill base stop t.list).length := by rw [← hl, length_list]
  obtain ⟨s, S, hsS⟩ : ∃ s S, u.list = s :: S := by
    apply List.exists_cons_of_length_pos
    rw [length_list]
    exact lt_of_lt_of_le hinv.cnt_pos hg.cnt_le
  obtain ⟨hm, hsh⟩ := mergeRegions_spec hsS hfit
  have htot : u.totalSize = total u.list := by
    rw [hg.total (by rw [hinv.total, u64_eq (total_lt hn.sorted hinv.fits)]),
      u64_eq (total_lt hsorted hfit)]
  have hnormal : Normal (mergeRegions u).list := by
    rw [hm]; exact coalesce_normal (hsS ▸ hsorted)
  have hmax : (mergeRegions u).max = t.max := hsh.max_eq.trans hg.max_eq
  refine ⟨⟨?_, ?_, Or.inr hnormal, ?_, ?_, ?_⟩, hmax, ?_⟩
  · rw [← length_list, hm]; exact (length_coalesce_le s S).2
  · rw [hmax]; exact hsh.cnt_le.trans (hlen ▸ hroom)
  · rw [hm]; exact fits_coalesce (hsS ▸ hfit)
  · rw [hsh.total_eq, htot, hsS, hm, total_coalesce]
  · intro j hj
    rw [hmax] at hj
    rw [hsh.frame j (by omega), hg.frame j (by omega), hinv.frame j hj]
  · intro x
    rw [hm, covers_coalesce, ← hsS, hl, covers_fill]

/-- The first range takes the place of the dummy. -/
theorem first_range_spec {g : ℕ → Region} {t : MemblockType} (hinv : TypeInv g t)
    (hdummy : t.list = [⟨0, 0⟩]) {base size : ℕ} (hsize : size ≠ 0) (hwrap : base + size < 2 ^ 64) :
    let t' : MemblockType := { t with
      regions := Function.update t.regions 0 ⟨base, size⟩, totalSize := size }
    TypeInv g t' ∧ t'.list = [⟨base, size⟩] := by
  have hcnt : t.cnt = 1 := by rw [← length_list, hdummy]; rfl
  have hl : MemblockType.list { t with
      regions := Function.update t.regions 0 ⟨base, size⟩, totalSize := size } =
      [⟨base, size⟩] := by
    simp [MemblockType.list, hcnt, List.range_succ]
  refine ⟨⟨hinv.cnt_pos, hinv.cnt_le, Or.inr ?_, ?_, ?_, ?_⟩, hl⟩
  · rw [hl]
    exact ⟨by simpa using Nat.pos_of_ne_zero hsize, List.pairwise_singleton _ _⟩
  · rw [hl]
    intro s hs
    rw [List.mem_singleton] at hs
    exact hs ▸ hwrap
  · rw [hl]; simp
  · intro j hj
    have : 1 ≤ t.max := hinv.cnt_pos.trans hinv.cnt_le
    simp only at hj ⊢
    rw [Function.update_of_ne (by omega)]
    exact hinv.frame j hj

/-- A round that finds nothing new leaves the list as it is. -/
theorem nothing_new_spec {g : ℕ → Region} {t : MemblockType} (hinv : TypeInv g t)
    (hn : Normal t.list) {base stop : ℕ} (h0 : (pass true t base stop).1 = 0) :
    TypeInv g (pass true t base stop).2 ∧ (pass true t base stop).2.list = t.list := by
  obtain ⟨hl, hg, hlen⟩ := pass_insert hinv.fits base stop
  rw [h0, zero_add] at hlen
  rw [fill_eq_self (by rw [← hlen, length_list])] at hl
  set u := (pass true t base stop).2 with hu
  have hcnt : u.cnt = t.cnt := by rw [← length_list, hl, length_list]
  refine ⟨⟨hcnt ▸ hinv.cnt_pos, ?_, Or.inr (hl ▸ hn), hl ▸ hinv.fits, ?_, ?_⟩, hl⟩
  · rw [hcnt, hg.max_eq]; exact hinv.cnt_le
  · have hlt := u64_eq (total_lt hn.sorted hinv.fits)
    rw [hg.total (by rw [hinv.total, hlt]), hl, hlt]
  · intro j hj
    rw [hg.max_eq] at hj
    rw [hg.frame j (by have := hinv.cnt_le; omega), hinv.frame j hj]

/-- The ways a call on a list without the dummy comes back. -/
theorem addRange_cases {g : ℕ → Region} {t t' : MemblockType} (hinv : TypeInv g t)
    (hn : Normal t.list) {base size : ℕ} (hsize : size ≠ 0) (hwrap : base + size < 2 ^ 64)
    (h : addRange t base size = .ok t') :
    ((pass true t base (base + size)).1 = 0 ∧
        (t' = t ∨ t' = (pass true t base (base + size)).2)) ∨
      ((fill base (base + size) t.list).length ≤ t.max ∧
        t' = mergeRegions (pass true t base (base + size)).2) := by
  have hne : (t.regions 0).size ≠ 0 := by
    obtain ⟨s, S, hsS⟩ := List.exists_cons_of_length_pos
      (lt_of_lt_of_le hinv.cnt_pos (length_list t).ge)
    have h0 : t.regions 0 = s := regions_of_list (P := []) hsS
    rw [h0]
    exact (hn.pos s (by simp [hsS])).ne'
  obtain ⟨-, -, hn1⟩ := pass_insert hinv.fits base (base + size)
  obtain ⟨ht2, hn2⟩ := pass_count hinv.fits base (base + size)
  have hle := length_fill_le base (base + size) t.list
  rw [length_list] at hle
  simp only [addRange, u64_eq hwrap, if_neg hsize, if_neg hne] at h
  by_cases hins : t.cnt * 2 + 1 < t.max
  · simp only [hins, decide_true, if_true] at h
    split_ifs at h with h0
    · exact Or.inl ⟨h0, Or.inr (Except.ok.inj h).symm⟩
    · exact Or.inr ⟨by omega, (Except.ok.inj h).symm⟩
  · simp only [hins, decide_false, Bool.false_eq_true, if_false, ht2] at h
    split_ifs at h with h0 hfull h0'
    · exact Or.inl ⟨by omega, Or.inl (Except.ok.inj h).symm⟩
    · omega
    · exact Or.inr ⟨by omega, (Except.ok.inj h).symm⟩

/-- `memblock_add_range` adds exactly `[base, base + size)`. -/
theorem addRange_spec {g : ℕ → Region} {t t' : MemblockType} (hinv : TypeInv g t) {base size : ℕ}
    (hwrap : base + size < 2 ^ 64) (h : addRange t base size = .ok t') :
    TypeInv g t' ∧ t'.max = t.max ∧
      ∀ x, Covers t'.list x ↔ Covers t.list x ∨ (base ≤ x ∧ x < base + size) := by
  by_cases hsize : size = 0
  · simp only [addRange, if_pos hsize, Except.ok.injEq] at h
    subst h
    refine ⟨hinv, rfl, fun x => ⟨Or.inl, ?_⟩⟩
    rintro (h | h)
    · exact h
    · omega
  rcases hinv.shape with hdummy | hn
  · have h0 : t.regions 0 = ⟨0, 0⟩ := regions_of_list (P := []) hdummy
    simp only [addRange, if_neg hsize, h0, if_true, Except.ok.injEq] at h
    subst h
    obtain ⟨hinv', hl⟩ := first_range_spec hinv hdummy hsize hwrap
    refine ⟨hinv', rfl, fun x => ?_⟩
    rw [hl, hdummy]
    simp [mem_def, Span.stop]
  · rcases addRange_cases hinv hn hsize hwrap h with ⟨h0, ht⟩ | ⟨hroom, rfl⟩
    · obtain ⟨hl, hg, hlen⟩ := pass_insert hinv.fits base (base + size)
      have hsame := nothing_new_spec hinv hn h0
      have hcov : ∀ x, Covers t.list x ↔ Covers t.list x ∨ (base ≤ x ∧ x < base + size) := by
        intro x
        rw [← covers_fill, ← hl, hsame.2]
      rcases ht with rfl | rfl
      · exact ⟨hinv, rfl, hcov⟩
      · exact ⟨hsame.1, hg.max_eq, fun x => by rw [hsame.2]; exact hcov x⟩
    · exact insert_merge_spec hinv hn hwrap hroom

/-- `ALIGN(x, 8)` rounds up to a multiple of 8. -/
theorem align_eight {x : ℕ} (h : x + 7 < 2 ^ 64) : align x 8 = (x + 7) / 8 * 8 := by
  unfold align
  rw [show x + 8 - 1 = x + 7 by omega, u64_eq h]
  exact and_high_mask (k := 3) h (by norm_num)

/-! ## Sequences of calls -/

/-- A call on one `memblock_type`. -/
inductive Call where
  | addRange (base size : ℕ)
  | reserve (base size : ℕ)

def Call.exec (t : MemblockType) : Call → Except Stop MemblockType
  | .addRange base size => Memblock.addRange t base size
  | .reserve base size => Memblock.reserve t base size

/-- The range a call adds: `memblock_reserve` rounds its size up to 8. -/
def Call.range : Call → Span
  | .addRange base size => ⟨base, size⟩
  | .reserve base size => ⟨base, (size + 7) / 8 * 8⟩

theorem exec_spec {g : ℕ → Region} {t t' : MemblockType} (hinv : TypeInv g t) {c : Call}
    (hwrap : c.range.stop < 2 ^ 64) (h : c.exec t = .ok t') :
    TypeInv g t' ∧ t'.max = t.max ∧ ∀ x, Covers t'.list x ↔ Covers t.list x ∨ x ∈ c.range := by
  cases c with
  | addRange base size => exact addRange_spec hinv hwrap h
  | reserve base size =>
    simp only [Call.range, Span.stop] at hwrap
    simp only [Call.exec, reserve] at h
    rw [align_eight (by omega)] at h
    exact addRange_spec hinv hwrap h

/-- A sequence of calls. -/
def run (calls : List Call) (t : MemblockType) : Except Stop MemblockType := calls.foldlM Call.exec t

theorem run_spec {g : ℕ → Region} {t t' : MemblockType} (calls : List Call) (hinv : TypeInv g t)
    (hwrap : ∀ c ∈ calls, c.range.stop < 2 ^ 64) (h : run calls t = .ok t') :
    TypeInv g t' ∧ t'.max = t.max ∧
      ∀ x, Covers t'.list x ↔ Covers t.list x ∨ ∃ c ∈ calls, x ∈ c.range := by
  induction calls generalizing t with
  | nil =>
    obtain rfl : t = t' := Except.ok.inj h
    exact ⟨hinv, rfl, by simp⟩
  | cons c calls ih =>
    rw [run, List.foldlM_cons] at h
    cases hc : c.exec t with
    | error e => rw [hc] at h; cases h
    | ok t₁ =>
      rw [hc] at h
      obtain ⟨hinv₁, hmax₁, hcov₁⟩ := exec_spec hinv (hwrap c List.mem_cons_self) hc
      obtain ⟨hinv', hmax', hcov'⟩ := ih hinv₁ (fun d hd => hwrap d (List.mem_cons_of_mem _ hd)) h
      refine ⟨hinv', hmax'.trans hmax₁, fun x => ?_⟩
      simp only [hcov', hcov₁, List.exists_mem_cons_iff, or_assoc]

/-- Every sequence of `memblock_add_range` and `memblock_reserve` calls that comes back, from the
    initial state: the region list is the dummy or normalised, the array is not left, `total_size`
    is the sum of the sizes, and the regions cover exactly the added ranges. -/
theorem run_regions {max : ℕ} (hmax : 1 ≤ max) (g : ℕ → Region) (calls : List Call)
    (hwrap : ∀ c ∈ calls, c.range.stop < 2 ^ 64) {t : MemblockType}
    (h : run calls (MemblockType.init max g) = .ok t) :
    (t.list = [⟨0, 0⟩] ∨ Normal t.list) ∧ (1 ≤ t.cnt ∧ t.cnt ≤ max) ∧
      (∀ j, max ≤ j → t.regions j = g j) ∧ t.totalSize = (t.list.map Span.size).sum ∧
      ∀ x, Covers t.list x ↔ ∃ c ∈ calls, x ∈ c.range := by
  have hinit := typeInv_init hmax g
  obtain ⟨hinv, hm, hcov⟩ := run_spec calls hinit hwrap h
  rw [show (MemblockType.init max g).max = max from rfl] at hm
  refine ⟨hinv.shape, ⟨hinv.cnt_pos, hm ▸ hinv.cnt_le⟩, hm ▸ hinv.frame, hinv.total, fun x => ?_⟩
  -- the dummy covers nothing
  rw [hcov x, list_init hmax g, or_iff_right]
  simp [mem_def, Span.stop]

/-- Two apart, one bridging the gap, one rounded up and adjacent to it. -/
theorem run_regions_bridge :
    ∃ t, run [.addRange 0x1000 0x1000, .reserve 0x4000 0x1ffd, .addRange 0x1800 0x3000,
        .addRange 0x6000 8] (MemblockType.init 32 fun _ => ⟨1, 1⟩) = .ok t ∧
      t.list = [⟨0x1000, 0x5008⟩] ∧
      ((t.list = [⟨0, 0⟩] ∨ Normal t.list) ∧ (1 ≤ t.cnt ∧ t.cnt ≤ 32) ∧
        (∀ j, 32 ≤ j → t.regions j = ⟨1, 1⟩) ∧ t.totalSize = (t.list.map Span.size).sum ∧
        ∀ x, Covers t.list x ↔ ∃ c ∈ [Call.addRange 0x1000 0x1000, .reserve 0x4000 0x1ffd,
          .addRange 0x1800 0x3000, .addRange 0x6000 8], x ∈ c.range) :=
  ⟨_, rfl, by decide, run_regions (by decide) _ _ (by decide) rfl⟩

end RaspiKernel.Memblock
