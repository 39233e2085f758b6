import RaspiKernel.Lib.ByteMem
import RaspiKernel.Memblock.AddRange

/-!
# `memmove` and the region arrays

Model of `memmove` of `library/kernel.h` on the bytes of the memory, and of the two
functions of `src/memblock.c` that call it, on an array of `struct memblock_region`s in
that memory. `RawType.view` is the `memblock_type` of the other modules, whose
`moveRegions` moves whole slots.

* The addresses are naturals: no object reaches around the end of the address space.
* The arrays of the source have 32 slots. A length of 2^31 bytes, from which on `int i`
  overflows, is 2^27 slots.

Results:
* `memmove_eq`: the bytes after `memmove`, for all overlaps.
* `loadRegion_memmove`: on whole slots it is `moveRegions`.
* `insertRegion_view`, `mergeRegions_view`: the model of the slots is that of the bytes.
* `memmove_shifts`: what both functions make of the regions.
-/

namespace RaspiKernel.Memblock

open Lib

/-! ## The model -/

/-- `memmove` (lines 52–61). The first loop begins at `n - 1`, which is −1 as an `int` if `n` is 0. -/
def memmove (m : Mem) (dest src : ℕ) (n : UInt32) : Mem :=
  if src < dest then copyDown dest src ((n - 1).toBitVec.toInt + 1).toNat m
  else copyUp dest src n.toNat 0 m

/-- `sizeof(struct memblock_region)`. -/
abbrev sizeofRegion : ℕ := 16

/-- `*rgn`. -/
def loadRegion (m : Mem) (rgn : ℕ) : Region := ⟨load m rgn 8, load m (rgn + 8) 8⟩

/-- `struct memblock_type` and the memory that `regions` points to. -/
structure RawType where
  mem : Mem
  cnt : ℕ
  max : ℕ
  totalSize : ℕ
  regions : ℕ

/-- `&type->regions[i]`. -/
def RawType.rgn (t : RawType) (i : ℕ) : ℕ := t.regions + i * sizeofRegion

/-- The regions as slots. -/
def RawType.view (t : RawType) : MemblockType where
  cnt := t.cnt
  max := t.max
  totalSize := t.totalSize
  regions j := loadRegion t.mem (t.rgn j)

/-- `memblock_insert_region` (lines 116–126). -/
def RawType.insertRegion (t : RawType) (idx base size : ℕ) : RawType :=
  let rgn := t.rgn idx
  let mem := memmove t.mem (rgn + sizeofRegion) rgn (UInt32.ofNat ((t.cnt - idx) * sizeofRegion))
  let mem := store mem rgn base 8
  let mem := store mem (rgn + 8) size 8
  { t with mem := mem, cnt := t.cnt + 1, totalSize := u64 (t.totalSize + size) }

/-- The rest of the body of the loop of `memblock_merge_regions`, where the two regions touch
    (lines 149–151). -/
def RawType.mergeNext (t : RawType) (i : ℕ) : RawType :=
  let this := t.rgn i
  let next := t.rgn (i + 1)
  let mem := store t.mem (this + 8) (u64 (load t.mem (this + 8) 8 + load t.mem (next + 8) 8)) 8
  let mem := memmove mem next (next + sizeofRegion) (UInt32.ofNat ((t.cnt - (i + 2)) * sizeofRegion))
  { t with mem := mem, cnt := t.cnt - 1 }

/-- The loop of `memblock_merge_regions` (lines 140–152). The first argument is
    `type->cnt - 1 - i`. -/
def RawType.mergeLoop : ℕ → ℕ → RawType → RawType
  | 0, _, t => t
  | rem + 1, i, t =>
    let this := loadRegion t.mem (t.rgn i)
    let next := loadRegion t.mem (t.rgn (i + 1))
    if u64 (this.base + this.size) ≠ next.base then mergeLoop rem (i + 1) t
    else mergeLoop rem i (t.mergeNext i)

/-- `memblock_merge_regions` (lines 136–153). -/
def RawType.mergeRegions (t : RawType) : RawType := t.mergeLoop (t.cnt - 1) 0

variable {m : Mem} {t : RawType} {dest src idx base size i j k l : ℕ} {n : UInt32}

/-! ## Bytes -/

/-- The rounds of the first loop. -/
theorem rounds_eq (h : n.toNat < 2 ^ 31) : ((n - 1).toBitVec.toInt + 1).toNat = n.toNat := by
  by_cases hn : n = 0
  · subst hn
    decide
  · have hpos : 1 ≤ n.toNat := by
      rw [Nat.one_le_iff_ne_zero]
      exact fun h0 => hn (UInt32.toNat_inj.mp h0)
    have hsub : (n - 1).toBitVec.toNat = n.toNat - 1 := UInt32.toNat_sub_of_le _ _ (by
      rw [UInt32.le_iff_toNat_le]
      exact hpos)
    rw [BitVec.toInt_eq_toNat_of_lt (by omega), hsub]
    omega

/-- `memmove` copies the bytes as they were, however the two ranges overlap. -/
theorem memmove_eq (h : n.toNat < 2 ^ 31) :
    memmove m dest src n = copy m dest (fun i => m (src + i)) n.toNat := by
  unfold memmove
  split_ifs with hlt
  · rw [rounds_eq h, copyDown_eq hlt.le]
  · rw [copyUp_eq (not_lt.mp hlt)]
    rfl

theorem memmove_of_not_mem {x : ℕ} (h : n.toNat < 2 ^ 31)
    (hx : ¬ (dest ≤ x ∧ x < dest + n.toNat)) : memmove m dest src n x = m x := by
  rw [memmove_eq h, copy_of_not_mem hx]

/-! ## Slots -/

theorem rgn_eq (t : RawType) (i : ℕ) : t.rgn i = t.regions + i * 16 := rfl

theorem rgn_succ (t : RawType) (i : ℕ) : t.rgn i + sizeofRegion = t.rgn (i + 1) := by
  rw [rgn_eq, rgn_eq, Nat.add_mul, Nat.one_mul, Nat.add_assoc]

theorem toNat_bytes (h : k * sizeofRegion < 2 ^ 31) :
    (UInt32.ofNat (k * sizeofRegion)).toNat = k * sizeofRegion := by
  apply UInt32.toNat_ofNat_of_lt'
  rw [show UInt32.size = 2 ^ 32 from rfl]
  omega

/-- A region is its 16 bytes. -/
theorem loadRegion_shift {m' : Mem} {a a' : ℕ} (h : ∀ i < 16, m' (a' + i) = m (a + i)) :
    loadRegion m' a' = loadRegion m a := by
  have hbase : load m' a' 8 = load m a 8 := load_shift fun i hi => h i (by omega)
  have hsize : load m' (a' + 8) 8 = load m (a + 8) 8 := by
    apply load_shift
    intro i hi
    have hbyte := h (8 + i) (by omega)
    rwa [← Nat.add_assoc, ← Nat.add_assoc] at hbyte
  rw [loadRegion, loadRegion, hbase, hsize]

/-- Bytes of whole slots are moved: the slots are. -/
theorem loadRegion_memmove (t : RawType) (dest src : ℕ) (hk : k * sizeofRegion < 2 ^ 31) (j : ℕ) :
    loadRegion (memmove t.mem (t.rgn dest) (t.rgn src) (UInt32.ofNat (k * sizeofRegion))) (t.rgn j) =
      moveRegions t.view.regions dest src k j := by
  have hn := toNat_bytes hk
  rw [memmove_eq (by rwa [hn]), hn]
  unfold sizeofRegion at *
  unfold moveRegions
  split_ifs with hj
  · apply loadRegion_shift
    intro i hi
    simp only [rgn_eq]
    rw [copy_of_mem (by omega)]
    congr 1
    omega
  · apply loadRegion_shift
    intro i hi
    simp only [rgn_eq]
    rw [copy_of_not_mem (by omega)]

/-- A store to the two fields of one slot. -/
theorem loadRegion_store (hbase : base < 2 ^ 64) (hsize : size < 2 ^ 64) (j : ℕ) :
    loadRegion (store (store m (t.rgn idx) base 8) (t.rgn idx + 8) size 8) (t.rgn j) =
      if j = idx then ⟨base, size⟩ else loadRegion m (t.rgn j) := by
  unfold loadRegion
  split_ifs with hj
  · rw [hj, load_store (by omega), load_store_of_disjoint (by omega), load_store (by omega)]
  · have hne : t.rgn j + 16 ≤ t.rgn idx ∨ t.rgn idx + 16 ≤ t.rgn j := by
      simp only [rgn_eq]
      omega
    rw [load_store_of_disjoint (by omega), load_store_of_disjoint (by omega),
      load_store_of_disjoint (by omega), load_store_of_disjoint (by omega)]

/-- A store to the size of one slot. -/
theorem loadRegion_store_size (hsize : size < 2 ^ 64) (j : ℕ) :
    loadRegion (store m (t.rgn idx + 8) size 8) (t.rgn j) =
      if j = idx then ⟨(loadRegion m (t.rgn idx)).base, size⟩ else loadRegion m (t.rgn j) := by
  unfold loadRegion
  split_ifs with hj
  · rw [hj, load_store (by omega), load_store_of_disjoint (by omega)]
  · have hne : t.rgn j + 16 ≤ t.rgn idx ∨ t.rgn idx + 16 ≤ t.rgn j := by
      simp only [rgn_eq]
      omega
    rw [load_store_of_disjoint (by omega), load_store_of_disjoint (by omega)]

/-- Fewer slots have fewer bytes. -/
theorem bytes_lt (h : k ≤ l) (hl : l * sizeofRegion < 2 ^ 31) : k * sizeofRegion < 2 ^ 31 :=
  lt_of_le_of_lt (Nat.mul_le_mul_right _ h) hl

/-! ## The two functions -/

theorem insertRegion_view (hcnt : t.cnt * sizeofRegion < 2 ^ 31) (hbase : base < 2 ^ 64)
    (hsize : size < 2 ^ 64) :
    (t.insertRegion idx base size).view = Memblock.insertRegion t.view idx base size := by
  have hmove := loadRegion_memmove t (idx + 1) idx (bytes_lt (Nat.sub_le t.cnt idx) hcnt)
  unfold RawType.insertRegion RawType.view Memblock.insertRegion
  dsimp only
  rw [MemblockType.mk.injEq]
  refine ⟨rfl, rfl, rfl, ?_⟩
  funext j
  change loadRegion (store (store _ (t.rgn idx) base 8) (t.rgn idx + 8) size 8) (t.rgn j) = _
  rw [loadRegion_store hbase hsize, rgn_succ, hmove, Function.update_apply]
  rfl

/-- The memory between the two statements of `mergeNext`. -/
def RawType.grow (t : RawType) (i : ℕ) : RawType :=
  let size := u64 (load t.mem (t.rgn i + 8) 8 + load t.mem (t.rgn (i + 1) + 8) 8)
  { t with mem := store t.mem (t.rgn i + 8) size 8 }

theorem grow_view (t : RawType) (i : ℕ) :
    (t.grow i).view.regions = Function.update t.view.regions i
      ⟨(t.view.regions i).base, u64 ((t.view.regions i).size + (t.view.regions (i + 1)).size)⟩ := by
  funext j
  rw [Function.update_apply]
  exact loadRegion_store_size (Nat.mod_lt _ (by norm_num)) j

theorem mergeNext_view (hcnt : t.cnt * sizeofRegion < 2 ^ 31) (i : ℕ) :
    (t.mergeNext i).view = { t.view with
      regions := moveRegions
        (Function.update t.view.regions i
          ⟨(t.view.regions i).base, u64 ((t.view.regions i).size + (t.view.regions (i + 1)).size)⟩)
        (i + 1) (i + 2) (t.cnt - (i + 2))
      cnt := t.cnt - 1 } := by
  have hmove := loadRegion_memmove (t.grow i) (i + 1) (i + 2)
    (bytes_lt (Nat.sub_le t.cnt (i + 2)) hcnt)
  rw [grow_view] at hmove
  unfold RawType.mergeNext
  dsimp only
  rw [rgn_succ]
  exact congrArg (fun r => (⟨t.cnt - 1, t.max, t.totalSize, r⟩ : MemblockType)) (funext hmove)

theorem mergeLoop_view (hcnt : t.cnt * sizeofRegion < 2 ^ 31) (rem i : ℕ) :
    (t.mergeLoop rem i).view = Memblock.mergeLoop rem i t.view := by
  induction rem generalizing i t with
  | zero => rfl
  | succ rem ih =>
    rw [RawType.mergeLoop, Memblock.mergeLoop]
    change (if u64 ((t.view.regions i).base + (t.view.regions i).size) ≠ (t.view.regions (i + 1)).base
      then t.mergeLoop rem (i + 1) else (t.mergeNext i).mergeLoop rem i).view = _
    dsimp only
    split_ifs with hne
    · exact ih hcnt (i + 1)
    · rw [ih (bytes_lt (Nat.sub_le t.cnt 1) hcnt), mergeNext_view hcnt]
      rfl

theorem mergeRegions_view (hcnt : t.cnt * sizeofRegion < 2 ^ 31) :
    t.mergeRegions.view = Memblock.mergeRegions t.view := mergeLoop_view hcnt _ _

/-! ## The bytes of no slot -/

theorem memmove_slots_of_not_mem (t : RawType) (m : Mem) (dest src : ℕ) {x : ℕ}
    (hk : k * sizeofRegion < 2 ^ 31) (hx : ¬ (t.rgn dest ≤ x ∧ x < t.rgn (dest + k))) :
    memmove m (t.rgn dest) src (UInt32.ofNat (k * sizeofRegion)) x = m x := by
  have hn := toNat_bytes hk
  apply memmove_of_not_mem (by rwa [hn])
  rw [hn]
  simp only [rgn_eq] at *
  unfold sizeofRegion
  omega

/-- Only slots from `idx` to the new last one are written. -/
theorem insertRegion_frame {x : ℕ} (hidx : idx ≤ t.cnt) (hcnt : t.cnt * sizeofRegion < 2 ^ 31)
    (hx : ¬ (t.rgn idx ≤ x ∧ x < t.rgn (t.cnt + 1))) :
    (t.insertRegion idx base size).mem x = t.mem x := by
  have hle : t.rgn (idx + 1) ≤ t.rgn (t.cnt + 1) := by
    simp only [rgn_eq]
    omega
  have hslots : ¬ (t.rgn (idx + 1) ≤ x ∧ x < t.rgn (idx + 1 + (t.cnt - idx))) := by
    rw [show idx + 1 + (t.cnt - idx) = t.cnt + 1 by omega]
    simp only [rgn_eq] at *
    omega
  have hmove := memmove_slots_of_not_mem t t.mem (idx + 1) (t.rgn idx)
    (bytes_lt (Nat.sub_le t.cnt idx) hcnt) hslots
  unfold RawType.insertRegion
  dsimp only
  rw [rgn_succ]
  simp only [rgn_eq] at hx hle
  rw [store_of_not_mem (by rw [rgn_eq]; omega), store_of_not_mem (by rw [rgn_eq]; omega), hmove]

/-- Only slots from `i` on are written. -/
theorem mergeNext_frame {x : ℕ} (hi : i + 1 < t.cnt) (hcnt : t.cnt * sizeofRegion < 2 ^ 31)
    (hx : ¬ (t.rgn i ≤ x ∧ x < t.rgn t.cnt)) : (t.mergeNext i).mem x = t.mem x := by
  have hslots : ¬ (t.rgn (i + 1) ≤ x ∧ x < t.rgn (i + 1 + (t.cnt - (i + 2)))) := by
    simp only [rgn_eq] at *
    omega
  have hmove := memmove_slots_of_not_mem t (t.grow i).mem (i + 1) (t.rgn (i + 2))
    (bytes_lt (Nat.sub_le t.cnt (i + 2)) hcnt) hslots
  unfold RawType.mergeNext
  dsimp only
  rw [rgn_succ]
  refine hmove.trans (store_of_not_mem ?_)
  simp only [rgn_eq] at *
  omega

theorem mergeLoop_frame {x rem : ℕ} (hi : i + rem < t.cnt) (hcnt : t.cnt * sizeofRegion < 2 ^ 31)
    (hx : ¬ (t.regions ≤ x ∧ x < t.rgn t.cnt)) : (t.mergeLoop rem i).mem x = t.mem x := by
  induction rem generalizing i t with
  | zero => rfl
  | succ rem ih =>
    rw [RawType.mergeLoop]
    split_ifs with hne
    · exact ih (by omega) hcnt hx
    · have hcnt' : (t.mergeNext i).cnt = t.cnt - 1 := rfl
      have hnext : (t.mergeNext i).mem x = t.mem x := by
        refine mergeNext_frame (by omega) hcnt ?_
        simp only [rgn_eq] at *
        omega
      rw [ih (by omega) (bytes_lt (Nat.sub_le t.cnt 1) hcnt) ?_, hnext]
      change ¬ (t.regions ≤ x ∧ x < t.rgn (t.cnt - 1))
      simp only [rgn_eq] at *
      omega

/-! ## The regions -/

theorem view_cnt (t : RawType) : t.view.cnt = t.cnt := rfl

theorem cnt_of_view {l : List Region} (h : t.view.list = l) : t.cnt = l.length := by
  rw [← h, length_list, view_cnt]

theorem insertRegion_list (hidx : idx ≤ t.cnt) (hcnt : t.cnt * sizeofRegion < 2 ^ 31)
    (hbase : base < 2 ^ 64) (hsize : size < 2 ^ 64) :
    (t.insertRegion idx base size).view.list =
      t.view.list.take idx ++ ⟨base, size⟩ :: t.view.list.drop idx := by
  have hlen : (t.view.list.take idx).length = idx := by
    rw [List.length_take, length_list, view_cnt, min_eq_left hidx]
  have hlist := list_insertRegion (List.take_append_drop idx t.view.list).symm base size
  rw [hlen] at hlist
  rw [insertRegion_view hcnt hbase hsize, hlist]

theorem mergeNext_list {P S : List Region} {s u : Region} (hcnt : t.cnt * sizeofRegion < 2 ^ 31)
    (h : t.view.list = P ++ s :: u :: S) :
    (t.mergeNext P.length).view.list = P ++ ⟨s.base, u64 (s.size + u.size)⟩ :: S := by
  have hs : t.view.regions P.length = s := regions_of_list h
  have hu : t.view.regions (P.length + 1) = u := by
    simpa using regions_of_list (P := P ++ [s]) (by simpa using h)
  rw [mergeNext_view hcnt, hs, hu]
  exact list_merge h _

theorem mergeRegions_list {s : Region} {S : List Region} (hcnt : t.cnt * sizeofRegion < 2 ^ 31)
    (h : t.view.list = s :: S) : t.mergeRegions.view.list = mergeList s S := by
  have hlen : t.view.cnt - 1 = S.length := by
    rw [view_cnt, cnt_of_view h, List.length_cons, Nat.add_sub_cancel]
  rw [mergeRegions_view hcnt, Memblock.mergeRegions, hlen]
  exact mergeLoop_list S [] s t.view h

/-- `memmove` copies the bytes as they were and changes no others, however the two ranges overlap. So
    `memblock_insert_region` moves the regions from `idx` on by one slot, each joining of two regions
    moves those behind them back by one, and neither changes another region or a byte outside of the
    slots. -/
theorem memmove_shifts :
    (∀ (m : Mem) (dest src : ℕ) (n : UInt32), n.toNat < 2 ^ 31 →
      (∀ i < n.toNat, memmove m dest src n (dest + i) = m (src + i)) ∧
      ∀ x, ¬ (dest ≤ x ∧ x < dest + n.toNat) → memmove m dest src n x = m x) ∧
    ∀ t : RawType, t.cnt * sizeofRegion < 2 ^ 31 →
      (∀ idx base size, idx ≤ t.cnt → base < 2 ^ 64 → size < 2 ^ 64 →
        (t.insertRegion idx base size).view.list =
            t.view.list.take idx ++ ⟨base, size⟩ :: t.view.list.drop idx ∧
          ∀ x, ¬ (t.rgn idx ≤ x ∧ x < t.rgn (t.cnt + 1)) →
            (t.insertRegion idx base size).mem x = t.mem x) ∧
      (∀ (P S : List Region) (s u : Region), t.view.list = P ++ s :: u :: S →
        (t.mergeNext P.length).view.list = P ++ ⟨s.base, u64 (s.size + u.size)⟩ :: S ∧
          ∀ x, ¬ (t.rgn P.length ≤ x ∧ x < t.rgn t.cnt) →
            (t.mergeNext P.length).mem x = t.mem x) ∧
      ∀ (s : Region) (S : List Region), t.view.list = s :: S →
        t.mergeRegions.view.list = mergeList s S ∧
          ∀ x, ¬ (t.regions ≤ x ∧ x < t.rgn t.cnt) → t.mergeRegions.mem x = t.mem x := by
  refine ⟨fun m dest src n hn => ⟨fun i hi => ?_, fun x => memmove_of_not_mem hn⟩, ?_⟩
  · rw [memmove_eq hn, copy_of_mem (by omega), Nat.add_sub_cancel_left]
  · intro t hcnt
    refine ⟨fun idx base size hidx hbase hsize => ?_, fun P S s u h => ?_, fun s S h => ?_⟩
    · exact ⟨insertRegion_list hidx hcnt hbase hsize, fun x => insertRegion_frame hidx hcnt⟩
    · have hlen := cnt_of_view h
      simp only [List.length_append, List.length_cons] at hlen
      exact ⟨mergeNext_list hcnt h, fun x => mergeNext_frame (by omega) hcnt⟩
    · have hlen := cnt_of_view h
      rw [List.length_cons] at hlen
      exact ⟨mergeRegions_list hcnt h, fun x => mergeLoop_frame (by omega) hcnt⟩

end RaspiKernel.Memblock
