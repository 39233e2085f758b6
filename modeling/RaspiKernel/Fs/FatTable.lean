import RaspiKernel.Fs.Fat32

/-!
# The FAT and the volume

Where the entries of the FAT and the blocks of the clusters are on a volume whose
block numbers do not leave 32 bits, and what `write_fat_table` and
`get_free_fat_cluster` do there. The clusters of the volume are `2, …, limit - 1`.

Results:
* `readFatEntry_write_self`, `readFatEntry_write_of_ne`: `write_fat_table` changes one entry.
* `writeLaw_iff`: when the entry has the written value afterwards.
* `getFreeFatCluster_of_lowest`, `findsFree_iff`: what `get_free_fat_cluster` returns, and when
  it is the lowest free cluster.
* `eoc_not_valid`, `not_free_or`: a free entry becomes the end of a chain.
-/

namespace RaspiKernel.Fs

open Lib

/-! ## Entries -/

/-- What `write_fat_table` makes of a free entry. -/
theorem fatEntry_or_eoc {e : ℕ} (h : IsFatEntryFree e) :
    fatEntry (e ||| fatEntryEoc) = fatEntryEoc := by
  unfold IsFatEntryFree fatEntry at h
  unfold fatEntry
  rw [Nat.and_or_distrib_right, h, Nat.zero_or]
  rfl

theorem eoc_not_valid {e : ℕ} (h : IsFatEntryFree e) : ¬ IsFatEntryValid (e ||| fatEntryEoc) := by
  unfold IsFatEntryValid
  rw [fatEntry_or_eoc h]
  decide

theorem not_free_or {e : ℕ} (h : IsFatEntryFree e) : ¬ IsFatEntryFree (e ||| fatEntryEoc) := by
  unfold IsFatEntryFree
  rw [fatEntry_or_eoc h]
  decide

/-! ## The volume -/

/-- The layout of a volume with the clusters `2, …, limit - 1`: the FAT has an entry for each of them and
    lies before the data region, and no block number leaves 32 bits. -/
structure Geometry (limit : ℕ) (info : Fat32Info) : Prop where
  blocksPerCluster_pos : 0 < info.blocksPerCluster
  limit_le : limit ≤ entriesPerBlock * info.sectorsPerFat
  fat_le : info.fatRegion + info.sectorsPerFat ≤ info.dataRegion
  data_lt : info.dataRegion < 2 ^ 32
  end_le : info.dataRegion + (limit - 2) * info.blocksPerCluster ≤ 2 ^ 32

/-- A cluster of the volume. -/
def InVolume (limit c : ℕ) : Prop := 2 ≤ c ∧ c < limit

variable {limit : ℕ} {info : Fat32Info}

theorem Geometry.fatBlock_eq (hg : Geometry limit info) {c : ℕ}
    (hc : c < entriesPerBlock * info.sectorsPerFat) :
    fatBlock info c = info.fatRegion + c / entriesPerBlock ∧
      c / entriesPerBlock < info.sectorsPerFat := by
  have hlt : c / entriesPerBlock < info.sectorsPerFat := Nat.div_lt_of_lt_mul hc
  obtain ⟨-, -, hfat, hdata, -⟩ := hg
  refine ⟨?_, hlt⟩
  unfold fatBlock
  rw [Nat.mod_eq_of_lt (by omega)]

theorem InVolume.end_le {c : ℕ} (hc : InVolume limit c) (n : ℕ) :
    (c - 2) * n + n ≤ (limit - 2) * n := by
  obtain ⟨h2, hlt⟩ := hc
  have : (c - 2 + 1) * n ≤ (limit - 2) * n := Nat.mul_le_mul_right _ (by omega)
  rwa [add_mul, one_mul] at this

theorem Geometry.clusterBlock_eq (hg : Geometry limit info) {c : ℕ} (hc : InVolume limit c) :
    clusterBlock info c = info.dataRegion + (c - 2) * info.blocksPerCluster := by
  have hend := hc.end_le info.blocksPerCluster
  have hpos := hg.blocksPerCluster_pos
  have hle := hg.end_le
  unfold clusterBlock
  have hsplit : info.dataRegion + (c + 2 ^ 32 - 2) * info.blocksPerCluster =
      info.dataRegion + (c - 2) * info.blocksPerCluster + 2 ^ 32 * info.blocksPerCluster := by
    rw [show c + 2 ^ 32 - 2 = (c - 2) + 2 ^ 32 by have := hc.1; omega]
    ring
  rw [hsplit, Nat.add_mul_mod_self_left, Nat.mod_eq_of_lt (by omega)]

/-- The blocks of distinct clusters are distinct. -/
theorem Geometry.clusterBlock_apart (hg : Geometry limit info) {c d k : ℕ} (hc : InVolume limit c)
    (hd : InVolume limit d) (hcd : c ≠ d) (hk : k < info.blocksPerCluster) :
    clusterBlock info c + k ≠ clusterBlock info d := by
  rw [hg.clusterBlock_eq hc, hg.clusterBlock_eq hd]
  intro heq
  have hmul : (c - 2) * info.blocksPerCluster + k = (d - 2) * info.blocksPerCluster := by omega
  have hdiv := congrArg (· / info.blocksPerCluster) hmul
  rw [mul_comm, Nat.mul_add_div hg.blocksPerCluster_pos, Nat.div_eq_of_lt hk,
    Nat.mul_div_cancel _ hg.blocksPerCluster_pos] at hdiv
  obtain ⟨h2, -⟩ := hc
  obtain ⟨h2', -⟩ := hd
  omega

/-- A block of the data region is none of the FAT. -/
theorem Geometry.fatBlock_ne (hg : Geometry limit info) {c d : ℕ} (hc : InVolume limit c)
    (hd : d < entriesPerBlock * info.sectorsPerFat) : fatBlock info d ≠ clusterBlock info c := by
  obtain ⟨heq, hlt⟩ := hg.fatBlock_eq hd
  rw [heq, hg.clusterBlock_eq hc]
  have := hg.fat_le
  omega

/-! ## Reading and writing the FAT -/

theorem readFatEntry_congr {disk disk' : Disk} {c : ℕ}
    (h : SameBytes (disk' (fatBlock info c)) (disk (fatBlock info c)) blockSize) :
    readFatEntry disk' info c = readFatEntry disk info c := by
  unfold readFatEntry fatTable
  apply load_congr
  intro i hi
  apply h
  have := Nat.mod_lt c (show 0 < entriesPerBlock by decide)
  unfold blockSize entriesPerBlock at *
  omega

/-- A write to a block of the data region leaves the FAT as it is. -/
theorem Geometry.readFatEntry_data (hg : Geometry limit info) {c d : ℕ} (hc : InVolume limit c)
    (hd : d < entriesPerBlock * info.sectorsPerFat) (disk : Disk) (buf : Mem) :
    readFatEntry (writeblock disk (clusterBlock info c) buf) info d = readFatEntry disk info d := by
  apply readFatEntry_congr
  rw [writeblock_of_ne _ (hg.fatBlock_ne hc hd)]
  exact fun _ _ => rfl

theorem readFatEntry_lt (disk : Disk) (info : Fat32Info) (c : ℕ) : readFatEntry disk info c < 2 ^ 32 :=
  load_lt _ _ 4

/-- What is in a FAT block behind `write_fat_table`. -/
theorem fatTable_write {disk : Disk} {c value : ℕ} {i : ℕ} (hi : i < entriesPerBlock) :
    fatTable (writeFatTable disk info c value (fatBlock info c)) i =
      fatTable (store (disk (fatBlock info c)) (4 * (c % entriesPerBlock))
        (readFatEntry disk info c ||| value) 4) i := by
  unfold fatTable
  apply load_congr
  intro k hk
  unfold writeFatTable
  apply writeblock_same
  unfold blockSize entriesPerBlock at *
  omega

theorem readFatEntry_write_self (disk : Disk) (info : Fat32Info) (c : ℕ) {value : ℕ}
    (hv : value < 2 ^ 32) :
    readFatEntry (writeFatTable disk info c value) info c = readFatEntry disk info c ||| value := by
  have hor : readFatEntry disk info c ||| value < 2 ^ 32 :=
    Nat.or_lt_two_pow (readFatEntry_lt disk info c) hv
  rw [readFatEntry, fatTable_write (Nat.mod_lt c (by decide))]
  exact load_store hor

/-- The entries of other clusters are kept. -/
theorem readFatEntry_write_of_ne (disk : Disk) (info : Fat32Info) (value : ℕ) {c d : ℕ}
    (hc : c / entriesPerBlock < 2 ^ 32) (hd : d / entriesPerBlock < 2 ^ 32) (hcd : d ≠ c) :
    readFatEntry (writeFatTable disk info c value) info d = readFatEntry disk info d := by
  by_cases hblock : fatBlock info d = fatBlock info c
  · have hmod : d % entriesPerBlock ≠ c % entriesPerBlock := by
      unfold fatBlock entriesPerBlock at *
      omega
    rw [readFatEntry, readFatEntry, hblock, fatTable_write (Nat.mod_lt d (by decide))]
    apply load_congr
    intro k hk
    apply store_of_not_mem
    omega
  · apply readFatEntry_congr
    rw [writeFatTable, writeblock_of_ne _ hblock]
    exact fun _ _ => rfl

/-- The other entries of the FAT are kept. -/
theorem Geometry.readFatEntry_write_of_ne (hg : Geometry limit info) {c d : ℕ} (disk : Disk)
    (value : ℕ) (hc : c < entriesPerBlock * info.sectorsPerFat)
    (hd : d < entriesPerBlock * info.sectorsPerFat) (hcd : d ≠ c) :
    readFatEntry (writeFatTable disk info c value) info d = readFatEntry disk info d := by
  have hfat := hg.fat_le
  have hdata := hg.data_lt
  have hclt := (hg.fatBlock_eq hc).2
  have hdlt := (hg.fatBlock_eq hd).2
  exact Fs.readFatEntry_write_of_ne disk info value (by omega) (by omega) hcd

/-- A cluster number with an entry in the FAT. -/
def InFat (info : Fat32Info) (c : ℕ) : Prop :=
  c < 2 ^ 32 ∧ c < entriesPerBlock * info.sectorsPerFat

/-- After a write the entry of `c` is the value, and the other entries are as before. -/
def WriteLaw (disk : Disk) (info : Fat32Info) (c value : ℕ) : Prop :=
  readFatEntry (writeFatTable disk info c value) info c = value ∧
    ∀ d, InFat info d → d ≠ c →
      readFatEntry (writeFatTable disk info c value) info d = readFatEntry disk info d

/-- The law holds exactly if the value has every bit of the old entry. -/
theorem writeLaw_iff (disk : Disk) {info : Fat32Info} {c value : ℕ} (hc : InFat info c)
    (hv : value < 2 ^ 32) :
    WriteLaw disk info c value ↔ readFatEntry disk info c ||| value = value := by
  unfold WriteLaw
  rw [readFatEntry_write_self disk info c hv]
  refine and_iff_left fun d hd hcd => ?_
  exact readFatEntry_write_of_ne disk info value ((Nat.div_le_self _ _).trans_lt hc.1)
    ((Nat.div_le_self _ _).trans_lt hd.1) hcd

theorem writeLaw_iff_zeroed : WriteLaw (fun _ _ => 0) ⟨1, 2, 4, 1, 2⟩ 3 fatEntryEoc ↔
    readFatEntry (fun _ _ => 0) ⟨1, 2, 4, 1, 2⟩ 3 ||| fatEntryEoc = fatEntryEoc :=
  writeLaw_iff (fun _ _ => 0) ⟨by decide, by decide⟩ (by decide)

/-- With 3 in the entry of cluster 5, a write of 4 leaves 7 there. -/
theorem not_writeLaw :
    let disk : Disk := fun b i => if b = 2 ∧ i = 20 then 3 else 0
    let info : Fat32Info := ⟨1, 2, 4, 1, 2⟩
    InFat info 5 ∧ readFatEntry disk info 5 = 3 ∧
      readFatEntry (writeFatTable disk info 5 4) info 5 = 7 ∧ ¬ WriteLaw disk info 5 4 := by
  intro disk info
  have hread : readFatEntry (writeFatTable disk info 5 4) info 5 = 7 := by decide +kernel
  refine ⟨⟨by decide, by decide⟩, by decide +kernel, hread, fun hlaw => ?_⟩
  have := hlaw.1
  rw [hread] at this
  cases this

/-- `write_fat_table` writes to no block of the data region. -/
theorem Geometry.writeFatTable_data (hg : Geometry limit info) {c d k : ℕ} (disk : Disk) (value : ℕ)
    (hc : c < entriesPerBlock * info.sectorsPerFat) (hd : InVolume limit d) :
    writeFatTable disk info c value (clusterBlock info d + k) = disk (clusterBlock info d + k) := by
  obtain ⟨heq, hlt⟩ := hg.fatBlock_eq hc
  apply writeblock_of_ne
  rw [heq, hg.clusterBlock_eq hd]
  have := hg.fat_le
  omega

/-! ## The free cluster -/

/-- The lowest cluster number whose entry in the FAT is free. -/
def LowestFree (disk : Disk) (info : Fat32Info) (c : ℕ) : Prop :=
  IsLeast {c | c < entriesPerBlock * info.sectorsPerFat ∧ IsFatEntryFree (readFatEntry disk info c)} c

/-- `get_free_fat_cluster` finds the lowest free cluster, and returns 0 if there is none. -/
def FindsFree (disk : Disk) (info : Fat32Info) : Prop :=
  (∀ c, LowestFree disk info c → getFreeFatCluster disk info = c) ∧
    ((∀ c < entriesPerBlock * info.sectorsPerFat, ¬ IsFatEntryFree (readFatEntry disk info c)) →
      getFreeFatCluster disk info = 0)

theorem exists_lowestFree {disk : Disk} {c : ℕ} (hc : c < entriesPerBlock * info.sectorsPerFat)
    (hfree : IsFatEntryFree (readFatEntry disk info c)) : ∃ d, LowestFree disk info d := by
  have hex : ∃ c, c < entriesPerBlock * info.sectorsPerFat ∧
      IsFatEntryFree (readFatEntry disk info c) := ⟨c, hc, hfree⟩
  classical
  exact ⟨Nat.find hex, Nat.find_spec hex, fun d hd => Nat.find_min' hex hd⟩

section NoWrap

variable {disk : Disk} (hwrap : info.fatRegion + info.sectorsPerFat < 2 ^ 32)

include hwrap

theorem fatBlocks_eq : fatBlocks info = List.range' info.fatRegion info.sectorsPerFat := by
  unfold fatBlocks
  rw [Nat.mod_eq_of_lt hwrap, Nat.add_sub_cancel_left]

/-- Entry `i` of the block number `q` of the FAT. -/
theorem fatTable_eq {q i : ℕ} (hq : q < info.sectorsPerFat) (hi : i < entriesPerBlock) :
    entriesPerBlock * q + i < entriesPerBlock * info.sectorsPerFat ∧
      fatTable (disk (info.fatRegion + q)) i = readFatEntry disk info (entriesPerBlock * q + i) := by
  unfold readFatEntry fatBlock entriesPerBlock at *
  rw [Nat.mul_add_div (by norm_num), Nat.div_eq_of_lt hi, Nat.add_zero, Nat.mul_add_mod,
    Nat.mod_eq_of_lt hi, Nat.mod_eq_of_lt (by omega)]
  exact ⟨by omega, rfl⟩

/-- The index of the lowest free entry in its block is returned. -/
theorem getFreeFatCluster_of_lowest {c : ℕ} (hc : LowestFree disk info c) :
    getFreeFatCluster disk info = c % entriesPerBlock := by
  obtain ⟨⟨hlt, hfree⟩, hleast⟩ := hc
  have hq : c / entriesPerBlock < info.sectorsPerFat := Nat.div_lt_of_lt_mul hlt
  have hmod : c % entriesPerBlock < entriesPerBlock := Nat.mod_lt c (by decide)
  have hsum : entriesPerBlock * (c / entriesPerBlock) + c % entriesPerBlock = c := Nat.div_add_mod _ _
  -- entries before `c` are in use
  have hused : ∀ q ≤ c / entriesPerBlock, ∀ i < entriesPerBlock, entriesPerBlock * q + i < c →
      ¬ IsFatEntryFree (fatTable (disk (info.fatRegion + q)) i) := by
    intro q hq' i hi hltc hf
    obtain ⟨hin, heq⟩ : _ ∧ fatTable (disk (info.fatRegion + q)) i = _ :=
      fatTable_eq hwrap (hq'.trans_lt hq) hi
    rw [heq] at hf
    exact absurd (hleast ⟨hin, hf⟩) (not_le.mpr hltc)
  have hbefore : ∀ block ∈ List.range' info.fatRegion (c / entriesPerBlock),
      (List.range entriesPerBlock).find? (fun i => IsFatEntryFree (fatTable (disk block) i)) =
        none := by
    intro block hblock
    obtain ⟨q, hqlt, rfl⟩ := List.mem_range'.mp hblock
    rw [List.find?_eq_none]
    intro i hi
    rw [List.mem_range] at hi
    rw [one_mul, decide_eq_true_eq]
    refine hused q hqlt.le i hi ?_
    unfold entriesPerBlock at *
    omega
  have hhit : (List.range entriesPerBlock).find?
      (fun i => IsFatEntryFree (fatTable (disk (info.fatRegion + c / entriesPerBlock)) i)) =
        some (c % entriesPerBlock) := by
    rw [List.find?_range_eq_some]
    refine ⟨?_, List.mem_range.mpr hmod, fun j hj => ?_⟩
    · rw [decide_eq_true_eq, (fatTable_eq hwrap hq hmod).2, hsum]
      exact hfree
    · rw [Bool.not_eq_true', decide_eq_false_iff_not]
      exact hused _ le_rfl j (hj.trans hmod) (by omega)
  have hsplit : List.range' info.fatRegion info.sectorsPerFat =
      List.range' info.fatRegion (c / entriesPerBlock) ++ (info.fatRegion + c / entriesPerBlock) ::
        List.range' (info.fatRegion + c / entriesPerBlock + 1)
          (info.sectorsPerFat - c / entriesPerBlock - 1) := by
    rw [← List.range'_succ, List.range'_append_1]
    congr 1
    omega
  unfold getFreeFatCluster
  rw [fatBlocks_eq hwrap, List.findSome?_eq_some_iff.mpr ⟨_, _, _, hsplit, hhit, hbefore⟩]
  rfl

theorem getFreeFatCluster_of_full (hfull : ∀ c < entriesPerBlock * info.sectorsPerFat,
    ¬ IsFatEntryFree (readFatEntry disk info c)) : getFreeFatCluster disk info = 0 := by
  have hnone : (fatBlocks info).findSome? (fun block =>
      (List.range entriesPerBlock).find? fun i => IsFatEntryFree (fatTable (disk block) i)) =
        none := by
    rw [fatBlocks_eq hwrap, List.findSome?_eq_none_iff]
    intro block hblock
    obtain ⟨q, hqlt, rfl⟩ := List.mem_range'.mp hblock
    rw [List.find?_eq_none]
    intro i hi
    obtain ⟨hin, heq⟩ : _ ∧ fatTable (disk (info.fatRegion + q)) i = _ :=
      fatTable_eq hwrap hqlt (List.mem_range.mp hi)
    rw [one_mul, decide_eq_true_eq, heq]
    exact hfull _ hin
  unfold getFreeFatCluster
  rw [hnone]
  rfl

end NoWrap

/-- Where the last block of the FAT is behind the last block number, no block is searched. -/
theorem getFreeFatCluster_wrap (disk : Disk) (hregion : info.fatRegion < 2 ^ 32)
    (hsectors : info.sectorsPerFat < 2 ^ 32)
    (hwrap : 2 ^ 32 ≤ info.fatRegion + info.sectorsPerFat) : getFreeFatCluster disk info = 0 := by
  have hnil : fatBlocks info = [] := by
    unfold fatBlocks
    rw [show (info.fatRegion + info.sectorsPerFat) % 2 ^ 32 - info.fatRegion = 0 by omega]
    rfl
  unfold getFreeFatCluster
  rw [hnil]
  rfl

/-- `get_free_fat_cluster` meets its purpose exactly if the lowest free cluster is one of the first
    block of the FAT. -/
theorem findsFree_iff (disk : Disk) {info : Fat32Info} (hregion : info.fatRegion < 2 ^ 32)
    (hsectors : info.sectorsPerFat < 2 ^ 32) :
    FindsFree disk info ↔ ∀ c, LowestFree disk info c →
      c = 0 ∨ (c < entriesPerBlock ∧ info.fatRegion + info.sectorsPerFat < 2 ^ 32) := by
  by_cases hwrap : info.fatRegion + info.sectorsPerFat < 2 ^ 32
  · have hpos : 0 < entriesPerBlock := by decide
    constructor
    · rintro ⟨hfinds, -⟩ c hc
      have heq := hfinds c hc
      rw [getFreeFatCluster_of_lowest hwrap hc] at heq
      exact Or.inr ⟨heq ▸ Nat.mod_lt c hpos, hwrap⟩
    · intro hlow
      refine ⟨fun c hc => ?_, getFreeFatCluster_of_full hwrap⟩
      have hlt : c < entriesPerBlock := by
        rcases hlow c hc with rfl | ⟨hlt, -⟩
        · exact hpos
        · exact hlt
      rw [getFreeFatCluster_of_lowest hwrap hc, Nat.mod_eq_of_lt hlt]
  · have hzero := getFreeFatCluster_wrap disk hregion hsectors (not_lt.mp hwrap)
    constructor
    · rintro ⟨hfinds, -⟩ c hc
      exact Or.inl ((hfinds c hc).symm.trans hzero)
    · intro hlow
      refine ⟨fun c hc => ?_, fun _ => hzero⟩
      rcases hlow c hc with rfl | ⟨-, hlt⟩
      · exact hzero
      · exact absurd hlt hwrap

theorem findsFree_iff_empty :
    FindsFree (fun _ _ => 0) ⟨1, 2, 4, 1, 2⟩ ↔ ∀ c, LowestFree (fun _ _ => 0) ⟨1, 2, 4, 1, 2⟩ c →
      c = 0 ∨ (c < entriesPerBlock ∧ 2 + 2 < 2 ^ 32) :=
  findsFree_iff (fun _ _ => 0) (by decide) (by decide)

/-- With the entries 0 to 130 in use, the lowest free cluster is 131, and the used cluster 3 is
    returned. -/
theorem findsFree_second_block :
    let disk : Disk := fun b i => if b = 2 ∨ (b = 3 ∧ i < 12) then 0xff else 0
    let info : Fat32Info := ⟨1, 2, 4, 1, 2⟩
    LowestFree disk info 131 ∧ getFreeFatCluster disk info = 3 ∧
      ¬ IsFatEntryFree (readFatEntry disk info 3) ∧ ¬ FindsFree disk info := by
  intro disk info
  have hlow : LowestFree disk info 131 := by
    have hused : ∀ c < 131, ¬ IsFatEntryFree (readFatEntry disk info c) := by decide +kernel
    refine ⟨⟨by decide, by decide +kernel⟩, fun c hc => ?_⟩
    by_contra hlt
    exact hused c (not_le.mp hlt) hc.2
  have hget : getFreeFatCluster disk info = 3 :=
    getFreeFatCluster_of_lowest (by decide) hlow
  refine ⟨hlow, hget, by decide +kernel, fun hfinds => ?_⟩
  have := hfinds.1 131 hlow
  rw [hget] at this
  cases this

/-- With a free entry in the first block of the FAT, the lowest one is returned, and its index is its
    cluster number. -/
theorem Geometry.getFreeFatCluster_spec (hg : Geometry limit info) (hlimit : 2 < limit) {disk : Disk}
    (hfree : ∃ i < entriesPerBlock, IsFatEntryFree (readFatEntry disk info i)) :
    getFreeFatCluster disk info < entriesPerBlock ∧
      IsFatEntryFree (readFatEntry disk info (getFreeFatCluster disk info)) ∧
      ∀ j < getFreeFatCluster disk info, ¬ IsFatEntryFree (readFatEntry disk info j) := by
  obtain ⟨-, hle, hfat, hdata, -⟩ := hg
  have hblock : entriesPerBlock ≤ entriesPerBlock * info.sectorsPerFat := by
    unfold entriesPerBlock at *
    omega
  obtain ⟨i, hi, hif⟩ := hfree
  obtain ⟨c, hc⟩ := exists_lowestFree (hi.trans_le hblock) hif
  have hlt : c < entriesPerBlock := (hc.2 ⟨hi.trans_le hblock, hif⟩).trans_lt hi
  have hget : getFreeFatCluster disk info = c := by
    rw [getFreeFatCluster_of_lowest (by omega) hc, Nat.mod_eq_of_lt hlt]
  rw [hget]
  exact ⟨hlt, hc.1.2, fun j hj hf => absurd (hc.2 ⟨(hj.trans hlt).trans_le hblock, hf⟩) (not_le.mpr hj)⟩

end RaspiKernel.Fs
