import RaspiKernel.Fs.Isolation

/-!
# Reading large files

`fat32_read` loads the first block of the file and clips the length at
`data_size`, which comes from the directory entry and may be more than the block
holds. Reads come back with the contents as long as they stay inside the block,
and then they are the contents along the cluster chain.

Results:
* `readAll_eq`: a sequence of reads.
* `readAll_iff`: when it returns the prefix of the file.
-/

namespace RaspiKernel.Fs

open Lib

variable {disk : Disk} {info : Fat32Info} {inode : Fat32Inode} {chain : List ℕ}

/-! ## The file on the disk -/

/-- The bytes of the clusters of a chain. -/
def chainBytes (disk : Disk) (info : Fat32Info) (chain : List ℕ) : List UInt8 :=
  chain.flatMap fun c => (List.range info.blocksPerCluster).flatMap fun j =>
    bytes (disk (clusterBlock info c + j)) 0 blockSize

/-- The contents of a file. -/
def contents (disk : Disk) (info : Fat32Info) (inode : Fat32Inode) (chain : List ℕ) : List UInt8 :=
  (chainBytes disk info chain).take inode.dataSize

/-- The inode of a file with the given chain: its block is that of its first cluster, and the size, of 32
    bits in the directory entry, fits into the chain. -/
structure FileOn (disk : Disk) (info : Fat32Info) (inode : Fat32Inode) (chain : List ℕ) : Prop where
  placed : inode.absBlockNum = clusterBlock info inode.cluster
  fatChain : FatChain disk info inode.cluster chain
  size_le : inode.dataSize ≤ (chainBytes disk info chain).length
  size_lt : inode.dataSize < 2 ^ 32

/-- The first bytes of a file are those of its first block. -/
theorem take_contents (h : FileOn disk info inode chain) {n : ℕ} (hn : n ≤ inode.dataSize)
    (hn' : n ≤ blockSize) :
    (contents disk info inode chain).take n = bytes (disk inode.absBlockNum) 0 n := by
  unfold contents
  rw [List.take_take, min_eq_left hn]
  have hsize := h.size_le
  obtain rfl | hpos := Nat.eq_zero_or_pos n
  · rfl
  · cases hc : h.fatChain with
    | stop =>
      simp only [chainBytes, List.flatMap_nil, List.length_nil] at hsize
      omega
    | @link _ l _ _ =>
      have hblocks : info.blocksPerCluster ≠ 0 := by
        intro h0
        simp [chainBytes, h0] at hsize
        omega
      obtain ⟨k, hk⟩ := Nat.exists_eq_succ_of_ne_zero hblocks
      rw [chainBytes, List.flatMap_cons, hk, Nat.succ_eq_add_one, List.range_succ_eq_map,
        List.flatMap_cons, List.append_assoc, List.take_append_of_le_length (by simpa using hn'),
        take_bytes, min_eq_left hn', Nat.add_zero, h.placed]

/-! ## Reading -/

/-- `fat32_read` call by call on an open file: the bytes that are returned, one behind the other. -/
def readAll (disk : Disk) : Fat32Inode → ℕ → List ℕ → Except Stop (List UInt8)
  | _, _, [] => .ok []
  | inode, fPos, len :: lens => do
    let (inode, fPos, out) ← fat32Read disk inode fPos len
    let rest ← readAll disk inode fPos lens
    .ok (out.bytes ++ rest)

/-- A sequence of reads from a position in the first block. -/
theorem readAll_eq (inode : Fat32Inode) {fPos : ℕ} (hpos : fPos ≤ inode.dataSize)
    (hblock : fPos ≤ blockSize) (hsize : inode.dataSize < 2 ^ 32) {lens : List ℕ}
    (hlens : ∀ len ∈ lens, len < 2 ^ 31) :
    readAll disk inode fPos lens =
      if min inode.dataSize (fPos + lens.sum) ≤ blockSize then
        .ok (bytes (disk inode.absBlockNum) fPos (min inode.dataSize (fPos + lens.sum) - fPos))
      else .error .overrun := by
  induction lens generalizing inode fPos with
  | nil =>
    rw [List.sum_nil, Nat.add_zero, min_eq_right hpos, if_pos hblock, Nat.sub_self]
    rfl
  | cons len lens ih =>
    obtain ⟨hlen, hrest⟩ := List.forall_mem_cons.mp hlens
    have hread := readAt_eq blockSize (readblock disk inode.absBlockNum inode.data) hpos
      (by omega) hlen
    rw [readAll, fat32Read, List.sum_cons]
    dsimp only
    generalize hn : min len (inode.dataSize - fPos) = n at hread
    rw [hread]
    by_cases hover : fPos + n > blockSize
    · rw [if_pos hover, if_neg (by omega)]
      rfl
    · have hpos' : fPos + n ≤ inode.dataSize := by omega
      rw [if_neg hover]
      dsimp only [bind, Except.bind]
      rw [ih { inode with data := readblock disk inode.absBlockNum inode.data } hpos'
        (not_lt.mp hover) hsize hrest]
      dsimp only
      -- clipped or not, the next calls end where these do
      have hend : min inode.dataSize (fPos + n + lens.sum) =
          min inode.dataSize (fPos + (len + lens.sum)) := by omega
      rw [hend]
      split_ifs with hfit
      · have hbytes : bytes (readblock disk inode.absBlockNum inode.data) fPos n =
            bytes (disk inode.absBlockNum) fPos n := by
          apply bytes_congr
          intro i hi
          rw [readblock_same disk _ _ (fPos + i) (by omega)]
        dsimp only
        rw [hbytes, bytes_append]
        congr 2
        omega
      · rfl

/-- Reads of an open file with lengths below `2 ^ 31` return the prefix of its contents, out of the block
    that is allocated for it, exactly if they do not go on behind the first block. -/
theorem readAll_iff (h : FileOn disk info inode chain) {lens : List ℕ}
    (hlens : ∀ len ∈ lens, len < 2 ^ 31) :
    readAll disk inode 0 lens = .ok ((contents disk info inode chain).take lens.sum) ↔
      min inode.dataSize lens.sum ≤ blockSize := by
  have hread : readAll disk inode 0 lens = _ :=
    readAll_eq inode (Nat.zero_le _) (Nat.zero_le _) h.size_lt hlens
  rw [Nat.zero_add, Nat.sub_zero] at hread
  rw [hread]
  constructor
  · intro heq
    by_contra hover
    rw [if_neg hover] at heq
    cases heq
  · intro hfit
    have hclip : (contents disk info inode chain).take (min inode.dataSize lens.sum) =
        (contents disk info inode chain).take lens.sum := by
      unfold contents
      rw [List.take_take, List.take_take]
      congr 1
      omega
    rw [if_pos hfit, ← take_contents h (Nat.min_le_left _ _) hfit, hclip]

/-- A FAT in which the cluster 3 is linked to 4. -/
def linkedFat (c : ℕ) : ℕ := if c = 3 then 4 else 0x0fffffff

/-- The inode of a file in cluster 3 of a small image. -/
def fileAt3 (size : ℕ) : Fat32Inode :=
  { (fat32CreateVnode .file).inode with
    cluster := 3, absBlockNum := clusterBlock smallInfo 3, dataSize := size }

theorem fileAt3_on {size : ℕ} (hsize : size ≤ 1024) :
    FileOn (smallImage linkedFat) smallInfo (fileAt3 size) [3, 4] where
  placed := rfl
  fatChain := by
    have h3 : readFatEntry (smallImage linkedFat) smallInfo 3 = 4 := by decide +kernel
    have h4 : ¬ IsFatEntryValid (readFatEntry (smallImage linkedFat) smallInfo 4) := by
      decide +kernel
    have hrest : FatChain (smallImage linkedFat) smallInfo 4 [4] := .link (by decide) (.stop h4)
    have hl : FatChain (smallImage linkedFat) smallInfo 3 [3, 4] :=
      .link (by decide) (by rw [h3]; exact hrest)
    exact hl
  size_le := by
    have hlen : (chainBytes (smallImage linkedFat) smallInfo [3, 4]).length = 1024 := by
      simp [chainBytes, smallInfo, blockSize, List.range_succ]
    rw [hlen]
    exact hsize
  size_lt := lt_of_le_of_lt hsize (by norm_num)

theorem readAll_iff_two_blocks :
    readAll (smallImage linkedFat) (fileAt3 1024) 0 [500, 12] =
        .ok ((contents (smallImage linkedFat) smallInfo (fileAt3 1024) [3, 4]).take [500, 12].sum) ↔
      min 1024 [500, 12].sum ≤ blockSize :=
  readAll_iff (fileAt3_on le_rfl) (by decide)

/-- Reading a file of 513 bytes in two clusters goes behind the block that is allocated for it. -/
theorem readAll_overrun :
    FileOn (smallImage linkedFat) smallInfo (fileAt3 513) [3, 4] ∧
      readAll (smallImage linkedFat) (fileAt3 513) 0 [513] = .error .overrun ∧
      readAll (smallImage linkedFat) (fileAt3 513) 0 [513] ≠
        .ok ((contents (smallImage linkedFat) smallInfo (fileAt3 513) [3, 4]).take [513].sum) := by
  have hread : readAll (smallImage linkedFat) (fileAt3 513) 0 [513] = .error .overrun := by
    have hpos : 0 ≤ (fileAt3 513).dataSize := Nat.zero_le _
    rw [readAll_eq (fileAt3 513) hpos (by decide) (by decide) (by decide), if_neg (by decide)]
  refine ⟨fileAt3_on (by norm_num), hread, ?_⟩
  rw [hread]
  intro heq
  cases heq

end RaspiKernel.Fs
