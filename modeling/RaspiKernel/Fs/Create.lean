import RaspiKernel.Fs.Remount

/-!
# Creating a file

`fat32_create` adds the child, fills a slot of the directory table and marks the
cluster, and looks at none of these steps again: it returns 1 also when no cluster
was free, when the table of the directory was full and when the directory has no
cluster. `fat32_new_dir_entry` fills the first slot with attribute 0, and
`setup_fat32` may read a file in such a slot.

Results:
* `keepsLive_iff`: when `fat32_new_dir_entry` destroys no live entry.
* `allOrNothing_iff`: when a create happens as a whole or not at all.
-/

namespace RaspiKernel.Fs

open Lib

variable {limit : ℕ} {disk disk' : Disk} {info : Fat32Info} {entry : Mem}

/-! ## Live entries -/

/-- At most one slot of a block of the directory differs, and it was one that `setup_fat32` passes
    over. -/
def KeepsLive (disk disk' : Disk) (info : Fat32Info) (dirCluster : ℕ) : Prop :=
  disk' = disk ∨ ∃ x i, Relation.ReflTransGen (Link disk info) dirCluster x ∧ i < slotsPerBlock ∧
    SkipEntry (disk (clusterBlock info x)) i ∧
    ∀ b k, (b ≠ clusterBlock info x ∨ k < 32 * i ∨ 32 * i + 32 ≤ k) → disk' b k = disk b k

/-- The bytes of the filled slot. -/
theorem fillSlot_mem (disk : Disk) (info : Fat32Info) (x : ℕ) (entry : Mem) {i k : ℕ}
    (hi : i < slotsPerBlock) (hk : k < 32) :
    fillSlot disk info x i entry (clusterBlock info x) (32 * i + k) = entry k := by
  unfold slotsPerBlock at hi
  rw [fillSlot, writeblock_same _ _ _ (32 * i + k) (by unfold blockSize; omega),
    copy_of_mem (by omega), Nat.add_sub_cancel_left]

/-- Nothing else is written. -/
theorem fillSlot_of_not_mem {x i b k : ℕ}
    (h : b ≠ clusterBlock info x ∨ k < 32 * i ∨ 32 * i + 32 ≤ k) :
    fillSlot disk info x i entry b k = disk b k := by
  unfold fillSlot
  by_cases hb : b = clusterBlock info x
  · subst hb
    have hk : k < 32 * i ∨ 32 * i + 32 ≤ k := h.resolve_left (not_not.mpr rfl)
    rw [writeblock, Function.update_self]
    by_cases hin : k < blockSize
    · rw [copy_of_mem (by omega), Nat.sub_zero, copy_of_not_mem (by omega)]
    · rw [copy_of_not_mem (by omega)]
  · rw [writeblock_of_ne _ hb]

/-- Filling a live slot with other bytes destroys it. -/
theorem KeepsLive.fillSlot {x i dirCluster : ℕ} (hi : i < slotsPerBlock)
    (h : KeepsLive disk (fillSlot disk info x i entry) info dirCluster) :
    SkipEntry (disk (clusterBlock info x)) i ∨
      ∀ k < 32, disk (clusterBlock info x) (32 * i + k) = entry k := by
  rcases h with heq | ⟨y, j, -, hj, hskip, hframe⟩
  · refine Or.inr fun k hk => ?_
    have hbyte := fillSlot_mem disk info x entry hi hk
    rwa [heq] at hbyte
  · by_cases hsame : clusterBlock info x = clusterBlock info y ∧ i = j
    · obtain ⟨hblock, rfl⟩ := hsame
      exact Or.inl (hblock ▸ hskip)
    · -- the filled slot lies outside the one that may differ
      refine Or.inr fun k hk => ?_
      have hbyte := fillSlot_mem disk info x entry hi hk
      rwa [hframe _ _ (by omega)] at hbyte

/-- The calls of `fat32_new_dir_entry` that come back destroy no live entry exactly if the first slot is
    one that `setup_fat32` passes over, or holds the new entry already. On a chain that ends every call
    comes back. -/
theorem keepsLive_iff (disk : Disk) (info : Fat32Info) (dirCluster : ℕ) (entry : Mem) :
    ((∀ fuel disk', fat32NewDirEntry fuel disk info dirCluster entry = .ok disk' →
        KeepsLive disk disk' info dirCluster) ↔
      ∀ x i, FirstSlot disk info dirCluster x i → SkipEntry (disk (clusterBlock info x)) i ∨
        ∀ k < 32, disk (clusterBlock info x) (32 * i + k) = entry k) ∧
    ∀ l, FatChain disk info dirCluster l → ∀ fuel, l.length < fuel →
      ∃ disk', fat32NewDirEntry fuel disk info dirCluster entry = .ok disk' := by
  refine ⟨⟨?_, ?_⟩, fun l hl fuel => newDirEntry_chain hl entry⟩
  · intro hkeeps x i hslot
    obtain ⟨-, hi, -⟩ := hslot.slot
    obtain ⟨n, hn⟩ := newDirEntry_firstSlot hslot entry
    exact (hkeeps n _ (hn n le_rfl)).fillSlot hi
  · intro hslots fuel disk' h
    rcases newDirEntry_ok h with ⟨x, i, hslot, rfl⟩ | ⟨rfl, -⟩
    · obtain ⟨hreach, hi, -⟩ := hslot.slot
      rcases hslots x i hslot with hskip | hsame
      · exact Or.inr ⟨x, i, hreach, hi, hskip, fun b k => fillSlot_of_not_mem⟩
      · refine Or.inl ?_
        funext b k
        by_cases hk : b = clusterBlock info x ∧ 32 * i ≤ k ∧ k < 32 * i + 32
        · obtain ⟨rfl, h1, h2⟩ := hk
          obtain ⟨m, rfl⟩ : ∃ m, k = 32 * i + m := ⟨k - 32 * i, by omega⟩
          rw [fillSlot_mem disk info x entry hi (by omega), hsame m (by omega)]
        · exact fillSlot_of_not_mem (by omega)
    · exact Or.inl rfl

/-- The image of a volume on which the file `A.TXT` has attribute 0. -/
def plainImage : Disk := fun b i => if b = 4 ∧ i = 11 then 0 else smallImage (usedBelow 4) b i

/-- On `plainImage` the entry of `A.TXT` is overwritten. -/
theorem newDirEntry_plainImage :
    ¬ SkipEntry (plainImage (clusterBlock smallInfo 2)) 0 ∧
      ∃ fuel disk', fat32NewDirEntry fuel plainImage smallInfo 2 (newEntry (fun _ => 0) nameB 4) =
        .ok disk' ∧ ¬ KeepsLive plainImage disk' smallInfo 2 := by
  have hlive : ¬ SkipEntry (plainImage (clusterBlock smallInfo 2)) 0 := by decide +kernel
  have hslot : FirstSlot plainImage smallInfo 2 2 0 :=
    .here (by decide) (by decide +kernel)
  obtain ⟨n, hn⟩ := newDirEntry_firstSlot hslot (newEntry (fun _ => 0) nameB 4)
  refine ⟨hlive, n, _, hn n le_rfl, fun hkeeps => ?_⟩
  rcases hkeeps.fillSlot (by decide) with hskip | hsame
  · exact hlive hskip
  · -- the names differ in the first byte
    exact absurd (hsame 0 (by decide)) (by decide +kernel)

/-! ## All or nothing -/

/-- The checks with which `fat32_create` starts (lines 227–250). -/
def Refuses (dir : Vnode) (name : List UInt8) : Prop :=
  dir.inode.type ≠ .dir ∨ (∃ c ∈ dir.childs, c.inode.name = name) ∨
    maxDirNum ≤ dir.childs.length ∨ maxFileNameLen < name.length

/-- The file was created with a cluster of the volume that was free: the cluster is marked as the end of
    a chain, a slot of the directory's table that had attribute 0 holds the entry, and the file is the
    next child. -/
structure CreatedWith (limit : ℕ) (disk : Disk) (info : Fat32Info) (dir : Vnode)
    (name : List UInt8) (stack : Mem) (disk' : Disk) (dir' : Vnode) (c : ℕ) : Prop where
  inVolume : InVolume limit c
  free : IsFatEntryFree (readFatEntry disk info c)
  marked : fatEntry (readFatEntry disk' info c) = fatEntryEoc
  slot : ∃ l x i, FatChain disk info dir.inode.cluster l ∧ FatChain disk' info dir.inode.cluster l ∧
    x ∈ l ∧ i < slotsPerBlock ∧ entryAttr (disk (clusterBlock info x)) i = 0 ∧
    ∀ k < 32, disk' (clusterBlock info x) (32 * i + k) = newEntry stack name c k
  child : dir' = .mk dir.inode (dir.childs ++ [.mk (newInode info name c) []])

/-- `fat32_create` comes back, and with 1 if the file was created and with 0 if nothing changed. -/
def AllOrNothing (limit : ℕ) (disk : Disk) (info : Fat32Info) (dir : Vnode) (name : List UInt8)
    (stack : Mem) : Prop :=
  ∃ n, ∀ fuel, n ≤ fuel → ∃ ret disk' dir',
    fat32Create fuel disk info dir name stack = .ok (ret, disk', dir') ∧
      ((ret = 1 ∧ ∃ c, CreatedWith limit disk info dir name stack disk' dir' c) ∨
        (ret = 0 ∧ disk' = disk ∧ dir' = dir))

variable {dir : Vnode} {name : List UInt8} {stack : Mem} {chain : List ℕ}

theorem fat32Create_refused (h : Refuses dir name) (fuel : ℕ) :
    fat32Create fuel disk info dir name stack = .ok (0, disk, dir) := by
  unfold fat32Create
  split_ifs with h1 h2 h3 h4
  · rfl
  · rfl
  · rfl
  · rfl
  · rcases h with h | ⟨c, hc, hname⟩ | h | h
    · exact absurd h h1
    · exact absurd (List.any_eq_true.mpr ⟨c, hc, decide_eq_true hname⟩) h2
    · exact absurd h h3
    · exact absurd h h4

theorem fat32Create_eq (h : ¬ Refuses dir name) (fuel : ℕ) :
    fat32Create fuel disk info dir name stack =
      (fat32NewDirEntry fuel disk info dir.inode.cluster
        (newEntry stack name (getFreeFatCluster disk info))).bind fun disk₁ =>
          .ok (1, writeFatTable disk₁ info (getFreeFatCluster disk info) fatEntryEoc,
            .mk dir.inode
              (dir.childs ++ [.mk (newInode info name (getFreeFatCluster disk info)) []])) := by
  unfold Refuses at h
  push Not at h
  obtain ⟨h1, h2, h3, h4⟩ := h
  have hany : ¬ (dir.childs.any fun c => c.inode.name = name) = true := by
    intro hany
    obtain ⟨c, hc, hname⟩ := List.any_eq_true.mp hany
    exact h2 c hc (of_decide_eq_true hname)
  unfold fat32Create
  rw [if_neg (not_not.mpr h1), if_neg hany, if_neg (by omega), if_neg (by omega)]
  rfl

/-- A chain that does not use an entry as a link keeps its clusters when the entry becomes the end of a
    chain. -/
theorem FatChain.write_free {c : ℕ} {l : List ℕ} (hl : FatChain disk info c l) {d : ℕ}
    (hfree : IsFatEntryFree (readFatEntry disk info d))
    (hself : readFatEntry disk' info d = readFatEntry disk info d ||| fatEntryEoc)
    (hother : ∀ x ∈ l, x ≠ d → readFatEntry disk' info x = readFatEntry disk info x) :
    FatChain disk' info c l := by
  induction hl with
  | stop hvalid => exact .stop hvalid
  | @link c l hvalid hl ih =>
    have hrest := ih fun x hx => hother x (List.mem_cons_of_mem _ hx)
    refine .link hvalid ?_
    by_cases hcd : c = d
    · -- the free entry ends the chain before and after
      subst hcd
      have hnot : ¬ IsFatEntryValid (readFatEntry disk info c) := by
        intro hv
        have h2 := hv.2
        rw [show fatEntry (readFatEntry disk info c) = 0 from hfree] at h2
        omega
      have hnil : l = [] := by
        cases hl with
        | stop _ => rfl
        | link hv _ => exact absurd hv hnot
      rw [hnil, hself]
      exact .stop (eoc_not_valid hfree)
    · rw [hother c List.mem_cons_self hcd]
      exact hrest

/-- With a free cluster in the first block of the FAT and a slot in the directory the file is created. -/
theorem createdWith_of (hg : Geometry limit info) (hl : FatChain disk info dir.inode.cluster chain)
    (hin : ∀ c ∈ chain, InVolume limit c) {c : ℕ} (hc : LowestFree disk info c) (hvol : InVolume limit c)
    {x i : ℕ} (hslot : FirstSlot disk info dir.inode.cluster x i) :
    CreatedWith limit disk info dir name stack
      (writeFatTable (fillSlot disk info x i (newEntry stack name c)) info c fatEntryEoc)
      (.mk dir.inode (dir.childs ++ [.mk (newInode info name c) []])) c := by
  have hx := hslot.mem_chain hl
  obtain ⟨-, hi, hattr⟩ := hslot.slot
  have hclt := hvol.lt_fat hg
  -- filling the slot leaves the FAT as it is
  have hfat : ∀ d < entriesPerBlock * info.sectorsPerFat,
      readFatEntry (fillSlot disk info x i (newEntry stack name c)) info d =
        readFatEntry disk info d := fun d hd => hg.readFatEntry_data (hin x hx) hd disk _
  have hself : readFatEntry
      (writeFatTable (fillSlot disk info x i (newEntry stack name c)) info c fatEntryEoc) info c =
        readFatEntry disk info c ||| fatEntryEoc := by
    rw [readFatEntry_write_self _ _ _ (by decide), hfat c hclt]
  refine ⟨hvol, hc.1.2, ?_, ⟨chain, x, i, hl, ?_, hx, hi, hattr, ?_⟩, rfl⟩
  · rw [hself]
    exact fatEntry_or_eoc hc.1.2
  · refine hl.write_free hc.1.2 hself fun y hy hyc => ?_
    have hylt := (hin y hy).lt_fat hg
    rw [hg.readFatEntry_write_of_ne _ _ hclt hylt hyc, hfat y hylt]
  · intro k hk
    have hdata := @Geometry.writeFatTable_data limit info hg c x 0
      (fillSlot disk info x i (newEntry stack name c)) fatEntryEoc hclt (hin x hx)
    rw [Nat.add_zero] at hdata
    rw [hdata]
    exact fillSlot_mem disk info x _ hi hk

/-- What a create that is not refused needs to be whole. -/
theorem needs_of_allOrNothing (hg : Geometry limit info)
    (hrefuses : ¬ Refuses dir name) (h : AllOrNothing limit disk info dir name stack) :
    (∃ c, LowestFree disk info c ∧ c < entriesPerBlock ∧ InVolume limit c) ∧
      ∃ x i, FirstSlot disk info dir.inode.cluster x i := by
  obtain ⟨n, hn⟩ := h
  obtain ⟨ret, disk', dir', hcall, hout⟩ := hn n le_rfl
  rw [fat32Create_eq hrefuses] at hcall
  obtain ⟨disk₁, hentry, hok⟩ := bind_eq_ok.mp hcall
  cases hok
  rcases hout with ⟨-, c, hcreated⟩ | ⟨hret, -⟩
  · have hcluster : getFreeFatCluster disk info = c := by
      have hchild := congrArg Vnode.childs hcreated.child
      simp only [Vnode.childs_mk, List.append_cancel_left_eq, List.cons.injEq, and_true] at hchild
      exact congrArg (fun v => v.inode.cluster) hchild
    obtain ⟨-, hlimit, hfit, hdata, -⟩ := hg
    obtain ⟨d, hd⟩ := exists_lowestFree (hcreated.inVolume.2.trans_le hlimit) hcreated.free
    have hget := getFreeFatCluster_of_lowest (by omega) hd
    have hle := hd.2 ⟨hcreated.inVolume.2.trans_le hlimit, hcreated.free⟩
    have hlt : d % entriesPerBlock < entriesPerBlock := Nat.mod_lt d (by decide)
    have hmod : d % entriesPerBlock ≤ d := Nat.mod_le d _
    obtain rfl : d = c := by omega
    obtain ⟨l, x, i, hl, -, hx, hi, hattr, -⟩ := hcreated.slot
    exact ⟨⟨d, hd, by omega, hcreated.inVolume⟩, hl.exists_firstSlot hx hi hattr⟩
  · cases hret

/-- `fat32_create` in a directory of a volume is all or nothing exactly if it refuses the name, or the
    lowest free cluster is one of the volume with its entry in the first block of the FAT, and the
    directory has a slot left. -/
theorem allOrNothing_iff (hg : Geometry limit info)
    (hl : FatChain disk info dir.inode.cluster chain) (hin : ∀ c ∈ chain, InVolume limit c) :
    AllOrNothing limit disk info dir name stack ↔ Refuses dir name ∨
      ((∃ c, LowestFree disk info c ∧ c < entriesPerBlock ∧ InVolume limit c) ∧
        ∃ x i, FirstSlot disk info dir.inode.cluster x i) := by
  constructor
  · intro h
    by_cases hrefuses : Refuses dir name
    · exact Or.inl hrefuses
    · exact Or.inr (needs_of_allOrNothing hg hrefuses h)
  · rintro h
    by_cases hrefuses : Refuses dir name
    · exact ⟨0, fun fuel _ =>
        ⟨0, disk, dir, fat32Create_refused hrefuses fuel, Or.inr ⟨rfl, rfl, rfl⟩⟩⟩
    · obtain ⟨⟨c, hc, hlt, hvol⟩, x, i, hslot⟩ := h.resolve_left hrefuses
      have hget : getFreeFatCluster disk info = c := by
        have hfit := hg.fat_le
        have hdata := hg.data_lt
        rw [getFreeFatCluster_of_lowest (by omega) hc, Nat.mod_eq_of_lt hlt]
      obtain ⟨n, hn⟩ := newDirEntry_firstSlot hslot (newEntry stack name c)
      refine ⟨n, fun fuel hfuel => ⟨1, _, _, ?_, Or.inl ⟨rfl, c, createdWith_of hg hl hin hc hvol hslot⟩⟩⟩
      rw [fat32Create_eq hrefuses, hget, hn fuel hfuel]
      rfl

/-- An empty directory with the given cluster, as `fat32_create_vnode` makes it but for the cluster. -/
def emptyDir (cluster : ℕ) : Vnode :=
  .mk { (fat32CreateVnode .dir).inode with cluster := cluster } []

theorem smallGeometry : Geometry 256 smallInfo :=
  ⟨by decide, by decide, by decide, by decide, by decide⟩

/-- The root directory of a small image has one cluster. -/
theorem smallChain {disk : Disk} (h : ¬ IsFatEntryValid (readFatEntry disk smallInfo 2)) :
    FatChain disk smallInfo 2 [2] := .link (by decide) (.stop h)

theorem allOrNothing_iff_small :
    AllOrNothing 256 (smallImage (usedBelow 4)) smallInfo (emptyDir 2) nameB (fun _ => 0) ↔
      Refuses (emptyDir 2) nameB ∨
        ((∃ c, LowestFree (smallImage (usedBelow 4)) smallInfo c ∧ c < entriesPerBlock ∧
          InVolume 256 c) ∧ ∃ x i, FirstSlot (smallImage (usedBelow 4)) smallInfo 2 x i) :=
  allOrNothing_iff smallGeometry (smallChain (by decide +kernel))
    (by simp [InVolume])

/-- A small image in whose root directory every entry has an attribute. -/
def fullTableImage : Disk := fun b i =>
  if b = 4 ∧ i % 32 = 11 then 0x20 else smallImage (usedBelow 4) b i

theorem not_refuses_emptyDir (c : ℕ) : ¬ Refuses (emptyDir c) nameB := by
  rintro (h | ⟨v, hv, -⟩ | h | h)
  · exact h rfl
  · cases hv
  · exact absurd h (Nat.not_succ_le_zero 15)
  · exact absurd h (by decide)

/-- Creating `B.TXT` is not all or nothing in a directory that `fat32_mkdir` made, on a volume without a
    free cluster, and in a directory without a free slot. -/
theorem not_allOrNothing :
    ¬ AllOrNothing 256 (smallImage (usedBelow 4)) smallInfo (emptyDir 0) nameB (fun _ => 0) ∧
      ¬ AllOrNothing 256 (smallImage (usedBelow 256)) smallInfo (emptyDir 2) nameB (fun _ => 0) ∧
      ¬ AllOrNothing 256 fullTableImage smallInfo (emptyDir 2) nameB (fun _ => 0) := by
  refine ⟨fun h => ?_, fun h => ?_, fun h => ?_⟩
  · obtain ⟨-, x, i, hslot⟩ := needs_of_allOrNothing smallGeometry (not_refuses_emptyDir 0) h
    exact not_valid_zero hslot.valid
  · obtain ⟨⟨c, hc, -, hvol⟩, -⟩ := needs_of_allOrNothing smallGeometry (not_refuses_emptyDir 2) h
    have hused : ∀ c < 256, ¬ IsFatEntryFree (readFatEntry (smallImage (usedBelow 256)) smallInfo c) := by
      decide +kernel
    exact hused c hvol.2 hc.1.2
  · obtain ⟨-, x, i, hslot⟩ := needs_of_allOrNothing smallGeometry (not_refuses_emptyDir 2) h
    have hl : FatChain fullTableImage smallInfo 2 [2] := smallChain (by decide +kernel)
    obtain rfl : x = 2 := List.mem_singleton.mp (hslot.mem_chain hl)
    obtain ⟨-, hi, hattr⟩ := hslot.slot
    have hfull : ∀ i < slotsPerBlock, entryAttr (fullTableImage (clusterBlock smallInfo 2)) i ≠ 0 := by
      decide +kernel
    exact hfull i hi hattr

end RaspiKernel.Fs
