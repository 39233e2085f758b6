import RaspiKernel.Fs.NewEntry

/-!
# FAT32 files do not share clusters

On a mounted volume every inode owns the clusters of its chain, and distinct
inodes own distinct clusters; an empty file has cluster number 0 and owns none.
`fat32_create` keeps that where `get_free_fat_cluster` returns a free cluster,
that is where the first block of the FAT has a free entry: the function returns
the index of the entry in its block, and so a cluster in use if the first free
entry is in a later block.

Results:
* `create_inv`, `write_inv`: what an operation keeps.
* `reached_isolated`: in every run whose creates find a free entry in the first
  block of the FAT, no two inodes have the same cluster, except for those of the
  image that have none, and a write changes no block of another inode and nothing
  before the data region.
* `create_shares_cluster`: a volume on which a create returns a file with the
  cluster of another one.
-/

namespace RaspiKernel.Fs

open Lib

/-! ## Ownership -/

/-- The FAT links cluster `x` to cluster `y`. -/
def Link (disk : Disk) (info : Fat32Info) (x y : ℕ) : Prop :=
  IsFatEntryValid (readFatEntry disk info x) ∧ y = readFatEntry disk info x

/-- Cluster `x` is on the chain that starts with `c`. An inode with cluster 0 has no chain. -/
def Owns (disk : Disk) (info : Fat32Info) (c x : ℕ) : Prop :=
  c ≠ 0 ∧ Relation.ReflTransGen (Link disk info) c x

/-- Two chains start with different clusters and share none. -/
def Apart (disk : Disk) (info : Fat32Info) (c d : ℕ) : Prop :=
  c ≠ d ∧ ∀ x, Owns disk info c x → ¬ Owns disk info d x

/-- The clusters of the inodes that have one. -/
def ownedClusters (root : Vnode) : List ℕ := (root.nodes.map (·.cluster)).filter (· ≠ 0)

/-- A volume with inodes that have the given clusters: the clusters of their chains are clusters of the
    volume and allocated, and distinct inodes share none. The two reserved entries of the FAT are not
    free. -/
structure Volume (limit : ℕ) (disk : Disk) (info : Fat32Info) (clusters : List ℕ) : Prop where
  geometry : Geometry limit info
  reserved : ∀ c < 2, ¬ IsFatEntryFree (readFatEntry disk info c)
  allocated : ∀ c ∈ clusters, ∀ x, Owns disk info c x →
    InVolume limit x ∧ ¬ IsFatEntryFree (readFatEntry disk info x)
  apart : clusters.Pairwise (Apart disk info)

variable {limit : ℕ} {disk disk' : Disk} {info : Fat32Info} {clusters : List ℕ}

theorem Apart.symm {c d : ℕ} (h : Apart disk info c d) : Apart disk info d c :=
  ⟨h.1.symm, fun x hd hc => h.2 x hc hd⟩

theorem Owns.refl {c : ℕ} (hc : c ≠ 0) : Owns disk info c c := ⟨hc, .refl⟩

theorem InVolume.lt_fat {c : ℕ} (hc : InVolume limit c) (hg : Geometry limit info) :
    c < entriesPerBlock * info.sectorsPerFat := lt_of_lt_of_le hc.2 hg.limit_le

/-- Ownership depends on the entries of the owned clusters only. -/
theorem owns_congr {c : ℕ}
    (h : ∀ x, Owns disk info c x → readFatEntry disk' info x = readFatEntry disk info x) (x : ℕ) :
    Owns disk' info c x ↔ Owns disk info c x := by
  constructor
  · rintro ⟨h0, hreach⟩
    refine ⟨h0, ?_⟩
    induction hreach with
    | refl => exact .refl
    | tail _ hlink ih =>
      obtain ⟨hvalid, rfl⟩ := hlink
      rw [h _ ⟨h0, ih⟩] at hvalid ⊢
      exact ih.tail ⟨hvalid, rfl⟩
  · rintro ⟨h0, hreach⟩
    refine ⟨h0, ?_⟩
    induction hreach with
    | refl => exact .refl
    | tail hreach hlink ih =>
      obtain ⟨hvalid, rfl⟩ := hlink
      refine ih.tail ⟨?_, (h _ ⟨h0, hreach⟩).symm⟩
      rwa [h _ ⟨h0, hreach⟩]

/-- A chain whose first entry is no link has one cluster. -/
theorem owns_of_not_valid {c x : ℕ} (h : ¬ IsFatEntryValid (readFatEntry disk info c))
    (hx : Owns disk info c x) : x = c := by
  obtain ⟨-, hreach⟩ := hx
  induction hreach with
  | refl => rfl
  | tail _ hlink ih =>
    obtain ⟨hvalid, -⟩ := hlink
    rw [ih] at hvalid
    exact absurd hvalid h

/-- A volume stays one when the entries of the owned clusters and the reserved ones are kept. -/
theorem Volume.congr (hv : Volume limit disk info clusters)
    (hreserved : ∀ c < 2, readFatEntry disk' info c = readFatEntry disk info c)
    (howned : ∀ c ∈ clusters, ∀ x, Owns disk info c x →
      readFatEntry disk' info x = readFatEntry disk info x) : Volume limit disk' info clusters := by
  have hiff : ∀ c ∈ clusters, ∀ x, Owns disk' info c x ↔ Owns disk info c x :=
    fun c hc => owns_congr (howned c hc)
  refine ⟨hv.geometry, ?_, ?_, ?_⟩
  · intro c hc
    rw [hreserved c hc]
    exact hv.reserved c hc
  · intro c hc x hx
    rw [hiff c hc] at hx
    rw [howned c hc x hx]
    exact hv.allocated c hc x hx
  · refine hv.apart.imp_of_mem ?_
    rintro c d hc hd ⟨hne, hdisj⟩
    refine ⟨hne, ?_⟩
    intro x hxc hxd
    rw [hiff c hc] at hxc
    rw [hiff d hd] at hxd
    exact hdisj x hxc hxd

/-- The order of the inodes does not matter. -/
theorem Volume.perm (hv : Volume limit disk info clusters) {clusters' : List ℕ}
    (hp : clusters'.Perm clusters) : Volume limit disk info clusters' := by
  refine ⟨hv.geometry, hv.reserved, fun c hc => hv.allocated c (hp.mem_iff.mp hc), ?_⟩
  exact (hp.pairwise_iff Apart.symm).mpr hv.apart

/-! ## Inodes of the tree -/

theorem mem_ownedClusters {root : Vnode} {n : Fat32Inode} (hn : n ∈ root.nodes)
    (h0 : n.cluster ≠ 0) : n.cluster ∈ ownedClusters root :=
  List.mem_filter.mpr ⟨List.mem_map.mpr ⟨n, hn, rfl⟩, by simpa using h0⟩

/-- Two inodes that have a cluster share none. -/
def InodesApart (disk : Disk) (info : Fat32Info) (a b : Fat32Inode) : Prop :=
  a.cluster ≠ 0 → b.cluster ≠ 0 → Apart disk info a.cluster b.cluster

theorem InodesApart.symm {a b : Fat32Inode} (h : InodesApart disk info a b) :
    InodesApart disk info b a := fun hb ha => (h ha hb).symm

/-- The numbers differ unless both inodes have none. -/
theorem InodesApart.ne_iff {a b : Fat32Inode} (h : InodesApart disk info a b) :
    a.cluster ≠ b.cluster ↔ ¬ (a.cluster = 0 ∧ b.cluster = 0) := by
  constructor
  · intro hne h0
    exact hne (h0.1.trans h0.2.symm)
  · intro h0 heq
    have ha : a.cluster ≠ 0 := fun ha => h0 ⟨ha, heq ▸ ha⟩
    exact (h ha (heq ▸ ha)).1 heq

theorem Volume.inodesApart {root : Vnode} (hv : Volume limit disk info (ownedClusters root)) :
    root.nodes.Pairwise (InodesApart disk info) := by
  have h := List.pairwise_map.mp (List.pairwise_filter.mp hv.apart)
  exact h.imp fun h ha hb => h (by simpa using ha) (by simpa using hb)

/-- A value is in a list at most once if no two of its places have it. -/
theorem count_le_one_iff {l : List ℕ} {a : ℕ} :
    l.count a ≤ 1 ↔ l.Pairwise fun x y => ¬ (x = a ∧ y = a) := by
  induction l with
  | nil => simp
  | cons x l ih =>
    rw [List.pairwise_cons, ← ih]
    by_cases hx : x = a
    · subst hx
      have hmem : (∀ y ∈ l, ¬ (x = x ∧ y = x)) ↔ l.count x = 0 := by
        rw [List.count_eq_zero]
        constructor
        · intro h hx
          exact h x hx ⟨rfl, rfl⟩
        · rintro h y hy ⟨-, rfl⟩
          exact h hy
      rw [hmem, List.count_cons_self]
      omega
    · simp [hx]

/-! ## Blocks that are written -/

/-- A write to a block of the data region keeps the volume. -/
theorem Volume.write_data (hv : Volume limit disk info clusters) {x : ℕ} (hx : InVolume limit x)
    (buf : Mem) : Volume limit (writeblock disk (clusterBlock info x) buf) info clusters := by
  have hg := hv.geometry
  apply hv.congr
  · intro c hc
    have := hx.lt_fat hg
    exact hg.readFatEntry_data hx (by have := hx.1; omega) disk buf
  · intro c hc y hy
    exact hg.readFatEntry_data hx ((hv.allocated c hc y hy).1.lt_fat hg) disk buf

/-- Marking a free cluster of the volume as the end of a chain, for a new inode. -/
theorem Volume.write_fat (hv : Volume limit disk info clusters) {c : ℕ} (hc : InVolume limit c)
    (hfree : IsFatEntryFree (readFatEntry disk info c)) :
    Volume limit (writeFatTable disk info c fatEntryEoc) info (c :: clusters) := by
  have hg := hv.geometry
  have hclt := hc.lt_fat hg
  -- no chain contains the free cluster, so that their entries are kept
  have hne : ∀ d ∈ clusters, ∀ x, Owns disk info d x → x ≠ c := by
    rintro d hd x hx rfl
    exact (hv.allocated d hd x hx).2 hfree
  have hkeep : ∀ d ∈ clusters, ∀ x, Owns disk info d x →
      readFatEntry (writeFatTable disk info c fatEntryEoc) info x = readFatEntry disk info x := by
    intro d hd x hx
    exact hg.readFatEntry_write_of_ne disk _ hclt ((hv.allocated d hd x hx).1.lt_fat hg)
      (hne d hd x hx)
  have hold : Volume limit (writeFatTable disk info c fatEntryEoc) info clusters := by
    refine hv.congr ?_ hkeep
    intro r hr
    have h2 := hc.1
    exact hg.readFatEntry_write_of_ne disk _ hclt (by omega) (by omega)
  have hentry : readFatEntry (writeFatTable disk info c fatEntryEoc) info c =
      readFatEntry disk info c ||| fatEntryEoc := readFatEntry_write_self disk info c (by decide)
  -- the chain of the new inode ends at once
  have hnew : ∀ x, Owns (writeFatTable disk info c fatEntryEoc) info c x → x = c := by
    intro x
    apply owns_of_not_valid
    rw [hentry]
    exact eoc_not_valid hfree
  refine ⟨hg, hold.reserved, ?_, ?_⟩
  · intro d hd x hx
    rcases List.mem_cons.mp hd with rfl | hd
    · rw [hnew x hx, hentry]
      exact ⟨hc, not_free_or hfree⟩
    · exact hold.allocated d hd x hx
  · rw [List.pairwise_cons]
    refine ⟨?_, hold.apart⟩
    intro d hd
    have hnot : ∀ x, Owns (writeFatTable disk info c fatEntryEoc) info d x → x ≠ c := by
      intro x hx
      exact hne d hd x ((owns_congr (hkeep d hd) x).mp hx)
    refine ⟨?_, ?_⟩
    · rintro rfl
      exact hnot c (.refl (by have := hc.1; omega)) rfl
    · intro x hx hxd
      exact hnot x hxd (hnew x hx)

/-! ## The operations -/

/-- The slot is in a block of the walk and has attribute 0. -/
theorem FirstSlot.slot {cur x i : ℕ} (h : FirstSlot disk info cur x i) :
    Relation.ReflTransGen (Link disk info) cur x ∧ i < slotsPerBlock ∧
      entryAttr (disk (clusterBlock info x)) i = 0 := by
  induction h with
  | here _ hi =>
    obtain ⟨hattr, hlt, -⟩ := List.find?_range_eq_some.mp hi
    exact ⟨.refl, List.mem_range.mp hlt, of_decide_eq_true hattr⟩
  | next _ _ hrest ih => exact ⟨.head ⟨hrest.valid, rfl⟩ ih.1, ih.2⟩

theorem not_valid_zero : ¬ IsFatEntryValid 0 := by decide

/-- `fat32_new_dir_entry` keeps the volume and the FAT. -/
theorem Volume.newDirEntry (hv : Volume limit disk info clusters) {dirCluster fuel : ℕ} {entry : Mem}
    (hdir : dirCluster ≠ 0 → dirCluster ∈ clusters)
    (h : fat32NewDirEntry fuel disk info dirCluster entry = .ok disk') :
    Volume limit disk' info clusters ∧ ∀ c < entriesPerBlock * info.sectorsPerFat,
      readFatEntry disk' info c = readFatEntry disk info c := by
  rcases newDirEntry_ok h with ⟨x, i, hslot, rfl⟩ | ⟨rfl, -⟩
  · have h0 : dirCluster ≠ 0 := by
      rintro rfl
      exact not_valid_zero hslot.valid
    have hx := (hv.allocated dirCluster (hdir h0) x ⟨h0, hslot.slot.1⟩).1
    exact ⟨hv.write_data hx _, fun c hc => hv.geometry.readFatEntry_data hx hc disk _⟩
  · exact ⟨hv, fun _ _ => rfl⟩

/-- Where the first block of the FAT has a free entry and the volume a free cluster,
    `get_free_fat_cluster` returns one of the volume. -/
theorem Volume.getFree (hv : Volume limit disk info clusters)
    (hvol : ∃ c, InVolume limit c ∧ IsFatEntryFree (readFatEntry disk info c))
    (hfirst : ∃ i < entriesPerBlock, IsFatEntryFree (readFatEntry disk info i)) :
    InVolume limit (getFreeFatCluster disk info) ∧
      IsFatEntryFree (readFatEntry disk info (getFreeFatCluster disk info)) := by
  obtain ⟨c, ⟨h2, hlt⟩, hc⟩ := hvol
  obtain ⟨-, hfree, hlow⟩ := hv.geometry.getFreeFatCluster_spec (by omega) hfirst
  refine ⟨⟨?_, ?_⟩, hfree⟩
  · by_contra hlt2
    exact hv.reserved _ (by omega) hfree
  · by_contra hge
    exact hlow c (by omega) hc

/-- What `fat32_create` can do: refuse, or write an entry, mark the cluster and add the file. -/
theorem fat32Create_cases {fuel : ℕ} {dir dir' : Vnode} {name : List UInt8} {stack : Mem} {ret : ℕ}
    (h : fat32Create fuel disk info dir name stack = .ok (ret, disk', dir')) :
    (ret = 0 ∧ disk' = disk ∧ dir' = dir) ∨
      (ret = 1 ∧ dir.inode.type = .dir ∧ (∀ c ∈ dir.childs, c.inode.name ≠ name) ∧
        dir.childs.length < maxDirNum ∧
        ∃ disk₁, fat32NewDirEntry fuel disk info dir.inode.cluster
            (newEntry stack name (getFreeFatCluster disk info)) = .ok disk₁ ∧
          disk' = writeFatTable disk₁ info (getFreeFatCluster disk info) fatEntryEoc ∧
          dir' = .mk dir.inode
            (dir.childs ++ [.mk (newInode info name (getFreeFatCluster disk info)) []])) := by
  unfold fat32Create at h
  split at h
  · cases h
    exact .inl ⟨rfl, rfl, rfl⟩
  next htype =>
    split at h
    · cases h
      exact .inl ⟨rfl, rfl, rfl⟩
    next hname =>
      split at h
      · cases h
        exact .inl ⟨rfl, rfl, rfl⟩
      next hfull =>
        split at h
        · cases h
          exact .inl ⟨rfl, rfl, rfl⟩
        · obtain ⟨disk₁, hdisk₁, hok⟩ := bind_eq_ok.mp h
          cases hok
          refine .inr ⟨rfl, not_not.mp htype, ?_, by omega, disk₁, hdisk₁, rfl, rfl⟩
          simpa using hname

/-- The number of inodes that have no cluster. -/
def withoutCluster (root : Vnode) : ℕ := (root.nodes.map (·.cluster)).count 0

/-- The invariant of the runs, where `empty` inodes of the mounted image have no cluster. -/
structure Fat32Inv (limit empty : ℕ) (fs : Fat32) : Prop where
  volume : Volume limit fs.disk fs.info (ownedClusters fs.root)
  placed : ∀ n ∈ fs.root.nodes, n.absBlockNum = clusterBlock fs.info n.cluster
  without : withoutCluster fs.root = empty

/-- The steps of the runs. -/
inductive FsOp where
  /-- `fat32_create` in the directory at the path. -/
  | create (path : List ℕ) (name : List UInt8) (stack : Mem)
  /-- `fat32_write` at position `fPos` of the file at the path. -/
  | write (path : List ℕ) (fPos : ℕ) (bs : List UInt8)

/-- One step, `fuel` bounds the loops. -/
def Fat32.step (fs : Fat32) (fuel : ℕ) : FsOp → Except Stop Fat32
  | .create path name stack => do
    let (_, fs) ← fs.create fuel path name stack
    .ok fs
  | .write path fPos bs => do
    let (_, fs) ← fs.write path fPos bs
    .ok fs

/-- The steps that are considered: a free cluster is left before a create, and a write stays within the
    block. -/
def FsOp.Granted (limit : ℕ) (fs : Fat32) : FsOp → Prop
  | .create _ _ _ => ∃ c, InVolume limit c ∧ IsFatEntryFree (readFatEntry fs.disk fs.info c)
  | .write _ fPos bs => fPos + bs.length ≤ blockSize

/-- The steps that are safe: the first block of the FAT has a free entry before a create, and a file
    that is written has a cluster. -/
def FsOp.Safe (fs : Fat32) : FsOp → Prop
  | .create _ _ _ => ∃ i < entriesPerBlock, IsFatEntryFree (readFatEntry fs.disk fs.info i)
  | .write path _ _ => ∀ v, fs.root.get? path = some v → v.inode.cluster ≠ 0

/-- The states that steps with the property `P` reach. -/
inductive Reached (fuel : ℕ) (P : Fat32 → FsOp → Prop) (fs₀ : Fat32) : Fat32 → Prop
  | start : Reached fuel P fs₀ fs₀
  | step {fs fs' : Fat32} {op : FsOp} (h : Reached fuel P fs₀ fs) (hop : P fs op)
      (hstep : fs.step fuel op = .ok fs') : Reached fuel P fs₀ fs'

variable {empty : ℕ} {fs fs' : Fat32}

theorem Fat32Inv.mem_clusters {path : List ℕ} {v : Vnode} (h : fs.root.get? path = some v)
    (h0 : v.inode.cluster ≠ 0) : v.inode.cluster ∈ ownedClusters fs.root :=
  mem_ownedClusters (Vnode.inode_mem_of_get? h) h0

/-- The cluster of an inode that has one. -/
theorem Fat32Inv.inVolume (hinv : Fat32Inv limit empty fs) {path : List ℕ} {v : Vnode}
    (h : fs.root.get? path = some v) (h0 : v.inode.cluster ≠ 0) :
    InVolume limit v.inode.cluster :=
  (hinv.volume.allocated _ (Fat32Inv.mem_clusters h h0) _ (.refl h0)).1

/-- All inodes have numbers of their own if and only if at most one inode has no cluster. -/
theorem Fat32Inv.distinct_iff (hinv : Fat32Inv limit empty fs) :
    (∀ p q v w, p ≠ q → fs.root.get? p = some v → fs.root.get? q = some w →
        v.inode.cluster ≠ w.inode.cluster) ↔ empty ≤ 1 := by
  have hapart := hinv.volume.inodesApart
  have hpaths := fs.root.pairwise_paths_iff (R := fun a b => a.cluster ≠ b.cluster)
    fun _ _ h => h.symm
  rw [← hpaths, ← hinv.without, withoutCluster, count_le_one_iff, List.pairwise_map]
  constructor
  · intro h
    exact (h.and hapart).imp fun h => h.2.ne_iff.mp h.1
  · intro h
    exact (h.and hapart).imp fun h => h.2.ne_iff.mpr h.1

theorem create_inv (hinv : Fat32Inv limit empty fs) {fuel : ℕ} {path : List ℕ} {name : List UInt8}
    {stack : Mem} {ret : ℕ}
    (hvol : ∃ c, InVolume limit c ∧ IsFatEntryFree (readFatEntry fs.disk fs.info c))
    (hfirst : ∃ i < entriesPerBlock, IsFatEntryFree (readFatEntry fs.disk fs.info i))
    (h : fs.create fuel path name stack = .ok (ret, fs')) : Fat32Inv limit empty fs' := by
  unfold Fat32.create at h
  split at h
  · cases h
  next dir hdir =>
    obtain ⟨⟨r, disk', dir'⟩, hcreate, hok⟩ := bind_eq_ok.mp h
    cases hok
    obtain ⟨pre, post, hnodes, hset⟩ := Vnode.nodes_set hdir
    rcases fat32Create_cases hcreate with ⟨-, rfl, rfl⟩ | ⟨-, -, -, -, disk₁, hentry, rfl, rfl⟩
    · -- a refused create puts the directory back
      have heq : (fs.root.set path dir').nodes = fs.root.nodes := by rw [hset, hnodes]
      refine ⟨?_, by simpa only [heq] using hinv.placed, ?_⟩
      · simpa only [ownedClusters, heq] using hinv.volume
      · simpa only [withoutCluster, heq] using hinv.without
    · obtain ⟨hc, hfree⟩ := hinv.volume.getFree hvol hfirst
      obtain ⟨hv₁, hfat₁⟩ := hinv.volume.newDirEntry (Fat32Inv.mem_clusters hdir) hentry
      have hperm : (fs.root.set path (.mk dir.inode (dir.childs ++
          [.mk (newInode fs.info name (getFreeFatCluster fs.disk fs.info)) []]))).nodes.Perm
          (newInode fs.info name (getFreeFatCluster fs.disk fs.info) :: fs.root.nodes) := by
        rw [hset, hnodes, dir.nodes_eq, Vnode.nodes_eq (.mk _ _)]
        have := @List.perm_middle _ (newInode fs.info name (getFreeFatCluster fs.disk fs.info))
          (pre ++ dir.inode :: dir.childs.flatMap Vnode.nodes) post
        simpa [Vnode.nodes, nodesOf] using this
      have h0 : getFreeFatCluster fs.disk fs.info ≠ 0 := by have := hc.1; omega
      have hclusters := hperm.map (·.cluster)
      rw [List.map_cons] at hclusters
      refine ⟨?_, ?_, ?_⟩
      · have howned := hclusters.filter (· ≠ 0)
        rw [List.filter_cons_of_pos (by simp [newInode, h0])] at howned
        apply Volume.perm ?_ howned
        rw [← hfat₁ _ (hc.lt_fat hinv.volume.geometry)] at hfree
        exact hv₁.write_fat hc hfree
      · intro n hn
        rcases List.mem_cons.mp (hperm.mem_iff.mp hn) with rfl | hn
        · rfl
        · exact hinv.placed n hn
      · -- the new inode has a cluster
        dsimp only
        rw [withoutCluster, hclusters.count_eq, List.count_cons_of_ne (by simpa [newInode] using h0)]
        exact hinv.without

/-- What `fat32_write` can do: nothing, or write the block of the file. -/
theorem write_cases {path : List ℕ} {v : Vnode} {fPos : ℕ} {bs : List UInt8}
    (hv : fs.root.get? path = some v) (hend : fPos + bs.length ≤ blockSize) :
    ∃ disk' inode', fs.write path fPos bs =
        .ok (bs.length, { fs with disk := disk', root := fs.root.set path (.mk inode' v.childs) }) ∧
      (disk' = fs.disk ∨ ∃ buf, disk' = writeblock fs.disk v.inode.absBlockNum buf) ∧
      inode'.cluster = v.inode.cluster ∧ inode'.absBlockNum = v.inode.absBlockNum := by
  unfold Fat32.write
  rw [hv]
  by_cases hbs : bs = []
  · subst hbs
    exact ⟨fs.disk, v.inode, rfl, .inl rfl, rfl, rfl⟩
  · dsimp only
    rw [fat32Write_spec hbs hend]
    exact ⟨_, _, rfl, .inr ⟨_, rfl⟩, rfl, rfl⟩

theorem write_inv (hinv : Fat32Inv limit empty fs) {path : List ℕ} {fPos : ℕ} {bs : List UInt8} {ret : ℤ}
    (hend : fPos + bs.length ≤ blockSize)
    (hcluster : ∀ v, fs.root.get? path = some v → v.inode.cluster ≠ 0)
    (h : fs.write path fPos bs = .ok (ret, fs')) : Fat32Inv limit empty fs' := by
  cases hget : fs.root.get? path with
  | none =>
    rw [Fat32.write, hget] at h
    cases h
  | some v =>
    obtain ⟨disk', inode', hwrite, hdisk, hc, hb⟩ := write_cases hget hend
    rw [hwrite] at h
    cases h
    obtain ⟨pre, post, hnodes, hset⟩ := Vnode.nodes_set hget
    have hplaced := hinv.placed v.inode (Vnode.inode_mem_of_get? hget)
    have hmap : (fs.root.set path (.mk inode' v.childs)).nodes.map (·.cluster) =
        fs.root.nodes.map (·.cluster) := by
      rw [hset, hnodes, v.nodes_eq, Vnode.nodes_eq (.mk _ _)]
      simp [hc]
    refine ⟨?_, ?_, ?_⟩
    · dsimp only
      rw [ownedClusters, hmap]
      rcases hdisk with rfl | ⟨buf, rfl⟩
      · exact hinv.volume
      · rw [hplaced]
        exact hinv.volume.write_data (hinv.inVolume hget (hcluster v hget)) buf
    · intro n hn
      dsimp only at hn
      rw [hset, Vnode.nodes_eq (.mk _ _)] at hn
      have hold : ∀ n ∈ pre ++ v.nodes ++ post, n.absBlockNum = clusterBlock fs.info n.cluster := by
        rw [← hnodes]
        exact hinv.placed
      rw [v.nodes_eq] at hold
      simp only [Vnode.inode_mk, Vnode.childs_mk, List.mem_append, List.mem_cons] at hn hold
      rcases hn with (hn | rfl | hn) | hn
      · exact hold n (.inl (.inl hn))
      · rw [hb, hc]
        exact hplaced
      · exact hold n (.inl (.inr (.inr hn)))
      · exact hold n (.inr hn)
    · dsimp only
      rw [withoutCluster, hmap]
      exact hinv.without

theorem step_inv (hinv : Fat32Inv limit empty fs) {fuel : ℕ} {op : FsOp} (hgranted : op.Granted limit fs)
    (hsafe : op.Safe fs) (h : fs.step fuel op = .ok fs') : Fat32Inv limit empty fs' := by
  cases op with
  | create path name stack =>
    obtain ⟨⟨ret, fs₁⟩, hcreate, hok⟩ := bind_eq_ok.mp h
    cases hok
    exact create_inv hinv hgranted hsafe hcreate
  | write path fPos bs =>
    obtain ⟨⟨ret, fs₁⟩, hwrite, hok⟩ := bind_eq_ok.mp h
    cases hok
    exact write_inv hinv hgranted hsafe hwrite

/-! ## Whole runs -/

/-- What a mount comes back with. -/
theorem mount_ok {k : ℕ} (h : fat32SetupMount k disk = .ok fs) :
    ∃ rootDir, getFat32BootSector disk = .ok (fs.info, rootDir) ∧ fs.disk = disk ∧
      setupFat32 disk fs.info k (rootInode disk fs.info rootDir) = .ok fs.root := by
  unfold fat32SetupMount at h
  obtain ⟨⟨info, rootDir⟩, hboot, h⟩ := bind_eq_ok.mp h
  obtain ⟨root, hroot, hok⟩ := bind_eq_ok.mp h
  cases hok
  exact ⟨rootDir, hboot, rfl, hroot⟩

theorem mount_placed {k : ℕ} (h : fat32SetupMount k disk = .ok fs) :
    ∀ n ∈ fs.root.nodes, n.absBlockNum = clusterBlock fs.info n.cluster := by
  obtain ⟨rootDir, -, -, hroot⟩ := mount_ok h
  exact setupFat32_nodes (P := fun n => n.absBlockNum = clusterBlock fs.info n.cluster)
    (fun _ => rfl) (fun _ _ _ hn => hn) rfl rfl hroot

theorem Reached.inv {fuel : ℕ} {fs₀ : Fat32} (hinv : Fat32Inv limit empty fs₀)
    (h : Reached fuel (fun fs op => op.Granted limit fs ∧ op.Safe fs) fs₀ fs) :
    Fat32Inv limit empty fs := by
  induction h with
  | start => exact hinv
  | step _ hop hstep ih => exact step_inv ih hop.1 hop.2 hstep

/-- Mount a volume and make any sequence of creates and writes within a block, with a free cluster left
    before each create. If moreover the first block of the FAT has a free entry before each create, and
    no inode without a cluster is written, then in every state that is reached only inodes without a
    cluster have the same number, so that all numbers differ if and only if the image has at most one
    such inode, and writing an inode changes no block of a cluster of another one and nothing before the
    data region, in particular not the FAT. -/
theorem reached_isolated {k fuel : ℕ} {fs₀ : Fat32} (hmount : fat32SetupMount k disk = .ok fs₀)
    (hvol : Volume limit fs₀.disk fs₀.info (ownedClusters fs₀.root))
    (h : Reached fuel (fun fs op => op.Granted limit fs ∧ op.Safe fs) fs₀ fs) :
    ((∀ p q v w, p ≠ q → fs.root.get? p = some v → fs.root.get? q = some w →
        v.inode.cluster ≠ w.inode.cluster) ↔ withoutCluster fs₀.root ≤ 1) ∧
      (∀ p q v w, p ≠ q → fs.root.get? p = some v → fs.root.get? q = some w →
        v.inode.cluster = w.inode.cluster → v.inode.cluster = 0) ∧
      ∀ p v fPos bs, fs.root.get? p = some v → v.inode.cluster ≠ 0 →
        fPos + bs.length ≤ blockSize →
        ∃ ret fs', fs.write p fPos bs = .ok (ret, fs') ∧
          (∀ q w x j, q ≠ p → fs.root.get? q = some w → Owns fs.disk fs.info w.inode.cluster x →
            j < fs.info.blocksPerCluster →
            fs'.disk (clusterBlock fs.info x + j) = fs.disk (clusterBlock fs.info x + j)) ∧
          (∀ b < fs.info.dataRegion, fs'.disk b = fs.disk b) ∧
          ∀ c, InVolume limit c →
            readFatEntry fs'.disk fs.info c = readFatEntry fs.disk fs.info c := by
  have hinv := h.inv ⟨hvol, mount_placed hmount, rfl⟩
  have hg := hinv.volume.geometry
  have hpairs : ∀ {p q v w}, p ≠ q → fs.root.get? p = some v → fs.root.get? q = some w →
      InodesApart fs.disk fs.info v.inode w.inode :=
    Vnode.pairwise_paths (fun _ _ => InodesApart.symm) hinv.volume.inodesApart
  refine ⟨hinv.distinct_iff, ?_, ?_⟩
  · intro p q v w hpq hv hw heq
    by_contra h0
    exact (hpairs hpq hv hw h0 (heq ▸ h0)).1 heq
  · intro p v fPos bs hv h0 hend
    obtain ⟨disk', inode', hwrite, hdisk, -, -⟩ := write_cases hv hend
    have hvin := hinv.inVolume hv h0
    rw [hinv.placed v.inode (Vnode.inode_mem_of_get? hv)] at hdisk
    -- only the first block of the file's own cluster can change
    have hother : ∀ b, b ≠ clusterBlock fs.info v.inode.cluster → disk' b = fs.disk b := by
      intro b hb
      rcases hdisk with rfl | ⟨buf, rfl⟩
      · rfl
      · exact writeblock_of_ne _ hb buf
    refine ⟨_, _, hwrite, ?_, ?_, ?_⟩
    · intro q w x j hqp hw hx hj
      have hapart := hpairs hqp hw hv hx.1 h0
      have hxin := (hinv.volume.allocated _ (Fat32Inv.mem_clusters hw hx.1) x hx).1
      have hne : x ≠ v.inode.cluster := by
        rintro rfl
        exact hapart.2 _ hx (.refl h0)
      exact hother _ (hg.clusterBlock_apart hxin hvin hne hj)
    · intro b hb
      apply hother
      rw [hg.clusterBlock_eq hvin]
      omega
    · intro c hc
      apply readFatEntry_congr
      dsimp only
      rw [hother _ (hg.fatBlock_ne hvin (hc.lt_fat hg))]
      exact fun _ _ => rfl

/-! ## A volume -/

/-- The entry of a file `A.TXT` of 5 bytes in cluster 3. -/
def entryA : List UInt8 :=
  [0x41, 0x20, 0x20, 0x20, 0x20, 0x20, 0x20, 0x20, 0x54, 0x58, 0x54, 0x20] ++
    List.replicate 14 0 ++ [3, 0, 5, 0, 0, 0]

/-- A disk with one partition from block 1 on: one reserved block, a FAT of two blocks with the given
    entries, and the root directory in cluster 2 with the file `A.TXT`. A cluster is one block. -/
def smallImage (fat : ℕ → ℕ) : Disk := fun b i =>
  if b = 0 then if i = 454 then 1 else if i = 510 then 0x55 else if i = 511 then 0xaa else 0
  else if b = 1 then
    if i = 13 ∨ i = 14 ∨ i = 16 then 1 else if i = 36 ∨ i = 44 then 2 else 0
  else if b < 4 then UInt8.ofNat (fat (128 * (b - 2) + i / 4) / 256 ^ (i % 4))
  else if b = 4 then ofBytes entryA i
  else 0

/-- The layout of `smallImage`. -/
def smallInfo : Fat32Info := ⟨1, 2, 4, 1, 2⟩

/-- Clusters 2 and 3 with one-cluster chains make a volume. -/
theorem smallVolume {disk : Disk}
    (hreserved : ∀ c < 2, ¬ IsFatEntryFree (readFatEntry disk smallInfo c))
    (hend : ∀ c ∈ [2, 3], ¬ IsFatEntryValid (readFatEntry disk smallInfo c) ∧
      ¬ IsFatEntryFree (readFatEntry disk smallInfo c)) :
    Volume 256 disk smallInfo [2, 3] := by
  refine ⟨⟨by decide, by decide, by decide, by decide, by decide⟩, hreserved, ?_, ?_⟩
  · intro c hc x hx
    rw [owns_of_not_valid (hend c hc).1 hx]
    refine ⟨?_, (hend c hc).2⟩
    have : c = 2 ∨ c = 3 := by simpa using hc
    unfold InVolume
    omega
  · have hapart : Apart disk smallInfo 2 3 := by
      refine ⟨by decide, ?_⟩
      intro x h2 h3
      have h2 := owns_of_not_valid (hend 2 (by simp)).1 h2
      have h3 := owns_of_not_valid (hend 3 (by simp)).1 h3
      omega
    simpa using hapart

/-- The name `B.TXT`. -/
def nameB : List UInt8 := [0x42, 0x2e, 0x54, 0x58, 0x54]

/-- Mount a small image, make one step, and give the layout, the clusters before it and those of the
    files in the root directory after it. -/
def mountStep (fat : ℕ → ℕ) (op : FsOp) : Except Stop (Fat32Info × List ℕ × List ℕ) := do
  let fs ← fat32SetupMount 2 (smallImage fat)
  let fs' ← fs.step 2 op
  .ok (fs.info, fs.root.nodes.map (·.cluster), fs'.root.childs.map (·.inode.cluster))

theorem mountStep_ok (fat : ℕ → ℕ) (op : FsOp) (cs cs' : List ℕ)
    (h : (mountStep fat op).toOption = some (smallInfo, cs, cs')) :
    ∃ fs₀ fs, fat32SetupMount 2 (smallImage fat) = .ok fs₀ ∧ fs₀.step 2 op = .ok fs ∧
      fs₀.disk = smallImage fat ∧ fs₀.info = smallInfo ∧ fs₀.root.nodes.map (·.cluster) = cs ∧
      fs.root.childs.map (·.inode.cluster) = cs' := by
  cases hm : fat32SetupMount 2 (smallImage fat) with
  | error e =>
    rw [mountStep, hm] at h
    cases h
  | ok fs₀ =>
    obtain ⟨-, -, hdisk, -⟩ := mount_ok hm
    cases hs : fs₀.step 2 op with
    | error e =>
      have : mountStep fat op = .error e := by
        rw [mountStep, hm]
        show (fs₀.step 2 op >>= _) = _
        rw [hs]
        rfl
      rw [this] at h
      cases h
    | ok fs =>
      have : mountStep fat op =
          .ok (fs₀.info, fs₀.root.nodes.map (·.cluster), fs.root.childs.map (·.inode.cluster)) := by
        rw [mountStep, hm]
        show (fs₀.step 2 op >>= _) = _
        rw [hs]
        rfl
      rw [this] at h
      obtain ⟨h1, h2, h3⟩ : fs₀.info = smallInfo ∧ _ ∧ _ := by simpa [Except.toOption] using h
      exact ⟨fs₀, fs, rfl, hs, hdisk, h1, h2, h3⟩

/-- A FAT in which the entries below `n` are in use, each as a chain of one cluster. -/
def usedBelow (n c : ℕ) : ℕ := if c < n then 0x0fffffff else 0

/-- No inode of the small image is without a cluster. -/
theorem ownedClusters_small {root : Vnode} (h : root.nodes.map (·.cluster) = [2, 3]) :
    ownedClusters root = [2, 3] ∧ withoutCluster root = 0 := by
  simp [ownedClusters, withoutCluster, h]

/-- Creating `B.TXT` on a volume with 252 free clusters. -/
theorem reached_isolated_small :
    ∃ fs₀ fs, fat32SetupMount 2 (smallImage (usedBelow 4)) = .ok fs₀ ∧
      Reached 2 (fun fs op => op.Granted 256 fs ∧ op.Safe fs) fs₀ fs ∧
      fs.root.childs.map (·.inode.cluster) = [3, 4] ∧
      ∀ p q v w, p ≠ q → fs.root.get? p = some v → fs.root.get? q = some w →
        v.inode.cluster ≠ w.inode.cluster := by
  obtain ⟨fs₀, fs, hm, hs, hdisk, hinfo, hcs, hcs'⟩ :=
    mountStep_ok (usedBelow 4) (.create [] nameB fun _ => 0) [2, 3] [3, 4] (by decide +kernel)
  have hgranted : FsOp.Granted 256 fs₀ (.create [] nameB fun _ => 0) := by
    refine ⟨4, by unfold InVolume; omega, ?_⟩
    rw [hdisk, hinfo]
    decide +kernel
  have hsafe : FsOp.Safe fs₀ (.create [] nameB fun _ => 0) := by
    refine ⟨4, by decide, ?_⟩
    rw [hdisk, hinfo]
    decide +kernel
  obtain ⟨howned, hwithout⟩ := ownedClusters_small hcs
  have hvol : Volume 256 fs₀.disk fs₀.info (ownedClusters fs₀.root) := by
    rw [hdisk, hinfo, howned]
    exact smallVolume (by decide +kernel) (by decide +kernel)
  have hreached : Reached 2 (fun fs op => op.Granted 256 fs ∧ op.Safe fs) fs₀ fs :=
    .step .start ⟨hgranted, hsafe⟩ hs
  exact ⟨fs₀, fs, hm, hreached, hcs', (reached_isolated hm hvol hreached).1.mpr (by omega)⟩

/-- With the entries 0 to 130 of the FAT in use, the first free one is entry 3 of the second block, and a
    create takes the cluster 3 of `A.TXT`, while 125 clusters are free. -/
theorem create_shares_cluster :
    ∃ fs₀ fs, fat32SetupMount 2 (smallImage (usedBelow 131)) = .ok fs₀ ∧
      Volume 256 fs₀.disk fs₀.info (ownedClusters fs₀.root) ∧ withoutCluster fs₀.root = 0 ∧
      Reached 2 (fun fs op => op.Granted 256 fs) fs₀ fs ∧
      ¬ ∀ p q v w, p ≠ q → fs.root.get? p = some v → fs.root.get? q = some w →
        v.inode.cluster ≠ w.inode.cluster := by
  obtain ⟨fs₀, fs, hm, hs, hdisk, hinfo, hcs, hcs'⟩ :=
    mountStep_ok (usedBelow 131) (.create [] nameB fun _ => 0) [2, 3] [3, 3] (by decide +kernel)
  have hgranted : FsOp.Granted 256 fs₀ (.create [] nameB fun _ => 0) := by
    refine ⟨131, by unfold InVolume; omega, ?_⟩
    rw [hdisk, hinfo]
    decide +kernel
  obtain ⟨howned, hwithout⟩ := ownedClusters_small hcs
  refine ⟨fs₀, fs, hm, ?_, hwithout, .step .start hgranted hs, ?_⟩
  · rw [hdisk, hinfo, howned]
    exact smallVolume (by decide +kernel) (by decide +kernel)
  · intro hdistinct
    have hget : ∀ i, (fs.root.childs.map (·.inode.cluster))[i]? = some 3 →
        ∃ v, fs.root.get? [i] = some v ∧ v.inode.cluster = 3 := by
      intro i hi
      rw [List.getElem?_map, Option.map_eq_some_iff] at hi
      obtain ⟨v, hv, hc⟩ := hi
      exact ⟨v, by rw [Vnode.get?, hv]; rfl, hc⟩
    rw [hcs'] at hget
    obtain ⟨v, hv, hvc⟩ := hget 0 rfl
    obtain ⟨w, hw, hwc⟩ := hget 1 rfl
    exact hdistinct [0] [1] v w (by decide) hv hw (hvc.trans hwc.symm)

end RaspiKernel.Fs
