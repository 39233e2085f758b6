import RaspiKernel.Fs.Remount

/-!
# What survives a new mount

Files are created and written in the root directory, and the card is mounted
again. Names and contents are on the card, but the size in a directory entry is
written once, when `fat32_create` sets it to `BLOCK_SIZE`: `fat32_write` does not
update it. The new mount shows the sizes of the directory entries.

Results:
* `RootInv.remount`: mounting again gives the files of the tree in memory, with
  the sizes of the directory entries.
* `RootInv.mount`, `RootInv.write`, `RootInv.create`: the first mount, and what the
  calls keep.
-/

namespace RaspiKernel.Fs

open Lib

/-! ## The disk and the tree -/

/-- The entry of a vnode, with the size that is on the disk. -/
def record (v : Vnode) (size : ℕ) : DirEntry := ⟨v.inode.type, v.inode.name, v.inode.cluster, size⟩

/-- What the disk says of a vnode with the given size. -/
def diskView (disk : Disk) (info : Fat32Info) (v : Vnode) (size : ℕ) : View :=
  match v.inode.type with
  | .file => .file v.inode.name size
      (bytes (disk (clusterBlock info v.inode.cluster)) 0 (min size blockSize))
  | .dir => v.view

/-- A child of the root directory and the disk, where `boot` is the disk of the first mount. -/
structure ChildInv (k : ℕ) (boot disk : Disk) (info : Fat32Info) (v : Vnode) : Prop where
  placed : v.inode.absBlockNum = clusterBlock info v.inode.cluster
  empty : ∀ n ∈ v.nodes, n.type = .file → n.cluster = 0 → n.dataSize = 0
  /-- A subdirectory is as the first mount has set it up, and so is its part of the disk. -/
  subdir : v.inode.type = .dir →
    (∃ inode, setupFat32 boot info k inode = .ok v ∧ inode.type = .dir ∧
      inode.name = v.inode.name ∧ inode.cluster = v.inode.cluster) ∧
    ∀ n ∈ v.nodes, Unchanged boot disk info n
  /-- The bytes of a file are on the disk. -/
  synced : v.inode.type = .file → v.inode.dataSize = 0 ∨
    SameBytes (disk (clusterBlock info v.inode.cluster)) v.inode.data blockSize

/-- The tree in memory and the disk, where `chain` is the chain of the root directory, and `sizes`
    are the sizes that the entries of the root directory have. -/
structure RootInv (limit k rootDir : ℕ) (chain : List ℕ) (boot : Disk) (fs : Fat32)
    (sizes : List ℕ) : Prop where
  volume : Volume limit fs.disk fs.info (ownedClusters fs.root)
  bootSector : getFat32BootSector boot = .ok (fs.info, rootDir)
  startingSector_lt : fs.info.startingSector < fs.info.fatRegion
  head : ∀ b < fs.info.fatRegion, SameBytes (fs.disk b) (boot b) blockSize
  root_type : fs.root.inode.type = .dir
  root_cluster : fs.root.inode.cluster = rootDir
  fatChain : FatChain fs.disk fs.info rootDir chain
  chain_le : chain.length ≤ k
  entries : (dirEntries fs.disk fs.info chain).Perm (List.zipWith record fs.root.childs sizes)
  length_eq : sizes.length = fs.root.childs.length
  length_le : fs.root.childs.length ≤ maxDirNum
  childs : ∀ v ∈ fs.root.childs, ChildInv k boot fs.disk fs.info v

variable {limit k rootDir : ℕ} {chain : List ℕ} {boot disk disk' : Disk} {info : Fat32Info}
  {fs fs' : Fat32} {sizes : List ℕ}

/-! ## The new mount -/

theorem getFat32BootSector_congr {rootDir : ℕ} (h0 : SameBytes (disk' 0) (disk 0) blockSize)
    (h : getFat32BootSector disk = .ok (info, rootDir))
    (hb : SameBytes (disk' info.startingSector) (disk info.startingSector) blockSize) :
    getFat32BootSector disk' = .ok (info, rootDir) := by
  have hmbr : ∀ a w, a + w ≤ 512 → load (disk' 0) a w = load (disk 0) a w := by
    intro a w haw
    apply load_congr
    intro i hi
    exact h0 _ (by unfold blockSize; omega)
  unfold getFat32BootSector at h ⊢
  rw [hmbr 510 2 (by omega), hmbr 454 4 (by omega)]
  split at h
  · cases h
  next hsig =>
    rw [if_neg hsig]
    dsimp only at h ⊢
    have hstart : info.startingSector = load (disk 0) 454 4 := by
      injection h with h
      rw [← (Prod.mk.inj h).1]
    rw [hstart] at hb
    have hboot : ∀ a w, a + w ≤ 512 →
        load (disk' (load (disk 0) 454 4)) a w = load (disk (load (disk 0) 454 4)) a w := by
      intro a w haw
      apply load_congr
      intro i hi
      exact hb _ (by unfold blockSize; omega)
    rw [hboot 14 2 (by omega), hboot 36 4 (by omega), hboot 16 1 (by omega), hboot 13 1 (by omega),
      hboot 44 4 (by omega)]
    exact h

/-- Each entry is made into a child that is seen as `diskView` says. -/
theorem RootInv.makeChild (hr : RootInv limit k rootDir chain boot fs sizes) {v : Vnode}
    (hv : v ∈ fs.root.childs) (size : ℕ) :
    ∃ v', makeChild (setupFat32 fs.disk fs.info k) fs.disk fs.info (record v size) = .ok v' ∧
      v'.view = diskView fs.disk fs.info v size := by
  unfold Fs.makeChild diskView
  cases htype : v.inode.type with
  | dir =>
    rw [if_pos (show (record v size).type = .dir from htype)]
    obtain ⟨⟨inode, hsetup, hdir, hname, hcluster⟩, hsame⟩ := (hr.childs v hv).subdir htype
    exact setup_frame hsetup hdir htype hname.symm hcluster.symm hsame
  | file =>
    have hfile : (record v size).type = .file := htype
    rw [if_neg (by rw [hfile]; decide)]
    exact ⟨_, rfl, view_file_childInode fs.disk fs.info hfile⟩

/-- Children for all the entries, in any order. -/
theorem RootInv.makeChilds (hr : RootInv limit k rootDir chain boot fs sizes) :
    ∃ vs, List.Forall₂
        (fun e v => Fs.makeChild (setupFat32 fs.disk fs.info k) fs.disk fs.info e = .ok v)
        (List.zipWith record fs.root.childs sizes) vs ∧
      vs.map Vnode.view = List.zipWith (diskView fs.disk fs.info) fs.root.childs sizes := by
  have hmake : ∀ v ∈ fs.root.childs, ∀ size, ∃ v', _ ∧ _ := fun v hv size => hr.makeChild hv size
  generalize fs.root.childs = childs at hmake
  clear hr
  induction childs generalizing sizes with
  | nil => exact ⟨[], .nil, rfl⟩
  | cons v childs ih =>
    cases sizes with
    | nil => exact ⟨[], .nil, rfl⟩
    | cons size sizes =>
      obtain ⟨v', hv', hview⟩ := hmake v List.mem_cons_self size
      obtain ⟨vs, hvs, hviews⟩ := @ih sizes fun w hw => hmake w (List.mem_cons_of_mem _ hw)
      refine ⟨v' :: vs, .cons hv' hvs, ?_⟩
      rw [List.map_cons, hview, hviews, List.zipWith_cons_cons]

/-- Mounting again gives the files of the tree, with the sizes and the bytes of the disk. -/
theorem RootInv.remount (hr : RootInv limit k rootDir chain boot fs sizes) :
    ∃ fs', fat32SetupMount (k + 1) fs.disk = .ok fs' ∧
      (fs'.root.childs.map Vnode.view).Perm
        (List.zipWith (diskView fs.disk fs.info) fs.root.childs sizes) := by
  have hboot : getFat32BootSector fs.disk = .ok (fs.info, rootDir) := by
    have hlt := hr.startingSector_lt
    exact getFat32BootSector_congr (hr.head 0 (by omega)) hr.bootSector (hr.head _ hlt)
  obtain ⟨vs, hvs, hviews⟩ := hr.makeChilds
  obtain ⟨childs, hmade, hperm⟩ := List.perm_comp_forall₂ hr.entries hvs
  have hlen : (dirEntries fs.disk fs.info chain).length ≤ maxDirNum := by
    rw [hr.entries.length_eq, List.length_zipWith, hr.length_eq, Nat.min_self]
    exact hr.length_le
  obtain ⟨data, hsetup⟩ := setupFat32_of (rootInode fs.disk fs.info rootDir)
    hr.fatChain hr.chain_le ⟨hlen, hmade⟩
  refine ⟨⟨fs.disk, fs.info, .mk { rootInode fs.disk fs.info rootDir with data := data } childs⟩,
    ?_, ?_⟩
  · rw [fat32SetupMount, hboot]
    show (setupFat32 fs.disk fs.info (k + 1) _ >>= _) = _
    rw [hsetup]
    rfl
  · rw [← hviews]
    exact hperm.map _

/-! ## Inodes of the tree -/

/-- The root shares no cluster with what is below it. -/
theorem Volume.root_apart {root : Vnode} (hv : Volume limit disk info (ownedClusters root))
    {v : Vnode} (hvr : v ∈ root.childs) {n : Fat32Inode} (hn : n ∈ v.nodes) :
    InodesApart disk info root.inode n := by
  have h := hv.inodesApart
  rw [root.nodes_eq, List.pairwise_cons] at h
  exact h.1 n (List.mem_flatMap.mpr ⟨v, hvr, hn⟩)

/-- A child shares no cluster with the root and with what is in and below the other children. -/
theorem Volume.child_apart {root : Vnode} (hv : Volume limit disk info (ownedClusters root))
    {pre post : List Vnode} {v : Vnode} (hchilds : root.childs = pre ++ v :: post) {n : Fat32Inode}
    (hn : n = root.inode ∨ ∃ w ∈ pre ++ post, n ∈ w.nodes) :
    InodesApart disk info n v.inode := by
  have h := hv.inodesApart
  rw [root.nodes_eq, hchilds, List.flatMap_append, List.flatMap_cons, v.nodes_eq,
    List.cons_append, ← List.cons_append, List.pairwise_append] at h
  obtain ⟨-, hright, hacross⟩ := h
  rw [List.pairwise_cons] at hright
  rcases hn with rfl | ⟨w, hw, hn⟩
  · exact hacross _ List.mem_cons_self _ List.mem_cons_self
  · rcases List.mem_append.mp hw with hw | hw
    · exact hacross _ (List.mem_cons_of_mem _ (List.mem_flatMap.mpr ⟨w, hw, hn⟩)) _
        List.mem_cons_self
    · exact (hright.1 _ (List.mem_append_right _ (List.mem_flatMap.mpr ⟨w, hw, hn⟩))).symm

theorem mem_nodes_of_child {root v : Vnode} (hv : v ∈ root.childs) {n : Fat32Inode}
    (hn : n ∈ v.nodes) : n ∈ root.nodes := by
  rw [root.nodes_eq]
  exact List.mem_cons_of_mem _ (List.mem_flatMap.mpr ⟨v, hv, hn⟩)

/-- A write to a block of one inode keeps the chains of the others. -/
theorem Volume.kept_of_inodesApart {root : Vnode} (hv : Volume limit disk info (ownedClusters root))
    {a b : Fat32Inode} (ha : a ∈ root.nodes) (hb : b ∈ root.nodes)
    (h : InodesApart disk info a b) {x : ℕ} (hx : Owns disk info b.cluster x) (buf : Mem) :
    Kept disk (writeblock disk (clusterBlock info x) buf) info a.cluster := by
  by_cases h0 : a.cluster = 0
  · rw [h0]
    exact Kept.zero _ _ _
  · exact hv.kept_write (mem_ownedClusters ha h0) (mem_ownedClusters hb hx.1) (h h0 hx.1) hx buf

/-- A child keeps its invariant if the disk keeps the chains of its inodes. -/
theorem ChildInv.kept {v : Vnode} (h : ChildInv k boot disk info v)
    (hkept : ∀ n ∈ v.nodes, Kept disk disk' info n.cluster) : ChildInv k boot disk' info v := by
  refine ⟨h.placed, h.empty, fun hdir => ?_, fun hfile => ?_⟩
  · obtain ⟨hsetup, hunchanged⟩ := h.subdir hdir
    exact ⟨hsetup, fun n hn => (hunchanged n hn).trans (hkept n hn) (h.empty n hn)⟩
  · by_cases h0 : v.inode.cluster = 0
    · exact Or.inl (h.empty _ v.inode_mem_nodes hfile h0)
    · rcases h.synced hfile with hsize | hdata
      · exact Or.inl hsize
      · have hblock := (hkept _ v.inode_mem_nodes _ (.refl h0)).2
        exact Or.inr fun i hi => (hblock i hi).trans (hdata i hi)

/-! ## The first mount -/

/-- A mounted image is well formed: the inodes that have a cluster own chains of allocated clusters
    and share none, the FAT lies behind the boot sector, and a file without a cluster is empty. -/
structure WellFormed (limit : ℕ) (fs : Fat32) : Prop where
  volume : Volume limit fs.disk fs.info (ownedClusters fs.root)
  startingSector_lt : fs.info.startingSector < fs.info.fatRegion
  empty : ∀ n ∈ fs.root.nodes, n.type = .file → n.cluster = 0 → n.dataSize = 0

/-- The child of an entry, as the mount leaves it. -/
theorem makeChild_spec {e : DirEntry} {v : Vnode}
    (h : Fs.makeChild (setupFat32 disk info k) disk info e = .ok v) :
    record v v.inode.dataSize = e ∧
      (v.inode.type = .dir → setupFat32 disk info k (childInode disk info e) = .ok v) ∧
      (v.inode.type = .file →
        SameBytes (disk (clusterBlock info v.inode.cluster)) v.inode.data blockSize) := by
  unfold Fs.makeChild at h
  split at h
  next htype =>
    cases k with
    | zero => cases h
    | succ k =>
      obtain ⟨-, -, -, ⟨data, hv⟩, -⟩ := setupFat32_ok h
      refine ⟨by rw [record, hv]; rfl, fun _ => h, fun hfile => ?_⟩
      rw [hv] at hfile
      exact absurd (htype.symm.trans hfile) (by decide)
  next htype =>
    cases h
    refine ⟨rfl, fun hdir => absurd hdir htype, fun _ i hi => ?_⟩
    exact (readblock_same disk _ _ i hi).symm

/-- Entries that have been made into children are the entries of these. -/
theorem zipWith_record_made {es : List DirEntry} {vs : List Vnode}
    (h : List.Forall₂ (fun e v => Fs.makeChild (setupFat32 disk info k) disk info e = .ok v)
      es vs) :
    List.zipWith record vs (vs.map (·.inode.dataSize)) = es := by
  induction h with
  | nil => rfl
  | cons hv _ ih => rw [List.map_cons, List.zipWith_cons_cons, (makeChild_spec hv).1, ih]

/-- Behind the mount, the sizes on the disk are those of the tree. -/
theorem RootInv.mount (h : fat32SetupMount (k + 1) disk = .ok fs) (hwf : WellFormed limit fs) :
    ∃ rootDir chain, RootInv limit k rootDir chain disk fs
      (fs.root.childs.map (·.inode.dataSize)) := by
  have hplaced := mount_placed h
  obtain ⟨rootDir, hboot, rfl, hsetup⟩ := mount_ok h
  obtain ⟨chain, hchain, hlen, ⟨data, hroot⟩, hdir⟩ := setupFat32_ok hsetup
  have hentries := zipWith_record_made hdir.made
  refine ⟨rootDir, chain, ?_⟩
  exact {
    volume := hwf.volume
    bootSector := hboot
    startingSector_lt := hwf.startingSector_lt
    head := fun _ _ _ _ => rfl
    root_type := by rw [hroot]; rfl
    root_cluster := by rw [hroot]; rfl
    fatChain := hchain
    chain_le := hlen
    entries := by rw [hentries]
    length_eq := List.length_map _
    length_le := by
      rw [← hdir.made.length_eq]
      exact hdir.length_le
    childs := by
      intro v hv
      obtain ⟨e, -, hmade⟩ := forall₂_mem_right hdir.made hv
      obtain ⟨he, hsub, hfile⟩ := makeChild_spec hmade
      refine ⟨hplaced _ (mem_nodes_of_child hv v.inode_mem_nodes),
        fun n hn => hwf.empty n (mem_nodes_of_child hv hn), fun hvdir => ?_,
        fun hvfile => Or.inr (hfile hvfile)⟩
      rw [← he] at hsub
      exact ⟨⟨_, hsub hvdir, hvdir, rfl, rfl⟩, fun n _ => Unchanged.refl _ _ n⟩ }

/-! ## Writing -/

/-- A nonempty write to a child of the root. -/
theorem write_child {i : ℕ} {v : Vnode} {fPos : ℕ} {bs : List UInt8}
    (hv : fs.root.childs[i]? = some v) (hbs : bs ≠ []) (hend : fPos + bs.length ≤ blockSize) :
    fs.write [i] fPos bs = .ok (bs.length, { fs with
      disk := writeblock fs.disk v.inode.absBlockNum
        (copy v.inode.data fPos (ofBytes bs) bs.length)
      root := .mk fs.root.inode (fs.root.childs.set i (.mk { v.inode with
        data := copy v.inode.data fPos (ofBytes bs) bs.length
        dataSize := max v.inode.dataSize (fPos + bs.length) } v.childs)) }) := by
  have hget : fs.root.get? [i] = some v := by
    rw [Vnode.get?, hv]
    rfl
  have hset : ∀ w, fs.root.set [i] w = .mk fs.root.inode (fs.root.childs.set i w) := by
    intro w
    rw [Vnode.set, hv]
    rfl
  unfold Fat32.write
  rw [hget]
  dsimp only
  rw [fat32Write_spec hbs hend]
  show Except.ok (_, _) = _
  rw [hset]

theorem split_child {l : List Vnode} {i : ℕ} {v : Vnode} (h : l[i]? = some v) :
    ∃ pre post, l = pre ++ v :: post ∧ ∀ w, l.set i w = pre ++ w :: post := by
  obtain ⟨hi, rfl⟩ := List.getElem?_eq_some_iff.mp h
  refine ⟨l.take i, l.drop (i + 1), by simp, fun w => ?_⟩
  rw [List.set_eq_take_append_cons_drop, if_pos hi]

/-- An entry of the root directory does not say what a write changes. -/
theorem zipWith_record {pre post : List Vnode} {v w : Vnode}
    (h : ∀ size, record w size = record v size) (sizes : List ℕ) :
    List.zipWith record (pre ++ w :: post) sizes =
      List.zipWith record (pre ++ v :: post) sizes := by
  induction pre generalizing sizes with
  | nil => cases sizes with
    | nil => rfl
    | cons size sizes => rw [List.nil_append, List.nil_append, List.zipWith_cons_cons,
        List.zipWith_cons_cons, h]
  | cons a pre ih => cases sizes with
    | nil => rfl
    | cons size sizes => rw [List.cons_append, List.cons_append, List.zipWith_cons_cons,
        List.zipWith_cons_cons, ih]

/-- The inodes of the tree after a child has got another inode with its cluster. -/
theorem nodes_replace {root : Vnode} {pre post : List Vnode} {v : Vnode}
    (hchilds : root.childs = pre ++ v :: post) (inode : Fat32Inode) :
    ∃ left right, root.nodes = left ++ v.inode :: right ∧
      (Vnode.mk root.inode (pre ++ .mk inode v.childs :: post)).nodes = left ++ inode :: right := by
  refine ⟨root.inode :: pre.flatMap Vnode.nodes,
    v.childs.flatMap Vnode.nodes ++ post.flatMap Vnode.nodes, ?_, ?_⟩
  · rw [root.nodes_eq, hchilds, List.flatMap_append, List.flatMap_cons, v.nodes_eq]
    simp
  · rw [Vnode.nodes_eq]
    simp [Vnode.nodes, nodesOf_eq]

/-- What a write keeps of an inode. -/
structure SameFile (a b : Fat32Inode) : Prop where
  type_eq : a.type = b.type
  name_eq : a.name = b.name
  cluster_eq : a.cluster = b.cluster
  absBlockNum_eq : a.absBlockNum = b.absBlockNum

/-- The file that is written. -/
theorem ChildInv.write {v : Vnode} (h : ChildInv k boot disk info v)
    (htype : v.inode.type = .file) (h0 : v.inode.cluster ≠ 0) {inode : Fat32Inode}
    (hsame : SameFile inode v.inode) (disk' : Disk) :
    ChildInv k boot (writeblock disk' v.inode.absBlockNum inode.data) info
      (.mk inode v.childs) where
  placed := by
    show inode.absBlockNum = clusterBlock info inode.cluster
    rw [hsame.absBlockNum_eq, hsame.cluster_eq, h.placed]
  empty := by
    intro n hn
    have hold := h.empty n
    rw [v.nodes_eq] at hold
    rw [Vnode.nodes_eq] at hn
    rcases List.mem_cons.mp hn with rfl | hn
    · intro _ hc
      exact absurd (hsame.cluster_eq.symm.trans hc) h0
    · exact hold (List.mem_cons_of_mem _ hn)
  subdir := by
    intro hdir
    have hfile : inode.type = .file := hsame.type_eq.trans htype
    exact absurd (hdir.symm.trans hfile) (by decide)
  synced := by
    intro _
    right
    show SameBytes (writeblock disk' _ inode.data (clusterBlock info inode.cluster)) _ _
    rw [hsame.cluster_eq, ← h.placed]
    exact writeblock_same _ _ _

theorem ownedClusters_replace {root : Vnode} {pre post : List Vnode} {v : Vnode}
    (hchilds : root.childs = pre ++ v :: post) {inode : Fat32Inode}
    (hcluster : inode.cluster = v.inode.cluster) :
    ownedClusters (.mk root.inode (pre ++ .mk inode v.childs :: post)) = ownedClusters root := by
  obtain ⟨left, right, hnodes, hnodes'⟩ := nodes_replace hchilds inode
  unfold ownedClusters
  rw [hnodes, hnodes', List.map_append, List.map_append, List.map_cons, List.map_cons, hcluster]

/-- A write to a child keeps the chains of the root and of what is in and below the other children. -/
theorem RootInv.kept_write (hr : RootInv limit k rootDir chain boot fs sizes)
    {pre post : List Vnode} {v : Vnode} (hchilds : fs.root.childs = pre ++ v :: post)
    (h0 : v.inode.cluster ≠ 0) (data : Mem) {n : Fat32Inode}
    (hn : n = fs.root.inode ∨ ∃ w ∈ pre ++ post, n ∈ w.nodes) :
    Kept fs.disk (writeblock fs.disk v.inode.absBlockNum data) fs.info n.cluster := by
  have hv : v ∈ fs.root.childs := by
    rw [hchilds]
    exact List.mem_append_right _ List.mem_cons_self
  have hnode : n ∈ fs.root.nodes := by
    rcases hn with rfl | ⟨w, hw, hn⟩
    · exact fs.root.inode_mem_nodes
    · refine mem_nodes_of_child ?_ hn
      rw [hchilds]
      exact List.perm_middle.symm.subset (List.mem_cons_of_mem _ hw)
  rw [(hr.childs v hv).placed]
  exact hr.volume.kept_of_inodesApart hnode (mem_nodes_of_child hv v.inode_mem_nodes)
    (hr.volume.child_apart hchilds hn) (.refl h0) _

/-- A write to a file of the root directory that has a cluster. -/
theorem RootInv.write (hr : RootInv limit k rootDir chain boot fs sizes) {pre post : List Vnode}
    {v : Vnode} (hchilds : fs.root.childs = pre ++ v :: post) (htype : v.inode.type = .file)
    (h0 : v.inode.cluster ≠ 0) {inode : Fat32Inode} (hsame : SameFile inode v.inode) :
    RootInv limit k rootDir chain boot ⟨writeblock fs.disk v.inode.absBlockNum inode.data, fs.info,
      .mk fs.root.inode (pre ++ .mk inode v.childs :: post)⟩ sizes := by
  have hmem : ∀ w, w = v ∨ w ∈ pre ++ post → w ∈ fs.root.childs := by
    intro w hw
    rw [hchilds]
    exact List.perm_middle.symm.subset (List.mem_cons.mpr hw)
  have hv := hmem v (Or.inl rfl)
  have hvin := (hr.volume.allocated _
    (mem_ownedClusters (mem_nodes_of_child hv v.inode_mem_nodes) h0) _ (.refl h0)).1
  have hblock := (hr.childs v hv).placed
  have hroot := hr.kept_write hchilds h0 inode.data (Or.inl rfl)
  rw [hr.root_cluster] at hroot
  exact {
    volume := by
      rw [ownedClusters_replace hchilds hsame.cluster_eq, hblock]
      exact hr.volume.write_data hvin _
    bootSector := hr.bootSector
    startingSector_lt := hr.startingSector_lt
    head := by
      intro b (hb : b < fs.info.fatRegion)
      have hne : b ≠ v.inode.absBlockNum := by
        have := hr.volume.geometry.fat_le
        rw [hblock, hr.volume.geometry.clusterBlock_eq hvin]
        omega
      show SameBytes (writeblock fs.disk v.inode.absBlockNum inode.data b) (boot b) blockSize
      rw [writeblock_of_ne _ hne]
      exact hr.head b hb
    root_type := hr.root_type
    root_cluster := hr.root_cluster
    fatChain := hr.fatChain.congr fun x hx => (hroot x (hr.fatChain.owns hx)).1
    chain_le := hr.chain_le
    entries := by
      have hrecord : ∀ size, record (.mk inode v.childs) size = record v size := by
        intro size
        show DirEntry.mk inode.type inode.name inode.cluster size = _
        rw [hsame.type_eq, hsame.name_eq, hsame.cluster_eq]
        rfl
      show (dirEntries _ fs.info chain).Perm (List.zipWith record (pre ++ _ :: post) sizes)
      rw [dirEntries_congr fun x hx => (hroot x (hr.fatChain.owns hx)).2, zipWith_record hrecord,
        ← hchilds]
      exact hr.entries
    length_eq := by
      have hlen := hr.length_eq
      rw [hchilds] at hlen
      simpa using hlen
    length_le := by
      have hlen := hr.length_le
      rw [hchilds] at hlen
      simpa using hlen
    childs := by
      intro w hw
      rcases List.mem_cons.mp (List.perm_middle.subset hw) with rfl | hw
      · exact (hr.childs v hv).write htype h0 hsame fs.disk
      · refine (hr.childs w (hmem w (Or.inr hw))).kept fun n hn => ?_
        exact hr.kept_write hchilds h0 inode.data (Or.inr ⟨w, hw, hn⟩) }

/-! ## Creating -/

/-- The disk behind a successful `fat32_create` that has filled slot `i` of cluster `c`. -/
def createdDisk (disk : Disk) (info : Fat32Info) (c i : ℕ) (name : List UInt8) (stack : Mem) :
    Disk :=
  writeFatTable
    (fillSlot disk info c i (newEntry stack name (getFreeFatCluster disk info)))
    info (getFreeFatCluster disk info) fatEntryEoc

/-- The vnode of a new file. -/
def newVnode (disk : Disk) (info : Fat32Info) (name : List UInt8) : Vnode :=
  .mk (newInode info name (getFreeFatCluster disk info)) []

/-- A successful create in a root directory whose chain has a slot with attribute 0. -/
theorem create_root {fuel : ℕ} {name : List UInt8} {stack : Mem} {c i : ℕ}
    (hchain : FatChain fs.disk fs.info fs.root.inode.cluster chain)
    (hslot : freeSlot fs.disk fs.info chain = some (c, i))
    (h : fs.create fuel [] name stack = .ok (1, fs')) :
    fs' = ⟨createdDisk fs.disk fs.info c i name stack, fs.info,
        .mk fs.root.inode (fs.root.childs ++ [newVnode fs.disk fs.info name])⟩ ∧
      (∀ v ∈ fs.root.childs, v.inode.name ≠ name) ∧ fs.root.childs.length < maxDirNum := by
  have hget : fs.root.get? [] = some fs.root := rfl
  rw [Fat32.create, hget] at h
  obtain ⟨⟨ret, disk', dir'⟩, hcreate, hok⟩ := bind_eq_ok.mp h
  rcases fat32Create_cases hcreate with ⟨rfl, -, -⟩ | ⟨-, -, hname, hfull, disk₁, hentry, rfl, rfl⟩
  · cases hok
  · obtain rfl := newDirEntry_freeSlot hchain hentry hslot
    cases hok
    exact ⟨rfl, hname, hfull⟩

/-- The inodes of the tree with one more child. -/
theorem ownedClusters_append {root v : Vnode} (hv : v.childs = []) (h0 : v.inode.cluster ≠ 0) :
    (ownedClusters (.mk root.inode (root.childs ++ [v]))).Perm
      (v.inode.cluster :: ownedClusters root) := by
  have hnodes : (Vnode.mk root.inode (root.childs ++ [v])).nodes = root.nodes ++ [v.inode] := by
    rw [Vnode.nodes_eq, root.nodes_eq]
    simp [v.nodes_eq, hv]
  unfold ownedClusters
  rw [hnodes, List.map_append, List.filter_append]
  simp [h0]

/-- What a create keeps of the disk. -/
structure CreatedDisk (limit : ℕ) (fs : Fat32) (chain : List ℕ) (disk' : Disk) (e : DirEntry) :
    Prop where
  volume : Volume limit disk' fs.info (e.cluster :: ownedClusters fs.root)
  cluster_ne : e.cluster ≠ 0
  head : ∀ b < fs.info.fatRegion, disk' b = fs.disk b
  fatChain : FatChain disk' fs.info fs.root.inode.cluster chain
  entries : (dirEntries disk' fs.info chain).Perm (e :: dirEntries fs.disk fs.info chain)
  kept : ∀ v ∈ fs.root.childs, ∀ n ∈ v.nodes, Kept fs.disk disk' fs.info n.cluster

/-- A create fills a slot that `setup_fat32` has passed over and marks a free cluster. -/
theorem createdDisk_spec (hvol : Volume limit fs.disk fs.info (ownedClusters fs.root))
    (hchain : FatChain fs.disk fs.info fs.root.inode.cluster chain) {name base ext : List UInt8}
    (hname : Name83 name base ext) (stack : Mem)
    (hfree : ∃ c, InVolume limit c ∧ IsFatEntryFree (readFatEntry fs.disk fs.info c))
    (hfirst : ∃ i < entriesPerBlock, IsFatEntryFree (readFatEntry fs.disk fs.info i)) {c i : ℕ}
    (hslot : freeSlot fs.disk fs.info chain = some (c, i))
    (hskip : SkipEntry (fs.disk (clusterBlock fs.info c)) i) :
    CreatedDisk limit fs chain (createdDisk fs.disk fs.info c i name stack)
      ⟨.file, name, getFreeFatCluster fs.disk fs.info, blockSize⟩ := by
  have hg := hvol.geometry
  obtain ⟨hcin, hi⟩ := freeSlot_mem hslot
  have hown := hchain.owns hcin
  have hroot := mem_ownedClusters fs.root.inode_mem_nodes hown.1
  have hc := (hvol.allocated _ hroot c hown).1
  obtain ⟨hn, hnfree⟩ := hvol.getFree hfree hfirst
  have hnlt : getFreeFatCluster fs.disk fs.info < 2 ^ 32 := by
    obtain ⟨d, ⟨h2, hd⟩, -⟩ := hfree
    have := (hg.getFreeFatCluster_spec (by omega) hfirst).1
    unfold entriesPerBlock at this
    omega
  unfold createdDisk
  generalize getFreeFatCluster fs.disk fs.info = n at hn hnfree hnlt
  have hblock : ∀ d < entriesPerBlock * fs.info.sectorsPerFat,
      readFatEntry (fillSlot fs.disk fs.info c i (newEntry stack name n)) fs.info d =
        readFatEntry fs.disk fs.info d := fun d hd => hg.readFatEntry_data hc hd fs.disk _
  have hvol₁ : Volume limit (fillSlot fs.disk fs.info c i (newEntry stack name n)) fs.info
      (ownedClusters fs.root) := hvol.write_data hc _
  have hnfree₁ := hnfree
  rw [← hblock n (hn.lt_fat hg)] at hnfree₁
  -- the root directory keeps its chain, and behind its own write its blocks
  have hchain₁ : FatChain (fillSlot fs.disk fs.info c i (newEntry stack name n)) fs.info
      fs.root.inode.cluster chain := by
    apply hchain.congr
    intro x hx
    exact hblock x ((hvol.allocated _ hroot x (hchain.owns hx)).1.lt_fat hg)
  have hrootKept := hvol₁.kept_fat hroot hn hnfree₁ fatEntryEoc
  refine ⟨hvol₁.write_fat hn hnfree₁, ?_, ?_, ?_, ?_, ?_⟩
  · have := hn.1
    show n ≠ 0
    omega
  · intro b hb
    have hfat : b ≠ fatBlock fs.info n := by
      rw [(hg.fatBlock_eq (hn.lt_fat hg)).1]
      exact Nat.ne_of_lt (Nat.lt_add_right _ hb)
    have hdata : b ≠ clusterBlock fs.info c := by
      have := hg.fat_le
      rw [hg.clusterBlock_eq hc]
      omega
    rw [writeFatTable, writeblock_of_ne _ hfat, fillSlot, writeblock_of_ne _ hdata]
  · exact hchain₁.congr fun x hx => (hrootKept x (hchain₁.owns hx)).1
  · rw [dirEntries_congr fun x hx => (hrootKept x (hchain₁.owns hx)).2]
    refine dirEntries_insert hchain.nodup hcin hi ?_ hskip (parseEntry_newEntry hname stack hnlt)
    intro x hx hxc
    have hxin := (hvol.allocated _ hroot x (hchain.owns hx)).1
    have := hg.clusterBlock_apart hxin hc hxc hg.blocksPerCluster_pos
    rwa [add_zero] at this
  · intro v hv m hm
    have hmnode := mem_nodes_of_child hv hm
    have hslotKept : Kept fs.disk (fillSlot fs.disk fs.info c i (newEntry stack name n)) fs.info
        m.cluster := hvol.kept_of_inodesApart hmnode fs.root.inode_mem_nodes
          (hvol.root_apart hv hm).symm hown _
    refine hslotKept.trans ?_
    by_cases h0 : m.cluster = 0
    · rw [h0]
      exact Kept.zero _ _ _
    · exact hvol₁.kept_fat (mem_ownedClusters hmnode h0) hn hnfree₁ fatEntryEoc

/-- A child that has just been created is empty. -/
theorem ChildInv.newVnode (name : List UInt8) (h0 : getFreeFatCluster disk info ≠ 0)
    (disk' : Disk) : ChildInv k boot disk' info (Fs.newVnode disk info name) where
  placed := rfl
  empty := by
    intro n hn
    obtain rfl : n = newInode info name (getFreeFatCluster disk info) := by
      simpa [Fs.newVnode, Vnode.nodes, nodesOf] using hn
    intro _ hc
    exact absurd hc h0
  subdir := by
    intro hdir
    cases hdir
  synced := fun _ => Or.inl rfl

/-- A successful create adds a file of no bytes, and an entry of 512 bytes. -/
theorem RootInv.create (hr : RootInv limit k rootDir chain boot fs sizes) {fuel : ℕ}
    {name base ext : List UInt8} {stack : Mem} (hname : Name83 name base ext)
    (hfree : ∃ c, InVolume limit c ∧ IsFatEntryFree (readFatEntry fs.disk fs.info c))
    (hfirst : ∃ i < entriesPerBlock, IsFatEntryFree (readFatEntry fs.disk fs.info i)) {c i : ℕ}
    (hslot : freeSlot fs.disk fs.info chain = some (c, i))
    (hskip : SkipEntry (fs.disk (clusterBlock fs.info c)) i)
    (h : fs.create fuel [] name stack = .ok (1, fs')) :
    RootInv limit k rootDir chain boot fs' (sizes ++ [blockSize]) ∧
      fs'.root.childs = fs.root.childs ++ [newVnode fs.disk fs.info name] ∧
      ∀ v ∈ fs.root.childs, v.inode.name ≠ name := by
  have hchain := hr.fatChain
  rw [← hr.root_cluster] at hchain
  obtain ⟨rfl, hfresh, hfull⟩ := create_root hchain hslot h
  have hcreated := createdDisk_spec hr.volume hchain hname stack hfree hfirst hslot hskip
  refine ⟨?_, rfl, hfresh⟩
  exact {
    volume := hcreated.volume.perm (ownedClusters_append rfl hcreated.cluster_ne)
    bootSector := hr.bootSector
    startingSector_lt := hr.startingSector_lt
    head := by
      intro b hb
      have heq := hcreated.head b hb
      show SameBytes (createdDisk fs.disk fs.info c i name stack b) _ _
      rw [heq]
      exact hr.head b hb
    root_type := hr.root_type
    root_cluster := hr.root_cluster
    fatChain := by
      rw [← hr.root_cluster]
      exact hcreated.fatChain
    chain_le := hr.chain_le
    entries := by
      refine hcreated.entries.trans ?_
      show List.Perm _ (List.zipWith record (fs.root.childs ++ [_]) _)
      rw [List.zipWith_append hr.length_eq.symm]
      exact (hr.entries.cons _).trans (List.perm_append_singleton _ _).symm
    length_eq := by
      show _ = (fs.root.childs ++ [_]).length
      rw [List.length_append, List.length_append, hr.length_eq]
      rfl
    length_le := by
      show (fs.root.childs ++ [_]).length ≤ _
      rw [List.length_append]
      exact hfull
    childs := by
      intro v hv
      rcases List.mem_append.mp hv with hv | hv
      · exact (hr.childs v hv).kept (hcreated.kept v hv)
      · rw [List.mem_singleton.mp hv]
        exact ChildInv.newVnode name hcreated.cluster_ne _ }

end RaspiKernel.Fs
