import RaspiKernel.Fs.Isolation
import RaspiKernel.Fs.ShortName

/-!
# Mounting again

What a user sees of a tree, and when `setup_fat32` on a changed disk makes the
same of a directory.

Results:
* `setup_frame`: a directory is set up as before if the chains of its directories
  and the blocks of its files are as before.
* `FatChain.nodup`: a chain that ends visits no cluster twice.
* `dirEntries_insert`: filling a slot adds its entry to the directory.
-/

namespace RaspiKernel.Fs

open Lib

/-! ## Views -/

/-- What a user sees of a vnode: the name, and the size and the bytes of a file, of which the first 512
    are in memory. -/
inductive View where
  | file (name : List UInt8) (size : ℕ) (contents : List UInt8)
  | dir (name : List UInt8) (childs : List View)

mutual

def Vnode.view : Vnode → View
  | .mk inode childs => match inode.type with
    | .file => .file inode.name inode.dataSize (bytes inode.data 0 (min inode.dataSize blockSize))
    | .dir => .dir inode.name (viewsOf childs)

def viewsOf : List Vnode → List View
  | [] => []
  | v :: vs => v.view :: viewsOf vs

end

theorem viewsOf_eq (l : List Vnode) : viewsOf l = l.map Vnode.view := by
  induction l with
  | nil => rfl
  | cons v vs ih => rw [viewsOf, ih, List.map_cons]

theorem Vnode.view_file {inode : Fat32Inode} (h : inode.type = .file) (childs : List Vnode) :
    (Vnode.mk inode childs).view = .file inode.name inode.dataSize
      (bytes inode.data 0 (min inode.dataSize blockSize)) := by
  rw [Vnode.view, h]

theorem Vnode.view_dir {inode : Fat32Inode} (h : inode.type = .dir) (childs : List Vnode) :
    (Vnode.mk inode childs).view = .dir inode.name (childs.map Vnode.view) := by
  rw [Vnode.view, h, ← viewsOf_eq]

theorem Vnode.eta (v : Vnode) : Vnode.mk v.inode v.childs = v := by
  cases v with
  | mk inode childs => rfl

variable {limit : ℕ} {disk disk' : Disk} {info : Fat32Info}

/-! ## Chains -/

theorem FatChain.owns {c x : ℕ} {l : List ℕ} (h : FatChain disk info c l) (hx : x ∈ l) :
    Owns disk info c x := by
  induction h with
  | stop => cases hx
  | @link c l hvalid hl ih =>
    have h0 : c ≠ 0 := by
      rintro rfl
      exact not_valid_zero hvalid
    rcases List.mem_cons.mp hx with rfl | hx
    · exact .refl h0
    · -- a nonempty rest starts with a valid entry
      have hlink : Link disk info c (readFatEntry disk info c) := by
        refine ⟨?_, rfl⟩
        cases hl with
        | stop => cases hx
        | link h _ => exact h
      exact ⟨h0, .head hlink (ih hx).2⟩

theorem FatChain.congr {c : ℕ} {l : List ℕ} (h : FatChain disk info c l)
    (hl : ∀ x ∈ l, readFatEntry disk' info x = readFatEntry disk info x) :
    FatChain disk' info c l := by
  induction h with
  | stop hvalid => exact .stop hvalid
  | @link c l hvalid _ ih =>
    refine .link hvalid ?_
    rw [hl c List.mem_cons_self]
    exact ih fun x hx => hl x (List.mem_cons_of_mem _ hx)

/-- A cluster has one chain. -/
theorem FatChain.unique {c : ℕ} {l l' : List ℕ} (h : FatChain disk info c l)
    (h' : FatChain disk info c l') : l = l' := by
  induction h generalizing l' with
  | stop hvalid =>
    cases h' with
    | stop => rfl
    | link hvalid' _ => exact absurd hvalid' hvalid
  | link hvalid _ ih =>
    cases h' with
    | stop hvalid' => exact absurd hvalid hvalid'
    | link _ hl' => rw [ih hl']

/-- The rest of a chain is a chain. -/
theorem FatChain.suffix {c x : ℕ} {l : List ℕ} (h : FatChain disk info c l) (hx : x ∈ l) :
    ∃ l', FatChain disk info x l' ∧ l'.length ≤ l.length := by
  induction h with
  | stop => cases hx
  | @link c l hvalid hl ih =>
    rcases List.mem_cons.mp hx with rfl | hx
    · exact ⟨x :: l, .link hvalid hl, le_rfl⟩
    · obtain ⟨l', hl', hlen⟩ := ih hx
      exact ⟨l', hl', by rw [List.length_cons]; omega⟩

theorem FatChain.nodup {c : ℕ} {l : List ℕ} (h : FatChain disk info c l) : l.Nodup := by
  induction h with
  | stop => exact List.nodup_nil
  | @link c l hvalid hl ih =>
    refine List.nodup_cons.mpr ⟨?_, ih⟩
    intro hc
    obtain ⟨l', hl', hlen⟩ := hl.suffix hc
    have := hl'.unique (.link hvalid hl)
    rw [this, List.length_cons] at hlen
    omega

/-! ## The same directory on a changed disk -/

theorem dirEntries_congr {l : List ℕ}
    (h : ∀ x ∈ l, SameBytes (disk' (clusterBlock info x)) (disk (clusterBlock info x)) blockSize) :
    dirEntries disk' info l = dirEntries disk info l := by
  unfold dirEntries
  apply List.flatMap_congr
  intro x hx
  exact blockEntries_congr (h x hx)

/-- The chain that starts with `c` and its blocks are as before. -/
def Kept (disk disk' : Disk) (info : Fat32Info) (c : ℕ) : Prop :=
  ∀ x, Owns disk info c x → readFatEntry disk' info x = readFatEntry disk info x ∧
    SameBytes (disk' (clusterBlock info x)) (disk (clusterBlock info x)) blockSize

/-- What of an inode matters to a user is on the disk as before: the chain of a directory with its
    blocks, and the block of a file that has bytes. -/
structure Unchanged (disk disk' : Disk) (info : Fat32Info) (n : Fat32Inode) : Prop where
  chain : n.type = .dir → Kept disk disk' info n.cluster
  block : n.type = .file → n.dataSize = 0 ∨
    SameBytes (disk' (clusterBlock info n.cluster)) (disk (clusterBlock info n.cluster)) blockSize

theorem Kept.refl (disk : Disk) (info : Fat32Info) (c : ℕ) : Kept disk disk info c :=
  fun _ _ => ⟨rfl, fun _ _ => rfl⟩

theorem Kept.zero (disk disk' : Disk) (info : Fat32Info) : Kept disk disk' info 0 :=
  fun _ hx => absurd rfl hx.1

theorem Kept.trans {disk₁ disk₂ : Disk} {c : ℕ} (h : Kept disk disk₁ info c)
    (h' : Kept disk₁ disk₂ info c) : Kept disk disk₂ info c := by
  intro x hx
  obtain ⟨hfat, hblock⟩ := h x hx
  obtain ⟨hfat', hblock'⟩ := h' x ((owns_congr (fun y hy => (h y hy).1) x).mpr hx)
  exact ⟨hfat'.trans hfat, fun i hi => (hblock' i hi).trans (hblock i hi)⟩

theorem Unchanged.refl (disk : Disk) (info : Fat32Info) (n : Fat32Inode) :
    Unchanged disk disk info n := ⟨fun _ => Kept.refl _ _ _, fun _ => Or.inr fun _ _ => rfl⟩

theorem Unchanged.trans {disk₁ disk₂ : Disk} {n : Fat32Inode} (h : Unchanged disk disk₁ info n)
    (h' : Kept disk₁ disk₂ info n.cluster)
    (hempty : n.type = .file → n.cluster = 0 → n.dataSize = 0) : Unchanged disk disk₂ info n := by
  refine ⟨fun htype => (h.chain htype).trans h', fun htype => ?_⟩
  by_cases h0 : n.cluster = 0
  · exact Or.inl (hempty htype h0)
  · rcases h.block htype with hsize | hsame
    · exact Or.inl hsize
    · exact Or.inr fun i hi => ((h' _ (Owns.refl h0)).2 i hi).trans (hsame i hi)

/-- A write to a block of another inode. -/
theorem Volume.kept_write {clusters : List ℕ} (hv : Volume limit disk info clusters) {c d x : ℕ}
    (hc : c ∈ clusters) (hd : d ∈ clusters) (hapart : Apart disk info c d)
    (hx : Owns disk info d x) (buf : Mem) :
    Kept disk (writeblock disk (clusterBlock info x) buf) info c := by
  intro y hy
  have hxin := (hv.allocated d hd x hx).1
  have hyin := (hv.allocated c hc y hy).1
  have hne : y ≠ x := by
    rintro rfl
    exact hapart.2 y hy hx
  have hblock := hv.geometry.clusterBlock_apart hyin hxin hne hv.geometry.blocksPerCluster_pos
  rw [add_zero] at hblock
  refine ⟨hv.geometry.readFatEntry_data hxin (hyin.lt_fat hv.geometry) disk buf, ?_⟩
  rw [writeblock_of_ne _ hblock]
  exact fun _ _ => rfl

/-- A write to the entry of a free cluster. -/
theorem Volume.kept_fat {clusters : List ℕ} (hv : Volume limit disk info clusters) {c d : ℕ}
    (hc : c ∈ clusters) (hd : InVolume limit d) (hfree : IsFatEntryFree (readFatEntry disk info d))
    (value : ℕ) : Kept disk (writeFatTable disk info d value) info c := by
  intro y hy
  obtain ⟨hyin, hused⟩ := hv.allocated c hc y hy
  have hne : y ≠ d := by
    rintro rfl
    exact hused hfree
  have hdlt := hd.lt_fat hv.geometry
  have hdata := @Geometry.writeFatTable_data limit info hv.geometry d y 0 disk value hdlt hyin
  refine ⟨hv.geometry.readFatEntry_write_of_ne disk value hdlt (hyin.lt_fat hv.geometry) hne, ?_⟩
  rw [add_zero] at hdata
  rw [hdata]
  exact fun _ _ => rfl

/-- Replace each element on the right by one that is seen in the same way. -/
theorem forall₂_replace {α β γ : Type} {R S : α → β → Prop} {f : β → γ} {l : List α} {bs : List β}
    (h : List.Forall₂ R l bs) (hstep : ∀ a b, b ∈ bs → R a b → ∃ b', S a b' ∧ f b' = f b) :
    ∃ bs', List.Forall₂ S l bs' ∧ bs'.map f = bs.map f := by
  induction h with
  | nil => exact ⟨[], .nil, rfl⟩
  | @cons a b l bs hab _ ih =>
    obtain ⟨b', hb', hf⟩ := hstep a b List.mem_cons_self hab
    obtain ⟨bs', hbs', hmap⟩ := ih fun a b hb => hstep a b (List.mem_cons_of_mem _ hb)
    exact ⟨b' :: bs', .cons hb' hbs', by rw [List.map_cons, List.map_cons, hf, hmap]⟩

/-- The bytes of a block in a buffer. -/
theorem bytes_readblock (disk : Disk) (b : ℕ) (buf : Mem) {n : ℕ} (hn : n ≤ blockSize) :
    bytes (readblock disk b buf) 0 n = bytes (disk b) 0 n := by
  apply bytes_congr
  intro i hi
  rw [zero_add]
  exact readblock_same disk b buf i (by omega)

/-- The view of a file that was made of an entry. -/
theorem view_file_childInode (disk : Disk) (info : Fat32Info) {e : DirEntry} (h : e.type = .file) :
    (Vnode.mk (childInode disk info e) []).view = .file e.name e.fileSize
      (bytes (disk (clusterBlock info e.cluster)) 0 (min e.fileSize blockSize)) := by
  have htype : (childInode disk info e).type = .file := h
  rw [Vnode.view_file htype]
  show View.file e.name e.fileSize (bytes (readblock disk _ _) 0 _) = _
  rw [bytes_readblock _ _ _ (Nat.min_le_right _ _)]
  rfl

/-- An entry is made into the same child as before. -/
theorem makeChild_frame {fuel : ℕ} {e : DirEntry} {c : Vnode}
    (hrec : ∀ {inode inode' : Fat32Inode}, setupFat32 disk info fuel inode = .ok c →
      inode.type = .dir → inode'.type = .dir → inode'.name = inode.name →
      inode'.cluster = inode.cluster → (∀ n ∈ c.nodes, Unchanged disk disk' info n) →
      ∃ c', setupFat32 disk' info fuel inode' = .ok c' ∧ c'.view = c.view)
    (h : makeChild (setupFat32 disk info fuel) disk info e = .ok c)
    (hsame : ∀ n ∈ c.nodes, Unchanged disk disk' info n) :
    ∃ c', makeChild (setupFat32 disk' info fuel) disk' info e = .ok c' ∧ c'.view = c.view := by
  unfold makeChild at h ⊢
  cases htype : e.type with
  | dir =>
    rw [htype, if_pos rfl] at h
    rw [if_pos rfl]
    exact hrec h htype htype rfl rfl hsame
  | file =>
    rw [htype, if_neg (by decide)] at h
    rw [if_neg (by decide)]
    cases h
    refine ⟨_, rfl, ?_⟩
    rw [view_file_childInode disk info htype, view_file_childInode disk' info htype]
    congr 1
    rcases (hsame _ (Vnode.inode_mem_nodes _)).block htype with h0 | hblock
    · rw [show e.fileSize = 0 from h0]
      rfl
    · apply bytes_congr
      intro i hi
      rw [zero_add]
      exact hblock i (by omega)

theorem setup_frame {fuel : ℕ} {inode inode' : Fat32Inode} {v : Vnode}
    (h : setupFat32 disk info fuel inode = .ok v) (htype : inode.type = .dir)
    (htype' : inode'.type = .dir) (hname : inode'.name = inode.name)
    (hcluster : inode'.cluster = inode.cluster) (hsame : ∀ n ∈ v.nodes, Unchanged disk disk' info n) :
    ∃ v', setupFat32 disk' info fuel inode' = .ok v' ∧ v'.view = v.view := by
  induction fuel generalizing inode inode' v with
  | zero => cases h
  | succ fuel ih =>
    obtain ⟨l, hl, hlen, ⟨data, hv⟩, hdir⟩ := setupFat32_ok h
    have hroot : ∀ x ∈ l, readFatEntry disk' info x = readFatEntry disk info x ∧
        SameBytes (disk' (clusterBlock info x)) (disk (clusterBlock info x)) blockSize := by
      intro x hx
      apply (hsame v.inode v.inode_mem_nodes).chain (by rw [hv]; exact htype)
      rw [hv]
      exact hl.owns hx
    have hl' : FatChain disk' info inode'.cluster l := by
      rw [hcluster]
      exact hl.congr fun x hx => (hroot x hx).1
    have hentries := dirEntries_congr fun x hx => (hroot x hx).2
    have hchild : ∀ e c, c ∈ v.childs → makeChild (setupFat32 disk info fuel) disk info e = .ok c →
        ∃ c', makeChild (setupFat32 disk' info fuel) disk' info e = .ok c' ∧ c'.view = c.view := by
      intro e c hc hmake
      refine makeChild_frame ih hmake ?_
      intro n hn
      apply hsame
      rw [v.nodes_eq]
      exact List.mem_cons_of_mem _ (List.mem_flatMap.mpr ⟨c, hc, hn⟩)
    obtain ⟨childs', hmade, hviews⟩ := forall₂_replace hdir.made hchild
    obtain ⟨data', hsetup⟩ := setupFat32_of inode' hl' hlen
      ⟨by rw [hentries]; exact hdir.length_le, by rw [hentries]; exact hmade⟩
    refine ⟨_, hsetup, ?_⟩
    have hdirType : v.inode.type = .dir := by rw [hv]; exact htype
    have hnewType : ({ inode' with data := data' } : Fat32Inode).type = .dir := htype'
    rw [Vnode.view_dir hnewType, ← v.eta, Vnode.view_dir hdirType, hviews, hv]
    show View.dir inode'.name _ = _
    rw [hname]

/-! ## Filling a slot -/

/-- One element of a list without duplicates gains a member. -/
theorem flatMap_insert {α β : Type} {f f' : α → List β} {l : List α} {a : α} {b : β} (hl : l.Nodup)
    (ha : a ∈ l) (hother : ∀ x ∈ l, x ≠ a → f' x = f x) (hperm : (f' a).Perm (b :: f a)) :
    (l.flatMap f').Perm (b :: l.flatMap f) := by
  induction l with
  | nil => cases ha
  | cons x l ih =>
    obtain ⟨hx, hl⟩ := List.nodup_cons.mp hl
    rw [List.flatMap_cons, List.flatMap_cons]
    by_cases hxa : x = a
    · subst hxa
      have hrest : l.flatMap f' = l.flatMap f := by
        apply List.flatMap_congr
        intro y hy
        exact hother y (List.mem_cons_of_mem _ hy) (fun heq => hx (heq ▸ hy))
      rw [hrest, ← List.cons_append]
      exact hperm.append_right _
    · have ha : a ∈ l := by
        rcases List.mem_cons.mp ha with rfl | ha
        · exact absurd rfl hxa
        · exact ha
      rw [hother x List.mem_cons_self hxa]
      have hrest := ih hl ha fun y hy => hother y (List.mem_cons_of_mem _ hy)
      exact (hrest.append_left _).trans List.perm_middle

/-- The slot that `fat32_new_dir_entry` fills: the first one with attribute 0. -/
def freeSlot (disk : Disk) (info : Fat32Info) (l : List ℕ) : Option (ℕ × ℕ) :=
  l.findSome? fun c => ((List.range slotsPerBlock).find? fun i =>
    entryAttr (disk (clusterBlock info c)) i = 0).map fun i => (c, i)

theorem FatChain.firstSlot {cur c i : ℕ} {l : List ℕ} (hl : FatChain disk info cur l)
    (hslot : freeSlot disk info l = some (c, i)) : FirstSlot disk info cur c i := by
  induction hl with
  | stop => cases hslot
  | @link cur l hvalid hl ih =>
    rw [freeSlot, List.findSome?_cons] at hslot
    cases hfind : (List.range slotsPerBlock).find? fun i =>
        entryAttr (disk (clusterBlock info cur)) i = 0 with
    | some j =>
      rw [hfind] at hslot
      cases hslot
      exact .here hvalid hfind
    | none =>
      rw [hfind] at hslot
      exact .next hvalid hfind (ih hslot)

theorem newDirEntry_freeSlot {entry : Mem} {fuel cur : ℕ} {l : List ℕ}
    (hl : FatChain disk info cur l) (h : fat32NewDirEntry fuel disk info cur entry = .ok disk')
    {c i : ℕ} (hslot : freeSlot disk info l = some (c, i)) :
    disk' = fillSlot disk info c i entry := by
  have hfirst := hl.firstSlot hslot
  rcases newDirEntry_ok h with ⟨x, j, hx, rfl⟩ | ⟨-, hno⟩
  · obtain ⟨rfl, rfl⟩ := hx.unique hfirst
    rfl
  · exact absurd hfirst (hno c i)

theorem freeSlot_mem {l : List ℕ} {c i : ℕ} (h : freeSlot disk info l = some (c, i)) :
    c ∈ l ∧ i < slotsPerBlock := by
  unfold freeSlot at h
  obtain ⟨x, hx, hmap⟩ := List.exists_of_findSome?_eq_some h
  obtain ⟨j, hj, heq⟩ := Option.map_eq_some_iff.mp hmap
  cases heq
  exact ⟨hx, List.mem_range.mp (List.mem_of_find?_eq_some hj)⟩

theorem blockEntries_eq (buf : Mem) :
    blockEntries buf = (List.range slotsPerBlock).flatMap fun i => (parseEntry buf i).toList := by
  unfold blockEntries
  rw [List.filterMap_eq_flatMap_toList]

/-- The entries of a block behind a slot that was passed over is filled. -/
theorem blockEntries_insert {buf buf' entry : Mem} {i : ℕ} {e : DirEntry} (hi : i < slotsPerBlock)
    (hskip : SkipEntry buf i) (hentry : parseEntry entry 0 = some e)
    (hbuf : SameBytes buf' (copy buf (32 * i) entry 32) blockSize) :
    (blockEntries buf').Perm (e :: blockEntries buf) := by
  rw [blockEntries_congr hbuf, blockEntries_eq, blockEntries_eq]
  apply flatMap_insert List.nodup_range (List.mem_range.mpr hi)
  · intro j hj hji
    have hkeep : parseEntry (copy buf (32 * i) entry 32) j = parseEntry buf j := by
      apply parseEntry_slot
      intro k hk
      apply copy_of_not_mem
      omega
    rw [hkeep]
  · have hnew : parseEntry (copy buf (32 * i) entry 32) i = some e := by
      rw [← hentry]
      apply parseEntry_slot
      intro k hk
      rw [copy_of_mem (by omega), Nat.add_sub_cancel_left, Nat.mul_zero, Nat.zero_add]
    have hold : parseEntry buf i = none := if_pos hskip
    rw [hnew, hold]
    rfl

theorem dirEntries_insert {l : List ℕ} {c i : ℕ} {entry : Mem} {e : DirEntry} (hl : l.Nodup)
    (hc : c ∈ l) (hi : i < slotsPerBlock)
    (hblocks : ∀ x ∈ l, x ≠ c → clusterBlock info x ≠ clusterBlock info c)
    (hskip : SkipEntry (disk (clusterBlock info c)) i) (hentry : parseEntry entry 0 = some e) :
    (dirEntries (fillSlot disk info c i entry) info l).Perm (e :: dirEntries disk info l) := by
  unfold dirEntries
  apply flatMap_insert hl hc
  · intro x hx hxc
    rw [fillSlot, writeblock_of_ne _ (hblocks x hx hxc)]
  · exact blockEntries_insert hi hskip hentry (writeblock_same _ _ _)

end RaspiKernel.Fs
