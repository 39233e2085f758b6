import RaspiKernel.Fs.Tree
import RaspiKernel.Fs.FatTable

/-!
# Mounting

`setup_fat32` on a directory walks its cluster chain and makes one child for each
entry of the blocks that it does not pass over. The chain and the entries are
lists here, and the loops are folds over them.

Results:
* `setupFat32_ok`, `setupFat32_of`: `setup_fat32` comes back with the children
  exactly if the chain ends, there are at most `MAX_DIR_NUM` entries and every
  subdirectory comes back.
* `walkEnds_of_ok`, `WalkEnds.returns`: with a bound that is large enough it comes back exactly for
  the directories whose tree is finite.
* `setupFat32_nodes`: what every inode of a mounted tree satisfies.
-/

namespace RaspiKernel.Fs

open Lib

/-! ## Cluster chains -/

/-- The clusters of the chain that starts with `c`, as the loops of `fat32.c` follow it. -/
inductive FatChain (disk : Disk) (info : Fat32Info) : ℕ → List ℕ → Prop
  | stop {c : ℕ} (h : ¬ IsFatEntryValid c) : FatChain disk info c []
  | link {c : ℕ} {l : List ℕ} (h : IsFatEntryValid c)
      (hl : FatChain disk info (readFatEntry disk info c) l) : FatChain disk info c (c :: l)

variable {disk : Disk} {info : Fat32Info} {setup : Fat32Inode → Except Stop Vnode}

/-! ## One directory -/

/-- The entries of a block that are not passed over. -/
def blockEntries (buf : Mem) : List DirEntry := (List.range slotsPerBlock).filterMap (parseEntry buf)

/-- The entries of a directory with the given chain. -/
def dirEntries (disk : Disk) (info : Fat32Info) (chain : List ℕ) : List DirEntry :=
  chain.flatMap fun c => blockEntries (disk (clusterBlock info c))

theorem foldlM_addEntry (buf : Mem) (childs : List Vnode) :
    (List.range slotsPerBlock).foldlM (addEntry setup disk info buf) childs =
      (blockEntries buf).foldlM (addChild setup disk info) childs := by
  unfold blockEntries
  rw [List.foldlM_filterMap]
  congr 1
  funext childs i
  unfold addEntry
  cases parseEntry buf i with
  | none => rfl
  | some e => rfl

/-- Adding children one by one. -/
theorem foldlM_addChild {es : List DirEntry} {acc childs : List Vnode} (hacc : acc.length ≤ maxDirNum) :
    es.foldlM (addChild setup disk info) acc = .ok childs ↔
      acc.length + es.length ≤ maxDirNum ∧
        ∃ vs, List.Forall₂ (fun e v => makeChild setup disk info e = .ok v) es vs ∧
          childs = acc ++ vs := by
  induction es generalizing acc with
  | nil =>
    constructor
    · intro h
      cases h
      exact ⟨hacc, [], .nil, by simp⟩
    · rintro ⟨-, vs, hvs, rfl⟩
      cases hvs
      simp [pure, Except.pure]
  | cons e es ih =>
    rw [List.foldlM_cons, bind_eq_ok]
    constructor
    · rintro ⟨acc', hadd, hrest⟩
      unfold addChild at hadd
      split at hadd
      · cases hadd
      next hlt =>
        obtain ⟨v, hv, hok⟩ := bind_eq_ok.mp hadd
        cases hok
        have hlen : (acc ++ [v]).length ≤ maxDirNum := by
          rw [List.length_append, List.length_singleton]
          omega
        obtain ⟨hcap, vs, hvs, rfl⟩ := (ih hlen).mp hrest
        rw [List.length_append, List.length_singleton] at hcap
        exact ⟨by rw [List.length_cons]; omega, v :: vs, .cons hv hvs, by simp⟩
    · rintro ⟨hcap, vs, hvs, rfl⟩
      rw [List.length_cons] at hcap
      cases hvs with
      | cons hv hvs =>
        rename_i v vs
        have hlen : (acc ++ [v]).length ≤ maxDirNum := by
          rw [List.length_append, List.length_singleton]
          omega
        refine ⟨acc ++ [v], ?_, (ih hlen).mpr ⟨?_, vs, hvs, by simp⟩⟩
        · unfold addChild
          rw [if_neg (by omega), hv]
          rfl
        · rw [List.length_append, List.length_singleton]
          omega

/-! ## The loop -/

/-- What an entry says depends on its 32 bytes only. -/
theorem parseEntry_slot {buf buf' : Mem} {i i' : ℕ}
    (hbyte : ∀ k < 32, buf' (32 * i' + k) = buf (32 * i + k)) :
    parseEntry buf' i' = parseEntry buf i := by
  have hattr : entryAttr buf' i' = entryAttr buf i := by
    unfold entryAttr
    rw [hbyte 11 (by omega)]
  have hload : ∀ a w, a + w ≤ 32 → load buf' (32 * i' + a) w = load buf (32 * i + a) w := by
    intro a w haw
    apply load_shift
    intro k hk
    rw [add_assoc, add_assoc]
    exact hbyte (a + k) (by omega)
  have hbytes : ∀ a n, a + n ≤ 32 →
      nonBlank buf' (32 * i' + a) n = nonBlank buf (32 * i + a) n := by
    intro a n han
    unfold nonBlank bytes
    congr 1
    apply List.map_congr_left
    intro k hk
    rw [add_assoc, add_assoc]
    exact hbyte (a + k) (by have := List.mem_range.mp hk; omega)
  have hfirst : buf' (32 * i') = buf (32 * i) := hbyte 0 (by omega)
  have hname : ∀ type, entryName buf' i' type = entryName buf i type := by
    intro type
    unfold entryName
    rw [show nonBlank buf' (32 * i') 8 = nonBlank buf (32 * i) 8 from hbytes 0 8 (by omega),
      hbytes 8 3 (by omega)]
  have hskip : SkipEntry buf' i' ↔ SkipEntry buf i := by
    unfold SkipEntry
    rw [hattr, hfirst]
  unfold parseEntry entryCluster
  simp only [hskip, hattr, hname, hload 20 2 (by omega), hload 26 2 (by omega),
    hload 28 4 (by omega)]

/-- Two buffers with the same first 512 bytes have the same entries. -/
theorem parseEntry_congr {buf buf' : Mem} (h : SameBytes buf' buf blockSize) {i : ℕ}
    (hi : i < slotsPerBlock) : parseEntry buf' i = parseEntry buf i := by
  apply parseEntry_slot
  intro k hk
  apply h
  unfold blockSize
  unfold slotsPerBlock at hi
  omega

theorem blockEntries_congr {buf buf' : Mem} (h : SameBytes buf' buf blockSize) :
    blockEntries buf' = blockEntries buf := by
  unfold blockEntries
  apply List.filterMap_congr
  intro i hi
  exact parseEntry_congr h (List.mem_range.mp hi)

theorem readblock_same (disk : Disk) (b : ℕ) (buf : Mem) :
    SameBytes (readblock disk b buf) (disk b) blockSize := by
  intro i hi
  unfold readblock
  rw [copy_of_mem (by omega), Nat.sub_zero]

/-- The children after the loop are made of the entries of the chain. -/
theorem setupLoop_ok {fuel cur : ℕ} {st : Mem × List Vnode} {data' : Mem} {childs' : List Vnode}
    (h : setupLoop setup disk info fuel cur (readFatEntry disk info cur) st = .ok (data', childs')) :
    ∃ l, FatChain disk info cur l ∧ l.length < fuel ∧
      (dirEntries disk info l).foldlM (addChild setup disk info) st.2 = .ok childs' := by
  induction fuel generalizing cur st with
  | zero => cases h
  | succ fuel ih =>
    obtain ⟨data, childs⟩ := st
    rw [setupLoop] at h
    split at h
    next hvalid =>
      obtain ⟨childs₁, hblock, hrest⟩ := bind_eq_ok.mp h
      obtain ⟨l, hl, hlen, hfold⟩ := ih hrest
      refine ⟨cur :: l, .link hvalid hl, by rw [List.length_cons]; omega, ?_⟩
      rw [foldlM_addEntry, blockEntries_congr (readblock_same disk _ data)] at hblock
      rw [dirEntries, List.flatMap_cons, List.foldlM_append]
      exact bind_eq_ok.mpr ⟨childs₁, hblock, hfold⟩
    next hvalid =>
      cases h
      exact ⟨[], .stop hvalid, by simp, rfl⟩

theorem setupLoop_of {fuel cur : ℕ} {l : List ℕ} (hl : FatChain disk info cur l)
    (hlen : l.length < fuel) (data : Mem) {childs childs' : List Vnode}
    (h : (dirEntries disk info l).foldlM (addChild setup disk info) childs = .ok childs') :
    ∃ data', setupLoop setup disk info fuel cur (readFatEntry disk info cur) (data, childs) =
      .ok (data', childs') := by
  induction hl generalizing fuel data childs with
  | stop hvalid =>
    obtain ⟨fuel, rfl⟩ : ∃ n, fuel = n + 1 := ⟨fuel - 1, by omega⟩
    cases h
    exact ⟨data, by rw [setupLoop, if_neg hvalid]⟩
  | link hvalid hl ih =>
    rename_i c l
    rw [List.length_cons] at hlen
    obtain ⟨fuel, rfl⟩ : ∃ n, fuel = n + 1 := ⟨fuel - 1, by omega⟩
    rw [dirEntries, List.flatMap_cons, List.foldlM_append] at h
    obtain ⟨childs₁, hblock, hrest⟩ := bind_eq_ok.mp h
    have hlen : l.length < fuel := by omega
    obtain ⟨data', hdata'⟩ := ih hlen (readblock disk (clusterBlock info c) data) hrest
    refine ⟨data', ?_⟩
    rw [setupLoop, if_pos hvalid]
    dsimp only
    rw [foldlM_addEntry, blockEntries_congr (readblock_same disk _ data), hblock]
    exact hdata'

/-! ## The recursion -/

/-- The children of a directory with the given chain, subdirectories within the given bound. -/
structure DirSpec (disk : Disk) (info : Fat32Info) (fuel : ℕ) (l : List ℕ) (childs : List Vnode) :
    Prop where
  length_le : (dirEntries disk info l).length ≤ maxDirNum
  made : List.Forall₂ (fun e v => makeChild (setupFat32 disk info fuel) disk info e = .ok v)
    (dirEntries disk info l) childs

theorem setupFat32_ok {fuel : ℕ} {inode : Fat32Inode} {v : Vnode}
    (h : setupFat32 disk info (fuel + 1) inode = .ok v) :
    ∃ l, FatChain disk info inode.cluster l ∧ l.length ≤ fuel ∧
      (∃ data, v.inode = { inode with data := data }) ∧ DirSpec disk info fuel l v.childs := by
  rw [setupFat32] at h
  obtain ⟨⟨data, childs⟩, hloop, hok⟩ := bind_eq_ok.mp h
  cases hok
  obtain ⟨l, hl, hlen, hfold⟩ := setupLoop_ok hloop
  obtain ⟨hcap, vs, hvs, rfl⟩ := (foldlM_addChild (by simp)).mp hfold
  exact ⟨l, hl, by omega, ⟨data, rfl⟩, by simpa using hcap, hvs⟩

theorem setupFat32_of {fuel : ℕ} (inode : Fat32Inode) {l : List ℕ} {childs : List Vnode}
    (hl : FatChain disk info inode.cluster l) (hlen : l.length ≤ fuel)
    (hdir : DirSpec disk info fuel l childs) :
    ∃ data, setupFat32 disk info (fuel + 1) inode = .ok (.mk { inode with data := data } childs) := by
  have hfold : (dirEntries disk info l).foldlM
      (addChild (setupFat32 disk info fuel) disk info) [] = .ok childs :=
    (foldlM_addChild (by simp)).mpr ⟨by simpa using hdir.length_le, childs, hdir.made, rfl⟩
  obtain ⟨data, hdata⟩ := setupLoop_of hl (Nat.lt_succ_of_le hlen) inode.data hfold
  refine ⟨data, ?_⟩
  rw [setupFat32, hdata]
  rfl

/-- A common bound for the elements of a list. -/
theorem exists_bound {α : Type} {P : α → ℕ → Prop} {l : List α}
    (h : ∀ a ∈ l, ∃ n, ∀ m, n ≤ m → P a m) : ∃ n, ∀ m, n ≤ m → ∀ a ∈ l, P a m := by
  induction l with
  | nil => exact ⟨0, fun _ _ _ ha => by cases ha⟩
  | cons a l ih =>
    obtain ⟨n, hn⟩ := h a List.mem_cons_self
    obtain ⟨k, hk⟩ := ih fun a ha => h a (List.mem_cons_of_mem _ ha)
    refine ⟨max n k, fun m hm => List.forall_mem_cons.mpr ⟨hn m ?_, hk m ?_⟩⟩
    · omega
    · omega

/-- A directory whose chain ends, with at most `MAX_DIR_NUM` entries that are not passed over, and with
    subdirectories of this kind. -/
inductive WalkEnds (disk : Disk) (info : Fat32Info) : ℕ → Prop
  | mk {c : ℕ} {l : List ℕ} (hl : FatChain disk info c l)
      (hlen : (dirEntries disk info l).length ≤ maxDirNum)
      (hsub : ∀ e ∈ dirEntries disk info l, e.type = .dir → WalkEnds disk info e.cluster) :
      WalkEnds disk info c

theorem walkEnds_of_ok {fuel : ℕ} {inode : Fat32Inode} {v : Vnode}
    (h : setupFat32 disk info fuel inode = .ok v) : WalkEnds disk info inode.cluster := by
  induction fuel generalizing inode v with
  | zero => cases h
  | succ fuel ih =>
    obtain ⟨l, hl, -, -, hdir⟩ := setupFat32_ok h
    refine .mk hl hdir.length_le fun e he htype => ?_
    obtain ⟨w, -, hw⟩ := forall₂_mem_left hdir.made he
    rw [makeChild, if_pos htype] at hw
    exact ih hw

theorem WalkEnds.returns {c : ℕ} (h : WalkEnds disk info c) : ∃ n, ∀ fuel, n ≤ fuel →
    ∀ inode : Fat32Inode, inode.cluster = c → ∃ v, setupFat32 disk info fuel inode = .ok v := by
  induction h with
  | @mk c l hl hlen hsub ih =>
    have hmake : ∀ e ∈ dirEntries disk info l, ∃ n, ∀ m, n ≤ m →
        ∃ v, makeChild (setupFat32 disk info m) disk info e = .ok v := by
      intro e he
      by_cases htype : e.type = .dir
      · obtain ⟨n, hn⟩ := ih e he htype
        refine ⟨n, fun m hm => ?_⟩
        obtain ⟨v, hv⟩ := hn m hm (childInode disk info e) rfl
        exact ⟨v, by rw [makeChild, if_pos htype, hv]⟩
      · exact ⟨0, fun m _ => ⟨_, by rw [makeChild, if_neg htype]⟩⟩
    obtain ⟨n, hn⟩ := exists_bound hmake
    refine ⟨max n l.length + 1, fun fuel hfuel inode hc => ?_⟩
    obtain ⟨m, rfl⟩ : ∃ m, fuel = m + 1 := ⟨fuel - 1, by omega⟩
    obtain ⟨childs, hchilds⟩ := exists_forall₂ (hn m (by omega))
    obtain ⟨data, hdata⟩ := setupFat32_of inode (hc ▸ hl) (by omega) ⟨hlen, hchilds⟩
    exact ⟨_, hdata⟩

/-- What holds of the inode that an entry becomes, and does not depend on the buffer of a directory,
    holds of every inode of the tree. -/
theorem setupFat32_nodes {P : Fat32Inode → Prop} (hchild : ∀ e, P (childInode disk info e))
    (hdata : ∀ n data, n.type = .dir → P n → P { n with data := data }) {fuel : ℕ}
    {inode : Fat32Inode} (htype : inode.type = .dir) (hinode : P inode) {v : Vnode}
    (h : setupFat32 disk info fuel inode = .ok v) : ∀ n ∈ v.nodes, P n := by
  induction fuel generalizing inode v with
  | zero => cases h
  | succ fuel ih =>
    obtain ⟨l, -, -, ⟨data, hv⟩, hdir⟩ := setupFat32_ok h
    intro n hn
    rw [v.nodes_eq, List.mem_cons, List.mem_flatMap] at hn
    rcases hn with rfl | ⟨c, hc, hn⟩
    · rw [hv]
      exact hdata inode data htype hinode
    · obtain ⟨e, -, he⟩ := forall₂_mem_right hdir.made hc
      unfold makeChild at he
      split at he
      next htype => exact ih htype (hchild e) he n hn
      · cases he
        obtain rfl : n = childInode disk info e := by simpa [Vnode.nodes, nodesOf] using hn
        exact hchild e

end RaspiKernel.Fs
