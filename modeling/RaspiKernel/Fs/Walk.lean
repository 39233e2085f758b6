import RaspiKernel.Fs.Reads
import RaspiKernel.Fs.Create
import RaspiKernel.Fs.Decode

/-!
# Walks along the FAT and the volume

The loops of `setup_fat32` and `fat32_new_dir_entry` look up the next number of a
chain before they know whether the current one is a cluster. So the number that
ends a chain is looked up in the FAT, too. Which blocks they read is given here by
the numbers and the entries that a walk meets on the disk, up to the first
subdirectory that does not come back.

Results:
* `mem_log_setupFat32`: the blocks that `setup_fat32` reads, in its directory and all below it.
* `mem_log_fat32NewDirEntry`: the blocks that `fat32_new_dir_entry` reads.
* `walks_on_volume_iff`: when all of them are on the volume.
* `endMark_off_volume`: the block in which the end of a chain is looked up is behind a volume that
  ends within `2 ^ 21 - 1` blocks from the FAT.
-/

namespace RaspiKernel.Fs

open Lib Relation

variable {disk : Disk} {info : Fat32Info}

/-! ## What a walk meets -/

/-- The loops follow the FAT from `c` through the clusters `l` to the number `v`. -/
inductive FatPath (disk : Disk) (info : Fat32Info) : ℕ → List ℕ → ℕ → Prop
  | start (c : ℕ) : FatPath disk info c [] c
  | link {c v : ℕ} {l : List ℕ} (h : IsFatEntryValid c)
      (hl : FatPath disk info (readFatEntry disk info c) l v) : FatPath disk info c (c :: l) v

theorem FatPath.snoc {c v : ℕ} {l : List ℕ} (h : FatPath disk info c l v) (hv : IsFatEntryValid v) :
    FatPath disk info c (l ++ [v]) (readFatEntry disk info v) := by
  induction h with
  | start c => exact .link hv (.start _)
  | link h _ ih => exact .link h (ih hv)

theorem dirEntries_cons (disk : Disk) (info : Fat32Info) (c : ℕ) (l : List ℕ) :
    dirEntries disk info (c :: l) =
      blockEntries (disk (clusterBlock info c)) ++ dirEntries disk info l := rfl

theorem dirEntries_snoc (disk : Disk) (info : Fat32Info) (l : List ℕ) (c : ℕ) :
    dirEntries disk info (l ++ [c]) =
      dirEntries disk info l ++ blockEntries (disk (clusterBlock info c)) := by
  simp [dirEntries]

/-- The entries that a loop gets past, where `E` says this of one entry. -/
structure Passed (E : DirEntry → Prop) (es : List DirEntry) : Prop where
  length_le : es.length ≤ maxDirNum
  each : ∀ e ∈ es, E e

theorem passed_append {E : DirEntry → Prop} {es es' : List DirEntry} : Passed E (es ++ es') ↔
    es.length + es'.length ≤ maxDirNum ∧ (∀ e ∈ es, E e) ∧ ∀ e ∈ es', E e := by
  constructor
  · rintro ⟨hlen, heach⟩
    rw [List.length_append] at hlen
    rw [List.forall_mem_append] at heach
    exact ⟨hlen, heach⟩
  · rintro ⟨hlen, heach⟩
    refine ⟨?_, List.forall_mem_append.mpr heach⟩
    rwa [List.length_append]

/-- A number that the walk through directory `d` takes for a cluster. -/
def NumberMet (E : DirEntry → Prop) (disk : Disk) (info : Fat32Info) (d v : ℕ) : Prop :=
  ∃ l, FatPath disk info d l v ∧ Passed E (dirEntries disk info l)

/-- An entry of directory `d` that the walk makes a child of: it is in the table of cluster `v` behind
    the entries `es`. -/
def EntryMet (E : DirEntry → Prop) (disk : Disk) (info : Fat32Info) (d : ℕ) (e : DirEntry) : Prop :=
  ∃ l v es rest, FatPath disk info d l v ∧ IsFatEntryValid v ∧
    blockEntries (disk (clusterBlock info v)) = es ++ e :: rest ∧
    Passed E (dirEntries disk info l ++ es) ∧ (dirEntries disk info l ++ es).length < maxDirNum

/-- A block that the call for directory `d` reads itself. -/
inductive OwnRead (E : DirEntry → Prop) (disk : Disk) (info : Fat32Info) (d : ℕ) : ℕ → Prop
  | look {v : ℕ} (h : NumberMet E disk info d v) : OwnRead E disk info d (fatBlock info v)
  | table {v : ℕ} (h : NumberMet E disk info d v) (hv : IsFatEntryValid v) :
      OwnRead E disk info d (clusterBlock info v)
  | child {e : DirEntry} (h : EntryMet E disk info d e) :
      OwnRead E disk info d (clusterBlock info e.cluster)

/-! ## One block of a directory -/

section Loop

variable {setup : Fat32Inode → Logged ℕ Stop Vnode}

/-- An entry that is no directory, or for which `setup` comes back. -/
def Returns (setup : Fat32Inode → Logged ℕ Stop Vnode) (disk : Disk) (info : Fat32Info)
    (e : DirEntry) : Prop :=
  e.type = .dir → ∃ v, (setup (childInode disk info e)).val = .ok v

theorem returns_iff {e : DirEntry} : Returns setup disk info e ↔
    ∃ v, makeChild (fun n => (setup n).val) disk info e = .ok v := by
  unfold Returns makeChild
  split_ifs with htype
  · exact ⟨fun h => h htype, fun h _ => h⟩
  · exact ⟨fun _ => ⟨_, rfl⟩, fun _ h => absurd h htype⟩

/-- The loop over the entries of a block comes back exactly if it gets past each of them. -/
theorem foldlM_addChild_returns {es : List DirEntry} {acc : List Vnode} (hacc : acc.length ≤ maxDirNum) :
    (∃ childs, (es.foldlM (Traced.addChild disk info setup) acc).val = .ok childs ∧
      childs.length = acc.length + es.length) ↔
    acc.length + es.length ≤ maxDirNum ∧ ∀ e ∈ es, Returns setup disk info e := by
  simp only [Traced.val_foldlM_addChild, foldlM_addChild hacc, returns_iff]
  constructor
  · rintro ⟨-, ⟨hcap, vs, hvs, -⟩, -⟩
    refine ⟨hcap, fun e he => ?_⟩
    obtain ⟨v, -, hv⟩ := forall₂_mem_left hvs he
    exact ⟨v, hv⟩
  · rintro ⟨hcap, heach⟩
    obtain ⟨vs, hvs⟩ := exists_forall₂ heach
    refine ⟨acc ++ vs, ⟨hcap, vs, hvs, rfl⟩, ?_⟩
    rw [List.length_append, hvs.length_eq]

theorem length_foldlM_addChild {es : List DirEntry} {acc childs : List Vnode}
    (hacc : acc.length ≤ maxDirNum)
    (h : (es.foldlM (Traced.addChild disk info setup) acc).val = .ok childs) :
    childs.length = acc.length + es.length := by
  rw [Traced.val_foldlM_addChild, foldlM_addChild hacc] at h
  obtain ⟨-, vs, hvs, rfl⟩ := h
  rw [List.length_append, hvs.length_eq]

theorem mem_log_makeChild {e : DirEntry} {b : ℕ} :
    b ∈ (Traced.makeChild disk info setup e).log ↔ b = clusterBlock info e.cluster ∨
      (e.type = .dir ∧ b ∈ (setup (childInode disk info e)).log) := by
  unfold Traced.makeChild Traced.childInode
  rw [Logged.log_emit_bind, List.mem_cons]
  split_ifs with htype
  · simp [htype]
  · simp [htype]

theorem mem_log_addChild {childs : List Vnode} {e : DirEntry} {b : ℕ} :
    b ∈ (Traced.addChild disk info setup childs e).log ↔
      childs.length < maxDirNum ∧ b ∈ (Traced.makeChild disk info setup e).log := by
  unfold Traced.addChild
  split_ifs with hfull
  · simp [hfull.not_gt]
  · rw [Logged.mem_log_bind]
    simp [not_le.mp hfull]

/-- What the loop over the entries of a block reads. -/
theorem mem_log_foldlM_addChild {es : List DirEntry} {acc : List Vnode} (hacc : acc.length ≤ maxDirNum)
    {b : ℕ} : b ∈ (es.foldlM (Traced.addChild disk info setup) acc).log ↔
      ∃ pre e post, es = pre ++ e :: post ∧ acc.length + pre.length < maxDirNum ∧
        (∀ e' ∈ pre, Returns setup disk info e') ∧
        b ∈ (Traced.makeChild disk info setup e).log := by
  rw [Logged.mem_log_foldlM]
  constructor
  · rintro ⟨pre, e, post, childs, rfl, hpre, hb⟩
    obtain ⟨hlt, hb⟩ := mem_log_addChild.mp hb
    have hlen := length_foldlM_addChild hacc hpre
    exact ⟨pre, e, post, rfl, by omega, ((foldlM_addChild_returns hacc).mp ⟨childs, hpre, hlen⟩).2, hb⟩
  · rintro ⟨pre, e, post, rfl, hlt, heach, hb⟩
    obtain ⟨childs, hpre, hlen⟩ := (foldlM_addChild_returns hacc).mpr ⟨hlt.le, heach⟩
    exact ⟨pre, e, post, childs, rfl, hpre, mem_log_addChild.mpr ⟨by omega, hb⟩⟩

/-! ## The loop -/

/-- What one round of the loop and the rounds behind it read. -/
theorem mem_log_setupLoop {cur : ℕ} (hvalid : IsFatEntryValid cur) {fuel nxt : ℕ} {data : Mem}
    {childs : List Vnode} {b : ℕ} :
    b ∈ (Traced.setupLoop disk info setup (fuel + 1) cur nxt (data, childs)).log ↔
      b = clusterBlock info cur ∨
      b ∈ ((blockEntries (disk (clusterBlock info cur))).foldlM
        (Traced.addChild disk info setup) childs).log ∨
      ∃ childs', ((blockEntries (disk (clusterBlock info cur))).foldlM
          (Traced.addChild disk info setup) childs).val = .ok childs' ∧
        b ∈ fatBlock info nxt :: (Traced.setupLoop disk info setup fuel nxt
          (readFatEntry disk info nxt)
          (readblock disk (clusterBlock info cur) data, childs')).log := by
  rw [Traced.setupLoop, if_pos hvalid, Traced.readblock, Logged.log_emit_bind, List.mem_cons,
    Traced.foldlM_addEntry, blockEntries_congr (readblock_same disk _ data), Logged.mem_log_bind]
  rfl

theorem setupLoop_of_not_valid {cur : ℕ} (hvalid : ¬ IsFatEntryValid cur) (fuel nxt : ℕ)
    (st : Mem × List Vnode) : (Traced.setupLoop disk info setup fuel cur nxt st).log = [] := by
  cases fuel with
  | zero => rfl
  | succ fuel =>
    rw [Traced.setupLoop, if_neg hvalid]
    rfl

/-- What the loop reads when it has come to `cur`, the walk meets. -/
theorem setupLoop_sound {d cur fuel : ℕ} {l : List ℕ} {data : Mem} {childs : List Vnode} {b : ℕ}
    (hpath : FatPath disk info d l cur)
    (hpassed : Passed (Returns setup disk info) (dirEntries disk info l))
    (hlen : childs.length = (dirEntries disk info l).length)
    (h : b ∈ (Traced.setupLoop disk info setup fuel cur (readFatEntry disk info cur)
      (data, childs)).log) :
    OwnRead (Returns setup disk info) disk info d b ∨
      ∃ e, EntryMet (Returns setup disk info) disk info d e ∧ e.type = .dir ∧
        b ∈ (setup (childInode disk info e)).log := by
  induction fuel generalizing cur l data childs with
  | zero => cases h
  | succ fuel ih =>
    by_cases hvalid : IsFatEntryValid cur
    · have hcap : childs.length ≤ maxDirNum := hlen.trans_le hpassed.length_le
      rcases (mem_log_setupLoop hvalid).mp h with rfl | hb | ⟨childs', hval, hb⟩
      · exact Or.inl (.table ⟨l, hpath, hpassed⟩ hvalid)
      · obtain ⟨pre, e, post, heq, hlt, heach, hb⟩ := (mem_log_foldlM_addChild hcap).mp hb
        rw [hlen] at hlt
        have hmet : EntryMet (Returns setup disk info) disk info d e :=
          ⟨l, cur, pre, post, hpath, hvalid, heq, passed_append.mpr ⟨hlt.le, hpassed.each, heach⟩,
            by rwa [List.length_append]⟩
        rcases mem_log_makeChild.mp hb with rfl | ⟨htype, hb⟩
        · exact Or.inl (.child hmet)
        · exact Or.inr ⟨e, hmet, htype, hb⟩
      · have hlen' := length_foldlM_addChild hcap hval
        obtain ⟨hcap', heach⟩ := (foldlM_addChild_returns hcap).mp ⟨childs', hval, hlen'⟩
        have hpassed' : Passed (Returns setup disk info) (dirEntries disk info (l ++ [cur])) := by
          rw [hlen] at hcap'
          rw [dirEntries_snoc]
          exact passed_append.mpr ⟨hcap', hpassed.each, heach⟩
        rcases List.mem_cons.mp hb with rfl | hb
        · exact Or.inl (.look ⟨_, hpath.snoc hvalid, hpassed'⟩)
        · refine ih (hpath.snoc hvalid) hpassed' ?_ hb
          rw [dirEntries_snoc, List.length_append, hlen', hlen]
    · rw [setupLoop_of_not_valid hvalid] at h
      cases h

/-- The loop comes to each number of its path if it gets past the entries before, and reads there what
    it reads from there. -/
theorem setupLoop_reach {cur v : ℕ} {l : List ℕ} (hpath : FatPath disk info cur l v) (fuel : ℕ)
    (data : Mem) {childs : List Vnode}
    (hcap : childs.length + (dirEntries disk info l).length ≤ maxDirNum)
    (heach : ∀ e ∈ dirEntries disk info l, Returns setup disk info e) :
    ∃ data' childs', childs'.length = childs.length + (dirEntries disk info l).length ∧
      fatBlock info v :: (Traced.setupLoop disk info setup fuel v (readFatEntry disk info v)
          (data', childs')).log ⊆
        fatBlock info cur :: (Traced.setupLoop disk info setup (fuel + l.length) cur
          (readFatEntry disk info cur) (data, childs)).log := by
  induction hpath generalizing data childs with
  | start c => exact ⟨data, childs, rfl, fun b hb => hb⟩
  | @link c v l hvalid _ ih =>
    rw [dirEntries_cons] at hcap heach ⊢
    rw [List.length_append] at hcap
    obtain ⟨heach₁, heach₂⟩ := List.forall_mem_append.mp heach
    have hle : childs.length ≤ maxDirNum := by omega
    obtain ⟨childs₁, hval, hlen₁⟩ := (foldlM_addChild_returns hle).mpr ⟨by omega, heach₁⟩
    have hcap₁ : childs₁.length + (dirEntries disk info l).length ≤ maxDirNum := by omega
    obtain ⟨data', childs', hlen', hsub⟩ := ih (readblock disk (clusterBlock info c) data) hcap₁ heach₂
    refine ⟨data', childs', ?_, fun b hb => List.mem_cons_of_mem _ ?_⟩
    · rw [hlen', hlen₁, List.length_append, add_assoc]
    · rw [List.length_cons, ← add_assoc, mem_log_setupLoop hvalid]
      exact Or.inr (Or.inr ⟨childs₁, hval, hsub hb⟩)

end Loop

/-! ## The directory and all below it -/

/-- An entry that is no directory, or one whose tree is finite. -/
def Ends (disk : Disk) (info : Fat32Info) (e : DirEntry) : Prop :=
  e.type = .dir → WalkEnds disk info e.cluster

/-- `setup_fat32` on directory `d` is called for its subdirectory `d'`. -/
def SubDir (disk : Disk) (info : Fat32Info) (d d' : ℕ) : Prop :=
  ∃ e, EntryMet (Ends disk info) disk info d e ∧ e.type = .dir ∧ e.cluster = d'

theorem mem_log_setupFat32_succ {fuel : ℕ} {inode : Fat32Inode} {b : ℕ} :
    b ∈ (Traced.setupFat32 disk info (fuel + 1) inode).log ↔
      b ∈ fatBlock info inode.cluster ::
        (Traced.setupLoop disk info (Traced.setupFat32 disk info fuel) (fuel + 1) inode.cluster
          (readFatEntry disk info inode.cluster) (inode.data, [])).log := by
  rw [Traced.setupFat32, Traced.readFatEntry, Logged.log_emit_bind, List.mem_cons, List.mem_cons,
    Logged.mem_log_bind]
  simp

theorem Passed.mono {E E' : DirEntry → Prop} {es : List DirEntry} (h : Passed E es)
    (hE : ∀ e ∈ es, E e → E' e) : Passed E' es :=
  ⟨h.length_le, fun e he => hE e he (h.each e he)⟩

theorem EntryMet.mono {E E' : DirEntry → Prop} {d : ℕ} {e : DirEntry} (h : EntryMet E disk info d e)
    (hE : ∀ e, E e → E' e) : EntryMet E' disk info d e := by
  obtain ⟨l, v, es, rest, hpath, hv, heq, hpassed, hlt⟩ := h
  exact ⟨l, v, es, rest, hpath, hv, heq, hpassed.mono fun e _ => hE e, hlt⟩

theorem NumberMet.mono {E E' : DirEntry → Prop} {d v : ℕ} (h : NumberMet E disk info d v)
    (hE : ∀ e, E e → E' e) : NumberMet E' disk info d v := by
  obtain ⟨l, hpath, hpassed⟩ := h
  exact ⟨l, hpath, hpassed.mono fun e _ => hE e⟩

theorem OwnRead.mono {E E' : DirEntry → Prop} {d b : ℕ} (h : OwnRead E disk info d b)
    (hE : ∀ e, E e → E' e) : OwnRead E' disk info d b := by
  cases h with
  | look h => exact .look (h.mono hE)
  | table h hv => exact .table (h.mono hE) hv
  | child h => exact .child (h.mono hE)

theorem ends_of_returns {fuel : ℕ} (e : DirEntry)
    (h : Returns (Traced.setupFat32 disk info fuel) disk info e) : Ends disk info e := by
  intro htype
  obtain ⟨v, hv⟩ := h htype
  rw [Traced.val_setupFat32] at hv
  exact walkEnds_of_ok hv

/-- With a bound that is large enough, the calls for finite subdirectories come back. -/
theorem Passed.returns {es : List DirEntry} (h : Passed (Ends disk info) es) :
    ∃ n, ∀ fuel, n ≤ fuel → Passed (Returns (Traced.setupFat32 disk info fuel) disk info) es := by
  have heach : ∀ e ∈ es, ∃ n, ∀ fuel, n ≤ fuel →
      Returns (Traced.setupFat32 disk info fuel) disk info e := by
    intro e he
    by_cases htype : e.type = .dir
    · obtain ⟨n, hn⟩ := (h.each e he htype).returns
      refine ⟨n, fun fuel hfuel _ => ?_⟩
      rw [Traced.val_setupFat32]
      exact hn fuel hfuel _ rfl
    · exact ⟨0, fun _ _ hdir => absurd hdir htype⟩
  obtain ⟨n, hn⟩ := exists_bound heach
  exact ⟨n, fun fuel hfuel => ⟨h.length_le, hn fuel hfuel⟩⟩

/-- Whatever a call reads, the walks meet. -/
theorem setupFat32_sound {fuel : ℕ} {inode : Fat32Inode} {b : ℕ}
    (h : b ∈ (Traced.setupFat32 disk info fuel inode).log) :
    ∃ d, ReflTransGen (SubDir disk info) inode.cluster d ∧ OwnRead (Ends disk info) disk info d b := by
  induction fuel generalizing inode with
  | zero => cases h
  | succ fuel ih =>
    have hstart : FatPath disk info inode.cluster [] inode.cluster := .start _
    rcases List.mem_cons.mp (mem_log_setupFat32_succ.mp h) with rfl | hb
    · exact ⟨inode.cluster, .refl, .look ⟨[], hstart, by simp [dirEntries], by simp [dirEntries]⟩⟩
    · have hpassed : Passed (Returns (Traced.setupFat32 disk info fuel) disk info)
          (dirEntries disk info []) := ⟨by simp [dirEntries], by simp [dirEntries]⟩
      rcases setupLoop_sound hstart hpassed rfl hb with hown | ⟨e, hmet, htype, hb⟩
      · exact ⟨inode.cluster, .refl, hown.mono ends_of_returns⟩
      · obtain ⟨d, hreach, hown⟩ := ih hb
        exact ⟨d, .head ⟨e, hmet.mono ends_of_returns, htype, rfl⟩ hreach, hown⟩

/-- Along a path the call comes to the loop at each number. -/
theorem setupFat32_reach {fuel v : ℕ} {inode : Fat32Inode} {l : List ℕ}
    (hpath : FatPath disk info inode.cluster l v)
    (hpassed : Passed (Returns (Traced.setupFat32 disk info fuel) disk info) (dirEntries disk info l))
    (hfuel : l.length ≤ fuel) : ∃ n data childs, childs.length = (dirEntries disk info l).length ∧
      ∀ b ∈ fatBlock info v :: (Traced.setupLoop disk info (Traced.setupFat32 disk info fuel) (n + 1)
        v (readFatEntry disk info v) (data, childs)).log,
        b ∈ (Traced.setupFat32 disk info (fuel + 1) inode).log := by
  obtain ⟨n, rfl⟩ : ∃ n, fuel = n + l.length := ⟨fuel - l.length, by omega⟩
  have hcap : ([] : List Vnode).length + (dirEntries disk info l).length ≤ maxDirNum := by
    simpa using hpassed.length_le
  obtain ⟨data, childs, hlen, hsub⟩ := setupLoop_reach hpath (n + 1) inode.data hcap hpassed.each
  refine ⟨n, data, childs, by simpa using hlen, fun b hb => ?_⟩
  rw [mem_log_setupFat32_succ, Nat.add_right_comm]
  exact hsub hb

/-- With a bound that is large enough, every call for directory `d` reads block `b`. -/
def Read (disk : Disk) (info : Fat32Info) (d b : ℕ) : Prop :=
  ∃ n, ∀ fuel, n ≤ fuel → ∀ inode : Fat32Inode, inode.cluster = d →
    b ∈ (Traced.setupFat32 disk info fuel inode).log

theorem Read.of_succ {d b : ℕ} (h : ∃ n, ∀ fuel, n ≤ fuel → ∀ inode : Fat32Inode, inode.cluster = d →
    b ∈ (Traced.setupFat32 disk info (fuel + 1) inode).log) : Read disk info d b := by
  obtain ⟨n, hn⟩ := h
  refine ⟨n + 1, fun fuel hfuel => ?_⟩
  obtain ⟨fuel, rfl⟩ : ∃ k, fuel = k + 1 := ⟨fuel - 1, by omega⟩
  exact hn fuel (by omega)

theorem NumberMet.read {d v : ℕ} (h : NumberMet (Ends disk info) disk info d v) :
    Read disk info d (fatBlock info v) ∧
      (IsFatEntryValid v → Read disk info d (clusterBlock info v)) := by
  obtain ⟨l, hpath, hpassed⟩ := h
  obtain ⟨n, hn⟩ := hpassed.returns
  constructor
  · refine .of_succ ⟨max n l.length, fun fuel hfuel inode hc => ?_⟩
    obtain ⟨k, data, childs, -, hsub⟩ :=
      setupFat32_reach (hc ▸ hpath) (hn fuel (by omega)) (by omega)
    exact hsub _ List.mem_cons_self
  · intro hv
    refine .of_succ ⟨max n l.length, fun fuel hfuel inode hc => ?_⟩
    obtain ⟨k, data, childs, -, hsub⟩ :=
      setupFat32_reach (hc ▸ hpath) (hn fuel (by omega)) (by omega)
    exact hsub _ (List.mem_cons_of_mem _ ((mem_log_setupLoop hv).mpr (Or.inl rfl)))

theorem EntryMet.read {d : ℕ} {e : DirEntry} (h : EntryMet (Ends disk info) disk info d e) :
    Read disk info d (clusterBlock info e.cluster) ∧
      (e.type = .dir → ∀ b, Read disk info e.cluster b → Read disk info d b) := by
  obtain ⟨l, v, es, rest, hpath, hv, heq, hpassed, hlt⟩ := h
  obtain ⟨n, hn⟩ := hpassed.returns
  -- the call for `d` makes the child
  have hmake : ∀ fuel, max n l.length ≤ fuel → ∀ inode : Fat32Inode, inode.cluster = d →
      ∀ b ∈ (Traced.makeChild disk info (Traced.setupFat32 disk info fuel) e).log,
        b ∈ (Traced.setupFat32 disk info (fuel + 1) inode).log := by
    intro fuel hfuel inode hc b hb
    obtain ⟨hcap, heach, heach'⟩ := passed_append.mp (hn fuel (by omega))
    obtain ⟨k, data, childs, hlen, hsub⟩ :=
      setupFat32_reach (hc ▸ hpath) ⟨by omega, heach⟩ (by omega)
    rw [List.length_append, ← hlen] at hlt
    have hfold := (mem_log_foldlM_addChild (by omega)).mpr ⟨es, e, rest, heq, hlt, heach', hb⟩
    exact hsub b (List.mem_cons_of_mem _ ((mem_log_setupLoop hv).mpr (Or.inr (Or.inl hfold))))
  constructor
  · exact .of_succ ⟨max n l.length, fun fuel hfuel inode hc =>
      hmake fuel hfuel inode hc _ (mem_log_makeChild.mpr (Or.inl rfl))⟩
  · rintro htype b ⟨k, hk⟩
    refine .of_succ ⟨max (max n l.length) k, fun fuel hfuel inode hc => ?_⟩
    exact hmake fuel (by omega) inode hc b
      (mem_log_makeChild.mpr (Or.inr ⟨htype, hk fuel (by omega) _ rfl⟩))

/-- Whatever the walks meet, a call reads. -/
theorem setupFat32_complete {c d b : ℕ} (hreach : ReflTransGen (SubDir disk info) c d)
    (hown : OwnRead (Ends disk info) disk info d b) : Read disk info c b := by
  induction hreach using ReflTransGen.head_induction_on with
  | refl =>
    cases hown with
    | look h => exact h.read.1
    | table h hv => exact h.read.2 hv
    | child h => exact h.read.1
  | head hsub _ ih =>
    obtain ⟨e, hmet, htype, rfl⟩ := hsub
    exact hmet.read.2 htype b ih

/-- The blocks that `setup_fat32` reads are those of its directory and of all that it is called for
    below. -/
theorem mem_log_setupFat32 (inode : Fat32Inode) (b : ℕ) :
    (∃ fuel, b ∈ (Traced.setupFat32 disk info fuel inode).log) ↔
      ∃ d, ReflTransGen (SubDir disk info) inode.cluster d ∧
        OwnRead (Ends disk info) disk info d b := by
  constructor
  · rintro ⟨fuel, h⟩
    exact setupFat32_sound h
  · rintro ⟨d, hreach, hown⟩
    obtain ⟨n, hn⟩ := setupFat32_complete hreach hown
    exact ⟨n, hn n le_rfl inode rfl⟩

/-! ## The search for a slot -/

/-- No slot of a block has the attribute 0. -/
def NoSlot (buf : Mem) : Prop :=
  ((List.range slotsPerBlock).find? fun i => entryAttr buf i = 0) = none

/-- A number that the search for a slot in directory `d` takes for a cluster. -/
def SearchMet (disk : Disk) (info : Fat32Info) (d v : ℕ) : Prop :=
  ∃ l, FatPath disk info d l v ∧ ∀ c ∈ l, NoSlot (disk (clusterBlock info c))

variable {entry : Mem}

/-- What one round of the search and the rounds behind it read. -/
theorem mem_log_newDirEntryLoop {cur : ℕ} (hvalid : IsFatEntryValid cur) {fuel nxt b : ℕ} :
    b ∈ (Traced.newDirEntryLoop disk info entry (fuel + 1) cur nxt).log ↔
      b = clusterBlock info cur ∨ (NoSlot (disk (clusterBlock info cur)) ∧
        b ∈ fatBlock info nxt ::
          (Traced.newDirEntryLoop disk info entry fuel nxt (readFatEntry disk info nxt)).log) := by
  rw [Traced.newDirEntryLoop, if_pos hvalid, Logged.log_emit_bind, List.mem_cons]
  unfold NoSlot
  cases (List.range slotsPerBlock).find? fun i => entryAttr (disk (clusterBlock info cur)) i = 0 with
  | some i => simp
  | none =>
    rw [Traced.readFatEntry, Logged.log_emit_bind]
    simp

theorem newDirEntryLoop_sound {d cur fuel b : ℕ} {l : List ℕ} (hpath : FatPath disk info d l cur)
    (hfull : ∀ c ∈ l, NoSlot (disk (clusterBlock info c)))
    (h : b ∈ fatBlock info cur ::
      (Traced.newDirEntryLoop disk info entry fuel cur (readFatEntry disk info cur)).log) :
    ∃ v, SearchMet disk info d v ∧
      (b = fatBlock info v ∨ (IsFatEntryValid v ∧ b = clusterBlock info v)) := by
  induction fuel generalizing cur l with
  | zero =>
    obtain rfl := List.mem_singleton.mp h
    exact ⟨cur, ⟨l, hpath, hfull⟩, Or.inl rfl⟩
  | succ fuel ih =>
    rcases List.mem_cons.mp h with rfl | hb
    · exact ⟨cur, ⟨l, hpath, hfull⟩, Or.inl rfl⟩
    · by_cases hvalid : IsFatEntryValid cur
      · rcases (mem_log_newDirEntryLoop hvalid).mp hb with rfl | ⟨hno, hb⟩
        · exact ⟨cur, ⟨l, hpath, hfull⟩, Or.inr ⟨hvalid, rfl⟩⟩
        · refine ih (hpath.snoc hvalid) (List.forall_mem_append.mpr ⟨hfull, ?_⟩) hb
          simpa using hno
      · rw [Traced.newDirEntryLoop, if_neg hvalid] at hb
        cases hb

theorem newDirEntryLoop_reach {cur v : ℕ} {l : List ℕ} (hpath : FatPath disk info cur l v) (fuel : ℕ)
    (hfull : ∀ c ∈ l, NoSlot (disk (clusterBlock info c))) :
    fatBlock info v ::
        (Traced.newDirEntryLoop disk info entry fuel v (readFatEntry disk info v)).log ⊆
      fatBlock info cur :: (Traced.newDirEntryLoop disk info entry (fuel + l.length) cur
        (readFatEntry disk info cur)).log := by
  induction hpath with
  | start c => exact fun b hb => hb
  | @link c v l hvalid _ ih =>
    obtain ⟨hno, hfull⟩ := List.forall_mem_cons.mp hfull
    intro b hb
    rw [List.length_cons, ← add_assoc]
    exact List.mem_cons_of_mem _ ((mem_log_newDirEntryLoop hvalid).mpr (Or.inr ⟨hno, ih hfull hb⟩))

/-- The blocks that `fat32_new_dir_entry` reads. -/
theorem mem_log_fat32NewDirEntry (entry : Mem) (d b : ℕ) :
    (∃ fuel, b ∈ (Traced.fat32NewDirEntry disk info fuel d entry).log) ↔
      ∃ v, SearchMet disk info d v ∧
        (b = fatBlock info v ∨ (IsFatEntryValid v ∧ b = clusterBlock info v)) := by
  unfold Traced.fat32NewDirEntry Traced.readFatEntry
  simp only [Logged.log_emit_bind]
  constructor
  · rintro ⟨fuel, h⟩
    exact newDirEntryLoop_sound (.start d) (fun c hc => by cases hc) h
  · rintro ⟨v, ⟨l, hpath, hfull⟩, hb⟩
    refine ⟨1 + l.length, newDirEntryLoop_reach hpath 1 hfull ?_⟩
    rcases hb with rfl | ⟨hv, rfl⟩
    · exact List.mem_cons_self
    · exact List.mem_cons_of_mem _ ((mem_log_newDirEntryLoop hv).mpr (Or.inl rfl))

/-! ## The volume -/

/-- A block of the first copy of the FAT, or of the clusters of the volume. -/
def OnVolume (limit : ℕ) (info : Fat32Info) (b : ℕ) : Prop :=
  (info.fatRegion ≤ b ∧ b < info.fatRegion + info.sectorsPerFat) ∨
    (info.dataRegion ≤ b ∧ b < info.dataRegion + (limit - 2) * info.blocksPerCluster)

instance (limit : ℕ) (info : Fat32Info) (b : ℕ) : Decidable (OnVolume limit info b) :=
  inferInstanceAs (Decidable (_ ∨ _))

variable {limit : ℕ}

/-- The FAT has an entry for the number, or the block in which it is looked up is one of the volume all
    the same. -/
def LookupFits (limit : ℕ) (info : Fat32Info) (v : ℕ) : Prop :=
  v < entriesPerBlock * info.sectorsPerFat ∨ OnVolume limit info (fatBlock info v)

/-- A cluster of the volume, or a number whose block is one of the volume all the same. -/
def ClusterFits (limit : ℕ) (info : Fat32Info) (c : ℕ) : Prop :=
  InVolume limit c ∨ OnVolume limit info (clusterBlock info c)

/-- A number that can be taken for a cluster: it can be looked up, and if it is no end of a chain it is a
    cluster. -/
structure NumberFits (limit : ℕ) (info : Fat32Info) (v : ℕ) : Prop where
  lookup : LookupFits limit info v
  cluster : IsFatEntryValid v → ClusterFits limit info v

theorem Geometry.lookupFits_iff (hg : Geometry limit info) (v : ℕ) :
    LookupFits limit info v ↔ OnVolume limit info (fatBlock info v) := by
  refine or_iff_right_of_imp fun hv => ?_
  obtain ⟨hfat, hlt⟩ := hg.fatBlock_eq hv
  rw [hfat]
  exact Or.inl ⟨Nat.le_add_right _ _, Nat.add_lt_add_left hlt _⟩

theorem Geometry.clusterFits_iff (hg : Geometry limit info) (c : ℕ) :
    ClusterFits limit info c ↔ OnVolume limit info (clusterBlock info c) := by
  refine or_iff_right_of_imp fun hc => ?_
  have hend := hc.end_le info.blocksPerCluster
  have hpos := hg.blocksPerCluster_pos
  rw [hg.clusterBlock_eq hc]
  exact Or.inr ⟨by omega, by omega⟩

theorem Geometry.numberFits_iff (hg : Geometry limit info) (v : ℕ) : NumberFits limit info v ↔
    OnVolume limit info (fatBlock info v) ∧
      (IsFatEntryValid v → OnVolume limit info (clusterBlock info v)) := by
  rw [← hg.lookupFits_iff, ← hg.clusterFits_iff]
  exact ⟨fun h => ⟨h.lookup, h.cluster⟩, fun h => ⟨h.1, h.2⟩⟩

/-- The walks read blocks of the volume only, exactly if every number that they take for a cluster has an
    entry in the FAT and is a cluster of the volume unless it ends the chain, and every first cluster of an
    entry is one of the volume, up to numbers that lead to the volume all the same. -/
theorem walks_on_volume_iff (hg : Geometry limit info) (disk : Disk) (inode : Fat32Inode)
    (dirCluster : ℕ) (entry : Mem) :
    ((∀ fuel, ∀ b ∈ (Traced.setupFat32 disk info fuel inode).log, OnVolume limit info b) ↔
      ∀ d, ReflTransGen (SubDir disk info) inode.cluster d →
        (∀ v, NumberMet (Ends disk info) disk info d v → NumberFits limit info v) ∧
          ∀ e, EntryMet (Ends disk info) disk info d e → ClusterFits limit info e.cluster) ∧
    ((∀ fuel, ∀ b ∈ (Traced.fat32NewDirEntry disk info fuel dirCluster entry).log,
        OnVolume limit info b) ↔
      ∀ v, SearchMet disk info dirCluster v → NumberFits limit info v) := by
  simp only [hg.numberFits_iff, hg.clusterFits_iff]
  constructor
  · constructor
    · intro h d hreach
      have hread : ∀ b, OwnRead (Ends disk info) disk info d b → OnVolume limit info b := by
        intro b hown
        obtain ⟨fuel, hb⟩ := (mem_log_setupFat32 inode b).mpr ⟨d, hreach, hown⟩
        exact h fuel b hb
      exact ⟨fun v hv => ⟨hread _ (.look hv), fun hvalid => hread _ (.table hv hvalid)⟩,
        fun e he => hread _ (.child he)⟩
    · intro h fuel b hb
      obtain ⟨d, hreach, hown⟩ := (mem_log_setupFat32 inode b).mp ⟨fuel, hb⟩
      obtain ⟨hnumber, hentry⟩ := h d hreach
      cases hown with
      | look hv => exact (hnumber _ hv).1
      | table hv hvalid => exact (hnumber _ hv).2 hvalid
      | child he => exact hentry _ he
  · constructor
    · intro h v hv
      have hread : ∀ b, (b = fatBlock info v ∨ (IsFatEntryValid v ∧ b = clusterBlock info v)) →
          OnVolume limit info b := by
        intro b hb
        obtain ⟨fuel, hb⟩ := (mem_log_fat32NewDirEntry entry dirCluster b).mpr ⟨v, hv, hb⟩
        exact h fuel b hb
      exact ⟨hread _ (Or.inl rfl), fun hvalid => hread _ (Or.inr ⟨hvalid, rfl⟩)⟩
    · intro h fuel b hb
      obtain ⟨v, hv, hb⟩ := (mem_log_fat32NewDirEntry entry dirCluster b).mp ⟨fuel, hb⟩
      rcases hb with rfl | ⟨hvalid, rfl⟩
      · exact (h v hv).1
      · exact (h v hv).2 hvalid

theorem walks_on_volume_iff_small :
    ((∀ fuel, ∀ b ∈ (Traced.setupFat32 (smallImage (usedBelow 4)) smallInfo fuel smallRoot).log,
        OnVolume 256 smallInfo b) ↔
      ∀ d, ReflTransGen (SubDir (smallImage (usedBelow 4)) smallInfo) 2 d →
        (∀ v, NumberMet (Ends (smallImage (usedBelow 4)) smallInfo) (smallImage (usedBelow 4)) smallInfo
          d v → NumberFits 256 smallInfo v) ∧
          ∀ e, EntryMet (Ends (smallImage (usedBelow 4)) smallInfo) (smallImage (usedBelow 4)) smallInfo
            d e → ClusterFits 256 smallInfo e.cluster) ∧
    ((∀ fuel, ∀ b ∈ (Traced.fat32NewDirEntry (smallImage (usedBelow 4)) smallInfo fuel 2
        (newEntry (fun _ => 0) nameB 4)).log, OnVolume 256 smallInfo b) ↔
      ∀ v, SearchMet (smallImage (usedBelow 4)) smallInfo 2 v → NumberFits 256 smallInfo v) :=
  walks_on_volume_iff smallGeometry (smallImage (usedBelow 4)) smallRoot 2
    (newEntry (fun _ => 0) nameB 4)

/-- The end of a chain is looked up behind a volume that ends within `2 ^ 21 - 1` blocks from the FAT. -/
theorem endMark_off_volume (hg : Geometry limit info)
    (hend : info.dataRegion + (limit - 2) * info.blocksPerCluster ≤ info.fatRegion + 0x1fffff)
    (hlt : info.fatRegion + 2 ^ 25 ≤ 2 ^ 32) {v : ℕ} (hv : v < 2 ^ 32)
    (hmark : 0x0ffffff0 ≤ fatEntry v) : ¬ OnVolume limit info (fatBlock info v) := by
  have hle : fatEntry v ≤ v := Nat.and_le_left
  have hfat := hg.fat_le
  unfold OnVolume fatBlock entriesPerBlock
  rw [Nat.mod_eq_of_lt (by omega)]
  omega

/-- A FAT in which every chain ends and has clusters of the volume only. -/
structure WfFat (limit : ℕ) (disk : Disk) (info : Fat32Info) : Prop where
  geometry : Geometry limit info
  chain : ∀ c, InVolume limit c → ∃ l, FatChain disk info c l ∧ ∀ x ∈ l, InVolume limit x

theorem wfFat_small {disk : Disk} (h : ∀ c < 256, ¬ IsFatEntryValid (readFatEntry disk smallInfo c)) :
    WfFat 256 disk smallInfo := by
  refine ⟨smallGeometry, fun c hc => ⟨if IsFatEntryValid c then [c] else [], ?_, ?_⟩⟩
  · split_ifs with hvalid
    · exact .link hvalid (.stop (h c hc.2))
    · exact .stop hvalid
  · split_ifs
    · simpa using hc
    · simp

/-- On a volume of 254 clusters of one block, mounting looks up the end of the root directory's chain in
    block 2097153, and so does a create in a directory without a free slot. -/
theorem walks_leave_volume :
    (WfFat 256 (smallImage (usedBelow 4)) smallInfo ∧
      ¬ ∀ fuel, ∀ b ∈ (Traced.setupFat32 (smallImage (usedBelow 4)) smallInfo fuel smallRoot).log,
        OnVolume 256 smallInfo b) ∧
    (WfFat 256 fullTableImage smallInfo ∧
      ¬ ∀ fuel, ∀ b ∈ (Traced.fat32NewDirEntry fullTableImage smallInfo fuel 2
        (newEntry (fun _ => 0) nameB 4)).log, OnVolume 256 smallInfo b) := by
  have hoff : ¬ OnVolume 256 smallInfo (fatBlock smallInfo 0x0fffffff) :=
    endMark_off_volume smallGeometry (by decide) (by decide) (by decide) (by decide)
  refine ⟨⟨wfFat_small (by decide +kernel), fun h => hoff ?_⟩,
    ⟨wfFat_small (by decide +kernel), fun h => hoff ?_⟩⟩
  · exact h 2 _ (by decide +kernel)
  · exact h 2 _ (by decide +kernel)

end RaspiKernel.Fs
