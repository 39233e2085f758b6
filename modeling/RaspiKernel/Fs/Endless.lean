import RaspiKernel.Lib.Approx
import RaspiKernel.Fs.Remount
import RaspiKernel.Fs.Walk

/-!
# Mounting a card that is linked in a circle

Nothing in `setup_fat32` counts the rounds of its loop or the depth of its
recursion, so both run as long as the numbers on the disk lead on. What leads in
a circle is a chain that comes back to one of its clusters, or a directory that
is its own subdirectory, directly or through others.

* `child_idx` is not compared with the size of `childs[]` either: from a seventeenth
  child on the loop writes behind the array, and goes on. The model stops there,
  which is no end of the mount, and nothing is said of what follows. So of the chains
  that come back only those through clusters without entries are followed forever
  within `childs[]`.

Results:
* `setupFat32_approx`: a larger bound changes nothing once it is large enough.
* `setupFat32_looping`: a circle uses up every bound.
* `setupFat32_ends_iff`: `setup_fat32` comes back within `childs[]` exactly if its walk
  comes neither to a circle nor to a seventeenth child, and runs forever within
  `childs[]` exactly if it comes to a circle without entries.
-/

namespace RaspiKernel.Fs

open Lib Relation

variable {disk : Disk} {info : Fat32Info}

/-! ## A larger bound -/

section Approx

variable {setup setup' : Fat32Inode → Except Stop Vnode}
  (hsetup : ∀ inode, Approx .looping (setup inode) (setup' inode))

include hsetup

theorem makeChild_approx (e : DirEntry) :
    Approx .looping (makeChild setup disk info e) (makeChild setup' disk info e) := by
  unfold makeChild
  split_ifs
  · exact hsetup _
  · exact .refl _

theorem addChild_approx (childs : List Vnode) (e : DirEntry) :
    Approx .looping (addChild setup disk info childs e) (addChild setup' disk info childs e) := by
  unfold addChild
  split_ifs
  · exact .refl _
  · exact (makeChild_approx hsetup e).bind fun v => .refl _

theorem setupLoop_approx {fuel fuel' : ℕ} (hfuel : fuel ≤ fuel') (cur nxt : ℕ)
    (st : Mem × List Vnode) :
    Approx .looping (setupLoop setup disk info fuel cur nxt st)
      (setupLoop setup' disk info fuel' cur nxt st) := by
  induction fuel generalizing fuel' cur nxt st with
  | zero => exact .bot _
  | succ fuel ih =>
    obtain ⟨fuel', rfl⟩ : ∃ n, fuel' = n + 1 := ⟨fuel' - 1, by omega⟩
    rw [setupLoop, setupLoop]
    split_ifs
    · refine Approx.bind ?_ fun childs => ih (by omega) _ _ _
      rw [foldlM_addEntry, foldlM_addEntry]
      exact Approx.foldlM (addChild_approx hsetup) _ _
    · exact .refl _

end Approx

theorem setupFat32_approx {fuel fuel' : ℕ} (hfuel : fuel ≤ fuel') (inode : Fat32Inode) :
    Approx .looping (setupFat32 disk info fuel inode) (setupFat32 disk info fuel' inode) := by
  induction fuel generalizing fuel' inode with
  | zero => exact .bot _
  | succ fuel ih =>
    obtain ⟨fuel', rfl⟩ : ∃ n, fuel' = n + 1 := ⟨fuel' - 1, by omega⟩
    rw [setupFat32, setupFat32]
    exact (setupLoop_approx (ih (by omega)) hfuel _ _ _).bind fun st => .refl _

/-! ## Paths -/

theorem fatPath_append {c v : ℕ} {l m : List ℕ} : FatPath disk info c (l ++ m) v ↔
    ∃ u, FatPath disk info c l u ∧ FatPath disk info u m v := by
  induction l generalizing c with
  | nil =>
    constructor
    · exact fun h => ⟨c, .start c, h⟩
    · rintro ⟨u, hu, h⟩
      cases hu
      exact h
  | cons x l ih =>
    constructor
    · intro h
      cases h with
      | link hvalid h =>
        obtain ⟨u, hu, h⟩ := ih.mp h
        exact ⟨u, .link hvalid hu, h⟩
    · rintro ⟨u, hu, h⟩
      cases hu with
      | link hvalid hu => exact .link hvalid (ih.mpr ⟨u, hu, h⟩)

theorem FatPath.head_eq {c v x : ℕ} {l : List ℕ} (h : FatPath disk info c (x :: l) v) : x = c := by
  cases h
  rfl

theorem dirEntries_append (disk : Disk) (info : Fat32Info) (l m : List ℕ) :
    dirEntries disk info (l ++ m) = dirEntries disk info l ++ dirEntries disk info m := by
  simp [dirEntries]

/-- The numbers of a path are those of 32 bits, apart from the first. -/
theorem FatPath.lt {c v : ℕ} {l : List ℕ} (h : FatPath disk info c l v) :
    ∀ x ∈ l, x < max (c + 1) (2 ^ 32) := by
  induction h with
  | start c => simp
  | @link c v l hvalid hl ih =>
    have hnext := readFatEntry_lt disk info c
    intro x hx
    rcases List.mem_cons.mp hx with rfl | hx
    · omega
    · have := ih x hx
      omega

/-! ## Where a walk is led in a circle -/

/-- The chain of directory `d` comes back to a cluster. -/
def ChainCircle (disk : Disk) (info : Fat32Info) (d : ℕ) : Prop :=
  ∃ l v m, FatPath disk info d l v ∧ FatPath disk info v m v ∧ m ≠ []

/-- The chain of directory `d` comes back to a cluster, behind entries that the walk gets past, and there
    are no entries on the way round. -/
def ChainLoops (disk : Disk) (info : Fat32Info) (d : ℕ) : Prop :=
  ∃ l v m, FatPath disk info d l v ∧ Passed (Ends disk info) (dirEntries disk info l) ∧
    FatPath disk info v m v ∧ m ≠ [] ∧ dirEntries disk info m = []

/-- The walk through directory `d` comes to a seventeenth entry. -/
def Crowded (E : DirEntry → Prop) (disk : Disk) (info : Fat32Info) (d : ℕ) : Prop :=
  ∃ l v es e rest, FatPath disk info d l v ∧ IsFatEntryValid v ∧
    blockEntries (disk (clusterBlock info v)) = es ++ e :: rest ∧
    Passed E (dirEntries disk info l ++ es) ∧ (dirEntries disk info l ++ es).length = maxDirNum

/-! ## One directory -/

section Loop

variable {setup : Fat32Inode → Except Stop Vnode}

/-- An entry that a child is made of. -/
def Made (setup : Fat32Inode → Except Stop Vnode) (disk : Disk) (info : Fat32Info) (e : DirEntry) :
    Prop :=
  ∃ v, makeChild setup disk info e = .ok v

/-- One round of the loop. -/
theorem setupLoop_valid {cur : ℕ} (hvalid : IsFatEntryValid cur) (fuel nxt : ℕ) (data : Mem)
    (childs : List Vnode) :
    setupLoop setup disk info (fuel + 1) cur nxt (data, childs) =
      (blockEntries (disk (clusterBlock info cur))).foldlM (addChild setup disk info) childs >>=
        fun childs => setupLoop setup disk info fuel nxt (readFatEntry disk info nxt)
          (readblock disk (clusterBlock info cur) data, childs) := by
  rw [setupLoop, if_pos hvalid]
  dsimp only
  rw [foldlM_addEntry, blockEntries_congr (readblock_same disk _ data)]

/-- Along a path the loop adds the entries and goes on from the end of the path. -/
theorem setupLoop_path (setup : Fat32Inode → Except Stop Vnode) {cur v : ℕ} {l : List ℕ}
    (hpath : FatPath disk info cur l v) (fuel : ℕ) (data : Mem) : ∃ data', ∀ childs,
    setupLoop setup disk info (fuel + l.length) cur (readFatEntry disk info cur) (data, childs) =
      (dirEntries disk info l).foldlM (addChild setup disk info) childs >>=
        fun childs => setupLoop setup disk info fuel v (readFatEntry disk info v) (data', childs) := by
  induction hpath generalizing data with
  | start c => exact ⟨data, fun childs => rfl⟩
  | @link c v l hvalid _ ih =>
    obtain ⟨data', hrest⟩ := ih (readblock disk (clusterBlock info c) data)
    refine ⟨data', fun childs => ?_⟩
    rw [List.length_cons, ← add_assoc, setupLoop_valid hvalid, dirEntries_cons, List.foldlM_append,
      bind_assoc]
    congr 1
    funext childs
    exact hrest childs

/-- Children are added until one of them is not made, or until there is no room for it. -/
theorem foldlM_addChild_error {es : List DirEntry} {acc : List Vnode} (hacc : acc.length ≤ maxDirNum)
    {stop : Stop} (h : es.foldlM (addChild setup disk info) acc = .error stop) :
    ∃ pre e post, es = pre ++ e :: post ∧ (∀ x ∈ pre, Made setup disk info x) ∧
      (acc.length + pre.length < maxDirNum ∧ makeChild setup disk info e = .error stop ∨
        acc.length + pre.length = maxDirNum ∧ stop = .overrun) := by
  induction es generalizing acc with
  | nil => cases h
  | cons e es ih =>
    rw [List.foldlM_cons] at h
    by_cases hfull : acc.length ≥ maxDirNum
    · rw [addChild, if_pos hfull] at h
      cases h
      exact ⟨[], e, es, rfl, by simp, Or.inr ⟨by simp; omega, rfl⟩⟩
    · rw [addChild, if_neg hfull] at h
      cases hmake : makeChild setup disk info e with
      | error stop' =>
        rw [hmake] at h
        cases h
        exact ⟨[], e, es, rfl, by simp, Or.inl ⟨by simp; omega, hmake⟩⟩
      | ok v =>
        rw [hmake] at h
        have hlen : (acc ++ [v]).length = acc.length + 1 := by simp
        have hacc' : (acc ++ [v]).length ≤ maxDirNum := by omega
        obtain ⟨pre, x, post, rfl, hpre, hstop⟩ := ih hacc' h
        refine ⟨e :: pre, x, post, rfl, List.forall_mem_cons.mpr ⟨⟨v, hmake⟩, hpre⟩, ?_⟩
        rw [List.length_cons]
        rw [hlen] at hstop
        rcases hstop with ⟨hlt, hx⟩ | ⟨heq, hx⟩
        · exact Or.inl ⟨by omega, hx⟩
        · exact Or.inr ⟨by omega, hx⟩

/-- A loop that does not come back has used up its rounds, has met an entry of which no child is made,
    or has come to a seventeenth entry. -/
theorem setupLoop_error {d cur fuel : ℕ} {l : List ℕ} {data : Mem} {childs : List Vnode} {stop : Stop}
    (hpath : FatPath disk info d l cur)
    (hpassed : Passed (Made setup disk info) (dirEntries disk info l))
    (hlen : childs.length = (dirEntries disk info l).length)
    (h : setupLoop setup disk info fuel cur (readFatEntry disk info cur) (data, childs) =
      .error stop) :
    (stop = .looping ∧ ∃ l' v, FatPath disk info d l' v ∧ l'.length = l.length + fuel ∧
        Passed (Made setup disk info) (dirEntries disk info l')) ∨
      (∃ e, EntryMet (Made setup disk info) disk info d e ∧
        makeChild setup disk info e = .error stop) ∨
      (stop = .overrun ∧ Crowded (Made setup disk info) disk info d) := by
  induction fuel generalizing cur l data childs with
  | zero =>
    cases h
    exact Or.inl ⟨rfl, l, cur, hpath, rfl, hpassed⟩
  | succ fuel ih =>
    by_cases hvalid : IsFatEntryValid cur
    · rw [setupLoop_valid hvalid] at h
      have hcap : childs.length ≤ maxDirNum := hlen.trans_le hpassed.length_le
      cases hfold : (blockEntries (disk (clusterBlock info cur))).foldlM
          (addChild setup disk info) childs with
      | error stop' =>
        rw [hfold] at h
        cases h
        obtain ⟨pre, e, post, heq, hpre, hstop⟩ := foldlM_addChild_error hcap hfold
        have hpassed' : Passed (Made setup disk info) (dirEntries disk info l ++ pre) :=
          passed_append.mpr ⟨by omega, hpassed.each, hpre⟩
        rw [hlen, ← List.length_append] at hstop
        rcases hstop with ⟨hlt, hmake⟩ | ⟨hfull, rfl⟩
        · exact Or.inr (Or.inl ⟨e, ⟨l, cur, pre, post, hpath, hvalid, heq, hpassed', hlt⟩, hmake⟩)
        · exact Or.inr (Or.inr ⟨rfl, l, cur, pre, e, post, hpath, hvalid, heq, hpassed', hfull⟩)
      | ok childs' =>
        rw [hfold] at h
        obtain ⟨hcap', vs, hvs, rfl⟩ := (foldlM_addChild hcap).mp hfold
        have hpassed' : Passed (Made setup disk info) (dirEntries disk info (l ++ [cur])) := by
          rw [dirEntries_snoc]
          refine passed_append.mpr ⟨by omega, hpassed.each, fun e he => ?_⟩
          obtain ⟨v, -, hv⟩ := forall₂_mem_left hvs he
          exact ⟨v, hv⟩
        have hlen' : (childs ++ vs).length = (dirEntries disk info (l ++ [cur])).length := by
          rw [dirEntries_snoc, List.length_append, List.length_append, hlen, hvs.length_eq]
        rcases ih (hpath.snoc hvalid) hpassed' hlen' h with ⟨hstop, l', v, hl', hlen', hp⟩ | hrest
        · refine Or.inl ⟨hstop, l', v, hl', ?_, hp⟩
          rw [hlen', List.length_append, List.length_singleton]
          omega
        · exact Or.inr hrest
    · rw [setupLoop, if_neg hvalid] at h
      cases h

end Loop

/-! ## A circle uses up every bound -/

/-- A child of an entry whose tree is finite is made, or the bound is used up. -/
theorem makeChild_of_ends {e : DirEntry} (he : Ends disk info e) (fuel : ℕ) :
    makeChild (setupFat32 disk info fuel) disk info e = .error .looping ∨
      Made (setupFat32 disk info fuel) disk info e := by
  unfold Made makeChild
  split_ifs with htype
  · obtain ⟨n, hn⟩ := (he htype).returns
    obtain ⟨v, hv⟩ := hn (max n fuel) (le_max_left _ _) (childInode disk info e) rfl
    rcases setupFat32_approx (le_max_right n fuel) (childInode disk info e) with h | h
    · exact Or.inl h
    · exact Or.inr ⟨v, by rw [← h, hv]⟩
  · exact Or.inr ⟨_, rfl⟩

/-- Children of entries that are passed are added, or the bound is used up. -/
theorem foldlM_addChild_of_ends {es : List DirEntry} (acc : List Vnode)
    (hcap : acc.length + es.length ≤ maxDirNum) (hes : ∀ e ∈ es, Ends disk info e) (fuel : ℕ) :
    es.foldlM (addChild (setupFat32 disk info fuel) disk info) acc = .error .looping ∨
      ∃ childs, es.foldlM (addChild (setupFat32 disk info fuel) disk info) acc = .ok childs ∧
        childs.length = acc.length + es.length := by
  have hacc : acc.length ≤ maxDirNum := by omega
  cases hfold : es.foldlM (addChild (setupFat32 disk info fuel) disk info) acc with
  | ok childs =>
    obtain ⟨-, vs, hvs, rfl⟩ := (foldlM_addChild hacc).mp hfold
    exact Or.inr ⟨acc ++ vs, rfl, by rw [List.length_append, hvs.length_eq]⟩
  | error stop =>
    obtain ⟨pre, e, post, rfl, -, hstop⟩ := foldlM_addChild_error hacc hfold
    rw [List.length_append, List.length_cons] at hcap
    rcases hstop with ⟨-, hmake⟩ | ⟨hfull, -⟩
    · rcases makeChild_of_ends (hes e (by simp)) fuel with h | ⟨v, hv⟩
      · exact Or.inl (congrArg Except.error (Except.error.inj (hmake.symm.trans h)))
      · rw [hv] at hmake
        cases hmake
    · omega

/-- A chain that comes back without entries is followed forever. -/
theorem setupLoop_looping {setup : Fat32Inode → Except Stop Vnode} {v : ℕ} {m : List ℕ}
    (hpath : FatPath disk info v m v) (hm : m ≠ []) (hentries : dirEntries disk info m = [])
    (fuel : ℕ) (data : Mem) (childs : List Vnode) :
    setupLoop setup disk info fuel v (readFatEntry disk info v) (data, childs) =
      .error .looping := by
  have hrounds : ∀ k data childs, setupLoop setup disk info (k * m.length) v
      (readFatEntry disk info v) (data, childs) = .error .looping := by
    intro k
    induction k with
    | zero =>
      intro data childs
      rw [Nat.zero_mul]
      rfl
    | succ k ih =>
      intro data childs
      obtain ⟨data', hround⟩ := setupLoop_path setup hpath (k * m.length) data
      rw [Nat.succ_mul, hround, hentries]
      exact ih data' childs
  have hpos : 0 < m.length := List.length_pos_iff.mpr hm
  have hle : fuel ≤ fuel * m.length := Nat.le_mul_of_pos_right fuel hpos
  exact (setupLoop_approx (fun _ => .refl _) hle _ _ _).eq_error (hrounds fuel data childs)

variable {fuel : ℕ} {data : Mem}

/-- The loop through a directory whose chain comes back. -/
theorem ChainLoops.looping {d : ℕ} (h : ChainLoops disk info d) :
    setupLoop (setupFat32 disk info fuel) disk info (fuel + 1) d (readFatEntry disk info d) (data, []) =
      .error .looping := by
  obtain ⟨l, v, m, hl, hpassed, hm, hne, hentries⟩ := h
  obtain ⟨data', hpath⟩ := setupLoop_path (setupFat32 disk info fuel) hl (fuel + 1) data
  refine (setupLoop_approx (fun _ => .refl _) (Nat.le_add_right _ l.length) _ _ _).eq_error ?_
  rw [hpath]
  rcases foldlM_addChild_of_ends [] (by simpa using hpassed.length_le) hpassed.each fuel with
    hfold | ⟨childs, hfold, -⟩
  · rw [hfold]
    rfl
  · rw [hfold]
    exact setupLoop_looping hm hne hentries (fuel + 1) data' childs

/-- The loop through a directory with an entry whose call uses up every bound. -/
theorem EntryMet.looping {d : ℕ} {e : DirEntry} (h : EntryMet (Ends disk info) disk info d e)
    (hmake : makeChild (setupFat32 disk info fuel) disk info e = .error .looping) :
    setupLoop (setupFat32 disk info fuel) disk info (fuel + 1) d (readFatEntry disk info d) (data, []) =
      .error .looping := by
  obtain ⟨l, v, es, rest, hl, hvalid, heq, hpassed, hlt⟩ := h
  obtain ⟨hcap, heach, heach'⟩ := passed_append.mp hpassed
  obtain ⟨data', hpath⟩ := setupLoop_path (setupFat32 disk info fuel) hl (fuel + 1) data
  rw [List.length_append] at hlt
  refine (setupLoop_approx (fun _ => .refl _) (Nat.le_add_right _ l.length) _ _ _).eq_error ?_
  rw [hpath]
  rcases foldlM_addChild_of_ends [] (by simp; omega) heach fuel with
    hfold | ⟨childs, hfold, hlen⟩
  · rw [hfold]
    rfl
  rw [List.length_nil, zero_add] at hlen
  rw [hfold]
  change setupLoop _ _ _ (fuel + 1) v _ (data', childs) = _
  rw [setupLoop_valid hvalid, heq, List.foldlM_append]
  rcases foldlM_addChild_of_ends childs (by omega) heach' fuel with
    hfold' | ⟨childs', hfold', hlen'⟩
  · rw [hfold']
    rfl
  have hadd : addChild (setupFat32 disk info fuel) disk info childs' e = .error .looping := by
    rw [addChild, if_neg (by omega), hmake]
    rfl
  rw [hfold']
  change (List.foldlM _ childs' (e :: rest) >>= _) = _
  rw [List.foldlM_cons, hadd]
  rfl

/-- Where every directory leads to another one of its kind or has a chain that comes back, no bound is
    large enough. -/
theorem setupFat32_looping {S : ℕ → Prop}
    (hS : ∀ c, S c → ChainLoops disk info c ∨ ∃ d, S d ∧ SubDir disk info c d) (fuel : ℕ)
    (inode : Fat32Inode) (hc : S inode.cluster) :
    setupFat32 disk info fuel inode = .error .looping := by
  induction fuel generalizing inode with
  | zero => rfl
  | succ fuel ih =>
    rw [setupFat32]
    rcases hS _ hc with hchain | ⟨d, hd, e, hmet, htype, rfl⟩
    · rw [hchain.looping]
      rfl
    · have hmake : makeChild (setupFat32 disk info fuel) disk info e = .error .looping := by
        rw [makeChild, if_pos htype, ih (childInode disk info e) hd]
      rw [hmet.looping hmake]
      rfl

/-! ## Without a circle -/

/-- A bound within which the call for a directory ends, in whatever way. -/
def EndsWithin (disk : Disk) (info : Fat32Info) (c n : ℕ) : Prop :=
  ∀ fuel, n ≤ fuel → ∀ inode : Fat32Inode, inode.cluster = c →
    setupFat32 disk info fuel inode ≠ .error .looping

theorem ends_of_made {fuel : ℕ} (e : DirEntry) (h : Made (setupFat32 disk info fuel) disk info e) :
    Ends disk info e := by
  intro htype
  obtain ⟨v, hv⟩ := h
  rw [makeChild, if_pos htype] at hv
  exact walkEnds_of_ok hv

/-- On a path that is longer than there are pairs of a number and a count of entries, some number comes
    back with no entry between. -/
theorem path_length_le {c v : ℕ} {l : List ℕ} (hchain : ¬ ChainLoops disk info c)
    (hpath : FatPath disk info c l v) (hpassed : Passed (Ends disk info) (dirEntries disk info l)) :
    l.length ≤ max (c + 1) (2 ^ 32) * (maxDirNum + 1) := by
  by_contra hlen
  have hcount : ∀ i, (dirEntries disk info (l.take i)).length < maxDirNum + 1 := by
    intro i
    have hsplit := congrArg List.length (dirEntries_append disk info (l.take i) (l.drop i))
    rw [List.take_append_drop, List.length_append] at hsplit
    have := hpassed.length_le
    omega
  let f : Fin l.length → Fin (max (c + 1) (2 ^ 32)) × Fin (maxDirNum + 1) := fun i =>
    (⟨l.get i, hpath.lt _ (List.get_mem l i)⟩, ⟨_, hcount i⟩)
  obtain ⟨i, j, hij, hf⟩ : ∃ i j : Fin l.length, i < j ∧ f i = f j := by
    obtain ⟨i, j, hne, hf⟩ := Fintype.exists_ne_map_eq_of_card_lt f (by
      rw [Fintype.card_prod, Fintype.card_fin, Fintype.card_fin, Fintype.card_fin]
      exact not_le.mp hlen)
    rcases lt_or_gt_of_ne hne with h | h
    · exact ⟨i, j, h, hf⟩
    · exact ⟨j, i, h, hf.symm⟩
  obtain ⟨hnum, hcnt⟩ : l.get i = l.get j ∧
      (dirEntries disk info (l.take i)).length = (dirEntries disk info (l.take j)).length := by
    simpa [f] using hf
  -- the way from the one to the other
  have hij' : (i : ℕ) < j := hij
  have htake : l.take j = l.take i ++ (l.take j).drop i := by
    conv_lhs => rw [← List.take_append_drop i (l.take j), List.take_take, min_eq_left hij'.le]
  have hsplit : l = l.take j ++ l.get j :: l.drop (j + 1) := by
    rw [List.get_eq_getElem, List.getElem_cons_drop, List.take_append_drop]
  rw [hsplit, fatPath_append] at hpath
  obtain ⟨w, hw, hrest⟩ := hpath
  obtain rfl := hrest.head_eq
  rw [htake, fatPath_append] at hw
  obtain ⟨u, hu, hround⟩ := hw
  have hcons : (l.take j).drop i = l.get i :: (l.take j).drop (i + 1) := by
    have hlt : (i : ℕ) < (l.take j).length := by
      rw [List.length_take]
      omega
    rw [List.drop_eq_getElem_cons hlt, List.getElem_take, List.get_eq_getElem]
  obtain rfl : l.get i = u := by
    rw [hcons] at hround
    exact hround.head_eq
  have hnone : dirEntries disk info ((l.take j).drop i) = [] := by
    have hadd := congrArg List.length (dirEntries_append disk info (l.take i) ((l.take j).drop i))
    rw [← htake, List.length_append] at hadd
    exact List.length_eq_zero_iff.mp (by omega)
  have hpre : Passed (Ends disk info) (dirEntries disk info (l.take i)) := by
    have hparts : dirEntries disk info l =
        dirEntries disk info (l.take i) ++ dirEntries disk info (l.drop i) := by
      rw [← dirEntries_append, List.take_append_drop]
    rw [hparts] at hpassed
    obtain ⟨hcap, heach, -⟩ := passed_append.mp hpassed
    exact ⟨by omega, heach⟩
  refine hchain ⟨l.take i, l.get i, (l.take j).drop i, hu, hpre, ?_, by simp [hcons], hnone⟩
  rwa [← hnum] at hround

theorem entryCluster_lt (buf : Mem) (i : ℕ) : entryCluster buf i < 2 ^ 32 := by
  have hhigh := load_lt buf (32 * i + 20) 2
  have hlow := load_lt buf (32 * i + 26) 2
  unfold entryCluster
  rw [Nat.shiftLeft_eq]
  exact Nat.or_lt_two_pow (by omega) (by omega)

theorem EntryMet.cluster_lt {E : DirEntry → Prop} {d : ℕ} {e : DirEntry}
    (h : EntryMet E disk info d e) : e.cluster < 2 ^ 32 := by
  obtain ⟨l, v, es, rest, -, -, heq, -⟩ := h
  have hmem : e ∈ blockEntries (disk (clusterBlock info v)) := by simp [heq]
  obtain ⟨i, -, hi⟩ := List.mem_filterMap.mp hmem
  unfold parseEntry at hi
  split at hi
  · cases hi
  · cases hi
    exact entryCluster_lt _ i

/-- A call ends if the chain does not come back and the calls for the subdirectories end. -/
theorem endsWithin_of_subdirs {c : ℕ} (hchain : ¬ ChainLoops disk info c)
    (hsub : ∀ d, SubDir disk info c d → ∃ n, EndsWithin disk info d n) :
    ∃ n, EndsWithin disk info c n := by
  obtain ⟨n, hn⟩ : ∃ n, ∀ fuel, n ≤ fuel → ∀ d ∈ List.range (2 ^ 32), SubDir disk info c d →
      ∀ inode : Fat32Inode, inode.cluster = d → setupFat32 disk info fuel inode ≠ .error .looping := by
    refine exists_bound fun d _ => ?_
    by_cases hd : SubDir disk info c d
    · obtain ⟨n, hn⟩ := hsub d hd
      exact ⟨n, fun fuel hfuel _ => hn fuel hfuel⟩
    · exact ⟨0, fun _ _ h => absurd h hd⟩
  refine ⟨max n (max (c + 1) (2 ^ 32) * (maxDirNum + 1)) + 1, fun fuel hfuel inode hc hloop => ?_⟩
  obtain ⟨fuel, rfl⟩ : ∃ k, fuel = k + 1 := ⟨fuel - 1, by omega⟩
  subst hc
  rw [setupFat32] at hloop
  cases hst : setupLoop (setupFat32 disk info fuel) disk info (fuel + 1) inode.cluster
      (readFatEntry disk info inode.cluster) (inode.data, []) with
  | ok st =>
    rw [hst] at hloop
    cases hloop
  | error stop =>
    rw [hst] at hloop
    obtain rfl : stop = .looping := Except.error.inj hloop
    rcases setupLoop_error (.start inode.cluster) ⟨by simp [dirEntries], by simp [dirEntries]⟩ rfl hst with
      ⟨-, l, v, hl, hlen, hpassed⟩ | ⟨e, hmet, hmake⟩ | ⟨hstop, -⟩
    · have hle := path_length_le hchain hl (hpassed.mono fun e _ => ends_of_made e)
      rw [List.length_nil, zero_add] at hlen
      omega
    · unfold makeChild at hmake
      split_ifs at hmake with htype
      exact hn fuel (by omega) e.cluster (List.mem_range.mpr hmet.cluster_lt)
        ⟨e, hmet.mono ends_of_made, htype, rfl⟩ (childInode disk info e) rfl hmake
    · cases hstop

/-- A walk in which no directory leads in a circle ends. -/
theorem endsWithin_of_acyclic {c : ℕ} (h : ∀ d, ReflTransGen (SubDir disk info) c d →
    ¬ ChainLoops disk info d ∧ ¬ TransGen (SubDir disk info) d d) : ∃ n, EndsWithin disk info c n := by
  -- finitely many directories are met, and none is below itself
  have hfinite : {d | ReflTransGen (SubDir disk info) c d}.Finite := by
    refine (Set.finite_Iic (max c (2 ^ 32))).subset fun d hd => ?_
    rcases ReflTransGen.cases_tail hd with rfl | ⟨x, -, e, hmet, -, rfl⟩
    · exact Set.mem_Iic.mpr (le_max_left _ _)
    · exact Set.mem_Iic.mpr (le_max_of_le_right hmet.cluster_lt.le)
  let below : {d | ReflTransGen (SubDir disk info) c d} → {d | ReflTransGen (SubDir disk info) c d} →
      Prop := fun b a => TransGen (SubDir disk info) a.1 b.1
  have := hfinite.to_subtype
  have : IsTrans _ below := ⟨fun _ _ _ hba hcb => hcb.trans hba⟩
  have : Std.Irrefl below := ⟨fun a ha => (h a.1 a.2).2 ha⟩
  have hwf : WellFounded below := Finite.wellFounded_of_trans_of_irrefl below
  refine hwf.induction (C := fun d => ∃ n, EndsWithin disk info d.1 n) ⟨c, .refl⟩ ?_
  rintro ⟨d, hd⟩ ih
  exact endsWithin_of_subdirs (h d hd).1 fun x hx => ih ⟨x, hd.tail hx⟩ (.single hx)

/-! ## When mounting ends -/

/-- A path is the beginning of the chain, if that ends. -/
theorem FatPath.prefix_chain {c v : ℕ} {l chain : List ℕ} (h : FatPath disk info c l v)
    (hchain : FatChain disk info c chain) : ∃ m, chain = l ++ m ∧ FatChain disk info v m := by
  induction h generalizing chain with
  | start c => exact ⟨chain, rfl, hchain⟩
  | link hvalid _ ih =>
    cases hchain with
    | stop hnot => exact absurd hvalid hnot
    | link _ hchain =>
      obtain ⟨m, rfl, hm⟩ := ih hchain
      exact ⟨m, rfl, hm⟩

/-- The entries of a cluster that the path comes to are among those of the directory. -/
theorem FatPath.sublist_entries {c v : ℕ} {l chain : List ℕ} (h : FatPath disk info c l v)
    (hv : IsFatEntryValid v) (hchain : FatChain disk info c chain) :
    ∃ es, dirEntries disk info chain =
      dirEntries disk info l ++ (blockEntries (disk (clusterBlock info v)) ++ es) := by
  obtain ⟨m, rfl, hm⟩ := h.prefix_chain hchain
  cases hm with
  | stop hnot => exact absurd hv hnot
  | link _ hm => exact ⟨_, by rw [dirEntries_append, dirEntries_cons]⟩

theorem WalkEnds.subDir {c d : ℕ} (h : WalkEnds disk info c) (hd : SubDir disk info c d) :
    WalkEnds disk info d := by
  obtain ⟨e, ⟨l, v, es, rest, hl, hvalid, heq, -, -⟩, htype, rfl⟩ := hd
  obtain ⟨hchain, -, hsub⟩ := h
  obtain ⟨es', hes'⟩ := hl.sublist_entries hvalid hchain
  exact hsub e (by simp [hes', heq]) htype

theorem WalkEnds.not_crowded {c : ℕ} (h : WalkEnds disk info c) :
    ¬ Crowded (Ends disk info) disk info c := by
  rintro ⟨l, v, es, e, rest, hl, hvalid, heq, -, hfull⟩
  obtain ⟨hchain, hlen, -⟩ := h
  obtain ⟨es', hes'⟩ := hl.sublist_entries hvalid hchain
  rw [hes', heq] at hlen
  simp only [List.length_append, List.length_cons] at hlen hfull
  omega

/-- A call that stops has come to a directory with a seventeenth entry. -/
theorem crowded_of_stop {fuel : ℕ} {inode : Fat32Inode} {stop : Stop}
    (h : setupFat32 disk info fuel inode = .error stop) (hstop : stop ≠ .looping) :
    ∃ d, ReflTransGen (SubDir disk info) inode.cluster d ∧ Crowded (Ends disk info) disk info d := by
  induction fuel generalizing inode with
  | zero =>
    cases h
    exact absurd rfl hstop
  | succ fuel ih =>
    rw [setupFat32] at h
    cases hst : setupLoop (setupFat32 disk info fuel) disk info (fuel + 1) inode.cluster
        (readFatEntry disk info inode.cluster) (inode.data, []) with
    | ok st =>
      rw [hst] at h
      cases h
    | error stop' =>
      rw [hst] at h
      obtain rfl : stop' = stop := Except.error.inj h
      rcases setupLoop_error (.start inode.cluster) ⟨by simp [dirEntries], by simp [dirEntries]⟩ rfl hst
        with ⟨hloop, -⟩ | ⟨e, hmet, hmake⟩ | ⟨-, l, v, es, e, rest, hl, hv, heq, hpassed, hfull⟩
      · exact absurd hloop hstop
      · unfold makeChild at hmake
        split_ifs at hmake with htype
        obtain ⟨d, hreach, hd⟩ := ih hmake
        exact ⟨d, .head ⟨e, hmet.mono ends_of_made, htype, rfl⟩ hreach, hd⟩
      · exact ⟨inode.cluster, .refl, l, v, es, e, rest, hl, hv, heq,
          hpassed.mono fun e _ => ends_of_made e, hfull⟩

theorem ChainLoops.circle {d : ℕ} (h : ChainLoops disk info d) : ChainCircle disk info d := by
  obtain ⟨l, v, m, hl, -, hm, hne, -⟩ := h
  exact ⟨l, v, m, hl, hm, hne⟩

/-- A chain that ends does not come back. -/
theorem FatChain.not_circle {c : ℕ} {chain : List ℕ} (h : FatChain disk info c chain) :
    ¬ ChainCircle disk info c := by
  rintro ⟨l, v, m, hl, hm, hne⟩
  have htwice : FatPath disk info c (l ++ (m ++ m)) v :=
    fatPath_append.mpr ⟨v, hl, fatPath_append.mpr ⟨v, hm, hm⟩⟩
  obtain ⟨rest, rfl, -⟩ := htwice.prefix_chain h
  obtain ⟨x, hx⟩ := List.exists_mem_of_ne_nil m hne
  have hnodup := (List.nodup_append.mp (List.nodup_append.mp h.nodup).1).2.1
  exact (List.nodup_append.mp hnodup).2.2 x hx x hx rfl

/-- A walk that comes to a circle uses up every bound. -/
theorem looping_of_circle {inode : Fat32Inode} {d : ℕ}
    (hreach : ReflTransGen (SubDir disk info) inode.cluster d)
    (hd : ChainLoops disk info d ∨ TransGen (SubDir disk info) d d) (fuel : ℕ) :
    setupFat32 disk info fuel inode = .error .looping := by
  -- every directory on the way to `d` leads to another one of them
  refine setupFat32_looping (S := fun x => ReflTransGen (SubDir disk info) x d) ?_ fuel inode hreach
  intro x hx
  rcases ReflTransGen.cases_head hx with rfl | ⟨y, hxy, hy⟩
  · rcases hd with hchain | hcycle
    · exact Or.inl hchain
    · obtain ⟨y, hxy, hy⟩ := TransGen.head'_iff.mp hcycle
      exact Or.inr ⟨y, hy, hxy⟩
  · exact Or.inr ⟨y, hy, hxy⟩

/-- A call that comes back with one bound does not use up another one. -/
theorem not_looping_of_ok {fuel : ℕ} {inode : Fat32Inode} {v : Vnode}
    (h : setupFat32 disk info fuel inode = .ok v) : setupFat32 disk info fuel inode ≠ .error .looping := by
  rw [h]
  simp

theorem walkEnds_of_reach {c d : ℕ} (h : WalkEnds disk info c)
    (hreach : ReflTransGen (SubDir disk info) c d) : WalkEnds disk info d := by
  induction hreach with
  | refl => exact h
  | tail _ hd ih => exact ih.subDir hd

/-- `setup_fat32` comes back without a write behind `childs[]` exactly if no directory that it is called
    for has a chain that comes back, is its own subdirectory or has a seventeenth entry. It runs forever
    without such a write exactly if it is called for a directory that is its own subdirectory, or whose
    chain comes back through clusters without entries. -/
theorem setupFat32_ends_iff (disk : Disk) (info : Fat32Info) (inode : Fat32Inode) :
    ((∃ fuel v, setupFat32 disk info fuel inode = .ok v) ↔
      ∀ d, ReflTransGen (SubDir disk info) inode.cluster d →
        ¬ ChainCircle disk info d ∧ ¬ TransGen (SubDir disk info) d d ∧
          ¬ Crowded (Ends disk info) disk info d) ∧
    ((∀ fuel, setupFat32 disk info fuel inode = .error .looping) ↔
      ∃ d, ReflTransGen (SubDir disk info) inode.cluster d ∧
        (ChainLoops disk info d ∨ TransGen (SubDir disk info) d d)) := by
  refine ⟨⟨?_, ?_⟩, ⟨?_, ?_⟩⟩
  · rintro ⟨fuel, v, hv⟩ d hreach
    have hwalk := walkEnds_of_reach (walkEnds_of_ok hv) hreach
    refine ⟨?_, fun hcycle => ?_, hwalk.not_crowded⟩
    · obtain ⟨hchain, -, -⟩ := hwalk
      exact hchain.not_circle
    · exact not_looping_of_ok hv (looping_of_circle hreach (Or.inr hcycle) fuel)
  · intro h
    obtain ⟨n, hn⟩ := endsWithin_of_acyclic fun d hd =>
      ⟨fun hchain => (h d hd).1 hchain.circle, (h d hd).2.1⟩
    cases hres : setupFat32 disk info n inode with
    | ok v => exact ⟨n, v, hres⟩
    | error stop =>
      have hstop : stop ≠ .looping := fun hloop => hn n le_rfl inode rfl (hloop ▸ hres)
      obtain ⟨d, hreach, hcrowded⟩ := crowded_of_stop hres hstop
      exact absurd hcrowded (h d hreach).2.2
  · intro h
    by_contra hnone
    push Not at hnone
    obtain ⟨n, hn⟩ := endsWithin_of_acyclic hnone
    exact hn n le_rfl inode rfl (h n)
  · rintro ⟨d, hreach, hd⟩ fuel
    exact looping_of_circle hreach hd fuel

/-- A card on which the chain of the root directory ends with a cluster that is followed by itself. -/
def loopImage : Disk := smallImage fun c => if c = 2 ∨ c = 3 then 3 else if c < 2 then 0x0fffffff else 0

/-- A card with a subdirectory of the root directory in the cluster of the root directory. -/
def ancestorImage : Disk := fun b i =>
  if b = 4 ∧ i = 11 then 0x10 else if b = 4 ∧ i = 26 then 2 else smallImage (usedBelow 4) b i

/-- On neither card does mounting end: it comes to `setup_fat32` on the root directory, which uses up
    every bound. -/
theorem mount_endless :
    (getFat32BootSector loopImage = .ok (smallInfo, 2) ∧
      ∀ n, ¬ ∀ fuel, n ≤ fuel → setupFat32 loopImage smallInfo fuel
        (rootInode loopImage smallInfo 2) ≠ .error .looping) ∧
    (getFat32BootSector ancestorImage = .ok (smallInfo, 2) ∧
      ∀ n, ¬ ∀ fuel, n ≤ fuel → setupFat32 ancestorImage smallInfo fuel
        (rootInode ancestorImage smallInfo 2) ≠ .error .looping) := by
  have hloop : ChainLoops loopImage smallInfo 2 := by
    have hentries : (dirEntries loopImage smallInfo [2]).length ≤ maxDirNum ∧
        ∀ e ∈ dirEntries loopImage smallInfo [2], e.type ≠ .dir := by decide +kernel
    have hnext : readFatEntry loopImage smallInfo 2 = 3 := by decide +kernel
    have hself : readFatEntry loopImage smallInfo 3 = 3 := by decide +kernel
    refine ⟨[2], 3, [3], .link (by decide) (hnext ▸ .start _),
      ⟨hentries.1, fun e he htype => absurd htype (hentries.2 e he)⟩,
      .link (by decide) (hself ▸ .start _), by decide, by decide +kernel⟩
  have hself : SubDir ancestorImage smallInfo 2 2 :=
    ⟨⟨.dir, [0x41], 2, 5⟩, ⟨[], 2, [], [], .start 2, by decide, by decide +kernel,
      ⟨by decide, by simp [dirEntries]⟩, by decide⟩, rfl, rfl⟩
  refine ⟨⟨by decide +kernel, fun n hn => hn n le_rfl ?_⟩, by decide +kernel, fun n hn => hn n le_rfl ?_⟩
  · exact setupFat32_looping (S := fun c => c = 2) (fun c hc => Or.inl (hc ▸ hloop)) n _ rfl
  · exact setupFat32_looping (S := fun c => c = 2) (fun c hc => Or.inr ⟨2, rfl, hc ▸ hself⟩) n _ rfl

end RaspiKernel.Fs
