import RaspiKernel.Fs.Mount

/-!
# New directory entries

`fat32_new_dir_entry` fills the first slot with attribute 0 on the chain of a
directory, and leaves the disk as it is when there is none.

Results:
* `newDirEntry_firstSlot`, `newDirEntry_ok`: what `fat32_new_dir_entry` does.
* `newDirEntry_chain`: it comes back on a chain that ends.
-/

namespace RaspiKernel.Fs

open Lib

variable {disk disk' : Disk} {info : Fat32Info} {entry : Mem}

/-- Slot `i` of cluster `x` is the first one with attribute 0 on the walk that starts with `cur`. -/
inductive FirstSlot (disk : Disk) (info : Fat32Info) : ℕ → ℕ → ℕ → Prop
  | here {cur i : ℕ} (hvalid : IsFatEntryValid cur)
      (hi : ((List.range slotsPerBlock).find? fun i =>
        entryAttr (disk (clusterBlock info cur)) i = 0) = some i) : FirstSlot disk info cur cur i
  | next {cur x i : ℕ} (hvalid : IsFatEntryValid cur)
      (hnone : ((List.range slotsPerBlock).find? fun i =>
        entryAttr (disk (clusterBlock info cur)) i = 0) = none)
      (hrest : FirstSlot disk info (readFatEntry disk info cur) x i) : FirstSlot disk info cur x i

theorem FirstSlot.valid {cur x i : ℕ} (h : FirstSlot disk info cur x i) : IsFatEntryValid cur := by
  cases h with
  | here hvalid _ => exact hvalid
  | next hvalid _ _ => exact hvalid

theorem FirstSlot.unique {cur x i y j : ℕ} (h : FirstSlot disk info cur x i)
    (h' : FirstSlot disk info cur y j) : x = y ∧ i = j := by
  induction h with
  | here _ hi =>
    cases h' with
    | here _ hj => exact ⟨rfl, Option.some.inj (hi.symm.trans hj)⟩
    | next _ hnone _ => rw [hi] at hnone; cases hnone
  | next _ hnone _ ih =>
    cases h' with
    | here _ hj => rw [hnone] at hj; cases hj
    | next _ _ hrest => exact ih hrest

/-- A slot with attribute 0 on the chain of a directory is the first one or comes behind it. -/
theorem FatChain.exists_firstSlot {cur x i : ℕ} {l : List ℕ} (hl : FatChain disk info cur l)
    (hx : x ∈ l) (hi : i < slotsPerBlock) (hattr : entryAttr (disk (clusterBlock info x)) i = 0) :
    ∃ y j, FirstSlot disk info cur y j := by
  induction hl with
  | stop => cases hx
  | @link cur l hvalid hl ih =>
    cases hfind : ((List.range slotsPerBlock).find? fun i =>
        entryAttr (disk (clusterBlock info cur)) i = 0) with
    | some j => exact ⟨cur, j, .here hvalid hfind⟩
    | none =>
      rcases List.mem_cons.mp hx with rfl | hx
      · have := List.find?_eq_none.mp hfind i (List.mem_range.mpr hi)
        exact absurd (decide_eq_true hattr) this
      · obtain ⟨y, j, hslot⟩ := ih hx
        exact ⟨y, j, .next hvalid hfind hslot⟩

theorem FirstSlot.mem_chain {cur x i : ℕ} {l : List ℕ} (h : FirstSlot disk info cur x i)
    (hl : FatChain disk info cur l) : x ∈ l := by
  induction h generalizing l with
  | here hvalid _ =>
    cases hl with
    | stop hnot => exact absurd hvalid hnot
    | link _ _ => exact List.mem_cons_self
  | next hvalid _ _ ih =>
    cases hl with
    | stop hnot => exact absurd hvalid hnot
    | link _ hl => exact List.mem_cons_of_mem _ (ih hl)

/-- The disk with an entry in a slot. -/
def fillSlot (disk : Disk) (info : Fat32Info) (c i : ℕ) (entry : Mem) : Disk :=
  writeblock disk (clusterBlock info c) (copy (disk (clusterBlock info c)) (32 * i) entry 32)

/-- `fat32_new_dir_entry` fills the first slot. -/
theorem newDirEntry_firstSlot {cur x i : ℕ} (h : FirstSlot disk info cur x i) (entry : Mem) :
    ∃ n, ∀ fuel, n ≤ fuel →
      fat32NewDirEntry fuel disk info cur entry = .ok (fillSlot disk info x i entry) := by
  unfold fat32NewDirEntry
  induction h with
  | here hvalid hi =>
    refine ⟨1, fun fuel hfuel => ?_⟩
    obtain ⟨fuel, rfl⟩ : ∃ m, fuel = m + 1 := ⟨fuel - 1, by omega⟩
    rw [newDirEntryLoop, if_pos hvalid]
    dsimp only
    rw [hi]
    rfl
  | next hvalid hnone _ ih =>
    obtain ⟨n, hn⟩ := ih
    refine ⟨n + 1, fun fuel hfuel => ?_⟩
    obtain ⟨fuel, rfl⟩ : ∃ m, fuel = m + 1 := ⟨fuel - 1, by omega⟩
    rw [newDirEntryLoop, if_pos hvalid]
    dsimp only
    rw [hnone]
    exact hn fuel (by omega)

/-- A call that comes back filled the first slot, or found none and left the disk as it was. -/
theorem newDirEntry_ok {fuel cur : ℕ} (h : fat32NewDirEntry fuel disk info cur entry = .ok disk') :
    (∃ x i, FirstSlot disk info cur x i ∧ disk' = fillSlot disk info x i entry) ∨
      (disk' = disk ∧ ∀ x i, ¬ FirstSlot disk info cur x i) := by
  unfold fat32NewDirEntry at h
  induction fuel generalizing cur with
  | zero => cases h
  | succ fuel ih =>
    rw [newDirEntryLoop] at h
    split at h
    next hvalid =>
      dsimp only at h
      split at h
      next i hi =>
        cases h
        exact Or.inl ⟨cur, i, .here hvalid hi, rfl⟩
      next hnone =>
        rcases ih h with ⟨x, i, hslot, heq⟩ | ⟨heq, hno⟩
        · exact Or.inl ⟨x, i, .next hvalid hnone hslot, heq⟩
        · refine Or.inr ⟨heq, fun x i hslot => ?_⟩
          cases hslot with
          | here _ hi => rw [hnone] at hi; cases hi
          | next _ _ hrest => exact hno x i hrest
    next hvalid =>
      cases h
      exact Or.inr ⟨rfl, fun x i hslot => hvalid hslot.valid⟩

/-- On a chain that ends the call comes back. -/
theorem newDirEntry_chain {cur : ℕ} {l : List ℕ} (hl : FatChain disk info cur l) (entry : Mem)
    {fuel : ℕ} (hfuel : l.length < fuel) :
    ∃ disk', fat32NewDirEntry fuel disk info cur entry = .ok disk' := by
  unfold fat32NewDirEntry
  induction hl generalizing fuel with
  | stop hvalid =>
    obtain ⟨fuel, rfl⟩ : ∃ m, fuel = m + 1 := ⟨fuel - 1, by omega⟩
    exact ⟨disk, by rw [newDirEntryLoop, if_neg hvalid]⟩
  | @link cur l hvalid hl ih =>
    rw [List.length_cons] at hfuel
    obtain ⟨fuel, rfl⟩ : ∃ m, fuel = m + 1 := ⟨fuel - 1, by omega⟩
    rw [newDirEntryLoop, if_pos hvalid]
    dsimp only
    split
    · exact ⟨_, rfl⟩
    · exact ih (by omega)

end RaspiKernel.Fs
