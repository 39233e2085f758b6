import RaspiKernel.Mm.BuddyRun

/-!
# A run that returns its blocks leaves nothing behind

The free lists hold the maximal aligned runs of free pages
(`RunInv.mem_freeList_iff_maximal`), so they are a function of the set of live
blocks: `RunInv.sameFree`. What a caller does in between, in which order it
frees and where the blocks were split, does not show.

A caller that starts with no block of its own is `σ.fresh`: its record of live
blocks is empty, and the blocks of older callers are not in it, so the caller
cannot free them. `exec_frame` says that this is a run of the whole system.

Results:
* `RunInv.sameFree`: equal sets of live blocks, equal free lists.
* `fresh_run_restores`: a caller that returns all it took leaves the free lists
  and the counters it found.
-/

namespace RaspiKernel.Mm

open Lib
open Memblock (Region)

/-! ## The blocks of older callers -/

/-- The system as a new caller sees it: it holds no block. -/
def System.fresh (σ : System) : System := { σ with live := [] }

/-- The same system with the blocks of older callers in the record. -/
def System.frame (σ : System) (old : List Block) : System := { σ with live := σ.live ++ old }

/-- A call that names a live block, if it frees. -/
def Op.Within (σ : System) : Op → Prop
  | .alloc _ => True
  | .free i => i < σ.live.length

/-- A `free` that names no live block is not a call. -/
theorem exec_of_not_within {σ : System} {op : Op} (h : ¬ op.Within σ) : σ.exec op = .ok σ := by
  cases op with
  | alloc order => exact absurd trivial h
  | free i =>
    have hnone : σ.live[i]? = none := List.getElem?_eq_none (Nat.le_of_not_lt h)
    simp only [System.exec, hnone]

/-- Older blocks in the record change nothing for the caller. -/
theorem exec_frame {σ σ' : System} {op : Op} (old : List Block) (h : op.Within σ)
    (hrun : (σ.frame old).exec op = .ok σ') :
    ∃ τ, σ.exec op = .ok τ ∧ τ.frame old = σ' := by
  cases op with
  | alloc order =>
    simp only [System.exec, System.frame] at hrun ⊢
    obtain ⟨⟨page, mm⟩, halloc, hrest⟩ := bind_eq_ok.mp hrun
    rw [halloc]
    cases page with
    | none =>
      obtain rfl := Except.ok.inj hrest
      exact ⟨_, rfl, rfl⟩
    | some page =>
      obtain rfl := Except.ok.inj hrest
      exact ⟨_, rfl, rfl⟩
  | free i =>
    have hi : i < σ.live.length := h
    have hb : σ.live[i]? = some σ.live[i] := List.getElem?_eq_getElem hi
    have hb' : (σ.live ++ old)[i]? = some σ.live[i] := by rw [List.getElem?_append_left hi, hb]
    simp only [System.exec, System.frame, hb, hb'] at hrun ⊢
    obtain ⟨mm, hfree, hrest⟩ := bind_eq_ok.mp hrun
    obtain rfl := Except.ok.inj hrest
    refine ⟨⟨mm, σ.live.eraseIdx i⟩, by rw [hfree]; rfl, ?_⟩
    rw [List.eraseIdx_append_of_lt_length hi]

/-! ## The free lists follow from the live blocks -/

/-- The same free blocks and the same counters; the order inside a free list may differ. -/
def SameFreeLists (s s' : MmState) : Prop :=
  ∀ k < maxOrder, (s.freeArea k).freeList.Perm (s'.freeArea k).freeList ∧
    (s.freeArea k).nrFree = (s'.freeArea k).nrFree

section Residue

variable {n : ℕ} {rgns : List Region} {σ σ' : System} {tile tile' : Tiles}

theorem freeRun_congr (hlive : ∀ b, b ∈ σ.live ↔ b ∈ σ'.live) (b : Block) :
    σ.FreeRun n rgns b ↔ σ'.FreeRun n rgns b := by
  simp only [System.FreeRun, System.FreePage, hlive]

/-- Two states of the allocator with the same live blocks have the same free lists. -/
theorem RunInv.sameFree (h : RunInv n rgns [] σ tile) (h' : RunInv n rgns [] σ' tile')
    (hlive : ∀ b, b ∈ σ.live ↔ b ∈ σ'.live) : SameFreeLists σ.mm σ'.mm := by
  intro k hk
  have hmem : ∀ p, p ∈ (σ.mm.freeArea k).freeList ↔ p ∈ (σ'.mm.freeArea k).freeList := by
    intro p
    rw [h.mem_freeList_iff_maximal hk, h'.mem_freeList_iff_maximal hk]
    simp only [freeRun_congr hlive]
  have hperm := (List.perm_ext_iff_of_nodup (h.inv.nodup k hk) (h'.inv.nodup k hk)).mpr hmem
  refine ⟨hperm, ?_⟩
  rw [h.inv.count k hk, h'.inv.count k hk, hperm.length_eq]

/-- A call of a caller that does not know the blocks in `old` keeps the invariant of the whole
    system. -/
theorem exec_frame_ok {old : List Block} (h : RunInv n rgns [] (σ.frame old) tile) (op : Op) :
    ∃ τ, σ.exec op = .ok τ ∧ ∃ tile', RunInv n rgns [] (τ.frame old) tile' := by
  by_cases hw : op.Within σ
  · obtain ⟨σ', tile', hrun, h', -⟩ := exec_ok h op
    obtain ⟨τ, hτ, rfl⟩ := exec_frame old hw hrun
    exact ⟨τ, hτ, tile', h'⟩
  · exact ⟨σ, exec_of_not_within hw, tile, h⟩

theorem run_frame_ok {old : List Block} (h : RunInv n rgns [] (σ.frame old) tile)
    (ops : List Op) :
    ∃ τ, σ.run ops = .ok τ ∧ ∃ tile', RunInv n rgns [] (τ.frame old) tile' := by
  have hstep : ∀ op ∈ ops, ∀ σ, (∃ tile, RunInv n rgns [] (System.frame σ old) tile) →
      ∃ τ, σ.exec op = .ok τ ∧ ∃ tile', RunInv n rgns [] (τ.frame old) tile' := by
    rintro op - σ ⟨tile, h⟩
    exact exec_frame_ok h op
  exact foldlM_ok hstep σ ⟨tile, h⟩

end Residue

/-- **No fragmentation residue.** From every state of a run, every sequence of calls that frees only
    blocks it allocated itself comes back, and if it holds no block at the end, it has restored the
    free blocks and the counters. -/
theorem fresh_run_restores (nrPages : ℕ) (hn : 512 ∣ nrPages) (rgns : List Region)
    (before ops : List Op) :
    ∃ σ₀ σ τ, System.boot rgns nrPages = .ok σ₀ ∧ σ₀.run before = .ok σ ∧
      σ.fresh.run ops = .ok τ ∧ (τ.live = [] → SameFreeLists τ.mm σ.mm) := by
  obtain ⟨σ₀, σ, tile, hboot, hrun, h⟩ := boot_run_ok hn rgns before
  have hfresh : RunInv nrPages rgns [] (σ.fresh.frame σ.live) tile := h
  obtain ⟨τ, hτ, tile', h'⟩ := run_frame_ok hfresh ops
  refine ⟨σ₀, σ, τ, hboot, hrun, hτ, fun hempty => h'.sameFree h ?_⟩
  intro b
  rw [System.frame, hempty, List.nil_append]

/-- Three blocks are split off and returned in another order. -/
theorem fresh_run_restores_512 : ∃ σ₀ σ τ, System.boot [⟨0, 0x80000⟩] 512 = .ok σ₀ ∧
    σ₀.run [.alloc 3, .alloc 0, .free 1] = .ok σ ∧
    σ.fresh.run [.alloc 1, .alloc 0, .free 1, .alloc 4, .free 1, .free 0] = .ok τ ∧
    (τ.live = [] → SameFreeLists τ.mm σ.mm) :=
  fresh_run_restores 512 (by decide) [⟨0, 0x80000⟩] [.alloc 3, .alloc 0, .free 1]
    [.alloc 1, .alloc 0, .free 1, .alloc 4, .free 1, .free 0]

end RaspiKernel.Mm
