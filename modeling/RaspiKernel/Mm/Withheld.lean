import RaspiKernel.Mm.Leftover
import RaspiKernel.Mm.Limit

/-!
# Pages withheld at boot

`page_frame_init` marks the pages from `base >> 12` to `(base + size) >> 12`, the
last one included. When a region ends at a page boundary, that is the page behind
it. The page is withheld unless another region reaches into it.

Results:
* `mem_pfns_iff`: the pages that are marked for a region.
* `init_exact_iff`: exactly the pages that meet a region are reserved, and all
  others are on the free lists, if and only if no page behind a region is withheld.
-/

namespace RaspiKernel.Mm

open Lib
open Memblock (Region)

/-- Page `x` is the page behind a region that ends at a page boundary. -/
def Behind (x : ℕ) (rgn : Region) : Prop := x * 4096 = rgn.stop

/-- The loop over a region marks the pages it meets and the page behind it. -/
theorem mem_pfns_iff {rgn : Region} (hsize : 0 < rgn.size) (x : ℕ) :
    x ∈ pfns rgn ↔ Meets x rgn ∨ Behind x rgn := by
  have hmeets : Meets x rgn ↔ rgn.base < (x + 1) * 4096 ∧ x * 4096 < rgn.stop := by
    constructor
    · rintro ⟨a, ⟨hlow, hhigh⟩, rfl⟩
      omega
    · rintro ⟨hlow, hhigh⟩
      -- the first byte of the page or of the region
      refine ⟨max rgn.base (x * 4096), ⟨le_max_left _ _, ?_⟩, ?_⟩
      · unfold Span.stop at hhigh ⊢
        omega
      · omega
  rw [hmeets]
  simp only [pfns, List.mem_range'_1, Behind, Nat.shiftRight_eq_div_pow, Span.stop]
  omega

/-- Exactly the pages that meet a region are reserved, and every other page is in a free block. -/
structure ExactlyReserved (nrPages : ℕ) (rgns : List Region) (s : MmState) : Prop where
  reserved : ∀ x < nrPages, (s.memMap x).flags = PG_RESERVED ↔ ∃ rgn ∈ rgns, Meets x rgn
  free : ∀ x < nrPages, (s.memMap x).flags ≠ PG_RESERVED →
    ∃ k < maxOrder, ∃ p ∈ (s.freeArea k).freeList, x ∈ (⟨p, k⟩ : Block)

/-- A free page is in a block of a free list. -/
theorem BuddyInv.exists_free_block {n : ℕ} {s : MmState} {tile : Tiles} (h : BuddyInv n s tile)
    {x : ℕ} (hx : x < n) (hfree : (tile x).1 = .free) :
    ∃ k < maxOrder, ∃ p ∈ (s.freeArea k).freeList, x ∈ (⟨p, k⟩ : Block) := by
  have hk := h.order_lt x hx
  refine ⟨_, hk, _, (h.free_iff _ hk _).mpr ⟨h.tiling.start_lt hx, ?_⟩, h.tiling.mem x hx⟩
  rw [Tiles.Free, h.tiling.tile_start hx]
  exact Prod.ext hfree rfl

/-- After `buddy_init` a page that is not reserved is free. -/
theorem init_free {n : ℕ} {rgns : List Region} {s : MmState}
    (h : buddyInit (fun _ => Page.zero) rgns n = .ok s) {x : ℕ} (hx : x < n)
    (hr : ¬ Reserved rgns x) :
    ∃ k < maxOrder, ∃ p ∈ (s.freeArea k).freeList, x ∈ (⟨p, k⟩ : Block) := by
  obtain ⟨t, s', tile, hrun, -, hp, hinit⟩ := buddyInit_padded n rgns
  obtain rfl : t = s := Except.ok.inj (hrun.symm.trans h)
  have hxn : x < padPages n := hx.trans (lt_padPages n)
  have hr' : ¬ Reserved (padRegions n rgns) x := by
    rw [reserved_padRegions]
    rintro (hr' | ⟨hle, -⟩)
    · exact hr hr'
    · omega
  have hblock := hinit.inv.exists_free_block hxn (hinit.done x hxn hr' hxn)
  rwa [hp.freeArea] at hblock

theorem reserved_iff_meets {rgns : List Region} (hsize : ∀ rgn ∈ rgns, 0 < rgn.size) (x : ℕ) :
    Reserved rgns x ↔ (∃ rgn ∈ rgns, Meets x rgn) ∨ ∃ rgn ∈ rgns, Behind x rgn := by
  constructor
  · rintro ⟨rgn, hrgn, hx⟩
    rcases (mem_pfns_iff (hsize rgn hrgn) x).mp hx with hm | hb
    · exact Or.inl ⟨rgn, hrgn, hm⟩
    · exact Or.inr ⟨rgn, hrgn, hb⟩
  · rintro (⟨rgn, hrgn, hm⟩ | ⟨rgn, hrgn, hb⟩)
    · exact ⟨rgn, hrgn, (mem_pfns_iff (hsize rgn hrgn) x).mpr (Or.inl hm)⟩
    · exact ⟨rgn, hrgn, (mem_pfns_iff (hsize rgn hrgn) x).mpr (Or.inr hb)⟩

/-- **Pages withheld at boot.** For every memory limit and every list of non-empty regions,
    `buddy_init` comes back, and it reserves exactly the pages that meet a region (and frees all the
    others) if and only if every page of the array that lies right behind a region meets a region,
    too. -/
theorem init_exact_iff (limit : ℕ) (rgns : List Region) (hsize : ∀ rgn ∈ rgns, 0 < rgn.size) :
    ∃ s, buddyInit (fun _ => Page.zero) rgns (limit >>> 12) = .ok s ∧
      (ExactlyReserved (limit >>> 12) rgns s ↔
        ∀ rgn ∈ rgns, ∀ x < limit >>> 12, Behind x rgn → ∃ r ∈ rgns, Meets x r) := by
  obtain ⟨s, -, -, hrun, -⟩ := buddyInit_padded (limit >>> 12) rgns
  have hflags : ∀ x, (s.memMap x).flags = PG_RESERVED ↔ Reserved rgns x := by
    intro x
    rw [flags_reserved_iff hrun x]
    simp [Page.zero]
  refine ⟨s, hrun, fun h rgn hrgn x hx hb => ?_, fun h => ⟨fun x hx => ?_, fun x hx hne => ?_⟩⟩
  · refine (h.reserved x hx).mp ((hflags x).mpr ?_)
    exact (reserved_iff_meets hsize x).mpr (Or.inr ⟨rgn, hrgn, hb⟩)
  · rw [hflags, reserved_iff_meets hsize]
    refine or_iff_left_of_imp ?_
    rintro ⟨rgn, hrgn, hb⟩
    exact h rgn hrgn x hx hb
  · exact init_free hrun hx fun hr => hne ((hflags x).mpr hr)

/-- A region that ends inside a page, and one that is followed by another one. -/
theorem init_exact_512 : ∃ s,
    buddyInit (fun _ => Page.zero) [⟨0, 0x1000⟩, ⟨0x1800, 0x100⟩] (0x200000 >>> 12) = .ok s ∧
      (ExactlyReserved (0x200000 >>> 12) [⟨0, 0x1000⟩, ⟨0x1800, 0x100⟩] s ↔
        ∀ rgn ∈ [(⟨0, 0x1000⟩ : Region), ⟨0x1800, 0x100⟩], ∀ x < 0x200000 >>> 12, Behind x rgn →
          ∃ r ∈ [(⟨0, 0x1000⟩ : Region), ⟨0x1800, 0x100⟩], Meets x r) :=
  init_exact_iff 0x200000 [⟨0, 0x1000⟩, ⟨0x1800, 0x100⟩] (by decide)

/-- With 2 MiB of memory whose first 512 KiB are reserved, page 128 is reserved, too. -/
theorem init_withholds_128 : ∃ s,
    buddyInit (fun _ => Page.zero) [⟨0, 0x80000⟩] (0x200000 >>> 12) = .ok s ∧
      (s.memMap 128).flags = PG_RESERVED ∧ ¬ Meets 128 ⟨0, 0x80000⟩ ∧
      ¬ ExactlyReserved (0x200000 >>> 12) [⟨0, 0x80000⟩] s := by
  obtain ⟨s, -, -, hrun, -⟩ := buddyInit_padded (0x200000 >>> 12) [⟨0, 0x80000⟩]
  have hflags : (s.memMap 128).flags = PG_RESERVED :=
    (flags_reserved_iff hrun 128).mpr (Or.inl (by decide))
  have hno : ¬ Meets 128 ⟨0, 0x80000⟩ := by
    rintro ⟨a, ⟨-, ha⟩, hpage⟩
    simp only [Span.stop] at ha
    omega
  refine ⟨s, hrun, hflags, hno, fun h => ?_⟩
  obtain ⟨rgn, hrgn, hm⟩ := (h.reserved 128 (by decide)).mp hflags
  obtain rfl := List.mem_singleton.mp hrgn
  exact hno hm

end RaspiKernel.Mm
