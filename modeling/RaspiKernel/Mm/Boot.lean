import RaspiKernel.Memblock.Alloc
import RaspiKernel.Mm.BuddyRun

/-!
# Boot hand-off from memblock to the buddy system

`page_frame_init` takes `mem_map` from memblock, marks the pages of the reserved
regions and gives all the others to the buddy system. This module follows a
reserved byte from `memblock_reserve` to the runs of the buddy system.

Results:
* `handoff_protects`: no page that meets a reserved range is ever on a free list
  or in an allocated block, and neither are the pages of `mem_map` itself if
  address 0 is reserved.
* `handoff_address_zero`: they are on the free lists if it is not.
-/

namespace RaspiKernel.Mm

open Lib Lib.Span
open Memblock (Region Call kernelVaddrBase)

/-! ## The boot sequence -/

/-- `memblock_init` up to the reservations, with any sequence of `memblock_reserve` calls in their
    place. -/
def reservedMemblock (base size : ℕ) (calls : List (ℕ × ℕ)) (g g' : ℕ → Region) :
    Except Memblock.Stop Memblock.State := do
  let mb ← Memblock.addMemory (Memblock.State.start g g') base size
  Memblock.reserveAll mb calls

/-- `memblock_init` makes these calls: the kernel image first, then the initrd and the device
    tree. -/
theorem memblockInit_eq (base size kernelEnd : ℕ) (initrd fdt : Option (ℕ × ℕ))
    (g g' : ℕ → Region) :
    Memblock.memblockInit (Memblock.State.start g g') base size kernelEnd initrd fdt =
      reservedMemblock base size ((0, kernelEnd &&& 0xffffffff) :: (initrd.toList ++ fdt.toList))
        g g' := rfl

/-- `buddy_init` (lines 299–305) after memblock, over a zeroed `mem_map`: the address of `mem_map`,
    `nr_pages` and the system that starts there. -/
def System.bootFrom (fuel : ℕ) (stack : ℕ × ℕ) (mb : Memblock.State) :
    Except Stop (ℕ × ℕ × System) := do
  let (memMap, nrPages, _, mm) ← pageFrameInit fuel stack mb (fun _ => Page.zero)
    (buddyFreeAreaInit (MmState.boot fun _ => Page.zero))
  .ok (memMap, nrPages, { mm := mm, live := [] })

/-- The 4 KiB frame of page `x` meets the bytes of `s`. -/
def Meets (x : ℕ) (s : Span) : Prop := ∃ a ∈ s, a / 4096 = x

/-- No page that meets `s` is on a free list or in a live block. -/
def System.Protects (σ : System) (s : Span) : Prop := ∀ x, Meets x s → ∀ b ∈ σ.blocks, x ∉ b

/-- `page_frame_init` marks every page that meets a reserved region. -/
theorem reserved_of_meets {rgns : List Region} {a : ℕ} (h : Covers rgns a) :
    Reserved rgns (a / 4096) := by
  obtain ⟨rgn, hr, ha⟩ := h
  refine ⟨rgn, hr, ?_⟩
  simp only [mem_def, Span.stop] at ha
  simp only [pfns, Nat.shiftRight_eq_div_pow, List.mem_range'_1]
  omega

theorem Partition.protects {n : ℕ} {rgns : List Region} {σ : System} (h : Partition n rgns σ)
    {s : Span} (hs : ∀ a ∈ s, Covers rgns a) : σ.Protects s := by
  rintro x ⟨a, ha, rfl⟩ b hb hx
  exact h.unreserved b hb _ hx (reserved_of_meets (hs a ha))

/-! ## memblock before `page_frame_init` -/

/-- What `memblock_init` leaves for `page_frame_init`. -/
structure Booted (base size : ℕ) (calls : List (ℕ × ℕ)) (g' : ℕ → Region) (mb : Memblock.State) :
    Prop where
  limit : mb.currentLimit = base + size
  max : mb.physAddrMax = base + size
  memory : 0 < size → mb.memory.cnt = 1 ∧ mb.memory.regions 0 = ⟨base, size⟩
  inv : Memblock.TypeInv g' mb.reserved
  room : mb.reserved.max = 32
  covers : ∀ x, Covers mb.reserved.list x ↔ ∃ c ∈ calls, x ∈ (Call.reserve c.1 c.2).range

theorem reservedMemblock_spec {base size : ℕ} {calls : List (ℕ × ℕ)} {g g' : ℕ → Region}
    {mb : Memblock.State} (hlt : base + size < 2 ^ 32)
    (hbelow : ∀ c ∈ calls, (Call.reserve c.1 c.2).range.stop < base + size)
    (h : reservedMemblock base size calls g g' = .ok mb) : Booted base size calls g' mb := by
  obtain ⟨mb₀, hmem, hres⟩ := bind_eq_ok.mp h
  obtain ⟨type, htype, hmem⟩ := bind_eq_ok.mp hmem
  obtain rfl := Except.ok.inj hmem
  obtain ⟨hinv, heq, hmax, hcov⟩ := Memblock.reserveAll_spec calls
    (Memblock.typeInv_init (by norm_num) g') (fun c hc => by have := hbelow c hc; omega) hres
  have hlim : (base + size) % 2 ^ 32 = base + size := Nat.mod_eq_of_lt hlt
  refine ⟨?_, ?_, ?_, hinv, hmax, ?_⟩
  · rw [heq]; exact hlim
  · rw [heq]; exact hlim
  · intro hsize
    rw [heq]
    -- the first range takes the place of the dummy
    have : type = { Memblock.MemblockType.init 32 g with
        regions := Function.update (Memblock.MemblockType.init 32 g).regions 0 ⟨base, size⟩
        totalSize := size } := by
      simp only [Memblock.addRange, if_neg hsize.ne'] at htype
      exact (Except.ok.inj htype).symm
    rw [this]
    simp [Memblock.MemblockType.init]
  · intro x
    rw [hcov x, or_iff_right]
    rw [show (Memblock.State.start g g').reserved = Memblock.MemblockType.init 32 g' from rfl,
      Memblock.list_init (by norm_num) g']
    simp [mem_def, Span.stop]

/-- If memory is there and address 0 is reserved or not memory, `mem_map` is not at address 0. -/
theorem Booted.findInRange_pos {base size : ℕ} {calls : List (ℕ × ℕ)} {g' : ℕ → Region}
    {mb : Memblock.State} (h : Booted base size calls g' mb) (hlt : base + size < 2 ^ 32)
    (hbelow : ∀ c ∈ calls, (Call.reserve c.1 c.2).range.stop < base + size) (hsize : 0 < size)
    (h0 : 0 < base ∨ ∃ c ∈ calls, 0 ∈ (Call.reserve c.1 c.2).range) {fuel : ℕ} {stack : ℕ × ℕ}
    {bytes ret : ℕ}
    (hf : Memblock.findInRange fuel stack mb bytes 8 0 mb.physAddrMax = .ok ret) : 0 < ret := by
  obtain ⟨hcnt, hrgn⟩ := h.memory hsize
  have habove : Memblock.StartsAbove mb.reserved base := by
    rcases h0 with h0 | h0
    · exact Or.inl h0
    · exact Memblock.startsAbove_of_covers h.inv ((h.covers 0).mpr h0) base
  have hall : ∀ i < mb.memory.cnt, Memblock.StartsAbove mb.reserved (mb.memory.regions i).base := by
    intro i hi
    obtain rfl : i = 0 := by omega
    rw [hrgn]; exact habove
  have hmEnd : Memblock.u64 ((mb.memory.regions 0).base + (mb.memory.regions 0).size) =
      base + size := by
    rw [hrgn]; exact Memblock.u64_eq (lt_trans hlt (by norm_num))
  have hle := h.inv.cnt_le
  rw [h.room] at hle
  refine Memblock.findLoop_pos (by rw [h.max]; omega) (by rw [h.max]; omega) hall (by omega) fuel _
    (Memblock.iterOk_first (by omega) hall ?_ (by rw [hmEnd]; omega) ?_ _ rfl) hf
  · -- the last byte of a non-empty region was reserved, so it is below the limit
    intro i hi
    have hmem : mb.reserved.regions i ∈ mb.reserved.list :=
      List.mem_map_of_mem (List.mem_range.mpr hi)
    have hstop := Memblock.u64_eq (h.inv.fits _ hmem)
    rw [hmEnd]
    simp only [Span.stop] at hstop
    rw [hstop]
    rcases Nat.eq_zero_or_pos (mb.reserved.regions i).size with hz | hpos
    · have hb : (mb.reserved.regions i).base = 0 := by
        rcases h.inv.shape with hd | hn
        · rw [hd, List.mem_singleton] at hmem; rw [hmem]
        · exact absurd (hn.pos _ hmem) (by omega)
      omega
    · obtain ⟨c, hc, hx⟩ := (h.covers ((mb.reserved.regions i).stop - 1)).mp
        ⟨_, hmem, by simp only [mem_def, Span.stop]; omega⟩
      have := hbelow c hc
      simp only [mem_def, Span.stop] at hx this
      omega
  · rw [hrgn, h.max]; simp only; omega

/-! ## The hand-off -/

/-- Once memblock has handed out `mem_map`, the rest is `buddy_init` over the reserved regions. -/
theorem bootFrom_eq {fuel : ℕ} {stack : ℕ × ℕ} {mb mb' : Memblock.State} {p : ℕ} {σ : System}
    (halloc : Memblock.physAlloc fuel stack mb (sizeofPage * (mb.currentLimit >>> 12)) =
      .ok (p, mb'))
    (hboot : System.boot mb'.reserved.list (mb.currentLimit >>> 12) = .ok σ) :
    System.bootFrom fuel stack mb = .ok (p, mb.currentLimit >>> 12, σ) := by
  obtain ⟨mm, hmm, hσ⟩ := bind_eq_ok.mp hboot
  obtain rfl := Except.ok.inj hσ
  refine bind_eq_ok.mpr ⟨(p, mb.currentLimit >>> 12, mb', mm), ?_, rfl⟩
  refine bind_eq_ok.mpr ⟨(p, mb'), by rw [halloc]; rfl, ?_⟩
  exact bind_eq_ok.mpr ⟨mm, hmm, rfl⟩

/-- With room for `mem_map`, `buddy_init` and every later sequence of calls come back, and the pages
    that meet one of the reserved regions are in no block. -/
theorem boot_partition {base size : ℕ} {calls : List (ℕ × ℕ)} {g' : ℕ → Region}
    {mb mb' : Memblock.State} {fuel : ℕ} {stack : ℕ × ℕ} {p : ℕ} (hlimit : 2 ^ 21 ∣ base + size)
    (hb : Booted base size calls g' mb)
    (halloc : Memblock.physAlloc fuel stack mb (sizeofPage * (mb.currentLimit >>> 12)) =
      .ok (p, mb')) (ops : List Op) :
    ∃ σ₀ σ, System.bootFrom fuel stack mb = .ok (p, (base + size) / 4096, σ₀) ∧
      σ₀.run ops = .ok σ ∧ Partition ((base + size) / 4096) mb'.reserved.list σ := by
  have hnr : mb.currentLimit >>> 12 = (base + size) / 4096 := by
    rw [hb.limit, Nat.shiftRight_eq_div_pow]
  have hdvd : 512 ∣ (base + size) / 4096 := by
    obtain ⟨k, hk⟩ := hlimit
    exact ⟨k, by omega⟩
  obtain ⟨σ₀, σ, tile, hboot, hrun, hinv⟩ := boot_run_ok hdvd mb'.reserved.list ops
  refine ⟨σ₀, σ, ?_, hrun, hinv.partition⟩
  rw [← hnr] at hboot ⊢
  exact bootFrom_eq halloc hboot

/-- What was reserved stays reserved when `mem_map` is handed out. -/
theorem covers_physAlloc {base size : ℕ} {calls : List (ℕ × ℕ)} {g' : ℕ → Region}
    {mb mb' : Memblock.State} {fuel : ℕ} {stack : ℕ × ℕ} {p : ℕ} (hlt : base + size < 2 ^ 32)
    (hb : Booted base size calls g' mb)
    (halloc : Memblock.physAlloc fuel stack mb (sizeofPage * (mb.currentLimit >>> 12)) =
      .ok (p, mb')) {c : ℕ × ℕ} (hc : c ∈ calls) :
    ∀ a ∈ (Call.reserve c.1 c.2).range, Covers mb'.reserved.list a := by
  obtain ⟨⟨ret, mb₁⟩, hrange, hret⟩ := bind_eq_ok.mp halloc
  obtain ⟨rfl, rfl⟩ := Prod.mk.inj (Except.ok.inj hret)
  intro a ha
  have hold := (hb.covers a).mpr ⟨c, hc, ha⟩
  rcases Memblock.physAllocRange_spec hb.inv (by rw [hb.max]; exact hlt) hrange with
    ⟨-, rfl⟩ | ⟨-, -, -, -, hcov⟩
  · exact hold
  · exact (hcov a).mpr (Or.inl hold)

/-- **Boot hand-off.** For every memory limit that is a multiple of 2 MiB and every sequence of
    `memblock_reserve` calls that end below it, if memblock finds room for `mem_map` then
    `page_frame_init` and every later sequence of calls come back, and no page that meets a reserved
    range is ever on a free list or in an allocated block. The same holds for `mem_map` itself if
    address 0 is reserved, as `memblock_init` does for the kernel image, or is not memory. -/
theorem handoff_protects {base size : ℕ} {calls : List (ℕ × ℕ)} {g g' : ℕ → Region}
    {mb mb' : Memblock.State} {fuel : ℕ} {stack : ℕ × ℕ} {p : ℕ}
    (hlimit : 2 ^ 21 ∣ base + size) (hlt : base + size < 2 ^ 32) (hmem : base = 0 ∨ 0 < size)
    (hbelow : ∀ c ∈ calls, (Call.reserve c.1 c.2).range.stop < base + size)
    (hmb : reservedMemblock base size calls g g' = .ok mb)
    (halloc : Memblock.physAlloc fuel stack mb (sizeofPage * (mb.currentLimit >>> 12)) =
      .ok (p, mb')) (ops : List Op) :
    ∃ σ₀ σ, System.bootFrom fuel stack mb = .ok (p, (base + size) / 4096, σ₀) ∧
      σ₀.run ops = .ok σ ∧
      (∀ c ∈ calls, σ.Protects (Call.reserve c.1 c.2).range) ∧
      ((0 < base ∨ ∃ c ∈ calls, 0 ∈ (Call.reserve c.1 c.2).range) →
        σ.Protects ⟨Memblock.virtToPhys p, sizeofPage * ((base + size) / 4096)⟩) := by
  have hb := reservedMemblock_spec hlt hbelow hmb
  obtain ⟨σ₀, σ, hboot, hrun, hpart⟩ := boot_partition hlimit hb halloc ops
  refine ⟨σ₀, σ, hboot, hrun, fun c hc => hpart.protects (covers_physAlloc hlt hb halloc hc), ?_⟩
  intro h0
  obtain ⟨⟨ret, mb₁⟩, hrange, hret⟩ := bind_eq_ok.mp halloc
  obtain ⟨rfl, rfl⟩ := Prod.mk.inj (Except.ok.inj hret)
  have hspec := Memblock.physAllocRange_spec hb.inv (by rw [hb.max]; exact hlt) hrange
  have hnr : mb.currentLimit >>> 12 = (base + size) / 4096 := by
    rw [hb.limit, Nat.shiftRight_eq_div_pow]
  refine hpart.protects fun a ha => ?_
  simp only [mem_def, Span.stop] at ha
  have hsize : 0 < size := by
    rcases hmem with rfl | hsize
    · by_contra hz
      obtain rfl : size = 0 := by omega
      omega
    · exact hsize
  obtain ⟨r, hf, hr⟩ := bind_eq_ok.mp hrange
  have hpos : 0 < r := hb.findInRange_pos hlt hbelow hsize h0 hf
  rcases hspec with ⟨rfl, -⟩ | ⟨hret0, hle, -, -, hcov⟩
  · rw [if_pos hpos.ne'] at hr
    obtain ⟨mb₂, -, hr⟩ := bind_eq_ok.mp hr
    have := (Prod.mk.inj (Except.ok.inj hr)).1
    omega
  · refine (hcov a).mpr (Or.inr ?_)
    rw [hb.max] at hle
    rw [Memblock.virtToPhys_physToVirt (by omega)] at ha
    rw [hnr]
    simp only [Call.range, mem_def, Span.stop]
    omega

/-- The kernel image at address 0, an initrd with an odd size, and calls after boot. -/
theorem handoff_protects_kernel : ∃ mb p mb', reservedMemblock 0 0x400000
      [(0, 0x80123), (0x100000, 0x1fed)] (fun _ => ⟨0, 0⟩) (fun _ => ⟨0, 0⟩) = .ok mb ∧
    Memblock.physAlloc 5 (0, 0) mb (sizeofPage * (mb.currentLimit >>> 12)) = .ok (p, mb') ∧
    p = 0xffff000000080128 ∧
    ∃ σ₀ σ, System.bootFrom 5 (0, 0) mb = .ok (p, (0 + 0x400000) / 4096, σ₀) ∧
      σ₀.run [.alloc 3, .alloc 0, .free 1] = .ok σ ∧
      (∀ c ∈ [(0, 0x80123), (0x100000, 0x1fed)], σ.Protects (Call.reserve c.1 c.2).range) ∧
      ((0 < 0 ∨ ∃ c ∈ [(0, 0x80123), (0x100000, 0x1fed)], 0 ∈ (Call.reserve c.1 c.2).range) →
        σ.Protects ⟨Memblock.virtToPhys p, sizeofPage * ((0 + 0x400000) / 4096)⟩) := by
  have hmb : reservedMemblock 0 0x400000 [(0, 0x80123), (0x100000, 0x1fed)] (fun _ => ⟨0, 0⟩)
    (fun _ => ⟨0, 0⟩) = .ok _ := rfl
  exact ⟨_, _, _, hmb, rfl, rfl, handoff_protects (by decide) (by decide) (Or.inl rfl) (by decide) hmb
    rfl [.alloc 3, .alloc 0, .free 1]⟩

/-- With address 0 not reserved, memblock puts `mem_map` there and takes the address for a failure:
    its second page ends up on a free list. -/
theorem handoff_address_zero : ∃ mb p σ, reservedMemblock 0 0x200000 [(0x100000, 0x1000)]
      (fun _ => ⟨0, 0⟩) (fun _ => ⟨0, 0⟩) = .ok mb ∧
    System.bootFrom 1 (0, 0) mb = .ok (p, 512, σ) ∧
    Meets 1 ⟨Memblock.virtToPhys p, sizeofPage * 512⟩ ∧ ∃ b ∈ freeBlocks σ.mm, 1 ∈ b := by
  obtain ⟨σ, tile, hboot, hinv⟩ := boot_ok (n := 512) (by decide) [⟨0x100000, 0x1000⟩]
  refine ⟨_, kernelVaddrBase, σ, rfl, bootFrom_eq rfl hboot, ⟨4096, by decide, rfl⟩, ?_⟩
  rcases (hinv.partition.cover 1).mpr (by decide) with ⟨b, hb, hx⟩ | ⟨-, hres⟩
  · rcases List.mem_append.mp hb with hb | hb
    · exact ⟨b, hb, hx⟩
    · obtain ⟨mm, -, hσ⟩ := bind_eq_ok.mp hboot
      obtain rfl := Except.ok.inj hσ
      simp at hb
  · exact absurd hres (by decide)

end RaspiKernel.Mm
