import RaspiKernel.Boot.Initramfs
import RaspiKernel.Mm.Boot

/-!
# The initial ramdisk stays reserved

`initrd_reserve_memory` walks the archive a second time, without the test of the
magic number, adds a length for the trailer that it computes by hand, and hands
the range to `memblock_reserve`. `initramfs_init` serves the files in place, so
that their bytes must stay out of the page allocator. The 17th and the 18th pointer
that it stores take the place of `data` and `data_size` of the directory.

Results:
* `reserveLoop_archive`: the loop ends at the trailer.
* `initrd_protected_iff`: the range that is reserved holds every byte of every entry,
  and for which archives no page with a byte that an inode shows is ever handed out.
-/

namespace RaspiKernel.Boot

open Lib Lib.Span
open Memblock (Region Call physToVirt virtToPhys)

/-! ## `initrd_reserve_memory` -/

/-- The loop of `initrd_reserve_memory` (lines 207–214): the `buf` it ends with. -/
def reserveLoop (m : Mem) : ℕ → ℕ → Option ℕ
  | 0, _ => none
  | fuel + 1, buf =>
    if memcmp m (buf + sizeofCpio) cpioTrailer ≠ 0 then reserveLoop m fuel (readRound m buf).next
    else some buf

/-- `ALIGN(buf - cpio_base, 8)`, as an `unsigned long`. -/
def reserveSize (buf cpioBase : ℕ) : ℕ := ((((buf : ℤ) - cpioBase + 7) / 8 * 8) % 2 ^ 64).toNat

/-- `initrd_reserve_memory` (lines 196–218): the arguments of `memblock_reserve`, if it is called. -/
def initrdReserveMemory (fuel : ℕ) (m : Mem) (cpioBase : ℕ) : Option (Option (ℕ × ℕ)) :=
  if memcmp m cpioBase cpioMagic ≠ 0 then some none
  else (reserveLoop m fuel cpioBase).map fun buf =>
    let buf := ptrAdd buf (alignUlong (sizeofCpio + 10))
    some (virtToPhys cpioBase, reserveSize buf cpioBase)

variable {m : Mem} {base fuel : ℕ} {entries : List Entry} {trailer : Entry}

theorem trailer_ne_zero {e : Entry} (h : Holds m base e.encode) (hname : ¬ cpioTrailer <+: e.name) :
    memcmp m (base + sizeofCpio) cpioTrailer ≠ 0 := (atEntry_entry h hname).2

/-- The loop ends at the trailer. -/
theorem reserveLoop_archive (h : ArchiveAt m base entries trailer) (hfuel : entries.length < fuel) :
    reserveLoop m fuel base = some (base + (entries.flatMap Entry.encode).length) := by
  induction entries generalizing base fuel with
  | nil =>
    obtain ⟨fuel, rfl⟩ := Nat.exists_eq_add_of_lt hfuel
    have hend : memcmp m (base + sizeofCpio) cpioTrailer = 0 := by
      have hstr := (trailer.parts h.holds).2.1
      rw [h.isTrailer.1] at hstr
      exact memcmp_eq_zero.mpr (holds_append.mp (holds_append.mp hstr.1).1).1
    rw [reserveLoop, if_neg (not_not.mpr hend)]
    rfl
  | cons e es ih =>
    obtain ⟨fuel, rfl⟩ := Nat.exists_eq_add_of_lt hfuel
    obtain ⟨he, hname, hlen, hend, hes⟩ := h.cons
    rw [reserveLoop, if_pos (trailer_ne_zero he hname), readRound_entry he hlen, next_round hend,
      ih hes (by rw [List.length_cons]; omega), List.flatMap_cons, List.length_append, Nat.add_assoc]

theorem length_entries_dvd (entries : List Entry) : 4 ∣ (entries.flatMap Entry.encode).length := by
  induction entries with
  | nil => exact ⟨0, rfl⟩
  | cons e es ih =>
    rw [List.flatMap_cons, List.length_append]
    refine Dvd.dvd.add ?_ ih
    rw [e.length_encode]
    exact ⟨(sizeofCpio + e.name.length + 4) / 4 + (e.data.length + 3) / 4, by omega⟩

theorem length_trailer (h : trailer.IsTrailer) : trailer.encode.length = 124 := by
  rw [trailer.length_encode, h.1, h.2]
  rfl

theorem length_archive (h : trailer.IsTrailer) :
    (archive entries trailer).length = (entries.flatMap Entry.encode).length + 124 := by
  rw [archive, List.length_append, length_trailer h]

/-- The range that is reserved for an archive at the physical address `p`. -/
theorem initrdReserveMemory_archive {p : ℕ} (h : ArchiveAt m (physToVirt p) entries trailer)
    (hp : p + (archive entries trailer).length < 2 ^ 32)
    (hfuel : (archive entries trailer).length ≤ fuel) :
    initrdReserveMemory fuel m (physToVirt p) =
      some (some (p, ((entries.flatMap Entry.encode).length + 127) / 8 * 8)) := by
  have hlen := length_le_archive entries trailer
  have htotal := @length_archive entries trailer h.isTrailer
  obtain ⟨k, hk⟩ := length_entries_dvd entries
  have hend := h.end_lt
  have halign : alignUlong ((sizeofCpio : ℤ) + 10) = (120 : ℕ) := by decide
  rw [initrdReserveMemory, h.magic, if_neg (by decide), reserveLoop_archive h (by omega)]
  simp only [Option.map_some]
  rw [halign, ptrAdd_of_lt (by omega), Memblock.virtToPhys_physToVirt (by omega)]
  unfold reserveSize
  congr 3
  omega

/-! ## The bytes that are shown -/

/-- The bytes that an inode shows to `initramfs_read`. -/
def exposed (inode : Mem) : Span := ⟨virtToPhys (load inode dataOffset 8), load inode sizeOffset 8⟩

/-- The vnodes are where `kmalloc` puts them, on pages of the allocator. -/
def OnPages (σ : Mm.System) (vnode : ℕ → ℕ) : Prop :=
  ∀ i, ∃ a, vnode i = physToVirt a ∧ ∃ b ∈ σ.blocks, a / 4096 ∈ b

/-- `initramfs_init` comes back, and no page with a byte that the directory or one of its files shows is on a
    free list or in an allocated block. -/
def FilesProtected (fuel : ℕ) (m : Mem) (base : ℕ) (vnode : ℕ → ℕ) (buf : ℕ) (σ : Mm.System) : Prop :=
  ∃ dir inodes, initramfsInit fuel m base vnode (dirInode buf) = some (.ok (dir, inodes)) ∧
    ∀ inode ∈ dir :: inodes, σ.Protects (exposed inode)

/-- What a file shows is within the entries. -/
theorem mem_exposed {p a : ℕ} {x : Entry × Round} {inode : Mem}
    (h : ArchiveAt m (physToVirt p) entries trailer)
    (hp : p + (archive entries trailer).length < 2 ^ 32) (hx : x ∈ visits (physToVirt p) entries)
    (hdata : load inode dataOffset 8 = x.2.data) (hsize : load inode sizeOffset 8 = x.2.fs.toNat)
    (ha : a ∈ exposed inode) : p ≤ a ∧ a < p + (entries.flatMap Entry.encode).length := by
  obtain ⟨hlow, hhigh⟩ := visits_data h x hx
  obtain ⟨hfs, -, -⟩ := fs_toNat (visits_visited h x hx) (visits_bounds h hx).1
  rw [archive, List.length_append] at hp
  rw [exposed, hdata, hsize, hfs, mem_def, Span.stop, Memblock.virtToPhys_eq] at ha
  rw [Memblock.physToVirt_eq (by omega), Memblock.kernelVaddrBase_eq] at hlow hhigh
  dsimp only at ha
  omega

section

variable {n : ℕ} {rgns : List Region} {σ : Mm.System} {vnode : ℕ → ℕ} {buf p : ℕ}

/-- The address of a vnode is one that the kernel can count. -/
theorem OnPages.lt (hpart : Mm.Partition n rgns σ) (hn : n ≤ 2 ^ 20) (hvnode : OnPages σ vnode) (i : ℕ) :
    ∃ a < 2 ^ 32, vnode i = physToVirt a ∧ ∃ b ∈ σ.blocks, a / 4096 ∈ b := by
  obtain ⟨a, hva, b, hb, hab⟩ := hvnode i
  have hlt := (hpart.cover (a / 4096)).mp (.inl ⟨b, hb, hab⟩)
  exact ⟨a, by omega, hva, b, hb, hab⟩

theorem OnPages.lt_two_pow (hpart : Mm.Partition n rgns σ) (hn : n ≤ 2 ^ 20) (hvnode : OnPages σ vnode)
    (i : ℕ) : 0 < vnode i ∧ vnode i < 2 ^ 64 := by
  obtain ⟨a, ha, hva, -⟩ := hvnode.lt hpart hn i
  rw [hva, Memblock.physToVirt_eq (by omega), Memblock.kernelVaddrBase_eq]
  omega

/-- With 18 vnodes the directory shows the bytes from the 17th on, which is on a page of the allocator. -/
theorem FilesProtected.count_le (h : ArchiveAt m base entries trailer)
    (hfuel : (archive entries trailer).length ≤ fuel) (hpart : Mm.Partition n rgns σ) (hn : n ≤ 2 ^ 20)
    (hvnode : OnPages σ vnode) (hprotected : FilesProtected fuel m base vnode buf σ) :
    (entries.filter fun e => e.data ≠ []).length ≤ 17 := by
  have hlt := fun i => (hvnode.lt_two_pow hpart hn i).2
  obtain ⟨dir, inodes, hinit, hprotects⟩ := hprotected
  by_contra hcount
  have hdata := initramfsInit_childs h hfuel hinit hlt 16
  have hsize := initramfsInit_childs h hfuel hinit hlt 17
  rw [if_pos (by omega)] at hdata hsize
  obtain ⟨a, ha, hva, b, hb, hab⟩ := hvnode.lt hpart hn 16
  have hpos := (hvnode.lt_two_pow hpart hn 17).1
  have hspan : exposed dir = ⟨a, vnode 17⟩ := by
    rw [exposed, show dataOffset = childsOffset + 8 * 16 from rfl,
      show sizeOffset = childsOffset + 8 * 17 from rfl, hdata, hsize, hva,
      Memblock.virtToPhys_physToVirt (by omega)]
  have hshown : a ∈ exposed dir := by
    rw [hspan, mem_def, Span.stop]
    dsimp only
    omega
  exact hprotects dir List.mem_cons_self (a / 4096) ⟨a, hshown, rfl⟩ b hb hab

/-- In a state of the page allocator that leaves out the reserved bytes, the inodes are protected exactly if
    the vnodes leave `data_size` of the directory and no name is written behind its inode. -/
theorem filesProtected_iff (h : ArchiveAt m (physToVirt p) entries trailer)
    (hp : p + (archive entries trailer).length < 2 ^ 32)
    (hfuel : (archive entries trailer).length ≤ fuel) (hpart : Mm.Partition n rgns σ) (hn : n ≤ 2 ^ 20)
    (hcovers : ∀ a, p ≤ a → a < p + (entries.flatMap Entry.encode).length → Covers rgns a)
    (hvnode : OnPages σ vnode) : FilesProtected fuel m (physToVirt p) vnode buf σ ↔
      (entries.filter fun e => e.data ≠ []).length ≤ 17 ∧
        ∀ e ∈ entries, e.data ≠ [] → e.name.length ≤ 251 := by
  have hlt := fun i => (hvnode.lt_two_pow hpart hn i).2
  constructor
  · intro hprotected
    refine ⟨hprotected.count_le h hfuel hpart hn hvnode, ?_⟩
    obtain ⟨dir, inodes, hinit, -⟩ := hprotected
    exact ((initramfsInit_ok_iff h hfuel).mp ⟨dir, inodes, hinit⟩).2
  · rintro ⟨hcount, hnames⟩
    have hmade : ∃ dir inodes, initramfsInit fuel m (physToVirt p) vnode (dirInode buf) =
        some (.ok (dir, inodes)) := (initramfsInit_ok_iff h hfuel).mpr ⟨by omega, hnames⟩
    obtain ⟨dir, inodes, hinit⟩ := hmade
    refine ⟨dir, inodes, hinit, fun inode hinode => hpart.protects fun a ha => ?_⟩
    rcases List.mem_cons.mp hinode with rfl | hinode
    · -- the size of the directory is still 0
      have hsize := initramfsInit_childs h hfuel hinit hlt 17
      rw [if_neg (by omega)] at hsize
      have hzero : load inode sizeOffset 8 = 0 := hsize.trans (dirInode_size buf)
      rw [exposed, hzero, mem_def, Span.stop] at ha
      dsimp only at ha
      omega
    · obtain ⟨x, hx, hdata, hsize⟩ := forall₂_mem_right (initramfsInit_load h hfuel hinit) hinode
      obtain ⟨hlow, hhigh⟩ := mem_exposed h hp (List.mem_of_mem_filter hx) hdata hsize ha
      exact hcovers a hlow hhigh

end

/-- The initial ramdisk stays reserved as long as it is used. For every archive that ends below a memory
    limit that is a multiple of 2 MiB, `initrd_reserve_memory` reserves a range that holds every byte
    of all its entries. If this is one of the reservations, which all end below the limit, and
    memblock finds room for `mem_map`, then `buddy_init` and every later sequence of calls of the page
    allocator come back. No page with a byte that an inode of `initramfs_init` shows is then on a free list
    or in an allocated block, exactly if at most 17 entries have data, with names of at most 251
    characters. -/
theorem initrd_protected_iff {p memBase size : ℕ} (h : ArchiveAt m (physToVirt p) entries trailer)
    (hlimit : 2 ^ 21 ∣ memBase + size) (hlt : memBase + size < 2 ^ 32)
    (hend : p + (archive entries trailer).length < memBase + size)
    (hfuel : (archive entries trailer).length ≤ fuel) :
    ∃ rsize, initrdReserveMemory fuel m (physToVirt p) = some (some (p, rsize)) ∧
      (∀ i < (entries.flatMap Entry.encode).length, p + i ∈ (Call.reserve p rsize).range) ∧
      ∀ {calls : List (ℕ × ℕ)} {g g' : ℕ → Region} {mb mb' : Memblock.State} {rounds : ℕ}
        {stack : ℕ × ℕ} {q : ℕ}, (p, rsize) ∈ calls →
        (∀ c ∈ calls, (Call.reserve c.1 c.2).range.stop < memBase + size) →
        Mm.reservedMemblock memBase size calls g g' = .ok mb →
        Memblock.physAlloc rounds stack mb (Mm.sizeofPage * (mb.currentLimit >>> 12)) = .ok (q, mb') →
        ∀ ops, ∃ σ₀ σ, Mm.System.bootFrom rounds stack mb = .ok (q, (memBase + size) / 4096, σ₀) ∧
          σ₀.run ops = .ok σ ∧
          ∀ vnode, OnPages σ vnode → ∀ buf,
            (FilesProtected fuel m (physToVirt p) vnode buf σ ↔
              (entries.filter fun e => e.data ≠ []).length ≤ 17 ∧
                ∀ e ∈ entries, e.data ≠ [] → e.name.length ≤ 251) := by
  have hinside : ∀ a, p ≤ a → a < p + (entries.flatMap Entry.encode).length →
      a ∈ (Call.reserve p (((entries.flatMap Entry.encode).length + 127) / 8 * 8)).range := by
    intro a hlow hhigh
    rw [Call.range, mem_def, Span.stop]
    dsimp only
    omega
  refine ⟨_, initrdReserveMemory_archive h (by omega) hfuel,
    fun i hi => hinside (p + i) (by omega) (by omega), ?_⟩
  intro calls g g' mb mb' rounds stack q hmem hbelow hmb halloc ops
  have hb := Mm.reservedMemblock_spec hlt hbelow hmb
  obtain ⟨σ₀, σ, hboot, hrun, hpart⟩ := Mm.boot_partition hlimit hb halloc ops
  refine ⟨σ₀, σ, hboot, hrun, fun vnode hvnode buf => ?_⟩
  refine filesProtected_iff h (by omega) hfuel hpart (by omega) (fun a hlow hhigh => ?_) hvnode
  exact Mm.covers_physAlloc hlt hb halloc hmem a (hinside a hlow hhigh)

/-- An archive at 1 MiB. -/
def archiveAtMiB (entries : List Entry) : Mem :=
  fun x => ofBytes (archive entries smallTrailer) (x - physToVirt 0x100000)

theorem archiveAt_MiB {entries : List Entry} (hnames : ∀ e ∈ entries, ¬ cpioTrailer <+: e.name)
    (hlen : (archive entries smallTrailer).length < 2 ^ 31) :
    ArchiveAt (archiveAtMiB entries) (physToVirt 0x100000) entries smallTrailer := by
  have hbase : physToVirt 0x100000 + 2 ^ 31 < 2 ^ 64 := by decide
  exact ⟨holds_ofBytes fun i _ => by rw [archiveAtMiB, Nat.add_sub_cancel_left], hnames, ⟨rfl, rfl⟩,
    hlen, by omega⟩

/-- Vnodes in the slab objects of the page at 3 MiB. -/
def vnodesAt3MiB (i : ℕ) : ℕ := physToVirt (0x300000 + 32 * (i % 128))

theorem onPages_3MiB {n : ℕ} {rgns : List Region} {σ : Mm.System} (hpart : Mm.Partition n rgns σ)
    (hn : 0x300 < n) (hfree : ¬ Mm.Reserved rgns 0x300) : OnPages σ vnodesAt3MiB := by
  intro i
  rcases (hpart.cover 0x300).mpr hn with hblock | ⟨-, hres⟩
  · refine ⟨0x300000 + 32 * (i % 128), rfl, ?_⟩
    rwa [show (0x300000 + 32 * (i % 128)) / 4096 = 0x300 by omega]
  · exact absurd hres hfree

/-- The archive of two files at 1 MiB, with the kernel image before it, and calls after boot. -/
theorem initrd_protected_small :
    ∃ mb q mb' σ₀ σ, initrdReserveMemory 400 (archiveAtMiB smallEntries) (physToVirt 0x100000) =
        some (some (0x100000, 360)) ∧
      Mm.reservedMemblock 0 0x400000 [(0, 0x80123), (0x100000, 360)] (fun _ => ⟨0, 0⟩)
        (fun _ => ⟨0, 0⟩) = .ok mb ∧
      Memblock.physAlloc 5 (0, 0) mb (Mm.sizeofPage * (mb.currentLimit >>> 12)) = .ok (q, mb') ∧
      Mm.System.bootFrom 5 (0, 0) mb = .ok (q, (0 + 0x400000) / 4096, σ₀) ∧
      σ₀.run [.alloc 3, .alloc 0, .free 1] = .ok σ ∧
      FilesProtected 400 (archiveAtMiB smallEntries) (physToVirt 0x100000) vnodesAt3MiB 0 σ := by
  have hat := @archiveAt_MiB smallEntries (by decide) (by decide +kernel)
  obtain ⟨rsize, hreserve, -, hboot⟩ := @initrd_protected_iff _ 400 _ _ _ 0 0x400000 hat
    (by decide) (by decide) (by decide +kernel) (by decide +kernel)
  have hsize : initrdReserveMemory 400 (archiveAtMiB smallEntries) (physToVirt 0x100000) =
      some (some (0x100000, 360)) := by decide +kernel
  obtain rfl : rsize = 360 := by
    rw [hsize] at hreserve
    simpa using hreserve.symm
  obtain ⟨mb, q, mb', hmb, halloc, hfree⟩ : ∃ mb q mb',
      Mm.reservedMemblock 0 0x400000 [(0, 0x80123), (0x100000, 360)] (fun _ => ⟨0, 0⟩)
        (fun _ => ⟨0, 0⟩) = .ok mb ∧
      Memblock.physAlloc 5 (0, 0) mb (Mm.sizeofPage * (mb.currentLimit >>> 12)) = .ok (q, mb') ∧
      ¬ Mm.Reserved mb'.reserved.list 0x300 := ⟨_, _, _, rfl, rfl, by decide⟩
  have hbelow : ∀ c ∈ [(0, 0x80123), (0x100000, 360)],
      (Call.reserve c.1 c.2).range.stop < 0 + 0x400000 := by decide
  have hb := Mm.reservedMemblock_spec (by decide) hbelow hmb
  obtain ⟨σ₀, σ, hσ₀, hσ, hiff⟩ := hboot (by decide) hbelow hmb halloc [.alloc 3, .alloc 0, .free 1]
  obtain ⟨σ₀', σ', hσ₀', hσ', hpart⟩ :=
    Mm.boot_partition (by decide) hb halloc [.alloc 3, .alloc 0, .free 1]
  cases hσ₀.symm.trans hσ₀'
  cases hσ.symm.trans hσ'
  exact ⟨mb, q, mb', σ₀, σ, hsize, hmb, halloc, hσ₀, hσ,
    (hiff _ (onPages_3MiB hpart (by decide) hfree) 0).mpr ⟨by decide, by decide⟩⟩

/-- With 18 files, the directory shows the page with the vnodes. -/
theorem initrd_exposes_pages :
    ∃ mb q mb' σ, Mm.reservedMemblock 0 0x400000 [(0, 0x80123), (0x100000, 2208)] (fun _ => ⟨0, 0⟩)
        (fun _ => ⟨0, 0⟩) = .ok mb ∧
      Memblock.physAlloc 5 (0, 0) mb (Mm.sizeofPage * (mb.currentLimit >>> 12)) = .ok (q, mb') ∧
      Mm.System.bootFrom 5 (0, 0) mb = .ok (q, (0 + 0x400000) / 4096, σ) ∧
      initrdReserveMemory 3000 (archiveAtMiB (List.replicate 18 wordEntry)) (physToVirt 0x100000) =
        some (some (0x100000, 2208)) ∧
      OnPages σ vnodesAt3MiB ∧
      ¬ FilesProtected 3000 (archiveAtMiB (List.replicate 18 wordEntry)) (physToVirt 0x100000)
        vnodesAt3MiB 0 σ := by
  have hnames : ∀ e ∈ List.replicate 18 wordEntry, ¬ cpioTrailer <+: e.name := by decide
  have hat := archiveAt_MiB hnames (by decide +kernel)
  have hlen : ((List.replicate 18 wordEntry).flatMap Entry.encode).length = 2088 := by decide +kernel
  have htotal := @length_archive (List.replicate 18 wordEntry) smallTrailer ⟨rfl, rfl⟩
  have hsize := initrdReserveMemory_archive hat (show _ < 2 ^ 32 by omega) (show _ ≤ 3000 by omega)
  rw [hlen] at hsize
  obtain ⟨mb, q, mb', hmb, halloc, hfree⟩ : ∃ mb q mb',
      Mm.reservedMemblock 0 0x400000 [(0, 0x80123), (0x100000, 2208)] (fun _ => ⟨0, 0⟩)
        (fun _ => ⟨0, 0⟩) = .ok mb ∧
      Memblock.physAlloc 5 (0, 0) mb (Mm.sizeofPage * (mb.currentLimit >>> 12)) = .ok (q, mb') ∧
      ¬ Mm.Reserved mb'.reserved.list 0x300 := ⟨_, _, _, rfl, rfl, by decide⟩
  have hb := Mm.reservedMemblock_spec (by decide) (by decide) hmb
  obtain ⟨σ₀, σ, hσ₀, hσ, hpart⟩ := Mm.boot_partition (by decide) hb halloc []
  cases hσ
  have hpages := onPages_3MiB hpart (by decide) hfree
  refine ⟨mb, q, mb', σ₀, hmb, halloc, hσ₀, hsize, hpages, fun hprotected => ?_⟩
  have hcount := hprotected.count_le hat (by decide +kernel) hpart (by decide) hpages
  exact absurd hcount (by decide)

end RaspiKernel.Boot
