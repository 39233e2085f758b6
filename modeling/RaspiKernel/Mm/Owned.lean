import RaspiKernel.Mm.Heap

/-!
# What `kmalloc` hands out

Two views of `kmalloc` meet here: `RaspiKernel.Mm.Heap` has the allocators below it,
and `RaspiKernel.Mm.User` only the blocks that it has returned. A block is owned
from the request that it answers on, until it is freed.

Results:
* `HeapInv.owned_apart`, `HeapInv.owned_ram`: the owned blocks share no byte, and
  lie in the RAM.
* `HeapInv.gives`: a request is answered with a block that was not owned before.
* `kmalloc_dvd_iff`: when the answer is page aligned.
-/

namespace RaspiKernel.Mm

open Lib
open Memblock (Region physToVirt virtToPhys kernelVaddrBase)

/-! ## Owned blocks -/

/-- The bytes from `b.base` on that `kmalloc(b.size)` hands out. -/
def spanBlock (b : Span) : Block :=
  ⟨b.base, if pageSize ≤ b.size then kmallocOrder b.size + 12 else classOf b.size + 3⟩

/-- `kmalloc(b.size)` has returned `b.base`, and the block has not been freed. -/
structure Kernel.Owns (κ : Kernel) (b : Span) : Prop where
  fits : b.size ≤ 2 ^ (spanBlock b).order
  pages : pageSize ≤ b.size →
    ∃ p, b.base = slabAddress p ∧ ⟨p, kmallocOrder b.size⟩ ∈ κ.sys.live
  object : b.size < pageSize → ⟨b.base, b.size⟩ ∈ κ.objs

/-- The blocks of `l` are owned, and no two of them are the same. -/
structure Kernel.Holds (κ : Kernel) (l : List Span) : Prop where
  owns : ∀ b ∈ l, κ.Owns b
  nodup : (l.map Span.base).Nodup

section

variable {n nullPfn : ℕ} {rgns : List Region} {κ κ' κp : Kernel} {tile : Tiles} {b c : Span}

theorem spanBlock_pages {p : ℕ} (hsize : pageSize ≤ b.size) (hbase : b.base = slabAddress p) :
    spanBlock b = pagesBlock ⟨p, kmallocOrder b.size⟩ := by
  rw [spanBlock, if_pos hsize, hbase]
  rfl

theorem spanBlock_object (hsize : b.size < pageSize) :
    spanBlock b = (⟨b.base, b.size⟩ : Object).block := by
  rw [spanBlock, if_neg (Nat.not_le.mpr hsize)]
  rfl

theorem base_mem_spanBlock (b : Span) : b.base ∈ spanBlock b := Block.start_mem (spanBlock b)

theorem PaddedKernel.owns_iff (h : PaddedKernel n κ κ') : κ'.Owns b ↔ κ.Owns b := by
  constructor <;> rintro ⟨hfits, hpages, hobject⟩
  · rw [h.sys.live] at hpages
    rw [h.objs] at hobject
    exact ⟨hfits, hpages, hobject⟩
  · rw [← h.sys.live] at hpages
    rw [← h.objs] at hobject
    exact ⟨hfits, hpages, hobject⟩

/-- The pages of a live block are used. -/
theorem KernelInv.live_used (h : KernelInv n rgns κ tile) {d : Block} (hd : d ∈ κ.sys.live) {q : ℕ}
    (hq : q ∈ d) : q < n ∧ tile q = (.used, d) := by
  obtain ⟨hdn, hdt⟩ := (h.run.live d).mp hd
  exact h.run.inv.tiling.tile_eq_of_mem hdn hdt hq

theorem KernelInv.live_apart (h : KernelInv n rgns κ tile) (hn : n ≤ 2 ^ 36) {d e : Block}
    (hd : d ∈ κ.sys.live) (he : e ∈ κ.sys.live) (hne : d ≠ e) {x : ℕ} (hx : x ∈ pagesBlock d) :
    x ∉ pagesBlock e := by
  intro hx'
  have hlt : ∀ {d : Block}, d ∈ κ.sys.live → ∀ q ∈ d, q < 2 ^ 36 := fun hd q hq =>
    lt_of_lt_of_le (h.live_used hd hq).1 hn
  obtain ⟨q, hq, hxq⟩ := exists_page_of_mem (hlt hd) hx
  obtain ⟨q', hq', hxq'⟩ := exists_page_of_mem (hlt he) hx'
  obtain rfl := pageBlock_inj (hlt hd q hq) (hlt he q' hq') hxq hxq'
  have heq := (h.live_used hd hq).2.symm.trans (h.live_used he hq').2
  exact hne (Prod.mk.inj heq).2

/-- Blocks of pages and objects do not meet. -/
theorem KernelInv.pages_object_apart (h : KernelInv n rgns κ tile) (hn : n ≤ 2 ^ 36) (hb : κ.Owns b)
    (hc : κ.Owns c) (hbs : pageSize ≤ b.size) (hcs : c.size < pageSize) {x : ℕ}
    (hx : x ∈ spanBlock c) : x ∉ spanBlock b := by
  obtain ⟨p, hbase, hlive⟩ := hb.pages hbs
  obtain ⟨hsize, q, hq, hslot⟩ := h.object _ (hc.object hcs)
  have hclass := (classOf_spec hsize).1
  rw [spanBlock_object hcs] at hx
  rw [spanBlock_pages hbs hbase]
  have hpage := hslot.subset (lt_of_lt_of_le (h.lt hclass hq) hn) hclass hx
  exact h.slab_not_mem_live hn hclass hq hpage hlive

/-- Owned blocks share no byte. -/
theorem KernelInv.owned_apart (h : KernelInv n rgns κ tile) (hn : n ≤ 2 ^ 36) (hb : κ.Owns b)
    (hc : κ.Owns c) (hne : b.base ≠ c.base) {x : ℕ} (hx : x ∈ spanBlock b) : x ∉ spanBlock c := by
  rcases Nat.lt_or_ge b.size pageSize with hbs | hbs <;>
    rcases Nat.lt_or_ge c.size pageSize with hcs | hcs
  · obtain ⟨hsize, q, hq, hslot⟩ := h.object _ (hc.object hcs)
    rw [spanBlock_object hbs] at hx
    rw [spanBlock_object hcs]
    exact h.free_apart hn (classOf_spec hsize).1 hq hslot (hb.object hbs) hne hx
  · exact h.pages_object_apart hn hc hb hcs hbs hx
  · exact fun hx' => h.pages_object_apart hn hb hc hbs hcs hx' hx
  · obtain ⟨p, hbase, hlive⟩ := hb.pages hbs
    obtain ⟨q, hbase', hlive'⟩ := hc.pages hcs
    rw [spanBlock_pages hbs hbase] at hx
    rw [spanBlock_pages hcs hbase']
    refine h.live_apart hn hlive hlive' (fun heq => hne ?_) hx
    rw [hbase, hbase', (Block.mk.inj heq).1]

/-- Blocks that share no address follow one another. -/
theorem stop_le_or_of_apart {d e : Block} (h : ∀ x ∈ d, x ∉ e) :
    d.start + 2 ^ d.order ≤ e.start ∨ e.start + 2 ^ e.order ≤ d.start := by
  by_contra hno
  have hd := Nat.two_pow_pos d.order
  have he := Nat.two_pow_pos e.order
  refine h (max d.start e.start) ?_ ?_ <;> rw [Block.mem_def] <;> omega

theorem HeapInv.owned_apart (h : HeapInv n rgns κ κp tile) (hn : n < 2 ^ 36) (hb : κ.Owns b)
    (hc : κ.Owns c) (hne : b.base ≠ c.base) : b.stop ≤ c.base ∨ c.stop ≤ b.base := by
  have hfits := hb.fits
  have hfits' := hc.fits
  have happart := stop_le_or_of_apart fun _ hx =>
    h.inv.owned_apart (padPages_le hn) (h.padded.owns_iff.mpr hb) (h.padded.owns_iff.mpr hc) hne hx
  change b.base + 2 ^ (spanBlock b).order ≤ c.base ∨ c.base + 2 ^ (spanBlock c).order ≤ b.base
    at happart
  unfold Span.stop
  omega

/-- A page that is used is a page of the array and not reserved. -/
theorem HeapInv.page_lt (h : HeapInv n rgns κ κp tile) (hzero : Reserved rgns 0) {q : ℕ}
    (hq : q < padPages n) (hown : (tile q).1 ≠ .reserved) : 0 < q ∧ q < n := by
  have hres := mt (h.inv.run.reserved q hq).mpr hown
  rw [reserved_padRegions] at hres
  refine ⟨Nat.pos_of_ne_zero ?_, ?_⟩
  · rintro rfl
    exact hres (Or.inl hzero)
  · by_contra hle
    exact hres (Or.inr ⟨by omega, hq⟩)

/-- Every byte of an owned block is in a page of the array. -/
theorem HeapInv.owned_page (h : HeapInv n rgns κ κp tile) (hn : n < 2 ^ 36) (hzero : Reserved rgns 0)
    (hb : κ.Owns b) {x : ℕ} (hx : x ∈ spanBlock b) : ∃ q, 0 < q ∧ q < n ∧ x ∈ pageBlock q := by
  have hn' := padPages_le hn
  have hb' := h.padded.owns_iff.mpr hb
  rcases Nat.lt_or_ge b.size pageSize with hsize | hsize
  · obtain ⟨hle, q, hq, hslot⟩ := h.inv.object _ (hb'.object hsize)
    have hclass := (classOf_spec hle).1
    obtain ⟨hqn, hqt⟩ := (h.inv.run.slab q).mp (mem_slabPages.mpr ⟨_, hclass, hq⟩)
    obtain ⟨hpos, hlt⟩ := h.page_lt hzero hqn (by rw [hqt]; simp)
    rw [spanBlock_object hsize] at hx
    exact ⟨q, hpos, hlt, hslot.subset (lt_of_lt_of_le hqn hn') hclass hx⟩
  · obtain ⟨p, hbase, hlive⟩ := hb'.pages hsize
    rw [spanBlock_pages hsize hbase] at hx
    obtain ⟨q, hq, hxq⟩ := exists_page_of_mem
      (fun q hq => lt_of_lt_of_le (h.inv.live_used hlive hq).1 hn') hx
    obtain ⟨hqn, hqt⟩ := h.inv.live_used hlive hq
    obtain ⟨hpos, hlt⟩ := h.page_lt hzero hqn (by rw [hqt]; simp)
    exact ⟨q, hpos, hlt, hxq⟩

theorem HeapInv.owned_ram (h : HeapInv n rgns κ κp tile) (hn : n < 2 ^ 36) (hzero : Reserved rgns 0)
    (hb : κ.Owns b) : kernelVaddrBase < b.base ∧ b.stop ≤ kernelVaddrBase + n * 4096 := by
  have hpos := Nat.two_pow_pos (spanBlock b).order
  have hmem : b.base + 2 ^ (spanBlock b).order - 1 ∈ spanBlock b := by
    rw [Block.mem_def]
    show b.base ≤ _ ∧ _ < b.base + _
    omega
  have hin : ∀ {x q}, q < n → x ∈ pageBlock q →
      kernelVaddrBase + q * 4096 ≤ x ∧ x < kernelVaddrBase + q * 4096 + 4096 := by
    intro x q hq hx
    rwa [pageBlock, Block.mem_def, slabAddress_eq (by omega)] at hx
  obtain ⟨q, hq, hqn, hx⟩ := h.owned_page hn hzero hb (base_mem_spanBlock b)
  obtain ⟨r, -, hrn, hy⟩ := h.owned_page hn hzero hb hmem
  have hfirst := hin hqn hx
  have hlast := hin hrn hy
  have hfits := hb.fits
  unfold Span.stop
  omega

theorem HeapInv.owned_dvd (h : HeapInv n rgns κ κp tile) (hn : n < 2 ^ 36) (hb : κ.Owns b)
    (hsize : pageSize ≤ b.size) : 4096 ∣ b.base := by
  obtain ⟨p, hbase, hlive⟩ := (h.padded.owns_iff.mpr hb).pages hsize
  have hp := (h.inv.live_used hlive (Block.start_mem _)).1
  rw [hbase, slabAddress_eq (lt_of_lt_of_le hp (padPages_le hn))]
  unfold kernelVaddrBase
  omega

end

/-! ## Requests -/

/-- `kmalloc(b.size)` has memory for the request, and returns `b.base`. The size is not behind the end of
    `kmem_caches`, and the order that is computed from it is the right one. -/
structure Gives (nullPfn : ℕ) (κ : Kernel) (b : Span) (κ' : Kernel) : Prop where
  left : ¬ NoMemory κ.state b.size
  cache : b.size ≤ 2048 ∨ pageSize ≤ b.size
  order : OrderRight b.size
  returns : ∃ st, kmalloc nullPfn κ.state b.size = .ok (b.base, st) ∧
    κ' = (κ.setState st).record b.base b.size

/-- A sequence of requests, each given. -/
inductive GivesAll (nullPfn : ℕ) : Kernel → List Span → Kernel → Prop
  | nil (κ : Kernel) : GivesAll nullPfn κ [] κ
  | cons {κ κ₁ κ' : Kernel} {b : Span} {l : List Span} (hb : Gives nullPfn κ b κ₁)
      (hl : GivesAll nullPfn κ₁ l κ') : GivesAll nullPfn κ (b :: l) κ'

section

variable {n nullPfn : ℕ} {rgns : List Region} {κ κ' κp : Kernel} {tile : Tiles} {b c : Span}

theorem GivesAll.append {κ₁ : Kernel} {l m : List Span} (h : GivesAll nullPfn κ l κ₁)
    (h' : GivesAll nullPfn κ₁ m κ') : GivesAll nullPfn κ (l ++ m) κ' := by
  induction h with
  | nil κ => exact h'
  | cons hb _ ih => exact .cons hb (ih h')

theorem GivesAll.single (hb : Gives nullPfn κ b κ') : GivesAll nullPfn κ [b] κ' := .cons hb (.nil κ')

theorem Gives.heapExec (h : Gives nullPfn κ b κ') :
    κ.heapExec nullPfn (.kmalloc b.size) = .ok κ' := by
  obtain ⟨st, hrun, rfl⟩ := h.returns
  rw [heapExec_kmalloc hrun, if_neg h.left]

/-- The address of a page that the page allocator returns. -/
theorem pageAddress_eq {page : ℕ} (hpage : page < 2 ^ 36) :
    physToVirt (pageToPhys (pageToPfn nullPfn (some page)) % 2 ^ 64) = slabAddress page := by
  rw [slabAddress, Nat.mod_eq_of_lt]
  · rfl
  · show page <<< 12 < 2 ^ 64
    rw [Nat.shiftLeft_eq]
    omega

/-- A request for pages is given the start of a block. -/
theorem KernelInv.kmalloc_slabAddress (h : KernelInv n rgns κ tile) (hn : n ≤ 2 ^ 36) {size a : ℕ}
    {st : SlabState} (hsize : pageSize ≤ size) (hleft : ¬ NoMemory κ.state size)
    (hrun : kmalloc nullPfn κ.state size = .ok (a, st)) : ∃ p < 2 ^ 36, a = slabAddress p := by
  rcases allocPages_spec h.run.inv (kmallocOrder size) with ⟨-, hall⟩ | ⟨page, s', _, halloc, _, ht⟩
  · refine absurd ?_ hleft
    rw [NoMemory, if_pos hsize]
    exact fun k hlt hk => hall k hk hlt
  · have hpage : page < 2 ^ 36 := lt_of_lt_of_le ht.lt hn
    rw [show kmalloc nullPfn κ.state size = _ from kmalloc_of_allocPages hsize halloc] at hrun
    exact ⟨page, hpage, (Prod.mk.inj (Except.ok.inj hrun)).1.symm.trans (pageAddress_eq hpage)⟩

theorem setState_record_live {st : SlabState} {a size : ℕ} (hsize : pageSize ≤ size) :
    ((κ.setState st).record a size).sys.live =
      ⟨physToPage (virtToPhys a), kmallocOrder size⟩ :: κ.sys.live := by
  rw [record_pages hsize]
  rfl

theorem setState_record_objs {st : SlabState} {a size : ℕ} (hsize : size < pageSize) :
    ((κ.setState st).record a size).objs = ⟨a, size⟩ :: κ.objs := by
  rw [record_object hsize]
  rfl

theorem subset_record (st : SlabState) (a size : ℕ) :
    κ.sys.live ⊆ ((κ.setState st).record a size).sys.live ∧
      κ.objs ⊆ ((κ.setState st).record a size).objs := by
  unfold Kernel.record
  split_ifs
  · exact ⟨List.subset_cons_self _ _, List.Subset.refl _⟩
  · exact ⟨List.Subset.refl _, List.subset_cons_self _ _⟩

/-- A block stays owned while others are given. -/
theorem Gives.owns (h : Gives nullPfn κ b κ') (hc : κ.Owns c) : κ'.Owns c := by
  obtain ⟨st, -, rfl⟩ := h.returns
  obtain ⟨hlive, hobjs⟩ := subset_record (κ := κ) st b.base b.size
  refine ⟨hc.fits, fun hsize => ?_, fun hsize => hobjs (hc.object hsize)⟩
  obtain ⟨p, hbase, hmem⟩ := hc.pages hsize
  exact ⟨p, hbase, hlive hmem⟩

/-- The block that is given is owned afterwards. -/
theorem KernelInv.gives_owns (h : KernelInv n rgns κ tile) (hn : n ≤ 2 ^ 36)
    (hg : Gives nullPfn κ b κ') : κ'.Owns b := by
  obtain ⟨st, hrun, rfl⟩ := hg.returns
  refine ⟨?_, fun hsize => ?_, fun hsize => ?_⟩
  · rw [spanBlock]
    split_ifs with hsize
    · rw [pow_add, Nat.mul_comm]
      exact hg.order.enough
    · rw [← objectSize_eq]
      exact (classOf_spec (hg.cache.resolve_right hsize)).2.1
  · obtain ⟨p, hp, hbase⟩ := h.kmalloc_slabAddress hn hsize hg.left hrun
    refine ⟨p, hbase, ?_⟩
    rw [setState_record_live hsize, hbase, physToPage_slabAddress hp]
    exact List.mem_cons_self
  · rw [setState_record_objs hsize]
    exact List.mem_cons_self

/-- It was not owned before. -/
theorem KernelInv.gives_new {tile' : Tiles} (h : KernelInv n rgns κ tile) (hn : n ≤ 2 ^ 36)
    (h' : KernelInv n rgns κ' tile') (hg : Gives nullPfn κ b κ') (hc : κ.Owns c) :
    c.base ≠ b.base := by
  intro heq
  have hb' := h.gives_owns hn hg
  have hc' := hg.owns hc
  have hbase : b.base ∈ spanBlock c := heq ▸ base_mem_spanBlock c
  obtain ⟨st, -, rfl⟩ := hg.returns
  rcases Nat.lt_or_ge b.size pageSize with hbs | hbs <;>
    rcases Nat.lt_or_ge c.size pageSize with hcs | hcs
  · have hnodup := h'.nodup
    rw [setState_record_objs hbs, List.map_cons, List.nodup_cons] at hnodup
    exact hnodup.1 (List.mem_map.mpr ⟨_, hc.object hcs, heq⟩)
  · exact h'.pages_object_apart hn hc' hb' hcs hbs (base_mem_spanBlock b) hbase
  · exact h'.pages_object_apart hn hb' hc' hbs hcs hbase (base_mem_spanBlock b)
  · obtain ⟨p, hpb, -⟩ := hb'.pages hbs
    obtain ⟨q, hqc, hlive⟩ := hc.pages hcs
    have hq := lt_of_lt_of_le (h.live_used hlive (Block.start_mem _)).1 hn
    have hnodup := h'.run.nodup
    have hused := fun d (hd : d ∈ ((κ.setState st).record b.base b.size).sys.live) =>
      h'.live_used hd (Block.start_mem d)
    rw [setState_record_live hbs, ← heq, hqc, physToPage_slabAddress hq] at hnodup hused
    -- two blocks with the same first page are the same
    have hsame := (hused _ List.mem_cons_self).2.symm.trans (hused _ (List.mem_cons_of_mem _ hlive)).2
    exact (List.nodup_cons.mp hnodup).1 ((Prod.mk.inj hsame).2 ▸ hlive)

/-- A request keeps the invariant, and gives a block that was not owned. -/
theorem HeapInv.gives (h : HeapInv n rgns κ κp tile) (hn : n < 2 ^ 36) (hg : Gives nullPfn κ b κ') :
    (∃ κp' tile', HeapInv n rgns κ' κp' tile') ∧ κ'.Owns b ∧ ∀ c, κ.Owns c → c.base ≠ b.base := by
  have hn' := padPages_le hn
  obtain ⟨κp', tile', hexec', h'⟩ := h.inv.heapExec_ok hn' nullPfn
    (show HeapOp.Valid (.kmalloc b.size) from hg.cache)
  obtain ⟨τ, hexec, hp⟩ := h.padded.heapExec _ κp' hexec'
  obtain rfl : κ' = τ := Except.ok.inj (hg.heapExec.symm.trans hexec)
  -- the longer array gives the same block
  have hgp : Gives nullPfn κp b κp' := by
    have hleft : ¬ NoMemory κp.state b.size := mt (h.padded.state.noMemory_iff b.size).mp hg.left
    obtain ⟨⟨a, stp⟩, hrunp, -⟩ := bind_eq_ok.mp hexec'
    obtain ⟨⟨a', st'⟩, hrun', heq, -⟩ := h.padded.state.kmalloc nullPfn b.size _ hrunp
    obtain ⟨st, hrun, -⟩ := hg.returns
    have hbase := (Prod.mk.inj (Except.ok.inj (hrun.symm.trans hrun'))).1
    rw [heapExec_kmalloc hrunp, if_neg hleft] at hexec'
    obtain rfl : a = b.base := heq.trans hbase.symm
    exact ⟨hleft, hg.cache, hg.order, stp, hrunp, (Except.ok.inj hexec').symm⟩
  exact ⟨⟨κp', tile', hp, h'⟩, hp.owns_iff.mp (h.inv.gives_owns hn' hgp),
    fun c hc => h.inv.gives_new hn' h' hgp (h.padded.owns_iff.mpr hc)⟩

/-- Blocks that are given join those that are held. -/
theorem GivesAll.holds {l new : List Span} (hg : GivesAll nullPfn κ new κ') (hn : n < 2 ^ 36)
    (h : HeapInv n rgns κ κp tile) (hl : κ.Holds l) :
    (∃ κp' tile', HeapInv n rgns κ' κp' tile') ∧ κ'.Holds (l ++ new) := by
  induction hg generalizing κp tile l with
  | nil κ => exact ⟨⟨κp, tile, h⟩, by rwa [List.append_nil]⟩
  | @cons κ κ₁ κ' b new hb _ ih =>
    obtain ⟨⟨κp₁, tile₁, h₁⟩, howns, hnew⟩ := h.gives hn hb
    have hl₁ : κ₁.Holds (l ++ [b]) := by
      refine ⟨fun c hc => ?_, ?_⟩
      · rcases List.mem_append.mp hc with hc | hc
        · exact hb.owns (hl.owns c hc)
        · rwa [List.mem_singleton.mp hc]
      · rw [List.map_append, List.map_singleton]
        refine hl.nodup.append (List.nodup_singleton _) fun a ha ha' => ?_
        obtain ⟨c, hc, rfl⟩ := List.mem_map.mp ha
        exact hnew c (hl.owns c hc) (List.mem_singleton.mp ha')
    have := ih h₁ hl₁
    rwa [List.append_assoc] at this

end

/-! ## Page aligned answers -/

/-- The object that `get_object(size)` takes next is the first of its page: no page of the cache has a
    free object, or the first one that has begins with it. -/
def PageStart (st : SlabState) (size : ℕ) : Prop :=
  ∀ slab ∈ (st.caches (classOf size)).partialSlabs.find?
    (fun slab => (st.mm.memMap slab).freelist ≠ 0), 4096 ∣ (st.mm.memMap slab).freelist

instance (st : SlabState) (size : ℕ) : Decidable (PageStart st size) :=
  inferInstanceAs (Decidable (∀ slab ∈ List.find? _ _, 4096 ∣ (st.mm.memMap slab).freelist))

theorem dvd_physToVirt {phys : ℕ} : 4096 ∣ physToVirt phys ↔ 4096 ∣ phys := by
  rw [Nat.dvd_iff_mod_eq_zero, Nat.dvd_iff_mod_eq_zero, physToVirt, show 4096 = 2 ^ 12 by norm_num,
    Nat.or_mod_two_pow, show kernelVaddrBase % 2 ^ 12 = 0 by decide, Nat.or_zero]

theorem dvd_pageToPhys (pfn : ℕ) : 4096 ∣ pageToPhys pfn := by
  rw [pageToPhys, Nat.shiftLeft_eq]
  exact Dvd.intro_left pfn rfl

theorem dvd_slabAddress (p : ℕ) : 4096 ∣ slabAddress p := dvd_physToVirt.mpr (dvd_pageToPhys p)

/-- The first object of a new page is its start. -/
theorem dvd_takeObject_allocateSlab {st st' : SlabState} {idx p : ℕ}
    (h : allocateSlab st idx = .ok (some p, st')) : 4096 ∣ (takeObject st' p).1 := by
  obtain ⟨⟨r, mm⟩, -, hrest⟩ := bind_eq_ok.mp h
  cases r with
  | none => cases hrest
  | some slab =>
    obtain ⟨hp, rfl⟩ := Prod.mk.inj (Except.ok.inj hrest)
    obtain rfl := Option.some.inj hp
    simp only [takeObject, setPage_memMap, Function.update_self]
    exact dvd_slabAddress slab

theorem dvd_getObject_iff {st st' : SlabState} {size : ℕ} {r : Option ℕ}
    (h : getObject st size = .ok (r, st')) : 4096 ∣ r.getD 0 ↔ PageStart st size := by
  change getObject' st (classOf size) = _ at h
  rw [getObject'] at h
  unfold PageStart
  cases hfind : (st.caches (classOf size)).partialSlabs.find?
      (fun slab => (st.mm.memMap slab).freelist ≠ 0) with
  | some slab =>
    rw [hfind] at h
    obtain ⟨rfl, -⟩ := Prod.mk.inj (Except.ok.inj h)
    simp
  | none =>
    rw [hfind] at h
    obtain ⟨⟨r', st₁⟩, halloc, hrest⟩ := bind_eq_ok.mp h
    refine iff_of_true ?_ (by simp)
    cases r' with
    | none =>
      obtain ⟨rfl, -⟩ := Prod.mk.inj (Except.ok.inj hrest)
      exact dvd_zero _
    | some slab =>
      obtain ⟨rfl, -⟩ := Prod.mk.inj (Except.ok.inj hrest)
      exact dvd_takeObject_allocateSlab halloc

/-- **Page aligned answers.** In every state, `kmalloc(size)` returns a page aligned address exactly if
    `size` is a page or more, or the next object of its cache is the first of its page. -/
theorem kmalloc_dvd_iff {nullPfn size a : ℕ} {st st' : SlabState}
    (h : kmalloc nullPfn st size = .ok (a, st')) :
    4096 ∣ a ↔ pageSize ≤ size ∨ PageStart st size := by
  unfold kmalloc at h
  split_ifs at h with hsize
  · obtain ⟨⟨page, mm⟩, -, hrest⟩ := bind_eq_ok.mp h
    obtain ⟨rfl, -⟩ := Prod.mk.inj (Except.ok.inj hrest)
    refine iff_of_true (dvd_physToVirt.mpr ?_) (Or.inl hsize)
    exact (Nat.dvd_mod_iff (by decide)).mpr (dvd_pageToPhys _)
  · obtain ⟨⟨object, st₁⟩, hget, hrest⟩ := bind_eq_ok.mp h
    obtain ⟨rfl, -⟩ := Prod.mk.inj (Except.ok.inj hrest)
    rw [dvd_physToVirt, dvd_getObject_iff hget, or_iff_right hsize]

theorem physToVirt_physToVirt (phys : ℕ) : physToVirt (physToVirt phys) = physToVirt phys := by
  unfold physToVirt
  rw [Nat.or_assoc, Nat.or_self]

/-- A page has two objects at least. -/
theorem two_le_objects {i : ℕ} (hi : i < nrObjects) : 2 ≤ pageSize / 2 ^ (i + 3) := by
  have hle : 2 ^ (i + 3) ≤ 2 ^ 11 := Nat.pow_le_pow_right (by norm_num) (by unfold nrObjects at hi; omega)
  rw [Nat.le_div_iff_mul_le (Nat.two_pow_pos _)]
  show 2 * 2 ^ (i + 3) ≤ 4096
  omega

/-- Two objects of a class are next to each other, and at most one of them starts a page. -/
theorem not_dvd_next {p i : ℕ} (hi : i < nrObjects) : ¬ 4096 ∣ slabAddress p + 2 ^ (i + 3) := by
  intro hdvd
  have hle := Nat.le_of_dvd (Nat.two_pow_pos _) ((Nat.dvd_add_right (dvd_slabAddress p)).mp hdvd)
  have hlt : 2 ^ (i + 3) ≤ 2 ^ 11 := Nat.pow_le_pow_right (by norm_num) (by unfold nrObjects at hi; omega)
  omega

/-- The free list of a new page after its first object has been taken. -/
theorem takeObject_slabAdded {n : ℕ} {rgns : List Region} {κ : Kernel} {tile : Tiles}
    (h : KernelInv n rgns κ tile) (s' : MmState) {i p : ℕ} (hi : i < nrObjects) (hp : p < 2 ^ 36) :
    (takeObject (slabAdded κ s' i p) p).2.mm.memMap p =
      ⟨PG_slab, i, slabAddress p + 2 ^ (i + 3)⟩ := by
  -- the link of the first object leads to the second one
  have hnext : load (slabAdded κ s' i p).ram (slabAddress p) 8 = slabAddress p + 2 ^ (i + 3) := by
    have hchain := (slabAdded_ram h s' hi hp).1
    obtain ⟨m, hm⟩ := Nat.exists_eq_add_of_le' (two_le_objects hi)
    rw [hm, slots_succ, slots_succ] at hchain
    exact hchain.2.2.1
  simp only [takeObject, setPage_memMap, Function.update_self, slabAdded_page]
  rw [show physToVirt (slabAddress p) = slabAddress p from physToVirt_physToVirt _, hnext]

/-- The object after the first one of a new page is not page aligned. -/
theorem KernelInv.not_pageStart {n nullPfn size a : ℕ} {rgns : List Region} {κ κ' : Kernel}
    {tile : Tiles} (h : KernelInv n rgns κ tile) (hn : n ≤ 2 ^ 36) (hsize : size ≤ 2048)
    (hfull : ∀ slab ∈ (κ.caches (classOf size)).partialSlabs, (κ.sys.mm.memMap slab).freelist = 0)
    (hg : Gives nullPfn κ ⟨a, size⟩ κ') : ¬ PageStart κ'.state size := by
  have hlt : size < pageSize := lt_of_le_of_lt hsize (by decide)
  have hi := (classOf_spec hsize).1
  obtain ⟨st, hrun, rfl⟩ := hg.returns
  rw [record_object hlt]
  rw [kmalloc, if_neg (Nat.not_le.mpr hlt)] at hrun
  obtain ⟨⟨object, st₁⟩, hget, hst⟩ := bind_eq_ok.mp hrun
  obtain ⟨-, rfl⟩ := Prod.mk.inj (Except.ok.inj hst)
  change getObject' κ.state (classOf size) = _ at hget
  rcases getObject'_cases κ.state (classOf size) with ⟨slab, hslab, hfree, -⟩ | hcases
  · exact absurd (hfull slab hslab) hfree
  rw [hget] at hcases
  rcases allocPages_spec h.run.inv 0 with ⟨-, hall⟩ | ⟨p, s', _, halloc, _, ht⟩
  · refine absurd ?_ hg.left
    rw [NoMemory, if_neg (Nat.not_le.mpr hlt)]
    exact ⟨hfull, fun k hk => hall k (Nat.zero_le k) hk⟩
  rw [allocateSlab_eq halloc] at hcases
  obtain ⟨-, rfl⟩ := Prod.mk.inj (Except.ok.inj hcases)
  have hlist := takeObject_slabAdded h s' hi (lt_of_lt_of_le ht.lt hn)
  intro hstart
  have hfirst := hstart p
  simp only [Kernel.state, Kernel.setState, hlist] at hfirst
  refine not_dvd_next (p := p) hi (hfirst ?_)
  rw [show ((Mm.takeObject (slabAdded κ s' (classOf size) p) p).2.caches (classOf size)).partialSlabs =
      p :: (κ.caches (classOf size)).partialSlabs by simp [Mm.takeObject, slabAdded, pushSlab]]
  refine List.find?_cons_of_pos (decide_eq_true ?_)
  rw [hlist]
  exact (Nat.add_pos_right _ (Nat.two_pow_pos _)).ne'

end RaspiKernel.Mm
