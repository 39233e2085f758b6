import RaspiKernel.Mm.Kmalloc
import RaspiKernel.Mm.Limit

/-!
# Runs of `kmalloc` and `kfree`

A step of a run is a `kmalloc`, a `kfree` of a live block, or one of the steps of
`RaspiKernel.Mm.SlabRun`. On a state of a run, `kmalloc` and `kfree` are the calls
of the slab allocator and of the page allocator that they dispatch to
(`heapExec_eq`), as long as no size lies between the largest slab class and a
page. So the invariant of the slab allocator carries over, for any number of pages.

Results:
* `heapExec_eq`: `kmalloc` and `kfree` refine the calls below them.
* `heap_run_ok`: runs for any number of pages.
* `kmalloc_small_iff`: a request below a page is served exactly up to 2048 bytes.
-/

namespace RaspiKernel.Mm

open Lib
open Memblock (Region physToVirt virtToPhys kernelVaddrBase physToVirt_eq virtToPhys_eq)

/-! ## The steps -/

/-- The steps of a run. -/
inductive HeapOp where
  /-- `kmalloc(size)`. -/
  | kmalloc (size : ℕ)
  /-- `kfree` of the `i`-th live object. -/
  | kfreeObject (i : ℕ)
  /-- `kfree` of the `i`-th live block of pages. -/
  | kfreePages (i : ℕ)
  /-- A call below `kmalloc`, or a write. -/
  | call (op : SlabOp)

/-- No request is for a size between the largest object and a page. -/
def HeapOp.Valid : HeapOp → Prop
  | .kmalloc size => size ≤ 2048 ∨ pageSize ≤ size
  | .call op => op.Valid
  | _ => True

instance HeapOp.decidableValid (op : HeapOp) : Decidable op.Valid :=
  match op with
  | .kmalloc size => inferInstanceAs (Decidable (size ≤ 2048 ∨ pageSize ≤ size))
  | .kfreeObject _ => isTrue trivial
  | .kfreePages _ => isTrue trivial
  | .call op => inferInstanceAs (Decidable op.Valid)

/-- The call below. -/
def HeapOp.toSlab : HeapOp → SlabOp
  | .kmalloc size => if size ≥ pageSize then .page (.alloc (kmallocOrder size)) else .getObject size
  | .kfreeObject i => .freeObject i
  | .kfreePages i => .page (.free i)
  | .call op => op

/-- What the record of live blocks gains from `kmalloc`, which returned `a`. -/
def Kernel.record (κ : Kernel) (a size : ℕ) : Kernel :=
  if size ≥ pageSize then
    { κ with sys := { κ.sys with
        live := ⟨physToPage (virtToPhys a), kmallocOrder size⟩ :: κ.sys.live } }
  else { κ with objs := ⟨a, size⟩ :: κ.objs }

/-- One step. An address that stands for NULL is not recorded. -/
def Kernel.heapExec (nullPfn : ℕ) (κ : Kernel) : HeapOp → Except Stop Kernel
  | .kmalloc size => do
    let (a, st) ← Mm.kmalloc nullPfn κ.state size
    .ok (if NoMemory κ.state size then κ.setState st else (κ.setState st).record a size)
  | .kfreeObject i =>
    match κ.objs[i]? with
    | none => .ok κ
    | some o => do
      let st ← kfree κ.state o.addr
      .ok { κ.setState st with objs := κ.objs.eraseIdx i }
  | .kfreePages i =>
    match κ.sys.live[i]? with
    | none => .ok κ
    | some b => do
      let st ← kfree κ.state (slabAddress b.start)
      .ok { κ.setState st with sys := ⟨st.mm, κ.sys.live.eraseIdx i⟩ }
  | .call op => κ.exec op

/-- A sequence of steps. -/
def Kernel.heapRun (nullPfn : ℕ) (κ : Kernel) (ops : List HeapOp) : Except Stop Kernel :=
  ops.foldlM (Kernel.heapExec nullPfn) κ

/-! ## `kmalloc` and `kfree` refine the calls below -/

theorem physToPage_slabAddress {p : ℕ} (hp : p < 2 ^ 36) :
    physToPage (virtToPhys (slabAddress p)) = p :=
  Slot.page (p := p) (i := 0) (a := slabAddress p)
    ⟨Block.start_mem (pageBlock p), by
      rw [slabAddress_eq hp]
      exact ⟨(kernelVaddrBase + p * 4096) / 8, by unfold kernelVaddrBase slotBlock; dsimp only; omega⟩⟩ hp

section Refine

variable {n nullPfn : ℕ} {rgns : List Region} {κ : Kernel} {tile : Tiles}

theorem kmalloc_of_allocPages {st : SlabState} {size : ℕ} {page : Option ℕ} {mm : MmState}
    (hsize : pageSize ≤ size) (hrun : allocPages st.mm (kmallocOrder size) = .ok (page, mm)) :
    kmalloc nullPfn st size =
      .ok (physToVirt (pageToPhys (pageToPfn nullPfn page) % 2 ^ 64), { st with mm := mm }) := by
  simp only [kmalloc, ge_iff_le, hsize, if_true, hrun, bind, Except.bind]

theorem kmalloc_of_getObject {st st' : SlabState} {size : ℕ} {object : Option ℕ}
    (hsize : size < pageSize) (hrun : getObject st size = .ok (object, st')) :
    kmalloc nullPfn st size = .ok (physToVirt (object.getD 0), st') := by
  simp only [kmalloc, ge_iff_le, Nat.not_le.mpr hsize, if_false, hrun, bind, Except.bind]

theorem heapExec_kmalloc {size a : ℕ} {st : SlabState} (h : kmalloc nullPfn κ.state size = .ok (a, st)) :
    κ.heapExec nullPfn (.kmalloc size) =
      .ok (if NoMemory κ.state size then κ.setState st else (κ.setState st).record a size) := by
  simp only [Kernel.heapExec, h, bind, Except.bind]

theorem record_pages {a size : ℕ} (hsize : pageSize ≤ size) : κ.record a size =
    { κ with sys := { κ.sys with
        live := ⟨physToPage (virtToPhys a), kmallocOrder size⟩ :: κ.sys.live } } := if_pos hsize

theorem record_object {a size : ℕ} (hsize : size < pageSize) :
    κ.record a size = { κ with objs := ⟨a, size⟩ :: κ.objs } := if_neg (Nat.not_le.mpr hsize)

/-- The request for pages. -/
theorem KernelInv.kmalloc_pages (h : KernelInv n rgns κ tile) (hn : n ≤ 2 ^ 36) {size : ℕ}
    (hsize : pageSize ≤ size) :
    κ.heapExec nullPfn (.kmalloc size) = κ.exec (.page (.alloc (kmallocOrder size))) := by
  rcases allocPages_spec h.run.inv (kmallocOrder size) with ⟨hrun, hall⟩ | ⟨page, s', _, hrun, _, ht⟩
  · have hno : NoMemory κ.state size := by
      rw [NoMemory, if_pos hsize]
      exact fun k hlt hk => hall k hk hlt
    rw [heapExec_kmalloc (kmalloc_of_allocPages hsize hrun), if_pos hno]
    simp only [Kernel.exec, System.exec, hrun]
    rfl
  · have hpage : page < 2 ^ 36 := lt_of_lt_of_le ht.lt hn
    have hyes : ¬ NoMemory κ.state size := by
      intro hno
      rw [NoMemory, if_pos hsize] at hno
      have hnone := allocPages_of_empty fun k hk hlt => hno k hlt hk
      rw [show κ.state.mm = κ.sys.mm from rfl, hrun] at hnone
      cases hnone
    have haddr : physToVirt (pageToPhys (pageToPfn nullPfn (some page)) % 2 ^ 64) =
        slabAddress page := by
      rw [slabAddress, Nat.mod_eq_of_lt]
      · rfl
      · show page <<< 12 < 2 ^ 64
        rw [Nat.shiftLeft_eq]
        omega
    rw [heapExec_kmalloc (kmalloc_of_allocPages hsize hrun), if_neg hyes, haddr, record_pages hsize,
      physToPage_slabAddress hpage]
    simp only [Kernel.exec, System.exec, hrun]
    rfl

/-- `get_object` returns NULL only if there is no memory. -/
theorem KernelInv.noMemory_of_none (h : KernelInv n rgns κ tile) {size : ℕ} {st : SlabState}
    (hsize : size < pageSize) (hget : Mm.getObject κ.state size = .ok (none, st)) :
    NoMemory κ.state size := by
  have hdef : Mm.getObject κ.state size = getObject' κ.state (classOf size) := rfl
  have hfind : (κ.state.caches (classOf size)).partialSlabs.find?
      (fun slab => (κ.state.mm.memMap slab).freelist ≠ 0) = none := by
    by_contra hne
    obtain ⟨slab, hslab⟩ := Option.ne_none_iff_exists'.mp hne
    rw [hdef, getObject', hslab] at hget
    cases hget
  rw [NoMemory, if_neg (Nat.not_le.mpr hsize)]
  refine ⟨fun slab hslab => ?_, fun k hk => ?_⟩
  · simpa using List.find?_eq_none.mp hfind slab hslab
  · rcases allocPages_spec h.run.inv 0 with ⟨-, hall⟩ | ⟨page, s', _, hrun, -⟩
    · exact hall k (Nat.zero_le k) hk
    · rw [hdef, getObject', hfind] at hget
      simp only [Mm.allocateSlab, Kernel.state, hrun] at hget
      simp [bind, Except.bind] at hget

/-- The address that `get_object` returns is a kernel virtual address already. -/
theorem KernelInv.physToVirt_object (h : KernelInv n rgns κ tile) (hn : n ≤ 2 ^ 36) {o : Object}
    (ho : o ∈ κ.objs) : physToVirt o.addr = o.addr := by
  obtain ⟨hsize, p, hp, hslot⟩ := h.object o ho
  exact hslot.physToVirt (lt_of_lt_of_le (h.lt (classOf_spec hsize).1 hp) hn)

/-- The request for an object. -/
theorem KernelInv.kmalloc_object (h : KernelInv n rgns κ tile) (hn : n ≤ 2 ^ 36) {size : ℕ}
    (hsize : size ≤ 2048) : κ.heapExec nullPfn (.kmalloc size) = κ.exec (.getObject size) := by
  have hlt : size < pageSize := lt_of_le_of_lt hsize (by decide)
  obtain ⟨κ', tile', hexec, h'⟩ := h.getObject hn hsize
  rw [hexec]
  obtain ⟨⟨r, st⟩, hget, hrest⟩ := bind_eq_ok.mp hexec
  rw [heapExec_kmalloc (kmalloc_of_getObject hlt hget)]
  cases r with
  | none =>
    obtain rfl := Except.ok.inj hrest
    rw [if_pos (h.noMemory_of_none hlt hget)]
  | some a =>
    obtain rfl := Except.ok.inj hrest
    have hyes : ¬ NoMemory κ.state size := by
      intro hno
      rw [NoMemory, if_neg (Nat.not_le.mpr hlt)] at hno
      rw [getObject_of_empty hno.1 hno.2] at hget
      cases hget
    have haddr : physToVirt a = a := h'.physToVirt_object hn (o := ⟨a, size⟩) List.mem_cons_self
    rw [if_neg hyes, Option.getD_some, haddr, record_object hlt]
    rfl

theorem KernelInv.kfree_object (h : KernelInv n rgns κ tile) (hn : n ≤ 2 ^ 36) (i : ℕ) :
    κ.heapExec nullPfn (.kfreeObject i) = κ.exec (.freeObject i) := by
  simp only [Kernel.heapExec, Kernel.exec]
  cases hi : κ.objs[i]? with
  | none => rfl
  | some o =>
    obtain ⟨hsize, p, hp, hslot⟩ := h.object o (List.mem_of_getElem? hi)
    have hc := (classOf_spec hsize).1
    have hflags := h.flags hc hp
    have hfree : kfree κ.state o.addr = .ok (Mm.freeObject κ.state o.addr) := by
      rw [kfree, hslot.page (lt_of_lt_of_le (h.lt hc hp) hn)]
      exact if_pos hflags
    simp only [hfree, bind, Except.bind]

theorem KernelInv.kfree_pages (h : KernelInv n rgns κ tile) (hn : n ≤ 2 ^ 36) (i : ℕ) :
    κ.heapExec nullPfn (.kfreePages i) = κ.exec (.page (.free i)) := by
  simp only [Kernel.heapExec, Kernel.exec, System.exec]
  cases hi : κ.sys.live[i]? with
  | none => rfl
  | some b =>
    obtain ⟨hb, hbt⟩ := (h.run.live b).mp (List.mem_of_getElem? hi)
    obtain ⟨hflags, hpriv⟩ := h.run.inv.mark b.start hb .used b.order hbt
    have hno : ¬ (κ.sys.mm.memMap b.start).flags = PG_slab := by
      rw [hflags]
      decide
    have hfree : kfree κ.state (slabAddress b.start) =
        (freeOnePage κ.sys.mm b.start b.start b.order >>= fun mm => .ok { κ.state with mm := mm }) := by
      rw [kfree, physToPage_slabAddress (lt_of_lt_of_le hb hn)]
      simp only [Kernel.state, hno, if_false, buddyOrder, hpriv]
    simp only [hfree]
    cases freeOnePage κ.sys.mm b.start b.start b.order <;> rfl

/-- **Refinement.** On a state of a run, `kmalloc` and `kfree` are the calls they dispatch to. -/
theorem heapExec_eq (h : KernelInv n rgns κ tile) (hn : n ≤ 2 ^ 36) {op : HeapOp} (hop : op.Valid) :
    κ.heapExec nullPfn op = κ.exec op.toSlab := by
  cases op with
  | kmalloc size =>
    by_cases hsize : pageSize ≤ size
    · rw [h.kmalloc_pages hn hsize, HeapOp.toSlab, if_pos hsize]
    · rw [h.kmalloc_object hn (hop.resolve_right hsize), HeapOp.toSlab, if_neg hsize]
  | kfreeObject i => exact h.kfree_object hn i
  | kfreePages i => exact h.kfree_pages hn i
  | call op => rfl

theorem toSlab_valid {op : HeapOp} (hop : op.Valid) : op.toSlab.Valid := by
  cases op with
  | kmalloc size =>
    rw [HeapOp.toSlab]
    split_ifs with hsize
    · trivial
    · exact hop.resolve_right hsize
  | kfreeObject i => trivial
  | kfreePages i => trivial
  | call op => exact hop

theorem KernelInv.heapExec_ok (h : KernelInv n rgns κ tile) (hn : n ≤ 2 ^ 36) (nullPfn : ℕ)
    {op : HeapOp} (hop : op.Valid) :
    ∃ κ' tile', κ.heapExec nullPfn op = .ok κ' ∧ KernelInv n rgns κ' tile' := by
  rw [heapExec_eq h hn hop]
  exact h.exec_ok hn (toSlab_valid hop)

end Refine

/-! ## Any number of pages -/

/-- `st'` is `st` over a longer `mem_map`. -/
structure PaddedSlab (n : ℕ) (st st' : SlabState) : Prop where
  mm : Padded n st.mm st'.mm
  caches : st'.caches = st.caches
  ram : st'.ram = st.ram

/-- The same answer, and states that are padded again. -/
def PaddedAnswer {α : Type} (n : ℕ) (r r' : α × SlabState) : Prop :=
  r'.1 = r.1 ∧ PaddedSlab n r.2 r'.2

/-- `κ'` is `κ` over a longer `mem_map`. -/
structure PaddedKernel (n : ℕ) (κ κ' : Kernel) : Prop where
  sys : PaddedSystem n κ.sys κ'.sys
  caches : κ'.caches = κ.caches
  ram : κ'.ram = κ.ram
  objs : κ'.objs = κ.objs

section Padded

variable {n nullPfn : ℕ} {st st' : SlabState} {κ κ' : Kernel}

theorem PaddedSlab.takeObject (h : PaddedSlab n st st') (slab : ℕ) :
    PaddedAnswer n (takeObject st slab) (takeObject st' slab) := by
  have hfree := (h.mm.page slab).freelist
  refine ⟨hfree, ?_, h.caches, h.ram⟩
  simp only [Mm.takeObject, hfree, h.ram]
  exact h.mm.setPage ((h.mm.page slab).setFreelist _)

theorem PaddedSlab.allocateSlab (h : PaddedSlab n st st') (idx : ℕ) :
    Follows (PaddedAnswer n) (allocateSlab st idx) (allocateSlab st' idx) := by
  refine (h.mm.allocPages 0).bind ?_
  rintro ⟨r, mm⟩ ⟨r', mm'⟩ ⟨hr, hmm⟩
  obtain rfl : r' = r := hr
  cases r' with
  | none => exact Follows.ok ⟨rfl, hmm, h.caches, h.ram⟩
  | some slab =>
    have hslab := hmm.setFlags slab PG_slab
    have hpriv := hslab.setPage ((hslab.page slab).setPriv idx)
    refine Follows.ok ⟨rfl, hpriv.setPage ((hpriv.page slab).setFreelist _), ?_, ?_⟩
    · simp only [h.caches]
    · simp only [h.caches, h.ram]

theorem PaddedSlab.getObject (h : PaddedSlab n st st') (size : ℕ) :
    Follows (PaddedAnswer n) (getObject st size) (getObject st' size) := by
  have hfind : (fun slab => decide ((st'.mm.memMap slab).freelist ≠ 0)) =
      fun slab => decide ((st.mm.memMap slab).freelist ≠ 0) := by
    funext slab
    rw [(h.mm.page slab).freelist]
  rw [Mm.getObject, Mm.getObject, getObject', getObject', h.caches, hfind]
  cases List.find? _ _ with
  | some slab =>
    obtain ⟨haddr, hst⟩ := h.takeObject slab
    exact Follows.ok ⟨congrArg some haddr, hst⟩
  | none =>
    refine (h.allocateSlab _).bind ?_
    rintro ⟨r, s⟩ ⟨r', s'⟩ ⟨hr, hs⟩
    obtain rfl : r' = r := hr
    cases r' with
    | none => exact Follows.ok ⟨rfl, hs⟩
    | some slab =>
      obtain ⟨haddr, hst⟩ := hs.takeObject slab
      exact Follows.ok ⟨congrArg some haddr, hst⟩

theorem PaddedSlab.freeObject (h : PaddedSlab n st st') (object : ℕ) :
    PaddedSlab n (freeObject st object) (freeObject st' object) := by
  set slab := physToPage (virtToPhys object) with hslab
  have hflags := (h.mm.page slab).flags_eq_iff (f := PG_slab) (by decide) (by decide)
  unfold Mm.freeObject
  rw [← hslab]
  by_cases hs : (st.mm.memMap slab).flags = PG_slab
  · rw [if_neg (not_not.mpr hs), if_neg (not_not.mpr (hflags.mpr hs))]
    refine ⟨h.mm.setPage ((h.mm.page slab).setFreelist object), h.caches, ?_⟩
    simp only [h.caches, h.ram, (h.mm.page slab).priv, (h.mm.page slab).freelist]
  · rw [if_pos hs, if_pos fun hs' => hs (hflags.mp hs')]
    exact h

theorem PaddedSlab.kmalloc (h : PaddedSlab n st st') (nullPfn size : ℕ) :
    Follows (PaddedAnswer n) (kmalloc nullPfn st size) (kmalloc nullPfn st' size) := by
  unfold Mm.kmalloc
  split_ifs
  · refine (h.mm.allocPages _).bind ?_
    rintro ⟨r, mm⟩ ⟨r', mm'⟩ ⟨hr, hmm⟩
    obtain rfl : r' = r := hr
    exact Follows.ok ⟨rfl, hmm, h.caches, h.ram⟩
  · refine (h.getObject size).bind ?_
    rintro ⟨r, s⟩ ⟨r', s'⟩ ⟨hr, hs⟩
    obtain rfl : r' = r := hr
    exact Follows.ok ⟨rfl, hs⟩

theorem PaddedSlab.kfree (h : PaddedSlab n st st') (obj : ℕ) :
    Follows (PaddedSlab n) (kfree st obj) (kfree st' obj) := by
  set page := physToPage (virtToPhys obj) with hpage
  have hflags := (h.mm.page page).flags_eq_iff (f := PG_slab) (by decide) (by decide)
  unfold Mm.kfree
  rw [← hpage]
  by_cases hs : (st.mm.memMap page).flags = PG_slab
  · rw [if_pos hs, if_pos (hflags.mpr hs)]
    exact Follows.ok (h.freeObject obj)
  · rw [if_neg hs, if_neg fun hs' => hs (hflags.mp hs')]
    simp only [buddyOrder, (h.mm.page page).priv]
    exact (h.mm.freeOnePage page page _).bind fun mm mm' hmm => Follows.ok ⟨hmm, h.caches, h.ram⟩

theorem PaddedSlab.noMemory_iff (h : PaddedSlab n st st') (size : ℕ) :
    NoMemory st' size ↔ NoMemory st size := by
  unfold NoMemory
  simp only [h.caches, h.mm.freeArea, (h.mm.page _).freelist]

theorem PaddedKernel.state (h : PaddedKernel n κ κ') : PaddedSlab n κ.state κ'.state :=
  ⟨h.sys.mm, h.caches, h.ram⟩

theorem PaddedKernel.setState (h : PaddedKernel n κ κ') (hst : PaddedSlab n st st') :
    PaddedKernel n (κ.setState st) (κ'.setState st') :=
  ⟨⟨hst.mm, h.sys.live⟩, hst.caches, hst.ram, h.objs⟩

theorem PaddedKernel.record (h : PaddedKernel n κ κ') (a size : ℕ) :
    PaddedKernel n (κ.record a size) (κ'.record a size) := by
  unfold Kernel.record
  split_ifs
  · exact ⟨⟨h.sys.mm, by simp only [h.sys.live]⟩, h.caches, h.ram, h.objs⟩
  · exact ⟨h.sys, h.caches, h.ram, by simp only [h.objs]⟩

theorem PaddedKernel.exec (h : PaddedKernel n κ κ') (op : SlabOp) :
    Follows (PaddedKernel n) (κ.exec op) (κ'.exec op) := by
  cases op with
  | getObject size =>
    refine (h.state.getObject size).bind ?_
    rintro ⟨r, s⟩ ⟨r', s'⟩ ⟨hr, hs⟩
    obtain rfl : r' = r := hr
    have hset := h.setState hs
    cases r' with
    | none => exact Follows.ok hset
    | some a => exact Follows.ok ⟨hset.sys, hset.caches, hset.ram, congrArg (⟨a, size⟩ :: ·) h.objs⟩
  | freeObject i =>
    simp only [Kernel.exec, h.objs]
    cases κ.objs[i]? with
    | none => exact Follows.ok h
    | some o =>
      have hset := h.setState (h.state.freeObject o.addr)
      exact Follows.ok ⟨hset.sys, hset.caches, hset.ram, rfl⟩
  | write i off v =>
    simp only [Kernel.exec, h.objs, h.ram]
    cases κ.objs[i]? with
    | none => exact Follows.ok h
    | some o =>
      dsimp only
      split_ifs
      · exact Follows.ok ⟨h.sys, h.caches, rfl, rfl⟩
      · exact Follows.ok h
  | page op =>
    exact (h.sys.exec op).bind fun σ σ' hσ => Follows.ok ⟨hσ, h.caches, h.ram, h.objs⟩

/-- A step follows the step over the longer array. -/
theorem PaddedKernel.heapExec (h : PaddedKernel n κ κ') (op : HeapOp) :
    Follows (PaddedKernel n) (κ.heapExec nullPfn op) (κ'.heapExec nullPfn op) := by
  cases op with
  | kmalloc size =>
    refine (h.state.kmalloc nullPfn size).bind ?_
    rintro ⟨a, s⟩ ⟨a', s'⟩ ⟨ha, hs⟩
    obtain rfl : a' = a := ha
    have hset := h.setState hs
    simp only [h.state.noMemory_iff]
    split_ifs
    · exact Follows.ok hset
    · exact Follows.ok (hset.record a' size)
  | kfreeObject i =>
    simp only [Kernel.heapExec, h.objs]
    cases κ.objs[i]? with
    | none => exact Follows.ok h
    | some o =>
      refine (h.state.kfree o.addr).bind fun s s' hs => ?_
      have hset := h.setState hs
      exact Follows.ok ⟨hset.sys, hset.caches, hset.ram, rfl⟩
  | kfreePages i =>
    simp only [Kernel.heapExec, h.sys.live]
    cases κ.sys.live[i]? with
    | none => exact Follows.ok h
    | some b =>
      refine (h.state.kfree _).bind fun s s' hs => ?_
      have hset := h.setState hs
      exact Follows.ok ⟨⟨hs.mm, rfl⟩, hset.caches, hset.ram, h.objs⟩
  | call op => exact h.exec op

theorem kernel_boot_follows (n : ℕ) (rgns : List Region) (caches : ℕ → KmemCache) (ram : Mem) :
    Follows (PaddedKernel n) (Kernel.boot rgns n caches ram)
      (Kernel.boot (padRegions n rgns) (padPages n) caches ram) :=
  (boot_follows n rgns).bind fun _ _ h => Follows.ok ⟨⟨h.mm, h.live⟩, rfl, rfl, rfl⟩

end Padded

/-- A state of a run over any number of pages, and the invariant of the longer array. -/
structure HeapInv (n : ℕ) (rgns : List Region) (κ κ' : Kernel) (tile : Tiles) : Prop where
  padded : PaddedKernel n κ κ'
  inv : KernelInv (padPages n) (padRegions n rgns) κ' tile

theorem padPages_le {n : ℕ} (hn : n < 2 ^ 36) : padPages n ≤ 2 ^ 36 := by
  unfold padPages
  omega

/-- Runs over any number of pages come back. -/
theorem heap_run_ok {n : ℕ} (hn : n < 2 ^ 36) (nullPfn : ℕ) (rgns : List Region)
    (caches : ℕ → KmemCache) (ram : Mem) (ops : List HeapOp) (hops : ∀ op ∈ ops, op.Valid) :
    ∃ κ₀ κ κ' tile, Kernel.boot rgns n caches ram = .ok κ₀ ∧ κ₀.heapRun nullPfn ops = .ok κ ∧
      HeapInv n rgns κ κ' tile := by
  obtain ⟨κ₀', tile₀, hboot', h₀⟩ := kernel_boot_ok (dvd_padPages n) (padRegions n rgns) caches ram
  obtain ⟨κ₀, hboot, hp₀⟩ := kernel_boot_follows n rgns caches ram κ₀' hboot'
  have hstep : ∀ op ∈ ops, ∀ κ, (∃ κ' tile, HeapInv n rgns κ κ' tile) →
      ∃ τ, κ.heapExec nullPfn op = .ok τ ∧ ∃ τ' tile', HeapInv n rgns τ τ' tile' := by
    rintro op hop κ ⟨κ', tile, h⟩
    obtain ⟨τ', tile', hexec', h'⟩ :=
      h.inv.heapExec_ok (padPages_le hn) nullPfn (hops op hop)
    obtain ⟨τ, hexec, hp⟩ := h.padded.heapExec op τ' hexec'
    exact ⟨τ, hexec, τ', tile', hp, h'⟩
  obtain ⟨κ, hrun, κ', tile, h⟩ := foldlM_ok hstep κ₀ ⟨κ₀', tile₀, hp₀, h₀⟩
  exact ⟨κ₀, κ, κ', tile, hboot, hrun, h⟩

/-! ## Requests below a page -/

/-- The addresses of a block of pages. -/
def pagesBlock (b : Block) : Block := ⟨slabAddress b.start, b.order + 12⟩

/-- There is a free page. -/
def PagesLeft (κ : Kernel) : Prop := ∃ k < maxOrder, (κ.sys.mm.freeArea k).freeList ≠ []

/-- `kmalloc(size)` takes a cache of `kmem_caches` and returns an object of it. -/
structure SmallServed (nullPfn : ℕ) (κ : Kernel) (size : ℕ) : Prop where
  index : classOf size < nrObjects
  /-- The object has at least `size` bytes, lies in a slab page and meets no live block. -/
  object : ∃ a st, kmalloc nullPfn κ.state size = .ok (a, st) ∧ size ≤ objectSize (classOf size) ∧
    (∃ p, (st.mm.memMap p).flags = PG_slab ∧ ∀ x ∈ slotBlock (classOf size) a, x ∈ pageBlock p) ∧
    (∀ o ∈ κ.objs, ∀ x ∈ slotBlock (classOf size) a, x ∉ o.block) ∧
    ∀ b ∈ κ.sys.live, ∀ x ∈ slotBlock (classOf size) a, x ∉ pagesBlock b

section Small

variable {n nullPfn : ℕ} {rgns : List Region} {κ κ' : Kernel} {tile : Tiles}

/-- An address in a block of pages is in a page of the block. -/
theorem exists_page_of_mem {b : Block} {x : ℕ} (hb : ∀ q ∈ b, q < 2 ^ 36)
    (hx : x ∈ pagesBlock b) : ∃ q ∈ b, x ∈ pageBlock q := by
  rw [pagesBlock, Block.mem_def] at hx
  dsimp only at hx
  have hstart := hb b.start b.start_mem
  rw [slabAddress_eq hstart, pow_add] at hx
  obtain ⟨hlow, hhigh⟩ := hx
  set d := (x - (kernelVaddrBase + b.start * 4096)) / 4096 with hd
  have hq : b.start + d ∈ b := by
    refine ⟨Nat.le_add_right _ _, Nat.add_lt_add_left ?_ _⟩
    rw [hd, Nat.div_lt_iff_lt_mul (by norm_num)]
    omega
  refine ⟨b.start + d, hq, ?_⟩
  rw [pageBlock, Block.mem_def, slabAddress_eq (hb _ hq)]
  dsimp only
  omega

/-- A slab page is in no block of pages. -/
theorem KernelInv.slab_not_mem_live (h : KernelInv n rgns κ tile) (hn : n ≤ 2 ^ 36) {i p x : ℕ}
    (hi : i < nrObjects) (hp : p ∈ (κ.caches i).partialSlabs) (hx : x ∈ pageBlock p) {b : Block}
    (hb : b ∈ κ.sys.live) : x ∉ pagesBlock b := by
  intro hxb
  obtain ⟨hbn, hbt⟩ := (h.run.live b).mp hb
  have htile := fun q (hq : q ∈ b) => h.run.inv.tiling.tile_eq_of_mem hbn hbt hq
  obtain ⟨q, hq, hxq⟩ := exists_page_of_mem
    (fun q hq => lt_of_lt_of_le (htile q hq).1 hn) hxb
  obtain ⟨hqn, hqt⟩ := htile q hq
  obtain rfl := pageBlock_inj (lt_of_lt_of_le (h.lt hi hp) hn) (lt_of_lt_of_le hqn hn) hx hxq
  have hslab := ((h.run.slab p).mp (mem_slabPages.mpr ⟨i, hi, hp⟩)).2
  rw [hqt] at hslab
  cases hslab

theorem not_noMemory {size : ℕ} (hleft : PagesLeft κ) (hsize : size < pageSize) :
    ¬ NoMemory κ.state size := by
  obtain ⟨k, hk, hne⟩ := hleft
  intro hno
  rw [NoMemory, if_neg (Nat.not_le.mpr hsize)] at hno
  exact hne (hno.2 k hk)

/-- Up to 2048 bytes, a request is served. -/
theorem KernelInv.smallServed (h : KernelInv n rgns κ tile) (hn : n ≤ 2 ^ 36) (hleft : PagesLeft κ)
    {size : ℕ} (hsize : size ≤ 2048) : SmallServed nullPfn κ size := by
  have hlt : size < pageSize := lt_of_le_of_lt hsize (by decide)
  obtain ⟨hindex, hfits, -⟩ := classOf_spec hsize
  obtain ⟨κ₁, tile', hexec, h₁⟩ :=
    h.heapExec_ok hn nullPfn (show HeapOp.Valid (.kmalloc size) from Or.inl hsize)
  obtain ⟨⟨a, st⟩, hrun, -⟩ := bind_eq_ok.mp hexec
  rw [heapExec_kmalloc hrun, if_neg (not_noMemory hleft hlt), record_object hlt] at hexec
  obtain rfl := Except.ok.inj hexec
  -- the new object is the first of the record
  obtain ⟨-, p, hp, hslot⟩ := h₁.object ⟨a, size⟩ List.mem_cons_self
  have hinside : ∀ x ∈ slotBlock (classOf size) a, x ∈ pageBlock p := fun x hx =>
    hslot.subset (lt_of_lt_of_le (h₁.lt hindex hp) hn) hindex hx
  refine ⟨hindex, a, st, hrun, hfits, ⟨p, h₁.flags hindex hp, hinside⟩, ?_, ?_⟩
  · intro o ho x hx
    exact (List.pairwise_cons.mp (h₁.contract hn).disjoint).1 o ho x hx
  · intro b hb x hx
    exact h₁.slab_not_mem_live hn hindex hp (hinside x hx) hb

theorem SmallServed.of_padded (hp : PaddedKernel n κ κ') {size : ℕ}
    (h : SmallServed nullPfn κ' size) : SmallServed nullPfn κ size := by
  obtain ⟨a, st', hrun', hfits, ⟨p, hflags, hinside⟩, hobjs, hlive⟩ := h.object
  obtain ⟨⟨_, st⟩, hrun, rfl, hst⟩ := hp.state.kmalloc nullPfn size _ hrun'
  have hiff := (hst.mm.page p).flags_eq_iff (f := PG_slab) (by decide) (by decide)
  rw [hp.objs] at hobjs
  rw [hp.sys.live] at hlive
  exact ⟨h.index, _, st, hrun, hfits, ⟨p, hiff.mp hflags, hinside⟩, hobjs, hlive⟩

/-- The class of a size above 2048 is behind the array. -/
theorem not_smallServed {size : ℕ} (hsize : 2048 < size) : ¬ SmallServed nullPfn κ size := by
  intro h
  have hfits : size ≤ objectSize (classOf size) := by
    obtain ⟨-, -, -, hfits, -⟩ := h.object
    exact hfits
  have hindex := h.index
  rw [objectSize_eq] at hfits
  have hmono : 2 ^ (classOf size + 3) ≤ 2 ^ 11 :=
    Nat.pow_le_pow_right (by norm_num) (by unfold nrObjects at hindex; omega)
  omega

end Small

/-- **Requests below a page.** After every run that asks for no size between 2048 and a page, while
    free pages are left, a request below a page is served from `kmem_caches` exactly if it is for at
    most 2048 bytes. (`phys_addr_max` is an `unsigned int`, so there are fewer than `2 ^ 20` pages.) -/
theorem kmalloc_small_iff (nullPfn : ℕ) {nrPages : ℕ} (hn : nrPages < 2 ^ 36) (rgns : List Region)
    (caches : ℕ → KmemCache) (ram : Mem) (ops : List HeapOp) (hops : ∀ op ∈ ops, op.Valid) :
    ∃ κ₀ κ, Kernel.boot rgns nrPages caches ram = .ok κ₀ ∧ κ₀.heapRun nullPfn ops = .ok κ ∧
      (PagesLeft κ → ∀ size < pageSize, (SmallServed nullPfn κ size ↔ size ≤ 2048)) := by
  obtain ⟨κ₀, κ, κ', tile, hboot, hrun, h⟩ := heap_run_ok hn nullPfn rgns caches ram ops hops
  refine ⟨κ₀, κ, hboot, hrun, fun hleft size _ => ⟨fun hs => ?_, fun hsize => ?_⟩⟩
  · by_contra hlt
    exact not_smallServed (by omega) hs
  · have hleft' : PagesLeft κ' := by
      unfold PagesLeft
      rwa [h.padded.sys.mm.freeArea]
    exact (h.inv.smallServed (padPages_le hn) hleft' hsize).of_padded h.padded

theorem kmalloc_small_iff_1000 : ∃ κ₀ κ,
    Kernel.boot [⟨0, 0x80000⟩] 1000 (fun _ => kmemCacheInit 0) (fun _ => 0) = .ok κ₀ ∧
      κ₀.heapRun 0 [.kmalloc 24, .kmalloc 5000, .kfreeObject 0, .kmalloc 2048, .kfreePages 0] =
        .ok κ ∧
      (PagesLeft κ → ∀ size < pageSize, (SmallServed 0 κ size ↔ size ≤ 2048)) :=
  kmalloc_small_iff 0 (by decide) _ _ _ _ (by decide)

/-- Right after boot, a request for 2049 bytes is served by a cache behind `kmem_caches`. -/
theorem kmalloc_2049 : ∃ κ,
    Kernel.boot [⟨0, 0x80000⟩] 512 (fun _ => kmemCacheInit 0) (fun _ => 0) = .ok κ ∧
      PagesLeft κ ∧ 2049 < pageSize ∧ classOf 2049 = nrObjects ∧ ¬ SmallServed 0 κ 2049 := by
  obtain ⟨σ, tile, hboot, h⟩ := boot_ok (n := 512) (by decide) [⟨0, 0x80000⟩]
  refine ⟨Kernel.setState ⟨σ, fun _ => kmemCacheInit 0, fun _ => 0, []⟩
      (slabInit ⟨σ.mm, fun _ => kmemCacheInit 0, fun _ => 0⟩),
    by simp only [Kernel.boot, hboot]; rfl, ?_, by decide, by decide, not_smallServed (by norm_num)⟩
  -- the last page is neither reserved nor live
  have hlive : σ.live = [] := by
    obtain ⟨mm, -, hmm⟩ := bind_eq_ok.mp hboot
    obtain rfl := Except.ok.inj hmm
    rfl
  have hfree : σ.FreePage 512 [⟨0, 0x80000⟩] 511 :=
    ⟨by decide, by decide, fun b hb => by rw [hlive] at hb; cases hb⟩
  obtain ⟨hk, hmem, -⟩ := h.mem_freeList_of_freePage hfree
  exact ⟨_, hk, List.ne_nil_of_mem hmem⟩

end RaspiKernel.Mm
