import RaspiKernel.Mm.SlabInv

/-!
# Runs of the slab allocator

A run starts with `slab_init` on the page allocator that `buddy_init` leaves, and
makes any sequence of `get_object` calls with sizes up to 2048, of `free_object`
calls on live objects, of writes of its users inside live objects, and of calls
of the page allocator itself.

Results:
* `run_slab`: every call comes back; the live objects are disjoint and of the
  right class; every free list is a chain of exactly the objects that are not
  live.
-/

namespace RaspiKernel.Mm

open Lib
open Memblock (Region)

/-! ## The system -/

/-- A live object: what `get_object(size)` returned. -/
structure Object where
  addr : ℕ
  size : ℕ
  deriving DecidableEq, Repr

/-- The bytes of the object, as many as its class has. -/
def Object.block (o : Object) : Block := slotBlock (classOf o.size) o.addr

/-- The allocators and what their users hold. -/
structure Kernel where
  sys : System
  caches : ℕ → KmemCache
  ram : Mem
  objs : List Object

def Kernel.state (κ : Kernel) : SlabState := ⟨κ.sys.mm, κ.caches, κ.ram⟩

/-- Replace the allocator's part. -/
def Kernel.setState (κ : Kernel) (st : SlabState) : Kernel :=
  { κ with sys := { κ.sys with mm := st.mm }, caches := st.caches, ram := st.ram }

/-- The steps of a run. -/
inductive SlabOp where
  /-- `get_object(size)`. -/
  | getObject (size : ℕ)
  /-- `free_object` on the `i`-th live object. -/
  | freeObject (i : ℕ)
  /-- The user of the `i`-th live object writes its byte `off`. -/
  | write (i off : ℕ) (v : UInt8)
  /-- A call of the page allocator. -/
  | page (op : Op)

/-- The documented precondition of `get_object`. -/
def SlabOp.Valid : SlabOp → Prop
  | .getObject size => size ≤ 2048
  | _ => True

instance SlabOp.decidableValid (op : SlabOp) : Decidable op.Valid :=
  match op with
  | .getObject size => inferInstanceAs (Decidable (size ≤ 2048))
  | .freeObject _ => isTrue trivial
  | .write _ _ _ => isTrue trivial
  | .page _ => isTrue trivial

/-- One step. -/
def Kernel.exec (κ : Kernel) : SlabOp → Except Stop Kernel
  | .getObject size => do
    match ← getObject κ.state size with
    | (none, st) => .ok (κ.setState st)
    | (some a, st) => .ok { κ.setState st with objs := ⟨a, size⟩ :: κ.objs }
  | .freeObject i =>
    match κ.objs[i]? with
    | none => .ok κ
    | some o => .ok { κ.setState (freeObject κ.state o.addr) with objs := κ.objs.eraseIdx i }
  | .write i off v =>
    match κ.objs[i]? with
    | none => .ok κ
    | some o =>
      .ok (if o.addr + off ∈ o.block then
        { κ with ram := Function.update κ.ram (o.addr + off) v } else κ)
  | .page op => do
    let sys ← κ.sys.exec op
    .ok { κ with sys := sys }

/-- A sequence of steps. -/
def Kernel.run (κ : Kernel) (ops : List SlabOp) : Except Stop Kernel := ops.foldlM Kernel.exec κ

/-- `slab_init` after `buddy_init`, with arbitrary memory and contents of `kmem_caches`. -/
def Kernel.boot (rgns : List Region) (nrPages : ℕ) (caches : ℕ → KmemCache) (ram : Mem) :
    Except Stop Kernel := do
  let sys ← System.boot rgns nrPages
  .ok (Kernel.setState ⟨sys, caches, ram, []⟩ (slabInit ⟨sys.mm, caches, ram⟩))

/-! ## The invariant -/

/-- `l` is the free list of page `p`, whose objects have class `i`: a chain of exactly the objects
    that are not live. -/
structure FreeList (ram : Mem) (freelist : ℕ) (objs : List Object) (p i : ℕ) (l : List ℕ) :
    Prop where
  chain : Chain ram freelist l
  nodup : l.Nodup
  mem_iff : ∀ a, a ∈ l ↔ Slot p i a ∧ ∀ o ∈ objs, o.addr ≠ a

/-- The pages on the lists of the caches. -/
def slabPages (caches : ℕ → KmemCache) : List ℕ :=
  (List.range nrObjects).flatMap fun i => (caches i).partialSlabs

theorem mem_slabPages {caches : ℕ → KmemCache} {p : ℕ} :
    p ∈ slabPages caches ↔ ∃ i < nrObjects, p ∈ (caches i).partialSlabs := by
  simp [slabPages]

/-- The invariant of a run. -/
structure KernelInv (n : ℕ) (rgns : List Region) (κ : Kernel) (tile : Tiles) : Prop where
  run : RunInv n rgns (slabPages κ.caches) κ.sys tile
  flagged : ∀ p, (κ.sys.mm.memMap p).flags = PG_slab → p ∈ slabPages κ.caches
  cache : ∀ i < nrObjects, (κ.caches i).size = 2 ^ (i + 3) ∧ (κ.caches i).offset = 0
  slab : ∀ i < nrObjects, ∀ p ∈ (κ.caches i).partialSlabs, (κ.sys.mm.memMap p).priv = i ∧
    ∃ l, FreeList κ.ram (κ.sys.mm.memMap p).freelist κ.objs p i l
  object : ∀ o ∈ κ.objs, o.size ≤ 2048 ∧
    ∃ p ∈ (κ.caches (classOf o.size)).partialSlabs, Slot p (classOf o.size) o.addr
  nodup : (κ.objs.map Object.addr).Nodup

section Invariant

variable {n : ℕ} {rgns : List Region} {κ : Kernel} {tile : Tiles}

theorem KernelInv.lt (h : KernelInv n rgns κ tile) {i p : ℕ} (hi : i < nrObjects)
    (hp : p ∈ (κ.caches i).partialSlabs) : p < n :=
  ((h.run.slab p).mp (mem_slabPages.mpr ⟨i, hi, hp⟩)).1

theorem KernelInv.flags (h : KernelInv n rgns κ tile) {i p : ℕ} (hi : i < nrObjects)
    (hp : p ∈ (κ.caches i).partialSlabs) : (κ.sys.mm.memMap p).flags = PG_slab := by
  obtain ⟨hpn, hs⟩ := (h.run.slab p).mp (mem_slabPages.mpr ⟨i, hi, hp⟩)
  exact h.run.inv.mark p hpn .slab 0 (Prod.ext hs (h.run.slab_order p hpn hs))

/-- A page is on the list of one cache only. -/
theorem KernelInv.class_eq (h : KernelInv n rgns κ tile) {i j p : ℕ} (hi : i < nrObjects)
    (hj : j < nrObjects) (hp : p ∈ (κ.caches i).partialSlabs)
    (hp' : p ∈ (κ.caches j).partialSlabs) : i = j :=
  (h.slab i hi p hp).1.symm.trans (h.slab j hj p hp').1

/-- A free object does not meet a live one. -/
theorem KernelInv.free_apart (h : KernelInv n rgns κ tile) (hn : n ≤ 2 ^ 36) {i p a : ℕ}
    (hi : i < nrObjects) (hp : p ∈ (κ.caches i).partialSlabs) (ha : Slot p i a) {o : Object}
    (ho : o ∈ κ.objs) (hne : o.addr ≠ a) {x : ℕ} (hx : x ∈ o.block) : x ∉ slotBlock i a := by
  obtain ⟨hsize, q, hq, hslot⟩ := h.object o ho
  have hc := (classOf_spec hsize).1
  refine slot_apart hslot ha (lt_of_lt_of_le (h.lt hc hq) hn) (lt_of_lt_of_le (h.lt hi hp) hn) hc hi
    ?_ hne hx
  rintro rfl
  exact h.class_eq hc hi hq hp

/-- The page allocator does not look at `freelist`. -/
theorem RunInv.setFreelist {slabs : List ℕ} {σ : System} (h : RunInv n rgns slabs σ tile)
    (p v : ℕ) : RunInv n rgns slabs
      { σ with mm := σ.mm.setPage p { σ.mm.memMap p with freelist := v } } tile where
  inv := by
    refine h.inv.of_free_iff h.inv.tiling h.inv.order_lt rfl (fun _ _ _ => Iff.rfl) ?_
    intro x hx t k ht
    have hm := h.inv.mark x hx t k ht
    rw [setPage_memMap]
    by_cases hxp : x = p
    · subst hxp
      rw [Function.update_self]
      cases t <;> exact hm
    · rwa [Function.update_of_ne hxp]
  owner := h.owner
  reserved := h.reserved
  slab := h.slab
  slab_order := h.slab_order
  live := h.live
  nodup := h.nodup

theorem KernelInv.flagged_setFreelist (h : KernelInv n rgns κ tile) (p v : ℕ) (q : ℕ)
    (hq : ((κ.sys.mm.setPage p { κ.sys.mm.memMap p with freelist := v }).memMap q).flags = PG_slab) :
    q ∈ slabPages κ.caches := by
  apply h.flagged q
  rw [setPage_memMap] at hq
  by_cases hqp : q = p
  · subst hqp; rwa [Function.update_self] at hq
  · rwa [Function.update_of_ne hqp] at hq

theorem FreeList.frame {ram ram' : Mem} {f : ℕ} {objs : List Object} {p i : ℕ} {l : List ℕ}
    (h : FreeList ram f objs p i l)
    (hm : ∀ a ∈ l, ∀ k < 8, ram' (a + k) = ram (a + k)) : FreeList ram' f objs p i l :=
  ⟨h.chain.frame hm, h.nodup, h.mem_iff⟩

theorem FreeList.congr_objs {ram : Mem} {f : ℕ} {objs objs' : List Object} {p i : ℕ} {l : List ℕ}
    (h : FreeList ram f objs p i l)
    (hobjs : ∀ a, Slot p i a → ((∀ o ∈ objs', o.addr ≠ a) ↔ ∀ o ∈ objs, o.addr ≠ a)) :
    FreeList ram f objs' p i l := by
  refine ⟨h.chain, h.nodup, fun a => ?_⟩
  rw [h.mem_iff a]
  exact and_congr_right fun ha => (hobjs a ha).symm

/-- The head of a free list is NULL or an object. -/
theorem FreeList.head_lt {ram : Mem} {f : ℕ} {objs : List Object} {p i : ℕ} {l : List ℕ}
    (h : FreeList ram f objs p i l) (hp : p < 2 ^ 36) : f < 2 ^ 64 := by
  rcases Nat.eq_zero_or_pos f with rfl | hf
  · norm_num
  · obtain ⟨l', rfl, -⟩ := h.chain.exists_cons hf.ne'
    have := (((h.mem_iff f).mp List.mem_cons_self).1.bounds hp).2
    unfold Memblock.kernelVaddrBase at this
    omega

/-- The free list of another page, after the object at `a` was taken or freed. -/
theorem FreeList.other {ram : Mem} {f : ℕ} {objs objs' : List Object} {p q i j a : ℕ} {l : List ℕ}
    (h : FreeList ram f objs q j l) (hp : p < 2 ^ 36) (hq : q < 2 ^ 36) (hqp : q ≠ p)
    (ha : Slot p i a) (hobjs : ∀ o, o.addr ≠ a → (o ∈ objs' ↔ o ∈ objs)) :
    FreeList ram f objs' q j l := by
  refine h.congr_objs fun b hb => ?_
  -- `b` is in page `q` and `a` in page `p`
  have hab : ∀ o : Object, o.addr = b → o.addr ≠ a := by
    rintro o rfl rfl
    exact hqp (pageBlock_inj hq hp hb.1 ha.1)
  constructor
  · intro hall o ho hob
    exact hall o ((hobjs o (hab o hob)).mpr ho) hob
  · intro hall o ho hob
    exact hall o ((hobjs o (hab o hob)).mp ho) hob

/-! ## The steps -/

/-- A write inside a live object. -/
theorem KernelInv.write (h : KernelInv n rgns κ tile) (hn : n ≤ 2 ^ 36) {o : Object}
    (ho : o ∈ κ.objs) {x : ℕ} (hx : x ∈ o.block) (v : UInt8) :
    KernelInv n rgns { κ with ram := Function.update κ.ram x v } tile where
  run := h.run
  flagged := h.flagged
  cache := h.cache
  object := h.object
  nodup := h.nodup
  slab := by
    intro i hi p hp
    obtain ⟨hpriv, l, hl⟩ := h.slab i hi p hp
    refine ⟨hpriv, l, hl.frame fun a ha k hk => Function.update_of_ne ?_ _ _⟩
    obtain ⟨hslot, hfree⟩ := (hl.mem_iff a).mp ha
    rintro rfl
    exact h.free_apart hn hi hp hslot ho (hfree o ho) hx (add_mem_slotBlock hk)

/-- A call of the page allocator. -/
theorem KernelInv.page (h : KernelInv n rgns κ tile) (op : Op) :
    ∃ κ' tile', κ.exec (.page op) = .ok κ' ∧ KernelInv n rgns κ' tile' := by
  obtain ⟨σ', tile', hexec, hrun, hframe⟩ := exec_ok h.run op
  refine ⟨{ κ with sys := σ' }, tile', by simp only [Kernel.exec, hexec]; rfl, hrun, ?_, h.cache, ?_,
    h.object, h.nodup⟩
  · intro p hp
    exact h.flagged p (noNewSlab_exec hexec p hp)
  · intro i hi p hp
    show (σ'.mm.memMap p).priv = i ∧ ∃ l, FreeList κ.ram (σ'.mm.memMap p).freelist κ.objs p i l
    rw [hframe p (mem_slabPages.mpr ⟨i, hi, hp⟩)]
    exact h.slab i hi p hp

theorem mem_eraseIdx_iff {objs : List Object} (hnodup : (objs.map Object.addr).Nodup) {i : ℕ}
    {o : Object} (hi : objs[i]? = some o) (o' : Object) :
    o' ∈ objs.eraseIdx i ↔ o' ∈ objs ∧ o'.addr ≠ o.addr := by
  have hnd : objs.Nodup := hnodup.of_map _
  have hlt : i < objs.length := (List.getElem?_eq_some_iff.mp hi).1
  have hget : objs[i] = o := (List.getElem?_eq_some_iff.mp hi).2
  rw [← hnd.erase_getElem i hlt, hget, hnd.mem_erase_iff, and_comm]
  refine and_congr_right fun ho' => not_congr ⟨fun heq => by rw [heq], fun heq => ?_⟩
  exact List.inj_on_of_nodup_map hnodup ho' (List.mem_of_getElem? hi) heq

/-- `free_object` on a live object. -/
theorem KernelInv.freeObject (h : KernelInv n rgns κ tile) (hn : n ≤ 2 ^ 36) {i : ℕ} {o : Object}
    (hi : κ.objs[i]? = some o) :
    KernelInv n rgns
      { κ.setState (freeObject κ.state o.addr) with objs := κ.objs.eraseIdx i } tile := by
  have ho : o ∈ κ.objs := List.mem_of_getElem? hi
  obtain ⟨hsize, p, hp, hslot⟩ := h.object o ho
  have hc := (classOf_spec hsize).1
  have hpn := lt_of_lt_of_le (h.lt hc hp) hn
  have herase := mem_eraseIdx_iff h.nodup hi
  obtain ⟨hpriv, l, hl⟩ := h.slab _ hc p hp
  -- what `free_object` does
  have hst : Mm.freeObject κ.state o.addr =
      { κ.state with
        ram := store κ.ram o.addr (κ.sys.mm.memMap p).freelist 8
        mm := κ.sys.mm.setPage p { κ.sys.mm.memMap p with freelist := o.addr } } := by
    simp only [Mm.freeObject, Kernel.state, hslot.page hpn, h.flags hc hp, ne_eq, not_true_eq_false,
      if_false, hpriv, setFreepointer, (h.cache _ hc).2, Nat.add_zero]
  have hbytes : ∀ k < 8, o.addr + k ∈ o.block := fun k hk => add_mem_slotBlock hk
  rw [hst]
  refine ⟨h.run.setFreelist p o.addr, h.flagged_setFreelist p o.addr, h.cache, ?_, ?_, ?_⟩
  · intro j hj q hq
    by_cases hqp : q = p
    · -- the object goes to the front of the free list of its page
      subst hqp
      obtain rfl := h.class_eq hj hc hq hp
      simp only [Kernel.setState, setPage_memMap, Function.update_self]
      refine ⟨hpriv, o.addr :: l, ?_, ?_, ?_⟩
      · have hpos := (hslot.bounds hpn).1
        unfold Memblock.kernelVaddrBase at hpos
        refine hl.chain.push (hl.head_lt hpn) (by omega) fun b hb => ?_
        obtain ⟨hbs, hbf⟩ := (hl.mem_iff b).mp hb
        exact link_apart fun x hx => h.free_apart hn hj hq hbs ho (hbf o ho) hx
      · refine List.nodup_cons.mpr ⟨fun hmem => ?_, hl.nodup⟩
        exact ((hl.mem_iff _).mp hmem).2 o ho rfl
      · intro a
        rw [List.mem_cons, hl.mem_iff]
        constructor
        · rintro (rfl | ⟨ha, hfree⟩)
          · exact ⟨hslot, fun o' ho' => ((herase o').mp ho').2⟩
          · exact ⟨ha, fun o' ho' => hfree o' ((herase o').mp ho').1⟩
        · rintro ⟨ha, hfree⟩
          by_cases hao : a = o.addr
          · exact Or.inl hao
          · refine Or.inr ⟨ha, fun o' ho' heq => ?_⟩
            exact hfree o' ((herase o').mpr ⟨ho', by rw [heq]; exact hao⟩) heq
    · obtain ⟨hpriv', l', hl'⟩ := h.slab j hj q hq
      have hqn := lt_of_lt_of_le (h.lt hj hq) hn
      simp only [Kernel.setState, setPage_memMap, Function.update_of_ne hqp]
      refine ⟨hpriv', l', (hl'.frame fun a ha k hk => store_of_not_mem ?_).other hpn hqn hqp hslot ?_⟩
      · obtain ⟨hs, hf⟩ := (hl'.mem_iff a).mp ha
        rcases link_apart fun x hx => h.free_apart hn hj hq hs ho (hf o ho) hx with hap | hap <;>
          omega
      · intro o' hne
        rw [herase o']
        exact and_iff_left hne
  · intro o' ho'
    exact h.object o' ((herase o').mp ho').1
  · exact ((List.eraseIdx_sublist _ _).map _).nodup h.nodup

/-- Taking the first object of a free list. -/
theorem KernelInv.takeObject (h : KernelInv n rgns κ tile) (hn : n ≤ 2 ^ 36) {size p : ℕ}
    (hsize : size ≤ 2048) (hp : p ∈ (κ.caches (classOf size)).partialSlabs)
    (hfree : (κ.sys.mm.memMap p).freelist ≠ 0) :
    KernelInv n rgns
      { κ.setState (takeObject κ.state p).2 with
        objs := ⟨(takeObject κ.state p).1, size⟩ :: κ.objs } tile := by
  have hc := (classOf_spec hsize).1
  have hpn := lt_of_lt_of_le (h.lt hc hp) hn
  obtain ⟨hpriv, l, hl⟩ := h.slab _ hc p hp
  obtain ⟨l', rfl, hl'⟩ := hl.chain.exists_cons hfree
  obtain ⟨hslot, hnew⟩ := (hl.mem_iff _).mp List.mem_cons_self
  have hst : Mm.takeObject κ.state p = ((κ.sys.mm.memMap p).freelist,
      { κ.state with mm := κ.sys.mm.setPage p { κ.sys.mm.memMap p with
        freelist := load κ.ram (κ.sys.mm.memMap p).freelist 8 } }) := by
    simp only [Mm.takeObject, Kernel.state, hslot.physToVirt hpn]
  rw [hst]
  generalize ha : (κ.sys.mm.memMap p).freelist = a at *
  refine ⟨h.run.setFreelist p _, h.flagged_setFreelist p _, h.cache, ?_, ?_, ?_⟩
  · intro j hj q hq
    by_cases hqp : q = p
    · subst hqp
      obtain rfl := h.class_eq hj hc hq hp
      simp only [Kernel.setState, setPage_memMap, Function.update_self]
      refine ⟨hpriv, l', hl', hl.nodup.of_cons, fun b => ?_⟩
      have hmem := hl.mem_iff b
      rw [List.mem_cons] at hmem
      have hnotin : a ∉ l' := (List.nodup_cons.mp hl.nodup).1
      constructor
      · intro hb
        obtain ⟨hs, hf⟩ := hmem.mp (Or.inr hb)
        refine ⟨hs, fun o ho => ?_⟩
        rcases List.mem_cons.mp ho with rfl | ho
        · rintro rfl
          exact hnotin hb
        · exact hf o ho
      · rintro ⟨hs, hf⟩
        have hba : b ≠ a := (hf _ List.mem_cons_self).symm
        exact (hmem.mpr ⟨hs, fun o ho => hf o (List.mem_cons_of_mem _ ho)⟩).resolve_left hba
    · obtain ⟨hpriv', l'', hl''⟩ := h.slab j hj q hq
      simp only [Kernel.setState, setPage_memMap, Function.update_of_ne hqp]
      refine ⟨hpriv', l'', hl''.other hpn (lt_of_lt_of_le (h.lt hj hq) hn) hqp hslot fun o hne => ?_⟩
      rw [List.mem_cons, or_iff_right]
      rintro rfl
      exact hne rfl
  · intro o ho
    rcases List.mem_cons.mp ho with rfl | ho
    · exact ⟨hsize, p, hp, hslot⟩
    · exact h.object o ho
  · refine List.nodup_cons.mpr ⟨?_, h.nodup⟩
    rw [List.mem_map]
    rintro ⟨o, ho, heq⟩
    exact hnew o ho heq

/-- A used page of order 0 becomes a slab page. -/
theorem RunInv.toSlab {slabs : List ℕ} {s : MmState} {live : List Block} {p : ℕ}
    (h : RunInv n rgns slabs ⟨s, ⟨p, 0⟩ :: live⟩ tile) (page : Page) (hpage : page.flags = PG_slab) :
    ∃ tile', RunInv n rgns (p :: slabs) ⟨s.setPage p page, live⟩ tile' := by
  obtain ⟨hpn, hpt⟩ := (h.live ⟨p, 0⟩).mp List.mem_cons_self
  have hinv := h.inv.retag .slab (b := ⟨p, 0⟩) hpn hpt (by simp) (by simp) page hpage
  have hself : Tiling.recolor tile .slab ⟨p, 0⟩ p = (.slab, ⟨p, 0⟩) :=
    Tiling.recolor_start Owner.slab ⟨p, 0⟩
  have hother : ∀ x, x ≠ p → Tiling.recolor tile .slab ⟨p, 0⟩ x = tile x := fun x hx =>
    Tiling.recolor_of_not_mem (by rwa [Block.mem_order_zero])
  refine ⟨Tiling.recolor tile .slab ⟨p, 0⟩, hinv, ?_, ?_, ?_, ?_, ?_, ?_⟩
  · intro x hx
    by_cases hxp : x = p
    · subst hxp; rw [hself]; simp
    · rw [hother x hxp]; exact h.owner x hx
  · intro x hx
    rw [← h.reserved x hx]
    by_cases hxp : x = p
    · subst hxp
      rw [hself]
      simp only at hpt
      rw [hpt]
      simp
    · rw [hother x hxp]
  · intro q
    rw [List.mem_cons, h.slab q]
    by_cases hqp : q = p
    · subst hqp; rw [hself]; simp only [true_or, and_true, true_iff]; exact hpn
    · rw [hother q hqp]; simp [hqp]
  · intro q hq hqs
    by_cases hqp : q = p
    · subst hqp; rw [hself]
    · rw [hother q hqp] at hqs ⊢; exact h.slab_order q hq hqs
  · intro b
    have hb := h.live b
    by_cases hbp : b.start = p
    · -- the block of `p` is the one that is gone
      rw [hbp, hself]
      simp only [Prod.mk.injEq, reduceCtorEq, false_and, and_false, iff_false]
      intro hmem
      have hb2 := (hb.mp (List.mem_cons_of_mem _ hmem)).2
      rw [hbp] at hb2
      have : b = ⟨p, 0⟩ := (Prod.mk.inj (hb2.symm.trans hpt)).2
      exact (List.nodup_cons.mp h.nodup).1 (this ▸ hmem)
    · rw [hother _ hbp, ← hb, List.mem_cons, or_iff_right]
      rintro rfl
      exact hbp rfl
  · exact (List.nodup_cons.mp h.nodup).2

theorem RunInv.congr_slabs {slabs slabs' : List ℕ} {σ : System} (h : RunInv n rgns slabs σ tile)
    (hs : ∀ p, p ∈ slabs' ↔ p ∈ slabs) : RunInv n rgns slabs' σ tile :=
  ⟨h.inv, h.owner, h.reserved, fun p => (hs p).trans (h.slab p), h.slab_order, h.live, h.nodup⟩

/-- The caches after a page has become a slab of cache `i`. -/
def pushSlab (caches : ℕ → KmemCache) (i p : ℕ) : ℕ → KmemCache :=
  Function.update caches i
    { caches i with partialSlabs := p :: (caches i).partialSlabs }

theorem pushSlab_size (caches : ℕ → KmemCache) (i p j : ℕ) :
    (pushSlab caches i p j).size = (caches j).size ∧
      (pushSlab caches i p j).offset = (caches j).offset := by
  by_cases hj : j = i
  · subst hj
    simp [pushSlab]
  · simp [pushSlab, Function.update_of_ne hj]

theorem mem_pushSlab {caches : ℕ → KmemCache} {i p j q : ℕ} :
    q ∈ (pushSlab caches i p j).partialSlabs ↔
      (j = i ∧ q = p) ∨ q ∈ (caches j).partialSlabs := by
  by_cases hj : j = i
  · subst hj
    simp [pushSlab]
  · simp [pushSlab, hj]

theorem mem_slabPages_pushSlab {caches : ℕ → KmemCache} {i p q : ℕ} (hi : i < nrObjects) :
    q ∈ slabPages (pushSlab caches i p) ↔ q ∈ p :: slabPages caches := by
  rw [List.mem_cons, mem_slabPages, mem_slabPages]
  constructor
  · rintro ⟨j, hj, hq⟩
    rcases mem_pushSlab.mp hq with ⟨-, rfl⟩ | hq
    · exact Or.inl rfl
    · exact Or.inr ⟨j, hj, hq⟩
  · rintro (rfl | ⟨j, hj, hq⟩)
    · exact ⟨i, hi, mem_pushSlab.mpr (Or.inl ⟨rfl, rfl⟩)⟩
    · exact ⟨j, hj, mem_pushSlab.mpr (Or.inr hq)⟩

/-- The state behind `allocate_slab` for cache `i`, when the buddy allocator returned page `p` and left
    `s'`. -/
def slabAdded (κ : Kernel) (s' : MmState) (i p : ℕ) : SlabState where
  mm := s'.setPage p ⟨PG_slab, i, slabAddress p⟩
  caches := pushSlab κ.caches i p
  ram := linkObjects (pushSlab κ.caches i p i) (pageSize / (pushSlab κ.caches i p i).size - 1)
    (slabAddress p) κ.ram

theorem allocateSlab_eq {s' : MmState} {p : ℕ} (hrun : allocPages κ.sys.mm 0 = .ok (some p, s'))
    (i : ℕ) : Mm.allocateSlab κ.state i = .ok (some p, slabAdded κ s' i p) := by
  simp only [Mm.allocateSlab, Kernel.state, hrun]
  simp [bind, Except.bind, slabAdded, pushSlab, MmState.setFlags, MmState.setPage]

theorem slabAdded_page (κ : Kernel) (s' : MmState) (i p : ℕ) :
    (slabAdded κ s' i p).mm.memMap p = ⟨PG_slab, i, slabAddress p⟩ := Function.update_self _ _ _

theorem slabAdded_of_ne (κ : Kernel) (s' : MmState) (i : ℕ) {p q : ℕ} (hqp : q ≠ p) :
    (slabAdded κ s' i p).mm.memMap q = s'.memMap q := Function.update_of_ne hqp _ _

theorem slabAdded_cache (h : KernelInv n rgns κ tile) (s' : MmState) (i p : ℕ) {j : ℕ}
    (hj : j < nrObjects) : ((slabAdded κ s' i p).caches j).size = 2 ^ (j + 3) ∧
      ((slabAdded κ s' i p).caches j).offset = 0 := by
  obtain ⟨hsize, hoff⟩ := pushSlab_size κ.caches i p j
  show (pushSlab κ.caches i p j).size = _ ∧ (pushSlab κ.caches i p j).offset = _
  rw [hsize, hoff]
  exact h.cache j hj

/-- The objects of the new page are linked, and the other pages keep their bytes. -/
theorem slabAdded_ram (h : KernelInv n rgns κ tile) (s' : MmState) {i p : ℕ} (hi : i < nrObjects)
    (hp : p < 2 ^ 36) :
    Chain (slabAdded κ s' i p).ram (slabAddress p)
        (slots (slabAddress p) (2 ^ (i + 3)) (pageSize / 2 ^ (i + 3))) ∧
      ∀ x ∉ pageBlock p, (slabAdded κ s' i p).ram x = κ.ram x := by
  obtain ⟨hsize, hoff⟩ := slabAdded_cache h s' i p hi
  exact linkObjects_page hp hi hsize hoff κ.ram

/-- A page that is no slab has no live object. -/
theorem KernelInv.not_live (h : KernelInv n rgns κ tile) (hn : n ≤ 2 ^ 36) {i p : ℕ} (hp : p < 2 ^ 36)
    (hnotslab : p ∉ slabPages κ.caches) : ∀ a, Slot p i a → ∀ o ∈ κ.objs, o.addr ≠ a := by
  rintro a ha o ho rfl
  obtain ⟨hsize, q, hq, hslot⟩ := h.object o ho
  have hc := (classOf_spec hsize).1
  have hqp := pageBlock_inj (lt_of_lt_of_le (h.lt hc hq) hn) hp hslot.1 ha.1
  exact hnotslab (mem_slabPages.mpr ⟨_, hc, hqp ▸ hq⟩)

theorem slabAddress_ne_zero {p : ℕ} (hp : p < 2 ^ 36) : slabAddress p ≠ 0 := by
  rw [slabAddress_eq hp]
  unfold Memblock.kernelVaddrBase
  omega

/-- `allocate_slab` returns NULL and changes nothing, or it adds a slab whose objects are all
    free. -/
theorem KernelInv.allocateSlab (h : KernelInv n rgns κ tile) (hn : n ≤ 2 ^ 36) {i : ℕ}
    (hi : i < nrObjects) :
    allocateSlab κ.state i = .ok (none, κ.state) ∨
      ∃ p st tile', allocateSlab κ.state i = .ok (some p, st) ∧
        KernelInv n rgns (κ.setState st) tile' ∧ p ∈ (st.caches i).partialSlabs ∧
        (st.mm.memMap p).freelist ≠ 0 := by
  rcases allocPages_spec h.run.inv 0 with ⟨hrun, -⟩ | ⟨p, s', tile₁, hrun, h₁, ht⟩
  · left
    simp only [Mm.allocateSlab, Kernel.state, hrun]
    rfl
  right
  have hp36 : p < 2 ^ 36 := lt_of_lt_of_le ht.lt hn
  have hnotslab : p ∉ slabPages κ.caches := by
    intro hmem
    have hfree := ht.was_free p (Block.start_mem ⟨p, 0⟩)
    rw [((h.run.slab p).mp hmem).2] at hfree
    cases hfree
  have hmem : ∀ j q, q ∈ ((slabAdded κ s' i p).caches j).partialSlabs ↔
      (j = i ∧ q = p) ∨ q ∈ (κ.caches j).partialSlabs := fun _ _ => mem_pushSlab
  have hpages : ∀ q, q ∈ slabPages (slabAdded κ s' i p).caches ↔ q ∈ p :: slabPages κ.caches :=
    fun _ => mem_slabPages_pushSlab hi
  obtain ⟨tile', hrun'⟩ := (h.run.taken h₁ ht).toSlab ⟨PG_slab, i, slabAddress p⟩ rfl
  have hold : ∀ q ∈ slabPages κ.caches,
      (slabAdded κ s' i p).mm.memMap q = κ.sys.mm.memMap q := by
    intro q hq
    have hqp : q ≠ p := fun heq => hnotslab (heq ▸ hq)
    obtain ⟨hqn, hqs⟩ := (h.run.slab q).mp hq
    rw [slabAdded_of_ne κ s' i hqp]
    exact (ht.frame q hqn (by simp [hqs])).2
  obtain ⟨hchain, hram⟩ := slabAdded_ram h s' hi hp36
  refine ⟨p, slabAdded κ s' i p, tile', allocateSlab_eq hrun i,
    ⟨hrun'.congr_slabs hpages, ?_, fun j hj => slabAdded_cache h s' i p hj, ?_, ?_, h.nodup⟩,
    (hmem i p).mpr (Or.inl ⟨rfl, rfl⟩), ?_⟩
  · intro q hq
    refine (hpages q).mpr (List.mem_cons.mpr ?_)
    by_cases hqp : q = p
    · exact Or.inl hqp
    · refine Or.inr (h.flagged q (noNewSlab_rmqueueLoop _ _ hrun q ?_))
      rw [← slabAdded_of_ne κ s' i hqp]
      exact hq
  · intro j hj q hq
    show ((slabAdded κ s' i p).mm.memMap q).priv = j ∧
      ∃ l, FreeList (slabAdded κ s' i p).ram ((slabAdded κ s' i p).mm.memMap q).freelist κ.objs q j l
    rcases (hmem j q).mp hq with ⟨rfl, rfl⟩ | hq
    · -- nothing in the new page is live
      rw [slabAdded_page]
      refine ⟨rfl, _, hchain, slots_nodup (Nat.two_pow_pos _) _ _, fun a => ?_⟩
      rw [mem_slots_iff hp36 hj]
      exact (and_iff_left_of_imp (h.not_live hn hp36 hnotslab a)).symm
    · have hqs := mem_slabPages.mpr ⟨j, hj, hq⟩
      have hqp : q ≠ p := fun heq => hnotslab (heq ▸ hqs)
      have hq36 := lt_of_lt_of_le (h.lt hj hq) hn
      obtain ⟨hpriv, l, hl⟩ := h.slab j hj q hq
      rw [hold q hqs]
      refine ⟨hpriv, l, hl.frame fun a ha k hk => hram _ fun hin => hqp ?_⟩
      have hs := ((hl.mem_iff a).mp ha).1
      exact pageBlock_inj hq36 hp36 (hs.subset hq36 hj (add_mem_slotBlock hk)) hin
  · intro o ho
    obtain ⟨hsize, q, hq, hslot⟩ := h.object o ho
    exact ⟨hsize, q, (hmem _ q).mpr (Or.inr hq), hslot⟩
  · rw [slabAdded_page]
    exact slabAddress_ne_zero hp36

/-- The ways `__get_object` comes back. -/
theorem getObject'_cases (st : SlabState) (idx : ℕ) :
    (∃ slab ∈ (st.caches idx).partialSlabs, (st.mm.memMap slab).freelist ≠ 0 ∧
      getObject' st idx = .ok (some (takeObject st slab).1, (takeObject st slab).2)) ∨
    getObject' st idx = (allocateSlab st idx >>= fun r => match r with
      | (none, st) => .ok (none, st)
      | (some slab, st) => .ok (some (takeObject st slab).1, (takeObject st slab).2)) := by
  unfold getObject'
  split
  · next slab hfind =>
    exact Or.inl ⟨slab, List.mem_of_find?_eq_some hfind, by simpa using List.find?_some hfind, rfl⟩
  · exact Or.inr rfl

/-- `get_object`. -/
theorem KernelInv.getObject (h : KernelInv n rgns κ tile) (hn : n ≤ 2 ^ 36) {size : ℕ}
    (hsize : size ≤ 2048) :
    ∃ κ' tile', κ.exec (.getObject size) = .ok κ' ∧ KernelInv n rgns κ' tile' := by
  have hc := (classOf_spec hsize).1
  have hdef : Mm.getObject κ.state size = getObject' κ.state (classOf size) := rfl
  rcases getObject'_cases κ.state (classOf size) with ⟨p, hp, hfree, hget⟩ | hget
  · refine ⟨_, tile, ?_, h.takeObject hn hsize hp hfree⟩
    simp only [Kernel.exec, hdef, hget]
    rfl
  · rcases h.allocateSlab hn hc with hnull | ⟨p, st, tile', hst, h', hp, hfree⟩
    · refine ⟨κ, tile, ?_, h⟩
      simp only [Kernel.exec, hdef, hget, hnull]
      rfl
    · refine ⟨_, tile', ?_, h'.takeObject hn hsize hp hfree⟩
      simp only [Kernel.exec, hdef, hget, hst]
      rfl

theorem KernelInv.exec_ok (h : KernelInv n rgns κ tile) (hn : n ≤ 2 ^ 36) {op : SlabOp}
    (hop : op.Valid) : ∃ κ' tile', κ.exec op = .ok κ' ∧ KernelInv n rgns κ' tile' := by
  cases op with
  | getObject size => exact h.getObject hn hop
  | freeObject i =>
    cases hi : κ.objs[i]? with
    | none => exact ⟨κ, tile, by simp only [Kernel.exec, hi], h⟩
    | some o => exact ⟨_, tile, by simp only [Kernel.exec, hi], h.freeObject hn hi⟩
  | write i off v =>
    cases hi : κ.objs[i]? with
    | none => exact ⟨κ, tile, by simp only [Kernel.exec, hi], h⟩
    | some o =>
      by_cases hx : o.addr + off ∈ o.block
      · exact ⟨_, tile, by simp only [Kernel.exec, hi, if_pos hx],
          h.write hn (List.mem_of_getElem? hi) hx v⟩
      · exact ⟨κ, tile, by simp only [Kernel.exec, hi, if_neg hx], h⟩
  | page op => exact h.page op

end Invariant

/-! ## Whole runs -/

theorem calculateSize_objectSize : ∀ i < nrObjects, calculateSize (objectSize i) = 2 ^ (i + 3) := by
  decide

theorem kernel_boot_ok {n : ℕ} (hn : 512 ∣ n) (rgns : List Region) (caches : ℕ → KmemCache)
    (ram : Mem) :
    ∃ κ tile, Kernel.boot rgns n caches ram = .ok κ ∧ KernelInv n rgns κ tile := by
  obtain ⟨σ, tile, hboot, hrun⟩ := boot_ok hn rgns
  refine ⟨Kernel.setState ⟨σ, caches, ram, []⟩ (slabInit ⟨σ.mm, caches, ram⟩), tile,
    by simp only [Kernel.boot, hboot]; rfl, ?_, ?_, ?_, ?_, ?_, List.nodup_nil⟩
  · refine hrun.congr_slabs fun p => ?_
    rw [mem_slabPages]
    simp only [Kernel.setState, slabInit, List.not_mem_nil, iff_false]
    rintro ⟨i, hi, hp⟩
    rw [if_pos hi] at hp
    simp [kmemCacheInit] at hp
  · intro p hp
    exact absurd hp (noNewSlab_boot hboot p)
  · intro i hi
    simp only [Kernel.setState, slabInit, if_pos hi]
    exact ⟨calculateSize_objectSize i hi, rfl⟩
  · intro i hi p hp
    simp only [Kernel.setState, slabInit, if_pos hi] at hp
    simp [kmemCacheInit] at hp
  · intro o ho
    simp [Kernel.setState] at ho

/-- What the users of `get_object` and `free_object` rely on. -/
structure SlabContract (κ : Kernel) : Prop where
  /-- A live object has the smallest class that holds its size. -/
  smallest : ∀ o ∈ κ.objs, classOf o.size < nrObjects ∧ o.size ≤ objectSize (classOf o.size) ∧
    ∀ j < classOf o.size, objectSize j < o.size
  /-- It lies inside one page of that class and is aligned to its size. -/
  inside : ∀ o ∈ κ.objs, ∃ p, (κ.sys.mm.memMap p).flags = PG_slab ∧
    (κ.sys.mm.memMap p).priv = classOf o.size ∧ (∀ x ∈ o.block, x ∈ pageBlock p) ∧
    objectSize (classOf o.size) ∣ o.addr
  disjoint : κ.objs.Pairwise fun o o' => ∀ x ∈ o.block, x ∉ o'.block
  /-- The free list of a slab page is a NULL-terminated chain without repetitions that holds exactly
      the objects of the page that are not live. -/
  freelist : ∀ p, (κ.sys.mm.memMap p).flags = PG_slab →
    ∃ l, Chain κ.ram (κ.sys.mm.memMap p).freelist l ∧ l.Nodup ∧
      ∀ a, a ∈ l ↔ Slot p (κ.sys.mm.memMap p).priv a ∧ ∀ o ∈ κ.objs, o.addr ≠ a

theorem KernelInv.contract {n : ℕ} {rgns : List Region} {κ : Kernel} {tile : Tiles}
    (h : KernelInv n rgns κ tile) (hn : n ≤ 2 ^ 36) : SlabContract κ where
  smallest o ho := classOf_spec (h.object o ho).1
  inside o ho := by
    obtain ⟨hsize, p, hp, hslot⟩ := h.object o ho
    have hc := (classOf_spec hsize).1
    refine ⟨p, h.flags hc hp, (h.slab _ hc p hp).1, ?_, ?_⟩
    · intro x hx
      exact hslot.subset (lt_of_lt_of_le (h.lt hc hp) hn) hc hx
    · rw [objectSize_eq]; exact hslot.2
  disjoint := by
    have hne : κ.objs.Pairwise fun o o' => o.addr ≠ o'.addr := List.pairwise_map.mp h.nodup
    refine hne.imp_of_mem fun {o o'} ho ho' hne x hx => ?_
    obtain ⟨hsize, p, hp, hslot⟩ := h.object o' ho'
    exact h.free_apart hn (classOf_spec hsize).1 hp hslot ho hne hx
  freelist p hp := by
    obtain ⟨i, hi, hmem⟩ := mem_slabPages.mp (h.flagged p hp)
    obtain ⟨hpriv, l, hl⟩ := h.slab i hi p hmem
    rw [hpriv]
    exact ⟨l, hl.chain, hl.nodup, hl.mem_iff⟩

/-- **Slab allocator contract.** For every number of pages that is a multiple of 512 (and whose
    addresses fit below the kernel's address base), every list of reserved regions, every content of
    memory and every sequence of steps, all calls come back and the contract holds. -/
theorem run_slab {nrPages : ℕ} (hn : 512 ∣ nrPages) (hmax : nrPages ≤ 2 ^ 36) (rgns : List Region)
    (caches : ℕ → KmemCache) (ram : Mem) (ops : List SlabOp) (hops : ∀ op ∈ ops, op.Valid) :
    ∃ κ₀ κ, Kernel.boot rgns nrPages caches ram = .ok κ₀ ∧ κ₀.run ops = .ok κ ∧ SlabContract κ := by
  obtain ⟨κ₀, tile₀, hboot, h₀⟩ := kernel_boot_ok hn rgns caches ram
  have hstep : ∀ op ∈ ops, ∀ κ, (∃ tile, KernelInv nrPages rgns κ tile) →
      ∃ κ', κ.exec op = .ok κ' ∧ ∃ tile', KernelInv nrPages rgns κ' tile' := by
    rintro op hop κ ⟨tile, h⟩
    obtain ⟨κ', tile', hexec, h'⟩ := h.exec_ok hmax (hops op hop)
    exact ⟨κ', hexec, tile', h'⟩
  obtain ⟨κ, hrun, tile, h⟩ := foldlM_ok hstep κ₀ ⟨tile₀, h₀⟩
  exact ⟨κ₀, κ, hboot, hrun, h.contract hmax⟩

theorem run_slab_512 : ∃ κ₀ κ,
    Kernel.boot [⟨0, 0x80000⟩] 512 (fun _ => kmemCacheInit 0) (fun _ => 0) = .ok κ₀ ∧
      κ₀.run [.getObject 24, .write 0 3 0xff, .getObject 2048, .freeObject 1, .page (.alloc 2),
        .getObject 0] = .ok κ ∧ SlabContract κ :=
  run_slab (by decide) (by decide) _ _ _ _ (by decide)

end RaspiKernel.Mm
