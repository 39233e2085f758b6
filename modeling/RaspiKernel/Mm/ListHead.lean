import RaspiKernel.Lib.Ring
import RaspiKernel.Mm.Buddy

/-!
# Intrusive lists

Model of `library/list.h`, one store after the other, and of the functions of
`src/mm.c` on the free lists that use it. A pointer is its 64-bit value. The two
fields of all `struct list_head`s are functions from the addresses.

The buddy system of the other modules has a list of page frame numbers for each
order. `Layout.Shows` says that the pointers represent these lists, among those of
the slab caches, which share the page array.

Results:
* `listAdd_rings`, `listAddTail_rings`, `listDel_rings`: the operations on rings.
* `listForEachEntry_eq`: what the loop visits.
* `list_refines`: all of them together.
* `buddyFreeAreaInit_shows`, `addToFreeArea_shows`, `delPageFromFreeArea_shows`,
  `getPageFromFreeArea_shows`: the free lists of the buddy system are what the pointers say.
-/

namespace RaspiKernel.Mm

open Lib

/-! ## The model -/

/-- The `struct list_head`s in memory. -/
abbrev ListHeads := Links UInt64

/-- `INIT_LIST_HEAD` (lines 51–55). -/
def initListHead (h : ListHeads) (list : UInt64) : ListHeads :=
  let h := h.setNext list list
  h.setPrev list list

/-- `list_empty` (lines 57–60). -/
def listEmpty (h : ListHeads) (head : UInt64) : Bool := h.next head = head

/-- `__list_add` (lines 62–68). -/
def listAdd' (h : ListHeads) (new prev next : UInt64) : ListHeads :=
  let h := h.setPrev next new
  let h := h.setNext new next
  let h := h.setPrev new prev
  h.setNext prev new

/-- `list_add` (lines 70–73). -/
def listAdd (h : ListHeads) (new head : UInt64) : ListHeads := listAdd' h new head (h.next head)

/-- `list_add_tail` (lines 75–78). -/
def listAddTail (h : ListHeads) (new head : UInt64) : ListHeads := listAdd' h new (h.prev head) head

/-- `__list_del` (lines 80–84). -/
def listDel' (h : ListHeads) (prev next : UInt64) : ListHeads :=
  let h := h.setPrev next prev
  h.setNext prev next

/-- `list_del` (lines 86–91). -/
def listDel (h : ListHeads) (entry : UInt64) : ListHeads :=
  let h := listDel' h (h.prev entry) (h.next entry)
  let h := h.setNext entry 0
  h.setPrev entry 0

/-- `list_entry(ptr, type, member)`, with the offset of the member. -/
def listEntry (ptr offset : UInt64) : UInt64 := ptr - offset

/-- The rounds of `list_for_each_entry(pos, head, member)` (lines 31–34) from `pos` on, with a bound on
    their number. -/
def forEachLoop {σ : Type} (h : ListHeads) (head offset : UInt64) (body : σ → UInt64 → σ) :
    ℕ → UInt64 → σ → Option σ
  | 0, _, _ => none
  | fuel + 1, pos, s =>
    if pos + offset = head then some s
    else forEachLoop h head offset body fuel (listEntry (h.next (pos + offset)) offset) (body s pos)

/-- `list_for_each_entry(pos, head, member)` with a body that leaves the pointers alone. -/
def listForEachEntry {σ : Type} (fuel : ℕ) (h : ListHeads) (head offset : UInt64)
    (body : σ → UInt64 → σ) (s : σ) : Option σ :=
  forEachLoop h head offset body fuel (listEntry (h.next head) offset) s

variable {h : ListHeads} {S : Set UInt64} {seq : UInt64 → List UInt64} {head new entry : UInt64}
  {l l₁ l₂ : List UInt64}

/-! ## Adding -/

theorem listAdd'_next_of_ne {x prev next : UInt64} (hx : x ≠ new) (hp : x ≠ prev) :
    (listAdd' h new prev next).next x = h.next x := by
  simp [listAdd', Function.update_of_ne hp, Function.update_of_ne hx]

theorem listAdd'_prev_of_ne {x prev next : UInt64} (hx : x ≠ new) (hn : x ≠ next) :
    (listAdd' h new prev next).prev x = h.prev x := by
  simp [listAdd', Function.update_of_ne hn, Function.update_of_ne hx]

theorem listAdd'_joined_before {prev next : UInt64} : Joined (listAdd' h new prev next) prev new :=
  ⟨Function.update_self _ _ _, Function.update_self _ _ _⟩

theorem listAdd'_joined_after {prev next : UInt64} (hp : new ≠ prev) (hn : next ≠ new) :
    Joined (listAdd' h new prev next) new next := by
  constructor
  · simp [listAdd', Function.update_of_ne hp]
  · simp [listAdd', Function.update_of_ne hn]

/-- `__list_add` between the two parts of a ring. -/
theorem listAdd'_rings (hr : Rings h S seq) (ha : head ∈ S) (hseq : seq head = l₁ ++ l₂)
    (hnew : Free S seq new) :
    Rings (listAdd' h new (lastOf head l₁) (firstOf head l₂)) S
      (Function.update seq head (l₁ ++ new :: l₂)) := by
  have hea : new ∉ head :: (l₁ ++ l₂) := hseq ▸ hnew head ha
  have hlast : new ≠ lastOf head l₁ := fun heq => hea (heq ▸ lastOf_mem_append head l₁ l₂)
  have hfirst : firstOf head l₂ ≠ new := fun heq => hea (heq ▸ firstOf_mem_append head l₁ l₂)
  exact hr.insert ha hseq hnew (fun x => listAdd'_next_of_ne) (fun x => listAdd'_prev_of_ne)
    listAdd'_joined_before (listAdd'_joined_after hlast hfirst)

/-- `list_add` puts a node to the front. -/
theorem listAdd_rings (hr : Rings h S seq) (ha : head ∈ S) (hnew : Free S seq new) :
    Rings (listAdd h new head) S (Function.update seq head (new :: seq head)) := by
  have hadd := listAdd'_rings hr ha (show seq head = [] ++ seq head from rfl) hnew
  rwa [← (hr.ring head ha).head.1] at hadd

/-- `list_add_tail` puts a node to the back. -/
theorem listAddTail_rings (hr : Rings h S seq) (ha : head ∈ S) (hnew : Free S seq new) :
    Rings (listAddTail h new head) S (Function.update seq head (seq head ++ [new])) := by
  have hback : seq head = seq head ++ [] := (List.append_nil _).symm
  have hadd := listAdd'_rings hr ha hback hnew
  rwa [← (hr.ring head ha).head.2] at hadd

/-! ## Removing -/

theorem listDel_next_of_ne {x : UInt64} (hx : x ≠ entry) (hp : x ≠ h.prev entry) :
    (listDel h entry).next x = h.next x := by
  simp [listDel, listDel', Function.update_of_ne hx, Function.update_of_ne hp]

theorem listDel_prev_of_ne {x : UInt64} (hx : x ≠ entry) (hn : x ≠ h.next entry) :
    (listDel h entry).prev x = h.prev x := by
  simp [listDel, listDel', Function.update_of_ne hx, Function.update_of_ne hn]

/-- The two neighbours are joined, which may be the same node. -/
theorem listDel_joined (hp : h.prev entry ≠ entry) (hn : h.next entry ≠ entry) :
    Joined (listDel h entry) (h.prev entry) (h.next entry) := by
  constructor
  · simp [listDel, listDel', Function.update_of_ne hp]
  · simp [listDel, listDel', Function.update_of_ne hn]

/-- `list_del` clears the pointers of the node. -/
theorem listDel_null : (listDel h entry).next entry = 0 ∧ (listDel h entry).prev entry = 0 :=
  ⟨Function.update_self _ _ _, Function.update_self _ _ _⟩

/-- `list_del` of a member, between the two other parts of its ring. -/
theorem listDel_parts (hr : Rings h S seq) (ha : head ∈ S) (hseq : seq head = l₁ ++ entry :: l₂) :
    Rings (listDel h entry) S (Function.update seq head (l₁ ++ l₂)) := by
  have hring : Ring h head (l₁ ++ entry :: l₂) := hseq ▸ hr.ring head ha
  obtain ⟨hn, hp⟩ := hring.member
  have hea := hring.notMem_rest
  have hlast : h.prev entry ≠ entry := by
    rw [hp]
    exact fun heq => hea (heq ▸ lastOf_mem_append head l₁ l₂)
  have hfirst : h.next entry ≠ entry := by
    rw [hn]
    exact fun heq => hea (heq ▸ firstOf_mem_append head l₁ l₂)
  have hjoin := listDel_joined hlast hfirst
  rw [hn, hp] at hjoin
  refine hr.remove ha hseq (fun x hx hx' => ?_) (fun x hx hx' => ?_) hjoin
  · exact listDel_next_of_ne hx (hp ▸ hx')
  · exact listDel_prev_of_ne hx (hn ▸ hx')

/-- `list_del` of a member removes it. -/
theorem listDel_rings (hr : Rings h S seq) (ha : head ∈ S) (hentry : entry ∈ seq head) :
    Rings (listDel h entry) S (Function.update seq head ((seq head).erase entry)) := by
  obtain ⟨l₁, l₂, hseq⟩ := List.append_of_mem hentry
  have hnd : (l₁ ++ entry :: l₂).Nodup := hseq ▸ (List.nodup_cons.mp (hr.ring head ha).nodup).2
  have hnot : entry ∉ l₁ := by
    intro hmem
    exact (List.nodup_append'.mp hnd).2.2 hmem List.mem_cons_self
  rw [hseq, List.erase_append_right _ hnot, List.erase_cons_head]
  exact listDel_parts hr ha hseq

/-! ## Reading -/

theorem listEmpty_iff (hr : Ring h head l) : listEmpty h head ↔ l = [] := by
  unfold listEmpty
  rw [decide_eq_true_iff]
  exact hr.head_next_eq_iff

theorem listEntry_add (ptr offset : UInt64) : listEntry ptr offset + offset = ptr :=
  UInt64.sub_add_cancel ptr offset

/-- The loop goes along a path that ends at the head. -/
theorem forEachLoop_eq {σ : Type} {offset : UInt64} {body : σ → UInt64 → σ} {fuel : ℕ} {s : σ}
    (hl : Joins h (l ++ [head])) (hhead : head ∉ l) (hfuel : l.length < fuel) :
    forEachLoop h head offset body fuel (listEntry (firstOf head l) offset) s =
      some ((l.map (listEntry · offset)).foldl body s) := by
  induction l generalizing fuel s with
  | nil =>
    obtain ⟨fuel, rfl⟩ := Nat.exists_eq_add_of_lt hfuel
    have hx : firstOf head [] = head := rfl
    rw [forEachLoop, hx, if_pos (listEntry_add _ _)]
    rfl
  | cons x l ih =>
    rw [List.length_cons] at hfuel
    obtain ⟨fuel, rfl⟩ := Nat.exists_eq_add_of_lt hfuel
    rw [List.mem_cons, not_or] at hhead
    have hstep : h.next x = firstOf head l := by
      cases l with
      | nil => exact (List.isChain_cons_cons.mp hl).1.1
      | cons y l => exact (List.isChain_cons_cons.mp hl).1.1
    have hx : firstOf head (x :: l) = x := rfl
    rw [forEachLoop, hx, listEntry_add, if_neg (Ne.symm hhead.1), hstep]
    exact ih (List.IsChain.tail hl) hhead.2 (by omega)

/-- `list_for_each_entry` visits the members in order. -/
theorem listForEachEntry_eq {σ : Type} (hr : Ring h head l) {fuel : ℕ} (hfuel : l.length < fuel)
    (offset : UInt64) (body : σ → UInt64 → σ) (s : σ) :
    listForEachEntry fuel h head offset body s =
      some ((l.map (listEntry · offset)).foldl body s) := by
  unfold listForEachEntry
  rw [hr.head.1]
  exact forEachLoop_eq (List.IsChain.tail hr.joins) (List.nodup_cons.mp hr.nodup).1 hfuel

/-- In every heap that represents disjoint circular lists, the operations do to the pointers what they
    should do to the lists: a new node comes to the front or to the back, a removed one is gone and its
    pointers are NULL, all other lists stay as they are, and the loop goes through the list. -/
theorem list_refines {h : ListHeads} {S : Set UInt64} {seq : UInt64 → List UInt64}
    (hr : Rings h S seq) {head : UInt64} (ha : head ∈ S) :
    (∀ new, Free S seq new →
      Rings (listAdd h new head) S (Function.update seq head (new :: seq head)) ∧
      Rings (listAddTail h new head) S (Function.update seq head (seq head ++ [new]))) ∧
    (∀ entry ∈ seq head,
      Rings (listDel h entry) S (Function.update seq head ((seq head).erase entry)) ∧
      (listDel h entry).next entry = 0 ∧ (listDel h entry).prev entry = 0) ∧
    (listEmpty h head ↔ seq head = []) ∧
    ∀ {σ : Type} (offset : UInt64) (body : σ → UInt64 → σ) (s : σ) (fuel : ℕ),
      (seq head).length < fuel → listForEachEntry fuel h head offset body s =
        some (((seq head).map (listEntry · offset)).foldl body s) :=
  ⟨fun _ hnew => ⟨listAdd_rings hr ha hnew, listAddTail_rings hr ha hnew⟩,
    fun _ hentry => ⟨listDel_rings hr ha hentry, listDel_null⟩,
    listEmpty_iff (hr.ring head ha),
    fun offset body s _ hfuel => listForEachEntry_eq (hr.ring head ha) hfuel offset body s⟩

/-! ## Making lists -/

/-- `INIT_LIST_HEAD` makes an empty list of a node in no other one. -/
theorem initListHead_rings (hr : Rings h S seq) (hnew : Free S seq new) :
    Rings (initListHead h new) (insert new S) (Function.update seq new []) := by
  refine hr.single hnew ⟨Function.update_self _ _ _, Function.update_self _ _ _⟩ fun x hx => ?_
  exact ⟨Function.update_of_ne hx _ _, Function.update_of_ne hx _ _⟩

/-- Two empty lists. -/
def twoHeads : ListHeads := initListHead (initListHead ⟨fun _ => 0, fun _ => 0⟩ 8) 24

theorem twoHeads_rings : Rings twoHeads {24, 8} fun _ => [] := by
  have hnone : Rings ⟨fun _ => 0, fun _ => 0⟩ (∅ : Set UInt64) fun _ => [] := ⟨nofun, nofun⟩
  have hfree₁ : Free (∅ : Set UInt64) (fun _ => []) 8 := nofun
  have h₁ := initListHead_rings hnone hfree₁
  rw [Function.update_eq_self] at h₁
  have hfree₂ : Free (insert 8 (∅ : Set UInt64)) (fun _ => []) 24 := by
    rintro a (rfl | ha)
    · decide
    · exact ha.elim
  have h₂ := initListHead_rings h₁ hfree₂
  rwa [Function.update_eq_self, insert_empty_eq] at h₂

/-- Three nodes on the first list. -/
def threeNodes : ListHeads := listAddTail (listAddTail (listAddTail twoHeads 40 8) 56 8) 72 8

theorem threeNodes_rings : Rings threeNodes {24, 8} (Function.update (fun _ => []) 8 [40, 56, 72]) := by
  have hmem : (8 : UInt64) ∈ ({24, 8} : Set UInt64) := by simp
  have hadd : ∀ {h : ListHeads} {l : List UInt64} (x : UInt64), x ∉ 24 :: 8 :: l →
      Rings h {24, 8} (Function.update (fun _ => []) 8 l) →
      Rings (listAddTail h x 8) {24, 8} (Function.update (fun _ => []) 8 (l ++ [x])) := by
    intro h l x hx hr
    have hfree : Free {24, 8} (Function.update (fun _ => []) 8 l) x := by
      rintro a (rfl | rfl)
      · simp_all
      · simp_all
    have htail := listAddTail_rings hr hmem hfree
    rwa [Function.update_idem, Function.update_self] at htail
  have hstart : Rings twoHeads {24, 8} (Function.update (fun _ => []) 8 []) := by
    rw [Function.update_eq_self]
    exact twoHeads_rings
  exact hadd 72 (by decide) (hadd 56 (by decide) (hadd 40 (by decide) hstart))

/-- A node that comes to the front, the middle one removed, and the loop through all of them. -/
theorem threeNodes_refines :
    Rings (listAdd threeNodes 88 8) {24, 8} (Function.update (fun _ => []) 8 [88, 40, 56, 72]) ∧
      Rings (listDel threeNodes 56) {24, 8} (Function.update (fun _ => []) 8 [40, 72]) ∧
      (listDel threeNodes 56).next 56 = 0 ∧ ¬ listEmpty threeNodes 8 ∧
      listForEachEntry 4 threeNodes 8 16 (fun l pos => l ++ [pos]) [] = some [24, 40, 56] := by
  obtain ⟨hadd, hdel, hempty, hloop⟩ := list_refines threeNodes_rings (show (8 : UInt64) ∈ {24, 8} by simp)
  simp only [Function.update_self, Function.update_idem] at hadd hdel hempty hloop
  have hfree : Free ({24, 8} : Set UInt64) (Function.update (fun _ => []) 8 [40, 56, 72]) 88 := by
    rintro a (rfl | rfl)
    · decide
    · decide
  obtain ⟨hrest, hnull, -⟩ := hdel 56 (by decide)
  exact ⟨(hadd 88 hfree).1, hrest, hnull, hempty.not.mpr (by simp), hloop 16 _ _ 4 (by decide)⟩

/-! ## The free lists -/

/-- Where the `struct list_head`s are. The `slab_list` of a page is where its `buddy_list` is. -/
structure Layout where
  nrPages : ℕ
  /-- `&mem_map[i].buddy_list`. -/
  buddyList : ℕ → UInt64
  /-- `&zone.free_area[order].free_list`. -/
  freeList : ℕ → UInt64
  /-- The heads of the lists of the slab caches. -/
  caches : Set UInt64
  buddyList_inj : Set.InjOn buddyList {i | i < nrPages}
  freeList_inj : Set.InjOn freeList {order | order < maxOrder}
  buddyList_ne : ∀ i < nrPages, ∀ order < maxOrder, buddyList i ≠ freeList order
  buddyList_notMem : ∀ i < nrPages, buddyList i ∉ caches
  freeList_notMem : ∀ order < maxOrder, freeList order ∉ caches

variable {L : Layout} {s s' : MmState} {slabs : UInt64 → List UInt64} {page order : ℕ}

def Layout.heads (L : Layout) : Set UInt64 := L.freeList '' {order | order < maxOrder} ∪ L.caches

/-- The pointers represent the free lists of `s`, and the lists `slabs` of the slab caches. -/
def Layout.Shows (L : Layout) (h : ListHeads) (s : MmState) (slabs : UInt64 → List UInt64) : Prop :=
  ∃ seq, Rings h L.heads seq ∧
    (∀ order < maxOrder, (∀ i ∈ (s.freeArea order).freeList, i < L.nrPages) ∧
      seq (L.freeList order) = (s.freeArea order).freeList.map L.buddyList) ∧
    ∀ a ∈ L.caches, seq a = slabs a

theorem Layout.freeList_mem (ho : order < maxOrder) : L.freeList order ∈ L.heads :=
  Or.inl ⟨order, ho, rfl⟩

/-- What comes of changing the free list of `order` and the ring of its head alike. -/
theorem Layout.shows_update {seq : UInt64 → List UInt64} {l : List ℕ} (ho : order < maxOrder)
    (hr : Rings h L.heads (Function.update seq (L.freeList order) (l.map L.buddyList)))
    (hlt : ∀ i ∈ l, i < L.nrPages)
    (hseq : ∀ order < maxOrder, (∀ i ∈ (s.freeArea order).freeList, i < L.nrPages) ∧
      seq (L.freeList order) = (s.freeArea order).freeList.map L.buddyList)
    (hslabs : ∀ a ∈ L.caches, seq a = slabs a) (hself : (s'.freeArea order).freeList = l)
    (hother : ∀ o, o ≠ order → s'.freeArea o = s.freeArea o) : L.Shows h s' slabs := by
  refine ⟨_, hr, fun o ho' => ?_, fun a ha => ?_⟩
  · by_cases hoo : o = order
    · rw [hoo, hself, Function.update_self]
      exact ⟨hlt, rfl⟩
    · have hne : L.freeList o ≠ L.freeList order := fun heq => hoo (L.freeList_inj ho' ho heq)
      rw [hother o hoo, Function.update_of_ne hne]
      exact hseq o ho'
  · have hne : a ≠ L.freeList order := fun heq => L.freeList_notMem order ho (heq ▸ ha)
    rw [Function.update_of_ne hne]
    exact hslabs a ha

/-- `add_to_free_area` (lines 78–83): the `list_add_tail` is the one on the list of pages. -/
theorem addToFreeArea_shows (hs : L.Shows h s slabs) (ho : order < maxOrder) (hp : page < L.nrPages)
    (hfree : ∀ o < maxOrder, page ∉ (s.freeArea o).freeList)
    (hslab : ∀ a ∈ L.caches, L.buddyList page ∉ slabs a) :
    L.Shows (listAddTail h (L.buddyList page) (L.freeList order)) (addToFreeArea s page order)
      slabs := by
  obtain ⟨seq, hr, hseq, hslabs⟩ := hs
  have hnew : Free L.heads seq (L.buddyList page) := by
    rintro a (⟨o, ho, rfl⟩ | ha) hmem
    · rcases List.mem_cons.mp hmem with heq | hmem
      · exact L.buddyList_ne page hp o ho heq
      · rw [(hseq o ho).2] at hmem
        obtain ⟨i, hi, heq⟩ := List.mem_map.mp hmem
        obtain rfl := L.buddyList_inj ((hseq o ho).1 i hi) hp heq
        exact hfree o ho hi
    · rcases List.mem_cons.mp hmem with heq | hmem
      · exact L.buddyList_notMem page hp (heq ▸ ha)
      · exact hslab a ha (hslabs a ha ▸ hmem)
  have hadd := listAddTail_rings hr (Layout.freeList_mem ho) hnew
  have hl : seq (L.freeList order) ++ [L.buddyList page] =
      ((s.freeArea order).freeList ++ [page]).map L.buddyList := by
    rw [List.map_append, (hseq order ho).2]
    rfl
  rw [hl] at hadd
  refine Layout.shows_update ho hadd ?_ hseq hslabs ?_ fun o hoo => ?_
  · intro i hi
    rcases List.mem_append.mp hi with hi | hi
    · exact (hseq order ho).1 i hi
    · exact List.mem_singleton.mp hi ▸ hp
  · simp only [addToFreeArea, Function.update_self]
  · exact Function.update_of_ne hoo _ _

/-- `del_page_from_free_area` (lines 70–75): the `list_del` is the one on the list of pages. -/
theorem delPageFromFreeArea_shows (hs : L.Shows h s slabs) (ho : order < maxOrder)
    (hdel : delPageFromFreeArea s page order = .ok s') :
    L.Shows (listDel h (L.buddyList page)) s' slabs := by
  obtain ⟨seq, hr, hseq, hslabs⟩ := hs
  unfold delPageFromFreeArea at hdel
  dsimp only at hdel
  split_ifs at hdel with hmem
  obtain rfl := Except.ok.inj hdel
  obtain ⟨hlt, hl⟩ := hseq order ho
  obtain ⟨l₁, l₂, hparts⟩ := List.append_of_mem hmem
  rw [hparts, List.map_append, List.map_cons] at hl
  have hdel := listDel_parts hr (Layout.freeList_mem ho) hl
  have hnd := (List.nodup_cons.mp (hr.ring _ (Layout.freeList_mem ho)).nodup).2
  have hnot : page ∉ l₁ := by
    intro hmem
    rw [hl, List.nodup_append'] at hnd
    exact hnd.2.2 (List.mem_map_of_mem hmem) List.mem_cons_self
  have herase : (s.freeArea order).freeList.erase page = l₁ ++ l₂ := by
    rw [hparts, List.erase_append_right _ hnot, List.erase_cons_head]
  rw [← List.map_append] at hdel
  refine Layout.shows_update ho hdel ?_ hseq hslabs ?_ fun o hoo => ?_
  · intro i hi
    refine hlt i ?_
    rw [hparts]
    simp only [List.mem_append, List.mem_cons] at hi ⊢
    tauto
  · simp only [Function.update_self]
    exact herase
  · exact Function.update_of_ne hoo _ _

/-- `get_page_from_free_area` (lines 198–203): it looks at `list_empty` and at the `next` of the
    head. -/
theorem getPageFromFreeArea_shows (hs : L.Shows h s slabs) (ho : order < maxOrder) :
    (getPageFromFreeArea (s.freeArea order)).map L.buddyList =
      if listEmpty h (L.freeList order) then none else some (h.next (L.freeList order)) := by
  obtain ⟨seq, hr, hseq, -⟩ := hs
  have hring := hr.ring _ (Layout.freeList_mem ho)
  have hempty := listEmpty_iff hring
  obtain ⟨-, hl⟩ := hseq order ho
  rw [getPageFromFreeArea]
  split_ifs with he
  · have hnil := hempty.mp he
    rw [hl, List.map_eq_nil_iff] at hnil
    rw [hnil]
    rfl
  · have hcons : seq (L.freeList order) ≠ [] := fun hnil => he (hempty.mpr hnil)
    rw [hring.head.1, firstOf, ← List.head?_map, ← hl, List.head?_eq_some_head hcons]
    rfl

/-- `buddy_free_area_init` (lines 188–195), as far as the pointers go. -/
def initFreeLists (L : Layout) (h : ListHeads) : ℕ → ListHeads
  | 0 => h
  | n + 1 => initListHead (initFreeLists L h n) (L.freeList n)

theorem initFreeLists_rings (hr : Rings h L.caches slabs)
    (hfree : ∀ order < maxOrder, Free L.caches slabs (L.freeList order)) {n : ℕ} (hn : n ≤ maxOrder) :
    ∃ seq, Rings (initFreeLists L h n) (L.freeList '' {order | order < n} ∪ L.caches) seq ∧
      (∀ order < n, seq (L.freeList order) = []) ∧ ∀ a ∈ L.caches, seq a = slabs a := by
  induction n with
  | zero => exact ⟨slabs, by simpa [initFreeLists] using hr, nofun, fun _ _ => rfl⟩
  | succ n ih =>
    obtain ⟨seq, hr, hseq, hslabs⟩ := ih (Nat.le_of_succ_le hn)
    have hne : ∀ order < n, L.freeList order ≠ L.freeList n := by
      intro order ho heq
      exact ho.ne (L.freeList_inj (show order < maxOrder by omega) (show n < maxOrder by omega) heq)
    have hnew : Free (L.freeList '' {order | order < n} ∪ L.caches) seq (L.freeList n) := by
      rintro a (⟨order, ho, rfl⟩ | ha)
      · rw [hseq order ho, List.mem_singleton]
        exact (hne order ho).symm
      · rw [hslabs a ha]
        exact hfree n hn a ha
    have hheads : insert (L.freeList n) (L.freeList '' {order | order < n} ∪ L.caches) =
        L.freeList '' {order | order < n + 1} ∪ L.caches := by
      have hlt : {order | order < n + 1} = insert n {order | order < n} := by
        ext order
        simp only [Set.mem_ofPred_eq, Set.mem_insert_iff]
        omega
      rw [hlt, Set.image_insert_eq, Set.insert_union]
    refine ⟨_, hheads ▸ initListHead_rings hr hnew, fun order ho => ?_, fun a ha => ?_⟩
    · by_cases hon : order = n
      · rw [hon, Function.update_self]
      · rw [Function.update_of_ne (hne order (by omega))]
        exact hseq order (by omega)
    · have hane : a ≠ L.freeList n := fun heq => L.freeList_notMem n hn (heq ▸ ha)
      rw [Function.update_of_ne hane]
      exact hslabs a ha

/-- After `buddy_free_area_init` all free lists are empty, and the lists of the caches are as they
    were. -/
theorem buddyFreeAreaInit_shows (hr : Rings h L.caches slabs)
    (hfree : ∀ order < maxOrder, Free L.caches slabs (L.freeList order)) :
    L.Shows (initFreeLists L h maxOrder) (buddyFreeAreaInit s) slabs := by
  obtain ⟨seq, hr, hseq, hslabs⟩ := initFreeLists_rings hr hfree le_rfl
  refine ⟨seq, hr, fun order ho => ?_, hslabs⟩
  have hnil : ((buddyFreeAreaInit s).freeArea order).freeList = [] := by
    simp only [buddyFreeAreaInit, if_pos ho]
  rw [hnil]
  exact ⟨nofun, hseq order ho⟩

end RaspiKernel.Mm
