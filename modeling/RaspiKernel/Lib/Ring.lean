import Mathlib

/-!
# Rings

Circular doubly linked lists. Every node has a pointer to the next one and one to
the one before it. A ring has a head, which is a node like the others but none of
its members, and the pointers lead from the head through the members and back to
it, both ways. `Rings` are rings that share no node.

Results:
* `Ring.split`: a ring in two parts, with the pair of pointers between them.
* `Ring.insert`, `Ring.remove`: a node between any two parts.
* `Rings.insert`, `Rings.remove`: the same among other rings, which stay as they are.
* `Rings.single`: a new ring without members.
* `Ring.unique`: the members are determined by the pointers.
-/

namespace RaspiKernel.Lib

/-- The two pointers of each node. -/
@[ext] structure Links (α : Type*) where
  next : α → α
  prev : α → α

namespace Links

variable {α : Type*} [DecidableEq α]

def setNext (h : Links α) (x y : α) : Links α := { h with next := Function.update h.next x y }

def setPrev (h : Links α) (x y : α) : Links α := { h with prev := Function.update h.prev x y }

@[simp] theorem setNext_next (h : Links α) (x y : α) :
    (h.setNext x y).next = Function.update h.next x y := rfl

@[simp] theorem setNext_prev (h : Links α) (x y : α) : (h.setNext x y).prev = h.prev := rfl

@[simp] theorem setPrev_next (h : Links α) (x y : α) : (h.setPrev x y).next = h.next := rfl

@[simp] theorem setPrev_prev (h : Links α) (x y : α) :
    (h.setPrev x y).prev = Function.update h.prev x y := rfl

end Links

variable {α : Type*} {h h' : Links α} {a e x y : α} {l l₁ l₂ : List α}

/-! ## Paths -/

/-- The pointers lead from `x` to `y` and back. -/
def Joined (h : Links α) (x y : α) : Prop := h.next x = y ∧ h.prev y = x

/-- The pointers lead through the nodes of the list, both ways. -/
def Joins (h : Links α) (l : List α) : Prop := l.IsChain (Joined h)

/-- A path depends on the pointers between its nodes only. -/
theorem Joins.frame (hl : Joins h l) (hnext : ∀ x ∈ l.dropLast, h'.next x = h.next x)
    (hprev : ∀ x ∈ l.tail, h'.prev x = h.prev x) : Joins h' l := by
  induction l with
  | nil => exact List.isChain_nil
  | cons x l ih =>
    cases l with
    | nil => exact List.isChain_singleton x
    | cons y l =>
      obtain ⟨⟨hxy, hyx⟩, hl⟩ := List.isChain_cons_cons.mp hl
      have hx := hnext x (by simp)
      have hy := hprev y (by simp)
      refine List.isChain_cons_cons.mpr ⟨⟨hx.trans hxy, hy.trans hyx⟩, ih hl ?_ ?_⟩
      · intro z hz
        exact hnext z (by rw [List.dropLast_cons_cons]; exact List.mem_cons_of_mem _ hz)
      · intro z hz
        exact hprev z (List.mem_cons_of_mem _ hz)

theorem joins_append : Joins h (l₁ ++ l₂) ↔
    Joins h l₁ ∧ Joins h l₂ ∧ ∀ x ∈ l₁.getLast?, ∀ y ∈ l₂.head?, Joined h x y :=
  List.isChain_append

/-! ## One ring -/

/-- From the head `a` the pointers lead through the members `l` and back to it. -/
structure Ring (h : Links α) (a : α) (l : List α) : Prop where
  nodup : (a :: l).Nodup
  joins : Joins h (a :: (l ++ [a]))

/-- The last node of a part that begins with the head. -/
def lastOf (a : α) (l : List α) : α := l.getLast?.getD a

/-- The first node of a part that ends with the head. -/
def firstOf (a : α) (l : List α) : α := l.head?.getD a

theorem getLast?_cons_eq (a : α) (l : List α) : (a :: l).getLast? = some (lastOf a l) :=
  List.getLast?_cons

theorem head?_snoc_eq (a : α) (l : List α) : (l ++ [a]).head? = some (firstOf a l) := by
  cases l <;> rfl

theorem lastOf_mem (a : α) (l : List α) : lastOf a l ∈ a :: l :=
  List.mem_of_getLast? (getLast?_cons_eq a l)

theorem firstOf_mem (a : α) (l : List α) : firstOf a l ∈ l ++ [a] :=
  List.mem_of_head? (head?_snoc_eq a l)

theorem mem_of_mem_front (hx : x ∈ a :: l₁) : x ∈ a :: (l₁ ++ l₂) := by
  rw [← List.cons_append]
  exact List.mem_append_left _ hx

theorem mem_of_mem_back (hx : x ∈ l₂ ++ [a]) : x ∈ a :: (l₁ ++ l₂) := by
  rcases List.mem_append.mp hx with hx | hx
  · exact List.mem_cons_of_mem a (List.mem_append_right l₁ hx)
  · rw [List.mem_singleton.mp hx]
    exact List.mem_cons_self

theorem lastOf_mem_append (a : α) (l₁ l₂ : List α) : lastOf a l₁ ∈ a :: (l₁ ++ l₂) :=
  mem_of_mem_front (lastOf_mem a l₁)

theorem firstOf_mem_append (a : α) (l₁ l₂ : List α) : firstOf a l₂ ∈ a :: (l₁ ++ l₂) :=
  mem_of_mem_back (firstOf_mem a l₂)

theorem perm_cons_middle (a e : α) (l₁ l₂ : List α) :
    (a :: (l₁ ++ e :: l₂)).Perm (e :: a :: (l₁ ++ l₂)) :=
  (List.perm_middle.cons a).trans (List.Perm.swap e a _)

/-- A ring in two parts. -/
theorem Ring.split : Ring h a (l₁ ++ l₂) ↔ (a :: (l₁ ++ l₂)).Nodup ∧ Joins h (a :: l₁) ∧
    Joins h (l₂ ++ [a]) ∧ Joined h (lastOf a l₁) (firstOf a l₂) := by
  have hparts : a :: (l₁ ++ l₂ ++ [a]) = (a :: l₁) ++ (l₂ ++ [a]) := by simp
  constructor
  · rintro ⟨hnd, hj⟩
    rw [hparts, joins_append] at hj
    exact ⟨hnd, hj.1, hj.2.1, hj.2.2 _ (getLast?_cons_eq a l₁) _ (head?_snoc_eq a l₂)⟩
  · rintro ⟨hnd, h₁, h₂, hmid⟩
    refine ⟨hnd, ?_⟩
    rw [hparts, joins_append]
    refine ⟨h₁, h₂, fun x hx y hy => ?_⟩
    rw [getLast?_cons_eq] at hx
    rw [head?_snoc_eq] at hy
    obtain rfl := Option.some.inj hx
    obtain rfl := Option.some.inj hy
    exact hmid

/-- The pointers of the head. -/
theorem Ring.head (hr : Ring h a l) : h.next a = firstOf a l ∧ h.prev a = lastOf a l := by
  have hfront : Ring h a ([] ++ l) := hr
  have hback : Ring h a (l ++ []) := by rwa [List.append_nil]
  exact ⟨(Ring.split.mp hfront).2.2.2.1, (Ring.split.mp hback).2.2.2.2⟩

/-- The pointers of a member. -/
theorem Ring.member (hr : Ring h a (l₁ ++ e :: l₂)) :
    h.next e = firstOf a l₂ ∧ h.prev e = lastOf a l₁ := by
  have hbehind : Ring h a ((l₁ ++ [e]) ++ l₂) := by rwa [List.append_assoc]
  have hlast : lastOf a (l₁ ++ [e]) = e := by simp [lastOf]
  have hnext := (Ring.split.mp hbehind).2.2.2.1
  rw [hlast] at hnext
  exact ⟨hnext, (Ring.split.mp hr).2.2.2.2⟩

theorem Ring.notMem_rest (hr : Ring h a (l₁ ++ e :: l₂)) : e ∉ a :: (l₁ ++ l₂) :=
  (List.nodup_cons.mp ((perm_cons_middle a e l₁ l₂).nodup_iff.mp hr.nodup)).1

theorem Ring.head_next_eq_iff (hr : Ring h a l) : h.next a = a ↔ l = [] := by
  rw [hr.head.1]
  cases l with
  | nil => exact iff_of_true rfl rfl
  | cons x l =>
    refine iff_of_false (fun hxa => ?_) (List.cons_ne_nil x l)
    have hx : x = a := hxa
    exact (List.nodup_cons.mp hr.nodup).1 (hx ▸ List.mem_cons_self)

/-- A ring depends on the pointers of its nodes only. -/
theorem Ring.frame (hr : Ring h a l)
    (hframe : ∀ x ∈ a :: l, h'.next x = h.next x ∧ h'.prev x = h.prev x) : Ring h' a l := by
  have hmem : ∀ x ∈ a :: (l ++ [a]), x ∈ a :: l := by
    intro x hx
    simpa [or_comm] using hx
  refine ⟨hr.nodup, hr.joins.frame (fun x hx => ?_) fun x hx => ?_⟩
  · exact (hframe x (hmem x (List.mem_of_mem_dropLast hx))).1
  · exact (hframe x (hmem x (List.mem_of_mem_tail hx))).2

theorem mem_dropLast_cons_ne (hnd : (a :: l).Nodup) (hx : x ∈ (a :: l).dropLast) :
    x ≠ lastOf a l := by
  have hsplit := List.dropLast_append_getLast? _ (getLast?_cons_eq a l)
  rw [← hsplit, List.nodup_append'] at hnd
  rintro rfl
  exact hnd.2.2 hx (List.mem_singleton_self _)

theorem mem_tail_snoc_ne (hnd : (l ++ [a]).Nodup) (hx : x ∈ (l ++ [a]).tail) :
    x ≠ firstOf a l := by
  have hsplit := List.cons_head?_tail (head?_snoc_eq a l)
  rw [← hsplit, List.nodup_cons] at hnd
  rintro rfl
  exact hnd.1 hx

/-- What is between the two parts may change, and with it the pointers that lead out of the first part
    and back into it. -/
theorem Ring.parts_frame (hnd : (a :: (l₁ ++ l₂)).Nodup) (h₁ : Joins h (a :: l₁))
    (h₂ : Joins h (l₂ ++ [a]))
    (hnext : ∀ x ∈ a :: (l₁ ++ l₂), x ≠ lastOf a l₁ → h'.next x = h.next x)
    (hprev : ∀ x ∈ a :: (l₁ ++ l₂), x ≠ firstOf a l₂ → h'.prev x = h.prev x) :
    Joins h' (a :: l₁) ∧ Joins h' (l₂ ++ [a]) := by
  have hnd' : (l₁ ++ (l₂ ++ [a])).Nodup := by
    have hperm : (a :: (l₁ ++ l₂)).Perm (l₁ ++ (l₂ ++ [a])) := by
      rw [← List.append_assoc]
      exact (List.perm_append_singleton a _).symm
    exact hperm.nodup_iff.mp hnd
  obtain ⟨-, hback, hapart⟩ := List.nodup_append'.mp hnd'
  have hfront : (a :: l₁).Nodup := by
    rw [← List.cons_append] at hnd
    exact (List.nodup_append'.mp hnd).1
  constructor
  · refine h₁.frame (fun x hx => ?_) fun x hx => ?_
    · exact hnext x (mem_of_mem_front (List.mem_of_mem_dropLast hx)) (mem_dropLast_cons_ne hfront hx)
    · refine hprev x (mem_of_mem_front (List.mem_of_mem_tail hx)) ?_
      rintro rfl
      exact hapart hx (firstOf_mem a l₂)
  · refine h₂.frame (fun x hx => ?_) fun x hx => ?_
    · rw [List.dropLast_concat] at hx
      refine hnext x (mem_of_mem_back (List.mem_append_left _ hx)) ?_
      rintro rfl
      rw [← List.cons_append, List.nodup_append'] at hnd
      exact hnd.2.2 (lastOf_mem a l₁) hx
    · exact hprev x (mem_of_mem_back (List.mem_of_mem_tail hx)) (mem_tail_snoc_ne hback hx)

/-- A new node between the two parts of a ring. -/
theorem Ring.insert (hr : Ring h a (l₁ ++ l₂)) (he : e ∉ a :: (l₁ ++ l₂))
    (hnext : ∀ x ∈ a :: (l₁ ++ l₂), x ≠ lastOf a l₁ → h'.next x = h.next x)
    (hprev : ∀ x ∈ a :: (l₁ ++ l₂), x ≠ firstOf a l₂ → h'.prev x = h.prev x)
    (hbefore : Joined h' (lastOf a l₁) e) (hafter : Joined h' e (firstOf a l₂)) :
    Ring h' a (l₁ ++ e :: l₂) := by
  obtain ⟨hnd, h₁, h₂, -⟩ := Ring.split.mp hr
  obtain ⟨h₁', h₂'⟩ := Ring.parts_frame hnd h₁ h₂ hnext hprev
  have hnd' := (perm_cons_middle a e l₁ l₂).nodup_iff.mpr (List.nodup_cons.mpr ⟨he, hnd⟩)
  refine Ring.split.mpr ⟨hnd', h₁', ?_, hbefore⟩
  have hjoin : Joins h' ([e] ++ (l₂ ++ [a])) := by
    refine joins_append.mpr ⟨List.isChain_singleton e, h₂', fun x hx y hy => ?_⟩
    rw [head?_snoc_eq] at hy
    obtain rfl := Option.some.inj hx
    obtain rfl := Option.some.inj hy
    exact hafter
  exact hjoin

/-- A ring without one of its members. -/
theorem Ring.remove (hr : Ring h a (l₁ ++ e :: l₂))
    (hnext : ∀ x ∈ a :: (l₁ ++ l₂), x ≠ lastOf a l₁ → h'.next x = h.next x)
    (hprev : ∀ x ∈ a :: (l₁ ++ l₂), x ≠ firstOf a l₂ → h'.prev x = h.prev x)
    (hjoin : Joined h' (lastOf a l₁) (firstOf a l₂)) : Ring h' a (l₁ ++ l₂) := by
  obtain ⟨hnd, h₁, h₂, -⟩ := Ring.split.mp hr
  have hsub : (a :: (l₁ ++ l₂)).Sublist (a :: (l₁ ++ e :: l₂)) :=
    ((List.sublist_cons_self e l₂).append_left l₁).cons_cons a
  have h₂' : Joins h (l₂ ++ [a]) := List.IsChain.tail h₂
  obtain ⟨h₁'', h₂''⟩ := Ring.parts_frame (hnd.sublist hsub) h₁ h₂' hnext hprev
  exact Ring.split.mpr ⟨hnd.sublist hsub, h₁'', h₂'', hjoin⟩

/-- The members are determined by the pointers. -/
theorem Ring.unique (hr : Ring h a l) (hr' : Ring h a l₁) : l = l₁ := by
  have hpath : ∀ (l l₁ : List α) (x : α), Joins h (x :: (l ++ [a])) → Joins h (x :: (l₁ ++ [a])) →
      a ∉ l → a ∉ l₁ → l = l₁ := by
    intro l
    induction l with
    | nil =>
      intro l₁ x hl hl₁ _ ha
      cases l₁ with
      | nil => rfl
      | cons y l₁ =>
        have hxa := (List.isChain_cons_cons.mp hl).1.1
        have hxy := (List.isChain_cons_cons.mp hl₁).1.1
        exact absurd List.mem_cons_self (hxy.symm.trans hxa ▸ ha)
    | cons z l ih =>
      intro l₁ x hl hl₁ ha ha₁
      obtain ⟨hxz, hl⟩ := List.isChain_cons_cons.mp hl
      cases l₁ with
      | nil =>
        have hxa := (List.isChain_cons_cons.mp hl₁).1.1
        exact absurd List.mem_cons_self (hxz.1.symm.trans hxa ▸ ha)
      | cons y l₁ =>
        obtain ⟨hxy, hl₁⟩ := List.isChain_cons_cons.mp hl₁
        obtain rfl : z = y := hxz.1.symm.trans hxy.1
        rw [ih l₁ z hl hl₁ (fun hm => ha (List.mem_cons_of_mem _ hm))
          fun hm => ha₁ (List.mem_cons_of_mem _ hm)]
  exact hpath l l₁ a hr.joins hr'.joins (List.nodup_cons.mp hr.nodup).1
    (List.nodup_cons.mp hr'.nodup).1

/-! ## Several rings -/

/-- Rings with the heads in `S`, none of which shares a node with another one. -/
structure Rings (h : Links α) (S : Set α) (seq : α → List α) : Prop where
  ring : ∀ a ∈ S, Ring h a (seq a)
  apart : ∀ a ∈ S, ∀ b ∈ S, a ≠ b → List.Disjoint (a :: seq a) (b :: seq b)

/-- The node is in none of the rings. -/
def Free (S : Set α) (seq : α → List α) (e : α) : Prop := ∀ a ∈ S, e ∉ a :: seq a

variable [DecidableEq α] {S : Set α} {seq : α → List α}

/-- A change of the pointers of one ring only. -/
theorem Rings.update (hr : Rings h S seq) (ha : a ∈ S) (hring : Ring h' a l)
    (hframe : ∀ b ∈ S, b ≠ a → ∀ x ∈ b :: seq b, h'.next x = h.next x ∧ h'.prev x = h.prev x)
    (hl : ∀ x ∈ l, x ∈ seq a ∨ Free S seq x) : Rings h' S (Function.update seq a l) := by
  have hself : Function.update seq a l a = l := Function.update_self _ _ _
  have hother : ∀ b, b ≠ a → Function.update seq a l b = seq b := fun b hb =>
    Function.update_of_ne hb _ _
  have hapart : ∀ b ∈ S, b ≠ a → List.Disjoint (a :: l) (b :: seq b) := by
    intro b hb hba x hx hxb
    rcases List.mem_cons.mp hx with rfl | hx
    · exact hr.apart x ha b hb hba.symm List.mem_cons_self hxb
    · rcases hl x hx with hx | hfree
      · exact hr.apart a ha b hb hba.symm (List.mem_cons_of_mem _ hx) hxb
      · exact hfree b hb hxb
  constructor
  · intro b hb
    by_cases hba : b = a
    · rwa [hba, hself]
    · rw [hother b hba]
      exact (hr.ring b hb).frame (hframe b hb hba)
  · intro b hb c hc hbc
    by_cases hba : b = a
    · subst hba
      rw [hself, hother c hbc.symm]
      exact hapart c hc hbc.symm
    · by_cases hca : c = a
      · subst hca
        rw [hself, hother b hba]
        exact (hapart b hb hba).symm
      · rw [hother b hba, hother c hca]
        exact hr.apart b hb c hc hbc

omit [DecidableEq α] in
/-- A node of one ring is in no other one. -/
theorem Rings.not_mem (hr : Rings h S seq) (ha : a ∈ S) (hx : x ∈ a :: seq a) {b : α} (hb : b ∈ S)
    (hba : b ≠ a) : x ∉ b :: seq b := fun hxb => hr.apart a ha b hb hba.symm hx hxb

/-- A new ring without members. -/
theorem Rings.single (hr : Rings h S seq) (ha : Free S seq a) (hself : Joined h' a a)
    (hframe : ∀ x, x ≠ a → h'.next x = h.next x ∧ h'.prev x = h.prev x) :
    Rings h' (insert a S) (Function.update seq a []) := by
  have hother : ∀ b ∈ S, Function.update seq a [] b = seq b ∧ a ∉ b :: seq b := by
    intro b hb
    have hab := ha b hb
    have hne : b ≠ a := by
      rintro rfl
      exact hab List.mem_cons_self
    exact ⟨Function.update_of_ne hne _ _, hab⟩
  constructor
  · rintro b (rfl | hb)
    · rw [Function.update_self]
      exact ⟨List.nodup_singleton b, List.isChain_pair.mpr hself⟩
    · rw [(hother b hb).1]
      refine (hr.ring b hb).frame fun x hx => hframe x ?_
      rintro rfl
      exact (hother b hb).2 hx
  · have hapart : ∀ b ∈ S, List.Disjoint [a] (b :: seq b) := fun b hb =>
      List.singleton_disjoint.mpr (hother b hb).2
    rintro b (rfl | hb) c (rfl | hc) hbc
    · exact absurd rfl hbc
    · rw [Function.update_self, (hother c hc).1]
      exact hapart c hc
    · rw [Function.update_self, (hother b hb).1]
      exact (hapart b hb).symm
    · rw [(hother b hb).1, (hother c hc).1]
      exact hr.apart b hb c hc hbc

/-- A change of one ring at a node `e` and at the two nodes next to it. -/
theorem Rings.update_around (hr : Rings h S seq) (ha : a ∈ S) (hring : Ring h' a l) {before after : α}
    (he : ∀ b ∈ S, b ≠ a → e ∉ b :: seq b) (hbefore : before ∈ a :: seq a)
    (hafter : after ∈ a :: seq a) (hnext : ∀ x, x ≠ e → x ≠ before → h'.next x = h.next x)
    (hprev : ∀ x, x ≠ e → x ≠ after → h'.prev x = h.prev x)
    (hl : ∀ x ∈ l, x ∈ seq a ∨ Free S seq x) : Rings h' S (Function.update seq a l) := by
  refine hr.update ha hring (fun b hb hba x hx => ?_) hl
  have hxe : x ≠ e := by
    rintro rfl
    exact he b hb hba hx
  constructor
  · refine hnext x hxe ?_
    rintro rfl
    exact hr.not_mem ha hbefore hb hba hx
  · refine hprev x hxe ?_
    rintro rfl
    exact hr.not_mem ha hafter hb hba hx

/-- A new node between the two parts of one of the rings. -/
theorem Rings.insert (hr : Rings h S seq) (ha : a ∈ S) (hseq : seq a = l₁ ++ l₂)
    (he : Free S seq e)
    (hnext : ∀ x, x ≠ e → x ≠ lastOf a l₁ → h'.next x = h.next x)
    (hprev : ∀ x, x ≠ e → x ≠ firstOf a l₂ → h'.prev x = h.prev x)
    (hbefore : Joined h' (lastOf a l₁) e) (hafter : Joined h' e (firstOf a l₂)) :
    Rings h' S (Function.update seq a (l₁ ++ e :: l₂)) := by
  have hea : e ∉ a :: (l₁ ++ l₂) := hseq ▸ he a ha
  have hring : Ring h a (l₁ ++ l₂) := hseq ▸ hr.ring a ha
  have hne : ∀ x ∈ a :: (l₁ ++ l₂), x ≠ e := fun x hx hxe => hea (hxe ▸ hx)
  refine hr.update_around ha (hring.insert hea (fun x hx => hnext x (hne x hx))
    (fun x hx => hprev x (hne x hx)) hbefore hafter) (fun b hb _ => he b hb)
    (hseq ▸ lastOf_mem_append a l₁ l₂) (hseq ▸ firstOf_mem_append a l₁ l₂) hnext hprev ?_
  intro x hx
  rw [hseq]
  rcases List.mem_append.mp hx with hx | hx
  · exact Or.inl (List.mem_append_left _ hx)
  · rcases List.mem_cons.mp hx with rfl | hx
    · exact Or.inr he
    · exact Or.inl (List.mem_append_right _ hx)

/-- One of the rings without one of its members. -/
theorem Rings.remove (hr : Rings h S seq) (ha : a ∈ S) (hseq : seq a = l₁ ++ e :: l₂)
    (hnext : ∀ x, x ≠ e → x ≠ lastOf a l₁ → h'.next x = h.next x)
    (hprev : ∀ x, x ≠ e → x ≠ firstOf a l₂ → h'.prev x = h.prev x)
    (hjoin : Joined h' (lastOf a l₁) (firstOf a l₂)) :
    Rings h' S (Function.update seq a (l₁ ++ l₂)) := by
  have hring : Ring h a (l₁ ++ e :: l₂) := hseq ▸ hr.ring a ha
  have hne : ∀ x ∈ a :: (l₁ ++ l₂), x ≠ e := fun x hx hxe => hring.notMem_rest (hxe ▸ hx)
  have hmem : ∀ x ∈ e :: a :: (l₁ ++ l₂), x ∈ a :: seq a := by
    intro x hx
    rw [hseq]
    exact (perm_cons_middle a e l₁ l₂).mem_iff.mpr hx
  refine hr.update_around ha (hring.remove (fun x hx => hnext x (hne x hx))
    (fun x hx => hprev x (hne x hx)) hjoin)
    (fun b hb hba => hr.not_mem ha (hmem e List.mem_cons_self) hb hba)
    (hmem _ (List.mem_cons_of_mem _ (lastOf_mem_append a l₁ l₂)))
    (hmem _ (List.mem_cons_of_mem _ (firstOf_mem_append a l₁ l₂))) hnext hprev ?_
  intro x hx
  rw [hseq]
  rcases List.mem_append.mp hx with hx | hx
  · exact Or.inl (List.mem_append_left _ hx)
  · exact Or.inl (List.mem_append_right _ (List.mem_cons_of_mem _ hx))

end RaspiKernel.Lib
