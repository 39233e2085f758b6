import Mathlib

/-!
# Lists through pointer slots

A singly linked list of statically allocated items. A pointer is stored in a
slot: the head of the list or the `next` field of an item. `Segment m a l` says
that the pointers lead from slot `a` through the items `l`, and `Linked m a l`
that they also end there, with NULL in the last slot.

Results:
* `Linked.unique`, `Linked.slots_nodup`: the slots of a list that ends are different.
* `Linked.append`: a store of an item to the last slot.
* `Linked.unlink`: a store of the pointer behind an item to the slot before it.
-/

namespace RaspiKernel.Lib.SlotList

/-- Where a pointer to an item is stored. -/
inductive Slot (T : Type*) where
  | head
  | next (t : T)
  deriving DecidableEq, Repr

/-- What the slots hold. -/
abbrev Links (T : Type*) := Slot T → Option T

variable {T : Type*} {m m' : Links T} {a : Slot T} {l r : List T}

/-- The last slot of a list from slot `a` with the items `l`. -/
def lastSlot : Slot T → List T → Slot T
  | a, [] => a
  | _, t :: l => lastSlot (.next t) l

/-- The pointers lead from slot `a` through the items. -/
def Segment (m : Links T) : Slot T → List T → Prop
  | _, [] => True
  | a, t :: l => m a = some t ∧ Segment m (.next t) l

/-- The pointers lead from slot `a` through the items to NULL. -/
def Linked (m : Links T) : Slot T → List T → Prop
  | a, [] => m a = none
  | a, t :: l => m a = some t ∧ Linked m (.next t) l

/-- All slots of a list from slot `a`. -/
def slots (a : Slot T) (l : List T) : List (Slot T) := a :: l.map .next

theorem lastSlot_mem (a : Slot T) (l : List T) : lastSlot a l ∈ slots a l := by
  induction l generalizing a with
  | nil => exact List.mem_cons_self
  | cons t l ih => exact List.mem_cons_of_mem _ (ih _)

theorem lastSlot_append (a : Slot T) (l : List T) (t : T) (r : List T) :
    lastSlot a (l ++ t :: r) = lastSlot (.next t) r := by
  induction l generalizing a with
  | nil => rfl
  | cons s l ih => exact ih _

theorem slots_append (a : Slot T) (l : List T) (t : T) (r : List T) :
    slots a (l ++ t :: r) = slots a l ++ slots (.next t) r := by
  simp [slots]

theorem linked_append : Linked m a (l ++ r) ↔ Segment m a l ∧ Linked m (lastSlot a l) r := by
  induction l generalizing a with
  | nil => exact (and_iff_right trivial).symm
  | cons t l ih =>
    show _ ∧ Linked m (.next t) (l ++ r) ↔ (_ ∧ _) ∧ _
    rw [ih, and_assoc]
    rfl

theorem linked_iff_segment : Linked m a l ↔ Segment m a l ∧ m (lastSlot a l) = none := by
  have h := linked_append (m := m) (a := a) (l := l) (r := [])
  rwa [List.append_nil] at h

/-- The pointers lead through one list. -/
theorem Linked.unique (h : Linked m a l) (h' : Linked m a r) : l = r := by
  induction l generalizing a r with
  | nil =>
    cases r with
    | nil => rfl
    | cons t r => exact absurd (h.symm.trans h'.1) (by simp)
  | cons s l ih =>
    cases r with
    | nil => exact absurd (h'.symm.trans h.1) (by simp)
    | cons t r =>
      obtain rfl := Option.some.inj (h.1.symm.trans h'.1)
      rw [ih h.2 h'.2]

/-- A list that ends goes through every segment from its first slot. -/
theorem Segment.linked (h : Segment m a l) (h' : Linked m a r) :
    ∃ r', r = l ++ r' ∧ Linked m (lastSlot a l) r' := by
  induction l generalizing a r with
  | nil => exact ⟨r, rfl, h'⟩
  | cons t l ih =>
    cases r with
    | nil => exact absurd (h.1.symm.trans h') (by simp)
    | cons u r =>
      obtain rfl := Option.some.inj (h.1.symm.trans h'.1)
      obtain ⟨r', rfl, hr'⟩ := ih h.2 h'.2
      exact ⟨r', rfl, hr'⟩

/-- A list that ends does not come back to a slot: from there it would go on as before. -/
theorem Linked.slots_nodup (h : Linked m a l) : (slots a l).Nodup := by
  induction l generalizing a with
  | nil => exact List.nodup_singleton a
  | cons t l ih =>
    refine List.nodup_cons.mpr ⟨?_, ih h.2⟩
    intro ha
    obtain ⟨s, hs, rfl⟩ := List.mem_map.mp ha
    obtain ⟨l₁, l₂, hl⟩ := List.append_of_mem hs
    have hrest : Linked m (.next s) l₂ := by
      have h' := h
      rw [hl] at h'
      exact (linked_append.mp h').2.2
    have hlen := congrArg List.length (h.unique hrest)
    rw [hl, List.length_append, List.length_cons] at hlen
    omega

theorem Linked.nodup (h : Linked m a l) : l.Nodup :=
  List.Nodup.of_map _ (List.nodup_cons.mp h.slots_nodup).2

/-- The slots before the last one are those that a segment depends on. -/
theorem Segment.frame (h : Segment m a l) (hnd : (slots a l).Nodup)
    (hm : ∀ s ∈ slots a l, s ≠ lastSlot a l → m' s = m s) : Segment m' a l := by
  induction l generalizing a with
  | nil => trivial
  | cons t l ih =>
    obtain ⟨ha, hnd⟩ := List.nodup_cons.mp hnd
    have hne : a ≠ lastSlot (.next t) l := fun he => ha (he ▸ lastSlot_mem (.next t) l)
    refine ⟨(hm a List.mem_cons_self hne).trans h.1, ih h.2 hnd ?_⟩
    intro s hs hs'
    exact hm s (List.mem_cons_of_mem _ hs) hs'

theorem Linked.frame (h : Linked m a l) (hm : ∀ s ∈ slots a l, m' s = m s) : Linked m' a l := by
  obtain ⟨hseg, hlast⟩ := linked_iff_segment.mp h
  refine linked_iff_segment.mpr ⟨hseg.frame h.slots_nodup fun s hs _ => hm s hs, ?_⟩
  rw [hm _ (lastSlot_mem a l), hlast]

variable [DecidableEq T]

/-- Store NULL to the `next` field of a new item and the item to the last slot. -/
theorem Linked.append (h : Linked m a l) {t : T} (ht : .next t ∉ slots a l) :
    Linked (Function.update (Function.update m (.next t) none) (lastSlot a l) (some t)) a
      (l ++ [t]) := by
  have hne : ∀ s ∈ slots a l, s ≠ .next t := fun s hs he => ht (he ▸ hs)
  have hframe : ∀ s ∈ slots a l, Function.update m (.next t) none s = m s := fun s hs =>
    Function.update_of_ne (hne s hs) _ _
  obtain ⟨hseg, -⟩ := linked_iff_segment.mp (h.frame hframe)
  refine linked_append.mpr ⟨hseg.frame h.slots_nodup fun s _ hs => Function.update_of_ne hs _ _,
    Function.update_self _ _ _, ?_⟩
  show Function.update (Function.update m (.next t) none) (lastSlot a l) (some t) (.next t) = none
  rw [Function.update_of_ne (hne _ (lastSlot_mem a l)).symm, Function.update_self]

/-- Store the pointer behind the item `t` to the slot before it. -/
theorem Linked.unlink {t : T} (h : Linked m a (l ++ t :: r)) :
    Linked (Function.update m (lastSlot a l) (m (.next t))) a (l ++ r) := by
  obtain ⟨hseg, -, hrest⟩ := linked_append.mp h
  have hnd := h.slots_nodup
  rw [slots_append] at hnd
  obtain ⟨hl, -, hdisj⟩ := List.nodup_append'.mp hnd
  refine linked_append.mpr ⟨hseg.frame hl fun s _ hs => Function.update_of_ne hs _ _, ?_⟩
  -- the slots behind `t` are others than the one that changes
  have hframe : ∀ s ∈ slots (.next t) r,
      Function.update m (lastSlot a l) (m (.next t)) s = m s := by
    intro s hs
    refine Function.update_of_ne ?_ _ _
    rintro rfl
    exact hdisj (lastSlot_mem a l) hs
  cases r with
  | nil => exact (Function.update_self _ _ _).trans hrest
  | cons u r =>
    refine ⟨(Function.update_self _ _ _).trans hrest.1, hrest.2.frame fun s hs => ?_⟩
    exact hframe s (List.mem_cons_of_mem _ hs)

end RaspiKernel.Lib.SlotList
