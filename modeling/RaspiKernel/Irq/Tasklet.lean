import RaspiKernel.Lib.SlotList

/-!
# Tasklets

Model of `tasklet_init`, `tasklet_add` and `do_tasklet` (`src/interrupt.c`), and of
the order in which the interrupt handlers call them when they are compiled with
`ENABLE_TASKLET` (`src/exception.c`, lines 171–176 and 226–229).

* `tl_head.tail` points to a slot: `tl_head.head` or the `next` field of a tasklet.
* The handlers enable interrupts before they call `do_tasklet`, so further calls are
  made while one is at work, down to any depth. `tasklet_add` is one step, as interrupts
  are still masked there, and so is each look of `do_tasklet` at the list and each store.

Results:
* `taskletAdd_iff`: a tasklet can be added to a well-formed list exactly if it is not on it.
* `TaskletSystem.Inv.exec`: what a step of `do_tasklet` keeps.
* `careful_tasklets`: if no tasklet is added while it is on the list, and no handler is at
  work inside of a round, the list stays well formed, every tasklet is run once for each
  time it was added, and every call returns.
* `tasklets_break`: the UART tasklet added twice while the timer tasklet runs, and an
  interrupt between two looks at the list.
-/

namespace RaspiKernel.Irq

open Lib.SlotList

/-! ## Model -/

/-- `tl_pool`. -/
inductive Tasklet where
  | uart
  | timer
  deriving DecidableEq, Repr

/-- The field `state`, with the priority. -/
def Tasklet.state : Tasklet → ℕ
  | .uart => 1
  | .timer => 2

/-- `tl_head.head` with the `next` fields of `tl_pool`, `tl_head.tail` and `cur_tl_priority`. -/
structure Tasklets where
  links : Links Tasklet
  tail : Slot Tasklet
  priority : ℕ

/-- `tasklet_init` (lines 16–24). -/
def taskletInit : Tasklets := ⟨fun _ => none, .head, 0⟩

/-- `tasklet_add` (lines 27–37). -/
def taskletAdd (q : Tasklets) (tl : Tasklet) : Tasklets :=
  let q := { q with links := Function.update q.links (.next tl) none }
  let q := { q with links := Function.update q.links q.tail (some tl) }
  { q with tail := .next tl }

/-! ## Calls -/

/-- Where a call of `do_tasklet` is in its loop (lines 49–79), with the variables `tl`, `tl_iter`, `todo` and
    `cur_tl` that it needs from there on. -/
inductive Point where
  /-- `while (*tl_iter)` -/
  | look (tl iter : Slot Tasklet) (todo : Bool)
  /-- The condition of the `if`. -/
  | compare (tl iter : Slot Tasklet) (todo : Bool)
  /-- `cur_tl_priority = (*tl_iter)->state; tl = tl_iter; todo = true;` -/
  | raise (iter : Slot Tasklet)
  /-- `tl_iter = &(*tl_iter)->next;` -/
  | advance (tl iter : Slot Tasklet) (todo : Bool)
  /-- `if (!(*tl)->next)` -/
  | last (tl : Slot Tasklet)
  /-- `tl_head.tail = tl;` -/
  | fixTail (tl : Slot Tasklet)
  /-- `cur_tl = *tl;` -/
  | take (tl : Slot Tasklet)
  /-- `*tl = cur_tl->next;` -/
  | unlink (tl : Slot Tasklet) (cur : Tasklet)
  /-- `cur_tl->func(cur_tl->data);` -/
  | run (cur : Tasklet)
  deriving DecidableEq

/-- The first point of a round. -/
abbrev Point.start : Point := .look .head .head false

/-- A call of `do_tasklet` that has not returned: `prev_priority`, and where it is. -/
structure Frame where
  prev : ℕ
  point : Point

/-- What happens to the tasklets. -/
inductive TaskletEvent where
  | added (t : Tasklet)
  | entered
  | started (t : Tasklet)
  | finished
  | returned
  deriving DecidableEq, Repr

/-- A step of a call: the tasklets, where the call is if it has not returned, and what happened. There is
    none where NULL is followed. -/
def Frame.exec (q : Tasklets) (f : Frame) : Option (Tasklets × Option Frame × List TaskletEvent) :=
  match f.point with
  | .look tl iter todo =>
    match q.links iter with
    | some _ => some (q, some ⟨f.prev, .compare tl iter todo⟩, [])
    | none => if todo then some (q, some ⟨f.prev, .last tl⟩, []) else some (q, none, [.returned])
  | .compare tl iter todo => do
    let t ← q.links iter
    if t.state > f.prev ∧ t.state > q.priority then some (q, some ⟨f.prev, .raise iter⟩, [])
    else some (q, some ⟨f.prev, .advance tl iter todo⟩, [])
  | .raise iter => do
    let t ← q.links iter
    some ({ q with priority := t.state }, some ⟨f.prev, .advance iter iter true⟩, [])
  | .advance tl iter todo => do
    let t ← q.links iter
    some (q, some ⟨f.prev, .look tl (.next t) todo⟩, [])
  | .last tl => do
    let t ← q.links tl
    if q.links (.next t) = none then some (q, some ⟨f.prev, .fixTail tl⟩, [])
    else some (q, some ⟨f.prev, .take tl⟩, [])
  | .fixTail tl => some ({ q with tail := tl }, some ⟨f.prev, .take tl⟩, [])
  | .take tl => do
    let t ← q.links tl
    some (q, some ⟨f.prev, .unlink tl t⟩, [])
  | .unlink tl cur =>
    let links := Function.update q.links tl (q.links (.next cur))
    some ({ q with links := links }, some ⟨f.prev, .run cur⟩, [.started cur])
  -- the tasklet returns, and `cur_tl_priority = prev_priority`
  | .run _ => some ({ q with priority := f.prev }, some ⟨f.prev, .start⟩, [.finished])

/-- The tasklets, the calls of `do_tasklet`, innermost first, and what has happened so far. -/
structure TaskletSystem where
  tasklets : Tasklets
  calls : List Frame
  log : List TaskletEvent

inductive TaskletOp where
  /-- `tasklet_add`. -/
  | add (t : Tasklet)
  /-- `do_tasklet` is called. -/
  | enter
  /-- The innermost call makes its next step. -/
  | exec

/-- Some steps of the calls. -/
abbrev execSteps (n : ℕ) : List TaskletOp := List.replicate n .exec

/-- One step. -/
def TaskletSystem.step (y : TaskletSystem) : TaskletOp → Option TaskletSystem
  | .add t => some ⟨taskletAdd y.tasklets t, y.calls, y.log ++ [.added t]⟩
  | .enter => some ⟨y.tasklets, ⟨y.tasklets.priority, .start⟩ :: y.calls, y.log ++ [.entered]⟩
  | .exec =>
    match y.calls with
    | [] => none
    | f :: calls => do
      let (q, f, events) ← f.exec y.tasklets
      some ⟨q, f.toList ++ calls, y.log ++ events⟩

/-- The tasklet is on the list. -/
def Tasklets.OnList (q : Tasklets) (t : Tasklet) : Prop := ∃ l, Linked q.links .head l ∧ t ∈ l

/-- A call that runs a tasklet, or is about to test `*tl_iter`. -/
def Point.Open : Point → Prop
  | .look .. => True
  | .run _ => True
  | _ => False

/-- No handler comes in where the innermost call has tested `*tl_iter` and not moved `tl_iter` on, or has
    chosen a tasklet and not taken it off the list. -/
def TaskletSystem.Open (y : TaskletSystem) : Prop := ∀ f ∈ y.calls.head?, f.point.Open

/-- No handler comes in inside of a round, and no tasklet is added that is on the list. -/
def TaskletOp.Careful (y : TaskletSystem) : TaskletOp → Prop
  | .add t => y.Open ∧ ¬ y.tasklets.OnList t
  | .enter => y.Open
  | .exec => True

/-- Every sequence of careful steps, from any priority. -/
inductive CarefulTasklets : TaskletSystem → Prop where
  | init (priority : ℕ) : CarefulTasklets ⟨{ taskletInit with priority := priority }, [], []⟩
  | step {y y' : TaskletSystem} (hy : CarefulTasklets y) {op : TaskletOp} (hop : op.Careful y)
      (h : y.step op = some y') : CarefulTasklets y'

/-- The calls that have not returned make their next steps until the last one returns. -/
inductive TaskletSystem.Returns : TaskletSystem → Prop where
  | done {y : TaskletSystem} (h : y.calls = []) : Returns y
  | step {y y' : TaskletSystem} (h : y.step .exec = some y') (hy' : Returns y') : Returns y

/-! ## The list -/

/-- The list holds the tasklets `l` and ends with NULL, and `tl_head.tail` points to its last
    slot. -/
structure Tasklets.Holds (q : Tasklets) (l : List Tasklet) : Prop where
  linked : Linked q.links .head l
  tail_eq : q.tail = lastSlot .head l

theorem Tasklets.Holds.onList_iff {q : Tasklets} {l : List Tasklet} (h : q.Holds l) {t : Tasklet} :
    q.OnList t ↔ t ∈ l := by
  constructor
  · rintro ⟨l', hl', ht⟩
    rwa [h.linked.unique hl']
  · exact fun ht => ⟨l, h.linked, ht⟩

theorem taskletInit_holds (priority : ℕ) : Tasklets.Holds { taskletInit with priority } [] :=
  ⟨rfl, rfl⟩

theorem next_mem_slots {t : Tasklet} {l : List Tasklet} : .next t ∈ slots .head l ↔ t ∈ l := by
  simp [slots]

theorem Tasklets.Holds.add {q : Tasklets} {l : List Tasklet} (h : q.Holds l) {t : Tasklet}
    (ht : t ∉ l) : (taskletAdd q t).Holds (l ++ [t]) := by
  refine ⟨?_, ?_⟩
  · have happ := h.linked.append (mt next_mem_slots.mp ht)
    rw [← h.tail_eq] at happ
    exact happ
  · rw [lastSlot_append]
    rfl

/-- A tasklet of the list that is added again cuts off what is behind it, or is linked to itself if
    it is the last one. -/
theorem Tasklets.Holds.add_again {q : Tasklets} {l l' : List Tasklet} (h : q.Holds l) {t : Tasklet}
    (ht : t ∈ l) (h' : Linked (taskletAdd q t).links .head l') : ∃ u ∈ l, u ∉ l' := by
  obtain ⟨l₁, l₂, rfl⟩ := List.append_of_mem ht
  have hnd := h.linked.slots_nodup
  rw [slots_append] at hnd
  obtain ⟨hnd₁, hnd₂, hdisj⟩ := List.nodup_append'.mp hnd
  have htail : q.tail = lastSlot (.next t) l₂ := by rw [h.tail_eq, lastSlot_append]
  -- up to `t` the list is as before
  have hkeep : ∀ s ∈ slots .head l₁, (taskletAdd q t).links s = q.links s := by
    intro s hs
    have hne : ∀ s' ∈ slots (.next t) l₂, s ≠ s' := fun s' hs' he => hdisj hs (he ▸ hs')
    show Function.update (Function.update q.links (.next t) none) q.tail (some t) s = _
    rw [Function.update_of_ne (htail ▸ hne _ (lastSlot_mem _ _)),
      Function.update_of_ne (hne _ List.mem_cons_self)]
  obtain ⟨hseg₁, hlast, -⟩ := linked_append.mp h.linked
  have hseg := hseg₁.frame hnd₁ fun s hs _ => hkeep s hs
  rw [← hkeep _ (lastSlot_mem _ _)] at hlast
  obtain ⟨r, rfl, hr⟩ := hseg.linked h'
  cases r with
  | nil => exact absurd (hr.symm.trans hlast) (by simp)
  | cons u r =>
    obtain rfl := Option.some.inj (hlast.symm.trans hr.1)
    cases l₂ with
    | nil =>
      -- the pointer behind `t` is to `t`
      have hself : (taskletAdd q t).links (.next t) = some t := by
        show Function.update (Function.update q.links (.next t) none) q.tail (some t) (.next t) = _
        rw [htail]
        exact Function.update_self _ _ _
      cases r with
      | nil => exact absurd (hr.2.symm.trans hself) (by simp)
      | cons v r =>
        obtain rfl := Option.some.inj (hself.symm.trans hr.2.1)
        have hlen := congrArg List.length (hr.2.unique hr.2.2)
        rw [List.length_cons] at hlen
        omega
    | cons v l₂ =>
      -- the pointer behind `t` is NULL
      have hne : q.tail ≠ .next t := by
        rw [htail]
        intro he
        exact (List.nodup_cons.mp hnd₂).1 (he ▸ lastSlot_mem (.next v) l₂)
      have hnull : (taskletAdd q t).links (.next t) = none := by
        show Function.update (Function.update q.links (.next t) none) q.tail (some t) (.next t) = _
        rw [Function.update_of_ne hne.symm]
        exact Function.update_self _ _ _
      obtain rfl : r = [] := hr.2.unique (r := []) hnull
      refine ⟨v, by simp, fun hv => ?_⟩
      have hnodup := h.linked.nodup
      rw [List.append_cons] at hnodup
      exact (List.nodup_append'.mp hnodup).2.2 hv List.mem_cons_self

/-- After `tasklet_add` the list ends and has kept its tasklets exactly if the new one was not on
    it. -/
theorem taskletAdd_iff {q : Tasklets} {l : List Tasklet} (h : q.Holds l) (t : Tasklet) :
    (∃ l', (taskletAdd q t).Holds l' ∧ ∀ u ∈ l, u ∈ l') ↔ ¬ q.OnList t := by
  rw [h.onList_iff]
  constructor
  · rintro ⟨l', hl', hkept⟩ ht
    obtain ⟨u, hu, hu'⟩ := h.add_again ht hl'.linked
    exact hu' (hkept u hu)
  · exact fun ht => ⟨l ++ [t], h.add ht, fun u hu => List.mem_append_left _ hu⟩

/-! ## One call -/

/-- What a call knows in its inner loop when it has seen the tasklets `seen`. -/
structure Scanned (prev priority : ℕ) (tl : Slot Tasklet) (todo : Bool) (seen : List Tasklet) : Prop where
  le : ∀ u ∈ seen, u.state ≤ priority
  prev_le : prev ≤ priority
  idle : todo = false → priority = prev
  chosen : todo = true → ∃ l₁ t l₂, seen = l₁ ++ t :: l₂ ∧ tl = lastSlot .head l₁ ∧
    prev < t.state ∧ t.state = priority

/-- The tasklet `t` of the list that the call has chosen. -/
structure Chosen (l : List Tasklet) (prev priority : ℕ) (tl : Slot Tasklet) (l₁ : List Tasklet) (t : Tasklet)
    (l₂ : List Tasklet) : Prop where
  split : l = l₁ ++ t :: l₂
  slot_eq : tl = lastSlot .head l₁
  prev_lt : prev < t.state
  state_eq : t.state = priority

/-- What holds where a call is, with the tasklets `l` on the list and `cur_tl_priority`. -/
def Point.Holds (tail : Slot Tasklet) (l : List Tasklet) (prev priority : ℕ) : Point → Prop
  | .look tl iter todo => ∃ seen, seen <+: l ∧ iter = lastSlot .head seen ∧
      Scanned prev priority tl todo seen
  | .compare tl iter todo => ∃ seen t, seen ++ [t] <+: l ∧ iter = lastSlot .head seen ∧
      Scanned prev priority tl todo seen
  | .raise iter => ∃ seen t, seen ++ [t] <+: l ∧ iter = lastSlot .head seen ∧
      (∀ u ∈ seen, u.state ≤ priority) ∧ prev ≤ priority ∧ priority < t.state
  | .advance tl iter todo => ∃ seen t, seen ++ [t] <+: l ∧ iter = lastSlot .head seen ∧
      Scanned prev priority tl todo (seen ++ [t])
  | .last tl => ∃ l₁ t l₂, Chosen l prev priority tl l₁ t l₂
  | .fixTail tl => ∃ l₁ t, Chosen l prev priority tl l₁ t []
  | .take tl => ∃ l₁ t l₂, Chosen l prev priority tl l₁ t l₂ ∧ tail = lastSlot .head (l₁ ++ l₂)
  | .unlink tl cur => ∃ l₁ l₂, Chosen l prev priority tl l₁ cur l₂ ∧ tail = lastSlot .head (l₁ ++ l₂)
  | .run cur => prev < cur.state ∧ cur.state = priority

/-- The call is about to store the pointer behind the tasklet that it takes off: `tl_head.tail` is already
    what it will be then. -/
def Point.Taking : Point → Prop
  | .take _ => True
  | .unlink .. => True
  | _ => False

/-- The calls that wait, where the one inside of them was made at `priority`. -/
def Waiting (l : List Tasklet) : ℕ → List Frame → Prop
  | _, [] => True
  | priority, f :: calls => f.point.Open ∧ (∀ tail, f.point.Holds tail l f.prev priority) ∧
      Waiting l f.prev calls

section

variable {q : Tasklets} {l l₁ l₂ seen rest : List Tasklet} {t : Tasklet} {tail tl : Slot Tasklet}
variable {prev priority : ℕ} {p : Point} {f : Frame} {calls : List Frame}

/-- A call that is at the start of a round has seen nothing. -/
theorem Point.start_holds : Point.start.Holds tail l prev prev :=
  ⟨[], List.nil_prefix, rfl, by simp, le_rfl, fun _ => rfl, by simp⟩

theorem Point.Holds.prev_le (h : p.Holds tail l prev priority) (hopen : p.Open) : prev ≤ priority := by
  cases p with
  | look tl iter todo =>
    obtain ⟨seen, -, -, hseen⟩ := h
    exact hseen.prev_le
  | run cur => exact h.2 ▸ h.1.le
  | _ => exact absurd hopen id

/-- What a waiting call knows is about the part of the list that it has seen. A tasklet that is added comes
    behind this part. -/
theorem Point.Holds.append (h : p.Holds tail l prev priority) (hopen : p.Open) (tail' : Slot Tasklet)
    (r : List Tasklet) : p.Holds tail' (l ++ r) prev priority := by
  cases p with
  | look tl iter todo =>
    obtain ⟨seen, hpre, hseen⟩ := h
    exact ⟨seen, hpre.trans (List.prefix_append l r), hseen⟩
  | run cur => exact h
  | _ => exact absurd hopen id

/-- A tasklet that is taken off by a call inside has a higher priority than those in this part. -/
theorem Point.Holds.erase (h : p.Holds tail (l₁ ++ t :: l₂) prev priority) (hopen : p.Open)
    (ht : priority < t.state) (tail' : Slot Tasklet) : p.Holds tail' (l₁ ++ l₂) prev priority := by
  cases p with
  | look tl iter todo =>
    obtain ⟨seen, hpre, hiter, hseen⟩ := h
    refine ⟨seen, ?_, hiter, hseen⟩
    have hnot : t ∉ seen := fun hmem => absurd (hseen.le t hmem) (by omega)
    rcases List.prefix_or_prefix_of_prefix hpre (List.prefix_append l₁ (t :: l₂)) with hle | ⟨r, rfl⟩
    · exact hle.trans (List.prefix_append l₁ l₂)
    · cases r with
      | nil =>
        rw [List.append_nil]
        exact List.prefix_append l₁ l₂
      | cons u r =>
        have hu := (List.prefix_append_right_inj l₁).mp hpre
        rw [List.cons_prefix_cons] at hu
        exact absurd (by simp [hu.1]) hnot
  | run cur => exact h
  | _ => exact absurd hopen id

theorem Waiting.append (h : Waiting l priority calls) (r : List Tasklet) :
    Waiting (l ++ r) priority calls := by
  induction calls generalizing priority with
  | nil => trivial
  | cons f calls ih =>
    obtain ⟨hopen, hf, hcalls⟩ := h
    exact ⟨hopen, fun tail => (hf tail).append hopen tail r, ih hcalls⟩

theorem Waiting.erase (h : Waiting (l₁ ++ t :: l₂) priority calls) (ht : priority < t.state) :
    Waiting (l₁ ++ l₂) priority calls := by
  induction calls generalizing priority with
  | nil => trivial
  | cons f calls ih =>
    obtain ⟨hopen, hf, hcalls⟩ := h
    have hle := (hf .head).prev_le hopen
    exact ⟨hopen, fun tail => (hf tail).erase hopen ht tail, ih hcalls (lt_of_le_of_lt hle ht)⟩

/-- The tasklets that a call still comes to from a slot of the list. -/
def behind (l : List Tasklet) : Slot Tasklet → ℕ
  | .head => l.length
  | .next t => l.length - (l.idxOf t + 1)

theorem behind_le (l : List Tasklet) (s : Slot Tasklet) : behind l s ≤ l.length := by
  cases s with
  | head => exact le_rfl
  | next t => exact Nat.sub_le _ _

theorem behind_lastSlot (hnd : (seen ++ rest).Nodup) :
    behind (seen ++ rest) (lastSlot .head seen) = rest.length := by
  induction seen using List.reverseRecOn with
  | nil => rfl
  | append_singleton seen t =>
    have hnot : t ∉ seen := by
      rw [List.append_assoc, List.singleton_append] at hnd
      intro hmem
      exact (List.nodup_append'.mp hnd).2.2 hmem List.mem_cons_self
    rw [lastSlot_append, lastSlot, behind, List.append_assoc, List.idxOf_append_of_notMem hnot,
      List.singleton_append, List.idxOf_cons_self, List.length_append, List.length_cons]
    omega

/-- The steps that a call makes at most up to the next time that it starts a tasklet, ends it or returns. -/
def Point.rank (l : List Tasklet) : Point → ℕ
  | .look _ iter _ => 4 * behind l iter + 5
  | .compare _ iter _ => 4 * behind l iter + 4
  | .raise iter => 4 * behind l iter + 3
  | .advance _ iter _ => 4 * behind l iter + 2
  | .last _ => 4
  | .fixTail _ => 3
  | .take _ => 2
  | .unlink .. => 1
  | .run _ => 0

/-- A step that does not start a tasklet, end it or return. -/
structure Frame.Moves (f : Frame) (q : Tasklets) (l : List Tasklet) (q' : Tasklets) (p : Point) : Prop where
  exec_eq : f.exec q = some (q', some ⟨f.prev, p⟩, [])
  links_eq : q'.links = q.links
  holds : p.Holds q'.tail l f.prev q'.priority
  tail_eq : ¬ p.Taking → q'.tail = lastSlot .head l
  rank_lt : p.rank l < f.point.rank l
  not_run : (∀ t, f.point ≠ .run t) ∧ ∀ t, p ≠ .run t

/-- What a call does with its next step. -/
inductive Frame.Does (f : Frame) (q : Tasklets) (l : List Tasklet) : Prop where
  | moves (q' : Tasklets) (p : Point) (h : f.Moves q l q' p)
  | returns (h : f.exec q = some (q, none, [.returned])) (hprio : q.priority = f.prev)
      (hpoint : (∀ t, f.point ≠ .run t) ∧ ¬ f.point.Taking)
  | starts {tl : Slot Tasklet} {l₁ : List Tasklet} {t : Tasklet} {l₂ : List Tasklet}
      (hpoint : f.point = .unlink tl t) (hc : Chosen l f.prev q.priority tl l₁ t l₂)
      (htail : q.tail = lastSlot .head (l₁ ++ l₂))
  | finishes {t : Tasklet} (hpoint : f.point = .run t)

/-- A tasklet more has been seen. -/
theorem Scanned.snoc {todo : Bool} (h : Scanned prev priority tl todo seen) (ht : t.state ≤ priority) :
    Scanned prev priority tl todo (seen ++ [t]) := by
  refine ⟨fun u hu => ?_, h.prev_le, h.idle, fun htodo => ?_⟩
  · rcases List.mem_append.mp hu with hu | hu
    · exact h.le u hu
    · rwa [List.mem_singleton.mp hu]
  · obtain ⟨l₁, c, l₂, rfl, hslot, hlt, hstate⟩ := h.chosen htodo
    exact ⟨l₁, c, l₂ ++ [t], by simp, hslot, hlt, hstate⟩

/-- What `*tl_iter` is. -/
theorem links_of_prefix (hl : Linked q.links .head l) (hpre : seen ++ [t] <+: l) :
    q.links (lastSlot .head seen) = some t := by
  obtain ⟨rest, rfl⟩ := hpre
  rw [List.append_assoc, List.singleton_append] at hl
  exact (linked_append.mp hl).2.1

/-- What `*tl` is, and what is behind it. -/
theorem Chosen.linked (hc : Chosen l prev priority tl l₁ t l₂) (hl : Linked q.links .head l) :
    q.links tl = some t ∧ Linked q.links (.next t) l₂ := by
  obtain ⟨rfl, rfl, -, -⟩ := hc
  exact ⟨(linked_append.mp hl).2.1, (linked_append.mp hl).2.2⟩

/-- One tasklet less is to come. -/
theorem behind_next (hpre : seen ++ [t] <+: l) (hnd : l.Nodup) :
    behind l (.next t) + 1 = behind l (lastSlot .head seen) := by
  obtain ⟨rest, rfl⟩ := hpre
  have hnew := behind_lastSlot hnd
  rw [lastSlot_append] at hnew
  rw [List.append_assoc] at hnd ⊢
  have hold := behind_lastSlot hnd
  rw [hold, List.length_append, List.length_singleton, Nat.add_comm]
  rw [List.append_assoc] at hnew
  exact congrArg (1 + ·) hnew

/-- A step that leaves the tasklets alone. -/
theorem Frame.does_quiet (p' : Point) (hexec : Frame.exec q ⟨prev, p⟩ = some (q, some ⟨prev, p'⟩, []))
    (h : p'.Holds q.tail l prev q.priority) (htail : ¬ p'.Taking → q.tail = lastSlot .head l)
    (hrank : p'.rank l < p.rank l) (hrun : (∀ t, p ≠ .run t) ∧ ∀ t, p' ≠ .run t) :
    Frame.Does ⟨prev, p⟩ q l :=
  .moves q p' ⟨hexec, rfl, h, htail, hrank, hrun⟩

theorem Frame.does_look {iter : Slot Tasklet} {todo : Bool} (hl : Linked q.links .head l)
    (htail : q.tail = lastSlot .head l) (h : (Point.look tl iter todo).Holds q.tail l prev q.priority) :
    Frame.Does ⟨prev, .look tl iter todo⟩ q l := by
  obtain ⟨seen, ⟨rest, rfl⟩, rfl, hseen⟩ := h
  cases rest with
  | nil =>
    rw [List.append_nil] at hl htail ⊢
    have hnull := (linked_iff_segment.mp hl).2
    cases todo with
    | false => exact .returns (by simp [Frame.exec, hnull]) (hseen.idle rfl) ⟨by simp, id⟩
    | true =>
      obtain ⟨l₁, t, l₂, hsplit, hslot, hlt, hstate⟩ := hseen.chosen rfl
      apply Frame.does_quiet (.last tl)
      · simp [Frame.exec, hnull]
      · exact ⟨l₁, t, l₂, hsplit, hslot, hlt, hstate⟩
      · exact fun _ => htail
      · simp only [Point.rank]
        omega
      · simp
  | cons t rest =>
    have hpre : seen ++ [t] <+: seen ++ t :: rest := ⟨rest, by simp⟩
    apply Frame.does_quiet (.compare tl (lastSlot .head seen) todo)
    · simp [Frame.exec, links_of_prefix hl hpre]
    · exact ⟨seen, t, hpre, rfl, hseen⟩
    · exact fun _ => htail
    · simp only [Point.rank]
      omega
    · simp

theorem Frame.does_compare {iter : Slot Tasklet} {todo : Bool} (hl : Linked q.links .head l)
    (htail : q.tail = lastSlot .head l) (h : (Point.compare tl iter todo).Holds q.tail l prev q.priority) :
    Frame.Does ⟨prev, .compare tl iter todo⟩ q l := by
  obtain ⟨seen, t, hpre, rfl, hseen⟩ := h
  by_cases hbetter : t.state > prev ∧ t.state > q.priority
  · apply Frame.does_quiet (.raise (lastSlot .head seen))
    · simp [Frame.exec, links_of_prefix hl hpre, hbetter]
    · exact ⟨seen, t, hpre, rfl, hseen.le, hseen.prev_le, hbetter.2⟩
    · exact fun _ => htail
    · simp only [Point.rank]
      omega
    · simp
  · have hle : prev ≤ q.priority := hseen.prev_le
    apply Frame.does_quiet (.advance tl (lastSlot .head seen) todo)
    · simp only [Frame.exec, links_of_prefix hl hpre, Option.bind_eq_bind, Option.bind_some]
      exact if_neg hbetter
    · exact ⟨seen, t, hpre, rfl, hseen.snoc (by omega)⟩
    · exact fun _ => htail
    · simp only [Point.rank]
      omega
    · simp

theorem Frame.does_raise {iter : Slot Tasklet} (hl : Linked q.links .head l)
    (htail : q.tail = lastSlot .head l) (h : (Point.raise iter).Holds q.tail l prev q.priority) :
    Frame.Does ⟨prev, .raise iter⟩ q l := by
  obtain ⟨seen, t, hpre, rfl, hle, hprev, hlt⟩ := h
  have hscanned : Scanned prev t.state (lastSlot .head seen) true (seen ++ [t]) := by
    refine ⟨fun u hu => ?_, hprev.trans hlt.le, by simp, fun _ =>
      ⟨seen, t, [], rfl, rfl, lt_of_le_of_lt hprev hlt, rfl⟩⟩
    rcases List.mem_append.mp hu with hu | hu
    · exact (hle u hu).trans hlt.le
    · rw [List.mem_singleton.mp hu]
  refine .moves { q with priority := t.state } (.advance (lastSlot .head seen) (lastSlot .head seen) true)
    ⟨?_, rfl, ⟨seen, t, hpre, rfl, hscanned⟩, fun _ => htail, ?_, by simp⟩
  · simp [Frame.exec, links_of_prefix hl hpre]
  · simp only [Point.rank]
    omega

theorem Frame.does_advance {iter : Slot Tasklet} {todo : Bool} (hl : Linked q.links .head l)
    (htail : q.tail = lastSlot .head l) (h : (Point.advance tl iter todo).Holds q.tail l prev q.priority) :
    Frame.Does ⟨prev, .advance tl iter todo⟩ q l := by
  obtain ⟨seen, t, hpre, rfl, hseen⟩ := h
  apply Frame.does_quiet (.look tl (.next t) todo)
  · simp [Frame.exec, links_of_prefix hl hpre]
  · exact ⟨seen ++ [t], hpre, by rw [lastSlot_append]; rfl, hseen⟩
  · exact fun _ => htail
  · have hless := behind_next hpre hl.nodup
    simp only [Point.rank]
    omega
  · simp

theorem Frame.does_last (hl : Linked q.links .head l) (htail : q.tail = lastSlot .head l)
    (h : (Point.last tl).Holds q.tail l prev q.priority) : Frame.Does ⟨prev, .last tl⟩ q l := by
  obtain ⟨l₁, t, l₂, hc⟩ := h
  obtain ⟨ht, hrest⟩ := hc.linked hl
  cases l₂ with
  | nil =>
    have hnull : q.links (.next t) = none := hrest
    apply Frame.does_quiet (.fixTail tl)
    · simp [Frame.exec, ht, hnull]
    · exact ⟨l₁, t, hc⟩
    · exact fun _ => htail
    · simp [Point.rank]
    · simp
  | cons u l₂ =>
    apply Frame.does_quiet (.take tl)
    · simp [Frame.exec, ht, hrest.1]
    · refine ⟨l₁, t, u :: l₂, hc, ?_⟩
      rw [htail, hc.split, lastSlot_append, lastSlot_append]
      rfl
    · exact fun htake => absurd trivial htake
    · simp [Point.rank]
    · simp

/-- What the next step of a call does, and what it keeps. -/
theorem Frame.does (hl : Linked q.links .head l) (htail : ¬ f.point.Taking → q.tail = lastSlot .head l)
    (h : f.point.Holds q.tail l f.prev q.priority) : f.Does q l := by
  obtain ⟨prev, point⟩ := f
  cases point with
  | look tl iter todo => exact Frame.does_look hl (htail id) h
  | compare tl iter todo => exact Frame.does_compare hl (htail id) h
  | raise iter => exact Frame.does_raise hl (htail id) h
  | advance tl iter todo => exact Frame.does_advance hl (htail id) h
  | last tl => exact Frame.does_last hl (htail id) h
  | fixTail tl =>
    obtain ⟨l₁, t, hc⟩ := h
    refine .moves { q with tail := tl } (.take tl) ⟨rfl, rfl, ⟨l₁, t, [], hc, ?_⟩,
      fun htake => absurd trivial htake, by simp [Point.rank], by simp⟩
    rw [List.append_nil, ← hc.slot_eq]
  | take tl =>
    obtain ⟨l₁, t, l₂, hc, heq⟩ := h
    apply Frame.does_quiet (.unlink tl t)
    · simp [Frame.exec, (hc.linked hl).1]
    · exact ⟨l₁, l₂, hc, heq⟩
    · exact fun htake => absurd trivial htake
    · simp [Point.rank]
    · simp
  | unlink tl cur =>
    obtain ⟨l₁, l₂, hc, heq⟩ := h
    exact .starts rfl hc heq
  | run cur => exact .finishes rfl

end

/-! ## Runs -/

/-- The starts and ends of tasklets and the returns of calls that an event pays for: a call its return, and a
    tasklet that is added its start and its end. -/
def TaskletEvent.budget : TaskletEvent → ℕ
  | .added _ => 2
  | .entered => 1
  | _ => 0

/-- The event is one of these. -/
def TaskletEvent.work : TaskletEvent → ℕ
  | .started _ => 1
  | .finished => 1
  | .returned => 1
  | _ => 0

/-- What is left of them for a call if nothing is on the list. -/
def Point.cost : Point → ℕ
  | .run _ => 2
  | _ => 1

theorem Point.cost_eq_one {p : Point} (h : ∀ t, p ≠ .run t) : p.cost = 1 := by
  cases p with
  | run t => exact absurd rfl (h t)
  | _ => rfl

/-- What is left of them for all calls. -/
def remaining (calls : List Frame) : ℕ := (calls.map fun f => f.point.cost).sum

/-- `tl_head.tail` is not ahead of the list. -/
def TaskletSystem.Settled (y : TaskletSystem) : Prop := ∀ f ∈ y.calls.head?, ¬ f.point.Taking

/-- What holds where the calls are. -/
def CallsHold (q : Tasklets) (l : List Tasklet) : List Frame → Prop
  | [] => True
  | f :: calls => f.point.Holds q.tail l f.prev q.priority ∧ Waiting l f.prev calls

/-- What holds between two steps, with the tasklets `l` on the list. -/
structure TaskletSystem.Inv (y : TaskletSystem) (l : List Tasklet) : Prop where
  linked : Linked y.tasklets.links .head l
  tail_eq : y.Settled → y.tasklets.tail = lastSlot .head l
  calls : CallsHold y.tasklets l y.calls
  count_eq : ∀ t, y.log.count (.added t) = y.log.count (.started t) + l.count t
  work_eq : (y.log.map TaskletEvent.work).sum + (2 * l.length + remaining y.calls) =
    (y.log.map TaskletEvent.budget).sum

/-- The steps that the calls make at most, with the tasklets `l` on the list: at most 13 from one start, end or
    return to the next. -/
def TaskletSystem.measure (y : TaskletSystem) (l : List Tasklet) : ℕ :=
  14 * (2 * l.length + remaining y.calls) + (y.calls.head?.map fun f => f.point.rank l).getD 0

theorem length_le_two {l : List Tasklet} (h : l.Nodup) : l.length ≤ 2 :=
  (List.subperm_of_subset h (show l ⊆ [.uart, .timer] from fun t _ => by
    cases t <;> simp)).length_le

theorem Point.rank_le {l : List Tasklet} (h : l.Nodup) (p : Point) : p.rank l ≤ 13 := by
  have hlen := length_le_two h
  cases p with
  | look tl iter todo | compare tl iter todo | raise iter | advance tl iter todo =>
    have := behind_le l iter
    simp only [Point.rank]
    omega
  | _ =>
    simp only [Point.rank]
    omega

theorem TaskletSystem.measure_lt {y y' : TaskletSystem} {l l' : List Tasklet} (hnd : l'.Nodup)
    (h : 2 * l'.length + remaining y'.calls < 2 * l.length + remaining y.calls) :
    y'.measure l' < y.measure l := by
  have hrank : (y'.calls.head?.map fun f => f.point.rank l').getD 0 ≤ 13 := by
    cases y'.calls with
    | nil => simp
    | cons f calls => exact f.point.rank_le hnd
  unfold TaskletSystem.measure
  omega

section

variable {q q' : Tasklets} {l : List Tasklet} {p : Point} {f : Frame} {calls : List Frame}
variable {log : List TaskletEvent} {y y' : TaskletSystem}

theorem Point.Open.not_taking {p : Point} (h : p.Open) : ¬ p.Taking := by
  cases p <;> simp_all [Point.Open, Point.Taking]

theorem TaskletSystem.Open.settled (h : y.Open) : y.Settled := fun f hf => (h f hf).not_taking

/-- The calls wait for one that is made now. -/
theorem CallsHold.waiting (h : CallsHold q l calls) (hopen : ∀ f ∈ calls.head?, f.point.Open) :
    Waiting l q.priority calls := by
  cases calls with
  | nil => trivial
  | cons f calls =>
    obtain ⟨hf, hcalls⟩ := h
    have hf' := hopen f rfl
    refine ⟨hf', fun tail => ?_, hcalls⟩
    have := hf.append hf' tail []
    rwa [List.append_nil] at this

/-- The calls go on when the one inside of them has returned. -/
theorem Waiting.callsHold (h : Waiting l q.priority calls) : CallsHold q l calls := by
  cases calls with
  | nil => trivial
  | cons f calls =>
    obtain ⟨-, hf, hcalls⟩ := h
    exact ⟨hf q.tail, hcalls⟩

theorem TaskletSystem.Inv.add (h : y.Inv l) (hopen : y.Open) {t : Tasklet} (ht : t ∉ l) :
    (⟨taskletAdd y.tasklets t, y.calls, y.log ++ [.added t]⟩ : TaskletSystem).Inv (l ++ [t]) := by
  have hwork := h.work_eq
  have hholds : y.tasklets.Holds l := ⟨h.linked, h.tail_eq hopen.settled⟩
  refine ⟨(hholds.add ht).linked, fun _ => (hholds.add ht).tail_eq, ?_, fun u => ?_, ?_⟩
  · exact @Waiting.callsHold (taskletAdd y.tasklets t) _ _ ((h.calls.waiting hopen).append [t])
  · have hu := h.count_eq u
    by_cases htu : t = u
    · subst htu
      simp only [List.count_append, List.count_singleton_self, List.count_singleton, reduceCtorEq,
        beq_iff_eq, if_false]
      omega
    · simp [List.count_append, hu, htu]
  · simp only [List.map_append, List.sum_append, List.map_singleton, List.sum_singleton,
      List.length_append, List.length_singleton, TaskletEvent.work, TaskletEvent.budget]
    omega

theorem TaskletSystem.Inv.enter (h : y.Inv l) (hopen : y.Open) :
    (⟨y.tasklets, ⟨y.tasklets.priority, .start⟩ :: y.calls, y.log ++ [.entered]⟩ :
      TaskletSystem).Inv l := by
  have hwork := h.work_eq
  refine ⟨h.linked, fun _ => h.tail_eq hopen.settled,
    ⟨Point.start_holds, h.calls.waiting hopen⟩, fun u => ?_, ?_⟩
  · simp [List.count_append, h.count_eq u]
  · simp [TaskletEvent.work, TaskletEvent.budget, remaining, Point.cost] at hwork ⊢
    omega

/-- The innermost call goes on to another point. -/
theorem TaskletSystem.Inv.move (h : TaskletSystem.Inv ⟨q, f :: calls, log⟩ l) (hm : f.Moves q l q' p) :
    TaskletSystem.Inv ⟨q', ⟨f.prev, p⟩ :: calls, log⟩ l ∧
      TaskletSystem.measure ⟨q', ⟨f.prev, p⟩ :: calls, log⟩ l <
        TaskletSystem.measure ⟨q, f :: calls, log⟩ l := by
  have hcost := Point.cost_eq_one hm.not_run.1
  have hcost' := Point.cost_eq_one hm.not_run.2
  have hlinked := h.linked
  rw [← hm.links_eq] at hlinked
  refine ⟨⟨hlinked, fun hs => hm.tail_eq (hs _ rfl), ⟨hm.holds, h.calls.2⟩, h.count_eq, ?_⟩, ?_⟩
  · have hwork := h.work_eq
    simp only [remaining, List.map_cons, List.sum_cons, hcost] at hwork
    simpa only [remaining, List.map_cons, List.sum_cons, hcost'] using hwork
  · have hlt := hm.rank_lt
    simp only [TaskletSystem.measure, remaining, List.map_cons, List.sum_cons, hcost, hcost',
      List.head?_cons, Option.map_some, Option.getD_some]
    omega

/-- It returns. -/
theorem TaskletSystem.Inv.leave (h : TaskletSystem.Inv ⟨q, f :: calls, log⟩ l) (hprio : q.priority = f.prev)
    (hrun : ∀ t, f.point ≠ .run t) (htaking : ¬ f.point.Taking) :
    TaskletSystem.Inv ⟨q, calls, log ++ [.returned]⟩ l ∧
      TaskletSystem.measure ⟨q, calls, log ++ [.returned]⟩ l <
        TaskletSystem.measure ⟨q, f :: calls, log⟩ l := by
  have hcost := Point.cost_eq_one hrun
  have hwait := h.calls.2
  rw [← hprio] at hwait
  refine ⟨⟨h.linked, fun _ => h.tail_eq fun g hg => ?_, hwait.callsHold, fun t => ?_, ?_⟩,
    TaskletSystem.measure_lt h.linked.nodup ?_⟩
  · obtain rfl : f = g := by simpa using hg
    exact htaking
  · simpa [List.count_append] using h.count_eq t
  · have hwork := h.work_eq
    simp [TaskletEvent.work, TaskletEvent.budget, remaining, hcost] at hwork ⊢
    omega
  · simp [remaining, hcost]

/-- It starts the tasklet that it has chosen. -/
theorem TaskletSystem.Inv.start {tl : Slot Tasklet} {l₁ l₂ : List Tasklet} {t : Tasklet} {prev : ℕ}
    (h : TaskletSystem.Inv ⟨q, ⟨prev, .unlink tl t⟩ :: calls, log⟩ l)
    (hc : Chosen l prev q.priority tl l₁ t l₂) (htail : q.tail = lastSlot .head (l₁ ++ l₂)) :
    TaskletSystem.Inv ⟨{ q with links := Function.update q.links tl (q.links (.next t)) },
        ⟨prev, .run t⟩ :: calls, log ++ [.started t]⟩ (l₁ ++ l₂) ∧
      TaskletSystem.measure ⟨{ q with links := Function.update q.links tl (q.links (.next t)) },
        ⟨prev, .run t⟩ :: calls, log ++ [.started t]⟩ (l₁ ++ l₂) <
        TaskletSystem.measure ⟨q, ⟨prev, .unlink tl t⟩ :: calls, log⟩ l := by
  obtain ⟨rfl, rfl, hprev, hstate⟩ := hc
  have hlinked := h.linked.unlink
  have hwork := h.work_eq
  refine ⟨⟨hlinked, fun _ => htail, ⟨⟨hprev, hstate⟩, h.calls.2.erase hprev⟩, fun u => ?_, ?_⟩,
    TaskletSystem.measure_lt hlinked.nodup ?_⟩
  · have hu := h.count_eq u
    by_cases htu : t = u
    · subst htu
      simp [List.count_append] at hu ⊢
      omega
    · simpa [List.count_append, htu] using hu
  · simp [TaskletEvent.work, TaskletEvent.budget, remaining, Point.cost] at hwork ⊢
    omega
  · simp [remaining, Point.cost]
    omega

/-- The tasklet returns, and the next round begins. -/
theorem TaskletSystem.Inv.finish {t : Tasklet} {prev : ℕ}
    (h : TaskletSystem.Inv ⟨q, ⟨prev, .run t⟩ :: calls, log⟩ l) :
    TaskletSystem.Inv ⟨{ q with priority := prev }, ⟨prev, .start⟩ :: calls, log ++ [.finished]⟩ l ∧
      TaskletSystem.measure ⟨{ q with priority := prev }, ⟨prev, .start⟩ :: calls, log ++ [.finished]⟩ l <
        TaskletSystem.measure ⟨q, ⟨prev, .run t⟩ :: calls, log⟩ l := by
  have hwork := h.work_eq
  refine ⟨⟨h.linked, fun _ => h.tail_eq fun g hg => ?_, ⟨Point.start_holds, h.calls.2⟩, fun u => ?_, ?_⟩,
    TaskletSystem.measure_lt h.linked.nodup ?_⟩
  · obtain rfl : ⟨prev, .run t⟩ = g := by simpa using hg
    exact id
  · simpa [List.count_append] using h.count_eq u
  · simp [TaskletEvent.work, TaskletEvent.budget, remaining, Point.cost] at hwork ⊢
    omega
  · simp [remaining, Point.cost]

/-- Every step of the innermost call keeps the invariant, and brings the calls closer to their return. -/
theorem TaskletSystem.Inv.exec (h : y.Inv l) (hcalls : y.calls ≠ []) :
    ∃ y' l', y.step .exec = some y' ∧ y'.Inv l' ∧ y'.measure l' < y.measure l := by
  obtain ⟨q, _ | ⟨⟨prev, point⟩, calls⟩, log⟩ := y
  · exact absurd rfl hcalls
  have htail : ¬ point.Taking → q.tail = lastSlot .head l := by
    intro hnot
    refine h.tail_eq fun g hg => ?_
    obtain rfl : ⟨prev, point⟩ = g := by simpa using hg
    exact hnot
  have hstep : ∀ {q' f' events}, Frame.exec q ⟨prev, point⟩ = some (q', f', events) →
      TaskletSystem.step ⟨q, ⟨prev, point⟩ :: calls, log⟩ .exec =
        some ⟨q', f'.toList ++ calls, log ++ events⟩ := by
    intro q' f' events hexec
    simp [TaskletSystem.step, hexec]
  rcases Frame.does h.linked htail h.calls.1 with ⟨q', p, hm⟩ | ⟨hexec, hprio, hrun, hnot⟩ |
    ⟨hpoint, hc, hnew⟩ | hpoint
  · refine ⟨_, l, hstep hm.exec_eq, ?_⟩
    rw [List.append_nil]
    exact h.move hm
  · exact ⟨_, l, hstep hexec, h.leave hprio hrun hnot⟩
  · obtain rfl : point = _ := hpoint
    exact ⟨_, _, hstep rfl, h.start hc hnew⟩
  · obtain rfl : point = _ := hpoint
    exact ⟨_, l, hstep rfl, h.finish⟩

/-- Every careful step keeps the invariant. -/
theorem TaskletSystem.Inv.step (h : y.Inv l) {op : TaskletOp} (hop : op.Careful y)
    (hstep : y.step op = some y') : ∃ l', y'.Inv l' := by
  cases op with
  | add t =>
    obtain rfl := Option.some.inj hstep
    exact ⟨_, h.add hop.1 fun ht => hop.2 ⟨l, h.linked, ht⟩⟩
  | enter =>
    obtain rfl := Option.some.inj hstep
    exact ⟨l, h.enter hop⟩
  | exec =>
    have hcalls : y.calls ≠ [] := by
      intro hnil
      simp [TaskletSystem.step, hnil] at hstep
    obtain ⟨y₁, l', hy₁, hl', -⟩ := h.exec hcalls
    obtain rfl := Option.some.inj (hstep.symm.trans hy₁)
    exact ⟨l', hl'⟩

theorem CarefulTasklets.inv (h : CarefulTasklets y) : ∃ l, y.Inv l := by
  induction h with
  | init priority => exact ⟨[], rfl, fun _ => rfl, trivial, fun _ => rfl, rfl⟩
  | step _ hop hstep ih =>
    obtain ⟨l, hl⟩ := ih
    exact hl.step hop hstep

/-- Every step of a call brings it closer to its return. -/
theorem TaskletSystem.Inv.returns (h : y.Inv l) : y.Returns := by
  induction hn : y.measure l using Nat.strong_induction_on generalizing y l with
  | _ n ih =>
    subst hn
    by_cases hcalls : y.calls = []
    · exact .done hcalls
    · obtain ⟨y', l', hy', hl', hlt⟩ := h.exec hcalls
      exact .step hy' (ih _ hlt hl' rfl)

/-- If no tasklet is added while it is on the list, and no handler comes in where a call of `do_tasklet` is
    inside of a round, then in every state the list ends with NULL and goes through different tasklets,
    `tl_head.tail` points to its last slot unless a call is about to take a tasklet off, every tasklet is on
    the list or was started once for each time it was added, the starts and ends of tasklets and the returns
    of `do_tasklet` are bounded by the calls made, and those calls that have not returned will. -/
theorem careful_tasklets (h : CarefulTasklets y) :
    (∃ l, Linked y.tasklets.links .head l ∧ l.Nodup ∧
      (y.Settled → y.tasklets.tail = lastSlot .head l) ∧
      ∀ t, y.log.count (.added t) = y.log.count (.started t) + l.count t) ∧
    (y.log.map TaskletEvent.work).sum ≤ (y.log.map TaskletEvent.budget).sum ∧ y.Returns := by
  obtain ⟨l, hl⟩ := h.inv
  have hwork := hl.work_eq
  exact ⟨⟨l, hl.linked, hl.linked.nodup, hl.tail_eq, hl.count_eq⟩, by omega, hl.returns⟩

end

/-- The steps of the calls are careful. -/
theorem CarefulTasklets.execs {y y' : TaskletSystem} (h : CarefulTasklets y) {n : ℕ}
    (hrun : (execSteps n).foldlM TaskletSystem.step y = some y') :
    CarefulTasklets y' := by
  induction n generalizing y with
  | zero =>
    cases hrun
    exact h
  | succ n ih =>
    have hrun : (y.step .exec).bind (fun y₁ => (execSteps n).foldlM TaskletSystem.step y₁) = some y' := hrun
    obtain ⟨y₁, hy₁, hrun⟩ := Option.bind_eq_some_iff.mp hrun
    exact ih (h.step (show TaskletOp.Careful y .exec from trivial) hy₁) hrun

/-- A call has seen the UART tasklet, and the timer tasklet is added before it looks on. The call that is made
    then runs it. -/
theorem careful_tasklets_nested : ∃ y : TaskletSystem, CarefulTasklets y ∧
    y.calls = [⟨1, .run .timer⟩, ⟨0, .look .head (.next .uart) true⟩] ∧
    Linked y.tasklets.links .head [.uart] ∧ y.Returns := by
  have h₀ : CarefulTasklets ⟨taskletInit, [], []⟩ := .init 0
  have h₁ := @CarefulTasklets.step _ _ h₀ (.add .uart)
    ⟨by simp [TaskletSystem.Open], fun h => by simpa using (taskletInit_holds 0).onList_iff.mp h⟩ rfl
  have h₂ := @CarefulTasklets.step _ _ h₁ .enter (by simp [TaskletOp.Careful, TaskletSystem.Open]) rfl
  have h₃ := @CarefulTasklets.execs _ _ h₂ 4 rfl
  have hlist : Tasklets.Holds (taskletAdd { taskletInit with priority := 1 } .uart) [.uart] :=
    (taskletInit_holds 1).add (by simp)
  have h₄ := @CarefulTasklets.step _ _ h₃ (.add .timer)
    ⟨by simp [TaskletSystem.Open, Point.Open], fun h => by simpa using hlist.onList_iff.mp h⟩ rfl
  have h₅ := @CarefulTasklets.step _ _ h₄ .enter
    (by simp [TaskletOp.Careful, TaskletSystem.Open, Point.Open]) rfl
  have h₆ := @CarefulTasklets.execs _ _ h₅ 12 rfl
  exact ⟨_, h₆, rfl, ⟨rfl, rfl⟩, (careful_tasklets h₆).2.2⟩

/-! ## Careless handlers -/

/-- The innermost call scans a list on which a tasklet that it does not choose is linked to itself. -/
structure Circling (y : TaskletSystem) (t : Tasklet) : Prop where
  self : y.tasklets.links (.next t) = some t
  calls : ∃ prev calls p iter, y.calls = ⟨prev, p⟩ :: calls ∧ t.state ≤ prev ∧
    y.tasklets.links iter = some t ∧
    ((∃ tl, p = .look tl iter false) ∨ (∃ tl, p = .compare tl iter false) ∨ ∃ tl, p = .advance tl iter false)

theorem Circling.exec {y : TaskletSystem} {t : Tasklet} (h : Circling y t) :
    ∃ y', y.step .exec = some y' ∧ Circling y' t := by
  obtain ⟨hself, prev, calls, p, iter, hcalls, hprev, hiter, hp⟩ := h
  obtain ⟨q, calls', log⟩ := y
  obtain rfl : calls' = _ := hcalls
  dsimp only at hself hiter
  rcases hp with ⟨tl, rfl⟩ | ⟨tl, rfl⟩ | ⟨tl, rfl⟩
  · refine ⟨⟨q, ⟨prev, .compare tl iter false⟩ :: calls, log⟩, ?_, hself, ?_⟩
    · simp [TaskletSystem.step, Frame.exec, hiter]
    · exact ⟨prev, calls, _, iter, rfl, hprev, hiter, .inr (.inl ⟨tl, rfl⟩)⟩
  · refine ⟨⟨q, ⟨prev, .advance tl iter false⟩ :: calls, log⟩, ?_, hself, ?_⟩
    · simp [TaskletSystem.step, Frame.exec, hiter, Nat.not_lt.mpr hprev]
    · exact ⟨prev, calls, _, iter, rfl, hprev, hiter, .inr (.inr ⟨tl, rfl⟩)⟩
  · refine ⟨⟨q, ⟨prev, .look tl (.next t) false⟩ :: calls, log⟩, ?_, hself, ?_⟩
    · simp [TaskletSystem.step, Frame.exec, hiter]
    · exact ⟨prev, calls, _, .next t, rfl, hprev, hself, .inl ⟨tl, rfl⟩⟩

/-- Such a call never returns. -/
theorem Circling.not_returns {y : TaskletSystem} {t : Tasklet} (h : Circling y t) : ¬ y.Returns := by
  intro hret
  induction hret with
  | done hnil =>
    obtain ⟨-, prev, calls, p, iter, hcalls, -⟩ := h
    rw [hnil] at hcalls
    cases hcalls
  | step hstep _ ih =>
    obtain ⟨y', hy', hcircle⟩ := h.exec
    obtain rfl := Option.some.inj (hstep.symm.trans hy')
    exact ih hcircle

/-- The timer tasklet runs at priority 2. Two UART interrupts come, and each adds the UART tasklet
    and calls `do_tasklet`, which leaves it on the list. The second time it is linked to itself: the
    list has no end, and the call does not return.
    And the timer interrupt comes where a call has seen that the list is not empty. The call that its handler
    makes runs all tasklets, and the one before it follows NULL. -/
theorem tasklets_break :
    (∃ y : TaskletSystem, ([TaskletOp.add .timer, .enter] ++ execSteps 9 ++ [TaskletOp.add .uart, .enter] ++
        execSteps 4 ++ [TaskletOp.add .uart, .enter]).foldlM TaskletSystem.step ⟨taskletInit, [], []⟩ = some y ∧
      (¬ ∃ l, Linked y.tasklets.links .head l) ∧ ¬ y.Returns) ∧
    ∃ y₁ y : TaskletSystem, [TaskletOp.add .uart, .enter, .exec].foldlM TaskletSystem.step
        ⟨taskletInit, [], []⟩ = some y₁ ∧ ¬ y₁.tasklets.OnList .timer ∧
      ([TaskletOp.add .timer, .enter] ++ execSteps 25).foldlM TaskletSystem.step y₁ = some y ∧
      y.calls = [⟨0, .compare .head .head false⟩] ∧ y.step .exec = none ∧ ¬ y.Returns := by
  refine ⟨⟨_, rfl, ?_, ?_⟩, _, _, rfl, ?_, rfl, rfl, rfl, ?_⟩
  · rintro ⟨l, hl⟩
    obtain ⟨r, rfl, hr⟩ := Segment.linked (l := [.uart, .uart]) ⟨rfl, rfl, trivial⟩ hl
    simpa using hl.nodup
  · exact @Circling.not_returns _ .uart ⟨rfl, 2, _, _, .head, rfl, by decide, rfl, .inl ⟨_, rfl⟩⟩
  · intro h
    have hlist : Tasklets.Holds (taskletAdd taskletInit .uart) [.uart] :=
      (taskletInit_holds 0).add (by simp)
    simpa using hlist.onList_iff.mp h
  · intro hret
    cases hret with
    | done hnil => cases hnil
    | step hstep _ => cases hstep

end RaspiKernel.Irq
