import RaspiKernel.Irq.Tasklet

/-!
# The order of the tasklets

`do_tasklet` without interrupts, over tasklets of any number and any priorities. `tl_pool`
has two of them, and for these a round is a sequence of steps of `RaspiKernel.Irq.Tasklet`.

A tasklet is run by a callback that does not touch the list: it changes a state `W`
of its own.

Results:
* `turnOf_execs`: on `tl_pool` a round is what the steps of a call come to.
* `turnOf_spec`: a round takes the first tasklet of the highest priority.
* `doTasklet_runs`: which tasklets a call runs, and in which order.
-/

namespace RaspiKernel.Irq

open Lib.SlotList Relation

/-! ## Model -/

/-- `tl_head` with the `next` fields of the tasklets, and `cur_tl_priority`. -/
structure TaskletQueue (T : Type) where
  links : Links T
  tail : Slot T
  priority : ℕ

/-- `tl`, `todo` and `cur_tl_priority` in the inner loop of `do_tasklet`. -/
structure Scan (T : Type) where
  tl : Slot T
  todo : Bool
  priority : ℕ

variable {T W : Type} [DecidableEq T]

/-- `tasklet_add` (lines 27–37). -/
def taskletAddOf (q : TaskletQueue T) (tl : T) : TaskletQueue T :=
  let q := { q with links := Function.update q.links (.next tl) none }
  let q := { q with links := Function.update q.links q.tail (some tl) }
  { q with tail := .next tl }

/-- The inner loop of `do_tasklet` (lines 55–62) from `tl_iter`, with a bound on its rounds. -/
def scanOf (state : T → ℕ) (links : Links T) (prev : ℕ) : ℕ → Slot T → Scan T → Option (Scan T)
  | 0, _, _ => none
  | rounds + 1, iter, sel =>
    match links iter with
    | none => some sel
    | some t =>
      let sel := if state t > prev ∧ state t > sel.priority then ⟨iter, true, state t⟩ else sel
      scanOf state links prev rounds (.next t) sel

/-- One round of the loop of `do_tasklet`, up to the call of the tasklet (lines 50–75). -/
def turnOf (state : T → ℕ) (rounds prev : ℕ) (q : TaskletQueue T) :
    Option (Option T × TaskletQueue T) := do
  let sel ← scanOf state q.links prev rounds .head ⟨.head, false, q.priority⟩
  let q := { q with priority := sel.priority }
  if !sel.todo then some (none, q)
  else
    match q.links sel.tl with
    | none => none
    | some cur =>
      let q := if q.links (.next cur) = none then { q with tail := sel.tl } else q
      some (some cur, { q with links := Function.update q.links sel.tl (q.links (.next cur)) })

/-- The loop of `do_tasklet` (lines 49–79): the tasklets it runs, in order. -/
def doTaskletLoop (state : T → ℕ) (func : T → W → W) (rounds prev : ℕ) :
    ℕ → TaskletQueue T → W → Option (List T × W × TaskletQueue T)
  | 0, _, _ => none
  | fuel + 1, q, w => do
    match ← turnOf state rounds prev q with
    | (none, q) => some ([], w, q)
    | (some t, q) =>
      let (runs, w, q) ← doTaskletLoop state func rounds prev fuel { q with priority := prev } (func t w)
      some (t :: runs, w, q)

/-- `do_tasklet` (lines 40–80), with a bound on the rounds of its loops. -/
def doTasklet (state : T → ℕ) (func : T → W → W) (fuel : ℕ) (q : TaskletQueue T) (w : W) :
    Option (List T × W × TaskletQueue T) :=
  doTaskletLoop state func fuel q.priority fuel q w

/-! ## The tasklets of `tl_pool` -/

/-- `tl_head` with the tasklets of `tl_pool`. -/
def Tasklets.toQueue (q : Tasklets) : TaskletQueue Tasklet := ⟨q.links, q.tail, q.priority⟩

/-- `tl_pool` again. -/
def TaskletQueue.toTasklets (q : TaskletQueue Tasklet) : Tasklets := ⟨q.links, q.tail, q.priority⟩

theorem taskletAddOf_eq (q : Tasklets) (t : Tasklet) :
    taskletAddOf q.toQueue t = (taskletAdd q t).toQueue := rfl

/-- The innermost call makes a step. -/
def Exec (y y' : TaskletSystem) : Prop := y.step .exec = some y'

section

variable {links : Links Tasklet} {tail : Slot Tasklet} {prev : ℕ} {calls : List Frame}
variable {log : List TaskletEvent}

/-- A step of a call that goes on. -/
theorem exec_of {q q' : Tasklets} {p p' : Point} {events : List TaskletEvent}
    (h : Frame.exec q ⟨prev, p⟩ = some (q', some ⟨prev, p'⟩, events)) :
    Exec ⟨q, ⟨prev, p⟩ :: calls, log⟩ ⟨q', ⟨prev, p'⟩ :: calls, log ++ events⟩ := by
  simp [Exec, TaskletSystem.step, h]

/-- A step of a call that goes on, where nothing happens to a tasklet. -/
theorem exec_quiet {q q' : Tasklets} {p p' : Point}
    (h : Frame.exec q ⟨prev, p⟩ = some (q', some ⟨prev, p'⟩, [])) :
    Exec ⟨q, ⟨prev, p⟩ :: calls, log⟩ ⟨q', ⟨prev, p'⟩ :: calls, log⟩ := by
  have hstep := @exec_of prev calls log _ _ _ _ _ h
  rwa [List.append_nil] at hstep

/-- A round of the inner loop is three steps, or four if a tasklet is chosen. -/
theorem execs_look {iter : Slot Tasklet} {t : Tasklet} (ht : links iter = some t) (sel : Scan Tasklet) :
    let sel' : Scan Tasklet :=
      if t.state > prev ∧ t.state > sel.priority then ⟨iter, true, t.state⟩ else sel
    ReflTransGen Exec ⟨⟨links, tail, sel.priority⟩, ⟨prev, .look sel.tl iter sel.todo⟩ :: calls, log⟩
      ⟨⟨links, tail, sel'.priority⟩, ⟨prev, .look sel'.tl (.next t) sel'.todo⟩ :: calls, log⟩ := by
  have hlook : Exec ⟨⟨links, tail, sel.priority⟩, ⟨prev, .look sel.tl iter sel.todo⟩ :: calls, log⟩
      ⟨⟨links, tail, sel.priority⟩, ⟨prev, .compare sel.tl iter sel.todo⟩ :: calls, log⟩ :=
    exec_quiet (by simp [Frame.exec, ht])
  have hadvance : ∀ tl todo priority,
      Exec ⟨⟨links, tail, priority⟩, ⟨prev, .advance tl iter todo⟩ :: calls, log⟩
        ⟨⟨links, tail, priority⟩, ⟨prev, .look tl (.next t) todo⟩ :: calls, log⟩ :=
    fun tl todo priority => exec_quiet (by simp [Frame.exec, ht])
  refine .head hlook ?_
  split_ifs with hbetter
  · have hcompare : Exec ⟨⟨links, tail, sel.priority⟩, ⟨prev, .compare sel.tl iter sel.todo⟩ :: calls, log⟩
        ⟨⟨links, tail, sel.priority⟩, ⟨prev, .raise iter⟩ :: calls, log⟩ :=
      exec_quiet (by simp [Frame.exec, ht, hbetter])
    have hraise : Exec ⟨⟨links, tail, sel.priority⟩, ⟨prev, .raise iter⟩ :: calls, log⟩
        ⟨⟨links, tail, t.state⟩, ⟨prev, .advance iter iter true⟩ :: calls, log⟩ :=
      exec_quiet (by simp [Frame.exec, ht])
    exact .head hcompare (.head hraise (.single (hadvance iter true t.state)))
  · have hcompare : Exec ⟨⟨links, tail, sel.priority⟩, ⟨prev, .compare sel.tl iter sel.todo⟩ :: calls, log⟩
        ⟨⟨links, tail, sel.priority⟩, ⟨prev, .advance sel.tl iter sel.todo⟩ :: calls, log⟩ := by
      apply exec_quiet
      simp only [Frame.exec, ht, Option.bind_eq_bind, Option.bind_some]
      exact if_neg hbetter
    exact .head hcompare (.single (hadvance sel.tl sel.todo sel.priority))

/-- The inner loop ends where its steps come to. -/
theorem execs_scan {rounds : ℕ} {iter : Slot Tasklet} {sel sel' : Scan Tasklet}
    (h : scanOf Tasklet.state links prev rounds iter sel = some sel') :
    ∃ iter', links iter' = none ∧
      ReflTransGen Exec ⟨⟨links, tail, sel.priority⟩, ⟨prev, .look sel.tl iter sel.todo⟩ :: calls, log⟩
        ⟨⟨links, tail, sel'.priority⟩, ⟨prev, .look sel'.tl iter' sel'.todo⟩ :: calls, log⟩ := by
  induction rounds generalizing iter sel with
  | zero => cases h
  | succ rounds ih =>
    rw [scanOf] at h
    cases hiter : links iter with
    | none =>
      rw [hiter] at h
      obtain rfl := Option.some.inj h
      exact ⟨iter, hiter, .refl⟩
    | some t =>
      rw [hiter] at h
      obtain ⟨iter', hnull, hrun⟩ := ih h
      exact ⟨iter', hnull, (execs_look hiter sel).trans hrun⟩

/-- The tasklet that is chosen is taken off the list in four steps, or five if it is the last one. -/
theorem execs_take {tl iter : Slot Tasklet} {cur : Tasklet} {priority : ℕ} (hnull : links iter = none)
    (hcur : links tl = some cur) :
    ReflTransGen Exec ⟨⟨links, tail, priority⟩, ⟨prev, .look tl iter true⟩ :: calls, log⟩
      ⟨⟨Function.update links tl (links (.next cur)), if links (.next cur) = none then tl else tail, priority⟩,
        ⟨prev, .run cur⟩ :: calls, log ++ [.started cur]⟩ := by
  have hlook : Exec ⟨⟨links, tail, priority⟩, ⟨prev, .look tl iter true⟩ :: calls, log⟩
      ⟨⟨links, tail, priority⟩, ⟨prev, .last tl⟩ :: calls, log⟩ :=
    exec_quiet (by simp [Frame.exec, hnull])
  have htake : ∀ tail', Exec ⟨⟨links, tail', priority⟩, ⟨prev, .take tl⟩ :: calls, log⟩
      ⟨⟨links, tail', priority⟩, ⟨prev, .unlink tl cur⟩ :: calls, log⟩ :=
    fun tail' => exec_quiet (by simp [Frame.exec, hcur])
  have hunlink : ∀ tail', Exec ⟨⟨links, tail', priority⟩, ⟨prev, .unlink tl cur⟩ :: calls, log⟩
      ⟨⟨Function.update links tl (links (.next cur)), tail', priority⟩, ⟨prev, .run cur⟩ :: calls,
        log ++ [.started cur]⟩ :=
    fun tail' => exec_of (by simp [Frame.exec])
  refine .head hlook ?_
  split_ifs with hlast
  · have hfirst : Exec ⟨⟨links, tail, priority⟩, ⟨prev, .last tl⟩ :: calls, log⟩
        ⟨⟨links, tail, priority⟩, ⟨prev, .fixTail tl⟩ :: calls, log⟩ :=
      exec_quiet (by simp [Frame.exec, hcur, hlast])
    have hfix : Exec ⟨⟨links, tail, priority⟩, ⟨prev, .fixTail tl⟩ :: calls, log⟩
        ⟨⟨links, tl, priority⟩, ⟨prev, .take tl⟩ :: calls, log⟩ :=
      exec_quiet (by simp [Frame.exec])
    exact .head hfirst (.head hfix (.head (htake tl) (.single (hunlink tl))))
  · have hfirst : Exec ⟨⟨links, tail, priority⟩, ⟨prev, .last tl⟩ :: calls, log⟩
        ⟨⟨links, tail, priority⟩, ⟨prev, .take tl⟩ :: calls, log⟩ :=
      exec_quiet (by simp [Frame.exec, hcur, hlast])
    exact .head hfirst (.head (htake tail) (.single (hunlink tail)))

/-- A round of a call is over: a tasklet has been started, or the call has returned. -/
def afterTurn (prev : ℕ) (calls : List Frame) (log : List TaskletEvent) (q : Tasklets) :
    Option Tasklet → TaskletSystem
  | some t => ⟨q, ⟨prev, .run t⟩ :: calls, log ++ [.started t]⟩
  | none => ⟨q, calls, log ++ [.returned]⟩

/-- On `tl_pool` a round is what the steps of a call come to, if nothing interrupts them. -/
theorem turnOf_execs {rounds : ℕ} {q : Tasklets} {r : Option Tasklet} {q' : TaskletQueue Tasklet}
    (h : turnOf Tasklet.state rounds prev q.toQueue = some (r, q')) :
    ReflTransGen Exec ⟨q, ⟨prev, .start⟩ :: calls, log⟩ (afterTurn prev calls log q'.toTasklets r) := by
  obtain ⟨links, tail, priority⟩ := q
  change turnOf Tasklet.state rounds prev ⟨links, tail, priority⟩ = some (r, q') at h
  obtain ⟨⟨tl, todo, priority'⟩, hscan, h⟩ := Option.bind_eq_some_iff.mp h
  obtain ⟨iter, hnull, hrun⟩ := @execs_scan _ tail _ calls log _ _ _ _ hscan
  refine hrun.trans ?_
  change links iter = none at hnull
  cases todo with
  | false =>
    obtain ⟨rfl, rfl⟩ := Prod.mk.inj (Option.some.inj h)
    refine .single ?_
    simp [Exec, TaskletSystem.step, Frame.exec, hnull, afterTurn, TaskletQueue.toTasklets]
  | true =>
    cases hcur : links tl with
    | none => simp [hcur] at h
    | some cur =>
      have htake := @execs_take links tail prev calls log tl iter cur priority' hnull hcur
      simp only [Bool.not_true, Bool.false_eq_true, if_false, hcur, Option.some.injEq, Prod.mk.injEq] at h
      obtain ⟨rfl, rfl⟩ := h
      split_ifs at htake ⊢ with hlast
      · exact htake
      · exact htake

end

/-! ## One round -/

variable {state : T → ℕ} {prev rounds : ℕ} {links : Links T} {q : TaskletQueue T} {l : List T}

/-- The list holds the tasklets `l` and ends with NULL, and `tl_head.tail` points to its last slot. -/
structure TaskletQueue.Holds (q : TaskletQueue T) (l : List T) : Prop where
  linked : Linked q.links .head l
  tail_eq : q.tail = lastSlot .head l

/-- `tasklet_add` of a tasklet that is not on the list appends it. -/
theorem TaskletQueue.Holds.add (h : q.Holds l) {t : T} (ht : t ∉ l) :
    (taskletAddOf q t).Holds (l ++ [t]) := by
  refine ⟨?_, ?_⟩
  · have happ := h.linked.append (t := t) (by simpa [slots] using ht)
    rw [← h.tail_eq] at happ
    exact happ
  · rw [lastSlot_append]
    rfl

/-- The loop has found the first of the tasklets with the highest priority. -/
structure First (state : T → ℕ) (prev : ℕ) (l : List T) (sel : Scan T) (l₁ : List T) (t : T)
    (l₂ : List T) : Prop where
  split : l = l₁ ++ t :: l₂
  slot_eq : sel.tl = lastSlot .head l₁
  priority_eq : sel.priority = state t
  prev_lt : prev < state t
  before : ∀ u ∈ l₁, state u < state t

/-- What the inner loop knows when it has seen the tasklets `seen`. -/
structure Seen (state : T → ℕ) (prev : ℕ) (l seen : List T) (sel : Scan T) : Prop where
  first : sel.todo = true → ∃ l₁ t l₂, First state prev l sel l₁ t l₂
  idle : sel.todo = false → sel.priority = prev
  prev_le : prev ≤ sel.priority
  le : ∀ u ∈ seen, state u ≤ sel.priority

omit [DecidableEq T] in
/-- One more tasklet. -/
theorem Seen.snoc {seen rest : List T} {sel : Scan T} {t : T} (h : Seen state prev l seen sel)
    (hl : l = seen ++ t :: rest) : Seen state prev l (seen ++ [t])
      (if state t > prev ∧ state t > sel.priority then ⟨lastSlot .head seen, true, state t⟩
        else sel) := by
  have hprev := h.prev_le
  split_ifs with hbetter
  · refine ⟨fun _ => ⟨seen, t, rest, hl, rfl, rfl, hbetter.1, fun u hu => ?_⟩, by simp,
      hbetter.1.le, fun u hu => ?_⟩
    · exact lt_of_le_of_lt (h.le u hu) hbetter.2
    · rcases List.mem_append.mp hu with hu | hu
      · exact (h.le u hu).trans hbetter.2.le
      · rw [List.mem_singleton.mp hu]
  · refine ⟨h.first, h.idle, hprev, fun u hu => ?_⟩
    rcases List.mem_append.mp hu with hu | hu
    · exact h.le u hu
    · rw [List.mem_singleton.mp hu]
      omega

omit [DecidableEq T] in
theorem scanOf_spec (h : Linked links .head l) {rest : List T} : ∀ {rounds : ℕ} {seen : List T}
    {sel : Scan T}, l = seen ++ rest → rest.length < rounds → Seen state prev l seen sel →
    ∃ sel', scanOf state links prev rounds (lastSlot .head seen) sel = some sel' ∧
      Seen state prev l l sel' := by
  induction rest with
  | nil =>
    intro rounds seen sel hl hrounds hsel
    obtain ⟨rounds, rfl⟩ := Nat.exists_eq_succ_of_ne_zero (Nat.ne_zero_of_lt hrounds)
    rw [List.append_nil] at hl
    subst hl
    refine ⟨sel, ?_, hsel⟩
    rw [scanOf, (linked_iff_segment.mp h).2]
  | cons t rest ih =>
    intro rounds seen sel hl hrounds hsel
    obtain ⟨rounds, rfl⟩ := Nat.exists_eq_succ_of_ne_zero (Nat.ne_zero_of_lt hrounds)
    rw [List.length_cons] at hrounds
    have ht : links (lastSlot .head seen) = some t := by
      rw [hl] at h
      exact (linked_append.mp h).2.1
    obtain ⟨sel', hscan, hsel'⟩ :=
      @ih rounds _ _ (hl.trans (List.append_cons seen t rest)) (by omega) (hsel.snoc hl)
    refine ⟨sel', ?_, hsel'⟩
    rw [lastSlot_append] at hscan
    rw [scanOf, ht]
    exact hscan

/-- A round finds no tasklet above `prev_priority`, or takes the first of the highest priority off the
    list. -/
theorem turnOf_spec (state : T → ℕ) (h : q.Holds l) (hprio : q.priority = prev)
    (hrounds : l.length < rounds) :
    (turnOf state rounds prev q = some (none, q) ∧ ∀ u ∈ l, state u ≤ prev) ∨
      ∃ l₁ t l₂ q', turnOf state rounds prev q = some (some t, q') ∧ l = l₁ ++ t :: l₂ ∧
        q'.Holds (l₁ ++ l₂) ∧ prev < state t ∧ (∀ u ∈ l₁, state u < state t) ∧
        ∀ u ∈ l, state u ≤ state t := by
  obtain ⟨sel, hscan, hsel⟩ : ∃ sel, scanOf state q.links prev rounds .head
      ⟨.head, false, q.priority⟩ = some sel ∧ Seen state prev l l sel :=
    scanOf_spec h.linked (List.nil_append l).symm hrounds
      ⟨fun ht => by simp at ht, fun _ => hprio, hprio.ge, fun u hu => by simp at hu⟩
  rw [turnOf, hscan]
  cases htodo : sel.todo with
  | false =>
    have hidle := hsel.idle htodo
    refine Or.inl ⟨?_, fun u hu => (hsel.le u hu).trans hidle.le⟩
    simp [htodo, hidle, ← hprio]
  | true =>
    obtain ⟨l₁, t, l₂, hfirst⟩ := hsel.first htodo
    obtain ⟨rfl, hslot, hpriority, hprev, hbefore⟩ := hfirst
    have ht : q.links sel.tl = some t := by
      rw [hslot]
      exact (linked_append.mp h.linked).2.1
    refine Or.inr ⟨l₁, t, l₂, {
      links := Function.update q.links sel.tl (q.links (.next t))
      tail := if q.links (.next t) = none then sel.tl else q.tail
      priority := sel.priority }, ?_, rfl, ⟨?_, ?_⟩, hprev, hbefore, fun u hu => ?_⟩
    · simp only [Option.bind_eq_bind, Option.bind_some, htodo, ht, Bool.not_true,
        Bool.false_eq_true, if_false]
      split_ifs <;> rfl
    · rw [hslot]
      exact h.linked.unlink
    · -- `tl_head.tail` moves only if the last tasklet is taken
      have hrest : Linked q.links (.next t) l₂ := (linked_append.mp h.linked).2.2
      cases l₂ with
      | nil =>
        dsimp only
        rw [if_pos (show q.links (.next t) = none from hrest), hslot, List.append_nil]
      | cons v l₂ =>
        dsimp only
        rw [if_neg (by rw [hrest.1]; simp), h.tail_eq, lastSlot_append, lastSlot_append]
        rfl
    · exact (hsel.le u hu).trans hpriority.le

/-! ## Whole calls -/

/-- The tasklets above priority `p`, each as often as it is on the list, in the order of decreasing
    priorities, those of one priority in the order of the list. -/
structure InOrder (state : T → ℕ) (p : ℕ) (l runs : List T) : Prop where
  perm : runs.Perm (l.filter fun t => p < state t)
  decreasing : runs.Pairwise fun t u => state u ≤ state t
  fifo : ∀ k, (runs.filter fun t => state t = k) = (l.filter fun t => p < state t).filter
    fun t => state t = k

omit [DecidableEq T] in
/-- The first tasklet of the highest priority, then the others. -/
theorem InOrder.cons {p : ℕ} {l₁ l₂ runs : List T} {t : T} (h : InOrder state p (l₁ ++ l₂) runs)
    (hp : p < state t) (hbefore : ∀ u ∈ l₁, state u < state t)
    (hle : ∀ u ∈ l₁ ++ t :: l₂, state u ≤ state t) : InOrder state p (l₁ ++ t :: l₂) (t :: runs) := by
  have hfilter : (l₁ ++ t :: l₂).filter (fun u => p < state u) =
      (l₁.filter fun u => p < state u) ++ t :: l₂.filter fun u => p < state u := by
    rw [List.filter_append, List.filter_cons_of_pos (by simpa using hp)]
  have hperm := h.perm
  have hfifo := h.fifo
  rw [List.filter_append] at hperm hfifo
  refine ⟨?_, List.pairwise_cons.mpr ⟨fun u hu => ?_, h.decreasing⟩, fun k => ?_⟩
  · rw [hfilter]
    exact (hperm.cons t).trans List.perm_middle.symm
  · have hmem := (List.mem_filter.mp (h.perm.mem_iff.mp hu)).1
    exact hle u (by simp only [List.mem_append, List.mem_cons] at hmem ⊢; tauto)
  · have hk := hfifo k
    rw [List.filter_append] at hk
    rw [hfilter, List.filter_append, List.filter_cons, List.filter_cons, hk]
    by_cases htk : state t = k
    · -- no tasklet before `t` has its priority
      have hnone : (l₁.filter fun u => p < state u).filter (fun u => state u = k) = [] := by
        refine List.filter_eq_nil_iff.mpr fun u hu => ?_
        have := hbefore u (List.mem_filter.mp hu).1
        simp only [decide_eq_true_eq]
        omega
      simp [htk, hnone]
    · simp [htk]

/-- The loop of `do_tasklet` from a list with the tasklets `l`. -/
theorem doTaskletLoop_spec (state : T → ℕ) (func : T → W → W) {fuel : ℕ} (h : q.Holds l)
    (hprio : q.priority = prev) (hrounds : l.length < rounds) (hfuel : l.length < fuel) (w : W) :
    ∃ runs q', doTaskletLoop state func rounds prev fuel q w =
        some (runs, runs.foldl (fun w t => func t w) w, q') ∧
      InOrder state prev l runs ∧ q'.Holds (l.filter fun t => state t ≤ prev) ∧ q'.priority = prev := by
  induction fuel generalizing q l w with
  | zero => exact absurd hfuel (Nat.not_lt_zero _)
  | succ fuel ih =>
    rw [doTaskletLoop]
    rcases turnOf_spec state h hprio hrounds with
      ⟨hturn, hle⟩ | ⟨l₁, t, l₂, q', hturn, rfl, hq', hprev, hbefore, hle⟩
    · rw [hturn]
      have hkept : (l.filter fun t => state t ≤ prev) = l :=
        List.filter_eq_self.mpr fun u hu => by simpa using hle u hu
      have hnone : (l.filter fun t => prev < state t) = [] :=
        List.filter_eq_nil_iff.mpr fun u hu => by simpa using hle u hu
      exact ⟨[], q, rfl, ⟨by rw [hnone], .nil, fun k => by rw [hnone]⟩, by rwa [hkept], hprio⟩
    · rw [hturn]
      simp only [List.length_append, List.length_cons] at hrounds hfuel
      obtain ⟨runs, q₁, hloop, hruns, hq₁, hprio₁⟩ := ih (q := { q' with priority := prev })
        ⟨hq'.linked, hq'.tail_eq⟩ rfl (by rw [List.length_append]; omega)
        (by rw [List.length_append]; omega) (func t w)
      refine ⟨t :: runs, q₁, ?_, hruns.cons hprev hbefore hle, ?_, hprio₁⟩
      · simp only [Option.bind_eq_bind, Option.bind_some, hloop]
        rfl
      · rw [List.filter_append] at hq₁
        rwa [List.filter_append, List.filter_cons_of_neg (by simpa using hprev)]

/-- `do_tasklet` on a list of any length with tasklets of any priorities, whose callbacks leave the list
    alone, comes back. It runs the tasklets above the priority it is called at, each once, in the order
    of decreasing priorities, and first in first out among those of one priority. The others stay on
    the list in their order, `tasklet_add` appends to them, and the priority is as before. -/
theorem doTasklet_runs (state : T → ℕ) (func : T → W → W) (h : q.Holds l) {fuel : ℕ}
    (hfuel : l.length < fuel) (w : W) :
    ∃ runs q', doTasklet state func fuel q w = some (runs, runs.foldl (fun w t => func t w) w, q') ∧
      InOrder state q.priority l runs ∧ runs.Nodup ∧
      q'.Holds (l.filter fun t => state t ≤ q.priority) ∧ q'.priority = q.priority ∧
      ∀ t, t ∉ l.filter (fun t => state t ≤ q.priority) →
        (taskletAddOf q' t).Holds ((l.filter fun t => state t ≤ q.priority) ++ [t]) := by
  obtain ⟨runs, q', hrun, hruns, hq', hprio⟩ :=
    doTaskletLoop_spec state func h rfl hfuel hfuel w
  have hnodup : runs.Nodup := hruns.perm.nodup_iff.mpr (h.linked.nodup.filter _)
  exact ⟨runs, q', hrun, hruns, hnodup, hq', hprio, fun t ht => hq'.add ht⟩

/-- Five tasklets, called `0` to `4`, with the priorities 3, 1, 5, 3 and 2. -/
def fiveTasklets : TaskletQueue (Fin 5) where
  links
    | .head => some 0
    | .next t => if h : t.val + 1 < 5 then some ⟨t.val + 1, h⟩ else none
  tail := .next 4
  priority := 1

/-- At priority 1 the tasklet 2 is run, then 0 and 3, then 4, and 1 stays. -/
theorem doTasklet_five : ∃ q', doTasklet ![3, 1, 5, 3, 2] (fun t w => w ++ [t]) 6 fiveTasklets [] =
      some ([2, 0, 3, 4], [2, 0, 3, 4], q') ∧ q'.Holds [1] ∧ q'.priority = 1 ∧
    (taskletAddOf q' 2).Holds [1, 2] := by
  have hholds : fiveTasklets.Holds [0, 1, 2, 3, 4] := ⟨⟨rfl, rfl, rfl, rfl, rfl, rfl⟩, rfl⟩
  obtain ⟨runs, q', hrun, -, -, hq', hprio, hadd⟩ := doTasklet_runs ![3, 1, 5, 3, 2]
    (fun t w => w ++ [t]) hholds (show _ < 6 by decide) []
  have hruns : runs = [2, 0, 3, 4] := by
    have heval : (doTasklet ![3, 1, 5, 3, 2] (fun t w => w ++ [t]) 6 fiveTasklets []).map Prod.fst =
        some [2, 0, 3, 4] := by decide +kernel
    rw [hrun] at heval
    exact Option.some.inj heval
  subst hruns
  exact ⟨q', hrun, hq', hprio, hadd 2 (by decide)⟩

end RaspiKernel.Irq
