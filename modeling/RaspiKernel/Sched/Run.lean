import RaspiKernel.Sched.Basic

/-!
# Runs of the scheduler

A run starts with `task_init` and makes any sequence of timer ticks, forks with
a free slot, exits and kills, as long as some task is RUNNING.

Every task keeps its counter between 0 and its priority, and every RUNNING task
has a positive priority. A pass of `schedule` that finds the largest counter to
be 0 has seen every RUNNING task, so that the reset gives each its priority and
the second pass finds a positive counter, whatever `c` and `next` the first pass
has left.

Results:
* `scan_spec`: a pass selects the largest counter, and the last slot among equals.
* `schedule_spec`: a call of `schedule` comes back after at most one reset.
* `reachable_schedule`: what holds in every reachable state, and of every call
  of `schedule` there.
-/

namespace RaspiKernel.Sched

/-! ## The invariant -/

/-- What every task of the pool satisfies. -/
structure Task.Ok (t : Task) (i : Slot) : Prop where
  taskId_eq : t.taskId = i
  counter_nonneg : 0 ≤ t.counter
  counter_le : t.counter ≤ t.priority
  priority_lt : t.priority < 2 ^ 31
  priority_pos : t.state = .running → 0 < t.priority

/-- The invariant of the pool. -/
def PoolInv (pool : Pool) : Prop := ∀ i, (pool i).Ok i

/-- Some task is RUNNING. -/
def SomeRunning (pool : Pool) : Prop := ∃ i, (pool i).state = .running

/-- The invariant between two operations. -/
structure Inv (s : State) : Prop where
  pool : PoolInv s.pool
  running : s.cur.state = .running
  counter_pos : 0 < s.cur.counter

theorem PoolInv.update {pool : Pool} (h : PoolInv pool) {i : Slot} {t : Task} (ht : t.Ok i) :
    PoolInv (Function.update pool i t) := by
  intro j
  by_cases hj : j = i
  · subst hj
    rwa [Function.update_self]
  · rw [Function.update_of_ne hj]
    exact h j

theorem toInt_of_lt {x : ℤ} (h0 : 0 ≤ x) (h : x < 2 ^ 31) : toInt x = x := by
  unfold toInt
  rw [Int.bmod_eq_of_le_mul_two] <;> omega

/-! ## One pass -/

/-- What a pass over the slots `l` does to `(c, next)`: either it meets no RUNNING task with a larger
    counter, or it ends with the largest counter and the last slot that has it. -/
theorem foldl_scanStep {pool : Pool} (hp : PoolInv pool) {l : List Slot} (hl : l.Pairwise (· > ·))
    (acc : ℤ × Slot) :
    (l.foldl (scanStep pool) acc = acc ∧
        ∀ j ∈ l, (pool j).state = .running → (pool j).counter ≤ acc.1) ∨
      ∃ i ∈ l, l.foldl (scanStep pool) acc = ((pool i).counter, i) ∧
        (pool i).state = .running ∧ acc.1 < (pool i).counter ∧
        ∀ j ∈ l, (pool j).state = .running →
          (pool j).counter ≤ (pool i).counter ∧ ((pool j).counter = (pool i).counter → j ≤ i) := by
  induction l generalizing acc with
  | nil => exact .inl ⟨rfl, by simp⟩
  | cons a l ih =>
    obtain ⟨ha, hl⟩ := List.pairwise_cons.mp hl
    rw [List.foldl_cons]
    by_cases hacc : (pool a).state = .running ∧ (pool a).counter > acc.1
    · -- `a` becomes the candidate, and only a strictly larger counter behind it replaces it
      have hstep : scanStep pool acc a = ((pool a).counter, a) := by
        rw [scanStep, if_pos hacc, toInt_of_lt (hp a).counter_nonneg
          ((hp a).counter_le.trans_lt (hp a).priority_lt)]
      rw [hstep]
      rcases ih hl ((pool a).counter, a) with ⟨heq, hle⟩ | ⟨i, hi, heq, hr, hlt, hmax⟩
      · refine .inr ⟨a, List.mem_cons_self, heq, hacc.1, hacc.2, ?_⟩
        intro j hj hjr
        rcases List.mem_cons.mp hj with rfl | hj
        · exact ⟨le_rfl, fun _ => le_rfl⟩
        · exact ⟨hle j hj hjr, fun _ => (ha j hj).le⟩
      · refine .inr ⟨i, List.mem_cons_of_mem _ hi, heq, hr, hacc.2.trans hlt, ?_⟩
        intro j hj hjr
        rcases List.mem_cons.mp hj with rfl | hj
        · exact ⟨hlt.le, fun h => absurd h hlt.ne⟩
        · exact hmax j hj hjr
    · have hstep : scanStep pool acc a = acc := if_neg hacc
      have hskip : (pool a).state = .running → (pool a).counter ≤ acc.1 := by
        intro h
        by_contra hc
        exact hacc ⟨h, by omega⟩
      rw [hstep]
      rcases ih hl acc with ⟨heq, hle⟩ | ⟨i, hi, heq, hr, hlt, hmax⟩
      · refine .inl ⟨heq, ?_⟩
        intro j hj hjr
        rcases List.mem_cons.mp hj with rfl | hj
        · exact hskip hjr
        · exact hle j hj hjr
      · refine .inr ⟨i, List.mem_cons_of_mem _ hi, heq, hr, hlt, ?_⟩
        intro j hj hjr
        rcases List.mem_cons.mp hj with rfl | hj
        · have := hskip hjr
          exact ⟨by omega, fun h => by omega⟩
        · exact hmax j hj hjr

theorem slotsDown_pairwise : slotsDown.Pairwise (· > ·) := by decide

theorem mem_slotsDown (i : Slot) : i ∈ slotsDown := by
  unfold slotsDown
  rw [List.mem_reverse]
  exact List.mem_finRange i

/-- The slot `i` holds a RUNNING task with the largest counter, and no later slot does. -/
structure Chosen (pool : Pool) (i : Slot) : Prop where
  running : (pool i).state = .running
  counter_le : ∀ j, (pool j).state = .running → (pool j).counter ≤ (pool i).counter
  last : ∀ j, (pool j).state = .running → (pool j).counter = (pool i).counter → j ≤ i

/-- A pass that starts below the counter of some RUNNING task selects the largest one. -/
theorem scan_spec {pool : Pool} (hp : PoolInv pool) (acc : ℤ × Slot)
    (h : ∃ i, (pool i).state = .running ∧ acc.1 < (pool i).counter) :
    ∃ i, scan pool acc = ((pool i).counter, i) ∧ Chosen pool i := by
  obtain ⟨k, hk, hlt⟩ := h
  rcases foldl_scanStep hp slotsDown_pairwise acc with ⟨-, hle⟩ | ⟨i, -, heq, hr, -, hmax⟩
  · have := hle k (mem_slotsDown k) hk
    omega
  · exact ⟨i, heq, hr, fun j hj => (hmax j (mem_slotsDown j) hj).1,
      fun j hj => (hmax j (mem_slotsDown j) hj).2⟩

/-! ## The reset -/

/-- When all counters are used up, a reset gives every RUNNING task its priority. -/
theorem recharge_of_idle {pool : Pool} (hidle : ∀ i, (pool i).state = .running → (pool i).counter = 0)
    {i : Slot} (hi : (pool i).state = .running) :
    recharge pool i = { pool i with counter := (pool i).priority } := by
  unfold recharge
  rw [if_pos hi, hidle i hi]
  simp

theorem recharge_state (pool : Pool) (i : Slot) : (recharge pool i).state = (pool i).state := by
  unfold recharge
  split <;> rfl

theorem PoolInv.recharge {pool : Pool} (h : PoolInv pool)
    (hidle : ∀ i, (pool i).state = .running → (pool i).counter = 0) :
    PoolInv (recharge pool) := by
  intro i
  by_cases hi : (pool i).state = .running
  · rw [recharge_of_idle hidle hi]
    have hpos := (h i).priority_pos hi
    exact ⟨(h i).taskId_eq, hpos.le, le_rfl, (h i).priority_lt, (h i).priority_pos⟩
  · have : Sched.recharge pool i = pool i := if_neg hi
    rw [this]
    exact h i

/-! ## `schedule` -/

/-- What the loop of `schedule` leaves behind: at most one reset, made only when every RUNNING task has
    used up its counter, and the right task. -/
structure Selects (pool : Pool) (sel : Selection) : Prop where
  recharges_le : sel.recharges ≤ 1
  idle : sel.recharges = 1 → ∀ i, (pool i).state = .running → (pool i).counter = 0
  pool_eq : sel.pool = recharge^[sel.recharges] pool
  inv : PoolInv sel.pool
  chosen : Chosen sel.pool sel.next
  counter_pos : 0 < (sel.pool sel.next).counter

/-- The loop ends within two passes. -/
theorem selectLoop_spec {pool : Pool} (hp : PoolInv pool) (hr : SomeRunning pool) :
    ∃ sel, Selects pool sel ∧ ∀ passes, selectLoop (passes + 2) pool (-1, 0) = .ok sel := by
  obtain ⟨k, hk⟩ := hr
  have hneg : (-1 : ℤ) < (pool k).counter := by
    have := (hp k).counter_nonneg
    omega
  obtain ⟨i, hscan, hi⟩ := scan_spec hp (-1, 0) ⟨k, hk, hneg⟩
  by_cases hc : (pool i).counter = 0
  · -- the largest counter is 0, so all are, and `c` enters the second pass as 0
    have hidle : ∀ j, (pool j).state = .running → (pool j).counter = 0 := by
      intro j hj
      have h0 := (hp j).counter_nonneg
      have h1 := hi.counter_le j hj
      omega
    have hp' := hp.recharge hidle
    have hpos : ∀ j, (pool j).state = .running → 0 < (recharge pool j).counter := by
      intro j hj
      rw [recharge_of_idle hidle hj]
      exact (hp j).priority_pos hj
    obtain ⟨m, hscan', hm⟩ := scan_spec hp' (0, i)
      ⟨k, by rwa [recharge_state], hpos k hk⟩
    have hmpos := hpos m (by rw [← recharge_state]; exact hm.running)
    refine ⟨⟨recharge pool, m, 1⟩, ⟨le_rfl, fun _ => hidle, rfl, hp', hm, hmpos⟩, ?_⟩
    intro passes
    have hpass : selectLoop (passes + 1) (recharge pool) (0, i) = .ok ⟨recharge pool, m, 0⟩ := by
      rw [selectLoop, hscan', if_pos hmpos.ne']
    rw [selectLoop, hscan]
    dsimp only
    rw [if_neg (by simp [hc]), hc, hpass]
    rfl
  · have hpos : 0 < (pool i).counter := by
      have := (hp i).counter_nonneg
      omega
    refine ⟨⟨pool, i, 0⟩, ⟨by simp, by simp, rfl, hp, hi, hpos⟩, ?_⟩
    intro passes
    rw [selectLoop, hscan, if_pos hc]

/-- Two tasks agree on what the scheduler decides by. -/
def Task.SameShare (t t' : Task) : Prop :=
  t.taskId = t'.taskId ∧ t.state = t'.state ∧ t.priority = t'.priority ∧ t.counter = t'.counter

theorem Task.Ok.of_sameShare {t t' : Task} {i : Slot} (h : t.Ok i) (hs : t'.SameShare t) :
    t'.Ok i := by
  obtain ⟨hid, hst, hpr, hco⟩ := hs
  obtain ⟨h1, h2, h3, h4, h5⟩ := h
  exact ⟨hid.trans h1, by rwa [hco], by rwa [hco, hpr], by rwa [hpr], by rwa [hst, hpr]⟩

theorem set_sameShare {s : State} {i : Slot} {t : Task} (ht : t.SameShare (s.pool i)) (j : Slot) :
    ((s.set i t).pool j).SameShare (s.pool j) := by
  show (Function.update s.pool i t j).SameShare _
  by_cases hj : j = i
  · subst hj
    rwa [Function.update_self]
  · rw [Function.update_of_ne hj]
    exact ⟨rfl, rfl, rfl, rfl⟩

theorem Task.SameShare.trans {t t' t'' : Task} (h : t.SameShare t') (h' : t'.SameShare t'') :
    t.SameShare t'' :=
  ⟨h.1.trans h'.1, h.2.1.trans h'.2.1, h.2.2.1.trans h'.2.2.1, h.2.2.2.trans h'.2.2.2⟩

/-- Switching to a RUNNING task makes it the current one and touches no share. It does not call
    `schedule` again. -/
theorem contextSwitch_spec {s : State} {next : Slot} (hrun : (s.pool next).state = .running) :
    ∃ s', (∀ resched, contextSwitch resched s next = .ok s') ∧ s'.current = next ∧
      ∀ i, (s'.pool i).SameShare (s.pool i) := by
  have h₁ : ∀ i, ((switchTo s next).pool i).SameShare (s.pool i) :=
    set_sameShare ⟨rfl, rfl, rfl, rfl⟩
  have hrun₁ : (switchTo s next).cur.state ≠ .stopped := by
    rw [show (switchTo s next).cur.state = (s.pool next).state from (h₁ next).2.1, hrun]
    decide
  unfold contextSwitch resume
  simp only [if_neg hrun₁]
  split
  · split
    · refine ⟨_, fun _ => rfl, rfl, fun i => Task.SameShare.trans ?_ (h₁ i)⟩
      apply set_sameShare
      exact ⟨rfl, rfl, rfl, rfl⟩
    · exact ⟨_, fun _ => rfl, rfl, h₁⟩
  · exact ⟨_, fun _ => rfl, rfl, h₁⟩

/-- A call of `schedule` from `p` that ends in `q`: its loop ends as `Selects` says after at most two
    passes, and the selected task is the current one. -/
structure Scheduled (p q : State) (sel : Selection) : Prop where
  loop : selectLoop 2 p.pool (-1, 0) = .ok sel
  selects : Selects p.pool sel
  current_eq : q.current = sel.next
  share : ∀ i, (q.pool i).SameShare (sel.pool i)

theorem schedule_spec {p : State} (hp : PoolInv p.pool) (hr : SomeRunning p.pool) :
    ∃ q sel, Scheduled p q sel ∧ ∀ fuel, schedule (fuel + 2) p = .ok q := by
  obtain ⟨sel, hsel, hloop⟩ := selectLoop_spec hp hr
  have hid : ({ p with pool := sel.pool } : State).cur.taskId = p.current :=
    (hsel.inv p.current).taskId_eq
  by_cases hnext : (sel.next : ℕ) = p.current
  · refine ⟨{ p with pool := sel.pool }, sel, ⟨hloop 0, hsel, ?_, fun i => ⟨rfl, rfl, rfl, rfl⟩⟩, ?_⟩
    · exact (Fin.ext hnext).symm
    · intro fuel
      rw [schedule, hloop]
      show (if (sel.next : ℕ) ≠ _ then _ else _) = _
      rw [hid, if_neg (not_not.mpr hnext)]
  · obtain ⟨q, hq, hcur, hshare⟩ := contextSwitch_spec
      (s := { p with pool := sel.pool }) hsel.chosen.running
    refine ⟨q, sel, ⟨hloop 0, hsel, hcur, hshare⟩, ?_⟩
    intro fuel
    rw [schedule, hloop]
    show (if (sel.next : ℕ) ≠ _ then _ else _) = _
    rw [hid, if_pos hnext, hq]

theorem Scheduled.inv {p q : State} {sel : Selection} (h : Scheduled p q sel) : Inv q := by
  have hcur : q.cur.SameShare (sel.pool sel.next) := by
    rw [← h.current_eq]
    exact h.share q.current
  refine ⟨fun i => (h.selects.inv i).of_sameShare (h.share i), ?_, ?_⟩
  · rw [hcur.2.1, h.selects.chosen.running]
  · rw [hcur.2.2.2]
    exact h.selects.counter_pos

/-! ## The operations -/

/-- The steps of a run. -/
inductive Op where
  /-- `do_timer`. -/
  | tick
  /-- `sys_fork`. -/
  | fork
  /-- `sys_exit` with the given `x0`. -/
  | exit (x0 : ℕ)
  /-- `sys_kill` with the given `x0`. -/
  | kill (x0 : ℕ)

/-- One step. -/
def step (fuel : ℕ) (s : State) : Op → Except Stop State
  | .tick => doTimer fuel s
  | .fork => sysFork s
  | .exit x0 => sysExit fuel s x0
  | .kill x0 => .ok (sysKill s x0).2

/-- The state in which a step calls `schedule`, if it does. -/
def Op.schedulePoint (s : State) : Op → Option State
  | .tick => if s.countDown.cur.counter > 0 then none else some s.countDown
  | .exit x0 => some (s.markExit x0)
  | _ => none

/-- The steps that are taken: a fork has a free slot, and an exit leaves a RUNNING task. The other
    steps do not stop the current task. -/
def Op.Enabled (s : State) : Op → Prop
  | .fork => ∃ i, i ≠ 0 ∧ (s.pool i).state = .stopped
  | .exit x0 => SomeRunning (s.markExit x0).pool
  | _ => True

/-- The states of the runs. -/
inductive Reachable (fuel : ℕ) : State → Prop
  | init : Reachable fuel taskInit
  | step {s s' : State} {op : Op} (hs : Reachable fuel s) (hop : op.Enabled s)
      (h : step fuel s op = .ok s') : Reachable fuel s'

theorem taskInit_inv : Inv taskInit := by
  refine ⟨?_, rfl, by decide⟩
  refine PoolInv.update (fun i => ?_) ?_
  · exact ⟨rfl, le_rfl, le_rfl, by simp [stoppedTask], by intro h; cases h⟩
  · exact ⟨rfl, by decide, by decide, by decide, by decide⟩

theorem Inv.countDown {s : State} (h : Inv s) : PoolInv s.countDown.pool := by
  obtain ⟨h1, -, h3, h4, h5⟩ := h.pool s.current
  have hpos := h.counter_pos
  apply h.pool.update
  unfold State.cur at *
  exact ⟨h1, by dsimp only; omega, by dsimp only; omega, h4, h5⟩

theorem countDown_cur (s : State) :
    s.countDown.cur = { s.cur with counter := s.cur.counter - 1 } :=
  Function.update_self ..

theorem doTimer_spec {s : State} (h : Inv s) (fuel : ℕ) :
    ∃ s', doTimer (fuel + 2) s = .ok s' ∧ Inv s' ∧
      ∀ p, Op.tick.schedulePoint s = some p → schedule (fuel + 2) p = .ok s' ∧
        ∃ sel, Scheduled p s' sel := by
  have hrun : s.countDown.cur.state = .running := by
    rw [countDown_cur]
    exact h.running
  by_cases hc : s.countDown.cur.counter > 0
  · refine ⟨s.countDown, if_pos hc, ⟨h.countDown, hrun, hc⟩, ?_⟩
    intro p hp
    rw [Op.schedulePoint, if_pos hc] at hp
    cases hp
  · obtain ⟨q, sel, hq, hfuel⟩ := schedule_spec h.countDown ⟨_, hrun⟩
    refine ⟨q, (if_neg hc).trans (hfuel fuel), hq.inv, ?_⟩
    intro p hp
    rw [Op.schedulePoint, if_neg hc, Option.some.injEq] at hp
    subst hp
    exact ⟨hfuel fuel, sel, hq⟩

theorem PoolInv.markExit {s : State} (h : PoolInv s.pool) (x0 : ℕ) :
    PoolInv (s.markExit x0).pool := by
  obtain ⟨h1, h2, h3, h4, -⟩ := h s.current
  exact h.update ⟨h1, h2, h3, h4, by intro hst; cases hst⟩

theorem sysExit_spec {s : State} (h : Inv s) {x0 : ℕ} (hr : SomeRunning (s.markExit x0).pool)
    (fuel : ℕ) :
    ∃ s' sel, sysExit (fuel + 2) s x0 = .ok s' ∧ Scheduled (s.markExit x0) s' sel := by
  obtain ⟨q, sel, hq, hfuel⟩ := schedule_spec (h.pool.markExit x0) hr
  exact ⟨q, sel, hfuel fuel, hq⟩

/-- Replacing another task than the current one keeps the invariant. -/
theorem Inv.set_other {s : State} (h : Inv s) {i : Slot} (hi : i ≠ s.current) {t : Task}
    (ht : t.Ok i) (k : ℤ) : Inv { s.set i t with numRunningTask := k } := by
  have hcur : ({ s.set i t with numRunningTask := k } : State).cur = s.cur :=
    Function.update_of_ne hi.symm ..
  exact ⟨h.pool.update ht, by rw [hcur]; exact h.running, by rw [hcur]; exact h.counter_pos⟩

theorem findEmptyTask_spec {s : State} (hfree : ∃ i, i ≠ 0 ∧ (s.pool i).state = .stopped) :
    ∃ child, (s.pool child).state = .stopped ∧
      findEmptyTask s = (some child, { s with numRunningTask := s.numRunningTask + 1 }) := by
  obtain ⟨k, hk⟩ := hfree
  unfold findEmptyTask
  split
  next i hi =>
    have hfound := List.find?_some hi
    exact ⟨i, (of_decide_eq_true hfound).2, rfl⟩
  next hnone =>
    have := List.find?_eq_none.mp hnone k (List.mem_finRange k)
    exact absurd (decide_eq_true hk) this

/-- The slot that `find_empty_task` returns is not that of the current task. -/
theorem findEmptyTask_ne {s : State} (h : Inv s) {child : Slot}
    (hfind : (findEmptyTask s).1 = some child) :
    child ≠ s.current ∧ ∃ i, i ≠ 0 ∧ (s.pool i).state = .stopped := by
  unfold findEmptyTask at hfind
  split at hfind
  next i hi =>
    obtain rfl := Option.some.inj hfind
    have hfound := List.find?_some hi
    have hstopped := of_decide_eq_true hfound
    refine ⟨?_, i, hstopped⟩
    intro heq
    have hrunning := h.running
    rw [State.cur, ← heq, hstopped.2] at hrunning
    cases hrunning
  next hnone => cases hfind

theorem sysFork_spec {s : State} (h : Inv s) (hfree : ∃ i, i ≠ 0 ∧ (s.pool i).state = .stopped) :
    ∃ s', sysFork s = .ok s' ∧ Inv s' := by
  obtain ⟨child, hchild, hfind⟩ := findEmptyTask_spec hfree
  have hne : child ≠ s.current := by
    intro heq
    have := h.running
    rw [State.cur, ← heq, hchild] at this
    cases this
  have hok : ({ s.cur with taskId := child, counter := s.cur.priority, lr := .exitKernel } :
      Task).Ok child := by
    obtain ⟨-, -, -, h4, h5⟩ := h.pool s.current
    exact ⟨rfl, (h5 h.running).le, le_rfl, h4, h5⟩
  refine ⟨_, ?_, h.set_other hne hok (s.numRunningTask + 1)⟩
  rw [sysFork, hfind]
  rfl

theorem sysKill_spec {s : State} (h : Inv s) (x0 : ℕ) : Inv (sysKill s x0).2 := by
  simp only [sysKill]
  generalize toInt x0 = pid
  split
  · exact h
  next hpid =>
    split
    next hlt =>
      split
      · exact h
      · have hne : (⟨pid.toNat, hlt⟩ : Slot) ≠ s.current := by
          intro heq
          have hid : s.cur.taskId = pid.toNat :=
            (h.pool s.current).taskId_eq.trans (congrArg Fin.val heq.symm)
          unfold nrTasks at hlt
          omega
        have hok : ({ s.pool ⟨pid.toNat, hlt⟩ with state := .stopped, exitState := 1 } :
            Task).Ok ⟨pid.toNat, hlt⟩ := by
          obtain ⟨h1, h2, h3, h4, -⟩ := h.pool ⟨pid.toNat, hlt⟩
          exact ⟨h1, h2, h3, h4, by intro hst; cases hst⟩
        exact h.set_other hne hok _
    · exact h

/-! ## Whole runs -/

/-- An enabled step comes back in a state that satisfies the invariant, and its call of `schedule` is as
    `Scheduled` says. -/
theorem step_spec {s : State} (h : Inv s) {op : Op} (hop : op.Enabled s) (fuel : ℕ) :
    ∃ s', step (fuel + 2) s op = .ok s' ∧ Inv s' ∧
      ∀ p, op.schedulePoint s = some p → schedule (fuel + 2) p = .ok s' ∧
        ∃ sel, Scheduled p s' sel := by
  cases op with
  | tick => exact doTimer_spec h fuel
  | fork =>
    obtain ⟨s', hs', hinv⟩ := sysFork_spec h hop
    exact ⟨s', hs', hinv, by intro p hp; cases hp⟩
  | exit x0 =>
    obtain ⟨s', sel, hs', hsel⟩ := sysExit_spec h hop fuel
    refine ⟨s', hs', hsel.inv, ?_⟩
    intro p hp
    cases hp
    exact ⟨hs', sel, hsel⟩
  | kill x0 => exact ⟨_, rfl, sysKill_spec h x0, by intro p hp; cases hp⟩

theorem Reachable.inv {fuel : ℕ} {s : State} (h : Reachable (fuel + 2) s) : Inv s := by
  induction h with
  | init => exact taskInit_inv
  | step _ hop hstep ih =>
    obtain ⟨s₁, hs₁, hinv, -⟩ := step_spec ih hop fuel
    rw [hs₁] at hstep
    cases hstep
    exact hinv

/-- In every reachable state the counters lie between 0 and the priorities, the current task is RUNNING
    with a positive counter, and every step comes back. A call of `schedule` in it ends within two
    passes of its loop, that is after at most one reset; a reset is made only if every RUNNING task has
    used up its counter; and the task it selects is RUNNING and has the largest counter after the reset,
    the last slot among equals. -/
theorem reachable_schedule {fuel : ℕ} {s : State} (h : Reachable (fuel + 2) s) :
    (∀ i, 0 ≤ (s.pool i).counter ∧ (s.pool i).counter ≤ (s.pool i).priority) ∧
      s.cur.state = .running ∧ 0 < s.cur.counter ∧
      ∀ op : Op, op.Enabled s → ∃ s', step (fuel + 2) s op = .ok s' ∧
        ∀ p, op.schedulePoint s = some p → schedule (fuel + 2) p = .ok s' ∧
          ∃ sel, selectLoop 2 p.pool (-1, 0) = .ok sel ∧
            sel.recharges ≤ 1 ∧
            (sel.recharges = 1 → ∀ i, (p.pool i).state = .running → (p.pool i).counter = 0) ∧
            sel.pool = recharge^[sel.recharges] p.pool ∧
            s'.current = sel.next ∧
            (sel.pool sel.next).state = .running ∧
            ∀ j, (sel.pool j).state = .running →
              (sel.pool j).counter ≤ (sel.pool sel.next).counter ∧
              ((sel.pool j).counter = (sel.pool sel.next).counter → j ≤ sel.next) := by
  have hinv := h.inv
  refine ⟨fun i => ⟨(hinv.pool i).counter_nonneg, (hinv.pool i).counter_le⟩, hinv.running,
    hinv.counter_pos, ?_⟩
  intro op hop
  obtain ⟨s', hs', -, hsched⟩ := step_spec hinv hop fuel
  refine ⟨s', hs', ?_⟩
  intro p hp
  obtain ⟨hok, sel, hsel⟩ := hsched p hp
  exact ⟨hok, sel, hsel.loop, hsel.selects.recharges_le, hsel.selects.idle, hsel.selects.pool_eq,
    hsel.current_eq, hsel.selects.chosen.running, fun j hj =>
      ⟨hsel.selects.chosen.counter_le j hj, hsel.selects.chosen.last j hj⟩⟩

/-- After a fork and a tick the child runs and its parent has used up its counter, so that the child's
    next tick makes a reset. -/
theorem reachable_schedule_forked :
    ∃ s s' sel, Reachable 2 s ∧ s.current = 1 ∧ 0 < s.cur.counter ∧ step 2 s .tick = .ok s' ∧
      selectLoop 2 s.countDown.pool (-1, 0) = .ok sel ∧ sel.recharges ≤ 1 ∧ s'.current = sel.next := by
  obtain ⟨s₁, h₁⟩ : ∃ s₁, step 2 taskInit .fork = .ok s₁ := ⟨_, rfl⟩
  have hfork : Op.fork.Enabled taskInit := ⟨1, by decide, rfl⟩
  have hr₁ : Reachable 2 s₁ := .step .init hfork h₁
  obtain ⟨s₂, h₂⟩ : ∃ s₂, step 2 s₁ .tick = .ok s₂ := by
    cases h₁
    exact ⟨_, rfl⟩
  have htick : Op.tick.Enabled s₁ := trivial
  have hr₂ : Reachable 2 s₂ := .step hr₁ htick h₂
  obtain ⟨-, -, hpos, hstep⟩ := @reachable_schedule 0 _ hr₂
  obtain ⟨s', hs', hsched⟩ := hstep .tick trivial
  have hpoint : Op.tick.schedulePoint s₂ = some s₂.countDown := by
    cases h₁
    cases h₂
    rfl
  obtain ⟨-, sel, hsel, hle, -, -, hcur, -⟩ := hsched _ hpoint
  refine ⟨s₂, s', sel, hr₂, ?_, hpos, hs', hsel, hle, hcur⟩
  cases h₁
  cases h₂
  rfl

end RaspiKernel.Sched
