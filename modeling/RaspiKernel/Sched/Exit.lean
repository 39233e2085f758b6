import RaspiKernel.Sched.Run

/-!
# Tasks that have exited

`sys_exit` marks the current task STOPPED and calls `schedule`, which must not
come back to it. It does not as long as another task is RUNNING: a pass of
`schedule` only ever selects RUNNING tasks. Without one, no task is larger than
`c = -1`, the loop ends with `next = 0`, and a STOPPED task 0 goes on.

Results:
* `schedule_of_idle`: with no RUNNING task, `schedule` ends in task 0.
* `exit_never_resumed`: an exited task is not resumed, as long as its slot is not
  reused, exactly if another task is RUNNING when it exits.
* `exit_resumes_task0`: the only task exits, and is the current task again.
-/

namespace RaspiKernel.Sched

/-! ## No RUNNING task -/

theorem scan_of_idle {pool : Pool} (h : ¬ SomeRunning pool) (acc : ℤ × Slot) :
    scan pool acc = acc := by
  unfold scan
  generalize slotsDown = l
  induction l with
  | nil => rfl
  | cons i l ih =>
    have hskip : scanStep pool acc i = acc := if_neg fun hi => h ⟨i, hi.1⟩
    rw [List.foldl_cons, hskip, ih]

theorem selectLoop_of_idle {pool : Pool} (h : ¬ SomeRunning pool) (passes : ℕ) :
    selectLoop (passes + 1) pool (-1, 0) = .ok ⟨pool, 0, 0⟩ := by
  rw [selectLoop, scan_of_idle h, if_pos (by decide)]

/-- With no RUNNING task and task 0 the current one, `schedule` changes nothing. -/
theorem schedule_of_idle_zero {s : State} (hp : PoolInv s.pool) (h : ¬ SomeRunning s.pool)
    (hcur : s.current = 0) (fuel : ℕ) : schedule (fuel + 1) s = .ok s := by
  have hid : s.cur.taskId = 0 := by
    unfold State.cur
    rw [(hp s.current).taskId_eq, hcur]
    rfl
  rw [schedule, selectLoop_of_idle h]
  show (if ((0 : Slot) : ℕ) ≠ s.cur.taskId then _ else _) = _
  rw [hid, if_neg (by decide)]

theorem someRunning_congr {s s' : State} (h : ∀ i, (s'.pool i).SameShare (s.pool i)) :
    SomeRunning s'.pool ↔ SomeRunning s.pool := by
  unfold SomeRunning
  apply exists_congr
  intro i
  rw [(h i).2.1]

/-- With no RUNNING task, `schedule` ends in task 0, and there still is none. -/
theorem schedule_of_idle {s : State} (hp : PoolInv s.pool) (h : ¬ SomeRunning s.pool) (fuel : ℕ) :
    ∃ s', schedule (fuel + 2) s = .ok s' ∧ s'.current = 0 ∧ ¬ SomeRunning s'.pool := by
  by_cases hcur : s.current = 0
  · exact ⟨s, schedule_of_idle_zero hp h hcur (fuel + 1), hcur, h⟩
  have hid : s.cur.taskId = s.current := (hp s.current).taskId_eq
  have hne : ((0 : Slot) : ℕ) ≠ s.cur.taskId := by
    rw [hid]
    intro heq
    exact hcur (Fin.ext heq.symm)
  have h₁ : ∀ i, ((switchTo s 0).pool i).SameShare (s.pool i) :=
    set_sameShare ⟨rfl, rfl, rfl, rfl⟩
  have hp₁ : PoolInv (switchTo s 0).pool := fun i => (hp i).of_sameShare (h₁ i)
  have hidle₁ : ¬ SomeRunning (switchTo s 0).pool := by rwa [someRunning_congr h₁]
  have hswitch : schedule (fuel + 2) s = resume (schedule (fuel + 1)) (switchTo s 0) := by
    rw [schedule, selectLoop_of_idle h]
    show (if ((0 : Slot) : ℕ) ≠ s.cur.taskId then _ else _) = _
    rw [if_pos hne]
    rfl
  rw [hswitch]
  unfold resume
  split
  · split
    · -- a pending signal is delivered to task 0, stopped or not
      refine ⟨_, rfl, rfl, ?_⟩
      rwa [someRunning_congr (s := switchTo s 0)]
      apply set_sameShare
      exact ⟨rfl, rfl, rfl, rfl⟩
    · split
      · exact ⟨_, schedule_of_idle_zero hp₁ hidle₁ rfl fuel, rfl, hidle₁⟩
      · exact ⟨_, rfl, rfl, hidle₁⟩
  · exact ⟨_, rfl, rfl, hidle₁⟩

/-! ## An exit -/

theorem markExit_state (s : State) (x0 : ℕ) (i : Slot) :
    ((s.markExit x0).pool i).state = if i = s.current then .stopped else (s.pool i).state := by
  show (Function.update s.pool s.current _ i).state = _
  rw [Function.update_apply]
  split <;> rfl

theorem someRunning_markExit {s : State} (x0 : ℕ) :
    SomeRunning (s.markExit x0).pool ↔ ∃ j, j ≠ s.current ∧ (s.pool j).state = .running := by
  unfold SomeRunning
  apply exists_congr
  intro i
  rw [markExit_state]
  by_cases hi : i = s.current
  · simp [hi]
  · simp [hi]

/-! ## What a step does to a STOPPED slot -/

/-- The step is a fork that takes the slot `i`. -/
def Op.Reuses (s : State) (i : Slot) : Op → Prop
  | .fork => (findEmptyTask s).1 = some i
  | _ => False

/-- The states that are reached from `s` without a fork that takes the slot `i`. -/
inductive After (fuel : ℕ) (i : Slot) (s : State) : State → Prop
  | refl : After fuel i s s
  | step {t t' : State} {op : Op} (ht : After fuel i s t) (hop : op.Enabled t)
      (hi : ¬ op.Reuses t i) (h : step fuel t op = .ok t') : After fuel i s t'

theorem recharge_iterate_state (pool : Pool) (n : ℕ) (i : Slot) :
    (recharge^[n] pool i).state = (pool i).state := by
  induction n with
  | zero => rfl
  | succ n ih => rw [Function.iterate_succ_apply', recharge_state, ih]

theorem Scheduled.state_eq {p q : State} {sel : Selection} (h : Scheduled p q sel) (i : Slot) :
    (q.pool i).state = (p.pool i).state := by
  rw [(h.share i).2.1, h.selects.pool_eq, recharge_iterate_state]

theorem countDown_state (s : State) (i : Slot) :
    (s.countDown.pool i).state = (s.pool i).state := by
  show (Function.update s.pool s.current _ i).state = _
  rw [Function.update_apply]
  split
  next hi =>
    rw [hi]
    rfl
  · rfl

theorem sysKill_stopped {s : State} {i : Slot} (hi : (s.pool i).state = .stopped) (x0 : ℕ) :
    ((sysKill s x0).2.pool i).state = .stopped := by
  simp only [sysKill]
  generalize toInt x0 = pid
  split
  · exact hi
  · split
    · split
      · exact hi
      · show (Function.update s.pool _ _ i).state = _
        rw [Function.update_apply]
        split
        · rfl
        · exact hi
    · exact hi

theorem sysFork_stopped {s s' : State} {i : Slot} (hi : (s.pool i).state = .stopped)
    (hreuse : (findEmptyTask s).1 ≠ some i) (h : sysFork s = .ok s') :
    (s'.pool i).state = .stopped := by
  have hpool : (findEmptyTask s).2.pool = s.pool := by
    unfold findEmptyTask
    split <;> rfl
  unfold sysFork at h
  split at h
  next child t hfind =>
    rw [hfind] at hreuse hpool
    injection h with h
    subst h
    have hne : i ≠ child := by
      rintro rfl
      exact hreuse rfl
    show (Function.update t.pool child _ i).state = _
    rw [Function.update_of_ne hne, show t.pool = s.pool from hpool]
    exact hi
  · cases h

/-- A STOPPED slot stays STOPPED until a fork takes it. -/
theorem step_stopped {fuel : ℕ} {s s' : State} {op : Op} {i : Slot} (hinv : Inv s)
    (hop : op.Enabled s) (hreuse : ¬ op.Reuses s i) (h : step (fuel + 2) s op = .ok s')
    (hi : (s.pool i).state = .stopped) : (s'.pool i).state = .stopped := by
  obtain ⟨t, ht, -, hsched⟩ := step_spec hinv hop fuel
  rw [ht] at h
  cases h
  cases op with
  | tick =>
    by_cases hc : s.countDown.cur.counter > 0
    · have htick : step (fuel + 2) s .tick = .ok s.countDown := if_pos hc
      rw [htick] at ht
      cases ht
      rwa [countDown_state]
    · obtain ⟨-, sel, hsel⟩ := hsched s.countDown (if_neg hc)
      rwa [hsel.state_eq, countDown_state]
  | fork => exact sysFork_stopped hi hreuse ht
  | exit x0 =>
    obtain ⟨-, sel, hsel⟩ := hsched (s.markExit x0) rfl
    rw [hsel.state_eq, markExit_state]
    split
    · rfl
    · exact hi
  | kill x0 =>
    rw [step, Except.ok.injEq] at ht
    rw [← ht]
    exact sysKill_stopped hi x0

/-- A STOPPED slot is not resumed before a fork takes it. -/
theorem After.stopped {fuel : ℕ} {i : Slot} {s t : State} (h : After (fuel + 2) i s t)
    (hinv : Inv s) (hi : (s.pool i).state = .stopped) :
    Inv t ∧ (t.pool i).state = .stopped := by
  induction h with
  | refl => exact ⟨hinv, hi⟩
  | step _ hop hreuse hstep ih =>
    obtain ⟨hinv, hi⟩ := ih
    refine ⟨?_, step_stopped hinv hop hreuse hstep hi⟩
    obtain ⟨u, hu, hinv', -⟩ := step_spec hinv hop fuel
    rw [hu] at hstep
    cases hstep
    exact hinv'

theorem ne_current_of_stopped {s : State} {i : Slot} (hinv : Inv s)
    (hi : (s.pool i).state = .stopped) : s.current ≠ i := by
  intro heq
  have hrun := hinv.running
  rw [State.cur, heq, hi] at hrun
  cases hrun

/-- In every reachable state `sys_exit` comes back out of `schedule`. It leaves another, RUNNING task as
    the current one, and the exited task does not become current again before a fork takes its slot,
    exactly if some other task is RUNNING when the task exits. -/
theorem exit_never_resumed {fuel : ℕ} {s : State} (h : Reachable (fuel + 2) s) (x0 : ℕ) :
    ∃ s', sysExit (fuel + 2) s x0 = .ok s' ∧
      ((s'.current ≠ s.current ∧ s'.cur.state = .running ∧
          ∀ t, After (fuel + 2) s.current s' t →
            t.current ≠ s.current ∧ t.cur.state = .running) ↔
        ∃ j, j ≠ s.current ∧ (s.pool j).state = .running) := by
  have hinv := h.inv
  by_cases hother : SomeRunning (s.markExit x0).pool
  · obtain ⟨s', sel, hs', hsel⟩ := sysExit_spec hinv hother fuel
    have hstop : (s'.pool s.current).state = .stopped := by
      rw [hsel.state_eq, markExit_state, if_pos rfl]
    refine ⟨s', hs', fun _ => (someRunning_markExit x0).mp hother, fun _ => ?_⟩
    refine ⟨ne_current_of_stopped hsel.inv hstop, hsel.inv.running, ?_⟩
    intro t ht
    obtain ⟨hinvt, hstopt⟩ := ht.stopped hsel.inv hstop
    exact ⟨ne_current_of_stopped hinvt hstopt, hinvt.running⟩
  · obtain ⟨s', hs', -, hidle⟩ := schedule_of_idle (hinv.pool.markExit x0) hother fuel
    refine ⟨s', hs', fun hrun => ?_, fun hj => ?_⟩
    · exact absurd ⟨_, hrun.2.1⟩ hidle
    · exact absurd ((someRunning_markExit x0).mpr hj) hother

/-- Task 0 forks and exits: the child runs, and task 0 does not. -/
theorem exit_never_resumed_forked :
    ∃ s s', Reachable 2 s ∧ s.current = 0 ∧ sysExit 2 s 7 = .ok s' ∧ s'.current ≠ 0 ∧
      s'.cur.state = .running ∧ ∀ t, After 2 0 s' t → t.current ≠ 0 ∧ t.cur.state = .running := by
  obtain ⟨s, hs⟩ : ∃ s, step 2 taskInit .fork = .ok s := ⟨_, rfl⟩
  have hfork : Op.fork.Enabled taskInit := ⟨1, by decide, rfl⟩
  have hr : Reachable 2 s := .step .init hfork hs
  obtain ⟨s', hs', hiff⟩ := @exit_never_resumed 0 s hr 7
  have hcur : s.current = 0 := by
    cases hs
    rfl
  rw [hcur] at hiff
  have hchild : (s.pool 1).state = .running := by
    cases hs
    rfl
  exact ⟨s, s', hr, hcur, hs', hiff.mpr ⟨1, by decide, hchild⟩⟩

/-- Task 0 is the only task and exits. `schedule` comes back to it. -/
theorem exit_resumes_task0 :
    ∃ s', Reachable 2 taskInit ∧ sysExit 2 taskInit 0 = .ok s' ∧
      s'.current = taskInit.current ∧ s'.cur.state = .stopped :=
  ⟨_, .init, rfl, rfl, rfl⟩

end RaspiKernel.Sched
