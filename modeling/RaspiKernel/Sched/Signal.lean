import RaspiKernel.Sched.Run

/-!
# Signals

Model of `sys_sigkill` (`src/syscall.c`, lines 213–233) and of the delivery in
`context_switch` (`src/sched.c`, lines 50–64). A task has one word `pending` for
the signals that have been sent to it, and `0` in it means that there is none.

`scheduleLog` and `doTimerLog` are `schedule` and `doTimer` with a record of the
handlers they start; `scheduleLog_fst` and `doTimerLog_fst` say that the record
changes nothing.

Results:
* `scheduleLog_pending`: a call of `schedule` keeps a pending signal or starts its
  handler.
* `careful_signals`: if nobody sends signal 0, or a second signal of another number
  before the first one is delivered, no accepted signal is lost.
* `sigkill_overwrites`: two signals in a row, and the first one is lost.
-/

namespace RaspiKernel.Sched

/-! ## Model -/

/-- `NR_SIGNALS`. -/
abbrev nrSignals : ℕ := 10

/-- `task_pool + pid`, for a `pid` in range. -/
def poolSlot (pid : ℤ) : Slot := Fin.ofNat nrTasks pid.toNat

/-- `sys_sigkill` after the conversion of its arguments to `int` (lines 220–232). In
    `pid == current->task_id` the `int` is converted to `unsigned int`. -/
def sysSigkill' (s : State) (pid signum : ℤ) : SyscallReturn × State :=
  if pid % 2 ^ 32 = s.cur.taskId ∨ pid < 0 ∨ pid ≥ nrTasks then (.error, s)
  else if signum < 0 ∨ signum ≥ nrSignals then (.error, s)
  else (.success, s.set (poolSlot pid) { s.pool (poolSlot pid) with pending := signum })

/-- `sys_sigkill` (lines 213–233), `x0` and `x1` are registers of the trap frame. -/
def sysSigkill (s : State) (x0 x1 : ℕ) : SyscallReturn × State :=
  sysSigkill' s (toInt x0) (toInt x1)

/-! ## Records -/

/-- What is recorded of a signal. -/
inductive Event where
  /-- `sys_sigkill` has returned `SYSCALL_SUCCESS` for the task and the number. -/
  | accepted (task : Slot) (signum : ℤ)
  /-- `context_switch` has started the handler of the task for the number. -/
  | started (task : Slot) (signum : ℤ)
  deriving DecidableEq, Repr

/-- `resume`, with the handler it starts. -/
def resumeLog (schedule : State → Except Stop (State × List Event)) (s : State) :
    Except Stop (State × List Event) :=
  if s.cur.lr = .contextSwitch then
    if s.cur.pending ≠ 0 then
      .ok (s.set s.current { s.cur with processSig := s.cur.pending, pending := 0 },
        [.started s.current s.cur.pending])
    else if s.cur.state = .stopped then schedule s
    else .ok (s, [])
  else .ok (s, [])

/-- `schedule`, with the handlers it starts. -/
def scheduleLog : ℕ → State → Except Stop (State × List Event)
  | 0, _ => .error .scheduling
  | fuel + 1, s => do
    let sel ← selectLoop (fuel + 1) s.pool (-1, 0)
    let s := { s with pool := sel.pool }
    if (sel.next : ℕ) ≠ s.cur.taskId then resumeLog (scheduleLog fuel) (switchTo s sel.next)
    else .ok (s, [])

/-- `do_timer`, with the handlers it starts. -/
def doTimerLog (fuel : ℕ) (s : State) : Except Stop (State × List Event) :=
  let s := s.countDown
  if s.cur.counter > 0 then .ok (s, []) else scheduleLog fuel s

theorem resumeLog_fst {f : State → Except Stop (State × List Event)} {g : State → Except Stop State}
    (hfg : ∀ s, (f s).map Prod.fst = g s) (s : State) :
    (resumeLog f s).map Prod.fst = resume g s := by
  unfold resumeLog resume
  split_ifs
  · rfl
  · exact hfg s
  · rfl
  · rfl

/-- The record does not change what `schedule` does. -/
theorem scheduleLog_fst (fuel : ℕ) (s : State) :
    (scheduleLog fuel s).map Prod.fst = schedule fuel s := by
  induction fuel generalizing s with
  | zero => rfl
  | succ fuel ih =>
    rw [scheduleLog, schedule]
    cases selectLoop (fuel + 1) s.pool (-1, 0) with
    | error e => rfl
    | ok sel =>
      show Except.map Prod.fst (if _ then _ else _) = if _ then _ else _
      split_ifs
      · exact resumeLog_fst ih _
      · rfl

theorem doTimerLog_fst (fuel : ℕ) (s : State) :
    (doTimerLog fuel s).map Prod.fst = doTimer fuel s := by
  unfold doTimerLog doTimer
  dsimp only
  split_ifs
  · rfl
  · exact scheduleLog_fst fuel _

/-! ## Runs -/

/-- The scheduler and the record, in the order of time. -/
structure Signals where
  sched : State
  log : List Event

/-- The steps of a run. -/
inductive SigOp where
  /-- The current task calls `sys_sigkill` with the given registers. -/
  | sigkill (x0 x1 : ℕ)
  /-- `do_timer`. -/
  | tick
  /-- `schedule`. -/
  | yield

/-- The record of a call of `sys_sigkill`. -/
def acceptLog (r : SyscallReturn) (pid signum : ℤ) : List Event :=
  if r = .success then [.accepted (poolSlot pid) signum] else []

/-- One step. -/
def Signals.step (fuel : ℕ) (σ : Signals) : SigOp → Except Stop Signals
  | .sigkill x0 x1 =>
    .ok ⟨(sysSigkill σ.sched x0 x1).2,
      σ.log ++ acceptLog (sysSigkill σ.sched x0 x1).1 (toInt x0) (toInt x1)⟩
  | .tick => do
    let (s, events) ← doTimerLog fuel σ.sched
    .ok ⟨s, σ.log ++ events⟩
  | .yield => do
    let (s, events) ← scheduleLog fuel σ.sched
    .ok ⟨s, σ.log ++ events⟩

/-- Signal `signum` is pending for the task. -/
def State.Pending (s : State) (task : Slot) (signum : ℤ) : Prop :=
  (s.pool task).pending = signum ∧ signum ≠ 0

/-- Every accepted signal is pending, or its handler has been started since. -/
def Signals.NothingLost (σ : Signals) : Prop :=
  ∀ before task signum after, σ.log = before ++ .accepted task signum :: after →
    .started task signum ∈ after ∨ σ.sched.Pending task signum

/-- A signal that is accepted is not 0, and no signal of another number is pending for its task. -/
def SigOp.Careful (s : State) : SigOp → Prop
  | .sigkill x0 x1 => (sysSigkill s x0 x1).1 = .success → toInt x1 ≠ 0 ∧
      ((s.pool (poolSlot (toInt x0))).pending = 0 ∨
        (s.pool (poolSlot (toInt x0))).pending = toInt x1)
  | _ => True

/-- Any sequence of steps in which each signal is sent with care, from any state of the
    scheduler. -/
inductive CarefulSignals (fuel : ℕ) : Signals → Prop where
  | init (s : State) : CarefulSignals fuel ⟨s, []⟩
  | step {σ σ' : Signals} (hσ : CarefulSignals fuel σ) {op : SigOp} (hop : op.Careful σ.sched)
      (h : σ.step fuel op = .ok σ') : CarefulSignals fuel σ'

/-! ## Delivery -/

theorem selectLoop_pending (passes : ℕ) : ∀ {pool : Pool} {acc : ℤ × Slot} {sel : Selection},
    selectLoop passes pool acc = .ok sel → ∀ i, (sel.pool i).pending = (pool i).pending := by
  induction passes with
  | zero =>
    intro pool acc sel h
    cases h
  | succ passes ih =>
    intro pool acc sel h i
    rw [selectLoop] at h
    split_ifs at h
    · rw [← Except.ok.inj h]
    · obtain ⟨sel', hsel, h⟩ := Lib.bind_eq_ok.mp h
      rw [← Except.ok.inj h]
      show (sel'.pool i).pending = _
      rw [ih hsel i]
      unfold recharge
      split_ifs <;> rfl

/-- What a step does to a pending signal: nothing, or it starts the handler. -/
def Delivers (s s' : State) (events : List Event) : Prop :=
  ∀ i, (s'.pool i).pending = (s.pool i).pending ∨ .started i (s.pool i).pending ∈ events

theorem resumeLog_pending {f : State → Except Stop (State × List Event)}
    (hf : ∀ {s s' : State} {events : List Event}, f s = .ok (s', events) → Delivers s s' events)
    {s s' : State} {events : List Event} (h : resumeLog f s = .ok (s', events)) :
    Delivers s s' events := by
  intro i
  unfold resumeLog at h
  split_ifs at h with hlr hpend hstop
  · obtain ⟨rfl, rfl⟩ := Prod.mk.inj (Except.ok.inj h)
    by_cases hi : i = s.current
    · subst hi
      exact Or.inr (List.mem_singleton.mpr rfl)
    · left
      show (Function.update s.pool s.current _ i).pending = _
      rw [Function.update_of_ne hi]
  · exact hf h i
  · obtain ⟨rfl, rfl⟩ := Prod.mk.inj (Except.ok.inj h)
    exact Or.inl rfl
  · obtain ⟨rfl, rfl⟩ := Prod.mk.inj (Except.ok.inj h)
    exact Or.inl rfl

theorem switchTo_pending (s : State) (next i : Slot) :
    ((switchTo s next).pool i).pending = (s.pool i).pending := by
  show (Function.update s.pool s.current _ i).pending = _
  by_cases hi : i = s.current
  · subst hi
    rw [Function.update_self]
    rfl
  · rw [Function.update_of_ne hi]

/-- `schedule` keeps every pending signal or starts its handler. -/
theorem scheduleLog_pending (fuel : ℕ) : ∀ {s s' : State} {events : List Event},
    scheduleLog fuel s = .ok (s', events) → Delivers s s' events := by
  induction fuel with
  | zero =>
    intro s s' events h
    cases h
  | succ fuel ih =>
    intro s s' events h i
    rw [scheduleLog] at h
    obtain ⟨sel, hsel, h⟩ := Lib.bind_eq_ok.mp h
    have hpool := selectLoop_pending _ hsel i
    dsimp only at h
    split_ifs at h
    · have hres := resumeLog_pending ih h i
      rwa [switchTo_pending, hpool] at hres
    · obtain ⟨rfl, rfl⟩ := Prod.mk.inj (Except.ok.inj h)
      exact Or.inl hpool

theorem doTimerLog_pending {fuel : ℕ} {s s' : State} {events : List Event}
    (h : doTimerLog fuel s = .ok (s', events)) : Delivers s s' events := by
  have hdown : ∀ i, (s.countDown.pool i).pending = (s.pool i).pending := by
    intro i
    show (Function.update s.pool s.current _ i).pending = _
    by_cases hi : i = s.current
    · subst hi
      rw [Function.update_self]
      rfl
    · rw [Function.update_of_ne hi]
  unfold doTimerLog at h
  dsimp only at h
  split_ifs at h
  · obtain ⟨rfl, rfl⟩ := Prod.mk.inj (Except.ok.inj h)
    exact fun i => Or.inl (hdown i)
  · intro i
    have hsched := scheduleLog_pending fuel h i
    rwa [hdown] at hsched

theorem resumeLog_not_accepted {f : State → Except Stop (State × List Event)}
    (hf : ∀ {s s' : State} {events : List Event}, f s = .ok (s', events) →
      ∀ i m, .accepted i m ∉ events)
    {s s' : State} {events : List Event} (h : resumeLog f s = .ok (s', events)) :
    ∀ i m, .accepted i m ∉ events := by
  unfold resumeLog at h
  split_ifs at h
  · obtain ⟨-, rfl⟩ := Prod.mk.inj (Except.ok.inj h)
    simp
  · exact hf h
  · obtain ⟨-, rfl⟩ := Prod.mk.inj (Except.ok.inj h)
    simp
  · obtain ⟨-, rfl⟩ := Prod.mk.inj (Except.ok.inj h)
    simp

/-- `schedule` accepts no signal. -/
theorem scheduleLog_not_accepted (fuel : ℕ) : ∀ {s s' : State} {events : List Event},
    scheduleLog fuel s = .ok (s', events) → ∀ i m, .accepted i m ∉ events := by
  induction fuel with
  | zero =>
    intro s s' events h
    cases h
  | succ fuel ih =>
    intro s s' events h
    rw [scheduleLog] at h
    obtain ⟨sel, -, h⟩ := Lib.bind_eq_ok.mp h
    dsimp only at h
    split_ifs at h
    · exact resumeLog_not_accepted ih h
    · obtain ⟨-, rfl⟩ := Prod.mk.inj (Except.ok.inj h)
      simp

theorem doTimerLog_not_accepted {fuel : ℕ} {s s' : State} {events : List Event}
    (h : doTimerLog fuel s = .ok (s', events)) : ∀ i m, .accepted i m ∉ events := by
  unfold doTimerLog at h
  dsimp only at h
  split_ifs at h
  · obtain ⟨-, rfl⟩ := Prod.mk.inj (Except.ok.inj h)
    simp
  · exact scheduleLog_not_accepted fuel h

/-! ## No signal is lost -/

/-- A step that accepts nothing and delivers loses nothing. -/
theorem Signals.NothingLost.deliver {σ : Signals} (h : σ.NothingLost) {s' : State}
    {events : List Event} (hno : ∀ task signum, .accepted task signum ∉ events)
    (hs : Delivers σ.sched s' events) : (⟨s', σ.log ++ events⟩ : Signals).NothingLost := by
  intro before task signum after hlog
  -- the signal was accepted before the step
  obtain ⟨after', hlog', rfl⟩ : ∃ after', σ.log = before ++ .accepted task signum :: after' ∧
      after = after' ++ events := by
    rcases List.append_eq_append_iff.mp hlog with ⟨mid, -, hev⟩ | ⟨mid, hσ, hev⟩
    · refine absurd ?_ (hno task signum)
      rw [hev]
      exact List.mem_append_right mid List.mem_cons_self
    · cases mid with
      | nil =>
        refine absurd ?_ (hno task signum)
        rw [← List.nil_append events, ← hev]
        exact List.mem_cons_self
      | cons e mid =>
        obtain ⟨rfl, rfl⟩ := List.cons.inj hev
        exact ⟨mid, hσ, rfl⟩
  rcases h before task signum after' hlog' with hst | ⟨hp, h0⟩
  · exact Or.inl (List.mem_append_left _ hst)
  · rcases hs task with he | he
    · exact Or.inr ⟨he.trans hp, h0⟩
    · rw [hp] at he
      exact Or.inl (List.mem_append_right _ he)

theorem sysSigkill_error {s : State} {pid signum : ℤ}
    (h : (sysSigkill' s pid signum).1 ≠ .success) : (sysSigkill' s pid signum).2 = s := by
  unfold sysSigkill' at h ⊢
  split_ifs at h ⊢
  · rfl
  · rfl
  · exact absurd rfl h

theorem sysSigkill_success {s : State} {pid signum : ℤ}
    (h : (sysSigkill' s pid signum).1 = .success) :
    (sysSigkill' s pid signum).2 =
      s.set (poolSlot pid) { s.pool (poolSlot pid) with pending := signum } := by
  unfold sysSigkill' at h ⊢
  split_ifs at h ⊢
  rfl

/-- A signal sent with care is recorded, and those before it stay. -/
theorem Signals.NothingLost.send {σ : Signals} (h : σ.NothingLost) {pid signum : ℤ}
    (hcare : (sysSigkill' σ.sched pid signum).1 = .success → signum ≠ 0 ∧
      ((σ.sched.pool (poolSlot pid)).pending = 0 ∨
        (σ.sched.pool (poolSlot pid)).pending = signum)) :
    (⟨(sysSigkill' σ.sched pid signum).2,
      σ.log ++ acceptLog (sysSigkill' σ.sched pid signum).1 pid signum⟩ : Signals).NothingLost := by
  by_cases hr : (sysSigkill' σ.sched pid signum).1 = .success
  · obtain ⟨h0, hfree⟩ := hcare hr
    rw [sysSigkill_success hr, acceptLog, if_pos hr]
    set slot := poolSlot pid
    have hself : (σ.sched.set slot { σ.sched.pool slot with pending := signum }).Pending
        slot signum := by
      refine ⟨?_, h0⟩
      show (Function.update σ.sched.pool slot _ slot).pending = signum
      rw [Function.update_self]
    -- what was pending before is pending now, for the slot of the call it is the same number
    have hkeep : ∀ {task : Slot} {m : ℤ}, σ.sched.Pending task m →
        (σ.sched.set slot { σ.sched.pool slot with pending := signum }).Pending task m := by
      rintro task m ⟨hp, hm⟩
      by_cases ht : task = slot
      · subst ht
        rcases hfree with hz | hz
        · exact absurd (hp.symm.trans hz) hm
        · rwa [← hp, hz]
      · refine ⟨?_, hm⟩
        show (Function.update σ.sched.pool slot _ task).pending = m
        rwa [Function.update_of_ne ht]
    intro before task m after hlog
    rcases List.append_eq_append_iff.mp hlog with ⟨mid, hb, hev⟩ | ⟨mid, hσ, hev⟩
    · cases mid with
      | nil =>
        obtain ⟨he, -⟩ := List.cons.inj hev
        obtain ⟨rfl, rfl⟩ := Event.accepted.inj he
        exact Or.inr hself
      | cons e mid =>
        obtain ⟨-, hnil⟩ := List.cons.inj hev
        simp at hnil
    · cases mid with
      | nil =>
        obtain ⟨he, -⟩ := List.cons.inj hev
        obtain ⟨rfl, rfl⟩ := Event.accepted.inj he
        exact Or.inr hself
      | cons e mid =>
        obtain ⟨rfl, rfl⟩ := List.cons.inj hev
        rcases h before task m mid hσ with hst | hp
        · exact Or.inl (List.mem_append_left _ hst)
        · exact Or.inr (hkeep hp)
  · rw [sysSigkill_error hr, acceptLog, if_neg hr, List.append_nil]
    exact h

/-- A signal is lost in no run in which every accepted signal has a number other than 0 and finds
    none of another number pending. -/
theorem careful_signals (fuel : ℕ) {σ : Signals} (h : CarefulSignals fuel σ) : σ.NothingLost := by
  induction h with
  | init s =>
    intro before task signum after hlog
    simp at hlog
  | step hσ hop h ih =>
    rename_i σ σ' op
    cases op with
    | sigkill x0 x1 =>
      -- the registers as any two integers
      unfold SigOp.Careful sysSigkill at hop
      unfold Signals.step sysSigkill at h
      generalize toInt x0 = pid, toInt x1 = signum at hop h
      rw [← Except.ok.inj h]
      exact ih.send hop
    | tick =>
      obtain ⟨⟨s, events⟩, ht, h⟩ := Lib.bind_eq_ok.mp h
      rw [← Except.ok.inj h]
      exact ih.deliver (doTimerLog_not_accepted ht) (doTimerLog_pending ht)
    | yield =>
      obtain ⟨⟨s, events⟩, ht, h⟩ := Lib.bind_eq_ok.mp h
      rw [← Except.ok.inj h]
      exact ih.deliver (scheduleLog_not_accepted fuel ht) (scheduleLog_pending fuel ht)

/-- Task 0 forks task 1 and yields to it, task 1 sends it signal 1, and the next tick switches back
    and starts the handler. -/
theorem careful_signals_delivered : ∃ s, sysFork taskInit = .ok s ∧
    ∃ σ, CarefulSignals 2 σ ∧ σ.log = [.accepted 0 1, .started 0 1] ∧ σ.NothingLost := by
  obtain ⟨s, hs⟩ : ∃ s, sysFork taskInit = .ok s := ⟨_, rfl⟩
  refine ⟨s, hs, ?_⟩
  obtain ⟨σ₁, h₁⟩ : ∃ σ₁, (⟨s, []⟩ : Signals).step 2 .yield = .ok σ₁ := by
    cases hs
    exact ⟨_, rfl⟩
  obtain ⟨σ₂, h₂⟩ : ∃ σ₂, σ₁.step 2 (.sigkill 0 1) = .ok σ₂ := ⟨_, rfl⟩
  obtain ⟨σ₃, h₃⟩ : ∃ σ₃, σ₂.step 2 .tick = .ok σ₃ ∧ σ₃.log = [.accepted 0 1, .started 0 1] := by
    cases hs
    cases h₁
    cases h₂
    exact ⟨_, rfl, rfl⟩
  have hcare : (SigOp.sigkill 0 1).Careful σ₁.sched := by
    cases hs
    cases h₁
    exact fun _ => ⟨by decide, Or.inl rfl⟩
  have hrun₁ : CarefulSignals 2 σ₁ := .step (.init s) (show SigOp.Careful _ .yield from trivial) h₁
  have hrun₂ : CarefulSignals 2 σ₂ := .step hrun₁ hcare h₂
  have hrun₃ : CarefulSignals 2 σ₃ := .step hrun₂ (show SigOp.Careful _ .tick from trivial) h₃.1
  exact ⟨σ₃, hrun₃, h₃.2, careful_signals 2 hrun₃⟩

/-- With task 0 RUNNING and current, and task 1 RUNNING, task 0 sends it signal 1 and then signal 2.
    Both calls return `SYSCALL_SUCCESS`, and the first signal is lost. -/
theorem sigkill_overwrites : ∃ s σ₁ σ₂, sysFork taskInit = .ok s ∧
    s.current = 0 ∧ (s.pool 0).state = .running ∧ (s.pool 1).state = .running ∧
    (⟨s, []⟩ : Signals).step 2 (.sigkill 1 1) = .ok σ₁ ∧ σ₁.step 2 (.sigkill 1 2) = .ok σ₂ ∧
    σ₂.log = [.accepted 1 1, .accepted 1 2] ∧ ¬ σ₂.NothingLost := by
  refine ⟨_, _, _, rfl, rfl, rfl, rfl, rfl, rfl, rfl, ?_⟩
  intro h
  rcases h [] 1 1 [.accepted 1 2] rfl with hst | ⟨hp, -⟩
  · simp at hst
  · exact absurd hp (by decide)

end RaspiKernel.Sched
