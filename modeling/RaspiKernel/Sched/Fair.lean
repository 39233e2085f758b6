import RaspiKernel.Sched.Run

/-!
# Fair shares

Timer ticks alone, with the RUNNING tasks as they are. A tick is charged to the task that is current
when it comes. A task spends its counter one by one, and the counters are reset when all of them are
spent, so that between a task's ticks, its counter and its priority there is a balance that every
tick keeps.

Results:
* `ticks_ledger`: after any number of ticks, the ticks charged to a task and its counter are what the
  task had and its priority for each reset.
* `ticks_fair`: as many ticks as there were counters, and any number of full rounds after them, give
  every RUNNING task exactly its counter and its priority for each round.
* `round_order`: in between, the tasks run one after the other in the order of their counters.
-/

namespace RaspiKernel.Sched

/-! ## Model -/

/-- `n` timer ticks, with the tasks that are charged. -/
def ticks (fuel : ℕ) : ℕ → State → Except Stop (List Slot × State)
  | 0, s => .ok ([], s)
  | n + 1, s => do
    let s' ← doTimer fuel s
    let (charged, q) ← ticks fuel n s'
    .ok (s.current :: charged, q)

/-- The RUNNING tasks. -/
def State.running (s : State) : Finset Slot := Finset.univ.filter fun i => (s.pool i).state = .running

/-- What the RUNNING tasks have left of the round. -/
def State.left (s : State) : ℤ := ∑ i ∈ s.running, (s.pool i).counter

/-- The length of a round. -/
def State.round (s : State) : ℤ := ∑ i ∈ s.running, (s.pool i).priority

@[simp] theorem mem_running {s : State} {i : Slot} : i ∈ s.running ↔ (s.pool i).state = .running := by
  simp [State.running]

/-! ## One tick -/

/-- The tasks play the parts that they had. -/
structure SameParts (s q : State) : Prop where
  state : ∀ i, (q.pool i).state = (s.pool i).state
  priority : ∀ i, (q.pool i).priority = (s.pool i).priority

theorem SameParts.trans {s q q' : State} (h : SameParts s q) (h' : SameParts q q') : SameParts s q' :=
  ⟨fun i => (h'.state i).trans (h.state i), fun i => (h'.priority i).trans (h.priority i)⟩

theorem SameParts.running {s q : State} (h : SameParts s q) : q.running = s.running := by
  unfold State.running
  simp only [h.state]

/-- What a tick is charged to `i` by the task that is current. -/
def State.charge (s : State) (i : Slot) : ℤ := if i = s.current then 1 else 0

theorem countDown_pool (s : State) (i : Slot) :
    (s.countDown.pool i).state = (s.pool i).state ∧ (s.countDown.pool i).priority = (s.pool i).priority ∧
      (s.countDown.pool i).counter = (s.pool i).counter - s.charge i := by
  unfold State.countDown State.set State.charge
  by_cases hi : i = s.current
  · subst hi
    simp [State.cur]
  · simp [hi]

/-- A reset, if there is one, gives each RUNNING task its priority. -/
theorem Selects.counter {pool : Pool} {sel : Selection} (h : Selects pool sel) (i : Slot) :
    (sel.pool i).state = (pool i).state ∧ (sel.pool i).priority = (pool i).priority ∧
      ((pool i).state = .running →
        (sel.pool i).counter = (pool i).counter + sel.recharges * (pool i).priority) := by
  have hcases : sel.recharges = 0 ∨ sel.recharges = 1 := by
    have := h.recharges_le
    omega
  have hpool := h.pool_eq
  rcases hcases with h0 | h1
  · rw [h0] at hpool ⊢
    rw [hpool]
    simp
  · have hidle := h.idle h1
    rw [h1] at hpool ⊢
    rw [hpool]
    by_cases hi : (pool i).state = .running
    · simp only [Function.iterate_one, recharge_of_idle hidle hi, hidle i hi]
      simp
    · simp [recharge, hi]

/-- What a tick can do. -/
inductive Tick (s q : State) : Prop
  /-- The current task goes on. -/
  | stay (current : q.current = s.current) (more : 1 < s.cur.counter)
      (counter : ∀ i ∈ s.running, (q.pool i).counter = (s.pool i).counter - s.charge i)
  /-- The next task of the round is switched to. -/
  | next (chosen : Chosen q.pool q.current) (spent : s.cur.counter = 1)
      (counter : ∀ i ∈ s.running, (q.pool i).counter = (s.pool i).counter - s.charge i)
  /-- A new round begins. -/
  | reset (chosen : Chosen q.pool q.current)
      (spent : ∀ i ∈ s.running, (s.pool i).counter = s.charge i)
      (counter : ∀ i ∈ s.running, (q.pool i).counter = (s.pool i).priority)

theorem Chosen.of_share {pool pool' : Pool} {i : Slot} (h : Chosen pool i)
    (hs : ∀ j, (pool' j).SameShare (pool j)) : Chosen pool' i := by
  have hstate : ∀ j, (pool' j).state = (pool j).state := fun j => (hs j).2.1
  have hcounter : ∀ j, (pool' j).counter = (pool j).counter := fun j => (hs j).2.2.2
  constructor
  · rw [hstate]
    exact h.running
  · intro j hj
    rw [hcounter, hcounter]
    exact h.counter_le j (by rwa [hstate] at hj)
  · intro j hj heq
    rw [hcounter, hcounter] at heq
    exact h.last j (by rwa [hstate] at hj) heq

theorem doTimer_tick {s : State} (h : Inv s) (fuel : ℕ) :
    ∃ q, doTimer (fuel + 2) s = .ok q ∧ Inv q ∧ SameParts s q ∧ Tick s q := by
  obtain ⟨q, hq, hinv, hpoint⟩ := doTimer_spec h fuel
  have hcur : s.countDown.cur.counter = s.cur.counter - 1 := by rw [countDown_cur]
  refine ⟨q, hq, hinv, ?_⟩
  by_cases hc : s.countDown.cur.counter > 0
  · have hstay : q = s.countDown := by
      rw [doTimer, if_pos hc] at hq
      cases hq
      rfl
    subst hstay
    exact ⟨⟨fun i => (countDown_pool s i).1, fun i => (countDown_pool s i).2.1⟩,
      .stay rfl (by omega) fun i _ => (countDown_pool s i).2.2⟩
  · obtain ⟨-, sel, hsel⟩ := hpoint s.countDown (if_neg hc)
    have hspent : s.cur.counter = 1 := by
      have := h.counter_pos
      omega
    have hchosen : Chosen q.pool q.current := by
      rw [hsel.current_eq]
      exact hsel.selects.chosen.of_share hsel.share
    have hcounter : ∀ i ∈ s.running, (q.pool i).counter =
        (s.pool i).counter - s.charge i + sel.recharges * (s.pool i).priority := by
      intro i hi
      have hrun : (s.countDown.pool i).state = .running := by
        rw [(countDown_pool s i).1]
        exact mem_running.mp hi
      rw [(hsel.share i).2.2.2, (hsel.selects.counter i).2.2 hrun, (countDown_pool s i).2.1,
        (countDown_pool s i).2.2]
    refine ⟨⟨fun i => ?_, fun i => ?_⟩, ?_⟩
    · rw [(hsel.share i).2.1, (hsel.selects.counter i).1, (countDown_pool s i).1]
    · rw [(hsel.share i).2.2.1, (hsel.selects.counter i).2.1, (countDown_pool s i).2.1]
    · by_cases hone : sel.recharges = 1
      · have hzero : ∀ i ∈ s.running, (s.pool i).counter = s.charge i := by
          intro i hi
          have := hsel.selects.idle hone i (by rw [(countDown_pool s i).1]; exact mem_running.mp hi)
          rw [(countDown_pool s i).2.2] at this
          omega
        refine .reset hchosen hzero fun i hi => ?_
        rw [hcounter i hi, hzero i hi, hone]
        push_cast
        ring
      · have hnone : sel.recharges = 0 := by
          have := hsel.selects.recharges_le
          omega
        refine .next hchosen hspent fun i hi => ?_
        rw [hcounter i hi, hnone]
        push_cast
        ring

/-- A tick takes one from the current task, and a reset adds its priority to every RUNNING task. -/
theorem Tick.ledger {s q : State} (h : Tick s q) : ∃ resets : ℕ, ∀ i ∈ s.running,
    s.charge i + (q.pool i).counter = (s.pool i).counter + resets * (s.pool i).priority := by
  cases h with
  | stay _ _ counter | next _ _ counter =>
    refine ⟨0, fun i hi => ?_⟩
    rw [counter i hi]
    push_cast
    ring
  | reset _ spent counter =>
    refine ⟨1, fun i hi => ?_⟩
    rw [counter i hi, spent i hi]
    push_cast
    ring

/-- When all counters are full, the right task is current. -/
theorem Tick.crowned {s q : State} (h : Tick s q) (hinv : Inv s)
    (hfull : ∀ i ∈ s.running, (q.pool i).counter = (s.pool i).priority) : Chosen q.pool q.current := by
  cases h with
  | stay _ _ counter =>
    -- the counter of the current task would have been larger than its priority
    have hcur : s.current ∈ s.running := mem_running.mpr hinv.running
    have h₁ := counter _ hcur
    have h₂ := hfull _ hcur
    have h₃ := (hinv.pool s.current).counter_le
    unfold State.charge at h₁
    rw [if_pos rfl] at h₁
    omega
  | next chosen => exact chosen
  | reset chosen => exact chosen

/-! ## Any number of ticks -/

/-- A run of ticks and what is charged for it. -/
structure Ticked (s : State) (n : ℕ) (charged : List Slot) (q : State) : Prop where
  inv : Inv q
  parts : SameParts s q
  length : charged.length = n
  mem : ∀ i ∈ charged, i ∈ s.running
  ledger : ∃ resets : ℕ, ∀ i ∈ s.running,
    charged.count i + (q.pool i).counter = (s.pool i).counter + resets * (s.pool i).priority
  crowned : 0 < n → (∀ i ∈ s.running, (q.pool i).counter = (s.pool i).priority) →
    Chosen q.pool q.current

theorem count_cons (s : State) (charged : List Slot) (i : Slot) :
    ((s.current :: charged).count i : ℤ) = s.charge i + charged.count i := by
  unfold State.charge
  rw [List.count_cons]
  by_cases hcur : i = s.current
  · simp [hcur, add_comm]
  · simp [hcur, Ne.symm hcur]

theorem ticks_succ {fuel n : ℕ} {s s' q : State} {charged : List Slot} (hs : doTimer fuel s = .ok s')
    (hq : ticks fuel n s' = .ok (charged, q)) :
    ticks fuel (n + 1) s = .ok (s.current :: charged, q) := by
  rw [ticks, hs]
  show (ticks fuel n s' >>= _) = _
  rw [hq]
  rfl

/-- After any number of ticks, the ticks charged to a task and its counter are what the task had and
    its priority for each reset. -/
theorem ticks_ledger {s : State} (h : Inv s) (fuel n : ℕ) :
    ∃ charged q, ticks (fuel + 2) n s = .ok (charged, q) ∧ Ticked s n charged q := by
  induction n generalizing s with
  | zero =>
    refine ⟨[], s, rfl, h, ⟨fun _ => rfl, fun _ => rfl⟩, rfl, by simp, ⟨0, fun i _ => ?_⟩, by simp⟩
    simp
  | succ n ih =>
    obtain ⟨s', hs', hinv, hparts, htick⟩ := doTimer_tick h fuel
    obtain ⟨charged, q, hq, hrun⟩ := ih hinv
    refine ⟨s.current :: charged, q, ticks_succ hs' hq, hrun.inv, hparts.trans hrun.parts, ?_, ?_, ?_, ?_⟩
    · rw [List.length_cons, hrun.length]
    · intro i hi
      rcases List.mem_cons.mp hi with rfl | hi
      · exact mem_running.mpr h.running
      · rw [← hparts.running]
        exact hrun.mem i hi
    · obtain ⟨r, hr⟩ := htick.ledger
      obtain ⟨r', hr'⟩ := hrun.ledger
      refine ⟨r + r', fun i hi => ?_⟩
      have h₁ := hr i hi
      have h₂ := hr' i (by rwa [hparts.running])
      rw [hparts.priority] at h₂
      rw [count_cons]
      push_cast
      linarith
    · intro _ hfull
      cases n with
      | zero =>
        cases hq
        exact htick.crowned h hfull
      | succ n =>
        apply hrun.crowned (by omega)
        intro i hi
        rw [hparts.running] at hi
        rw [hparts.priority]
        exact hfull i hi

/-! ## Rounds -/

/-- The sum of the ledger: `n` ticks are charged in all. -/
theorem Ticked.total {s q : State} {n : ℕ} {charged : List Slot} (h : Ticked s n charged q) {resets : ℕ}
    (hr : ∀ i ∈ s.running,
      charged.count i + (q.pool i).counter = (s.pool i).counter + resets * (s.pool i).priority) :
    n + q.left = s.left + resets * s.round := by
  have hcount : ∑ i ∈ s.running, charged.count i = n := by
    rw [← h.length]
    simpa using Multiset.sum_count_eq_card (m := (charged : Multiset Slot)) h.mem
  have hsum := Finset.sum_congr rfl hr
  rw [Finset.sum_add_distrib, Finset.sum_add_distrib, ← Finset.mul_sum, ← Nat.cast_sum, hcount] at hsum
  unfold State.left State.round
  rwa [h.parts.running]

theorem Inv.left_pos {s : State} (h : Inv s) : 0 < s.left := by
  unfold State.left
  refine Finset.sum_pos' (fun i _ => (h.pool i).counter_nonneg) ⟨s.current, ?_, h.counter_pos⟩
  exact mem_running.mpr h.running

theorem Inv.left_le {s : State} (h : Inv s) : s.left ≤ s.round :=
  Finset.sum_le_sum fun i _ => (h.pool i).counter_le

/-- A round is about to begin. -/
structure Fresh (s : State) : Prop where
  full : ∀ i ∈ s.running, (s.pool i).counter = (s.pool i).priority
  chosen : Chosen s.pool s.current

/-- Counters that sum up to the length of a round are full. -/
theorem full_of_left_eq {s : State} (h : Inv s) (heq : s.left = s.round) :
    ∀ i ∈ s.running, (s.pool i).counter = (s.pool i).priority :=
  (Finset.sum_eq_sum_iff_of_le fun i _ => (h.pool i).counter_le).mp heq

/-- As many ticks as there were counters, and any number of full rounds after them, give every RUNNING
    task exactly its counter and its priority for each round. -/
theorem ticks_fair {fuel : ℕ} {s : State} (h : Reachable (fuel + 2) s) (rounds : ℕ) :
    ∃ charged q, ticks (fuel + 2) (s.left + rounds * s.round).toNat s = .ok (charged, q) ∧ Fresh q ∧
      ∀ i, (s.pool i).state = .running →
        charged.count i = (s.pool i).counter + rounds * (s.pool i).priority := by
  have hinv := h.inv
  obtain ⟨charged, q, hq, hrun⟩ := ticks_ledger hinv fuel (s.left + rounds * s.round).toNat
  obtain ⟨resets, hr⟩ := hrun.ledger
  have hpos := hinv.left_pos
  have hround : 0 < s.round := hpos.trans_le hinv.left_le
  have htotal := hrun.total hr
  have hcast : ((s.left + rounds * s.round).toNat : ℤ) = s.left + rounds * s.round :=
    Int.toNat_of_nonneg (by positivity)
  rw [hcast] at htotal
  have hround' : q.round = s.round := by
    unfold State.round
    rw [hrun.parts.running]
    exact Finset.sum_congr rfl fun i _ => hrun.parts.priority i
  -- the counters that are left are a multiple of a round, so they are one round
  have hq_pos := hrun.inv.left_pos
  have hq_le := hrun.inv.left_le
  rw [hround'] at hq_le
  have hleft : q.left = ((resets : ℤ) - rounds) * s.round := by linarith
  have hresets : (resets : ℤ) - rounds = 1 := by
    have h1 : 0 < (resets : ℤ) - rounds := by
      by_contra hneg
      have := mul_nonpos_of_nonpos_of_nonneg (not_lt.mp hneg) hround.le
      omega
    have h2 : (resets : ℤ) - rounds ≤ 1 := by
      by_contra hbig
      have : 2 * s.round ≤ ((resets : ℤ) - rounds) * s.round :=
        mul_le_mul_of_nonneg_right (by omega) hround.le
      omega
    omega
  have hfull : ∀ i ∈ q.running, (q.pool i).counter = (q.pool i).priority := by
    apply full_of_left_eq hrun.inv
    rw [hleft, hresets, hround', one_mul]
  have hfull' : ∀ i ∈ s.running, (q.pool i).counter = (s.pool i).priority := by
    intro i hi
    rw [hfull i (by rwa [hrun.parts.running]), hrun.parts.priority]
  refine ⟨charged, q, hq, ⟨hfull, ?_⟩, ?_⟩
  · apply hrun.crowned _ hfull'
    have := mul_nonneg (Int.natCast_nonneg rounds) hround.le
    omega
  · intro i hi
    have hi' : i ∈ s.running := mem_running.mpr hi
    have := hr i hi'
    rw [hfull' i hi'] at this
    have hres : (resets : ℤ) = rounds + 1 := by omega
    rw [hres] at this
    linarith

/-- Task 0 has called `sys_fork` twice. -/
def forkedTwice : State :=
  let child (i : Slot) : Task := { taskInit.cur with taskId := i, lr := .exitKernel }
  { (taskInit.set 1 (child 1)).set 2 (child 2) with numRunningTask := 3 }

theorem forkedTwice_reachable : Reachable 2 forkedTwice := by
  obtain ⟨s, hs⟩ : ∃ s, step 2 taskInit .fork = .ok s := ⟨_, rfl⟩
  have hfirst : Op.fork.Enabled taskInit := ⟨1, by decide, rfl⟩
  have hreach : Reachable 2 s := .step .init hfirst hs
  have hsecond : Op.fork.Enabled s ∧ step 2 s .fork = .ok forkedTwice := by
    cases hs
    exact ⟨⟨2, by decide, rfl⟩, rfl⟩
  exact .step hreach hsecond.1 hsecond.2

/-- After a tick task 2 is current, task 0 has nothing left and the others have one tick each. Two full
    rounds more give task 0 two ticks and the others three. -/
theorem ticks_fair_forked : ∃ s charged q, doTimer 2 forkedTwice = .ok s ∧ s.current = 2 ∧
    (s.pool 0).counter = 0 ∧ (s.pool 1).counter = 1 ∧
    ticks 2 (s.left + (2 : ℕ) * s.round).toNat s = .ok (charged, q) ∧
    (charged.count 0 : ℤ) = 2 ∧ (charged.count 1 : ℤ) = 3 ∧ (charged.count 2 : ℤ) = 3 := by
  obtain ⟨s, hs⟩ : ∃ s, step 2 forkedTwice .tick = .ok s := ⟨_, rfl⟩
  have htick : Op.tick.Enabled forkedTwice := trivial
  have hreach : Reachable (0 + 2) s := .step forkedTwice_reachable htick hs
  obtain ⟨charged, q, hq, -, hcount⟩ := ticks_fair hreach 2
  have hticked := hs
  cases hs
  exact ⟨_, charged, q, hticked, rfl, rfl, rfl, hq, hcount 0 rfl, hcount 1 rfl, hcount 2 rfl⟩

/-! ## The order within a round -/

/-- The slot `i` comes before the slot `j`: its counter is larger, or as large and it is the last. -/
def Before (pool : Pool) (i j : Slot) : Prop :=
  (pool j).counter < (pool i).counter ∨ (pool j).counter = (pool i).counter ∧ j < i

/-- What may be charged first and second: the current task comes first, and only at the start. -/
def State.InOrder (s : State) (i j : Slot) : Prop :=
  i = j ∨ i = s.current ∨ j ≠ s.current ∧ Before s.pool i j

theorem Chosen.before {pool : Pool} {i j : Slot} (h : Chosen pool i) (hj : (pool j).state = .running)
    (hne : j ≠ i) : Before pool i j := by
  rcases (h.counter_le j hj).lt_or_eq with hlt | heq
  · exact .inl hlt
  · exact .inr ⟨heq, (h.last j hj heq).lt_of_ne hne⟩

theorem Inv.sum_charge {s : State} (h : Inv s) : ∑ i ∈ s.running, s.charge i = 1 := by
  unfold State.charge
  rw [Finset.sum_ite_eq' s.running s.current, if_pos (mem_running.mpr h.running)]

/-- Before the last tick of a round, a tick takes one from the current task only. -/
theorem Tick.counter_eq {s q : State} (h : Tick s q) (hinv : Inv s) (hleft : 1 < s.left) :
    ∀ i ∈ s.running, (q.pool i).counter = (s.pool i).counter - s.charge i := by
  cases h with
  | stay _ _ counter | next _ _ counter => exact counter
  | reset _ spent =>
    have hone : s.left = 1 := (Finset.sum_congr rfl spent).trans hinv.sum_charge
    omega

theorem Tick.left_eq {s q : State} (h : Tick s q) (hinv : Inv s) (hparts : SameParts s q)
    (hleft : 1 < s.left) : q.left = s.left - 1 := by
  unfold State.left
  rw [hparts.running, Finset.sum_congr rfl (h.counter_eq hinv hleft), Finset.sum_sub_distrib,
    hinv.sum_charge]

/-- What is in order after a tick was in order before it, for tasks that have ticks left. -/
theorem Tick.inOrder {s q : State} (h : Tick s q) (hinv : Inv s) (hparts : SameParts s q)
    (hleft : 1 < s.left) {i j : Slot} (hi : i ∈ s.running) (hj : j ∈ s.running)
    (hjq : 0 < (q.pool j).counter) (hij : q.InOrder i j) :
    s.InOrder i j := by
  have hcounter := h.counter_eq hinv hleft
  have hsame : ∀ k ∈ s.running, k ≠ s.current → (q.pool k).counter = (s.pool k).counter := by
    intro k hk hne
    rw [hcounter k hk, State.charge, if_neg hne, sub_zero]
  have hbefore : i ≠ s.current → j ≠ s.current → Before q.pool i j → Before s.pool i j := by
    intro hi' hj' hb
    unfold Before at hb ⊢
    rwa [hsame i hi hi', hsame j hj hj'] at hb
  by_cases hicur : i = s.current
  · exact .inr (.inl hicur)
  cases h with
  | stay current =>
    rcases hij with rfl | heq | ⟨hne, hb⟩
    · exact .inl rfl
    · exact .inr (.inl (heq.trans current))
    · rw [current] at hne
      exact .inr (.inr ⟨hne, hbefore hicur hne hb⟩)
  | next chosen spent =>
    -- the task that was current has nothing left
    have hjcur : j ≠ s.current := by
      rintro rfl
      have hone : (s.pool s.current).counter = 1 := spent
      rw [hcounter _ hj, hone, State.charge, if_pos rfl] at hjq
      omega
    rcases hij with rfl | heq | ⟨hne, hb⟩
    · exact .inl rfl
    · by_cases hji : j = i
      · exact .inl hji.symm
      · have hrun : (q.pool j).state = .running := by
          rw [hparts.state]
          exact mem_running.mp hj
        rw [← heq] at chosen
        exact .inr (.inr ⟨hjcur, hbefore hicur hjcur (chosen.before hrun hji)⟩)
    · exact .inr (.inr ⟨hjcur, hbefore hicur hjcur hb⟩)
  | reset _ spent =>
    have hone : s.left = 1 := (Finset.sum_congr rfl spent).trans hinv.sum_charge
    omega

theorem ticks_inOrder {s : State} (h : Inv s) (fuel : ℕ) {n : ℕ} (hn : n ≤ s.left) :
    ∃ charged q, ticks (fuel + 2) n s = .ok (charged, q) ∧ charged.Pairwise s.InOrder ∧
      ∀ i ∈ charged, i ∈ s.running ∧ 0 < (s.pool i).counter := by
  induction n generalizing s with
  | zero => exact ⟨[], s, rfl, .nil, by simp⟩
  | succ n ih =>
    obtain ⟨s', hs', hinv, hparts, htick⟩ := doTimer_tick h fuel
    have hcur : s.current ∈ s.running ∧ 0 < (s.pool s.current).counter :=
      ⟨mem_running.mpr h.running, h.counter_pos⟩
    rcases Nat.eq_zero_or_pos n with rfl | hpos
    · refine ⟨[s.current], s', ticks_succ hs' rfl, List.pairwise_singleton _ _, fun i hi => ?_⟩
      rw [List.mem_singleton.mp hi]
      exact hcur
    · have hleft : 1 < s.left := by
        push_cast at hn
        omega
      have hn' : n ≤ s'.left := by
        rw [htick.left_eq h hparts hleft]
        push_cast at hn
        omega
      obtain ⟨charged, q, hq, horder, hmem⟩ := ih hinv hn'
      have hmem' : ∀ i ∈ charged, i ∈ s.running ∧ 0 < (s'.pool i).counter := by
        intro i hi
        rw [← hparts.running]
        exact hmem i hi
      refine ⟨s.current :: charged, q, ticks_succ hs' hq, ?_, ?_⟩
      · refine List.pairwise_cons.mpr ⟨fun _ _ => .inr (.inl rfl), ?_⟩
        exact horder.imp_of_mem fun hi hj hij => htick.inOrder h hparts hleft (hmem' _ hi).1 (hmem' _ hj).1
          (hmem' _ hj).2 hij
      · intro i hi
        rcases List.mem_cons.mp hi with rfl | hi
        · exact hcur
        · obtain ⟨hrun, hpos'⟩ := hmem' i hi
          refine ⟨hrun, ?_⟩
          rw [htick.counter_eq h hleft i hrun] at hpos'
          unfold State.charge at hpos'
          split at hpos' <;> omega

/-- Until the counters are used up the tasks run one after the other, each for all its ticks in a row,
    in the order of their counters. -/
theorem round_order {fuel : ℕ} {s : State} (h : Reachable (fuel + 2) s) {n : ℕ} (hn : n ≤ s.left) :
    ∃ charged q, ticks (fuel + 2) n s = .ok (charged, q) ∧ charged.Pairwise s.InOrder := by
  obtain ⟨charged, q, hq, horder, -⟩ := ticks_inOrder h.inv fuel hn
  exact ⟨charged, q, hq, horder⟩

/-- Task 0 is charged first. Its children have counters as large as each other: task 2 comes before
    task 1. -/
theorem round_order_forked : ∃ q, ticks 2 3 forkedTwice = .ok ([0, 2, 1], q) ∧
    [0, 2, 1].Pairwise forkedTwice.InOrder := by
  obtain ⟨charged, q, hq, horder⟩ := @round_order 0 _ forkedTwice_reachable 3 (by decide)
  have hcharged : charged = [0, 2, 1] := by
    obtain ⟨q', hq'⟩ : ∃ q', ticks 2 3 forkedTwice = .ok ([0, 2, 1], q') := ⟨_, rfl⟩
    exact congrArg Prod.fst (Except.ok.inj (hq.symm.trans hq'))
  subst hcharged
  exact ⟨q, hq, horder⟩

end RaspiKernel.Sched
