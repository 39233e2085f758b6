import RaspiKernel.Print.Sprintf

/-!
# Software timers

Model of the timer pool of `src/timer.c`. Both `svc 3` and the interrupt of the core timer run
with interrupts masked, so `timer_set` and `timer_update` are one step each. The clock
(`get_current_time`) is an input of both.

* The deadline of a timer is a sum in 64 bits, and may wrap.
* A message that does not fit in its timer with the NUL stops the model.

Results:
* `timer_calls`: in every run, an update announces each timer that has been set, that no update in
  between has seen past its deadline, and that it sees past its deadline itself, once; and a timer
  is refused exactly if two of them are waiting.
-/

namespace RaspiKernel.Irq

open Vfs (Str ofString)
open Print (Message)

/-! ## Model -/

/-- `NR_TIMER`. -/
abbrev nrTimer : ℕ := 2

/-- The size of `message`. -/
abbrev messageSize : ℕ := 64

/-- `struct timer`. `TIMER_ENABLE` and `TIMER_DISABLE` are what `enable` is set to. -/
structure Timer where
  enable : Bool
  startTime : BitVec 64
  timeout : BitVec 64
  message : Str
  message_lt : message.length < messageSize
  deriving DecidableEq

abbrev TimerPool := Fin nrTimer → Timer

theorem empty_lt : ([] : Str).length < messageSize := by decide

/-- `timer_init` (lines 22–31). -/
def timerInit : TimerPool := fun _ => ⟨false, 0, 0, [], empty_lt⟩

/-- The first message of `timer_set` (line 37). `%d` takes the low half of the timeout. -/
def timerSetMessage (timeout : BitVec 64) (message : Str) : Message :=
  ⟨ofString "timer_set: timeout %d ,message %s\n", [.int (timeout.setWidth 32), .str (some message)]⟩

/-- The other one (line 48). -/
def noMoreTimer : Message := ⟨ofString "No more timer available.\n", []⟩

/-- The message of a timer that has run out (line 64). -/
def timeoutMessage (message : Str) : Message :=
  ⟨ofString "\n==== One timer is timeout: %s\n", [.str (some message)]⟩

/-- The message behind them (line 71). -/
def currentTimeMessage (current : BitVec 64) : Message :=
  ⟨ofString "Current time: %d\n", [.int (current.setWidth 32)]⟩

/-- What a call comes back with and what it prints. -/
structure Reply where
  result : ℤ
  printed : List Message
  deriving DecidableEq

/-- `timer_set` (lines 33–50), at `now`. -/
def timerSet (now timeout : BitVec 64) (message : Str) (pool : TimerPool) : Option (Reply × TimerPool) :=
  match (List.finRange nrTimer).find? fun i => !(pool i).enable with
  | none => some (⟨-1, [timerSetMessage timeout message, noMoreTimer]⟩, pool)
  | some i =>
    if h : message.length < messageSize then
      some (⟨i, [timerSetMessage timeout message]⟩,
        Function.update pool i ⟨true, now, timeout, message, h⟩)
    else none

/-- What the loop of `timer_update` keeps. -/
structure Sweep where
  isTimerEnable : Bool
  printed : List Message
  pool : TimerPool

def Timer.deadline (t : Timer) : BitVec 64 := t.startTime + t.timeout

/-- One round of the loop (lines 58–69). -/
def updateRound (current : BitVec 64) (s : Sweep) (i : Fin nrTimer) : Sweep :=
  if (s.pool i).enable = false then s
  else
    let s := { s with isTimerEnable := true }
    if (s.pool i).enable = true ∧ (s.pool i).deadline < current then
      { s with
        printed := s.printed ++ [timeoutMessage (s.pool i).message]
        pool := Function.update s.pool i ⟨false, (s.pool i).startTime, 0, [], empty_lt⟩ }
    else s

/-- `timer_update` (lines 52–72), when the clock says `current`. -/
def timerUpdate (current : BitVec 64) (pool : TimerPool) : List Message × TimerPool :=
  let s := (List.finRange nrTimer).foldl (updateRound current) ⟨false, [], pool⟩
  (s.printed ++ (if s.isTimerEnable then [currentTimeMessage current] else []), s.pool)

/-! ## The pool as a multiset -/

/-- What a timer is set to: when it runs out, and what it says then. -/
structure Alarm where
  deadline : BitVec 64
  message : Str
  deriving DecidableEq

/-- The clock is past the deadline. -/
def Alarm.Past (current : BitVec 64) (a : Alarm) : Prop := a.deadline < current

instance (current : BitVec 64) : DecidablePred (Alarm.Past current) :=
  fun a => inferInstanceAs (Decidable (a.deadline < current))

def Timer.alarm (t : Timer) : Alarm := ⟨t.deadline, t.message⟩

/-- The alarm of a timer that is enabled. -/
def Timer.armed (t : Timer) : Multiset Alarm := if t.enable then {t.alarm} else 0

/-- The alarms of the pool. -/
def waiting (pool : TimerPool) : Multiset Alarm := ∑ i, (pool i).armed

theorem waiting_timerInit : waiting timerInit = 0 := by decide

/-- A timer in a place that had none is one more alarm. -/
theorem waiting_update (pool : TimerPool) {i : Fin nrTimer} (hi : (pool i).enable = false) (t : Timer) :
    waiting (Function.update pool i t) = t.armed + waiting pool := by
  have harmed : (pool i).armed = 0 := by simp [Timer.armed, hi]
  unfold waiting
  rw [← Finset.add_sum_erase _ _ (Finset.mem_univ i),
    ← Finset.add_sum_erase (a := i) _ (fun i => (pool i).armed)
    (Finset.mem_univ i), harmed, zero_add, Function.update_self]
  congr 1
  refine Finset.sum_congr rfl fun j hj => ?_
  rw [Function.update_of_ne (Finset.ne_of_mem_erase hj)]

theorem card_waiting (pool : TimerPool) :
    (waiting pool).card = nrTimer ↔ ∀ i, (pool i).enable = true := by
  unfold waiting Timer.armed
  rw [Fin.sum_univ_two, Multiset.card_add, Fin.forall_fin_two]
  cases (pool 0).enable <;> cases (pool 1).enable <;> simp

/-! ## `timer_set` -/

/-- A timer is refused exactly if all of them wait, and otherwise is one more of them. -/
theorem timerSet_spec {now timeout : BitVec 64} {message : Str} {pool pool' : TimerPool} {r : Reply}
    (h : timerSet now timeout message pool = some (r, pool')) :
    (r.result = -1 ↔ (waiting pool).card = nrTimer) ∧
      waiting pool' = (if r.result = -1 then 0 else {⟨now + timeout, message⟩}) + waiting pool := by
  unfold timerSet at h
  cases hfind : (List.finRange nrTimer).find? fun i => !(pool i).enable with
  | none =>
    rw [hfind] at h
    obtain ⟨rfl, rfl⟩ := Prod.mk.inj (Option.some.inj h)
    have hall : ∀ i, (pool i).enable = true := by
      intro i
      simpa using List.find?_eq_none.mp hfind i (List.mem_finRange i)
    exact ⟨iff_of_true rfl ((card_waiting pool).mpr hall), by simp⟩
  | some i =>
    have hi : (pool i).enable = false := by simpa using List.find?_some hfind
    simp only [hfind] at h
    split at h
    · obtain ⟨rfl, rfl⟩ := Prod.mk.inj (Option.some.inj h)
      have hne : (i : ℤ) ≠ -1 := by omega
      refine ⟨iff_of_false hne ?_, ?_⟩
      · rw [card_waiting]
        intro hall
        rw [hall i] at hi
        cases hi
      · rw [waiting_update pool hi, if_neg hne]
        rfl
    · cases h

/-! ## `timer_update` -/

/-- What the round of a timer announces. -/
def Timer.due (current : BitVec 64) (t : Timer) : Bool := t.enable && decide (t.deadline < current)

/-- What the round of a timer leaves of it. -/
def Timer.swept (current : BitVec 64) (t : Timer) : Timer :=
  if t.due current then ⟨false, t.startTime, 0, [], empty_lt⟩ else t

theorem updateRound_eq (current : BitVec 64) (s : Sweep) (i : Fin nrTimer) :
    updateRound current s i =
      ⟨s.isTimerEnable || (s.pool i).enable,
        s.printed ++ (if (s.pool i).due current then [timeoutMessage (s.pool i).message] else []),
        Function.update s.pool i ((s.pool i).swept current)⟩ := by
  unfold updateRound Timer.swept Timer.due
  by_cases he : (s.pool i).enable = true
  · by_cases hd : (s.pool i).deadline < current
    · simp [he, hd]
    · simp [he, hd]
  · simp [he]

/-- Each round looks at its own timer as it was before the loop. -/
theorem updateLoop_eq (current : BitVec 64) {l : List (Fin nrTimer)} (hl : l.Nodup) (s : Sweep) :
    l.foldl (updateRound current) s =
      ⟨s.isTimerEnable || l.any fun i => (s.pool i).enable,
        s.printed ++ (l.filter fun i => (s.pool i).due current).map fun i => timeoutMessage (s.pool i).message,
        fun i => if i ∈ l then (s.pool i).swept current else s.pool i⟩ := by
  induction l generalizing s with
  | nil => simp
  | cons i l ih =>
    obtain ⟨hi, hl⟩ := List.nodup_cons.mp hl
    have hpool : ∀ j ∈ l, Function.update s.pool i ((s.pool i).swept current) j = s.pool j := by
      intro j hj
      have hne : j ≠ i := by
        rintro rfl
        exact hi hj
      exact Function.update_of_ne hne _ _
    have hany : (l.any fun j => (Function.update s.pool i ((s.pool i).swept current) j).enable) =
        l.any fun j => (s.pool j).enable := by
      rw [Bool.eq_iff_iff, List.any_eq_true, List.any_eq_true]
      refine exists_congr fun j => and_congr_right fun hj => ?_
      rw [hpool j hj]
    have hfilter : (l.filter fun j => (Function.update s.pool i ((s.pool i).swept current) j).due current) =
        l.filter fun j => (s.pool j).due current := by
      refine List.filter_congr fun j hj => ?_
      rw [hpool j hj]
    have hmap : ((l.filter fun j => (s.pool j).due current).map fun j =>
          timeoutMessage (Function.update s.pool i ((s.pool i).swept current) j).message) =
        (l.filter fun j => (s.pool j).due current).map fun j => timeoutMessage (s.pool j).message := by
      refine List.map_congr_left fun j hj => ?_
      rw [hpool j (List.mem_of_mem_filter hj)]
    rw [List.foldl_cons, updateRound_eq, ih hl]
    simp only [hany, hfilter, hmap]
    congr 1
    · simp [Bool.or_assoc]
    · cases hdue : (s.pool i).due current <;> simp [hdue]
    · funext j
      by_cases hj : j = i
      · subst hj
        simp [hi]
      · simp [hj]

theorem timerUpdate_eq (current : BitVec 64) (pool : TimerPool) :
    timerUpdate current pool =
      (((List.finRange nrTimer).filter fun i => (pool i).due current).map
          (fun i => timeoutMessage (pool i).message) ++
        (if ∃ i, (pool i).enable = true then [currentTimeMessage current] else []),
      fun i => (pool i).swept current) := by
  unfold timerUpdate
  rw [updateLoop_eq current (List.nodup_finRange _)]
  simp

theorem armed_swept (current : BitVec 64) (t : Timer) :
    (t.swept current).armed = t.armed.filter fun a => ¬a.Past current := by
  unfold Timer.swept Timer.due Timer.armed
  by_cases he : t.enable = true
  · by_cases hd : t.deadline < current
    · simp [he, hd, Timer.alarm, Alarm.Past, Multiset.filter_singleton]
    · simp [he, hd, Timer.alarm, Alarm.Past, Multiset.filter_singleton]
  · simp [he]

theorem filter_armed (current : BitVec 64) (t : Timer) :
    t.armed.filter (Alarm.Past current) = if t.due current then {t.alarm} else 0 := by
  unfold Timer.due Timer.armed
  by_cases he : t.enable = true
  · by_cases hd : t.deadline < current
    · simp [he, hd, Timer.alarm, Alarm.Past, Multiset.filter_singleton]
    · simp [he, hd, Timer.alarm, Alarm.Past, Multiset.filter_singleton]
  · simp [he]

/-- What an update keeps waiting. -/
theorem waiting_timerUpdate (current : BitVec 64) (pool : TimerPool) :
    waiting (timerUpdate current pool).2 = (waiting pool).filter fun a => ¬a.Past current := by
  rw [timerUpdate_eq]
  unfold waiting
  rw [Fin.sum_univ_two, Fin.sum_univ_two, Multiset.filter_add, armed_swept, armed_swept]

theorem filter_armed_sum (current : BitVec 64) (pool : TimerPool) (l : List (Fin nrTimer)) :
    (((l.filter fun i => (pool i).due current).map fun i => (pool i).alarm : List Alarm) : Multiset Alarm) =
      (l.map fun i => (pool i).armed).sum.filter (Alarm.Past current) := by
  induction l with
  | nil => rfl
  | cons i l ih =>
    rw [List.map_cons, List.sum_cons, Multiset.filter_add, filter_armed, ← ih]
    cases hdue : (pool i).due current <;> simp [hdue]

theorem waiting_eq_zero (pool : TimerPool) : waiting pool = 0 ↔ ¬∃ i, (pool i).enable = true := by
  unfold waiting Timer.armed
  rw [Finset.sum_eq_zero_iff]
  push Not
  refine forall_congr' fun i => ?_
  cases (pool i).enable <;> simp

/-- What an update prints: the alarms that it sees past their deadlines, each once. -/
theorem printed_timerUpdate (current : BitVec 64) (pool : TimerPool) : ∃ l : List Alarm,
    (l : Multiset Alarm) = (waiting pool).filter (Alarm.Past current) ∧
      (timerUpdate current pool).1 = l.map (fun a => timeoutMessage a.message) ++
        (if waiting pool = 0 then [] else [currentTimeMessage current]) := by
  refine ⟨((List.finRange nrTimer).filter fun i => (pool i).due current).map fun i => (pool i).alarm, ?_, ?_⟩
  · rw [filter_armed_sum, waiting, Fin.sum_univ_def]
  · rw [timerUpdate_eq, List.map_map]
    by_cases h : ∃ i, (pool i).enable = true
    · rw [if_pos h, if_neg (fun h0 => (waiting_eq_zero pool).mp h0 h)]
      rfl
    · rw [if_neg h, if_pos ((waiting_eq_zero pool).mpr h)]
      rfl

/-! ## Runs -/

theorem filter_sum {ι α : Type} (p : α → Prop) [DecidablePred p] (s : Finset ι) (f : ι → Multiset α) :
    (∑ i ∈ s, f i).filter p = ∑ i ∈ s, (f i).filter p := by
  induction s using Finset.cons_induction with
  | empty => rfl
  | cons i s hi ih => rw [Finset.sum_cons, Finset.sum_cons, Multiset.filter_add, ih]

/-- A call, with what it reads from the clock. -/
inductive TimerCall where
  | set (now timeout : BitVec 64) (message : Str)
  | update (current : BitVec 64)

/-- The call. `timer_update` has no result, and `0` stands for it. -/
def TimerCall.run (pool : TimerPool) : TimerCall → Option (Reply × TimerPool)
  | .set now timeout message => timerSet now timeout message pool
  | .update current => some (⟨0, (timerUpdate current pool).1⟩, (timerUpdate current pool).2)

/-- The call is an update that sees `a` past its deadline. -/
def TimerCall.Passes (a : Alarm) : TimerCall → Prop
  | .set _ _ _ => False
  | .update current => a.Past current

instance (a : Alarm) : DecidablePred (TimerCall.Passes a)
  | .set _ _ _ => inferInstanceAs (Decidable False)
  | .update current => inferInstanceAs (Decidable (a.Past current))

/-- `n` calls, one after the other, that all come back. -/
structure TimerRun (n : ℕ) where
  call : ℕ → TimerCall
  reply : ℕ → Reply
  pool : ℕ → TimerPool
  init : pool 0 = timerInit
  step : ∀ k < n, (call k).run (pool k) = some (reply k, pool (k + 1))

namespace TimerRun

variable {n : ℕ} (r : TimerRun n)

/-- The alarm that call `k` has set, if it has set one. -/
def sets (k : ℕ) : Multiset Alarm :=
  match r.call k with
  | .set now timeout message => if (r.reply k).result = -1 then 0 else {⟨now + timeout, message⟩}
  | .update _ => 0

/-- The alarms that were set before call `m` and that no update in between has seen past their
    deadlines. -/
def pending (m : ℕ) : Multiset Alarm :=
  ∑ k ∈ Finset.range m, (r.sets k).filter fun a => ∀ j ∈ Finset.Ioo k m, ¬(r.call j).Passes a

/-- Call `m` ends the wait of what it sees past the deadline, and begins that of what it sets. -/
theorem pending_succ (m : ℕ) :
    r.pending (m + 1) = r.sets m + (r.pending m).filter fun a => ¬(r.call m).Passes a := by
  unfold pending
  rw [Finset.sum_range_succ, add_comm]
  congr 1
  · rw [Multiset.filter_eq_self]
    intro a _ j hj
    rw [Finset.mem_Ioo] at hj
    omega
  · rw [filter_sum]
    refine Finset.sum_congr rfl fun k hk => ?_
    rw [Multiset.filter_filter]
    refine Multiset.filter_congr fun a _ => ?_
    have hkm : k < m := Finset.mem_range.mp hk
    have hIoo : Finset.Ioo k (m + 1) = insert m (Finset.Ioo k m) := by
      ext j
      rw [Finset.mem_insert, Finset.mem_Ioo, Finset.mem_Ioo]
      omega
    rw [hIoo, Finset.forall_mem_insert]

/-- The pool holds what is pending. -/
theorem waiting_pool {m : ℕ} (hm : m ≤ n) : waiting (r.pool m) = r.pending m := by
  induction m with
  | zero =>
    rw [r.init, waiting_timerInit]
    rfl
  | succ m ih =>
    have hstep := r.step m (by omega)
    rw [pending_succ, ← ih (by omega)]
    unfold sets
    cases hcall : r.call m with
    | set now timeout message =>
      rw [hcall] at hstep
      rw [(timerSet_spec hstep).2]
      simp [TimerCall.Passes]
    | update current =>
      rw [hcall] at hstep
      obtain ⟨-, hpool⟩ := Prod.mk.inj (Option.some.inj hstep)
      rw [← hpool, waiting_timerUpdate, zero_add]
      rfl

end TimerRun

/-- In every run of the timers. An update announces the alarms that were set before it, that no update
    in between has seen past their deadlines and that it sees past them itself, each once, and nothing
    else; it tells the time if any was waiting. A timer is refused exactly if two were waiting. -/
theorem timer_calls {n : ℕ} (r : TimerRun n) {m : ℕ} (hm : m < n) :
    (∀ current, r.call m = .update current → ∃ l : List Alarm,
        (l : Multiset Alarm) = (r.pending m).filter (Alarm.Past current) ∧
        (r.reply m).printed = l.map (fun a => timeoutMessage a.message) ++
          (if r.pending m = 0 then [] else [currentTimeMessage current])) ∧
      ∀ now timeout message, r.call m = .set now timeout message →
        ((r.reply m).result = -1 ↔ (r.pending m).card = nrTimer) := by
  have hstep := r.step m hm
  rw [← r.waiting_pool hm.le]
  constructor
  · intro current hcall
    rw [hcall] at hstep
    obtain ⟨hreply, -⟩ := Prod.mk.inj (Option.some.inj hstep)
    rw [← hreply]
    exact printed_timerUpdate current (r.pool m)
  · intro now timeout message hcall
    rw [hcall] at hstep
    exact (timerSet_spec hstep).1

/-- Two timers, one too many, and two updates. -/
def teaCalls : ℕ → TimerCall
  | 0 => .set 10 5 (ofString "tea")
  | 1 => .set 11 2 (ofString "egg")
  | 2 => .set 12 1 (ofString "toast")
  | 3 => .update 14
  | _ => .update 16

/-- The pool before call `k`. -/
def poolBefore (call : ℕ → TimerCall) : ℕ → TimerPool
  | 0 => timerInit
  | k + 1 => (((call k).run (poolBefore call k)).getD (⟨0, []⟩, timerInit)).2

def teaReply (k : ℕ) : Reply := (((teaCalls k).run (poolBefore teaCalls k)).getD (⟨0, []⟩, timerInit)).1

theorem teaCalls_step : ∀ k < 5, (teaCalls k).run (poolBefore teaCalls k) =
    some (teaReply k, poolBefore teaCalls (k + 1)) := by
  decide

def teaRun : TimerRun 5 := ⟨teaCalls, teaReply, poolBefore teaCalls, rfl, teaCalls_step⟩

theorem timer_calls_tea : (teaRun.reply 2).result = -1 ∧ (teaRun.pending 2).card = 2 ∧
    ∃ l : List Alarm, (l : Multiset Alarm) = (teaRun.pending 3).filter (Alarm.Past 14) ∧
      (teaRun.reply 3).printed = l.map (fun a => timeoutMessage a.message) ++ [currentTimeMessage 14] := by
  have hset := (timer_calls teaRun (show 2 < 5 by decide)).2 12 1 (ofString "toast") rfl
  have hupdate := (timer_calls teaRun (show 3 < 5 by decide)).1 14 rfl
  have hcard : (teaRun.pending 2).card = nrTimer := by decide
  have hne : teaRun.pending 3 ≠ 0 := by decide
  rw [if_neg hne] at hupdate
  exact ⟨hset.mpr hcard, hcard, hupdate⟩

end RaspiKernel.Irq
