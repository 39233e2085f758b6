import RaspiKernel.Irq.Uart

/-!
# The character queues

Model of the functions of `src/uart.c` (lines 190–228) that go through `read_buffer`
and `write_buffer`, and of any sequence of calls on one of the two. `is_empty` is
asked before every `dequeue_char`; nothing is asked before an `enqueue_char`.

Results:
* `uartAsyncGets_eq`: `uart_async_gets` gets what the queue holds and leaves it empty.
* `Traffic.Lost.step`: what has been lost is never made up for.
* `fifo_iff`: the queue loses nothing exactly if it never has to hold more than 63
  characters.
* `puts_fifo_iff`: what a string needs.
-/

namespace RaspiKernel.Irq

open Lib

/-! ## The callers -/

/-- `uart_async_getc` (lines 190–195). -/
def uartAsyncGetc (q : Queue) : UInt8 × Queue := if isEmpty q then (0, q) else dequeueChar q

/-- The loop of `uart_async_gets` (lines 217 and 218), with a bound on its rounds: the characters it
    stores to `buf`, and the queue. -/
def getsLoop : ℕ → Queue → Option (List UInt8 × Queue)
  | 0, _ => none
  | fuel + 1, q =>
    if isEmpty q then some ([], q)
    else
      let (c, q) := dequeueChar q
      (getsLoop fuel q).map fun (cs, q) => (c :: cs, q)

/-- `uart_async_gets` (lines 214–221): the returned `int`, the bytes at `buf`, and the queue. -/
def uartAsyncGets (fuel : ℕ) (q : Queue) : Option (ℕ × List UInt8 × Queue) :=
  (getsLoop fuel q).map fun (cs, q) => (cs.length, cs ++ [0], q)

/-- `uart_tasklet` (lines 224–228). -/
def uartTasklet (q : Queue) (data : UInt64) : Queue := enqueueChar q data.toUInt8

/-! ## Sequences of calls -/

/-- A call on a queue. -/
inductive QueueOp where
  | enqueue (c : UInt8)
  /-- `if (!is_empty(q)) dequeue_char(q);`. -/
  | dequeue
  deriving DecidableEq

/-- A queue, with what has been enqueued and what has been dequeued, in the order of time. -/
structure Traffic where
  queue : Queue
  enqueued : List UInt8
  dequeued : List UInt8

def Traffic.step (t : Traffic) : QueueOp → Traffic
  | .enqueue c => { t with queue := enqueueChar t.queue c, enqueued := t.enqueued ++ [c] }
  | .dequeue =>
    if isEmpty t.queue then t
    else
      let (c, q) := dequeueChar t.queue
      { t with queue := q, dequeued := t.dequeued ++ [c] }

def Traffic.run (t : Traffic) (ops : List QueueOp) : Traffic := ops.foldl Traffic.step t

/-- `read_buffer` or `write_buffer` before the first call. -/
def Traffic.init : Traffic := ⟨emptyQueue, [], []⟩

/-- What was dequeued, followed by what can still be got out of the queue, is what was enqueued. -/
def Traffic.Fifo (t : Traffic) : Prop :=
  ∃ rest q, getsLoop t.queue.size t.queue = some (rest, q) ∧ isEmpty q ∧
    t.dequeued ++ rest = t.enqueued

/-- Along the calls, fewer than `size` characters are ever outstanding. At first there are `n`. -/
def NeverFull (size : ℕ) : ℕ → List QueueOp → Prop
  | _, [] => True
  | n, .enqueue _ :: ops => n + 1 < size ∧ NeverFull size (n + 1) ops
  | n, .dequeue :: ops => NeverFull size (n - 1) ops

variable {q : Queue} {t : Traffic} {ops : List QueueOp} {c : UInt8} {n size : ℕ}

instance decidableNeverFull (size : ℕ) : ∀ n ops, Decidable (NeverFull size n ops)
  | _, [] => .isTrue trivial
  | n, .enqueue _ :: ops =>
    have := decidableNeverFull size (n + 1) ops
    inferInstanceAs (Decidable (_ ∧ _))
  | n, .dequeue :: ops => decidableNeverFull size (n - 1) ops

/-! ## Emptying a queue -/

theorem dequeueChar_eq (q : Queue) : dequeueChar q = (q.buffer q.tail, q.release) := rfl

theorem getsLoop_eq {fuel : ℕ} (hq : q.Ok) (hfuel : q.count < fuel) :
    getsLoop fuel q = some (q.contents, { q with tail := q.head }) := by
  induction fuel generalizing q with
  | zero => omega
  | succ fuel ih =>
    rw [getsLoop]
    by_cases he : isEmpty q
    · have hw : ({ q with tail := q.head } : Queue) = q :=
        congrArg (fun j => ({ q with tail := j } : Queue)) (show q.head = q.tail from he)
      rw [if_pos he, hq.contents_eq_nil.mpr he, hw]
    · have hcount := hq.count_release he
      rw [if_neg he, dequeueChar_eq]
      dsimp only
      rw [ih hq.release (by omega), hq.contents_eq_cons he]
      rfl

/-! ## One call -/

/-- Where the queue is in its bounds. -/
structure Traffic.Ok (size : ℕ) (t : Traffic) : Prop where
  ring : t.queue.Ok
  size_eq : t.queue.size = size

/-- Everything that was enqueued has been dequeued or is in the queue. -/
def Traffic.Kept (t : Traffic) : Prop := t.dequeued ++ t.queue.contents = t.enqueued

/-- Something that was enqueued is in neither place. -/
def Traffic.Lost (t : Traffic) : Prop := t.dequeued.length + t.queue.count < t.enqueued.length

theorem Traffic.Lost.not_kept (h : t.Lost) : ¬ t.Kept := by
  intro heq
  have hlen := congrArg List.length heq
  rw [List.length_append, RingBuffer.length_contents] at hlen
  exact absurd h (by rw [Traffic.Lost]; omega)

theorem Traffic.Ok.fifo_iff_kept (h : t.Ok size) : t.Fifo ↔ t.Kept := by
  have hloop := getsLoop_eq h.ring h.ring.count_lt
  unfold Traffic.Fifo
  constructor
  · rintro ⟨rest, q, hrest, -, heq⟩
    rw [hloop] at hrest
    obtain ⟨rfl, -⟩ := Prod.mk.inj (Option.some.inj hrest)
    exact heq
  · intro heq
    exact ⟨_, _, hloop, rfl, heq⟩

theorem Traffic.Ok.step (h : t.Ok size) (op : QueueOp) : (t.step op).Ok size := by
  cases op with
  | enqueue c =>
    have hw : (t.queue.write c).Ok := ⟨h.ring.head_lt, h.ring.tail_lt⟩
    exact ⟨hw.advance, h.size_eq⟩
  | dequeue =>
    unfold Traffic.step
    dsimp only
    split_ifs
    · exact h
    · exact ⟨h.ring.release, h.size_eq⟩

/-- What an `enqueue_char` makes of the number of characters: the one that would be the 64th empties
    the queue. -/
theorem count_enqueueChar (hq : q.Ok) (c : UInt8) :
    (enqueueChar q c).count = if q.count + 1 < q.size then q.count + 1 else 0 := by
  have hw : (q.write c).Ok := ⟨hq.head_lt, hq.tail_lt⟩
  have hlt := hq.count_lt
  rw [enqueueChar_eq]
  split_ifs with hroom
  · exact hw.count_advance hroom
  · exact hw.count_advance_full (by change q.count + 1 = q.size; omega)

theorem Traffic.Lost.step (h : t.Lost) (hok : t.Ok size) (op : QueueOp) : (t.step op).Lost := by
  unfold Traffic.Lost at *
  cases op with
  | enqueue c =>
    simp only [Traffic.step, count_enqueueChar hok.ring, List.length_append, List.length_singleton]
    split_ifs <;> omega
  | dequeue =>
    simp only [Traffic.step]
    split_ifs with he
    · exact h
    · have hcount := hok.ring.count_release he
      simp only [dequeueChar_eq, List.length_append, List.length_singleton]
      omega

theorem Traffic.Kept.enqueue (h : t.Kept) (hok : t.Ok size) (hroom : t.queue.count + 1 < size)
    (c : UInt8) : (t.step (.enqueue c)).Kept ∧ (t.step (.enqueue c)).queue.count = t.queue.count + 1 := by
  rw [← hok.size_eq] at hroom
  constructor
  · unfold Traffic.Kept at *
    simp only [Traffic.step]
    rw [enqueueChar_eq, hok.ring.contents_push hroom, ← List.append_assoc, h]
  · simp only [Traffic.step]
    rw [count_enqueueChar hok.ring, if_pos hroom]

theorem Traffic.Kept.dequeue (h : t.Kept) (hok : t.Ok size) :
    (t.step .dequeue).Kept ∧ (t.step .dequeue).queue.count = t.queue.count - 1 := by
  unfold Traffic.Kept at *
  simp only [Traffic.step]
  split_ifs with he
  · exact ⟨h, by rw [hok.ring.count_eq_zero.mpr he]⟩
  · have hcount := hok.ring.count_release he
    refine ⟨?_, ?_⟩
    · simp only [dequeueChar_eq]
      rw [List.append_assoc, List.singleton_append, ← hok.ring.contents_eq_cons he, h]
    · simp only [dequeueChar_eq]
      omega

/-- An `enqueue_char` without room loses all that the queue has held. -/
theorem Traffic.Kept.overrun (h : t.Kept) (hok : t.Ok size) (hfull : ¬ t.queue.count + 1 < size)
    (c : UInt8) : (t.step (.enqueue c)).Lost := by
  have hlen := congrArg List.length h
  rw [List.length_append, RingBuffer.length_contents] at hlen
  rw [← hok.size_eq] at hfull
  unfold Traffic.Lost
  simp only [Traffic.step]
  rw [count_enqueueChar hok.ring, if_neg hfull, List.length_append, List.length_singleton]
  omega

/-! ## All calls -/

theorem Traffic.run_cons (t : Traffic) (op : QueueOp) (ops : List QueueOp) :
    t.run (op :: ops) = (t.step op).run ops := rfl

theorem Traffic.Ok.run (h : t.Ok size) (ops : List QueueOp) : (t.run ops).Ok size := by
  induction ops generalizing t with
  | nil => exact h
  | cons op ops ih => exact ih (h.step op)

theorem Traffic.Lost.run (h : t.Lost) (hok : t.Ok size) (ops : List QueueOp) : (t.run ops).Lost := by
  induction ops generalizing t with
  | nil => exact h
  | cons op ops ih => exact ih (h.step hok op) (hok.step op)

theorem Traffic.Kept.run_iff (h : t.Kept) (hok : t.Ok size) (ops : List QueueOp) :
    (t.run ops).Kept ↔ NeverFull size t.queue.count ops := by
  induction ops generalizing t with
  | nil => exact iff_of_true h trivial
  | cons op ops ih =>
    rw [Traffic.run_cons]
    cases op with
    | enqueue c =>
      rw [NeverFull]
      by_cases hroom : t.queue.count + 1 < size
      · obtain ⟨hkept, hcount⟩ := h.enqueue hok hroom c
        rw [and_iff_right hroom, ← hcount]
        exact ih hkept (hok.step _)
      · have hlost := (h.overrun hok hroom c).run (hok.step _) ops
        exact iff_of_false hlost.not_kept fun hn => hroom hn.1
    | dequeue =>
      obtain ⟨hkept, hcount⟩ := h.dequeue hok
      rw [NeverFull, ← hcount]
      exact ih hkept (hok.step _)

theorem Traffic.init_ok : Traffic.init.Ok 64 := ⟨⟨by decide, by decide⟩, rfl⟩

theorem Traffic.init_kept : Traffic.init.Kept := rfl

/-- After any sequence of calls, what was dequeued followed by what can still be dequeued is what was
    enqueued, in this order, exactly if never more than 63 characters were outstanding. -/
theorem fifo_iff (ops : List QueueOp) : (Traffic.init.run ops).Fifo ↔ NeverFull 64 0 ops := by
  rw [(Traffic.init_ok.run ops).fifo_iff_kept]
  exact Traffic.init_kept.run_iff Traffic.init_ok ops

/-- Sixty-four times the same character. -/
def burst : List QueueOp := List.replicate 64 (.enqueue 97)

set_option maxRecDepth 4000 in
/-- `uart_async_puts` of 64 characters to an empty queue: none of them can be got out of it. -/
theorem not_fifo_burst :
    getsLoop 64 (Traffic.init.run burst).queue = some ([], (Traffic.init.run burst).queue) ∧
      ¬ (Traffic.init.run burst).Fifo := by
  have hempty : isEmpty (Traffic.init.run burst).queue := by decide
  have hok := Traffic.init_ok.run burst
  constructor
  · rw [getsLoop, if_pos hempty]
  · rw [hok.fifo_iff_kept, Traffic.init_kept.run_iff Traffic.init_ok]
    decide

/-! ## The calls of the source -/

/-- `uart_async_puts` is one `enqueue_char` after the other. -/
theorem uartAsyncPuts_run (u : Uart) (s : List UInt8) :
    (uartAsyncPuts u s).writeBuffer =
      (Traffic.run ⟨u.writeBuffer, [], []⟩ ((s.takeWhile (· ≠ 0)).map .enqueue)).queue := by
  have hrun : ∀ (cs : List UInt8) (t : Traffic),
      (t.run (cs.map .enqueue)).queue = cs.foldl enqueueChar t.queue := by
    intro cs
    induction cs with
    | nil => exact fun _ => rfl
    | cons c cs ih =>
      intro t
      exact ih _
  exact (hrun (s.takeWhile (· ≠ 0)) ⟨u.writeBuffer, [], []⟩).symm

/-- `uart_async_getc` is one guarded `dequeue_char`. -/
theorem uartAsyncGetc_run (t : Traffic) : (uartAsyncGetc t.queue).2 = (t.step .dequeue).queue := by
  unfold uartAsyncGetc Traffic.step
  dsimp only
  split_ifs <;> rfl

/-- `uart_tasklet` is one `enqueue_char`. -/
theorem uartTasklet_run (t : Traffic) (data : UInt64) :
    uartTasklet t.queue data = (t.step (.enqueue data.toUInt8)).queue := rfl

/-- `uart_async_gets` takes all that the queue holds. -/
theorem uartAsyncGets_eq {fuel : ℕ} (hq : q.Ok) (hfuel : q.count < fuel) :
    uartAsyncGets fuel q = some (q.count, q.contents ++ [0], { q with tail := q.head }) := by
  rw [uartAsyncGets, getsLoop_eq hq hfuel, Option.map_some]
  dsimp only
  rw [RingBuffer.length_contents]

theorem neverFull_enqueue (cs : List UInt8) :
    NeverFull size n (cs.map .enqueue) ↔ cs = [] ∨ n + cs.length < size := by
  induction cs generalizing n with
  | nil => exact iff_of_true trivial (Or.inl rfl)
  | cons c cs ih =>
    rw [List.map_cons, NeverFull, ih, List.length_cons]
    simp only [List.cons_ne_nil, false_or]
    constructor
    · rintro ⟨hroom, rfl | hlt⟩
      · exact hroom
      · omega
    · intro hlt
      exact ⟨by omega, Or.inr (by omega)⟩

/-- A string passed to `uart_async_puts` reaches the reader of an empty queue exactly if it has at most
    63 characters. -/
theorem puts_fifo_iff (s : List UInt8) :
    (Traffic.init.run ((s.takeWhile (· ≠ 0)).map .enqueue)).Kept ↔
      (s.takeWhile (· ≠ 0)).length ≤ 63 := by
  rw [Traffic.init_kept.run_iff Traffic.init_ok]
  change NeverFull 64 0 _ ↔ _
  rw [neverFull_enqueue]
  constructor
  · rintro (hnil | hlt)
    · rw [hnil]
      exact Nat.zero_le _
    · omega
  · intro hle
    exact Or.inr (by omega)

end RaspiKernel.Irq
