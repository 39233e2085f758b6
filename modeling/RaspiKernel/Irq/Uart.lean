import RaspiKernel.Lib.RingBuffer

/-!
# Asynchronous UART output

Model of `src/queue.c`, of `uart_async_send` and `uart_async_puts`
(`src/uart.c`, lines 197–209) and of `uart_interrupt_handler`
(`src/exception.c`, lines 150–185) as it is compiled without `ENABLE_TASKLET`.

* A reading of a hardware register is an input. `AUX_MU_IO_REG` keeps what has
  been written to it.
* The handler runs with interrupts masked, so it is one step. It can come before
  and after every store of the code that it interrupts: the one to the buffer, the
  one to `head` and the one to `AUX_MU_IER_REG`.

Results:
* `handler_returns`: the handler comes back from every transmit or receive interrupt.
* `async_output_iff`: in every run with at most 63 characters outstanding, what the
  handler has written followed by the buffer is what was enqueued exactly if the
  transmitter was ready whenever the loop of the handler looked.
* `async_output_lost`: nine characters, the last one lost.
-/

namespace RaspiKernel.Irq

open Lib

/-! ## Queues -/

/-- `struct queue`, with its array of characters. -/
abbrev Queue := RingBuffer UInt8

/-- `read_buffer` and `write_buffer` as they are initialised (`queue.c`, lines 3 and 4). -/
def emptyQueue : Queue := ⟨fun _ => 0, 0, 0, 64⟩

/-- `enqueue_char` (lines 8–12). -/
def enqueueChar (q : Queue) (c : UInt8) : Queue :=
  let q := { q with buffer := Function.update q.buffer q.head c }
  { q with head := (q.head + 1) % q.size }

/-- `dequeue_char` (lines 14–19). -/
def dequeueChar (q : Queue) : UInt8 × Queue :=
  let c := q.buffer q.tail
  (c, { q with tail := (q.tail + 1) % q.size })

/-- `is_empty` (lines 21–24). -/
def isEmpty (q : Queue) : Prop := q.head = q.tail

instance (q : Queue) : Decidable (isEmpty q) := inferInstanceAs (Decidable (q.head = q.tail))

theorem enqueueChar_eq (q : Queue) (c : UInt8) : enqueueChar q c = (q.write c).advance := rfl

/-! ## The handler -/

/-- What the code here changes: `AUX_MU_IER_REG`, the two buffers, and what has been written to
    `AUX_MU_IO_REG`, in the order of time. -/
structure Uart where
  ier : UInt32
  readBuffer : Queue
  writeBuffer : Queue
  io : List UInt8

/-- The successive readings of the registers during one call of the handler. -/
structure Readings where
  iir : ℕ → UInt32
  lsr : ℕ → UInt32
  io : UInt32

/-- `uart_async_send` (`uart.c`, lines 197–201). -/
def uartAsyncSend (u : Uart) (c : UInt32) : Uart :=
  let u := { u with writeBuffer := enqueueChar u.writeBuffer c.toUInt8 }
  { u with ier := u.ier ||| ((1 : UInt32) <<< 1) }

/-- `uart_async_puts` (`uart.c`, lines 203–209), of a string with what is behind its NUL. -/
def uartAsyncPuts (u : Uart) (s : List UInt8) : Uart :=
  let u := { u with writeBuffer := (s.takeWhile (· ≠ 0)).foldl enqueueChar u.writeBuffer }
  { u with ier := u.ier ||| ((1 : UInt32) <<< 1) }

/-- `uart_send` (`uart.c`, lines 70–77), with a bound on the readings of `AUX_MU_LSR_REG` it waits
    for. The result goes with the position behind the last one. -/
def uartSend (lsr : ℕ → UInt32) : ℕ → ℕ × Uart → UInt8 → Option (ℕ × Uart)
  | 0, _, _ => none
  | fuel + 1, (k, u), c =>
    if lsr k &&& 0x20 ≠ 0 then some (k + 1, { u with io := u.io ++ [c] })
    else uartSend lsr fuel (k + 1, u) c

/-- `uart_puts` (`uart.c`, lines 97–105): it sends `\r` before `\n`. -/
def uartPuts (lsr : ℕ → UInt32) (fuel : ℕ) (u : Uart) (s : List UInt8) : Option Uart :=
  let cs := s.flatMap fun c => if c = 10 then [13, c] else [c]
  (cs.foldlM (uartSend lsr fuel) (0, u)).map Prod.snd

/-- The loop of `uart_interrupt_handler` (lines 161–165), with a bound on its rounds. The character
    is taken out of the buffer before the look at `AUX_MU_LSR_REG`, and stays out. -/
def transmitLoop (lsr : ℕ → UInt32) : ℕ → ℕ → Uart → Option Uart
  | 0, _, _ => none
  | fuel + 1, k, u =>
    if isEmpty u.writeBuffer then some u
    else
      let (c, q) := dequeueChar u.writeBuffer
      let u := { u with writeBuffer := q }
      transmitLoop lsr fuel (k + 1)
        (if lsr k &&& 0x20 ≠ 0 then { u with io := u.io ++ [c] } else u)

/-- `"Unknown uart interrupt\n"`. -/
def unknownUartInterrupt : List UInt8 :=
  "Unknown uart interrupt\n".toList.map fun c => UInt8.ofNat c.toNat

/-- `AUX_MU_IIR_REG & (0b01 << 1)`. -/
def Readings.Transmit (r : Readings) : Prop := r.iir 0 &&& ((0b01 : UInt32) <<< 1) ≠ 0

/-- `AUX_MU_IIR_REG & (0b10 << 1)`, where it is the second reading. -/
def Readings.Receive (r : Readings) : Prop := r.iir 1 &&& ((0b10 : UInt32) <<< 1) ≠ 0

instance (r : Readings) : Decidable r.Transmit := inferInstanceAs (Decidable (_ ≠ _))

instance (r : Readings) : Decidable r.Receive := inferInstanceAs (Decidable (_ ≠ _))

/-- The branch of `uart_interrupt_handler` for a received character (lines 167–180). -/
def receive (r : Readings) (u : Uart) : Uart :=
  if r.lsr 0 &&& 0x1 ≠ 0 then
    let c := r.io.toUInt8
    let c := if c = 13 then 10 else c
    { u with readBuffer := enqueueChar u.readBuffer c }
  else u

/-- `uart_interrupt_handler` (lines 150–185). -/
def uartInterruptHandler (fuel : ℕ) (r : Readings) (u : Uart) : Option Uart := do
  let u := { u with ier := u.ier &&& ~~~((1 : UInt32) <<< 0) }
  let u ←
    if r.Transmit then
      transmitLoop r.lsr fuel 0 { u with ier := u.ier &&& ~~~((1 : UInt32) <<< 1) }
    else if r.Receive then some (receive r u)
    else uartPuts r.lsr fuel u unknownUartInterrupt
  some { u with ier := u.ier ||| ((1 : UInt32) <<< 0) }

/-! ## Runs -/

/-- A call to the asynchronous output. -/
inductive Call where
  | send (c : UInt32)
  | puts (s : List UInt8)

/-- The characters that a call enqueues, one after the other. -/
def Call.chars : Call → List UInt8
  | .send c => [c.toUInt8]
  | .puts s => s.takeWhile (· ≠ 0)

/-- The call as one step. -/
def Call.run (u : Uart) : Call → Uart
  | .send c => uartAsyncSend u c
  | .puts s => uartAsyncPuts u s

/-- Where the code outside of the handler is. -/
inductive Phase where
  /-- In no call. -/
  | idle
  /-- Before the store of `c` to the buffer, with the characters after it. -/
  | storing (c : UInt8) (rest : List UInt8)
  /-- Between this store and the one to `head`. -/
  | moving (c : UInt8) (rest : List UInt8)
  /-- Before the store to `AUX_MU_IER_REG`. -/
  | enabling

/-- The phase before the characters `cs` are enqueued. -/
def Phase.enqueue : List UInt8 → Phase
  | [] => .enabling
  | c :: cs => .storing c cs

/-- The system, with the characters enqueued so far and the values that the loop of the handler has
    read from `AUX_MU_LSR_REG`. -/
structure Console where
  uart : Uart
  phase : Phase
  enqueued : List UInt8
  statuses : List UInt32

inductive Event where
  /-- A call begins. -/
  | call (c : Call)
  /-- The call goes on to its next store. -/
  | exec
  /-- An interrupt. -/
  | irq (r : Readings)

/-- The readings of `AUX_MU_LSR_REG` by the loop of the handler: one for each character that is in
    the buffer when the interrupt comes. -/
def Readings.statuses (r : Readings) (u : Uart) : List UInt32 :=
  if r.Transmit then (List.range' 0 u.writeBuffer.count).map r.lsr else []

/-- One event. The loop of the handler gets as many rounds as the buffer has cells. -/
def Console.step (s : Console) : Event → Option Console
  | .call c =>
    match s.phase with
    | .idle => some { s with phase := .enqueue c.chars }
    | _ => none
  | .exec =>
    match s.phase with
    | .idle => none
    | .storing c rest =>
      some { s with
        uart := { s.uart with writeBuffer := s.uart.writeBuffer.write c }
        phase := .moving c rest }
    | .moving c rest =>
      some { s with
        uart := { s.uart with writeBuffer := s.uart.writeBuffer.advance }
        phase := .enqueue rest
        enqueued := s.enqueued ++ [c] }
    | .enabling =>
      some { s with
        uart := { s.uart with ier := s.uart.ier ||| ((1 : UInt32) <<< 1) }
        phase := .idle }
  | .irq r => do
    let u ← uartInterruptHandler s.uart.writeBuffer.size r s.uart
    some { s with uart := u, statuses := s.statuses ++ r.statuses s.uart }

/-- At most 63 characters are outstanding, and an interrupt is a transmit or a receive interrupt. -/
def Event.Allowed (s : Console) : Event → Prop
  | .call _ => True
  | .exec => ∀ c rest, s.phase = .moving c rest → s.uart.writeBuffer.count + 1 ≤ 63
  | .irq r => r.Transmit ∨ r.Receive

/-- The state before the first call. -/
def initConsole (ier : UInt32) : Console := ⟨⟨ier, emptyQueue, emptyQueue, []⟩, .idle, [], []⟩

/-- Every order of calls, of their stores and of interrupts. -/
inductive Reachable : Console → Prop where
  | init (ier : UInt32) : Reachable (initConsole ier)
  | step {s s' : Console} (hs : Reachable s) {e : Event} (he : e.Allowed s)
      (h : s.step e = some s') : Reachable s'

/-! ## The loop of the handler -/

/-- The characters `cs` with the readings of the loop, from position `k`. -/
def drained (lsr : ℕ → UInt32) (k : ℕ) (cs : List UInt8) : List (UInt8 × UInt32) :=
  cs.zip ((List.range' k cs.length).map lsr)

/-- The transmitter was ready for the character. -/
def ready (p : UInt8 × UInt32) : Bool := p.2 &&& 0x20 ≠ 0

/-- The characters of `taken` that were written out. -/
def written (taken : List (UInt8 × UInt32)) : List UInt8 := (taken.filter ready).map Prod.fst

theorem drained_cons (lsr : ℕ → UInt32) (k : ℕ) (c : UInt8) (cs : List UInt8) :
    drained lsr k (c :: cs) = (c, lsr k) :: drained lsr (k + 1) cs := rfl

theorem drained_fst (lsr : ℕ → UInt32) (k : ℕ) (cs : List UInt8) :
    (drained lsr k cs).map Prod.fst = cs :=
  List.map_fst_zip (by rw [List.length_map, List.length_range'])

theorem drained_snd (lsr : ℕ → UInt32) (k : ℕ) (cs : List UInt8) :
    (drained lsr k cs).map Prod.snd = (List.range' k cs.length).map lsr :=
  List.map_snd_zip (by rw [List.length_map, List.length_range'])

theorem written_append (l l' : List (UInt8 × UInt32)) :
    written (l ++ l') = written l ++ written l' := by
  unfold written
  rw [List.filter_append, List.map_append]

/-- All was written out exactly if the transmitter was always ready. -/
theorem written_eq_iff (taken : List (UInt8 × UInt32)) :
    written taken = taken.map Prod.fst ↔ ∀ p ∈ taken, ready p := by
  rw [← List.filter_eq_self]
  constructor
  · intro h
    have hlen := congrArg List.length h
    rw [written, List.length_map, List.length_map] at hlen
    exact List.Sublist.eq_of_length List.filter_sublist hlen
  · intro h
    rw [written, h]

/-- One round takes the oldest character out of the buffer and writes it out if the transmitter is
    ready. -/
theorem transmitLoop_round (lsr : ℕ → UInt32) (fuel k : ℕ) (u : Uart) :
    (let (c, q) := dequeueChar u.writeBuffer
     let u := { u with writeBuffer := q }
     transmitLoop lsr fuel (k + 1)
        (if lsr k &&& 0x20 ≠ 0 then { u with io := u.io ++ [c] } else u)) =
      transmitLoop lsr fuel (k + 1) { u with
        writeBuffer := u.writeBuffer.release
        io := u.io ++ written [(u.writeBuffer.buffer u.writeBuffer.tail, lsr k)] } := by
  dsimp only [dequeueChar]
  congr 1
  by_cases hr : lsr k &&& 0x20 ≠ 0
  · rw [if_pos hr, written, List.filter_cons_of_pos (by exact decide_eq_true hr)]
    rfl
  · rw [if_neg hr, written, List.filter_cons_of_neg (by simpa [ready] using hr)]
    simp [RingBuffer.release]

/-- The loop empties the buffer and writes out what finds the transmitter ready. -/
theorem transmitLoop_eq (lsr : ℕ → UInt32) {fuel : ℕ} : ∀ {k : ℕ} {u : Uart}, u.writeBuffer.Ok →
    u.writeBuffer.count < fuel →
    transmitLoop lsr fuel k u = some { u with
      writeBuffer := { u.writeBuffer with tail := u.writeBuffer.head }
      io := u.io ++ written (drained lsr k u.writeBuffer.contents) } := by
  induction fuel with
  | zero =>
    intro k u _ hfuel
    omega
  | succ fuel ih =>
    intro k u hq hfuel
    rw [transmitLoop]
    by_cases he : isEmpty u.writeBuffer
    · rw [if_pos he, hq.contents_eq_nil.mpr he]
      have hw : ({ u.writeBuffer with tail := u.writeBuffer.head } : Queue) = u.writeBuffer := by
        rw [show u.writeBuffer.head = u.writeBuffer.tail from he]
      rw [hw]
      simp [drained, written]
    · have hcount := hq.count_release he
      have hlt : u.writeBuffer.release.count < fuel := by omega
      rw [if_neg he, transmitLoop_round, ih hq.release hlt, hq.contents_eq_cons he, drained_cons]
      show _ = some { u with
        writeBuffer := { u.writeBuffer with tail := u.writeBuffer.head }
        io := u.io ++ written ([_] ++ drained lsr (k + 1) u.writeBuffer.release.contents) }
      rw [written_append, ← List.append_assoc]
      rfl

/-! ## The handler -/

/-- What the handler takes out of the buffer, with the readings of its loop. -/
def Readings.taken (r : Readings) (u : Uart) : List (UInt8 × UInt32) :=
  if r.Transmit then drained r.lsr 0 u.writeBuffer.contents else []

theorem Readings.taken_snd (r : Readings) (u : Uart) :
    (r.taken u).map Prod.snd = r.statuses u := by
  unfold Readings.taken Readings.statuses
  split_ifs
  · rw [drained_snd, RingBuffer.length_contents]
  · rfl

/-- The call of the handler in `u` has left `u'` behind. -/
structure Handled (r : Readings) (u u' : Uart) : Prop where
  ok : u'.writeBuffer.Ok
  size_eq : u'.writeBuffer.size = u.writeBuffer.size
  buffer_eq : u'.writeBuffer.buffer = u.writeBuffer.buffer
  head_eq : u'.writeBuffer.head = u.writeBuffer.head
  contents_eq : u.writeBuffer.contents = (r.taken u).map Prod.fst ++ u'.writeBuffer.contents
  io_eq : u'.io = u.io ++ written (r.taken u)

/-- A received character goes to the other buffer. -/
theorem receive_writeBuffer (r : Readings) (u : Uart) :
    (receive r u).writeBuffer = u.writeBuffer := by
  unfold receive
  split_ifs <;> rfl

theorem receive_io (r : Readings) (u : Uart) : (receive r u).io = u.io := by
  unfold receive
  split_ifs <;> rfl

/-- A transmit or a receive interrupt is handled, with as many rounds of the loop as the buffer has
    cells. -/
theorem handler_spec {r : Readings} {u : Uart} (hu : u.writeBuffer.Ok)
    (hr : r.Transmit ∨ r.Receive) :
    ∃ u', uartInterruptHandler u.writeBuffer.size r u = some u' ∧ Handled r u u' := by
  by_cases ht : r.Transmit
  · have htaken : r.taken u = drained r.lsr 0 u.writeBuffer.contents := if_pos ht
    have hok : ({ u.writeBuffer with tail := u.writeBuffer.head } : Queue).Ok :=
      ⟨hu.head_lt, hu.head_lt⟩
    refine ⟨{
      ier := u.ier &&& ~~~((1 : UInt32) <<< 0) &&& ~~~((1 : UInt32) <<< 1) ||| ((1 : UInt32) <<< 0)
      readBuffer := u.readBuffer
      writeBuffer := { u.writeBuffer with tail := u.writeBuffer.head }
      io := u.io ++ written (drained r.lsr 0 u.writeBuffer.contents) }, ?_, hok, rfl, rfl, rfl,
      ?_, ?_⟩
    · have hloop := transmitLoop_eq r.lsr (k := 0) (u := { u with
        ier := u.ier &&& ~~~((1 : UInt32) <<< 0) &&& ~~~((1 : UInt32) <<< 1) }) hu hu.count_lt
      unfold uartInterruptHandler
      rw [if_pos ht]
      dsimp only at hloop ⊢
      rw [hloop]
      rfl
    · rw [htaken, drained_fst, hok.contents_eq_nil.mpr rfl, List.append_nil]
    · rw [htaken]
  · have htaken : r.taken u = [] := if_neg ht
    have hrecv := hr.resolve_left ht
    obtain ⟨u₁, hu₁⟩ : ∃ u₁, u₁ = receive r { u with ier := u.ier &&& ~~~((1 : UInt32) <<< 0) } :=
      ⟨_, rfl⟩
    have hw : u₁.writeBuffer = u.writeBuffer := by rw [hu₁, receive_writeBuffer]
    have hio : u₁.io = u.io := by rw [hu₁, receive_io]
    refine ⟨{ u₁ with ier := u₁.ier ||| ((1 : UInt32) <<< 0) }, ?_, ?_, ?_, ?_, ?_, ?_, ?_⟩
    · unfold uartInterruptHandler
      rw [if_neg ht, if_pos hrecv, hu₁]
      rfl
    all_goals dsimp only
    · rwa [hw]
    · rw [hw]
    · rw [hw]
    · rw [hw]
    · rw [hw, htaken, List.map_nil, List.nil_append]
    · rw [hio, htaken, written, List.filter_nil, List.map_nil, List.append_nil]

/-! ## Runs -/

/-- What holds between two events. `taken` are the characters the handler has taken out of the
    buffer, each with the reading of `AUX_MU_LSR_REG` that followed. -/
structure Console.Inv (s : Console) (taken : List (UInt8 × UInt32)) : Prop where
  ok : s.uart.writeBuffer.Ok
  size_eq : s.uart.writeBuffer.size = 64
  staged : ∀ c rest, s.phase = .moving c rest →
    s.uart.writeBuffer.buffer s.uart.writeBuffer.head = c
  enqueued_eq : s.enqueued = taken.map Prod.fst ++ s.uart.writeBuffer.contents
  io_eq : s.uart.io = written taken
  statuses_eq : s.statuses = taken.map Prod.snd

theorem initConsole_inv (ier : UInt32) : (initConsole ier).Inv [] where
  ok := ⟨show 0 < 64 by decide, show 0 < 64 by decide⟩
  size_eq := rfl
  staged := by
    intro c rest h
    cases h
  enqueued_eq := rfl
  io_eq := rfl
  statuses_eq := rfl

theorem Phase.enqueue_ne_moving (cs : List UInt8) (c : UInt8) (rest : List UInt8) :
    Phase.enqueue cs ≠ .moving c rest := by
  cases cs <;> simp [Phase.enqueue]

theorem Console.Inv.exec {s s' : Console} {taken : List (UInt8 × UInt32)} (h : s.Inv taken)
    (he : Event.exec.Allowed s) (hs : s.step .exec = some s') : s'.Inv taken := by
  cases hp : s.phase with
  | idle => simp [Console.step, hp] at hs
  | storing c rest =>
    rw [Console.step, hp] at hs
    obtain rfl := Option.some.inj hs
    refine ⟨⟨h.ok.head_lt, h.ok.tail_lt⟩, h.size_eq, ?_, ?_, h.io_eq, h.statuses_eq⟩
    · intro c' rest' hm
      obtain ⟨rfl, -⟩ := Phase.moving.inj hm
      exact Function.update_self _ _ _
    · show s.enqueued = _ ++ (s.uart.writeBuffer.write c).contents
      rw [h.ok.contents_write, h.enqueued_eq]
  | moving c rest =>
    rw [Console.step, hp] at hs
    obtain rfl := Option.some.inj hs
    have hroom : s.uart.writeBuffer.count + 1 < s.uart.writeBuffer.size := by
      have := he c rest hp
      rw [h.size_eq]
      omega
    refine ⟨h.ok.advance, h.size_eq, ?_, ?_, h.io_eq, h.statuses_eq⟩
    · intro c' rest' hm
      exact absurd hm (Phase.enqueue_ne_moving _ _ _)
    · show s.enqueued ++ [c] = _ ++ s.uart.writeBuffer.advance.contents
      rw [h.ok.contents_advance hroom, h.staged c rest hp, h.enqueued_eq, List.append_assoc]
  | enabling =>
    rw [Console.step, hp] at hs
    obtain rfl := Option.some.inj hs
    refine ⟨h.ok, h.size_eq, ?_, h.enqueued_eq, h.io_eq, h.statuses_eq⟩
    intro c rest hm
    cases hm

theorem Console.Inv.irq {s s' : Console} {taken : List (UInt8 × UInt32)} (h : s.Inv taken)
    {r : Readings} (hr : (Event.irq r).Allowed s) (hs : s.step (.irq r) = some s') :
    s'.Inv (taken ++ r.taken s.uart) := by
  obtain ⟨u, hu, hh⟩ := handler_spec h.ok hr
  rw [Console.step, hu] at hs
  obtain rfl := Option.some.inj hs
  refine ⟨hh.ok, hh.size_eq.trans h.size_eq, ?_, ?_, ?_, ?_⟩
  · intro c rest hm
    show u.writeBuffer.buffer u.writeBuffer.head = c
    rw [hh.buffer_eq, hh.head_eq]
    exact h.staged c rest hm
  · rw [List.map_append, List.append_assoc, ← hh.contents_eq]
    exact h.enqueued_eq
  · rw [written_append, ← h.io_eq]
    exact hh.io_eq
  · rw [List.map_append, r.taken_snd, ← h.statuses_eq]

/-- What holds in every reachable state. -/
theorem Reachable.inv {s : Console} (h : Reachable s) : ∃ taken, s.Inv taken := by
  induction h with
  | init ier => exact ⟨[], initConsole_inv ier⟩
  | step hs he hstep ih =>
    rename_i s s' e
    obtain ⟨taken, hinv⟩ := ih
    cases e with
    | call c =>
      cases hp : s.phase with
      | idle =>
        rw [Console.step, hp] at hstep
        obtain rfl := Option.some.inj hstep
        refine ⟨taken, hinv.ok, hinv.size_eq, ?_, hinv.enqueued_eq, hinv.io_eq, hinv.statuses_eq⟩
        intro c' rest hm
        exact absurd hm (Phase.enqueue_ne_moving _ _ _)
      | _ => simp [Console.step, hp] at hstep
    | exec => exact ⟨taken, hinv.exec he hstep⟩
    | irq r => exact ⟨_, hinv.irq he hstep⟩

/-- In every reachable state the handler comes back from a transmit or a receive interrupt. -/
theorem handler_returns {s : Console} (h : Reachable s) {r : Readings}
    (hr : r.Transmit ∨ r.Receive) : ∃ s', s.step (.irq r) = some s' := by
  obtain ⟨taken, hinv⟩ := h.inv
  obtain ⟨u, hu, -⟩ := handler_spec hinv.ok hr
  exact ⟨{ s with uart := u, statuses := s.statuses ++ r.statuses s.uart },
    by rw [Console.step, hu]; rfl⟩

/-! ## Calls without interrupts -/

theorem Reachable.finish {cs : List UInt8} : ∀ {s : Console}, Reachable s →
    s.phase = .enqueue cs → s.uart.writeBuffer.count + cs.length ≤ 63 →
    Reachable { s with
      uart := { s.uart with
        writeBuffer := cs.foldl enqueueChar s.uart.writeBuffer
        ier := s.uart.ier ||| ((1 : UInt32) <<< 1) }
      phase := .idle
      enqueued := s.enqueued ++ cs } := by
  induction cs with
  | nil =>
    intro s h hp _
    have hexec : Event.exec.Allowed s := by
      intro c rest hm
      exact absurd (hp.symm.trans hm) (Phase.enqueue_ne_moving _ _ _)
    refine h.step hexec ?_
    rw [Console.step, hp, List.append_nil]
    rfl
  | cons c cs ih =>
    intro s h hp hroom
    rw [List.length_cons] at hroom
    -- the two stores of `enqueue_char`
    have h₁ : Reachable { s with
        uart := { s.uart with writeBuffer := s.uart.writeBuffer.write c }
        phase := .moving c cs } := by
      refine h.step (e := .exec) ?_ ?_
      · intro c rest hm
        exact absurd (hp.symm.trans hm) (Phase.enqueue_ne_moving _ _ _)
      · rw [Console.step, hp]
        rfl
    have h₂ : Reachable { s with
        uart := { s.uart with writeBuffer := enqueueChar s.uart.writeBuffer c }
        phase := .enqueue cs
        enqueued := s.enqueued ++ [c] } := by
      refine h₁.step (e := .exec) ?_ rfl
      intro c rest _
      show s.uart.writeBuffer.count + 1 ≤ 63
      omega
    obtain ⟨taken, hinv⟩ := h.inv
    have hcount : (enqueueChar s.uart.writeBuffer c).count = s.uart.writeBuffer.count + 1 := by
      have hlt : s.uart.writeBuffer.count + 1 < s.uart.writeBuffer.size := by
        rw [hinv.size_eq]
        omega
      rw [enqueueChar_eq, ← RingBuffer.length_contents, hinv.ok.contents_push hlt,
        List.length_append, RingBuffer.length_contents, List.length_singleton]
    have h₃ := ih h₂ rfl (by show RingBuffer.count (enqueueChar _ c) + _ ≤ _; omega)
    rw [List.append_cons]
    exact h₃

/-- A call with no interrupt between its stores is one step. -/
theorem Reachable.call {s : Console} (h : Reachable s) (hidle : s.phase = .idle) (c : Call)
    (hroom : s.uart.writeBuffer.count + c.chars.length ≤ 63) :
    Reachable { s with uart := c.run s.uart, enqueued := s.enqueued ++ c.chars } := by
  have hcall : Reachable { s with phase := .enqueue c.chars } := by
    refine h.step (e := .call c) trivial ?_
    rw [Console.step, hidle]
  have hdone := hcall.finish rfl hroom
  cases c <;> exact hidle ▸ hdone

/-- The readings of a transmit interrupt with room for `n` characters in the transmitter. -/
def roomFor (n : ℕ) : Readings :=
  ⟨fun _ => (0b01 : UInt32) <<< 1, fun k => if k < n then 0x20 else 0, 0⟩

theorem roomFor_transmit (n : ℕ) : (roomFor n).Transmit := by
  show ¬ ((0b01 : UInt32) <<< 1 &&& (0b01 : UInt32) <<< 1 = 0)
  decide

/-- A string and a transmit interrupt behind the call. -/
theorem reachable_puts_irq (ier : UInt32) (str : List UInt8) (n : ℕ)
    (hroom : (Call.puts str).chars.length ≤ 63) :
    ∃ s, Reachable s ∧ Console.step
      { initConsole ier with
        uart := uartAsyncPuts (initConsole ier).uart str
        enqueued := (Call.puts str).chars } (.irq (roomFor n)) = some s := by
  have hcall := (Reachable.init ier).call rfl (.puts str) (by
    show 0 + _ ≤ 63
    omega)
  obtain ⟨s, hs⟩ := handler_returns hcall (Or.inl (roomFor_transmit n))
  exact ⟨s, hcall.step (e := .irq (roomFor n)) (Or.inl (roomFor_transmit n)) hs, hs⟩

/-! ## The output -/

/-- What was written to `AUX_MU_IO_REG` followed by what is in the buffer is what was enqueued, in
    this order, exactly if every look of the handler's loop at `AUX_MU_LSR_REG` found the
    transmitter ready. -/
theorem async_output_iff {s : Console} (h : Reachable s) :
    s.uart.io ++ s.uart.writeBuffer.contents = s.enqueued ↔ ∀ v ∈ s.statuses, v &&& 0x20 ≠ 0 := by
  obtain ⟨taken, hinv⟩ := h.inv
  rw [hinv.io_eq, hinv.enqueued_eq, hinv.statuses_eq, List.append_left_inj, written_eq_iff,
    List.forall_mem_map]
  exact forall₂_congr fun p _ => by simp [ready]

/-- `uart_async_puts("Hi")` and an interrupt with a ready transmitter. -/
theorem async_output_iff_hi : ∃ s, Reachable s ∧ s.enqueued = [72, 105] ∧
    (s.uart.io ++ s.uart.writeBuffer.contents = s.enqueued ↔ ∀ v ∈ s.statuses, v &&& 0x20 ≠ 0) := by
  obtain ⟨s, h, hs⟩ := reachable_puts_irq 1 [72, 105, 0] 8 (by decide)
  refine ⟨s, h, ?_, async_output_iff h⟩
  have hview : some s.enqueued = some [72, 105] := by
    rw [← Option.map_some (f := Console.enqueued), ← hs]
    decide
  exact Option.some.inj hview

/-- `uart_async_puts("123456789")` and an interrupt with room for eight: `9` is taken out of the
    buffer and not written out. -/
theorem async_output_lost : ∃ s, Reachable s ∧
    s.enqueued = [49, 50, 51, 52, 53, 54, 55, 56, 57] ∧
    s.uart.io = [49, 50, 51, 52, 53, 54, 55, 56] ∧ s.uart.writeBuffer.contents = [] ∧
    ¬ s.uart.io ++ s.uart.writeBuffer.contents = s.enqueued := by
  obtain ⟨s, h, hs⟩ := reachable_puts_irq 1 [49, 50, 51, 52, 53, 54, 55, 56, 57, 0] 8 (by decide)
  have hview : some (s.enqueued, s.uart.io, s.uart.writeBuffer.contents) =
      some ([49, 50, 51, 52, 53, 54, 55, 56, 57], [49, 50, 51, 52, 53, 54, 55, 56], []) := by
    rw [← Option.map_some (f := fun s : Console =>
      (s.enqueued, s.uart.io, s.uart.writeBuffer.contents)), ← hs]
    decide
  obtain ⟨henq, hio, hrest⟩ : s.enqueued = _ ∧ s.uart.io = _ ∧ s.uart.writeBuffer.contents = _ := by
    simpa using hview
  refine ⟨s, h, henq, hio, hrest, ?_⟩
  rw [henq, hio, hrest]
  decide

end RaspiKernel.Irq
