import RaspiKernel.Irq.CharQueue

/-!
# Asynchronous UART in both directions

The code outside of the handler calls `uart_async_send`, `uart_async_puts`, `uart_async_getc` and
`uart_async_gets` (`src/uart.c`, lines 190–221) in any order, and the handler comes between any two of
their loads and stores. The two buffers have one writer and one reader each, and these are never the
same code.

* `uart_async_gets` looks at the buffer again after each character, so that what the handler puts there
  in the meantime is part of its result.

Results:
* `async_duplex`: in every run in which no interrupt finds 63 characters unread, what the calls have
  read followed by what is in the buffer is what was received, and at the same time the output is
  complete exactly if the transmitter was ready whenever the handler looked.
* `gets_overrun`: one call of `uart_async_gets` stores any number of characters, with never more than
  one of them unread.
-/

namespace RaspiKernel.Irq

open Lib

/-! ## Model -/

/-- A call to the asynchronous input. `uart_async_gets` goes with the characters that it has stored. -/
inductive ReadCall where
  | getc
  | gets (buf : List UInt8)

/-- Where the reading code is. -/
inductive Reader where
  /-- In no call. -/
  | idle
  /-- Before `is_empty`. -/
  | testing (call : ReadCall)
  /-- Behind `is_empty`, which said that there is a character. -/
  | taking (call : ReadCall)
  /-- Between the load of `c` from the buffer and the store to `tail`. -/
  | moving (call : ReadCall) (c : UInt8)

/-- What a call comes back with. -/
inductive Answer where
  /-- `uart_async_getc` returns 0 because there is nothing to read. -/
  | empty
  | char (c : UInt8)
  /-- `uart_async_gets` returns the length of `buf`. -/
  | string (buf : List UInt8)

def Answer.chars : Answer → List UInt8
  | .empty => []
  | .char c => [c]
  | .string buf => buf

def ReadCall.buf : ReadCall → List UInt8
  | .getc => []
  | .gets buf => buf

/-- The buffer has been found empty. -/
def ReadCall.atEnd : ReadCall → Answer
  | .getc => .empty
  | .gets buf => .string buf

/-- What the call in progress has stored. -/
def Reader.buf : Reader → List UInt8
  | .idle => []
  | .testing call => call.buf
  | .taking call => call.buf
  | .moving call _ => call.buf

/-- The output side, the reading code, what the handler has received and what has come back. -/
structure Terminal where
  console : Console
  reader : Reader
  received : List UInt8
  answers : List Answer

def Terminal.readBuffer (t : Terminal) : Queue := t.console.uart.readBuffer

def Terminal.setReadBuffer (t : Terminal) (q : Queue) : Terminal :=
  { t with console := { t.console with uart := { t.console.uart with readBuffer := q } } }

/-- What has been read, with what the call in progress has. -/
def Terminal.read (t : Terminal) : List UInt8 := t.answers.flatMap Answer.chars ++ t.reader.buf

/-- The character that the handler receives, if it receives one. -/
def Readings.received (r : Readings) : List UInt8 :=
  if r.Transmit then []
  else if r.Receive ∧ r.lsr 0 &&& 0x1 ≠ 0 then [if r.io.toUInt8 = 13 then 10 else r.io.toUInt8] else []

inductive TerminalEvent where
  /-- A call to the output begins, and goes on to its next store. -/
  | call (c : Call)
  | exec
  /-- A call to the input begins, and goes on to its next load or store. -/
  | read (call : ReadCall)
  | fetch
  | irq (r : Readings)

/-- The next load or store of the reading code. -/
def Terminal.fetch (t : Terminal) : Option Terminal :=
  match t.reader with
  | .idle => none
  | .testing call =>
    if isEmpty t.readBuffer then some { t with reader := .idle, answers := t.answers ++ [call.atEnd] }
    else some { t with reader := .taking call }
  | .taking call => some { t with reader := .moving call (t.readBuffer.buffer t.readBuffer.tail) }
  | .moving call c =>
    let t := t.setReadBuffer t.readBuffer.release
    match call with
    | .getc => some { t with reader := .idle, answers := t.answers ++ [.char c] }
    | .gets buf => some { t with reader := .testing (.gets (buf ++ [c])) }

/-- One event. -/
def Terminal.step (t : Terminal) : TerminalEvent → Option Terminal
  | .call c => match t.reader with
    | .idle => (t.console.step (.call c)).map fun s => { t with console := s }
    | _ => none
  | .exec => (t.console.step .exec).map fun s => { t with console := s }
  | .read call => match t.reader, t.console.phase, call with
    | .idle, .idle, .getc => some { t with reader := .testing .getc }
    | .idle, .idle, .gets [] => some { t with reader := .testing (.gets []) }
    | _, _, _ => none
  | .fetch => t.fetch
  | .irq r => (t.console.step (.irq r)).map fun s =>
      { t with console := s, received := t.received ++ r.received }

/-- At most 63 characters are outstanding in each direction, and an interrupt is a transmit or a receive
    interrupt. -/
def TerminalEvent.Allowed (t : Terminal) : TerminalEvent → Prop
  | .exec => Event.exec.Allowed t.console
  | .irq r => (Event.irq r).Allowed t.console ∧ t.readBuffer.count + r.received.length ≤ 63
  | _ => True

def initTerminal (ier : UInt32) : Terminal := ⟨initConsole ier, .idle, [], []⟩

/-- Every order of calls, of their loads and stores and of interrupts. -/
inductive ReachableTerminal : Terminal → Prop where
  | init (ier : UInt32) : ReachableTerminal (initTerminal ier)
  | step {t t' : Terminal} (ht : ReachableTerminal t) {e : TerminalEvent} (he : e.Allowed t)
      (h : t.step e = some t') : ReachableTerminal t'

/-! ## The handler -/

theorem transmitLoop_readBuffer {lsr : ℕ → UInt32} {fuel k : ℕ} {u u' : Uart}
    (h : transmitLoop lsr fuel k u = some u') : u'.readBuffer = u.readBuffer := by
  induction fuel generalizing k u with
  | zero => cases h
  | succ fuel ih =>
    rw [transmitLoop] at h
    by_cases he : isEmpty u.writeBuffer
    · rw [if_pos he] at h
      rw [Option.some.inj h]
    · rw [if_neg he, transmitLoop_round] at h
      have hrest := ih h
      exact hrest

/-- The handler enqueues what it receives. -/
theorem handler_readBuffer {fuel : ℕ} {r : Readings} {u u' : Uart} (hr : r.Transmit ∨ r.Receive)
    (h : uartInterruptHandler fuel r u = some u') :
    u'.readBuffer = r.received.foldl enqueueChar u.readBuffer := by
  unfold uartInterruptHandler at h
  by_cases ht : r.Transmit
  · rw [if_pos ht] at h
    obtain ⟨v, hv, hu'⟩ := Option.bind_eq_some_iff.mp h
    have hbuf : u'.readBuffer = v.readBuffer := by rw [← Option.some.inj hu']
    rw [hbuf, transmitLoop_readBuffer hv, Readings.received, if_pos ht]
    rfl
  · have hrecv := hr.resolve_left ht
    rw [if_neg ht, if_pos hrecv] at h
    rw [← Option.some.inj h, Readings.received, if_neg ht]
    unfold receive
    by_cases hdata : r.lsr 0 &&& 0x1 ≠ 0
    · rw [if_pos hdata, if_pos ⟨hrecv, hdata⟩]
      rfl
    · rw [if_neg hdata, if_neg fun h => hdata h.2]
      rfl

/-! ## The reading code -/

/-- What the handler has done to the buffer, as seen by the reading code. -/
structure Fed (q q' : Queue) (cs : List UInt8) : Prop where
  ok : q'.Ok
  size_eq : q'.size = q.size
  contents_eq : q'.contents = q.contents ++ cs
  not_empty : ¬isEmpty q → ¬isEmpty q' ∧ q'.buffer q'.tail = q.buffer q.tail

theorem fed_enqueue {q : Queue} (h : q.Ok) (c : UInt8) (hroom : q.count + 1 < q.size) :
    Fed q (enqueueChar q c) [c] := by
  have hw : (q.write c).Ok := ⟨h.head_lt, h.tail_lt⟩
  refine ⟨hw.advance, rfl, h.contents_push hroom c, fun hne => ⟨?_, ?_⟩⟩
  · have hcount : (enqueueChar q c).count = q.count + 1 := hw.count_advance hroom
    intro he
    have := (show (enqueueChar q c).Ok from hw.advance).count_eq_zero.mpr he
    omega
  · exact Function.update_of_ne (fun h => hne h.symm) _ _

theorem fed_handler {q : Queue} (h : q.Ok) (r : Readings)
    (hroom : q.count + r.received.length < q.size) : Fed q (r.received.foldl enqueueChar q) r.received := by
  unfold Readings.received at hroom ⊢
  split_ifs at hroom ⊢
  · exact ⟨h, rfl, (List.append_nil _).symm, fun hne => ⟨hne, rfl⟩⟩
  · exact fed_enqueue h _ hroom
  · exact fed_enqueue h _ hroom
  · exact ⟨h, rfl, (List.append_nil _).symm, fun hne => ⟨hne, rfl⟩⟩

/-- What holds between two events of the input. -/
structure Terminal.Reads (t : Terminal) : Prop where
  ok : t.readBuffer.Ok
  size_eq : t.readBuffer.size = 64
  received_eq : t.received = t.read ++ t.readBuffer.contents
  taking : ∀ call, t.reader = .taking call → ¬isEmpty t.readBuffer
  moving : ∀ call c, t.reader = .moving call c →
    ¬isEmpty t.readBuffer ∧ t.readBuffer.buffer t.readBuffer.tail = c

theorem initTerminal_reads (ier : UInt32) : (initTerminal ier).Reads where
  ok := ⟨show 0 < 64 by decide, show 0 < 64 by decide⟩
  size_eq := rfl
  received_eq := rfl
  taking := by
    intro call h
    cases h
  moving := by
    intro call c h
    cases h

/-- The reading code takes what it has seen, and the interrupts in between are behind it. -/
theorem Terminal.Reads.fetch {t t' : Terminal} (h : t.Reads) (ht : t.fetch = some t') :
    t'.Reads := by
  unfold Terminal.fetch at ht
  cases hr : t.reader with
  | idle =>
    rw [hr] at ht
    cases ht
  | testing call =>
    simp only [hr] at ht
    split_ifs at ht with hempty
    · obtain rfl := Option.some.inj ht
      refine ⟨h.ok, h.size_eq, ?_, by simp, by simp⟩
      show t.received = _ ++ t.readBuffer.contents
      rw [h.received_eq, Terminal.read, Terminal.read, hr]
      cases call <;> simp [Reader.buf, ReadCall.buf, ReadCall.atEnd, Answer.chars]
    · obtain rfl := Option.some.inj ht
      refine ⟨h.ok, h.size_eq, ?_, fun _ _ => hempty, by simp⟩
      rw [h.received_eq, Terminal.read, Terminal.read, hr]
      rfl
  | taking call =>
    simp only [hr] at ht
    obtain rfl := Option.some.inj ht
    have hne := h.taking call hr
    refine ⟨h.ok, h.size_eq, ?_, by simp, ?_⟩
    · rw [h.received_eq, Terminal.read, Terminal.read, hr]
      rfl
    · intro call' c hm
      obtain ⟨-, rfl⟩ := Reader.moving.inj hm
      exact ⟨hne, rfl⟩
  | moving call c =>
    obtain ⟨hne, hc⟩ := h.moving call c hr
    have hcons := h.ok.contents_eq_cons hne
    rw [hc] at hcons
    simp only [hr] at ht
    cases call with
    | getc =>
      obtain rfl := Option.some.inj ht
      refine ⟨h.ok.release, h.size_eq, ?_, by simp, by simp⟩
      show t.received = _ ++ t.readBuffer.release.contents
      rw [h.received_eq, hcons, Terminal.read, Terminal.read, hr]
      simp [Terminal.setReadBuffer, Reader.buf, ReadCall.buf, Answer.chars]
    | gets buf =>
      obtain rfl := Option.some.inj ht
      refine ⟨h.ok.release, h.size_eq, ?_, by simp, by simp⟩
      show t.received = _ ++ t.readBuffer.release.contents
      rw [h.received_eq, hcons, Terminal.read, Terminal.read, hr]
      simp [Terminal.setReadBuffer, Reader.buf, ReadCall.buf]

/-- What has been read is not changed by an interrupt, and what it receives comes behind. -/
theorem Terminal.Reads.irq {t : Terminal} (h : t.Reads) {r : Readings} {s : Console}
    (hr : r.Transmit ∨ r.Receive) (hroom : t.readBuffer.count + r.received.length ≤ 63)
    (hs : t.console.step (.irq r) = some s) :
    Terminal.Reads { t with console := s, received := t.received ++ r.received } := by
  obtain ⟨u, hu, hs⟩ := Option.bind_eq_some_iff.mp hs
  obtain rfl := Option.some.inj hs
  have hfed : Fed t.readBuffer u.readBuffer r.received := by
    rw [handler_readBuffer hr hu]
    refine fed_handler h.ok r ?_
    rw [h.size_eq]
    omega
  refine ⟨hfed.ok, hfed.size_eq.trans h.size_eq, ?_, ?_, ?_⟩
  · show t.received ++ r.received = t.read ++ u.readBuffer.contents
    rw [hfed.contents_eq, h.received_eq, List.append_assoc]
  · intro call hc
    exact (hfed.not_empty (h.taking call hc)).1
  · intro call c hc
    obtain ⟨hne, hbuf⟩ := h.moving call c hc
    obtain ⟨hne', hbuf'⟩ := hfed.not_empty hne
    exact ⟨hne', hbuf'.trans hbuf⟩

/-- The output leaves the input alone. -/
theorem Terminal.Reads.console {t : Terminal} (h : t.Reads) {s : Console}
    (hs : s.uart.readBuffer = t.console.uart.readBuffer) : Terminal.Reads { t with console := s } := by
  have hq : Terminal.readBuffer { t with console := s } = t.readBuffer := hs
  exact ⟨hq ▸ h.ok, hq ▸ h.size_eq, hq ▸ h.received_eq, hq ▸ h.taking, hq ▸ h.moving⟩

/-! ## Runs -/

/-- The calls to the output do not touch the other buffer. -/
theorem call_readBuffer {s s' : Console} {c : Call} (h : s.step (.call c) = some s') :
    s'.uart.readBuffer = s.uart.readBuffer := by
  cases hp : s.phase with
  | idle =>
    rw [Console.step, hp] at h
    obtain rfl := Option.some.inj h
    rfl
  | _ => simp [Console.step, hp] at h

theorem exec_readBuffer {s s' : Console} (h : s.step .exec = some s') :
    s'.uart.readBuffer = s.uart.readBuffer := by
  cases hp : s.phase with
  | idle => simp [Console.step, hp] at h
  | _ =>
    rw [Console.step, hp] at h
    obtain rfl := Option.some.inj h
    rfl

/-- The reading code does not touch what the output depends on. -/
theorem fetch_console {t t' : Terminal} (h : t.fetch = some t') :
    ∃ q, t'.console = { t.console with uart := { t.console.uart with readBuffer := q } } := by
  unfold Terminal.fetch at h
  cases hr : t.reader with
  | idle =>
    rw [hr] at h
    cases h
  | testing call =>
    simp only [hr] at h
    split_ifs at h
    · obtain rfl := Option.some.inj h
      exact ⟨t.readBuffer, rfl⟩
    · obtain rfl := Option.some.inj h
      exact ⟨t.readBuffer, rfl⟩
  | taking call =>
    simp only [hr] at h
    obtain rfl := Option.some.inj h
    exact ⟨t.readBuffer, rfl⟩
  | moving call c =>
    simp only [hr] at h
    cases call with
    | getc =>
      obtain rfl := Option.some.inj h
      exact ⟨t.readBuffer.release, rfl⟩
    | gets buf =>
      obtain rfl := Option.some.inj h
      exact ⟨t.readBuffer.release, rfl⟩

theorem Console.Inv.setReadBuffer {s : Console} {taken : List (UInt8 × UInt32)} (h : s.Inv taken) (q : Queue) :
    Console.Inv { s with uart := { s.uart with readBuffer := q } } taken :=
  ⟨h.ok, h.size_eq, h.staged, h.enqueued_eq, h.io_eq, h.statuses_eq⟩

theorem Console.Inv.call {s s' : Console} {taken : List (UInt8 × UInt32)} {c : Call} (h : s.Inv taken)
    (hs : s.step (.call c) = some s') : s'.Inv taken := by
  cases hp : s.phase with
  | idle =>
    rw [Console.step, hp] at hs
    obtain rfl := Option.some.inj hs
    refine ⟨h.ok, h.size_eq, ?_, h.enqueued_eq, h.io_eq, h.statuses_eq⟩
    intro c' rest hm
    exact absurd hm (Phase.enqueue_ne_moving _ _ _)
  | _ => simp [Console.step, hp] at hs

/-- Both directions keep what holds of them. -/
theorem ReachableTerminal.inv {t : Terminal} (h : ReachableTerminal t) :
    t.Reads ∧ ∃ taken, t.console.Inv taken := by
  induction h with
  | init ier => exact ⟨initTerminal_reads ier, [], initConsole_inv ier⟩
  | @step t t' _ e he hstep ih =>
    obtain ⟨hreads, taken, hinv⟩ := ih
    cases e with
    | call c =>
      obtain ⟨s, hs, rfl⟩ : ∃ s, t.console.step (.call c) = some s ∧ { t with console := s } = t' := by
        simp only [Terminal.step] at hstep
        split at hstep
        · exact Option.map_eq_some_iff.mp hstep
        · cases hstep
      exact ⟨hreads.console (call_readBuffer hs), taken, hinv.call hs⟩
    | exec =>
      obtain ⟨s, hs, rfl⟩ := Option.map_eq_some_iff.mp hstep
      exact ⟨hreads.console (exec_readBuffer hs), taken, hinv.exec he hs⟩
    | read call =>
      have hidle : t.reader = .idle ∧ call.buf = [] ∧ t' = { t with reader := .testing call } := by
        simp only [Terminal.step] at hstep
        split at hstep
        · next hr _ => exact ⟨hr, rfl, (Option.some.inj hstep).symm⟩
        · next hr _ => exact ⟨hr, rfl, (Option.some.inj hstep).symm⟩
        · cases hstep
      obtain ⟨hr, hbuf, rfl⟩ := hidle
      refine ⟨⟨hreads.ok, hreads.size_eq, ?_, by simp, by simp⟩, taken, hinv⟩
      show t.received = _ ++ t.readBuffer.contents
      rw [hreads.received_eq, Terminal.read, Terminal.read, hr]
      show _ = _ ++ call.buf ++ _
      rw [hbuf]
      rfl
    | fetch =>
      obtain ⟨q, hq⟩ := fetch_console hstep
      exact ⟨hreads.fetch hstep, taken, hq ▸ hinv.setReadBuffer q⟩
    | irq r =>
      obtain ⟨s, hs, rfl⟩ := Option.map_eq_some_iff.mp hstep
      exact ⟨hreads.irq he.1 he.2 hs, _, hinv.irq he.1 hs⟩

/-- The readings of an interrupt that receives an `a`. -/
def letterA : Readings := ⟨fun _ => (0b10 : UInt32) <<< 1, fun _ => 1, 97⟩

theorem letterA_receive : letterA.Receive ∧ letterA.received = [97] := by
  have ht : ¬letterA.Transmit := by
    show ¬((0b10 : UInt32) <<< 1 &&& (0b01 : UInt32) <<< 1 ≠ 0)
    decide
  have hr : letterA.Receive := by
    show (0b10 : UInt32) <<< 1 &&& (0b10 : UInt32) <<< 1 ≠ 0
    decide
  refine ⟨hr, ?_⟩
  unfold Readings.received
  rw [if_neg ht, if_pos ⟨hr, by decide⟩]
  rfl

/-- The terminal when the interrupt has left `u` behind. -/
def Terminal.fed (t : Terminal) (u : Uart) : Terminal :=
  { t with
    console := { t.console with uart := u, statuses := t.console.statuses ++ letterA.statuses t.console.uart }
    received := t.received ++ [97] }

/-- The interrupt comes when nothing is unread. -/
theorem ReachableTerminal.receive {t : Terminal} (h : ReachableTerminal t) (hempty : isEmpty t.readBuffer) :
    ∃ u, ReachableTerminal (t.fed u) ∧ u.readBuffer.Ok ∧ u.readBuffer.contents = [97] := by
  obtain ⟨hreads, taken, hinv⟩ := h.inv
  obtain ⟨hrecv, hletter⟩ := letterA_receive
  obtain ⟨u, hu, -⟩ := handler_spec hinv.ok (.inr hrecv)
  have hcount : t.readBuffer.count = 0 := hreads.ok.count_eq_zero.mpr hempty
  have hfed : Fed t.readBuffer u.readBuffer letterA.received := by
    rw [handler_readBuffer (.inr hrecv) hu]
    refine fed_handler hreads.ok letterA ?_
    rw [hcount, hletter, hreads.size_eq]
    decide
  refine ⟨u, h.step (e := .irq letterA) ⟨.inr hrecv, ?_⟩ ?_, hfed.ok, ?_⟩
  · rw [hcount, hletter]
    decide
  · rw [Terminal.step, Console.step, hu, hletter]
    rfl
  · rw [hfed.contents_eq, hreads.ok.contents_eq_nil.mpr hempty, hletter]
    rfl

/-- In every interleaving of the calls in both directions and the interrupts, with at most 63 characters
    outstanding in each. What has been read followed by what is in `read_buffer` is what was received.
    What was written to `AUX_MU_IO_REG` followed by what is in `write_buffer` is what was enqueued
    exactly if every look of the handler's loop found the transmitter ready. -/
theorem async_duplex {t : Terminal} (h : ReachableTerminal t) :
    t.read ++ t.readBuffer.contents = t.received ∧
      (t.console.uart.io ++ t.console.uart.writeBuffer.contents = t.console.enqueued ↔
        ∀ v ∈ t.console.statuses, v &&& 0x20 ≠ 0) := by
  obtain ⟨hreads, taken, hinv⟩ := h.inv
  refine ⟨hreads.received_eq.symm, ?_⟩
  rw [hinv.io_eq, hinv.enqueued_eq, hinv.statuses_eq, List.append_left_inj, written_eq_iff,
    List.forall_mem_map]
  exact forall₂_congr fun p _ => by simp [ready]

/-- `uart_async_send('b')`, with an `a` that comes in between its two stores to the buffer, then a transmit
    interrupt and `uart_async_getc()`. -/
theorem async_duplex_letters : ∃ t : Terminal, t.read = [97] ∧ t.console.uart.io = [98] ∧
    t.console.enqueued = [98] ∧ t.received = [97] ∧ t.read ++ t.readBuffer.contents = t.received ∧
      (t.console.uart.io ++ t.console.uart.writeBuffer.contents = t.console.enqueued ↔
        ∀ v ∈ t.console.statuses, v &&& 0x20 ≠ 0) := by
  have h₁ := (ReachableTerminal.init 0).step (e := .call (.send 98)) trivial rfl
  have h₂ := h₁.step (e := .exec) (by intro c rest hm; cases hm) rfl
  have h₃ := h₂.step (e := .irq letterA) ⟨.inr letterA_receive.1, by decide⟩ rfl
  have h₄ := h₃.step (e := .exec) (by intro c rest _; decide) rfl
  have h₅ := h₄.step (e := .exec) (by intro c rest hm; cases hm) rfl
  have h₆ := h₅.step (e := .irq (roomFor 8)) ⟨.inl (roomFor_transmit 8), by decide⟩ rfl
  have h₇ := h₆.step (e := .read .getc) trivial rfl
  have h₈ := h₇.step (e := .fetch) trivial rfl
  have h₉ := h₈.step (e := .fetch) trivial rfl
  have h := h₉.step (e := .fetch) trivial rfl
  exact ⟨_, rfl, rfl, rfl, rfl, async_duplex h⟩

/-! ## `uart_async_gets` -/

/-- A character that comes in before the look at the buffer is stored as well. -/
theorem ReachableTerminal.feed {t : Terminal} (h : ReachableTerminal t) {buf : List UInt8}
    (hr : t.reader = .testing (.gets buf)) (hempty : isEmpty t.readBuffer) :
    ∃ t', ReachableTerminal t' ∧ t'.reader = .testing (.gets (buf ++ [97])) ∧ isEmpty t'.readBuffer := by
  obtain ⟨u, h₁, hok, hcontents⟩ := h.receive hempty
  have hne : ¬isEmpty u.readBuffer := by
    intro he
    rw [hok.contents_eq_nil.mpr he] at hcontents
    cases hcontents
  have hcons := hok.contents_eq_cons hne
  rw [hcontents] at hcons
  obtain ⟨hhead, hrest⟩ := List.cons.inj hcons
  have h₂ : ReachableTerminal { t.fed u with reader := .taking (.gets buf) } := by
    refine h₁.step (e := .fetch) trivial ?_
    have hreader : (t.fed u).reader = .testing (.gets buf) := hr
    simp only [Terminal.step, Terminal.fetch, hreader]
    exact if_neg hne
  have h₃ := h₂.step (e := .fetch) trivial rfl
  have h₄ := h₃.step (e := .fetch) trivial rfl
  refine ⟨_, h₄, ?_, ?_⟩
  · show Reader.testing (.gets (buf ++ [u.readBuffer.buffer u.readBuffer.tail])) = _
    rw [← hhead]
  · exact hok.release.contents_eq_nil.mp hrest.symm

/-- One call of `uart_async_gets` can store any number of characters to `buf`, although they come one by
    one and each is read before the next. -/
theorem gets_overrun (n : ℕ) : ∃ t, ReachableTerminal t ∧ isEmpty t.readBuffer ∧
    ∃ buf, t.reader = .testing (.gets buf) ∧ buf.length = n := by
  induction n with
  | zero =>
    exact ⟨_, (ReachableTerminal.init 0).step (e := .read (.gets [])) trivial rfl, rfl, [], rfl, rfl⟩
  | succ n ih =>
    obtain ⟨t, h, hempty, buf, hr, hlen⟩ := ih
    obtain ⟨t', h', hr', hempty'⟩ := h.feed hr hempty
    exact ⟨t', h', hempty', buf ++ [97], hr', by rw [List.length_append, hlen]; rfl⟩

end RaspiKernel.Irq
