import RaspiKernel.Fs.File
import RaspiKernel.Lib.Device

/-!
# SD card: driver and card

Model of `readblock` and `writeblock` of `src/sd.c` with what they call, on any device behind the
registers that they use, and of the card that they are written for.

* The driver writes a command, waits until the controller has taken it, and moves a block word by word.
  A wait gives up after 1000000 looks, and nobody looks at what it returns. If an error flag is up
  behind the last word, the driver clears it, stops the transfer and starts again.
* The card is a relation between what it was and what it is behind an access. Where the driver has no
  business it may do anything.
* The card may flag an error at any access but those to `SDHOST_DBG`: `writeblock` does not look for
  errors again when it has begun to wait for the end. A block that is being written is lost with it.
* `is_hcs` is a parameter.
-/

namespace RaspiKernel.Sd

open Lib Fs

abbrev Word := BitVec 32

/-! ## Driver -/

/-- The `SDHOST_` registers of a transfer. -/
inductive Reg where
  | cmd
  | arg
  | size
  | cnt
  | hsts
  | dbg
  | data
  deriving DecidableEq

/-- `READ_SINGLE_BLOCK | SDHOST_READ`. -/
def readSingleBlock : Word := 17 ||| 0x40

/-- `WRITE_SINGLE_BLOCK | SDHOST_WRITE`. -/
def writeSingleBlock : Word := 24 ||| 0x80

/-- `STOP_TRANSMISSION | SDHOST_BUSY`. -/
def stopTransmission : Word := 12 ||| 0x800

/-- `SDHOST_NEW_CMD`. -/
def newCmd : Word := 0x8000

/-- `SDHOST_HSTS_DATA`. -/
def hstsData : Word := 1

/-- `SDHOST_HSTS_ERR_MASK`. -/
def hstsErrMask : Word := 0xf8

/-- `SDHOST_DBG_FSM_MASK`. -/
def dbgFsmMask : Word := 0xf

/-- The first `cnt` of `wait_sd` and of `wait_fifo`. -/
def waitCnt : ℕ := 1000000

variable {σ α : Type} (d : Device Reg Word σ)

/-- A command that has been taken. -/
def taken (cmd : Word) : Bool := cmd &&& newCmd = 0

/-- `SDHOST_HSTS_DATA` is set. -/
def hasData (hsts : Word) : Bool := hsts &&& hstsData ≠ 0

/-- An error flag is set. -/
def hasError (hsts : Word) : Bool := hsts &&& hstsErrMask ≠ 0

/-- The end of `wait_finish`. -/
def finished (dbg : Word) : Bool := dbg &&& dbgFsmMask = hstsData

/-- `wait_sd` (lines 131–143), true for 0. -/
def waitSd (s : σ) : Bool × σ := d.poll .cmd taken waitCnt s

/-- `sd_cmd` (lines 145–150). -/
def sdCmd (cmd arg : Word) (s : σ) : Bool × σ := waitSd d (d.set .cmd (cmd ||| newCmd) (d.set .arg arg s))

/-- `wait_fifo` (lines 184–196), true for 0. -/
def waitFifo (s : σ) : Bool × σ := d.poll .hsts hasData waitCnt s

/-- `set_block` (lines 198–202). -/
def setBlock (size cnt : Word) (s : σ) : σ := d.set .cnt cnt (d.set .size size s)

/-- `wait_finish` (lines 204–210). It does not give up. -/
def waitFinish (fuel : ℕ) (s : σ) : Option σ :=
  let (found, s) := d.poll .dbg finished fuel s
  if found then some s else none

/-- The loop over the words of a block: `wait_fifo`, and one word moved. -/
def moveWords (move : ℕ → α → σ → α × σ) : ℕ → α → σ → α × σ
  | 0, a, s => (a, s)
  | n + 1, a, s =>
    let (a, s) := moveWords move n a s
    move n a (waitFifo d s).2

/-- One round of the `do … while (!succ)`, with the new `succ`. -/
def attempt (cmd arg : Word) (move : ℕ → α → σ → α × σ) (a : α) (s : σ) : Bool × α × σ :=
  let s := setBlock d 512 1 s
  let s := (sdCmd d cmd arg s).2
  let (a, s) := moveWords d move 128 a s
  let (hsts, s) := d.get .hsts s
  if hasError hsts then
    let s := d.set .hsts hstsErrMask s
    (false, a, (sdCmd d stopTransmission 0 s).2)
  else (true, a, s)

/-- The `do … while (!succ)`. -/
def attempts (cmd arg : Word) (move : ℕ → α → σ → α × σ) : ℕ → α → σ → Option (α × σ)
  | 0, _, _ => none
  | fuel + 1, a, s =>
    let (succ, a, s) := attempt d cmd arg move a s
    if succ then some (a, s) else attempts cmd arg move fuel a s

/-- What `readblock` and `writeblock` have in common. -/
def transferBlock (isHcs : Bool) (fuel : ℕ) (cmd blockIdx : Word) (move : ℕ → α → σ → α × σ) (a : α)
    (s : σ) : Option (α × σ) := do
  let arg := if isHcs then blockIdx else blockIdx <<< 9
  let (a, s) ← attempts d cmd arg move fuel a s
  let s ← waitFinish d fuel s
  return (a, s)

/-- `get(SDHOST_DATA, buf_u[i])`. -/
def getWord (i : ℕ) (buf : Mem) (s : σ) : Mem × σ :=
  let (v, s) := d.get .data s
  (store buf (4 * i) v.toNat 4, s)

/-- `set(SDHOST_DATA, buf_u[i])`. -/
def setWord (i : ℕ) (buf : Mem) (s : σ) : Mem × σ :=
  (buf, d.set .data (BitVec.ofNat 32 (load buf (4 * i) 4)) s)

/-- `readblock` (lines 251–275): the buffer. -/
def readblock (isHcs : Bool) (fuel : ℕ) (blockIdx : Word) (buf : Mem) (s : σ) : Option (Mem × σ) :=
  transferBlock d isHcs fuel readSingleBlock blockIdx (getWord d) buf s

/-- `writeblock` (lines 277–301), with the buffer that it leaves as it is. -/
def writeblock (isHcs : Bool) (fuel : ℕ) (blockIdx : Word) (buf : Mem) (s : σ) : Option (Mem × σ) :=
  transferBlock d isHcs fuel writeSingleBlock blockIdx (setWord d) buf s

/-! ## Card -/

/-- What the card is doing: nothing, or a transfer with the number of the words that have been moved. -/
inductive Transfer where
  | none
  | read (block i : ℕ)
  | write (block : ℕ) (staged : Mem) (i : ℕ)

/-- Words are outstanding. -/
def Transfer.Open : Transfer → Prop
  | .none => False
  | .read _ i => i < 128
  | .write _ _ i => i < 128

/-- The block that may be lost with an error. -/
def Transfer.Writes : Transfer → ℕ → Prop
  | .write block _ _, b => b = block
  | _, _ => False

/-- The card and its controller. `ready` says that the FIFO has been seen ready since the last word, and
    `faults` is the number of errors still to come. -/
structure Card where
  disk : Disk
  arg : Word
  size : Word
  cnt : Word
  transfer : Transfer
  busy : Bool
  ready : Bool
  err : Bool
  faults : ℕ

/-- The block at an argument, which is its number or the number of its first byte. -/
def blockOf (isHcs : Bool) (arg : Word) : ℕ := if isHcs then arg.toNat else arg.toNat / blockSize

/-- One more word has been written. The block is stored with the last one. -/
def Card.push (c : Card) (block : ℕ) (staged : Mem) (i : ℕ) (v : Word) : Card :=
  let staged := store staged (4 * i) v.toNat 4
  { c with
    transfer := .write block staged (i + 1)
    disk := if i = 127 then Function.update c.disk block staged else c.disk
    ready := false }

/-- An error may come up at an access. -/
inductive Fault (r : Reg) (c : Card) : Card → Prop
  | none : Fault r c c
  | raise {disk : Disk} {n : ℕ} (hr : r ≠ .dbg) (faults : c.faults = n + 1)
      (lost : ∀ b x, disk b x ≠ c.disk b x → c.transfer.Writes b ∧ x < blockSize) :
      Fault r c { c with disk := disk, err := true, faults := n }

/-- What a load may give, and what it leaves. -/
def Card.Loads (c : Card) : Reg → Word → Card → Prop
  | .cmd, v, c' => c' = if taken v then { c with busy := false } else c
  | .hsts, v, c' => hasError v = c.err ∧ c' = { c with ready := hasData v }
  | .dbg, v, c' => c' = if finished v then { c with transfer := .none } else c
  | .data, v, c' =>
    (c.err → c' = c) ∧ ∀ b i, c.err = false → c.ready → c.transfer = .read b i → i < 128 →
      v.toNat = load (c.disk b) (4 * i) 4 ∧ c' = { c with transfer := .read b (i + 1), ready := false }
  | _, _, _ => True

/-- What a store leaves. -/
def Card.Stores (isHcs : Bool) (c : Card) : Reg → Word → Card → Prop
  | .arg, v, c' => c' = { c with arg := v }
  | .size, v, c' => c' = { c with size := v }
  | .cnt, v, c' => c' = { c with cnt := v }
  | .hsts, v, c' => v = hstsErrMask → c' = { c with err := false }
  | .cmd, v, c' => c.busy = false →
    (v = stopTransmission ||| newCmd → c' = { c with transfer := .none, busy := true, ready := false }) ∧
    (c.transfer = .none → c.size = 512 → c.cnt = 1 →
      (v = readSingleBlock ||| newCmd →
        c' = { c with transfer := .read (blockOf isHcs c.arg) 0, busy := true, ready := false }) ∧
      (v = writeSingleBlock ||| newCmd →
        c' = { c with
          transfer := .write (blockOf isHcs c.arg) (c.disk (blockOf isHcs c.arg)) 0
          busy := true
          ready := false }))
  | .data, v, c' =>
    (c.err → c' = c) ∧ ∀ b m i, c.err = false → c.ready → c.transfer = .write b m i → i < 128 →
      c' = c.push b m i v
  | _, _, _ => True

/-- The device is such a card, and no wait of the driver is too short for it. A FIFO that is never ready
    comes with an error. -/
structure Serves (isHcs : Bool) (view : σ → Card) : Prop where
  get : ∀ r s, ∃ c, Fault r (view s) c ∧ c.Loads r (d.value r s) (view (d.look r s))
  set : ∀ r v s, ∃ c, Fault r (view s) c ∧ c.Stores isHcs r v (view (d.set r v s))
  accepts : ∀ s, ∃ k < waitCnt, taken (d.value .cmd ((d.look .cmd)^[k] s))
  delivers : ∀ s, (view s).busy = false → (view s).transfer.Open → ∃ k < waitCnt,
    hasData (d.value .hsts ((d.look .hsts)^[k] s)) ∨ (view ((d.look .hsts)^[k] s)).err
  finishes : ∀ s, ¬ (view s).transfer.Open → ∃ k, finished (d.value .dbg ((d.look .dbg)^[k] s))

/-- Nothing is going on. An error flag may be up. -/
structure Card.Idle (c : Card) : Prop where
  transfer : c.transfer = .none
  busy : c.busy = false

end RaspiKernel.Sd
