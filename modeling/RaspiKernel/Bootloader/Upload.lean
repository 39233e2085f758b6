import RaspiKernel.Boot.Str

/-!
# Uploading an image

Model of what `sendimg.py` writes to the serial line, and of `load_img` and the
functions around it in `bootloader/src`. The line delivers the bytes that were
written, in their order; a byte that is read is gone.

* `char` is unsigned, as on AArch64. `img_size` is the bit pattern of the `int`.
* The image file does not change between `os.stat` and `read`.
* What `receiveMsg` shows of the answers is not read by the program.

Results:
* `sizeLoop_eq`: the length that `load_img` puts together.
* `chunks_eq`: the chunks are the image.
* `loadImg_sendImage`: `load_img` on what `sendimg.py` sends behind the command line.
* `mainRound_sendimg`: the whole upload, from the prompt to the jump.
-/

namespace RaspiKernel.Bootloader

open Lib

/-! ## `sendimg.py` -/

/-- `n.to_bytes(length, byteorder="big")` of an `n` that fits. -/
def bigEndian (n : ℕ) : ℕ → List UInt8
  | 0 => []
  | length + 1 => UInt8.ofNat (n / 256 ^ length) :: bigEndian n length

/-- `n.to_bytes(length, byteorder="big")`, which raises an `OverflowError` if `n` does not fit. -/
def toBytes (n length : ℕ) : Option (List UInt8) :=
  if n < 256 ^ length then some (bigEndian n length) else none

/-- `bytecodes[start: stop]`. -/
def slice (bytecodes : List UInt8) (start stop : ℕ) : List UInt8 := (bytecodes.take stop).drop start

/-- `per_chunk`. -/
abbrev perChunk : ℕ := 64

/-- `chunk_count` (lines 70 and 71). -/
def chunkCount (fileSize : ℕ) : ℕ :=
  let count := fileSize / perChunk
  if fileSize % perChunk ≠ 0 then count + 1 else count

/-- What the loop of `main` writes (lines 73–79). -/
def chunks (bytecodes : List UInt8) : List UInt8 :=
  (List.range (chunkCount bytecodes.length)).flatMap fun i =>
    slice bytecodes (i * perChunk) ((i + 1) * perChunk)

/-- What `main` writes behind the command line (lines 61–79). -/
def sendImage (bytecodes : List UInt8) : Option (List UInt8) :=
  (toBytes bytecodes.length 4).map (· ++ chunks bytecodes)

/-- `"loadimg\n"`. -/
def loadimgLine : List UInt8 := "loadimg\n".toList.map fun c => UInt8.ofNat c.toNat

/-- All that `main` writes (lines 54–79). -/
def sendimg (bytecodes : List UInt8) : Option (List UInt8) :=
  (sendImage bytecodes).map (loadimgLine ++ ·)

/-! ## `load_img` -/

/-- A string literal. -/
def ofString (s : String) : List UInt8 := s.toList.map fun c => UInt8.ofNat c.toNat

/-- `uart_getb` (`bootloader/src/uart.c`, lines 109–120). With nothing on the line it waits. -/
def uartGetb : List UInt8 → Option (UInt8 × List UInt8)
  | [] => none
  | r :: line => some (r, line)

/-- What `uart_puts` (lines 125–133) sends. -/
def uartPuts (s : List UInt8) : List UInt8 := s.flatMap fun c => if c = 10 then [13, c] else [c]

/-- What `uart_hex` (lines 138–149) sends. -/
def uartHex (d : BitVec 32) : List UInt8 :=
  [28, 24, 20, 16, 12, 8, 4, 0].map fun c =>
    let n := ((d >>> c) &&& 0xF#32).toNat
    UInt8.ofNat (n + if n > 9 then 0x37 else 0x30)

/-- `kernel_address`. -/
abbrev kernelAddress : ℕ := 0x80000

/-- The loop that reads `img_size` (lines 46–49), with its remaining rounds. -/
def sizeLoop : ℕ → BitVec 32 → List UInt8 → Option (BitVec 32 × List UInt8)
  | 0, imgSize, line => some (imgSize, line)
  | rem + 1, imgSize, line => do
    let (c, line) ← uartGetb line
    sizeLoop rem (imgSize <<< 8 ||| c.toBitVec.setWidth 32) line

/-- The loop that reads the image (lines 56–59). The first argument is `img_size - i`. -/
def imageLoop : ℕ → ℕ → Mem → List UInt8 → Option (Mem × List UInt8)
  | 0, _, mem, line => some (mem, line)
  | rem + 1, i, mem, line => do
    let (c, line) ← uartGetb line
    imageLoop rem (i + 1) (Function.update mem (kernelAddress + i) c) line

/-- What `load_img` has read and sent when it jumps to the image. -/
structure Loaded where
  imgSize : BitVec 32
  mem : Mem
  line : List UInt8
  sent : List UInt8

/-- `load_img` (`bootloader/src/shell.c`, lines 40–64), up to the jump. -/
def loadImg (mem : Mem) (line : List UInt8) : Option Loaded := do
  let (imgSize, line) ← sizeLoop 4 0 line
  let sent := uartPuts (ofString "img_size: ") ++ uartHex imgSize ++ [10]
  let (mem, line) ← imageLoop imgSize.toInt.toNat 0 mem line
  some ⟨imgSize, mem, line, sent ++ uartPuts (ofString "Jump to image\n")⟩

/-! ## The command line -/

/-- `uart_getc` (lines 96–107). -/
def uartGetc : List UInt8 → Option (UInt8 × List UInt8)
  | [] => none
  | r :: line => some (if r = 13 then 10 else r, line)

/-- `CMD_LEN`. -/
abbrev cmdLen : ℕ := 128

/-- `shell_input` (`bootloader/src/shell.c`, lines 12–22) into `cmd`, of which `idx` characters have been
    written: the array, what was sent, and the line. A write behind the array stops the model. -/
def shellInput : ℕ → Mem → List UInt8 → Option (Mem × List UInt8 × List UInt8)
  | _, _, [] => none
  | idx, cmd, r :: line =>
    let c := if r = 13 then 10 else r
    if c = 10 then some (cmd, [], line)
    else if idx + 1 < cmdLen then
      -- `cmd[idx++] = c` and `cmd[++end] = '\0'`, where `end` is `idx` before both
      (shellInput (idx + 1) (Function.update (Function.update cmd idx c) (idx + 1) 0) line).map
        fun (cmd, sent, line) => (cmd, c :: sent, line)
    else none

/-- How a round of the command loop ends, with what was sent before. -/
inductive Outcome where
  /-- Back at the prompt. -/
  | prompt (sent line : List UInt8)
  /-- The jump to `kernel_address`. -/
  | jump (sent : List UInt8) (loaded : Loaded)

/-- `shell_controller` (lines 24–38) on the string in `cmd`. -/
def shellController (cmd : List UInt8) (mem : Mem) (line : List UInt8) : Option Outcome :=
  if cmd = [] then some (.prompt [10] line)
  else if cmd = ofString "help" then
    some (.prompt (10 :: (uartPuts (ofString "help      : print this help menu\n") ++
      uartPuts (ofString "loadimg   : load image\n"))) line)
  else if cmd = ofString "loadimg" then (loadImg mem line).map (.jump [10])
  else some (.prompt (10 :: uartPuts (ofString "shell: command not found\n")) line)

/-- A round of the loop of `main` (`bootloader/src/main.c`, lines 35–40). The array `cmd` is not
    initialised. -/
def mainRound (cmd : Mem) (mem : Mem) (line : List UInt8) : Option Outcome := do
  let (cmd, echo, line) ← shellInput 0 cmd line
  let s ← Boot.readStr cmd cmdLen 0
  let sent := uartPuts (ofString "# ") ++ echo
  match ← shellController s mem line with
  | .prompt more line => some (.prompt (sent ++ more) line)
  | .jump more loaded => some (.jump (sent ++ more) loaded)

/-! ## The length -/

theorem uartGetb_cons (r : UInt8) (line : List UInt8) : uartGetb (r :: line) = some (r, line) := rfl

@[simp] theorem length_bigEndian (n length : ℕ) : (bigEndian n length).length = length := by
  induction length with
  | zero => rfl
  | succ length ih => rw [bigEndian, List.length_cons, ih]

/-- `img_size <<= 8; img_size |= c;` appends a digit. -/
theorem shift_or_toNat {v : BitVec 32} {c : UInt8} (h : v.toNat * 256 + 256 ≤ 2 ^ 32) :
    (v <<< 8 ||| c.toBitVec.setWidth 32).toNat = v.toNat * 256 + c.toNat := by
  have hc : c.toNat < 2 ^ 8 := c.toNat_lt
  have hc' : (c.toBitVec.setWidth 32).toNat = c.toNat := by
    rw [BitVec.toNat_setWidth]
    exact Nat.mod_eq_of_lt (by change c.toNat < _; omega)
  have hv : (v <<< 8).toNat = v.toNat <<< 8 := by
    rw [BitVec.toNat_shiftLeft, Nat.shiftLeft_eq]
    exact Nat.mod_eq_of_lt (by omega)
  rw [BitVec.toNat_or, hc', hv, ← Nat.shiftLeft_add_eq_or_of_lt hc, Nat.shiftLeft_eq]

/-- The digits of a number are read behind those that were read before. -/
theorem sizeLoop_eq (n : ℕ) (rest : List UInt8) {k : ℕ} {v : BitVec 32}
    (h : (v.toNat + 1) * 256 ^ k ≤ 2 ^ 32) :
    ∃ w, sizeLoop k v (bigEndian n k ++ rest) = some (w, rest) ∧
      w.toNat = v.toNat * 256 ^ k + n % 256 ^ k := by
  induction k generalizing v with
  | zero => exact ⟨v, rfl, by simp [Nat.mod_one]⟩
  | succ k ih =>
    have hpos : 0 < 256 ^ k := by positivity
    have hroom : v.toNat * 256 + 256 ≤ 2 ^ 32 := by
      calc v.toNat * 256 + 256 = (v.toNat + 1) * 256 * 1 := by ring
        _ ≤ (v.toNat + 1) * 256 * 256 ^ k := Nat.mul_le_mul_left _ hpos
        _ = (v.toNat + 1) * 256 ^ (k + 1) := by ring
        _ ≤ 2 ^ 32 := h
    have hdigit := shift_or_toNat (c := UInt8.ofNat (n / 256 ^ k)) hroom
    rw [UInt8.toNat_ofNat', show (2 : ℕ) ^ 8 = 256 by norm_num] at hdigit
    have hlt : n / 256 ^ k % 256 < 256 := Nat.mod_lt _ (by norm_num)
    have hnext : (v.toNat * 256 + n / 256 ^ k % 256 + 1) * 256 ^ k ≤ 2 ^ 32 := by
      calc (v.toNat * 256 + n / 256 ^ k % 256 + 1) * 256 ^ k
          ≤ (v.toNat * 256 + 256) * 256 ^ k := Nat.mul_le_mul_right _ (by omega)
        _ = (v.toNat + 1) * 256 ^ (k + 1) := by ring
        _ ≤ 2 ^ 32 := h
    obtain ⟨w, hw, hval⟩ := ih (v := v <<< 8 ||| (UInt8.ofNat (n / 256 ^ k)).toBitVec.setWidth 32)
      (by rw [hdigit]; exact hnext)
    refine ⟨w, hw, ?_⟩
    rw [hval, hdigit, Nat.mod_pow_succ]
    ring

/-! ## The chunks -/

/-- The first `k` chunks. -/
theorem flatMap_slice (bytecodes : List UInt8) (k : ℕ) :
    ((List.range k).flatMap fun i => slice bytecodes (i * perChunk) ((i + 1) * perChunk)) =
      bytecodes.take (k * perChunk) := by
  induction k with
  | zero => rw [Nat.zero_mul, List.take_zero]; rfl
  | succ k ih =>
    rw [List.range_succ, List.flatMap_append, ih, List.flatMap_singleton, slice]
    have hle : k * perChunk ≤ (k + 1) * perChunk := Nat.mul_le_mul_right _ (Nat.le_succ k)
    have htake : bytecodes.take (k * perChunk) =
        (bytecodes.take ((k + 1) * perChunk)).take (k * perChunk) := by
      rw [List.take_take, min_eq_left hle]
    rw [htake, List.take_append_drop]

/-- The chunks are the image, the last one possibly shorter. -/
theorem chunks_eq (bytecodes : List UInt8) : chunks bytecodes = bytecodes := by
  have hcount : bytecodes.length ≤ chunkCount bytecodes.length * perChunk := by
    unfold chunkCount perChunk
    dsimp only
    split_ifs <;> omega
  rw [chunks, flatMap_slice, List.take_of_length_le hcount]

/-! ## The image -/

/-- The image is stored where it belongs, and nothing else is read or written. -/
theorem imageLoop_eq (bytes rest : List UInt8) (i : ℕ) (mem : Mem) :
    imageLoop bytes.length i mem (bytes ++ rest) =
      some (copy mem (kernelAddress + i) (ofBytes bytes) bytes.length, rest) := by
  induction bytes generalizing i mem with
  | nil =>
    rw [List.length_nil, imageLoop]
    congr 2
    funext x
    rw [copy_of_not_mem (by omega)]
  | cons c bytes ih =>
    rw [List.length_cons, List.cons_append, imageLoop, uartGetb_cons]
    change imageLoop bytes.length (i + 1) _ (bytes ++ rest) = _
    rw [ih]
    congr 2
    funext x
    by_cases hx : kernelAddress + (i + 1) ≤ x ∧ x < kernelAddress + (i + 1) + bytes.length
    · rw [copy_of_mem hx, copy_of_mem (by omega)]
      rw [show x - (kernelAddress + i) = x - (kernelAddress + (i + 1)) + 1 by omega]
      rfl
    · rw [copy_of_not_mem hx]
      by_cases hfirst : x = kernelAddress + i
      · rw [hfirst, Function.update_self, copy_of_mem (by omega), Nat.sub_self]
        rfl
      · rw [Function.update_of_ne hfirst, copy_of_not_mem (by omega)]

theorem toInt_of_toNat {v : BitVec 32} {n : ℕ} (hv : v.toNat = n) (hn : n < 2 ^ 31) :
    v.toInt = n := by
  rw [BitVec.toInt_eq_toNat_of_lt (by omega), hv]

theorem sendImage_eq (image : List UInt8) (hlen : image.length < 2 ^ 31) :
    sendImage image = some (bigEndian image.length 4 ++ image) := by
  have hfits : image.length < 256 ^ 4 := by omega
  rw [sendImage, toBytes, if_pos hfits, Option.map_some, chunks_eq]

theorem loadImg_eq (image : List UInt8) (hlen : image.length < 2 ^ 31) (mem : Mem)
    (rest : List UInt8) :
    ∃ (imgSize : BitVec 32) (sent : List UInt8), imgSize.toInt = image.length ∧
      loadImg mem (bigEndian image.length 4 ++ (image ++ rest)) =
        some ⟨imgSize, copy mem kernelAddress (ofBytes image) image.length, rest, sent⟩ := by
  have hfits : image.length < 256 ^ 4 := by omega
  obtain ⟨w, hsize, hw⟩ := sizeLoop_eq image.length (image ++ rest) (k := 4) (v := 0) (by decide)
  rw [Nat.mod_eq_of_lt hfits, show (0 : BitVec 32).toNat = 0 from rfl, Nat.zero_mul, Nat.zero_add] at hw
  have hint := toInt_of_toNat hw hlen
  have himage := imageLoop_eq image rest 0 mem
  refine ⟨w, uartPuts (ofString "img_size: ") ++ uartHex w ++ [10] ++
    uartPuts (ofString "Jump to image\n"), hint, ?_⟩
  rw [loadImg, hsize]
  change (imageLoop w.toInt.toNat 0 mem (image ++ rest) >>= fun r => _) = _
  rw [hint, Int.toNat_natCast, himage]
  rfl

/-- What `load_img` makes of the bytes that `sendimg.py` sends behind the command line, whatever comes
    behind them: it reads the length of the image and as many bytes as were sent, and stores the image
    at `kernel_address`. -/
theorem loadImg_sendImage (image : List UInt8) (hlen : image.length < 2 ^ 31) (mem : Mem)
    (rest : List UInt8) :
    ∃ stream loaded, sendImage image = some stream ∧ stream.length = 4 + image.length ∧
      loadImg mem (stream ++ rest) = some loaded ∧ loaded.imgSize.toInt = image.length ∧
      loaded.line = rest ∧
      (∀ i (hi : i < image.length), loaded.mem (kernelAddress + i) = image.get ⟨i, hi⟩) ∧
      ∀ x, ¬ (kernelAddress ≤ x ∧ x < kernelAddress + image.length) → loaded.mem x = mem x := by
  obtain ⟨imgSize, sent, hint, hload⟩ := loadImg_eq image hlen mem rest
  rw [← List.append_assoc] at hload
  refine ⟨_, _, sendImage_eq image hlen, ?_, hload, hint, rfl, ?_, ?_⟩
  · rw [List.length_append, length_bigEndian]
  · intro i hi
    dsimp only
    rw [copy_of_mem (by omega), Nat.add_sub_cancel_left]
    simp [ofBytes, hi]
  · intro x hx
    exact copy_of_not_mem hx

/-- An image with the two bytes that `uart_getc` would confuse. -/
theorem loadImg_sendImage_crlf :
    ∃ stream loaded, sendImage [13, 10, 13] = some stream ∧ stream.length = 4 + 3 ∧
      loadImg (fun _ => 0) (stream ++ [65]) = some loaded ∧ loaded.imgSize.toInt = (3 : ℕ) ∧
      loaded.line = [65] ∧
      (∀ i (hi : i < 3), loaded.mem (kernelAddress + i) = [13, 10, 13].get ⟨i, hi⟩) ∧
      ∀ x, ¬ (kernelAddress ≤ x ∧ x < kernelAddress + 3) → loaded.mem x = 0 :=
  loadImg_sendImage [13, 10, 13] (by decide) (fun _ => 0) [65]

/-! ## From the prompt -/

theorem mainRound_loadimg (cmd mem : Mem) (line : List UInt8) :
    mainRound cmd mem (loadimgLine ++ line) =
      (loadImg mem line).map (.jump (uartPuts (ofString "# loadimg") ++ [10])) := by
  have hinput : ∃ cmd', shellInput 0 cmd (loadimgLine ++ line) =
        some (cmd', ofString "loadimg", line) ∧
      Boot.readStr cmd' cmdLen 0 = some (ofString "loadimg") := ⟨_, rfl, rfl⟩
  obtain ⟨cmd', hinput, hread⟩ := hinput
  rw [mainRound, hinput]
  change (Boot.readStr cmd' cmdLen 0 >>= fun s => _) = _
  rw [hread]
  change (shellController (ofString "loadimg") mem line >>= fun r => _) = _
  have hcmd : shellController (ofString "loadimg") mem line = (loadImg mem line).map (.jump [10]) := by
    rw [shellController, if_neg (by decide), if_neg (by decide), if_pos rfl]
  rw [hcmd]
  cases loadImg mem line <;> rfl

/-- The whole upload: what `sendimg.py` writes makes the boot loader jump to the image. -/
theorem mainRound_sendimg (image : List UInt8) (hlen : image.length < 2 ^ 31) (cmd mem : Mem)
    (rest : List UInt8) :
    ∃ stream sent imgSize sent', sendimg image = some stream ∧
      mainRound cmd mem (stream ++ rest) = some (.jump sent
        ⟨imgSize, copy mem kernelAddress (ofBytes image) image.length, rest, sent'⟩) := by
  obtain ⟨imgSize, sent', -, hload⟩ := loadImg_eq image hlen mem rest
  refine ⟨loadimgLine ++ (bigEndian image.length 4 ++ image),
    uartPuts (ofString "# loadimg") ++ [10], imgSize, sent', ?_, ?_⟩
  · rw [sendimg, sendImage_eq image hlen]
    rfl
  · rw [List.append_assoc, List.append_assoc, mainRound_loadimg, hload]
    rfl

end RaspiKernel.Bootloader
