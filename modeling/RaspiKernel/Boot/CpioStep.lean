import RaspiKernel.Boot.Initrd

/-!
# The step of the cpio loops

The loops of `src/initrd.c` go on by `ALIGN(sizeof(cpio_f) + ns, 4) + fs` bytes, with
`ns` and `fs` read from the header by `hex2bin`. Both are `int`s, which are negative
for eight digits from `80000000` on, and -1 for characters that are no digits, and
the sum is one of `unsigned long`s. Nothing here is assumed about the memory.

Results:
* `hex2bin_eq`: what `hex2bin` makes of any eight bytes.
* `next_gt_iff`: when a step goes forward.
* `loops_advance_iff`: the archives on which every step does, and the loops end.
-/

namespace RaspiKernel.Boot

open Lib
open Memblock (physToVirt)

variable {m : Mem} {base buf : ℕ}

/-! ## `hex2bin` of any bytes -/

/-- What `hex2bin` makes of a field: the value as an `int`, or -1. -/
def fieldInt (s : List UInt8) : ℤ := ((hexValue s 0).map fun (v : ℕ) => toInt v).getD (-1)

theorem bmod_shift (w : ℕ) (r d : ℤ) : ((r.bmod w * 16).bmod w + d).bmod w = (r * 16 + d).bmod w := by
  rw [Int.bmod_add_bmod, Int.add_bmod, Int.bmod_mul_bmod, ← Int.add_bmod]

theorem toInt_shift (r : ℤ) (d : ℕ) : toInt (toInt (toInt r * 16) + d) = toInt (r * 16 + d) := by
  simp only [toInt, bmod_shift]

theorem hex2binLoop_eq (n a r : ℕ) : hex2binLoop m n a (toInt r) =
    ((hexValue (bytes m a n) r).map fun (v : ℕ) => toInt v).getD (-1) := by
  induction n generalizing a r with
  | zero => rw [hex2binLoop, show bytes m a 0 = [] from rfl, hexValue, Option.map_some, Option.getD_some]
  | succ n ih =>
    have hbytes : bytes m a (n + 1) = m a :: bytes m (a + 1) n := by
      unfold bytes
      rw [List.range_succ_eq_map, List.map_cons, List.map_map]
      congr 1
      refine List.map_congr_left fun i _ => ?_
      rw [Function.comp_apply, Nat.succ_eq_add_one, add_assoc, add_comm 1]
    rw [hex2binLoop, hbytes, hexValue]
    cases hexDigit (m a) with
    | none => rfl
    | some d =>
      show hex2binLoop m n (a + 1) (toInt (toInt (toInt r * 16) + d)) = _
      rw [toInt_shift, show (r : ℤ) * 16 + d = ((r * 16 + d : ℕ) : ℤ) by push_cast; ring]
      exact ih (a + 1) (r * 16 + d)

theorem hex2bin_eq (m : Mem) (a n : ℕ) : hex2bin m a n = fieldInt (bytes m a n) := by
  have h := hex2binLoop_eq (m := m) n a 0
  rwa [show toInt (0 : ℕ) = 0 from by decide] at h

/-! ## One step -/

/-- The fields `namesize` and `filesize` of the header at `buf`. -/
def namesizeField (m : Mem) (buf : ℕ) : List UInt8 := bytes m (buf + 94) 8

def filesizeField (m : Mem) (buf : ℕ) : List UInt8 := bytes m (buf + 54) 8

/-- The header, the name and the data, each padded, by the sizes in the fields. -/
def stepOf (namesize filesize : List UInt8) : ℤ :=
  (sizeofCpio + fieldInt namesize + 3) / 4 * 4 + toInt (fieldInt filesize + 3) / 4 * 4

/-- The sizes of a header are not negative in sum, and lead to an address. -/
def StepForward (m : Mem) (buf : ℕ) : Prop :=
  0 < stepOf (namesizeField m buf) (filesizeField m buf) ∧
    buf + stepOf (namesizeField m buf) (filesizeField m buf) < 2 ^ 64

theorem toInt_range (x : ℤ) : -2 ^ 31 ≤ toInt x ∧ toInt x < 2 ^ 31 := by
  have hlt := Int.bmod_lt (x := x) (m := 2 ^ 32) (by norm_num)
  have hle := Int.le_bmod (x := x) (m := 2 ^ 32) (by norm_num)
  unfold toInt
  omega

theorem fieldInt_range (s : List UInt8) : -2 ^ 31 ≤ fieldInt s ∧ fieldInt s < 2 ^ 31 := by
  unfold fieldInt
  cases hexValue s 0 with
  | none => norm_num
  | some v =>
    rw [Option.map_some, Option.getD_some]
    exact toInt_range v

/-- The pointer after a round. -/
theorem next_eq (m : Mem) (buf : ℕ) : ((readRound m buf).next : ℤ) =
    (buf + stepOf (namesizeField m buf) (filesizeField m buf)) % 2 ^ 64 := by
  have hns := fieldInt_range (namesizeField m buf)
  unfold Round.next ptrAdd readRound stepOf alignUlong alignInt
  rw [hex2bin_eq, hex2bin_eq]
  unfold namesizeField filesizeField at *
  dsimp only
  omega

/-- From an address that is large enough for a step backwards, a step goes forward exactly if the sum of
    the sizes is positive and the address does not wrap around. -/
theorem next_gt_iff (hlow : 2 ^ 33 ≤ buf) (hbuf : buf < 2 ^ 64) :
    buf < (readRound m buf).next ↔ StepForward m buf := by
  have hns := fieldInt_range (namesizeField m buf)
  have hfs := toInt_range (fieldInt (filesizeField m buf) + 3)
  have hnext := next_eq m buf
  unfold StepForward
  have hstep : -2 ^ 33 < stepOf (namesizeField m buf) (filesizeField m buf) ∧
      stepOf (namesizeField m buf) (filesizeField m buf) < 2 ^ 33 := by
    unfold stepOf sizeofCpio
    omega
  omega

/-! ## The loops -/

/-- The values that `buf` has at the start of a round, as long as the loop goes on. -/
inductive Reached (m : Mem) (goesOn : ℕ → Prop) (base : ℕ) : ℕ → Prop
  | start : Reached m goesOn base base
  | next {buf : ℕ} (h : Reached m goesOn base buf) (hon : goesOn buf) :
      Reached m goesOn base (readRound m buf).next

/-- `initrd_reserve_memory` looks at the magic number before its loop only. -/
def ReserveGoesOn (m : Mem) (base buf : ℕ) : Prop :=
  memcmp m base cpioMagic = 0 ∧ memcmp m (buf + sizeofCpio) cpioTrailer ≠ 0

/-- `_initrd_usr_prog` goes on at an entry with another name. -/
def SearchGoesOn (m : Mem) (cmd : List UInt8) (buf : ℕ) : Prop :=
  AtEntry m buf ∧ strcmp m cmd (readRound m buf).name ≠ 0

/-- A loop with the given condition moves `buf` forward in every round. -/
def LoopAdvances (m : Mem) (goesOn : ℕ → Prop) (base : ℕ) : Prop :=
  ∀ buf, Reached m goesOn base buf → goesOn buf → buf < (readRound m buf).next

/-- Every header that a loop with the given condition goes on from leads forward. -/
def HeadersForward (m : Mem) (goesOn : ℕ → Prop) (base : ℕ) : Prop :=
  ∀ buf, Reached m goesOn base buf → goesOn buf → StepForward m buf

/-- On an archive the loops of `initramfs_init`, `_initrd_usr_prog` and `initrd_reserve_memory` move `buf`
    forward. If there is no magic number from some address on, the first two end within a number of
    rounds that does not depend on what they do. -/
structure LoopsAdvance (m : Mem) (base : ℕ) : Prop where
  init : LoopAdvances m (AtEntry m) base
  search : ∀ cmd, LoopAdvances m (SearchGoesOn m cmd) base
  reserve : LoopAdvances m (ReserveGoesOn m base) base
  ends : ∀ limit, (∀ x, limit ≤ x → memcmp m x cpioMagic ≠ 0) → ∀ fuel, limit - base < fuel →
    ∀ (σ ρ : Type) (body : Round → σ → Option (ρ ⊕ σ)), (∀ r s, body r s ≠ none) →
      ∀ s, cpioLoop m body fuel base s ≠ none

variable {goesOn goesOn' : ℕ → Prop}

theorem Reached.lt (hbase : base < 2 ^ 64) (h : Reached m goesOn base buf) : buf < 2 ^ 64 := by
  cases h with
  | start => exact hbase
  | next h hon =>
    unfold Round.next ptrAdd
    omega

theorem Reached.mono (hon : ∀ b, goesOn b → goesOn' b) (h : Reached m goesOn base buf) :
    Reached m goesOn' base buf := by
  induction h with
  | start => exact .start
  | next _ hb ih => exact .next ih (hon _ hb)

theorem Reached.trans {b : ℕ} (h : Reached m goesOn base b) (h' : Reached m goesOn b buf) :
    Reached m goesOn base buf := by
  induction h' with
  | start => exact h
  | next _ hb ih => exact .next ih hb

theorem LoopAdvances.mono (h : LoopAdvances m goesOn' base) (hon : ∀ b, goesOn b → goesOn' b) :
    LoopAdvances m goesOn base := fun b hb hgo => h b (hb.mono hon) (hon b hgo)

/-- A loop that moves forward stays behind its first address. -/
theorem Reached.le (h : LoopAdvances m goesOn base) (hb : Reached m goesOn base buf) : base ≤ buf := by
  induction hb with
  | start => exact le_rfl
  | next hb hon ih => exact ih.trans (h _ hb hon).le

theorem loopAdvances_iff (hlow : 2 ^ 33 ≤ base) (hbase : base < 2 ^ 64) :
    LoopAdvances m goesOn base ↔ HeadersForward m goesOn base := by
  constructor
  · intro h buf hb hon
    exact (next_gt_iff (hlow.trans (hb.le h)) (hb.lt hbase)).mp (h buf hb hon)
  · intro h buf hb hon
    have hle : base ≤ buf := by
      clear hon
      induction hb with
      | start => exact le_rfl
      | @next b hb hon ih => exact ih.trans ((next_gt_iff (hlow.trans ih) (hb.lt hbase)).mpr (h b hb hon)).le
    exact (next_gt_iff (hlow.trans hle) (hb.lt hbase)).mpr (h buf hb hon)

/-- A loop that checks the magic number and moves forward comes to the end of the archive. -/
theorem cpioLoop_ends {σ ρ : Type} {body : Round → σ → Option (ρ ⊕ σ)} {limit fuel : ℕ}
    (hbody : ∀ r s, body r s ≠ none) (hlimit : ∀ x, limit ≤ x → memcmp m x cpioMagic ≠ 0)
    (h : LoopAdvances m (AtEntry m) base) (hfuel : limit - base < fuel) (s : σ) :
    cpioLoop m body fuel base s ≠ none := by
  induction fuel generalizing base s with
  | zero => exact absurd hfuel (Nat.not_lt_zero _)
  | succ fuel ih =>
    rw [cpioLoop]
    split_ifs with hentry
    · have hlt := h base .start hentry
      have hbelow : base < limit := by
        by_contra hge
        exact hlimit base (not_lt.mp hge) hentry.1
      cases hr : body (readRound m base) s with
      | none => exact absurd hr (hbody _ _)
      | some r =>
        cases r with
        | inl ret => simp
        | inr s =>
          have hrest : LoopAdvances m (AtEntry m) (readRound m base).next := fun b hb hgo =>
            h b (Reached.trans (.next .start hentry) hb) hgo
          exact ih hrest (by omega) s
    · simp

/-- For every content of the memory: the loops move `buf` forward in every round, and those that check
    the magic number end on every archive that ends, exactly if in every header that
    `initramfs_init` or `initrd_reserve_memory` comes to, the two sizes make a positive step and the
    step does not lead past the last address. -/
theorem loops_advance_iff (m : Mem) (loadAddr : UInt32) :
    LoopsAdvance m (physToVirt loadAddr.toNat) ↔
      HeadersForward m (AtEntry m) (physToVirt loadAddr.toNat) ∧
        HeadersForward m (ReserveGoesOn m (physToVirt loadAddr.toNat)) (physToVirt loadAddr.toNat) := by
  have hload := loadAddr.toNat_lt
  have hbase := Memblock.physToVirt_eq (p := loadAddr.toNat) (by omega)
  have hlow : 2 ^ 33 ≤ physToVirt loadAddr.toNat := by
    rw [hbase, Memblock.kernelVaddrBase_eq]
    omega
  have hlt : physToVirt loadAddr.toNat < 2 ^ 64 := by
    rw [hbase, Memblock.kernelVaddrBase_eq]
    omega
  constructor
  · exact fun h => ⟨(loopAdvances_iff hlow hlt).mp h.init, (loopAdvances_iff hlow hlt).mp h.reserve⟩
  · rintro ⟨hinit, hreserve⟩
    have hadv := (loopAdvances_iff hlow hlt).mpr hinit
    exact ⟨hadv, fun cmd => hadv.mono fun b hb => hb.1, (loopAdvances_iff hlow hlt).mpr hreserve,
      fun limit hlimit fuel hfuel σ ρ body hbody s => cpioLoop_ends hbody hlimit hadv hfuel s⟩

/-- A header whose `namesize` is the -113 that `FFFFFF8F` stands for, followed by zeros. -/
def stuckHeader : List UInt8 :=
  cpioMagic ++ List.replicate 88 0x30 ++ [0x46, 0x46, 0x46, 0x46, 0x46, 0x46, 0x38, 0x46]

/-- At this header the loops stay for ever. -/
theorem loops_stuck :
    ¬ LoopsAdvance (fun x => ofBytes stuckHeader (x - physToVirt 0)) (physToVirt 0) := by
  intro h
  have hlt := h.init _ .start (by decide +kernel)
  exact absurd hlt (by decide +kernel)

end RaspiKernel.Boot
