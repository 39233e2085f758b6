import RaspiKernel.Lib.ByteMem

/-!
# A few instructions of AArch64

The general registers, the system registers and the memory that straight-line entry and switch code
works on, and the instructions it is written with. Code runs at EL1 on `SP_EL1`. Barriers and the
invalidation of translations change nothing here.

Rows of `stp`s and `ldp`s are read through their slots, which are pairs of a register and the offset
it is kept at.

Results:
* `run_stps`, `word_spill`, `spill_of_not_mem`: what a row of `stp`s does to the memory.
* `run_ldps`, `fill_of_mem`, `fill_of_not_mem`: what a row of `ldp`s does to the registers.
-/

namespace RaspiKernel.Lib.A64

abbrev Word := BitVec 64

/-- `x0` to `x30`. -/
abbrev Reg := Fin 31

/-- For the numerals of `Reg`. -/
instance neZeroReg : NeZero 31 := ⟨by decide⟩

/-- The system registers that kernel entry code moves. -/
inductive SysReg
  | spEl0 | spsrEl1 | elrEl1 | esrEl1 | farEl1 | ttbr0El1 | tpidrEl1
  deriving DecidableEq, Repr

structure Cpu where
  x : Reg → Word
  sp : Word
  sys : SysReg → Word
  pc : Word
  pstate : Word
  mem : Mem

/-- What an address is based on. -/
inductive Base
  | sp
  | x (n : Reg)
  deriving DecidableEq

inductive Instr
  | addSp (n : ℕ)
  | subSp (n : ℕ)
  | stp (t t2 : Reg) (b : Base) (off : ℕ)
  | ldp (t t2 : Reg) (b : Base) (off : ℕ)
  | ldr (t : Reg) (b : Base) (off : ℕ)
  | mrs (t : Reg) (s : SysReg)
  | msr (s : SysReg) (t : Reg)
  | movFromSp (t : Reg)
  | movToSp (t : Reg)
  | dsbIsh
  | tlbiVmalle1is
  | isb
  | bl (target : Word)
  | ret
  | eret

/-- The word at an address. -/
@[irreducible] def word (m : Mem) (a : Word) : Word := BitVec.ofNat 64 (load m a.toNat 8)

/-- The memory with a word stored. -/
@[irreducible] def setWord (m : Mem) (a v : Word) : Mem := store m a.toNat v.toNat 8

def Cpu.base (c : Cpu) : Base → Word
  | .sp => c.sp
  | .x n => c.x n

/-- The next instruction. -/
def Cpu.next (c : Cpu) : Cpu := { c with pc := c.pc + 4 }

def exec (i : Instr) (c : Cpu) : Cpu :=
  match i with
  | .addSp n => { c with sp := c.sp + BitVec.ofNat 64 n }.next
  | .subSp n => { c with sp := c.sp - BitVec.ofNat 64 n }.next
  | .stp t t2 b off =>
    let a := c.base b + BitVec.ofNat 64 off
    { c with mem := setWord (setWord c.mem a (c.x t)) (a + 8) (c.x t2) }.next
  | .ldp t t2 b off =>
    let a := c.base b + BitVec.ofNat 64 off
    { c with x := Function.update (Function.update c.x t (word c.mem a)) t2 (word c.mem (a + 8)) }.next
  | .ldr t b off =>
    { c with x := Function.update c.x t (word c.mem (c.base b + BitVec.ofNat 64 off)) }.next
  | .mrs t s => { c with x := Function.update c.x t (c.sys s) }.next
  | .msr s t => { c with sys := Function.update c.sys s (c.x t) }.next
  | .movFromSp t => { c with x := Function.update c.x t c.sp }.next
  | .movToSp t => { c with sp := c.x t }.next
  | .dsbIsh | .tlbiVmalle1is | .isb => c.next
  | .bl target => { c with x := Function.update c.x 30 (c.pc + 4), pc := target }
  | .ret => { c with pc := c.x 30 }
  | .eret => { c with pc := c.sys .elrEl1, pstate := c.sys .spsrEl1 }

/-- Straight-line code. -/
def run (l : List Instr) (c : Cpu) : Cpu := l.foldl (fun c i => exec i c) c

@[simp] theorem run_nil (c : Cpu) : run [] c = c := rfl

@[simp] theorem run_cons (i : Instr) (l : List Instr) (c : Cpu) :
    run (i :: l) c = run l (exec i c) := rfl

theorem run_append (l k : List Instr) (c : Cpu) : run (l ++ k) c = run k (run l c) :=
  List.foldl_append

theorem exec_msr_sys (s : SysReg) (t : Reg) (c : Cpu) :
    (exec (.msr s t) c).sys = Function.update c.sys s (c.x t) := rfl

/-- Only an exception return changes `PSTATE`. -/
theorem exec_pstate {i : Instr} (h : i ≠ .eret) (c : Cpu) : (exec i c).pstate = c.pstate := by
  cases i with
  | eret => exact absurd rfl h
  | _ => rfl

/-! ## Words -/

theorem word_setWord (m : Mem) (a v : Word) : word (setWord m a v) a = v := by
  unfold word setWord
  rw [load_store (by have := v.isLt; omega)]
  exact BitVec.ofNat_toNat 64 v ▸ BitVec.setWidth_eq v

theorem word_congr {m m' : Mem} {a : Word} (h : ∀ i < 8, m' (a.toNat + i) = m (a.toNat + i)) :
    word m' a = word m a := by
  unfold word
  rw [load_congr h]

theorem word_setWord_of_disjoint {m : Mem} {a b v : Word}
    (h : b.toNat + 8 ≤ a.toNat ∨ a.toNat + 8 ≤ b.toNat) : word (setWord m a v) b = word m b := by
  unfold word setWord
  rw [load_store_of_disjoint h]

theorem setWord_of_not_mem {m : Mem} {a v : Word} {y : ℕ}
    (h : ¬ (a.toNat ≤ y ∧ y < a.toNat + 8)) : setWord m a v y = m y := by
  unfold setWord
  exact store_of_not_mem h

theorem toNat_add_ofNat {a : Word} {n : ℕ} (h : a.toNat + n < 2 ^ 64) :
    (a + BitVec.ofNat 64 n).toNat = a.toNat + n := by
  rw [BitVec.toNat_add, BitVec.toNat_ofNat]
  omega

theorem toNat_sub_ofNat {a : Word} {n : ℕ} (h : n ≤ a.toNat) :
    (a - BitVec.ofNat 64 n).toNat = a.toNat - n := by
  have := a.isLt
  rw [BitVec.toNat_sub, BitVec.toNat_ofNat]
  omega

/-! ## Slots -/

/-- A row of pairs of registers, with the offset each pair is kept at. -/
abbrev Pairs := List (Reg × Reg × ℕ)

/-- The registers of the pairs, each with its own offset. -/
def slots (l : Pairs) : List (Reg × ℕ) := l.flatMap fun p => [(p.1, p.2.2), (p.2.1, p.2.2 + 8)]

def stps (b : Base) (l : Pairs) : List Instr := l.map fun p => .stp p.1 p.2.1 b p.2.2

def ldps (b : Base) (l : Pairs) : List Instr := l.map fun p => .ldp p.1 p.2.1 b p.2.2

/-- The memory after words are stored at their offsets above `a`. -/
def spill (a : Word) (l : List (Word × ℕ)) (m : Mem) : Mem :=
  l.foldl (fun m p => setWord m (a + BitVec.ofNat 64 p.2) p.1) m

/-- The registers after they are loaded from their slots above `a`. -/
def fill (a : Word) (m : Mem) (l : List (Reg × ℕ)) (x : Reg → Word) : Reg → Word :=
  l.foldl (fun x p => Function.update x p.1 (word m (a + BitVec.ofNat 64 p.2))) x

/-- What the slots are to hold. -/
def contents (x : Reg → Word) (l : List (Reg × ℕ)) : List (Word × ℕ) := l.map fun p => (x p.1, p.2)

/-- No two of the words at these offsets have a byte in common. -/
def Apart (l : List ℕ) : Prop := l.Pairwise fun i j => i + 8 ≤ j ∨ j + 8 ≤ i

instance (l : List ℕ) : Decidable (Apart l) := by
  unfold Apart
  infer_instance

/-- The words at these offsets fit in `n` bytes. -/
def Within (n : ℕ) (l : List ℕ) : Prop := ∀ i ∈ l, i + 8 ≤ n

instance (n : ℕ) (l : List ℕ) : Decidable (Within n l) := by
  unfold Within
  infer_instance

theorem ofNat_add_eight (a : Word) (n : ℕ) :
    a + BitVec.ofNat 64 n + 8 = a + BitVec.ofNat 64 (n + 8) := by
  rw [BitVec.add_assoc, BitVec.ofNat_add]
  rfl

theorem add_four_mul (pc : Word) (n : ℕ) :
    pc + 4 + BitVec.ofNat 64 (4 * n) = pc + BitVec.ofNat 64 (4 * (n + 1)) := by
  rw [show 4 * (n + 1) = 4 + 4 * n by omega, BitVec.ofNat_add, ← BitVec.add_assoc]
  rfl

theorem run_stps (b : Base) (l : Pairs) (c : Cpu) :
    run (stps b l) c =
      { c with
        mem := spill (c.base b) (contents c.x (slots l)) c.mem
        pc := c.pc + BitVec.ofNat 64 (4 * l.length) } := by
  induction l generalizing c with
  | nil => simp [stps, slots, spill, contents]
  | cons p l ih =>
    have hcons : stps b (p :: l) = .stp p.1 p.2.1 b p.2.2 :: stps b l := rfl
    have hslots : slots (p :: l) = (p.1, p.2.2) :: (p.2.1, p.2.2 + 8) :: slots l := rfl
    have hbase : (exec (.stp p.1 p.2.1 b p.2.2) c).base b = c.base b := by cases b <;> rfl
    rw [hcons, run_cons, ih, hbase, hslots]
    simp only [exec, Cpu.next, spill, contents, List.map_cons, List.foldl_cons, List.length_cons,
      ofNat_add_eight, add_four_mul]

/-- The base of a row of loads is none of the registers it loads. -/
def Base.Free : Base → List (Reg × ℕ) → Prop
  | .sp, _ => True
  | .x n, l => ∀ p ∈ l, p.1 ≠ n

theorem Base.free_sp (l : List (Reg × ℕ)) : Base.sp.Free l := trivial

theorem run_ldps (b : Base) (l : Pairs) (c : Cpu) (hb : b.Free (slots l)) :
    run (ldps b l) c =
      { c with
        x := fill (c.base b) c.mem (slots l) c.x
        pc := c.pc + BitVec.ofNat 64 (4 * l.length) } := by
  induction l generalizing c with
  | nil => simp [ldps, slots, fill]
  | cons p l ih =>
    have hcons : ldps b (p :: l) = .ldp p.1 p.2.1 b p.2.2 :: ldps b l := rfl
    have hslots : slots (p :: l) = (p.1, p.2.2) :: (p.2.1, p.2.2 + 8) :: slots l := rfl
    rw [hslots] at hb
    have hbase : (exec (.ldp p.1 p.2.1 b p.2.2) c).base b = c.base b := by
      cases b with
      | sp => rfl
      | x n =>
        have h1 : n ≠ p.1 := (hb (p.1, p.2.2) (by simp)).symm
        have h2 : n ≠ p.2.1 := (hb (p.2.1, p.2.2 + 8) (by simp)).symm
        simp [exec, Cpu.base, Cpu.next, Function.update, h1, h2]
    have htail : b.Free (slots l) := by
      cases b with
      | sp => trivial
      | x n => exact fun q hq => hb q (by simp [hq])
    rw [hcons, run_cons, ih _ htail, hbase, hslots]
    simp only [exec, Cpu.next, fill, List.foldl_cons, List.length_cons, ofNat_add_eight, add_four_mul]

/-! ## What a row of stores leaves -/

theorem spill_cons (a : Word) (p : Word × ℕ) (l : List (Word × ℕ)) (m : Mem) :
    spill a (p :: l) m = spill a l (setWord m (a + BitVec.ofNat 64 p.2) p.1) := rfl

theorem spill_append (a : Word) (l k : List (Word × ℕ)) (m : Mem) :
    spill a (l ++ k) m = spill a k (spill a l m) := List.foldl_append

/-- The bytes outside the row stay. -/
theorem spill_of_not_mem {a : Word} {l : List (Word × ℕ)} {m : Mem} {n y : ℕ}
    (hl : Within n (l.map Prod.snd)) (hn : a.toNat + n ≤ 2 ^ 64)
    (hy : ¬ (a.toNat ≤ y ∧ y < a.toNat + n)) : spill a l m y = m y := by
  induction l generalizing m with
  | nil => rfl
  | cons p l ih =>
    have hp : p.2 + 8 ≤ n := hl p.2 (by simp)
    rw [spill_cons, ih fun i hi => hl i (by simp [hi])]
    apply setWord_of_not_mem
    rw [toNat_add_ofNat (by omega)]
    omega

/-- A word that shares no byte with the row stays. -/
theorem word_spill_of_apart {a : Word} {l : List (Word × ℕ)} {m : Mem} {n off : ℕ}
    (hl : Within n (l.map Prod.snd)) (hn : a.toNat + n ≤ 2 ^ 64) (hoff : off + 8 ≤ n)
    (h : ∀ i ∈ l.map Prod.snd, off + 8 ≤ i ∨ i + 8 ≤ off) :
    word (spill a l m) (a + BitVec.ofNat 64 off) = word m (a + BitVec.ofNat 64 off) := by
  induction l generalizing m with
  | nil => rfl
  | cons p l ih =>
    have hp : p.2 + 8 ≤ n := hl p.2 (by simp)
    have hoff' := h p.2 (by simp)
    rw [spill_cons, ih (fun i hi => hl i (by simp [hi])) fun i hi => h i (by simp [hi])]
    apply word_setWord_of_disjoint
    rw [toNat_add_ofNat (by omega), toNat_add_ofNat (by omega)]
    omega

/-- Each word of the row reads back. -/
theorem word_spill {a : Word} {l : List (Word × ℕ)} {m : Mem} {n : ℕ} (hl : Within n (l.map Prod.snd))
    (ha : Apart (l.map Prod.snd)) (hn : a.toNat + n ≤ 2 ^ 64) {p : Word × ℕ} (hp : p ∈ l) :
    word (spill a l m) (a + BitVec.ofNat 64 p.2) = p.1 := by
  induction l generalizing m with
  | nil => cases hp
  | cons q l ih =>
    obtain ⟨hq, htail⟩ := List.pairwise_cons.mp ha
    have hl' : Within n (l.map Prod.snd) := fun i hi => hl i (by simp [hi])
    rw [spill_cons]
    rcases List.mem_cons.mp hp with rfl | hp'
    · rw [word_spill_of_apart hl' hn (hl p.2 (by simp)) hq, word_setWord]
    · exact ih hl' htail hp'

/-! ## What a row of loads leaves -/

theorem fill_cons (a : Word) (m : Mem) (p : Reg × ℕ) (l : List (Reg × ℕ)) (x : Reg → Word) :
    fill a m (p :: l) x = fill a m l (Function.update x p.1 (word m (a + BitVec.ofNat 64 p.2))) := rfl

/-- The registers of no slot stay. -/
theorem fill_of_not_mem {a : Word} {m : Mem} {l : List (Reg × ℕ)} {x : Reg → Word} {r : Reg}
    (h : r ∉ l.map Prod.fst) : fill a m l x r = x r := by
  induction l generalizing x with
  | nil => rfl
  | cons p l ih =>
    rw [List.map_cons, List.mem_cons, not_or] at h
    rw [fill_cons, ih h.2, Function.update_of_ne h.1]

/-- Each register holds its slot, if no register has two. -/
theorem fill_of_mem {a : Word} {m : Mem} {l : List (Reg × ℕ)} {x : Reg → Word}
    (hl : (l.map Prod.fst).Nodup) {p : Reg × ℕ} (hp : p ∈ l) :
    fill a m l x p.1 = word m (a + BitVec.ofNat 64 p.2) := by
  induction l generalizing x with
  | nil => cases hp
  | cons q l ih =>
    rw [List.map_cons, List.nodup_cons] at hl
    rw [fill_cons]
    rcases List.mem_cons.mp hp with rfl | hp'
    · rw [fill_of_not_mem hl.1, Function.update_self]
    · exact ih hl.2 hp'

end RaspiKernel.Lib.A64
