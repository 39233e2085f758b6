import RaspiKernel.Cpu.Switch

/-!
# Back from a signal handler

When a task with a pending signal is switched in, `context_switch` (`sched.c`, lines 50–64) copies the
stack pointer of its `tss` to `sp_backup` and leaves for the handler. `sys_sigreturn` (`syscall.c`, lines
244–245) copies it back and takes everything else that `sig_restore_context` loads from the `tss` as it
is then. The handler can be switched out in between, and `switch_to` stores to the same `tss`. If another
signal is pending by then, `context_switch` stores to the same `sp_backup` too.

Results:
* `Run.keeps_waiting`: what the other tasks leave of a task that is switched out.
* `HandlerRun.saved`: the `tss` at the end of the handler is that of its last switch, and `sp_backup` that
  of the last delivery.
* `sigreturn_resumes_iff`: `sys_sigreturn` resumes `context_switch` exactly if the registers of the last
  switch are those that the task had when the signal was delivered, and no signal that was delivered since
  has left another stack pointer.
-/

namespace RaspiKernel.Cpu

open Lib Lib.A64

/-! ## Model -/

/-- `current->tss.sp_backup = current->tss.sp` (`sched.c`, line 58), with the `tss` at `a`. -/
def backUpSp (a : Word) (c : Cpu) : Cpu :=
  { c with mem := setWord c.mem (a + 112#64) (word c.mem (a + 96#64)) }

/-- The way to the handler (lines 60–64). `sigStack` is the address behind the stack of the handler. -/
def startHandler (action sigStack sigreturn : Word) (c : Cpu) : Cpu :=
  exec .eret
    { c with
      sys := Function.update (Function.update (Function.update c.sys .spsrEl1 0) .elrEl1 action) .spEl0
        (sigStack - 16)
      x := Function.update c.x 30 sigreturn }

/-- `current->tss.sp = current->tss.sp_backup` (`syscall.c`, line 244). -/
def restoreSp (a : Word) (c : Cpu) : Cpu :=
  { c with mem := setWord c.mem (a + 96#64) (word c.mem (a + 112#64)) }

/-- The end of `sys_sigreturn` (lines 244–245), with the argument of `sig_restore_context` in `x0`. -/
def sigreturnEnd (c : Cpu) : Cpu := run sigRestoreContext (restoreSp (c.x 0) c)

/-! ## `sig_restore_context` -/

/-- The pairs that `sig_restore_context` loads. -/
def restorePairs : Pairs :=
  [(19, 20, 16 * 0), (21, 22, 16 * 1), (23, 24, 16 * 2), (25, 26, 16 * 3), (27, 28, 16 * 4), (29, 30, 16 * 5)]

theorem sigRestoreContext_eq :
    sigRestoreContext = ldps (.x 0) restorePairs ++ [.ldr 9 (.x 0) (16 * 6), .movToSp 9, .ret] := rfl

theorem slots_restore : ∀ r : Reg, 19 ≤ r.val → (r, 8 * (r.val - 19)) ∈ slots restorePairs := by decide

theorem free_restore : (Base.x 0).Free (slots restorePairs) := by
  show ∀ p ∈ slots restorePairs, p.1 ≠ 0
  decide

/-- It goes where the `tss` says. -/
theorem run_sigRestoreContext {t : Tss} {c : Cpu} (ht : t.At c.mem (c.x 0)) :
    (∀ r : CalleeSaved, (run sigRestoreContext c).x r = t.x r) ∧ (run sigRestoreContext c).sp = t.sp ∧
      (run sigRestoreContext c).pc = t.lr ∧ (run sigRestoreContext c).mem = c.mem := by
  have hx (r : CalleeSaved) : fill (c.x 0) c.mem (slots restorePairs) c.x r = t.x r :=
    (fill_of_mem (by decide) (slots_restore r r.2)).trans (ht.x r)
  have h0 : fill (c.x 0) c.mem (slots restorePairs) c.x 0 = c.x 0 := fill_of_not_mem (by decide)
  have hbase : c.base (.x 0) = c.x 0 := rfl
  rw [sigRestoreContext_eq, run_append, run_ldps _ _ _ free_restore, hbase]
  simp only [run_cons, run_nil, exec, Cpu.next, Cpu.base, h0]
  refine ⟨fun r => ?_, ?_, ?_, trivial⟩
  · rw [Function.update_of_ne (r.ne (by decide))]
    exact hx r
  · rw [Function.update_self]
    exact ht.sp
  · rw [Function.update_of_ne (by decide)]
    exact hx ⟨30, le_lr⟩

/-! ## While a task waits -/

variable {ι : Type} {pool : Pool ι} {i : ι}

/-- The bytes of the `tss` of task `i` that `switch_to` moves. -/
def Pool.tssBytes (pool : Pool ι) (i : ι) : Set ℕ :=
  { y | (pool.tss i).toNat ≤ y ∧ y < (pool.tss i).toNat + tssSize }

/-- The bytes of `sp_backup`. -/
def Pool.backupBytes (pool : Pool ι) (i : ι) : Set ℕ :=
  { y | (pool.tss i).toNat + tssSize ≤ y ∧ y < (pool.tss i).toNat + tssSize + 8 }

/-- An event of other tasks changes neither the `tss` of a task that waits nor its own bytes. -/
theorem Step.keeps_waiting {e : Event ι} {s s' : Machine ι} (h : Step pool e s s') (hs : s.1 ≠ i)
    (he : e.Away i) :
    s'.1 ≠ i ∧ ∀ y, y ∈ pool.tssBytes i ∨ y ∈ pool.own i → s'.2.mem y = s.2.mem y := by
  cases h with
  | @work j c c' _ leaves _ =>
    refine ⟨hs, ?_⟩
    rintro y (⟨h1, h2⟩ | hy)
    · exact leaves.tss i hs.symm y h1 h2
    · exact leaves.own i hs.symm y hy
  | @switch j next c ne prev arg =>
    refine ⟨he, fun y hy => ?_⟩
    show (run switchTo c).mem y = c.mem y
    rw [run_switchTo]
    refine switchMem_of_not_mem (by rw [prev]; exact pool.fits j) ?_
    rw [prev]
    rcases hy with ⟨h1, h2⟩ | hy
    · have := pool.apart i j hs.symm
      omega
    · exact pool.own_apart i j y hy
  | @create j k c c' _ ne leaves _ _ _ =>
    have hki : i ≠ k := fun heq => he heq.symm
    refine ⟨hs, ?_⟩
    rintro y (⟨h1, h2⟩ | hy)
    · exact leaves.tss i hki y h1 h2
    · exact leaves.own i hki y hy

theorem Run.keeps_waiting {es : List (Event ι)} {s s' : Machine ι} (h : Run pool es s s') (hs : s.1 ≠ i)
    (hes : ∀ e ∈ es, e.Away i) :
    s'.1 ≠ i ∧ ∀ y, y ∈ pool.tssBytes i ∨ y ∈ pool.own i → s'.2.mem y = s.2.mem y := by
  induction h with
  | done s => exact ⟨hs, fun _ _ => rfl⟩
  | cons hstep _ ih =>
    obtain ⟨hs₁, hmem₁⟩ := hstep.keeps_waiting hs (hes _ List.mem_cons_self)
    obtain ⟨hs', hmem⟩ := ih hs₁ fun e he => hes e (List.mem_cons_of_mem _ he)
    exact ⟨hs', fun y hy => (hmem y hy).trans (hmem₁ y hy)⟩

/-- A task from when it is switched out until it is switched in again. -/
inductive Gone (pool : Pool ι) (i : ι) (c : Cpu) : Cpu → Prop
  | mk {next : ι} {es : List (Event ι)} {s₁ s₂ : Machine ι} {c' : Cpu}
      (out : Step pool (.switch next) (i, c) s₁) (meanwhile : Run pool es s₁ s₂) (away : ∀ e ∈ es, e.Away i)
      (back : Step pool (.switch i) s₂ (i, c')) : Gone pool i c c'

/-- It finds its context in its registers and in its `tss`, and its own bytes as they were. -/
theorem Gone.saved {c c' : Cpu} (h : Gone pool i c c') :
    tssOf c' = tssOf c ∧ (tssOf c).At c'.mem (pool.tss i) ∧ ∀ y ∈ pool.own i, c'.mem y = c.mem y := by
  obtain ⟨out, meanwhile, away, back⟩ := h
  cases out with
  | switch ne prev arg =>
    have hfits : (c.x 0).toNat + tssSize ≤ 2 ^ 64 := by rw [prev]; exact pool.fits i
    have hout : (run switchTo c).mem = switchMem c := by rw [run_switchTo]
    have hat : (tssOf c).At (run switchTo c).mem (pool.tss i) := by
      rw [hout, ← prev]
      exact Tss.At.spill c.mem hfits (fun r => parked_of_ne (r.ne (by decide)) (r.ne (by decide)))
        (parked_sp c) (parked_pgd c)
    obtain ⟨-, hmem⟩ := meanwhile.keeps_waiting ne away
    cases back with
    | @switch j _ d ne' prev' arg' =>
      have hatd : (tssOf c).At d.mem (pool.tss i) :=
        hat.congr (pool.fits i) fun n hn => hmem _ (.inl ⟨by omega, by omega⟩)
      have hsw := switched_switchTo (t := tssOf c) (c := d) (by rw [prev']; exact pool.fits j)
        (by rw [arg']; exact pool.fits i) (by rw [prev', arg']; exact pool.apart j i ne'.symm)
        (by rw [arg']; exact hatd)
      refine ⟨hsw.tss, hatd.congr (pool.fits i) fun n hn => hsw.mem _ ?_, fun y hy => ?_⟩
      · rw [prev']
        have := pool.apart i j ne'
        omega
      · rw [hsw.mem y (by rw [prev']; exact pool.own_apart i j y hy), hmem y (.inr hy), hout]
        refine switchMem_of_not_mem hfits ?_
        rw [prev]
        exact pool.own_apart i i y hy

/-! ## The handler -/

/-- A time when the task is switched out in its handler: the context that is saved, and whether another
    signal is delivered when it is switched in again. -/
structure Out where
  tss : Tss
  signal : Bool

/-- The task from the delivery of a signal to the next `sys_sigreturn`: code that leaves its `tss` and the
    frames of its callers alone, times when it is switched out, and signals that are delivered after them. -/
inductive HandlerRun (pool : Pool ι) (i : ι) (frames : Set ℕ) : List Out → Cpu → Cpu → Prop
  | done (c : Cpu) : HandlerRun pool i frames [] c c
  | code {outs : List Out} {c c₁ c₂ : Cpu}
      (kept : ∀ y, y ∈ pool.tssBytes i ∨ y ∈ pool.backupBytes i ∨ y ∈ frames → c₁.mem y = c.mem y)
      (rest : HandlerRun pool i frames outs c₁ c₂) : HandlerRun pool i frames outs c c₂
  | gone {outs : List Out} {c c₁ c₂ : Cpu} (gone : Gone pool i c c₁)
      (rest : HandlerRun pool i frames outs c₁ c₂) : HandlerRun pool i frames (⟨tssOf c, false⟩ :: outs) c c₂
  | signal {outs : List Out} {c c₁ c₂ : Cpu} {action sigStack sigreturn : Word} (gone : Gone pool i c c₁)
      (rest : HandlerRun pool i frames outs
        (startHandler action sigStack sigreturn (backUpSp (pool.tss i) c₁)) c₂) :
      HandlerRun pool i frames (⟨tssOf c, true⟩ :: outs) c c₂

/-- The context that was saved last. -/
def lastSaved (t : Tss) (outs : List Out) : Tss := outs.getLast?.elim t Out.tss

/-- The stack pointer that was copied last. -/
def lastBackup (sp : Word) (outs : List Out) : Word :=
  (outs.filter Out.signal).getLast?.elim sp fun o => o.tss.sp

theorem lastSaved_cons (t : Tss) (o : Out) (outs : List Out) :
    lastSaved t (o :: outs) = lastSaved o.tss outs := by
  unfold lastSaved
  cases outs with
  | nil => rfl
  | cons o' outs => rfl

theorem lastBackup_gone (sp : Word) (t : Tss) (outs : List Out) :
    lastBackup sp (⟨t, false⟩ :: outs) = lastBackup sp outs := rfl

theorem lastBackup_signal (sp : Word) (t : Tss) (outs : List Out) :
    lastBackup sp (⟨t, true⟩ :: outs) = lastBackup t.sp outs := by
  unfold lastBackup
  rw [List.filter_cons_of_pos rfl]
  cases outs.filter Out.signal with
  | nil => rfl
  | cons o outs => rfl

/-- `sp_backup` and the frames of the callers are written by the task only. -/
structure OwnsFrames (pool : Pool ι) (i : ι) (frames : Set ℕ) : Prop where
  fits : (pool.tss i).toNat + tssSize + 8 ≤ 2 ^ 64
  own : ∀ y, y ∈ pool.backupBytes i ∨ y ∈ frames → y ∈ pool.own i
  apart : ∀ y ∈ frames, y ∉ pool.backupBytes i

variable {frames : Set ℕ} {outs : List Out}

theorem word_eq_of_backup {m m' : Mem} (hfits : (pool.tss i).toNat + tssSize + 8 ≤ 2 ^ 64)
    (h : ∀ y ∈ pool.backupBytes i, m' y = m y) :
    word m' (pool.tss i + 112#64) = word m (pool.tss i + 112#64) := by
  have hsize : tssSize = 112 := rfl
  have hto : (pool.tss i + 112#64).toNat = (pool.tss i).toNat + 112 := toNat_add_ofNat (by omega)
  apply word_congr
  intro n hn
  refine h _ ⟨?_, ?_⟩ <;> omega

/-- What the delivery of a signal leaves. -/
theorem backUpSp_spec {t : Tss} {c : Cpu} (hown : OwnsFrames pool i frames) (ht : t.At c.mem (pool.tss i)) :
    t.At (backUpSp (pool.tss i) c).mem (pool.tss i) ∧
      word (backUpSp (pool.tss i) c).mem (pool.tss i + 112#64) = t.sp ∧
      ∀ y ∈ frames, (backUpSp (pool.tss i) c).mem y = c.mem y := by
  have hfits := hown.fits
  have hsize : tssSize = 112 := rfl
  have hto : (pool.tss i + 112#64).toNat = (pool.tss i).toNat + 112 := toNat_add_ofNat (by omega)
  refine ⟨ht.congr (pool.fits i) fun n hn => setWord_of_not_mem ?_, (word_setWord _ _ _).trans ht.sp,
    fun y hy => setWord_of_not_mem fun hin => hown.apart y hy ?_⟩
  · rw [hto]
    omega
  · rw [hto] at hin
    exact ⟨by omega, by omega⟩

/-- The `tss` is that of the last switch, and `sp_backup` is that of the last delivery. -/
theorem HandlerRun.saved {t : Tss} {sp : Word} {c c' : Cpu} (h : HandlerRun pool i frames outs c c')
    (hown : OwnsFrames pool i frames) (ht : t.At c.mem (pool.tss i))
    (hsp : word c.mem (pool.tss i + 112#64) = sp) :
    (lastSaved t outs).At c'.mem (pool.tss i) ∧
      word c'.mem (pool.tss i + 112#64) = lastBackup sp outs ∧ ∀ y ∈ frames, c'.mem y = c.mem y := by
  induction h generalizing t sp with
  | done c => exact ⟨ht, hsp, fun _ _ => rfl⟩
  | code kept _ ih =>
    have ht₁ := ht.congr (pool.fits i) fun n hn => kept _ (.inl ⟨by omega, by omega⟩)
    have hsp₁ := (word_eq_of_backup hown.fits fun y hy => kept y (.inr (.inl hy))).trans hsp
    obtain ⟨hat, hbackup, hframes⟩ := ih ht₁ hsp₁
    exact ⟨hat, hbackup, fun y hy => (hframes y hy).trans (kept y (.inr (.inr hy)))⟩
  | gone hgone _ ih =>
    obtain ⟨-, ht₁, hmem⟩ := hgone.saved
    have hsp₁ := (word_eq_of_backup hown.fits fun y hy => hmem y (hown.own y (.inl hy))).trans hsp
    obtain ⟨hat, hbackup, hframes⟩ := ih ht₁ hsp₁
    rw [lastSaved_cons, lastBackup_gone]
    exact ⟨hat, hbackup, fun y hy => (hframes y hy).trans (hmem y (hown.own y (.inr hy)))⟩
  | signal hgone _ ih =>
    obtain ⟨-, ht₁, hmem⟩ := hgone.saved
    obtain ⟨ht₂, hsp₂, hmem₂⟩ := backUpSp_spec hown ht₁
    obtain ⟨hat, hbackup, hframes⟩ := ih ht₂ hsp₂
    rw [lastSaved_cons, lastBackup_signal]
    refine ⟨hat, hbackup, fun y hy => ?_⟩
    exact (hframes y hy).trans ((hmem₂ y hy).trans (hmem y (hown.own y (.inr hy))))

/-! ## `sys_sigreturn` -/

theorem word_setWord_tss {m : Mem} {a v : Word} {j k : ℕ} (ha : a.toNat + tssSize + 8 ≤ 2 ^ 64)
    (hj : j ≤ tssSize) (hk : k ≤ tssSize) (hjk : j + 8 ≤ k ∨ k + 8 ≤ j) :
    word (setWord m (a + BitVec.ofNat 64 j) v) (a + BitVec.ofNat 64 k) = word m (a + BitVec.ofNat 64 k) := by
  apply word_setWord_of_disjoint
  rw [toNat_add_ofNat (by omega), toNat_add_ofNat (by omega)]
  omega

/-- A `tss` with another stack pointer. -/
theorem Tss.At.set_sp {t : Tss} {m : Mem} {a : Word} (ht : t.At m a) (ha : a.toNat + tssSize + 8 ≤ 2 ^ 64)
    (v : Word) : ({ t with sp := v } : Tss).At (setWord m (a + 96#64) v) a where
  x r := by
    have := r.1.isLt
    have := r.2
    refine (word_setWord_tss (j := 96) ha (by decide) (by unfold tssSize; omega) ?_).trans (ht.x r)
    omega
  sp := word_setWord m _ v
  pgd := (word_setWord_tss (j := 96) (k := 104) ha (by decide) (by decide) (by decide)).trans ht.pgd

/-- `context_switch` goes on where the signal was delivered. -/
structure Resumes (frames : Set ℕ) (c c' : Cpu) : Prop where
  x : ∀ r : CalleeSaved, c'.x r = c.x r
  sp : c'.sp = c.sp
  pc : c'.pc = c.x 30
  frames : ∀ y ∈ frames, c'.mem y = c.mem y

/-- Where `sys_sigreturn` goes: to the stack of the last delivery with the registers of the last switch. -/
theorem sigreturnEnd_spec {c d : Cpu} {action sigStack sigreturn : Word} (hown : OwnsFrames pool i frames)
    (ht : (tssOf c).At c.mem (pool.tss i))
    (hrun : HandlerRun pool i frames outs (startHandler action sigStack sigreturn (backUpSp (pool.tss i) c)) d)
    (hx0 : d.x 0 = pool.tss i) :
    (∀ r : CalleeSaved, (sigreturnEnd d).x r = (lastSaved (tssOf c) outs).x r) ∧
      (sigreturnEnd d).sp = lastBackup c.sp outs ∧ (sigreturnEnd d).pc = (lastSaved (tssOf c) outs).lr ∧
      ∀ y ∈ frames, (sigreturnEnd d).mem y = c.mem y := by
  have hfits := hown.fits
  have hsize : tssSize = 112 := rfl
  have hto : (pool.tss i + 96#64).toNat = (pool.tss i).toNat + 96 := toNat_add_ofNat (by omega)
  obtain ⟨ht₁, hsp₁, hmem₁⟩ := backUpSp_spec hown ht
  obtain ⟨hat, hsp, hkept⟩ := hrun.saved hown ht₁ hsp₁
  -- the stack pointer comes back from `sp_backup`
  have hmem : (restoreSp (pool.tss i) d).mem = setWord d.mem (pool.tss i + 96#64) (lastBackup c.sp outs) :=
    congrArg (setWord d.mem (pool.tss i + 96#64)) hsp
  have hrestored : ({ lastSaved (tssOf c) outs with sp := lastBackup c.sp outs } : Tss).At
      (restoreSp (pool.tss i) d).mem ((restoreSp (pool.tss i) d).x 0) := by
    rw [hmem, show (restoreSp (pool.tss i) d).x 0 = pool.tss i from hx0]
    exact hat.set_sp hfits _
  obtain ⟨hx, hsp', hpc, hmem'⟩ := run_sigRestoreContext hrestored
  unfold sigreturnEnd
  rw [hx0]
  refine ⟨hx, hsp', hpc, fun y hy => ?_⟩
  have htss := pool.own_apart i i y (hown.own y (.inr hy))
  rw [hmem', hmem, setWord_of_not_mem (by rw [hto]; omega), hkept y hy]
  exact hmem₁ y hy

/-- A task is switched in with a signal pending. Whatever its handler does, however often it is switched
    out and whatever the other tasks do then, the next `sys_sigreturn` resumes `context_switch` exactly if
    the registers of the last switch are those that the task was switched in with, and the last of the
    signals that were delivered since, if there is one, came on the same stack pointer. If the handler was
    not switched out, it always does. -/
theorem sigreturn_resumes_iff {c₀ c d : Cpu} {action sigStack sigreturn : Word}
    (hown : OwnsFrames pool i frames)
    (hin : Gone pool i c₀ c)
    (hrun : HandlerRun pool i frames outs (startHandler action sigStack sigreturn (backUpSp (pool.tss i) c)) d)
    (hx0 : d.x 0 = pool.tss i) :
    Resumes frames c (sigreturnEnd d) ↔ (∀ o ∈ outs.getLast?, o.tss.x = (tssOf c).x) ∧
      ∀ o ∈ (outs.filter Out.signal).getLast?, o.tss.sp = c.sp := by
  obtain ⟨htss, ht, -⟩ := hin.saved
  rw [← htss] at ht
  obtain ⟨hx, hsp, hpc, hmem⟩ := sigreturnEnd_spec hown ht hrun hx0
  have hlast : (lastSaved (tssOf c) outs).x = (tssOf c).x ↔ ∀ o ∈ outs.getLast?, o.tss.x = (tssOf c).x := by
    unfold lastSaved
    cases outs.getLast? <;> simp
  have hbackup : lastBackup c.sp outs = c.sp ↔ ∀ o ∈ (outs.filter Out.signal).getLast?, o.tss.sp = c.sp := by
    unfold lastBackup
    cases (outs.filter Out.signal).getLast? <;> simp
  rw [← hlast, ← hbackup]
  constructor
  · intro h
    refine ⟨?_, hsp.symm.trans h.sp⟩
    funext r
    exact (hx r).symm.trans (h.x r)
  · rintro ⟨hregs, hstack⟩
    refine ⟨fun r => (hx r).trans (congrFun hregs r), hsp.trans hstack, ?_, hmem⟩
    rw [hpc]
    exact congrFun hregs ⟨30, le_lr⟩

/-! ## The kernel's own tasks -/

/-- The tasks, each with its kernel stack and its `sp_backup`. -/
def TaskPool.signalOwn {im : Mm.KernelImage} (l : TaskPool im) (i : Sched.Slot) : Set ℕ :=
  { y | y ∈ kstackOf im i ∨ (l.tssAt i).toNat + tssSize ≤ y ∧ y < (l.tssAt i).toNat + tssSize + 8 }

theorem TaskPool.signalOwn_apart {im : Mm.KernelImage} (l : TaskPool im) (i j : Sched.Slot) (y : ℕ)
    (hy : y ∈ l.signalOwn i) : ¬ ((l.tssAt j).toNat ≤ y ∧ y < (l.tssAt j).toNat + tssSize) := by
  rcases hy with hy | ⟨h1, h2⟩
  · exact l.kstack_apart i j y hy
  · rw [toNat_tssAt] at h1 h2 ⊢
    unfold taskSize tssOffset tssSize at *
    omega

def TaskPool.signalTasks {im : Mm.KernelImage} (l : TaskPool im) : Pool Sched.Slot :=
  ⟨l.tssAt, l.fits, l.tss_apart, l.signalOwn, l.signalOwn_apart⟩

theorem TaskPool.ownsFrames {im : Mm.KernelImage} (l : TaskPool im) (i : Sched.Slot) :
    OwnsFrames l.signalTasks i (kstackOf im i) := by
  have hstop := l.stop_lt
  have hi := i.isLt
  have hat := l.toNat_tssAt i
  constructor
  case fits =>
    show (l.tssAt i).toNat + tssSize + 8 ≤ 2 ^ 64
    unfold taskSize tssOffset tssSize Sched.nrTasks at *
    omega
  case own =>
    rintro y (hy | hy)
    · exact .inr hy
    · exact .inl hy
  case apart =>
    rintro y ⟨h1, h2⟩ ⟨h3, h4⟩
    have h3' : (l.tssAt i).toNat + tssSize ≤ y := h3
    have h4' : y < (l.tssAt i).toNat + tssSize + 8 := h4
    have hapart := l.apart
    unfold Mm.KernelImage.kstackAt Mm.kstackSize taskSize tssOffset tssSize Sched.nrTasks at *
    omega

/-- Task 0 switches to task 1, which switches back at once. -/
theorem gone_low (c : Cpu) : Gone lowTaskPool.signalTasks 0 (withTss 0 1 c)
    (run switchTo (withTss 1 0 (run switchTo (withTss 0 1 c)))) := by
  have hwork (c : Cpu) : Step lowTaskPool.signalTasks (.work ⟨tssOf (withTss 1 0 c), c.mem⟩) (1, c)
      (1, withTss 1 0 c) := .work ⟨fun _ _ _ _ _ => rfl, fun _ _ _ _ => rfl⟩ fun _ _ => rfl
  exact .mk (.switch (by decide) (withTss_x0 0 1 _) (withTss_x1 0 1 _)) (.cons (hwork _) (.done _))
    (by simp [Event.Away]) (.switch (by decide) (withTss_x0 1 0 _) (withTss_x1 1 0 _))

theorem tssOf_withTss (i j : Sched.Slot) (c : Cpu) : (tssOf (withTss i j c)).x = (tssOf c).x := by
  funext r
  show Function.update (Function.update c.x 0 (lowTaskPool.tssAt i)) 1 (lowTaskPool.tssAt j) r = c.x r
  rw [Function.update_of_ne (r.ne (by decide)), Function.update_of_ne (r.ne (by decide))]

/-- A handler that is switched out once, by a call of `switch_to` from where the task had waited before. -/
theorem handlerRun_low (c e : Cpu) : ∃ (d : Cpu) (t : Tss),
    HandlerRun lowTaskPool.signalTasks 0 (kstackOf Mm.lowImage 0) [⟨t, false⟩] e d ∧
      d.x 0 = lowTaskPool.tssAt 0 ∧ t.x = (tssOf c).x := by
  have hgone := gone_low { e with x := c.x }
  have hcode : ∀ c c' : Cpu, c'.mem = c.mem →
      HandlerRun lowTaskPool.signalTasks 0 (kstackOf Mm.lowImage 0) [] c c' := by
    intro c c' h
    exact .code (fun y _ => congrFun h y) (.done c')
  refine ⟨_, _, .code ?_ (.gone hgone (hcode _ (withTss 0 1 _) rfl)), withTss_x0 0 1 _, tssOf_withTss 0 1 _⟩
  exact fun _ _ => rfl

/-- A handler at `0x1000`, which is switched out once. -/
theorem sigreturn_resumes_low : ∃ (c d : Cpu) (t : Tss),
    HandlerRun lowTaskPool.signalTasks 0 (kstackOf Mm.lowImage 0) [⟨t, false⟩]
      (startHandler 0x1000 0x8000 0x2000 (backUpSp (lowTaskPool.tssAt 0) c)) d ∧
    Resumes (kstackOf Mm.lowImage 0) c (sigreturnEnd d) := by
  have hin := gone_low startedCpu
  obtain ⟨d, t, hrun, hx0, ht⟩ := handlerRun_low _
    (startHandler 0x1000 0x8000 0x2000 (backUpSp (lowTaskPool.tssAt 0) _))
  exact ⟨_, d, t, hrun, (sigreturn_resumes_iff (lowTaskPool.ownsFrames 0) hin hrun hx0).mpr
    ⟨by simpa using ht, by simp⟩⟩

end RaspiKernel.Cpu
