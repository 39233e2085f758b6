import RaspiKernel.Sd.Driver

/-!
# The SD card as a block store

A transfer is followed word by word. As long as no error flag is up, the card is where the driver is;
behind an error nothing is known but that only the block that is being written can be lost. The errors
that are still to come, and the flag that is up, bound the attempts.

Results:
* `Plan.Follows.attempt`: one round of a transfer moves the whole block, or it ends with one error less
  to come.
* `readblock_spec`, `writeblock_spec`: on any such card both come back, and they do to its blocks what
  `Fs.readblock` and `Fs.writeblock` do to those of the disk.
* `block_store`: any run of calls.
-/

namespace RaspiKernel.Sd

open Lib Fs

/-! ## Errors -/

namespace Card

/-- The attempts that can still fail. -/
def budget (c : Card) : ℕ := c.faults + if c.err then 1 else 0

/-- The card has nothing to do but what `disk` says. -/
structure Quiet (disk : Disk) (f : ℕ) (c : Card) : Prop where
  transfer : c.transfer = .none
  disk : c.disk = disk
  budget : c.budget ≤ f

/-- A transfer that may lose the blocks of `S`. -/
structure Spares (S : Set ℕ) (old : Disk) (f : ℕ) (c : Card) : Prop where
  budget : c.budget ≤ f
  writes : ∀ b, c.transfer.Writes b → b ∈ S
  kept : ∀ b x, c.disk b x ≠ old b x → b ∈ S ∧ x < blockSize

/-- Without an error it has come to `t` and to `disk`. -/
structure Phase (S : Set ℕ) (old : Disk) (f : ℕ) (t : Transfer) (disk : Disk) (c : Card) : Prop
    extends c.Spares S old f where
  clean : c.err = false → c.transfer = t ∧ c.disk = disk

end Card

variable {r : Reg} {c c₁ : Card} {S : Set ℕ} {f : ℕ} {t : Transfer} {old disk : Disk}

theorem Fault.budget_le (h : Fault r c c₁) : c₁.budget ≤ c.budget := by
  cases h with
  | none => exact le_rfl
  | @raise _ n hr faults lost =>
    show n + 1 ≤ c.faults + _
    omega

theorem Fault.err (h : Fault r c c₁) (herr : c.err) : c₁.err := by
  cases h with
  | none => exact herr
  | raise => rfl

theorem Fault.eq_of_err_eq_false (h : Fault r c c₁) (herr : c₁.err = false) : c₁ = c := by
  cases h with
  | none => rfl
  | raise => cases herr

theorem Fault.busy (h : Fault r c c₁) : c₁.busy = c.busy := by
  cases h <;> rfl

theorem Fault.transfer (h : Fault r c c₁) : c₁.transfer = c.transfer := by
  cases h <;> rfl

theorem Fault.regs (h : Fault r c c₁) : c₁.arg = c.arg ∧ c₁.size = c.size ∧ c₁.cnt = c.cnt := by
  cases h <;> exact ⟨rfl, rfl, rfl⟩

theorem Fault.eq_of_dbg (h : Fault .dbg c c₁) : c₁ = c := by
  cases h with
  | none => rfl
  | raise hr => exact absurd rfl hr

theorem Card.Quiet.fault (hc : c.Quiet disk f) (h : Fault r c c₁) : c₁.Quiet disk f := by
  have hbudget := h.budget_le.trans hc.budget
  cases h with
  | none => exact hc
  | raise hr faults lost =>
    refine ⟨hc.transfer, ?_, hbudget⟩
    rw [← hc.disk]
    funext b x
    by_contra hne
    have hwrites := (lost b x hne).1
    rw [hc.transfer] at hwrites
    exact hwrites

theorem Card.Spares.fault (hc : c.Spares S old f) (h : Fault r c c₁) : c₁.Spares S old f := by
  have hbudget := h.budget_le.trans hc.budget
  cases h with
  | none => exact hc
  | raise hr faults lost =>
    refine ⟨hbudget, hc.writes, fun b x hne => ?_⟩
    by_cases hold : c.disk b x = old b x
    · obtain ⟨hwrites, hx⟩ := lost b x (by rw [hold]; exact hne)
      exact ⟨hc.writes b hwrites, hx⟩
    · exact hc.kept b x hold

theorem Card.Phase.fault (hc : c.Phase S old f t disk) (h : Fault r c c₁) : c₁.Phase S old f t disk := by
  refine ⟨hc.toSpares.fault h, fun herr => ?_⟩
  obtain rfl := h.eq_of_err_eq_false herr
  exact hc.clean herr

/-! ## Waiting -/

variable {σ α : Type} {d : Device Reg Word σ} {isHcs : Bool} {view : σ → Card} {s : σ}

namespace Serves

/-- `wait_sd` comes back when the command has been taken. -/
theorem waitSd (h : Serves d isHcs view) {P : Card → Prop}
    (hfault : ∀ c c₁, P c → Fault .cmd c c₁ → P c₁) (hbusy : ∀ c, P c → P { c with busy := false })
    (hs : P (view s)) :
    (waitSd d s).1 ∧ P (view (waitSd d s).2) ∧ (view (waitSd d s).2).busy = false := by
  have hlook : ∀ s, P (view s) → P (view (d.look .cmd s)) ∧
      (taken (d.value .cmd s) → (view (d.look .cmd s)).busy = false) := by
    intro s hs
    obtain ⟨c, hf, hg⟩ := h.get .cmd s
    have hc := hfault _ _ hs hf
    rw [show view (d.look .cmd s) = _ from hg]
    split_ifs with htaken
    · exact ⟨hbusy c hc, fun _ => rfl⟩
    · exact ⟨hc, fun h => absurd h htaken⟩
  have hfound := Device.poll_of_exists (h.accepts s)
  have hend := Device.poll_until (P := fun s => P (view s))
    (Q := fun s => P (view s) ∧ (view s).busy = false) (p := taken) (n := waitCnt) (fun s hs => (hlook s hs).1)
    (fun s hs hp => ⟨(hlook s hs).1, (hlook s hs).2 hp⟩) hs
  rw [if_pos hfound] at hend
  exact ⟨hfound, hend⟩

/-- What a look at `SDHOST_HSTS` keeps. -/
theorem look_hsts (h : Serves d isHcs view) (hc : (view s).Phase S old f t disk)
    (hbusy : (view s).busy = false) :
    (view (d.look .hsts s)).Phase S old f t disk ∧ (view (d.look .hsts s)).busy = false ∧
      ((view s).err → (view (d.look .hsts s)).err) ∧
      (hasData (d.value .hsts s) → (view (d.look .hsts s)).ready) ∧
      hasError (d.value .hsts s) = (view (d.look .hsts s)).err := by
  obtain ⟨c, hf, herr, hg⟩ := h.get .hsts s
  have hc' := hc.fault hf
  rw [hg]
  exact ⟨⟨⟨hc'.budget, hc'.writes, hc'.kept⟩, hc'.clean⟩, hf.busy.trans hbusy, hf.err, id, herr⟩

/-- `wait_fifo` comes back when the FIFO is ready, or with an error. -/
theorem waitFifo (h : Serves d isHcs view) (hc : (view s).Phase S old f t disk)
    (hbusy : (view s).busy = false) (hopen : t.Open) :
    (view (waitFifo d s).2).Phase S old f t disk ∧ (view (waitFifo d s).2).busy = false ∧
      ((view s).err → (view (waitFifo d s).2).err) ∧
      ((view (waitFifo d s).2).err = false → (view (waitFifo d s).2).ready) := by
  have hkeep : ∀ s, (view s).Phase S old f t disk ∧ (view s).busy = false →
      (view (d.look .hsts s)).Phase S old f t disk ∧ (view (d.look .hsts s)).busy = false :=
    fun s hs => ⟨(h.look_hsts hs.1 hs.2).1, (h.look_hsts hs.1 hs.2).2.1⟩
  have hend := fun k => Device.iterate_look hkeep ⟨hc, hbusy⟩ k
  -- an error stays
  have hstays : ∀ n k, k ≤ n → (view ((d.look .hsts)^[k] s)).err → (view ((d.look .hsts)^[n] s)).err := by
    intro n k hkn hk
    induction n, hkn using Nat.le_induction with
    | base => exact hk
    | succ n _ ih =>
      rw [Function.iterate_succ_apply']
      exact (h.look_hsts (hend n).1 (hend n).2).2.2.1 ih
  unfold Sd.waitFifo
  rcases Device.poll_cases d .hsts hasData waitCnt s with ⟨k, -, hpass, heq⟩ | ⟨hfail, heq⟩
  · rw [heq]
    refine ⟨(hend (k + 1)).1, (hend (k + 1)).2, hstays (k + 1) 0 (Nat.zero_le _), fun _ => ?_⟩
    rw [Function.iterate_succ_apply']
    exact (h.look_hsts (hend k).1 (hend k).2).2.2.2.1 hpass
  · rw [heq]
    dsimp only
    obtain ⟨hphase, hbusy'⟩ := hend waitCnt
    refine ⟨hphase, hbusy', hstays waitCnt 0 (Nat.zero_le _), fun hclean => ?_⟩
    -- all the looks have failed, so there was an error
    have herr : (view ((d.look .hsts)^[waitCnt] s)).err := by
      by_cases hfirst : (view s).err
      · exact hstays _ 0 (Nat.zero_le _) hfirst
      · obtain ⟨htransfer, -⟩ := hc.clean (by simpa using hfirst)
        obtain ⟨k, hk, hdata | hk'⟩ := h.delivers s hbusy (by rw [htransfer]; exact hopen)
        · exact absurd hdata (hfail k hk)
        · exact hstays _ k hk.le hk'
    rw [hclean] at herr
    cases herr

/-- `wait_finish` comes back when the transfer is over, and nothing goes wrong in the meantime. -/
theorem waitFinish (h : Serves d isHcs view) (hbusy : (view s).busy = false)
    (hopen : ¬ (view s).transfer.Open) :
    ∃ s', (∃ n, ∀ fuel ≥ n, waitFinish d fuel s = some s') ∧ (view s').Idle ∧
      (view s').disk = (view s).disk := by
  have hlook : ∀ s', (view s').busy = false ∧ (view s').disk = (view s).disk →
      ((view (d.look .dbg s')).busy = false ∧ (view (d.look .dbg s')).disk = (view s).disk) ∧
        (finished (d.value .dbg s') → (view (d.look .dbg s')).transfer = .none) := by
    rintro s' ⟨hbusy', hdisk⟩
    obtain ⟨c, hf, hg⟩ := h.get .dbg s'
    rw [show view (d.look .dbg s') = _ from hg, hf.eq_of_dbg]
    split_ifs with hfin
    · exact ⟨⟨hbusy', hdisk⟩, fun _ => rfl⟩
    · exact ⟨⟨hbusy', hdisk⟩, fun h => absurd h hfin⟩
  have hkeep := fun k => Device.iterate_look (fun s' hs' => (hlook s' hs').1) ⟨hbusy, rfl⟩ k
  classical
  have hex := h.finishes s hopen
  refine ⟨(d.look .dbg)^[Nat.find hex + 1] s, ⟨Nat.find hex + 1, fun fuel hfuel => ?_⟩,
    ⟨?_, (hkeep _).1⟩, (hkeep _).2⟩
  · unfold Sd.waitFinish
    rw [Device.poll_of_first hfuel (Nat.find_spec hex) fun j hj => Nat.find_min hex hj]
    rfl
  · rw [Function.iterate_succ_apply']
    exact (hlook _ (hkeep _)).2 (Nat.find_spec hex)

/-- Behind `set_block` and the store to `SDHOST_ARG` the card knows what to transfer. -/
theorem setup (h : Serves d isHcs view) (hs : (view s).Quiet disk f) (hbusy : (view s).busy = false)
    (arg : Word) :
    let c := view (d.set .arg arg (setBlock d 512 1 s))
    c.Quiet disk f ∧ c.busy = false ∧ c.size = 512 ∧ c.cnt = 1 ∧ c.arg = arg := by
  obtain ⟨c₁, hf₁, h₁⟩ := h.set .size 512 s
  obtain ⟨c₂, hf₂, h₂⟩ := h.set .cnt 1 (d.set .size 512 s)
  obtain ⟨c₃, hf₃, h₃⟩ := h.set .arg arg (setBlock d 512 1 s)
  obtain ⟨-, hsize₂, -⟩ := hf₂.regs
  obtain ⟨-, hsize₃, hcnt₃⟩ := hf₃.regs
  have hb₁ := hf₁.busy
  have hb₂ := hf₂.busy
  have hb₃ := hf₃.busy
  rw [show view (d.set .size 512 s) = _ from h₁] at hf₂ hsize₂ hb₂
  have hq₁ := hs.fault hf₁
  have hq₁' : ({ c₁ with size := 512 } : Card).Quiet disk f := ⟨hq₁.transfer, hq₁.disk, hq₁.budget⟩
  have hq₂ := hq₁'.fault hf₂
  rw [show view (setBlock d 512 1 s) = _ from h₂] at hf₃ hsize₃ hcnt₃ hb₃
  have hq₂' : ({ c₂ with cnt := 1 } : Card).Quiet disk f := ⟨hq₂.transfer, hq₂.disk, hq₂.budget⟩
  have hq₃ := hq₂'.fault hf₃
  rw [show view (d.set .arg arg (setBlock d 512 1 s)) = _ from h₃]
  exact ⟨⟨hq₃.transfer, hq₃.disk, hq₃.budget⟩, hb₃.trans (hb₂.trans (hb₁.trans hbusy)), hsize₃.trans hsize₂,
    hcnt₃, rfl⟩

/-- The commands that stop a transfer leave nothing of it. -/
theorem stop (h : Serves d isHcs view) (hc : (view s).Phase S old f t disk) (hbusy : (view s).busy = false)
    (herr : (view s).err) :
    let s' := (sdCmd d stopTransmission 0 (d.set .hsts hstsErrMask s)).2
    (view s').Idle ∧ (view s').budget < f ∧ ∀ b x, (view s').disk b x ≠ old b x → b ∈ S ∧ x < blockSize := by
  obtain ⟨c₁, hf₁, h₁⟩ := h.set .hsts hstsErrMask s
  obtain ⟨c₂, hf₂, h₂⟩ := h.set .arg 0 (d.set .hsts hstsErrMask s)
  obtain ⟨c₃, hf₃, h₃⟩ := h.set .cmd (stopTransmission ||| newCmd) (d.set .arg 0 (d.set .hsts hstsErrMask s))
  have hs₁ := hc.toSpares.fault hf₁
  have hlt : c₁.faults + 1 ≤ f := by
    have := hs₁.budget
    unfold Card.budget at this
    rwa [if_pos (hf₁.err herr)] at this
  have hs₁' : ({ c₁ with err := false } : Card).Spares S old (f - 1) :=
    ⟨Nat.le_sub_one_of_lt hlt, hs₁.writes, hs₁.kept⟩
  rw [show view (d.set .hsts hstsErrMask s) = _ from h₁ rfl] at hf₂
  have hs₂ := hs₁'.fault hf₂
  have hs₂' : ({ c₂ with arg := 0 } : Card).Spares S old (f - 1) := ⟨hs₂.budget, hs₂.writes, hs₂.kept⟩
  rw [show view (d.set .arg 0 (d.set .hsts hstsErrMask s)) = _ from h₂] at hf₃
  have hs₃ := hs₂'.fault hf₃
  have hbusy₃ : c₃.busy = false := hf₃.busy.trans (hf₂.busy.trans (hf₁.busy.trans hbusy))
  have hwait := h.waitSd (P := fun c => c.Spares S old (f - 1) ∧ c.transfer = .none)
    (s := d.set .cmd (stopTransmission ||| newCmd) (d.set .arg 0 (d.set .hsts hstsErrMask s))) ?_ ?_ ?_
  · obtain ⟨-, ⟨hspares, htransfer⟩, hbusy'⟩ := hwait
    exact ⟨⟨htransfer, hbusy'⟩, hspares.budget.trans_lt (by omega), hspares.kept⟩
  · rintro c c₁ ⟨hspares, htransfer⟩ hf
    exact ⟨hspares.fault hf, hf.transfer.trans htransfer⟩
  · rintro c ⟨hspares, htransfer⟩
    exact ⟨⟨hspares.budget, hspares.writes, hspares.kept⟩, htransfer⟩
  · rw [(h₃ hbusy₃).1 rfl]
    exact ⟨⟨hs₃.budget, fun b hb => hb.elim, hs₃.kept⟩, rfl⟩

end Serves

/-! ## One transfer -/

/-- How a command moves a block: the blocks that it may lose, where the card is and what is on it behind
    `i` words, what is known of the buffer in any case, and what without an error. -/
structure Plan (α : Type) where
  lost : Set ℕ
  transfer : Disk → ℕ → Transfer
  disk : Disk → ℕ → Disk
  Inv : α → Prop
  Acc : Disk → ℕ → α → Prop

namespace Plan

/-- The driver has moved `i` words. -/
structure At (P : Plan α) (view : σ → Card) (old : Disk) (f i : ℕ) (a : α) (s : σ) : Prop where
  phase : (view s).Phase P.lost old f (P.transfer old i) (P.disk old i)
  busy : (view s).busy = false
  inv : P.Inv a
  acc : (view s).err = false → P.Acc old i a

/-- A command and the loop over its words follow the plan. -/
structure Follows (P : Plan α) (d : Device Reg Word σ) (isHcs : Bool) (view : σ → Card) (cmd : Word) (b : ℕ)
    (move : ℕ → α → σ → α × σ) : Prop where
  start : ∀ c c' : Card, c.busy = false → c.transfer = .none → c.size = 512 → c.cnt = 1 →
    blockOf isHcs c.arg = b → c.Stores isHcs .cmd (cmd ||| newCmd) c' →
    c' = { c with transfer := P.transfer c.disk 0, busy := true, ready := false }
  writes : ∀ disk i b', (P.transfer disk i).Writes b' → b' ∈ P.lost
  isOpen : ∀ disk i, (P.transfer disk i).Open ↔ i < 128
  disk_zero : ∀ disk, P.disk disk 0 = disk
  acc_zero : ∀ disk a, P.Inv a → P.Acc disk 0 a
  move : ∀ old f i a s, i < 128 → P.At view old f i a s → ((view s).err = false → (view s).ready) →
    P.At view old f (i + 1) (move i a s).1 (move i a s).2

variable {P : Plan α} {cmd arg : Word} {b : ℕ} {move : ℕ → α → σ → α × σ} {a : α}

theorem Follows.moveWords (hP : P.Follows d isHcs view cmd b move) (h : Serves d isHcs view)
    (hs : P.At view old f 0 a s) {n : ℕ} (hn : n ≤ 128) :
    P.At view old f n (moveWords d move n a s).1 (moveWords d move n a s).2 := by
  induction n with
  | zero => exact hs
  | succ n ih =>
    have hat := ih (by omega)
    obtain ⟨hphase, hbusy, herr, hready⟩ := h.waitFifo hat.phase hat.busy ((hP.isOpen _ _).mpr (by omega))
    refine hP.move old f n _ _ (by omega) ⟨hphase, hbusy, hat.inv, fun hclean => hat.acc ?_⟩ hready
    by_contra hne
    rw [herr (by simpa using hne)] at hclean
    cases hclean

theorem attempt_eq (d : Device Reg Word σ) (cmd arg : Word) (move : ℕ → α → σ → α × σ) (a : α) (s : σ) :
    attempt d cmd arg move a s =
      let q := Sd.moveWords d move 128 a (sdCmd d cmd arg (setBlock d 512 1 s)).2
      if hasError (d.value .hsts q.2) then
        (false, q.1, (sdCmd d stopTransmission 0 (d.set .hsts hstsErrMask (d.look .hsts q.2))).2)
      else (true, q.1, d.look .hsts q.2) := rfl

theorem attempts_succ (d : Device Reg Word σ) (cmd arg : Word) (move : ℕ → α → σ → α × σ) (n : ℕ)
    (a : α) (s : σ) :
    attempts d cmd arg move (n + 1) a s =
      if (attempt d cmd arg move a s).1 then some (attempt d cmd arg move a s).2
      else attempts d cmd arg move n (attempt d cmd arg move a s).2.1 (attempt d cmd arg move a s).2.2 := rfl

/-- A round moves the whole block, or it ends with an error less to come. -/
theorem Follows.attempt (hP : P.Follows d isHcs view cmd b move) (h : Serves d isHcs view)
    (hs : (view s).Idle) (ha : P.Inv a) (harg : blockOf isHcs arg = b) :
    let q := attempt d cmd arg move a s
    q.1 = true ∧ P.At view (view s).disk (view s).budget 128 q.2.1 q.2.2 ∧ (view q.2.2).err = false ∨
      q.1 = false ∧ P.Inv q.2.1 ∧ (view q.2.2).Idle ∧ (view q.2.2).budget < (view s).budget ∧
        ∀ b x, (view q.2.2).disk b x ≠ (view s).disk b x → b ∈ P.lost ∧ x < blockSize := by
  obtain ⟨hquiet, hbusy, hsize, hcnt, harg'⟩ := h.setup ⟨hs.transfer, rfl, le_rfl⟩ hs.busy arg
  obtain ⟨c, hf, hcmd⟩ := h.set .cmd (cmd ||| newCmd) (d.set .arg arg (setBlock d 512 1 s))
  have hq := hquiet.fault hf
  obtain ⟨harg₁, hsize₁, hcnt₁⟩ := hf.regs
  have hc := hP.start c _ (hf.busy.trans hbusy) hq.transfer (hsize₁.trans hsize) (hcnt₁.trans hcnt)
    (by rw [harg₁, harg', harg]) hcmd
  obtain ⟨-, hphase, hbusy'⟩ := h.waitSd
    (P := fun c => c.Phase P.lost (view s).disk (view s).budget (P.transfer (view s).disk 0) (view s).disk)
    (fun _ _ => Card.Phase.fault) (fun _ hc => ⟨⟨hc.budget, hc.writes, hc.kept⟩, hc.clean⟩)
    (s := d.set .cmd (cmd ||| newCmd) (d.set .arg arg (setBlock d 512 1 s))) (by
      rw [hc, hq.disk]
      exact ⟨⟨hq.budget, hP.writes _ _, fun b x hne => absurd rfl hne⟩, fun _ => ⟨rfl, rfl⟩⟩)
  have hat : P.At view (view s).disk (view s).budget 0 a (sdCmd d cmd arg (setBlock d 512 1 s)).2 :=
    ⟨by rw [hP.disk_zero]; exact hphase, hbusy', ha, fun _ => hP.acc_zero _ _ ha⟩
  have hend := hP.moveWords h hat le_rfl
  obtain ⟨hphase', hbusy'', herr, -, hflag⟩ := h.look_hsts hend.phase hend.busy
  rw [attempt_eq]
  dsimp only
  split_ifs with hfail
  · obtain ⟨hidle, hlt, hkept⟩ := h.stop hphase' hbusy'' (by rw [← hflag, hfail])
    exact .inr ⟨rfl, hend.inv, hidle, hlt, hkept⟩
  · have hclean := hflag.symm.trans (by simpa using hfail)
    refine .inl ⟨rfl, ⟨hphase', hbusy'', hend.inv, fun _ => hend.acc ?_⟩, hclean⟩
    by_contra hne
    rw [herr (by simpa using hne)] at hclean
    cases hclean

/-- The rounds come to an end, with one that has moved the whole block. -/
theorem Follows.attempts (hP : P.Follows d isHcs view cmd b move) (h : Serves d isHcs view)
    (hs : (view s).Idle) (ha : P.Inv a) (harg : blockOf isHcs arg = b) :
    ∃ a' s' mid, (∀ fuel > (view s).budget, attempts d cmd arg move fuel a s = some (a', s')) ∧
      (∀ b x, mid b x ≠ (view s).disk b x → b ∈ P.lost ∧ x < blockSize) ∧
      P.At view mid (view s).budget 128 a' s' ∧ (view s').err = false := by
  induction hf : (view s).budget using Nat.strong_induction_on generalizing a s with
  | _ f ih =>
    subst hf
    have hstep : ∀ fuel > (view s).budget, ∃ n, fuel = n + 1 ∧ (view s).budget ≤ n :=
      fun fuel hfuel => ⟨fuel - 1, by omega, by omega⟩
    rcases hP.attempt h hs ha harg with ⟨hsucc, hat, herr⟩ | ⟨hfail, hinv, hidle, hlt, hkept⟩
    · refine ⟨_, _, (view s).disk, fun fuel hfuel => ?_, fun b x hne => absurd rfl hne, hat, herr⟩
      obtain ⟨n, rfl, -⟩ := hstep fuel hfuel
      rw [attempts_succ, if_pos hsucc]
    · obtain ⟨a', s', mid, heq, hmid, hat, herr⟩ := ih _ hlt hidle hinv rfl
      refine ⟨a', s', mid, fun fuel hfuel => ?_, fun b x hne => ?_, ?_, herr⟩
      · obtain ⟨n, rfl, hn⟩ := hstep fuel hfuel
        rw [attempts_succ, hfail, if_neg Bool.false_ne_true, heq n (by omega)]
      · by_cases hold : mid b x = (view (Sd.attempt d cmd arg move a s).2.2).disk b x
        · exact hkept b x (by rw [← hold]; exact hne)
        · exact hmid b x hold
      · exact ⟨⟨⟨hat.phase.budget.trans hlt.le, hat.phase.writes, hat.phase.kept⟩, hat.phase.clean⟩, hat.busy,
          hat.inv, hat.acc⟩

/-- A transfer comes back with the block moved, also over errors. -/
theorem Follows.transferBlock (hP : P.Follows d isHcs view cmd b move) (h : Serves d isHcs view)
    (hs : (view s).Idle) (ha : P.Inv a) {blockIdx : Word}
    (harg : blockOf isHcs (if isHcs then blockIdx else blockIdx <<< 9) = b) :
    ∃ a' s' mid, (∃ n, ∀ fuel ≥ n, transferBlock d isHcs fuel cmd blockIdx move a s = some (a', s')) ∧
      (∀ b x, mid b x ≠ (view s).disk b x → b ∈ P.lost ∧ x < blockSize) ∧ P.Inv a' ∧ P.Acc mid 128 a' ∧
      (view s').Idle ∧ (view s').disk = P.disk mid 128 := by
  obtain ⟨a', s₁, mid, heq, hmid, hat, herr⟩ := hP.attempts h hs ha harg
  obtain ⟨htransfer, hdisk⟩ := hat.phase.clean herr
  have hopen : ¬ (view s₁).transfer.Open := by
    rw [htransfer, hP.isOpen]
    omega
  obtain ⟨s', ⟨n, hn⟩, hidle, hdisk'⟩ := h.waitFinish hat.busy hopen
  refine ⟨a', s', mid, ⟨max n ((view s).budget + 1), fun fuel hfuel => ?_⟩, hmid, hat.inv, hat.acc herr, hidle,
    hdisk'.trans hdisk⟩
  unfold Sd.transferBlock
  dsimp only
  rw [heq fuel (by omega), Option.bind_eq_bind, Option.bind_some]
  dsimp only
  rw [hn fuel (by omega)]
  rfl

end Plan

/-! ## The two commands -/

/-- What is stored of a word is what was loaded. -/
theorem ofNat_load_div (m : Mem) {a w i : ℕ} (hi : i < w) : UInt8.ofNat (load m a w / 256 ^ i) = m (a + i) := by
  induction i generalizing a w with
  | zero =>
    cases w with
    | zero => omega
    | succ w =>
      rw [pow_zero, Nat.div_one, load, add_zero]
      apply UInt8.toNat.inj
      rw [UInt8.toNat_ofNat']
      have := (m a).toNat_lt
      omega
  | succ i ih =>
    cases w with
    | zero => omega
    | succ w =>
      have hdiv : ((m a).toNat + 256 * load m (a + 1) w) / 256 = load m (a + 1) w := by
        have := (m a).toNat_lt
        omega
      rw [load, pow_succ', ← Nat.div_div_eq_div_mul, hdiv, ih (by omega), add_right_comm, add_assoc]

theorem store_load {m m' : Mem} {a w x : ℕ} (h : a ≤ x ∧ x < a + w) : store m a (load m' a w) w x = m' x := by
  unfold store
  rw [if_pos h, ofNat_load_div m' (by omega), Nat.add_sub_cancel' h.1]

/-- A block that is read. -/
def readPlan (b : ℕ) (buf : Mem) : Plan Mem where
  lost := ∅
  transfer _ i := .read b i
  disk disk _ := disk
  Inv a := ∀ x, blockSize ≤ x → a x = buf x
  Acc disk i a := ∀ x < 4 * i, a x = disk b x

/-- A block that is written. -/
def writePlan (b : ℕ) (buf : Mem) : Plan Mem where
  lost := {b}
  transfer disk i := .write b (copy (disk b) 0 buf (4 * i)) i
  disk disk i := if i = 128 then Fs.writeblock disk b buf else disk
  Inv a := a = buf
  Acc _ _ _ := True

variable {buf : Mem}

theorem follows_readPlan (h : Serves d isHcs view) (b : ℕ) (buf : Mem) :
    (readPlan b buf).Follows d isHcs view readSingleBlock b (getWord d) where
  start c c' hbusy htransfer hsize hcnt harg hset := by
    rw [((hset hbusy).2 htransfer hsize hcnt).1 rfl, harg]
    rfl
  writes _ _ _ hw := hw
  isOpen _ _ := Iff.rfl
  disk_zero _ := rfl
  acc_zero _ _ _ x hx := by omega
  move old f i a s hi hs hready := by
    obtain ⟨c, hf, herr, hword⟩ := h.get .data s
    have hc := hs.phase.fault hf
    have hinv : ∀ x, blockSize ≤ x → store a (4 * i) (d.value .data s).toNat 4 x = buf x := by
      intro x hx
      unfold blockSize at hx
      rw [store_of_not_mem (by omega)]
      exact hs.inv x hx
    cases hcerr : c.err with
    | true =>
      have hlook : view (d.look .data s) = c := herr hcerr
      refine ⟨?_, ?_, hinv, ?_⟩
      · show (view (d.look .data s)).Phase _ _ _ _ _
        rw [hlook]
        exact ⟨hc.toSpares, fun hclean => by rw [hcerr] at hclean; cases hclean⟩
      · show (view (d.look .data s)).busy = false
        rw [hlook, hf.busy, hs.busy]
      · show (view (d.look .data s)).err = false → _
        rw [hlook, hcerr]
        intro hclean
        cases hclean
    | false =>
      obtain rfl := hf.eq_of_err_eq_false hcerr
      obtain ⟨htransfer, hdisk⟩ := hc.clean hcerr
      obtain ⟨hv, hlook⟩ := hword b i hcerr (hready hcerr) htransfer hi
      refine ⟨?_, ?_, hinv, fun _ x hx => ?_⟩
      · show (view (d.look .data s)).Phase _ _ _ _ _
        rw [hlook]
        exact ⟨⟨hc.budget, fun _ hw => hw, hc.kept⟩, fun _ => ⟨rfl, hdisk⟩⟩
      · show (view (d.look .data s)).busy = false
        rw [hlook]
        exact hs.busy
      · show store a (4 * i) (d.value .data s).toNat 4 x = old b x
        rw [hv, show (view s).disk = old from hdisk]
        by_cases hlow : x < 4 * i
        · rw [store_of_not_mem (by omega)]
          exact hs.acc hcerr x hlow
        · exact store_load (by omega)

/-- The words of a buffer, one after the other. -/
theorem store_copy (m buf : Mem) (i : ℕ) :
    store (copy m 0 buf (4 * i)) (4 * i) (BitVec.ofNat 32 (load buf (4 * i) 4)).toNat 4 =
      copy m 0 buf (4 * (i + 1)) := by
  have hlt : load buf (4 * i) 4 < 2 ^ 32 := (load_lt buf (4 * i) 4).trans_eq (by norm_num)
  rw [BitVec.toNat_ofNat, Nat.mod_eq_of_lt hlt]
  funext x
  by_cases hword : 4 * i ≤ x ∧ x < 4 * i + 4
  · rw [store_load hword, copy_of_mem (by omega), Nat.sub_zero]
  · rw [store_of_not_mem hword]
    by_cases hlow : x < 4 * i
    · rw [copy_of_mem (by omega), copy_of_mem (by omega)]
    · rw [copy_of_not_mem (by omega), copy_of_not_mem (by omega)]

/-- Behind `writeblock` only the bytes of the block are new. -/
theorem writeblock_ne {disk : Disk} {b b' x : ℕ} (hne : Fs.writeblock disk b buf b' x ≠ disk b' x) :
    b' = b ∧ x < blockSize := by
  by_cases hb : b' = b
  · subst hb
    refine ⟨rfl, ?_⟩
    by_contra hx
    refine hne ?_
    rw [Fs.writeblock, Function.update_self]
    exact copy_of_not_mem (by omega)
  · exact absurd (congrFun (writeblock_of_ne disk hb buf) x) hne

theorem follows_writePlan (h : Serves d isHcs view) (b : ℕ) (buf : Mem) :
    (writePlan b buf).Follows d isHcs view writeSingleBlock b (setWord d) where
  start c c' hbusy htransfer hsize hcnt harg hset := by
    have hzero : copy (c.disk b) 0 buf (4 * 0) = c.disk b := by
      funext x
      exact copy_of_not_mem (by omega)
    rw [((hset hbusy).2 htransfer hsize hcnt).2 rfl, harg]
    show _ = { c with transfer := .write b (copy (c.disk b) 0 buf (4 * 0)) 0, busy := true, ready := false }
    rw [hzero]
  writes _ _ _ hw := hw
  isOpen _ _ := Iff.rfl
  disk_zero _ := rfl
  acc_zero _ _ _ := trivial
  move old f i a s hi hs hready := by
    obtain ⟨c, hf, herr, hword⟩ := h.set .data (BitVec.ofNat 32 (load a (4 * i) 4)) s
    have hc := hs.phase.fault hf
    have hinv : a = buf := hs.inv
    cases hcerr : c.err with
    | true =>
      refine ⟨?_, ?_, hinv, fun _ => trivial⟩
      · show (view (d.set .data _ s)).Phase _ _ _ _ _
        rw [herr hcerr]
        exact ⟨hc.toSpares, fun hclean => by rw [hcerr] at hclean; cases hclean⟩
      · show (view (d.set .data _ s)).busy = false
        rw [herr hcerr, hf.busy, hs.busy]
    | false =>
      obtain rfl := hf.eq_of_err_eq_false hcerr
      obtain ⟨htransfer, hdisk⟩ := hc.clean hcerr
      have hdisk : (view s).disk = old := hdisk.trans (if_neg (by omega))
      have hpush := hword b (copy (old b) 0 buf (4 * i)) i hcerr (hready hcerr) htransfer hi
      have hstaged := store_copy (old b) buf i
      rw [← hinv] at hstaged hpush
      have hdisk' : (view (d.set .data (BitVec.ofNat 32 (load a (4 * i) 4)) s)).disk =
          (writePlan b buf).disk old (i + 1) := by
        rw [hpush]
        show (if i = 127 then _ else _) = if i + 1 = 128 then _ else _
        by_cases hlast : i = 127
        · rw [if_pos hlast, if_pos (by omega), hstaged, hdisk, hlast, hinv]
          rfl
        · rw [if_neg hlast, if_neg (by omega), hdisk]
      refine ⟨⟨⟨?_, ?_, ?_⟩, fun _ => ⟨?_, hdisk'⟩⟩, ?_, hinv, fun _ => trivial⟩
      · show (view (d.set .data _ s)).budget ≤ f
        rw [hpush]
        exact hc.budget
      · show ∀ b', (view (d.set .data _ s)).transfer.Writes b' → _
        rw [hpush]
        exact fun b' hw => hw
      · show ∀ b' x, (view (d.set .data _ s)).disk b' x ≠ old b' x → _
        rw [hdisk']
        intro b' x hne
        have hne : (if i + 1 = 128 then Fs.writeblock old b buf else old) b' x ≠ old b' x := hne
        split_ifs at hne with hlast
        · exact writeblock_ne hne
        · exact absurd rfl hne
      · show (view (d.set .data _ s)).transfer = _
        rw [hpush]
        show Transfer.write b (store _ _ _ _) (i + 1) = Transfer.write b (copy (old b) 0 buf _) (i + 1)
        rw [hstaged, hinv]
      · show (view (d.set .data _ s)).busy = false
        rw [hpush]
        exact hs.busy

/-! ## The block store -/

/-- The block of a card with byte addresses is one of those that `block_idx <<= 9` can address. -/
def Addressable (isHcs : Bool) (blockIdx : Word) : Prop := isHcs = false → blockIdx.toNat < 2 ^ 22

theorem blockOf_arg {blockIdx : Word} (hb : Addressable isHcs blockIdx) :
    blockOf isHcs (if isHcs then blockIdx else blockIdx <<< 9) = blockIdx.toNat := by
  unfold blockOf
  cases isHcs with
  | true => rfl
  | false =>
    have hlt := hb rfl
    show (blockIdx <<< 9).toNat / 512 = _
    rw [BitVec.toNat_shiftLeft, Nat.shiftLeft_eq]
    omega

/-- `readblock` reads the block of the disk. -/
theorem readblock_spec (h : Serves d isHcs view) (hs : (view s).Idle) {blockIdx : Word}
    (hb : Addressable isHcs blockIdx) (buf : Mem) :
    ∃ s', (∃ n, ∀ fuel ≥ n, readblock d isHcs fuel blockIdx buf s =
        some (Fs.readblock (view s).disk blockIdx.toNat buf, s')) ∧
      (view s').Idle ∧ (view s').disk = (view s).disk := by
  obtain ⟨a', s', mid, ⟨n, hn⟩, hmid, hinv, hacc, hidle, hdisk⟩ :=
    (follows_readPlan h blockIdx.toNat buf).transferBlock h hs (fun _ _ => rfl) (blockOf_arg hb)
  have hmid : mid = (view s).disk := by
    funext b x
    by_contra hne
    exact (hmid b x hne).1
  subst hmid
  have hbuf : a' = Fs.readblock (view s).disk blockIdx.toNat buf := by
    funext x
    unfold Fs.readblock
    by_cases hx : x < blockSize
    · rw [copy_of_mem (by omega)]
      exact hacc x (by unfold blockSize at hx; omega)
    · rw [copy_of_not_mem (by omega)]
      exact hinv x (by omega)
  exact ⟨s', ⟨n, hbuf ▸ hn⟩, hidle, hdisk⟩

/-- `writeblock` writes it. -/
theorem writeblock_spec (h : Serves d isHcs view) (hs : (view s).Idle) {blockIdx : Word}
    (hb : Addressable isHcs blockIdx) (buf : Mem) :
    ∃ s', (∃ n, ∀ fuel ≥ n, writeblock d isHcs fuel blockIdx buf s = some (buf, s')) ∧
      (view s').Idle ∧ (view s').disk = Fs.writeblock (view s).disk blockIdx.toNat buf := by
  obtain ⟨a', s', mid, ⟨n, hn⟩, hmid, hinv, -, hidle, hdisk⟩ :=
    (follows_writePlan h blockIdx.toNat buf).transferBlock h hs rfl (blockOf_arg hb)
  obtain rfl : a' = buf := hinv
  refine ⟨s', ⟨n, hn⟩, hidle, hdisk.trans ?_⟩
  show (if 128 = 128 then Fs.writeblock mid _ a' else mid) = _
  rw [if_pos rfl]
  -- the rounds that have failed have left nothing behind that is not written now
  funext b x
  by_cases hx : b = blockIdx.toNat ∧ x < blockSize
  · obtain ⟨rfl, hx⟩ := hx
    rw [Fs.writeblock, Fs.writeblock, Function.update_self, Function.update_self, copy_of_mem (by omega),
      copy_of_mem (by omega)]
  · have hkeep : ∀ disk : Disk, Fs.writeblock disk blockIdx.toNat a' b x = disk b x := by
      intro disk
      by_contra hne
      exact hx (writeblock_ne hne)
    rw [hkeep, hkeep]
    by_contra hne
    exact hx (hmid b x hne)

/-- A call to the driver. -/
inductive Call where
  | readblock (blockIdx : Word) (buf : Mem)
  | writeblock (blockIdx : Word) (buf : Mem)

namespace Call

def blockIdx : Call → Word
  | readblock b _ => b
  | writeblock b _ => b

/-- The buffer behind a call, and the state of the device. -/
def run (d : Device Reg Word σ) (isHcs : Bool) (fuel : ℕ) : Call → σ → Option (Mem × σ)
  | readblock b buf, s => Sd.readblock d isHcs fuel b buf s
  | writeblock b buf, s => Sd.writeblock d isHcs fuel b buf s

/-- The buffer behind a call, and the disk. -/
def onDisk (disk : Disk) : Call → Mem × Disk
  | readblock b buf => (Fs.readblock disk b.toNat buf, disk)
  | writeblock b buf => (buf, Fs.writeblock disk b.toNat buf)

/-- The buffers behind the calls of a run. -/
def runAll (d : Device Reg Word σ) (isHcs : Bool) (fuel : ℕ) : List Call → σ → Option (List Mem × σ)
  | [], s => some ([], s)
  | call :: calls, s => do
    let (buf, s) ← call.run d isHcs fuel s
    let (bufs, s) ← runAll d isHcs fuel calls s
    return (buf :: bufs, s)

def allOnDisk : List Call → Disk → List Mem × Disk
  | [], disk => ([], disk)
  | call :: calls, disk =>
    ((call.onDisk disk).1 :: (allOnDisk calls (call.onDisk disk).2).1, (allOnDisk calls (call.onDisk disk).2).2)

theorem run_spec (h : Serves d isHcs view) (hs : (view s).Idle) {call : Call}
    (hb : Addressable isHcs call.blockIdx) :
    ∃ s', (∃ n, ∀ fuel ≥ n, call.run d isHcs fuel s = some ((call.onDisk (view s).disk).1, s')) ∧
      (view s').Idle ∧ (view s').disk = (call.onDisk (view s).disk).2 := by
  cases call with
  | readblock b buf => exact readblock_spec h hs hb buf
  | writeblock b buf => exact writeblock_spec h hs hb buf

end Call

/-- On every device that is a card, whatever errors it flags, the calls of every run come back, and they
    read and write what they would on the disk of the file system. -/
theorem block_store (h : Serves d isHcs view) (hs : (view s).Idle) (calls : List Call)
    (hb : ∀ call ∈ calls, Addressable isHcs call.blockIdx) :
    ∃ s', (∃ n, ∀ fuel ≥ n,
        Call.runAll d isHcs fuel calls s = some ((Call.allOnDisk calls (view s).disk).1, s')) ∧
      (view s').Idle ∧ (view s').disk = (Call.allOnDisk calls (view s).disk).2 := by
  induction calls generalizing s with
  | nil => exact ⟨s, ⟨0, fun _ _ => rfl⟩, hs, rfl⟩
  | cons call calls ih =>
    obtain ⟨s₁, ⟨n₁, hn₁⟩, hidle₁, hdisk₁⟩ := Call.run_spec h hs (hb call List.mem_cons_self)
    obtain ⟨s', ⟨n, hn⟩, hidle, hdisk⟩ := ih hidle₁ fun c hc => hb c (List.mem_cons_of_mem _ hc)
    rw [hdisk₁] at hn hdisk
    refine ⟨s', ⟨max n₁ n, fun fuel hfuel => ?_⟩, hidle, hdisk⟩
    rw [Call.runAll, hn₁ fuel (by omega), Option.bind_eq_bind, Option.bind_some]
    dsimp only
    rw [hn fuel (by omega)]
    rfl

/-- What a card makes of a word. -/
def flakyPush (v : Word) (c : Card) : Card :=
  match c.transfer with
  | .write b m i => if c.err then c else c.push b m i v
  | _ => c

/-- A card that is always ready, and that makes its errors at the loads of words. -/
def flakyCard : Device Reg Word Card where
  get
    | .cmd, c => (0, { c with busy := false })
    | .hsts, c => (if c.err then 9 else 1, { c with ready := true })
    | .dbg, c => (1, { c with transfer := .none })
    | .data, c =>
      match c.faults, c.transfer with
      | n + 1, _ => (0, { c with err := true, faults := n })
      | 0, .read b i =>
        if c.err then (0, c)
        else (BitVec.ofNat 32 (load (c.disk b) (4 * i) 4),
          { c with transfer := .read b (i + 1), ready := false })
      | 0, _ => (0, c)
    | _, c => (0, c)
  set
    | .arg, v, c => { c with arg := v }
    | .size, v, c => { c with size := v }
    | .cnt, v, c => { c with cnt := v }
    | .hsts, _, c => { c with err := false }
    | .dbg, _, c => c
    | .cmd, v, c =>
      { c with
        transfer :=
          if v = readSingleBlock ||| newCmd then .read (blockOf false c.arg) 0
          else if v = writeSingleBlock ||| newCmd then
            .write (blockOf false c.arg) (c.disk (blockOf false c.arg)) 0
          else .none
        busy := true
        ready := false }
    | .data, v, c => flakyPush v c

theorem flakyCard_loads (r : Reg) (c : Card) :
    ∃ c₁, Fault r c c₁ ∧ c₁.Loads r (flakyCard.value r c) (flakyCard.look r c) := by
  cases r with
  | cmd => exact ⟨c, .none, (if_pos (by decide : taken 0 = true)).symm⟩
  | arg => exact ⟨c, .none, trivial⟩
  | size => exact ⟨c, .none, trivial⟩
  | cnt => exact ⟨c, .none, trivial⟩
  | dbg => exact ⟨c, .none, (if_pos (by decide : finished 1 = true)).symm⟩
  | hsts =>
    refine ⟨c, .none, ?_, ?_⟩
    · show hasError (if c.err then 9 else 1) = c.err
      cases c.err <;> rfl
    · show { c with ready := true } = { c with ready := hasData (if c.err then 9 else 1) }
      cases c.err <;> rfl
  | data =>
    obtain ⟨disk, arg, size, cnt, transfer, busy, ready, err, faults⟩ := c
    cases faults with
    | succ n =>
      exact ⟨_, .raise (by decide) rfl fun b x hne => absurd rfl hne, fun _ => rfl,
        fun _ _ h => by cases h⟩
    | zero =>
      refine ⟨_, .none, fun herr => ?_, fun b i herr _ htransfer _ => ?_⟩
      · cases herr
        cases transfer <;> rfl
      · cases herr
        cases htransfer
        refine ⟨?_, rfl⟩
        show (BitVec.ofNat 32 (load (disk b) (4 * i) 4)).toNat = _
        rw [BitVec.toNat_ofNat]
        exact Nat.mod_eq_of_lt ((load_lt _ _ _).trans_eq (by norm_num))

theorem flakyCard_stores (r : Reg) (v : Word) (c : Card) : c.Stores false r v (flakyCard.set r v c) := by
  cases r with
  | cmd =>
    refine fun _ => ⟨fun hv => ?_, fun _ _ _ => ⟨fun hv => ?_, fun hv => ?_⟩⟩ <;> subst hv <;> rfl
  | data =>
    refine ⟨fun herr => ?_, fun b m i herr _ htransfer _ => ?_⟩
    · show flakyPush v c = c
      unfold flakyPush
      split
      · rw [if_pos herr]
      · rfl
    · show flakyPush v c = _
      unfold flakyPush
      rw [htransfer, herr]
      rfl
  | hsts => exact fun _ => rfl
  | dbg => trivial
  | _ => rfl

theorem serves_flakyCard : Serves flakyCard false id where
  get := flakyCard_loads
  set r v c := ⟨c, .none, flakyCard_stores r v c⟩
  accepts _ := ⟨0, by unfold waitCnt; omega, (by decide : taken 0 = true)⟩
  delivers c _ _ := by
    refine ⟨0, by unfold waitCnt; omega, .inl ?_⟩
    show hasData (if c.err then 9 else 1) = true
    cases c.err <;> rfl
  finishes _ _ := ⟨0, (by decide : finished 1 = true)⟩

/-- A block is written and read back, over two errors. -/
theorem block_store_flaky : ∃ s' : Card, (∃ n, ∀ fuel ≥ n,
      Call.runAll flakyCard false fuel [.writeblock 7 fun _ => 1, .readblock 7 fun _ => 0]
        ⟨fun _ _ => 0, 0, 0, 0, .none, false, false, false, 2⟩ =
      some ((Call.allOnDisk [.writeblock 7 fun _ => 1, .readblock 7 fun _ => 0] fun _ _ => 0).1, s')) ∧
    s'.Idle ∧
      s'.disk = (Call.allOnDisk [.writeblock 7 fun _ => 1, .readblock 7 fun _ => 0] fun _ _ => 0).2 :=
  block_store serves_flakyCard ⟨rfl, rfl⟩ _ (by
    intro call hcall hmode
    simp only [List.mem_cons, List.not_mem_nil, or_false] at hcall
    rcases hcall with rfl | rfl <;> decide)

end RaspiKernel.Sd
