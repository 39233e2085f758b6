import RaspiKernel.Mm.Leftover

/-!
# The guard of `free_one_page`

`free_one_page` accepts a page whose flags are `PG_USED`. An allocation sets the
flag on the page it returns. A free clears it if that page is the first page of
the merged block, because `set_buddy_order` overwrites it there. But when the
block is merged into a buddy before it, the first page of the merged block is
another one, and the freed page keeps `PG_USED`: it can be freed once more.

`MergesDown` is that case, as a condition on the state before the free.

Results:
* `freeLoop_head`: a free that does not merge down clears the flag.
* `careful_guard`: in runs without such a free, the guard rejects every page that
  is not the head of a live block.
* `merged_page_freed_twice`: two pages, freed in the order of their numbers, and
  the second one again.
-/

namespace RaspiKernel.Mm

open Lib
open Memblock (Region)

/-! ## Merging down -/

/-- The block of order `k` at `p` is merged with free buddies behind it up to order `a`, and then
    with a free buddy before it. -/
def MergesDown (s : MmState) (p k : ℕ) : Prop :=
  ∃ a < maxOrder - 1, k ≤ a ∧ p.testBit a ∧ pageIsBuddy (s.memMap (findBuddyPfn p a)) a ∧
    ∀ j < a, k ≤ j → ¬ p.testBit j ∧ pageIsBuddy (s.memMap (findBuddyPfn p j)) j

instance (s : MmState) (p k : ℕ) : Decidable (MergesDown s p k) :=
  inferInstanceAs (Decidable (∃ a < maxOrder - 1, _))

/-- A buddy before the block. -/
theorem land_buddy_of_testBit {p k : ℕ} (h : ¬ p.testBit k) : findBuddyPfn p k &&& p = p := by
  rcases land_xor_two_pow p k with heq | heq
  · exact heq
  · exfalso
    -- the buddy has bit `k`, the page has not
    have hbit := congrArg (Nat.testBit · k) heq
    simp only [Nat.one_shiftLeft, Nat.testBit_and, Nat.testBit_xor, Nat.testBit_two_pow] at hbit
    simp [h] at hbit

/-- Merging with a free buddy behind the block does not change whether it merges down. -/
theorem MergesDown.of_succ {s : MmState} {p k : ℕ} (hup : ¬ p.testBit k)
    (hbud : pageIsBuddy (s.memMap (findBuddyPfn p k)) k = true) (h : MergesDown s p (k + 1)) :
    MergesDown s p k := by
  obtain ⟨a, ha, hka, hbit, hfree, hall⟩ := h
  refine ⟨a, ha, by omega, hbit, hfree, fun j hja hkj => ?_⟩
  rcases Nat.eq_or_lt_of_le hkj with rfl | hlt
  · exact ⟨hup, hbud⟩
  · exact hall j hja hlt

/-- A free that does not merge down marks the page it was called with. -/
theorem freeLoop_head (rem : ℕ) : ∀ {s s' : MmState} {p k : ℕ}, rem + k = maxOrder - 1 →
    ¬ MergesDown s p k → freeLoop rem s p p k = .ok s' → (s'.memMap p).flags = PG_buddy := by
  have hadd : ∀ (s : MmState) (p k : ℕ),
      ((addToFreeArea (setBuddyOrder s p k) p k).memMap p).flags = PG_buddy := by
    intro s p k
    rw [addToFreeArea_memMap, setBuddyOrder_eq, setPage_memMap, Function.update_self]
  induction rem with
  | zero =>
    intro s s' p k _ _ h
    rw [← Except.ok.inj h]
    exact hadd s p k
  | succ rem ih =>
    intro s s' p k hrem hdown h
    rw [freeLoop_succ] at h
    by_cases hbud : pageIsBuddy (s.memMap (findBuddyPfn p k)) k = true
    · rw [if_pos hbud] at h
      obtain ⟨s₁, hdel, h⟩ := bind_eq_ok.mp h
      have hup : ¬ p.testBit k := by
        intro hbit
        exact hdown ⟨k, by omega, le_rfl, hbit, hbud, fun j hj hkj => by omega⟩
      rw [land_buddy_of_testBit hup] at h
      refine ih (by omega) (fun hdown₁ => hdown ?_) h
      rw [MergesDown, delPage_memMap hdel] at hdown₁
      exact MergesDown.of_succ hup hbud hdown₁
    · rw [if_neg hbud] at h
      rw [← Except.ok.inj h]
      exact hadd s p k

/-! ## Runs -/

/-- The block that the call frees does not merge down. -/
def Op.StaysUp (σ : System) : Op → Prop
  | .alloc _ => True
  | .free i => ∀ b, σ.live[i]? = some b → ¬ MergesDown σ.mm b.start b.order

/-- Any sequence of calls in which no block merges down. -/
inductive CarefulRun (rgns : List Region) (nrPages : ℕ) : System → Prop where
  | init {σ : System} (h : System.boot rgns nrPages = .ok σ) : CarefulRun rgns nrPages σ
  | step {σ σ' : System} (hσ : CarefulRun rgns nrPages σ) {op : Op} (hop : op.StaysUp σ)
      (h : σ.exec op = .ok σ') : CarefulRun rgns nrPages σ'

/-- Only heads of live blocks are marked as used, and live blocks have orders of the system. -/
structure Marked (σ : System) : Prop where
  used : ∀ x, (σ.mm.memMap x).flags = PG_USED → ∃ b ∈ σ.live, b.start = x
  order : ∀ b ∈ σ.live, b.order < maxOrder

section Marked

variable {σ σ' : System}

theorem boot_marked {rgns : List Region} {nrPages : ℕ} (h : System.boot rgns nrPages = .ok σ) :
    Marked σ := by
  refine ⟨fun x hx => ?_, fun b hb => ?_⟩
  · have hflags := boot_flags h x
    rw [hx] at hflags
    exact absurd hflags (by decide)
  · obtain ⟨mm, -, hmm⟩ := bind_eq_ok.mp h
    obtain rfl := Except.ok.inj hmm
    cases hb

theorem Marked.alloc (h : Marked σ) {order : ℕ} (hexec : σ.exec (.alloc order) = .ok σ') :
    Marked σ' := by
  obtain ⟨⟨r, mm⟩, halloc, hrest⟩ := bind_eq_ok.mp hexec
  obtain ⟨s₁, hs₁, hflags⟩ := rmqueueLoop_flags _ _ halloc
  have hold : ∀ x, r ≠ some x → (mm.memMap x).flags = PG_USED → ∃ b ∈ σ.live, b.start = x := by
    intro x hr hx
    rcases hflags x with ⟨-, he⟩ | ⟨he, -⟩
    · exact h.used x (hs₁.flags (by decide) (he ▸ hx))
    · exact absurd he hr
  cases r with
  | none =>
    obtain rfl := Except.ok.inj hrest
    exact ⟨fun x hx => hold x (by simp) hx, h.order⟩
  | some page =>
    obtain rfl := Except.ok.inj hrest
    refine ⟨fun x hx => ?_, fun b hb => ?_⟩
    · by_cases hxp : x = page
      · exact ⟨⟨page, order⟩, List.mem_cons_self, hxp.symm⟩
      · obtain ⟨b, hb, hbx⟩ := hold x (fun he => hxp (Option.some.inj he).symm) hx
        exact ⟨b, List.mem_cons_of_mem _ hb, hbx⟩
    · rcases List.mem_cons.mp hb with rfl | hb
      · by_contra hlt
        have h0 : maxOrder - order = 0 := by simp only at hlt; omega
        simp [allocPages, rmqueue, rmqueueSmallest, h0, rmqueueLoop] at halloc
      · exact h.order b hb

theorem Marked.free (h : Marked σ) {i : ℕ} (hup : Op.StaysUp σ (.free i))
    (hexec : σ.exec (.free i) = .ok σ') : Marked σ' := by
  simp only [System.exec] at hexec
  cases hi : σ.live[i]? with
  | none =>
    rw [hi] at hexec
    obtain rfl := Except.ok.inj hexec
    exact h
  | some b =>
    rw [hi] at hexec
    obtain ⟨mm, hfree, hrest⟩ := bind_eq_ok.mp hexec
    obtain rfl := Except.ok.inj hrest
    have hb := h.order b (List.mem_of_getElem? hi)
    unfold freeOnePage at hfree
    split_ifs at hfree
    have hhead := freeLoop_head _ (by omega) (hup b hi) hfree
    refine ⟨fun x hx => ?_, fun c hc => h.order c (List.mem_of_mem_eraseIdx hc)⟩
    obtain ⟨c, hc, rfl⟩ := h.used x ((onlyBuddy_freeLoop _ _ _ _ hfree).flags (by decide) hx)
    refine ⟨c, ?_, rfl⟩
    -- another block than the one that was freed
    have hne : c ≠ b := by
      rintro rfl
      exact absurd (hhead.symm.trans hx) (by decide)
    have hget : σ.live[i]? ≠ some c := by
      rw [hi]
      exact fun he => hne (Option.some.inj he).symm
    obtain ⟨j, hj⟩ := List.mem_iff_getElem?.mp hc
    refine List.mem_eraseIdx_iff_getElem?.mpr ⟨j, ?_, hj⟩
    rintro rfl
    exact hget hj

theorem Marked.exec (h : Marked σ) {op : Op} (hop : op.StaysUp σ) (hexec : σ.exec op = .ok σ') :
    Marked σ' := by
  cases op with
  | alloc order => exact h.alloc hexec
  | free i => exact h.free hop hexec

theorem CarefulRun.marked {rgns : List Region} {nrPages : ℕ} (h : CarefulRun rgns nrPages σ) :
    Marked σ := by
  induction h with
  | init h => exact boot_marked h
  | step hσ hop hexec ih => exact ih.exec hop hexec

end Marked

/-- **The guard.** In every state of a run in which no freed block merges down, `free_one_page`
    rejects every page that is not the head of a live block, with its error message and nothing
    changed, whatever the order. -/
theorem careful_guard {rgns : List Region} {nrPages : ℕ} {σ : System}
    (h : CarefulRun rgns nrPages σ) {pfn : ℕ} (hpfn : ∀ b ∈ σ.live, b.start ≠ pfn) (order : ℕ) :
    freeOnePage σ.mm pfn pfn order =
      .error (.notAllocated (pfn <<< pageShift) order (σ.mm.memMap pfn).flags) := by
  refine if_pos fun hused => ?_
  obtain ⟨b, hb, hbx⟩ := h.marked.used pfn hused
  exact hpfn b hb hbx

/-- Two pages are allocated and freed in the reverse order; then neither can be freed again. -/
theorem careful_guard_two : ∃ σ, CarefulRun [⟨0x2000, 0x1000⟩] 4 σ ∧
    freeOnePage σ.mm 1 1 0 = .error (.notAllocated (1 <<< pageShift) 0 (σ.mm.memMap 1).flags) := by
  have h₀ : CarefulRun [⟨0x2000, 0x1000⟩] 4 _ := .init rfl
  have h₁ := @CarefulRun.step _ _ _ _ h₀ (.alloc 0) trivial rfl
  have h₂ := @CarefulRun.step _ _ _ _ h₁ (.alloc 0) trivial rfl
  have h₃ := @CarefulRun.step _ _ _ _ h₂ (.free 0) (by intro b hb; cases hb; decide) rfl
  have h₄ := @CarefulRun.step _ _ _ _ h₃ (.free 0) (by intro b hb; cases hb; decide) rfl
  exact ⟨_, h₄, careful_guard h₄ (by decide) 0⟩

/-- Freed in the order of their numbers, the second page is merged into the first and keeps `PG_USED`:
    it is freed twice. -/
theorem merged_page_freed_twice : ∃ σ₀ σ s', System.boot [⟨0x2000, 0x1000⟩] 4 = .ok σ₀ ∧
    σ₀.run [.alloc 0, .alloc 0, .free 1, .free 0] = .ok σ ∧ (∀ b ∈ σ.live, b.start ≠ 1) ∧
    freeOnePage σ.mm 1 1 0 = .ok s' := by
  refine ⟨_, _, _, rfl, rfl, ?_, rfl⟩
  decide

end RaspiKernel.Mm
