import RaspiKernel.Mm.Boot

/-!
# What is left in the RAM of `mem_map`

`page_frame_init` does not clear the array that memblock hands out. The test for
`PG_RESERVED` and the test for a buddy read pages that have not been written yet.

Two runs over the same regions are followed in lockstep: one over any contents,
one over zeroes. They part in one of two places. A page whose old flags are
`PG_RESERVED` is passed over. And when the pages up to `x` have been merged into a
block that ends at `x`, its buddy starts with the page `x`, which has not been
reached: old contents that look like a free block make the code unlink a page that
is on no list.

Results:
* `flags_reserved_iff`: the second loop leaves `PG_RESERVED` alone.
* `freeLoop_lockstep`: the lockstep of one call of `__free_one_page`.
* `init_same_iff`: two runs have the same outcome exactly if their old contents
  differ in no page that is passed over, and neither run is led astray.
-/

namespace RaspiKernel.Mm

open Lib
open Memblock (Region)

/-- One round of the loop of `__free_one_page`, on a page that is its own frame number. -/
theorem freeLoop_succ (rem : ℕ) (s : MmState) (p k : ℕ) : freeLoop (rem + 1) s p p k =
    if pageIsBuddy (s.memMap (findBuddyPfn p k)) k then do
      let s ← delPageFromFreeArea s (findBuddyPfn p k) k
      freeLoop rem s (findBuddyPfn p k &&& p) (findBuddyPfn p k &&& p) (k + 1)
    else .ok (addToFreeArea (setBuddyOrder s p k) p k) := by
  rw [freeLoop, findBuddyPagePfn]
  simp only [Nat.add_sub_cancel_left]
  by_cases h : pageIsBuddy (s.memMap (findBuddyPfn p k)) k = true
  · rw [if_pos h, if_pos h]
  · rw [if_neg h, if_neg h]

/-! ## `PG_RESERVED` -/

theorem land_xor_two_pow (p k : ℕ) : (p ^^^ 1 <<< k) &&& p = p ∨
    (p ^^^ 1 <<< k) &&& p = p ^^^ 1 <<< k := by
  rw [Nat.one_shiftLeft]
  by_cases hbit : p.testBit k
  · right
    apply Nat.eq_of_testBit_eq
    intro j
    rw [Nat.testBit_and, Nat.testBit_xor, Nat.testBit_two_pow]
    by_cases hj : k = j
    · subst hj
      simp [hbit]
    · simp [hj]
  · left
    apply Nat.eq_of_testBit_eq
    intro j
    rw [Nat.testBit_and, Nat.testBit_xor, Nat.testBit_two_pow]
    by_cases hj : k = j
    · subst hj
      simp [hbit]
    · simp [hj]

/-- The end of `__free_one_page` does not touch a reserved page. -/
theorem add_flags {s : MmState} {p : ℕ} (hp : (s.memMap p).flags ≠ PG_RESERVED) (k x : ℕ) :
    ((addToFreeArea (setBuddyOrder s p k) p k).memMap x).flags = PG_RESERVED ↔
      (s.memMap x).flags = PG_RESERVED := by
  rw [addToFreeArea_memMap, setBuddyOrder_eq, setPage_memMap]
  by_cases hx : x = p
  · subst hx
    rw [Function.update_self]
    exact iff_of_false (show PG_buddy ≠ PG_RESERVED by decide) hp
  · rw [Function.update_of_ne hx]

theorem freeLoop_flags : ∀ (rem : ℕ) {s s' : MmState} {p k : ℕ}, freeLoop rem s p p k = .ok s' →
    (s.memMap p).flags ≠ PG_RESERVED →
    ∀ x, (s'.memMap x).flags = PG_RESERVED ↔ (s.memMap x).flags = PG_RESERVED := by
  intro rem
  induction rem with
  | zero =>
    intro s s' p k h hp x
    rw [← Except.ok.inj h]
    exact add_flags hp k x
  | succ rem ih =>
    intro s s' p k h hp x
    rw [freeLoop_succ] at h
    by_cases hbud : pageIsBuddy (s.memMap (findBuddyPfn p k)) k = true
    · rw [if_pos hbud] at h
      obtain ⟨s₁, hdel, hloop⟩ := bind_eq_ok.mp h
      have hmap := delPage_memMap hdel
      -- the merged block starts with the page or with its buddy
      have hstart : (s₁.memMap (findBuddyPfn p k &&& p)).flags ≠ PG_RESERVED := by
        rw [hmap]
        rcases land_xor_two_pow p k with heq | heq
        · rw [findBuddyPfn, heq]
          exact hp
        · rw [findBuddyPfn, heq]
          simp only [pageIsBuddy, Bool.and_eq_true, beq_iff_eq] at hbud
          rw [show p ^^^ 1 <<< k = findBuddyPfn p k from rfl, hbud.1]
          decide
      rw [ih hloop hstart x, hmap]
    · rw [if_neg hbud] at h
      rw [← Except.ok.inj h]
      exact add_flags hp k x

theorem initPage_flags {s s' : MmState} {i : ℕ} (h : initPage s i = .ok s') (x : ℕ) :
    (s'.memMap x).flags = PG_RESERVED ↔ (s.memMap x).flags = PG_RESERVED := by
  unfold initPage at h
  split at h
  · rw [← Except.ok.inj h]
  next hi =>
    have havail : ((s.setFlags i PG_AVAIL).memMap i).flags ≠ PG_RESERVED := by
      simp [MmState.setFlags]
    rw [freeLoop_flags _ h havail x]
    show ((Function.update s.memMap i _ x).flags = _) ↔ _
    by_cases hx : x = i
    · subst hx
      rw [Function.update_self]
      exact iff_of_false (show PG_AVAIL ≠ PG_RESERVED by decide) hi
    · rw [Function.update_of_ne hx]

theorem foldlM_initPage_flags {l : List ℕ} {s s' : MmState} (h : l.foldlM initPage s = .ok s')
    (x : ℕ) : (s'.memMap x).flags = PG_RESERVED ↔ (s.memMap x).flags = PG_RESERVED := by
  induction l generalizing s with
  | nil => rw [← Except.ok.inj h]
  | cons i l ih =>
    rw [List.foldlM_cons] at h
    obtain ⟨s₁, h₁, h⟩ := bind_eq_ok.mp h
    rw [ih h, initPage_flags h₁]

/-- The pages that are `PG_RESERVED` after `buddy_init`. -/
theorem flags_reserved_iff {c : ℕ → Page} {rgns : List Region} {n : ℕ} {s : MmState}
    (h : buddyInit c rgns n = .ok s) (x : ℕ) :
    (s.memMap x).flags = PG_RESERVED ↔ Reserved rgns x ∨ (c x).flags = PG_RESERVED := by
  rw [foldlM_initPage_flags h, (markReserved_spec rgns _).2]
  by_cases hx : Reserved rgns x
  · simp [hx]
  · simp [hx, buddyFreeAreaInit, MmState.boot]

/-! ## One call of `__free_one_page` -/

/-- A block and its buddy: the buddy is behind it, or before it. -/
theorem buddy_cases {p k : ℕ} (h : (⟨p, k⟩ : Block).Aligned) :
    (2 ^ (k + 1) ∣ p ∧ findBuddyPfn p k = p + 2 ^ k) ∨
      (2 ^ (k + 1) ∣ p + 2 ^ k ∧ findBuddyPfn p k + 2 ^ k = p ∧ findBuddyPfn p k &&& p =
        findBuddyPfn p k) := by
  have hbuddy : findBuddyPfn p k = (p / 2 ^ k ^^^ 1) * 2 ^ k := Block.buddy_start h
  have hparent : findBuddyPfn p k &&& p = p / 2 ^ k / 2 * 2 ^ (k + 1) := Block.parent_start h
  obtain ⟨m, rfl⟩ : 2 ^ k ∣ p := h
  rw [Nat.mul_div_cancel_left _ (Nat.two_pow_pos k), Block.xor_one_eq] at hbuddy
  rw [Nat.mul_div_cancel_left _ (Nat.two_pow_pos k)] at hparent
  rcases Nat.even_or_odd' m with ⟨t, rfl | rfl⟩
  · left
    refine ⟨⟨t, by ring⟩, ?_⟩
    rw [hbuddy, show 2 * t + 1 - 2 * (2 * t % 2) = 2 * t + 1 by omega]
    ring
  · right
    have ht : findBuddyPfn (2 ^ k * (2 * t + 1)) k = 2 * t * 2 ^ k := by
      rw [hbuddy, show 2 * t + 1 + 1 - 2 * ((2 * t + 1) % 2) = 2 * t by omega]
    refine ⟨⟨t + 1, by ring⟩, ?_, ?_⟩
    · rw [ht]
      ring
    · rw [hparent, ht, show (2 * t + 1) / 2 = t by omega]
      ring

/-- The pages before `x` are merged into a block of order `k` whose buddy starts with `x`, when the
    second loop of `page_frame_init` passes over the pages in `skip`. -/
def MergesTo (skip : ℕ → Prop) (x k : ℕ) : Prop :=
  2 ^ k ∣ x ∧ ¬ 2 ^ (k + 1) ∣ x ∧ ∀ y, x ≤ y + 2 ^ k → y < x → ¬ skip y

/-- A block is in hand that ends with page `i`, while page `i + 1` has not been reached. -/
structure Hand (n : ℕ) (rgns : List Region) (i : ℕ) (s : MmState) (tile : Tiles) (p k : ℕ) :
    Prop where
  inv : BuddyInv n s tile
  lt : p < n
  tile_eq : tile p = (.hand, ⟨p, k⟩)
  one : ∀ x < n, (tile x).1 = .hand → x ∈ (⟨p, k⟩ : Block)
  stop : p + 2 ^ k = i + 1
  unreserved : ∀ x ∈ (⟨p, k⟩ : Block), ¬ Reserved rgns x
  reserved : ∀ x < n, Reserved rgns x → (tile x).1 = .reserved
  done : ∀ x < p, ¬ Reserved rgns x → (tile x).1 = .free
  next : i + 1 < n ∧ (tile (i + 1)).1 ≠ .free

section

variable {n i p k : ℕ} {rgns : List Region} {s : MmState} {tile : Tiles}

theorem Hand.aligned (h : Hand n rgns i s tile p k) : (⟨p, k⟩ : Block).Aligned :=
  h.inv.tiling.aligned_of_tile h.lt h.tile_eq

/-- A block of unreserved pages before the block in hand is free as a whole. -/
theorem Hand.free_of_unreserved (h : Hand n rgns i s tile p k) (hk : k < maxOrder - 1)
    (hlow : findBuddyPfn p k + 2 ^ k = p)
    (hfree : ∀ y ∈ (⟨findBuddyPfn p k, k⟩ : Block), ¬ Reserved rgns y) :
    tile.Free (findBuddyPfn p k) k := by
  have hlt := h.lt
  have hpos := Nat.two_pow_pos k
  have hrun : ∀ x ∈ (⟨findBuddyPfn p k, k⟩ : Block), x < n ∧ (tile x).1 = .free := by
    intro x hx
    have hxp : x < p := by
      have := hx.2
      dsimp only at this
      omega
    exact ⟨by omega, h.done x hxp (hfree x hx)⟩
  have haligned : (⟨findBuddyPfn p k, k⟩ : Block).Aligned := Block.buddy_aligned h.aligned
  have hdvd : 2 ^ (k + 1) ∣ n := (pow_dvd_pow 2 (by omega)).trans h.inv.dvd
  obtain ⟨hbn, hstart, hle⟩ := h.inv.tiling.buddy_tile (b := ⟨p, k⟩) h.lt h.tile_eq hdvd
  have hge := h.inv.tiling.order_le_of_run (t := .free) (K := maxOrder - 1)
    (fun c hc hc' hck ht => h.inv.coalesced c.start hc c.order hck hc' ht) _ haligned
    (by dsimp only; omega) hrun
  refine Prod.ext (hrun _ (Block.start_mem _)).2 (Block.ext hstart ?_)
  exact le_antisymm hle hge

/-- The buddy behind the block has not been reached. -/
theorem Hand.not_free_next (h : Hand n rgns i s tile p k) (j : ℕ) : ¬ tile.Free (i + 1) j := by
  intro hfree
  exact h.next.2 (congrArg Prod.fst hfree)

/-- Merging with a free buddy before the block. -/
theorem Hand.merge (h : Hand n rgns i s tile p k) (hk : k < maxOrder - 1)
    (hlow : findBuddyPfn p k + 2 ^ k = p) (hand : findBuddyPfn p k &&& p = findBuddyPfn p k)
    (hfree : tile.Free (findBuddyPfn p k) k) :
    ∃ s' tile', delPageFromFreeArea s (findBuddyPfn p k) k = .ok s' ∧ s'.memMap = s.memMap ∧
      Hand n rgns i s' tile' (findBuddyPfn p k) (k + 1) := by
  have hlt := h.lt
  have hpos := Nat.two_pow_pos k
  obtain ⟨s₁, tile₁, hdel, hm⟩ := h.inv.merge hk hlt h.tile_eq (by omega) hfree
  have hone := hm.one h.one
  have hhead := hm.head
  obtain ⟨h₁, hmm, hbn, hmp, htile⟩ := hm
  rw [hand] at hbn hmp htile hone hhead
  set q := findBuddyPfn p k with hq
  have hout : ∀ x < q, x ∉ (⟨q, k + 1⟩ : Block) := by
    intro x hx hxm
    exact absurd hxm.1 (Nat.not_le.mpr hx)
  have hstop : q + 2 ^ (k + 1) = i + 1 := by
    have := h.stop
    rw [pow_succ]
    omega
  have hunres : ∀ x ∈ (⟨q, k + 1⟩ : Block), ¬ Reserved rgns x := by
    intro x hx hr
    rcases (hmp x).mp hx with hx | hx
    · exact h.unreserved x hx hr
    · obtain ⟨hxn, hxt⟩ := h.inv.tiling.tile_eq_of_mem (b := ⟨q, k⟩) hbn hfree hx
      have := h.reserved x hxn hr
      rw [hxt] at this
      cases this
  refine ⟨s₁, tile₁, hdel, hmm, h₁, hbn, hhead, hone, hstop, hunres, ?_, ?_, h.next.1, ?_⟩
  · intro x hx hr
    rw [htile, if_neg fun hxm => hunres x hxm hr]
    exact h.reserved x hx hr
  · intro x hx hr
    rw [htile, if_neg (hout x hx)]
    exact h.done x (by omega) hr
  · have hnext : i + 1 ∉ (⟨q, k + 1⟩ : Block) := by
      intro hm
      have := hm.2
      dsimp only at this
      omega
    rw [htile, if_neg hnext]
    exact h.next.2

/-- Two states look the same up to page `i`: the flags, and the order of what is marked as the start
    of a free block. -/
structure Agree (i : ℕ) (s s₀ : MmState) : Prop where
  area : s.freeArea = s₀.freeArea
  flags : ∀ x ≤ i, (s.memMap x).flags = (s₀.memMap x).flags
  priv : ∀ x ≤ i, (s₀.memMap x).flags = PG_buddy → (s.memMap x).priv = (s₀.memMap x).priv

theorem Agree.pageIsBuddy_eq {s₀ : MmState} (h : Agree i s s₀) {x : ℕ} (hx : x ≤ i) (k : ℕ) :
    pageIsBuddy (s.memMap x) k = pageIsBuddy (s₀.memMap x) k := by
  unfold pageIsBuddy
  rw [h.flags x hx]
  by_cases hb : (s₀.memMap x).flags = PG_buddy
  · rw [h.priv x hx hb]
  · have hno : ((s₀.memMap x).flags == PG_buddy) = false := beq_false_of_ne hb
    rw [hno, Bool.false_and, Bool.false_and]

/-- Both states put the block on its list. -/
theorem Agree.add {s₀ : MmState} (h : Agree i s s₀) (p k : ℕ) :
    Agree i (addToFreeArea (setBuddyOrder s p k) p k) (addToFreeArea (setBuddyOrder s₀ p k) p k) := by
  refine ⟨?_, ?_, ?_⟩
  · simp [setBuddyOrder_eq, h.area]
  · intro x hx
    by_cases hxp : x = p
    · subst hxp
      simp [setBuddyOrder_eq]
    · simpa [setBuddyOrder_eq, Function.update_of_ne hxp] using h.flags x hx
  · intro x hx
    by_cases hxp : x = p
    · subst hxp
      simp [setBuddyOrder_eq]
    · simpa [setBuddyOrder_eq, Function.update_of_ne hxp] using h.priv x hx

theorem add_memMap_of_ne {s : MmState} {p x : ℕ} (hx : x ≠ p) (k : ℕ) :
    (addToFreeArea (setBuddyOrder s p k) p k).memMap x = s.memMap x := by
  simp [setBuddyOrder_eq, Function.update_of_ne hx]

theorem Agree.del {s₀ s₀' : MmState} (h : Agree i s s₀) {q k : ℕ}
    (hdel : delPageFromFreeArea s₀ q k = .ok s₀') :
    ∃ s', delPageFromFreeArea s q k = .ok s' ∧ s'.memMap = s.memMap ∧ Agree i s' s₀' := by
  unfold delPageFromFreeArea at hdel ⊢
  dsimp only at hdel ⊢
  rw [h.area]
  split at hdel
  next hmem =>
    rw [← Except.ok.inj hdel, if_pos hmem]
    exact ⟨_, rfl, rfl, rfl, h.flags, h.priv⟩
  · cases hdel

/-- The page `x` looks like a free block of the order that its buddy has when it is merged. -/
def Stale (skip : ℕ → Prop) (page : Page) (x : ℕ) : Prop :=
  ∃ k < maxOrder - 1, MergesTo skip x k ∧ pageIsBuddy page k = true

/-- The order of a merge is determined by its end. -/
theorem mergesTo_unique {skip : ℕ → Prop} {x j : ℕ} (h : MergesTo skip x j) (hk : 2 ^ k ∣ x)
    (hk' : ¬ 2 ^ (k + 1) ∣ x) : j = k := by
  obtain ⟨hj, hj', -⟩ := h
  rcases Nat.lt_trichotomy j k with hlt | heq | hgt
  · exact absurd ((pow_dvd_pow 2 hlt).trans hk) hj'
  · exact heq
  · exact absurd ((pow_dvd_pow 2 hgt).trans hj) hk'

/-- If the buddy of the block in hand is the page behind, the pages of the block merge up to it. -/
theorem Hand.mergesTo (h : Hand n rgns i s tile p k) (heven : 2 ^ (k + 1) ∣ p) :
    MergesTo (Reserved rgns) (i + 1) k := by
  have hstop := h.stop
  have hpos := Nat.two_pow_pos k
  refine ⟨?_, ?_, fun y hy hyi => h.unreserved y ⟨?_, ?_⟩⟩
  · rw [← hstop]
    exact Dvd.dvd.add h.aligned dvd_rfl
  · rw [← hstop, Nat.dvd_add_right heven]
    intro hd
    have := Nat.le_of_dvd hpos hd
    rw [pow_succ] at this
    omega
  · dsimp only
    omega
  · dsimp only
    omega

/-- A merge up to the page behind needs the buddy before the block in hand. -/
theorem Hand.free_of_mergesTo (h : Hand n rgns i s tile p k) (hk : k < maxOrder - 1)
    (hodd : 2 ^ (k + 1) ∣ p + 2 ^ k) (hlow : findBuddyPfn p k + 2 ^ k = p) {j : ℕ}
    (hj : MergesTo (Reserved rgns) (i + 1) j) : tile.Free (findBuddyPfn p k) k := by
  have hstop := h.stop
  obtain ⟨-, hj', hres⟩ := hj
  have hkj : k < j := by
    by_contra hle
    rw [hstop] at hodd
    exact hj' ((pow_dvd_pow 2 (by omega)).trans hodd)
  have hpow : 2 ^ (k + 1) ≤ 2 ^ j := Nat.pow_le_pow_right (by norm_num) hkj
  rw [pow_succ] at hpow
  refine h.free_of_unreserved hk hlow fun y hy => hres y ?_ ?_
  · have := hy.1
    dsimp only at this
    omega
  · have := hy.2
    dsimp only at this
    omega

/-- `__free_one_page` in two states that agree up to the page that is freed, where the second is over a
    cleared `mem_map`. In the first, it stops at the page behind if that page is stale. Otherwise they
    do the same. -/
theorem freeLoop_lockstep : ∀ (rem : ℕ) {s s₀ : MmState} {tile : Tiles} {p k : ℕ},
    rem + k = maxOrder - 1 → Hand n rgns i s₀ tile p k → Agree i s s₀ →
    (Stale (Reserved rgns) (s.memMap (i + 1)) (i + 1) → ∃ e, freeLoop rem s p p k = .error e) ∧
    (¬ Stale (Reserved rgns) (s.memMap (i + 1)) (i + 1) → ∃ s' s₀', freeLoop rem s p p k = .ok s' ∧
      freeLoop rem s₀ p p k = .ok s₀' ∧ Agree i s' s₀' ∧ ∀ x > i, s'.memMap x = s.memMap x) := by
  intro rem
  induction rem with
  | zero =>
    intro s s₀ tile p k hrem h hagree
    have hstop := h.stop
    have hpos := Nat.two_pow_pos k
    refine ⟨?_, fun _ => ⟨_, _, rfl, rfl, hagree.add p k, fun x hx => ?_⟩⟩
    · -- a block of the largest order has no buddy
      rintro ⟨j, hj, ⟨-, hj', -⟩, -⟩
      have hdvd : 2 ^ k ∣ i + 1 := by
        rw [← hstop]
        exact Dvd.dvd.add h.aligned dvd_rfl
      exact absurd ((pow_dvd_pow 2 (by omega)).trans hdvd) hj'
    · exact add_memMap_of_ne (by omega) k
  | succ rem ih =>
    intro s s₀ tile p k hrem h hagree
    have hk : k < maxOrder - 1 := by omega
    have hstop := h.stop
    have hpos := Nat.two_pow_pos k
    obtain ⟨hbn, hbud⟩ := h.inv.pageIsBuddy_iff hk h.lt h.tile_eq h.one
    rw [freeLoop_succ, freeLoop_succ]
    rcases buddy_cases h.aligned with ⟨heven, hup⟩ | ⟨hodd, hlow, hand⟩
    · -- the buddy is the page behind
      rw [hup, hstop] at hbud ⊢
      have hno : ¬ pageIsBuddy (s₀.memMap (i + 1)) k = true := by
        rw [hbud]
        exact h.not_free_next k
      have hmerges := h.mergesTo heven
      rw [if_neg hno]
      by_cases hst : pageIsBuddy (s.memMap (i + 1)) k = true
      · refine ⟨fun _ => ?_, fun hns => absurd ⟨k, hk, hmerges, hst⟩ hns⟩
        -- the page is on no list
        have hmem : i + 1 ∉ (s.freeArea k).freeList := by
          rw [hagree.area, h.inv.free_iff k (by omega)]
          exact fun hf => h.not_free_next k hf.2
        rw [if_pos hst]
        exact ⟨.notLinked (i + 1) k, by rw [delPageFromFreeArea, if_neg hmem]; rfl⟩
      · refine ⟨?_, fun _ => ⟨_, _, by rw [if_neg hst], rfl, hagree.add p k, fun x hx => ?_⟩⟩
        · rintro ⟨j, -, hj, hjb⟩
          rw [mergesTo_unique hj hmerges.1 hmerges.2.1] at hjb
          exact absurd hjb hst
        · exact add_memMap_of_ne (by omega) k
    · have hsame := hagree.pageIsBuddy_eq (show findBuddyPfn p k ≤ i by omega) k
      rw [hsame]
      by_cases hfree : tile.Free (findBuddyPfn p k) k
      · obtain ⟨s₀₁, tile₁, hdel₀, hmm₀, hand₁⟩ := h.merge hk hlow hand hfree
        obtain ⟨s₁, hdel, hmm, hagree₁⟩ := hagree.del hdel₀
        obtain ⟨herr, hok⟩ := ih (by omega) hand₁ hagree₁
        rw [if_pos (hbud.mpr hfree), if_pos (hbud.mpr hfree), hdel, hdel₀, hand]
        rw [hmm] at herr hok
        exact ⟨herr, hok⟩
      · rw [if_neg (mt hbud.mp hfree), if_neg (mt hbud.mp hfree)]
        refine ⟨?_, fun _ => ⟨_, _, rfl, rfl, hagree.add p k, fun x hx => ?_⟩⟩
        · -- a merge up to the page behind would need the buddy
          rintro ⟨j, -, hj, -⟩
          exact absurd (h.free_of_mergesTo hk hodd hlow hj) hfree
        · exact add_memMap_of_ne (by omega) k

end

/-! ## The second loop of `page_frame_init` -/

/-- `mem_map[x]` after the first loop. -/
def marked (rgns : List Region) (c : ℕ → Page) (x : ℕ) : Page :=
  (markReserved rgns (buddyFreeAreaInit (MmState.boot c))).memMap x

theorem marked_of_reserved {rgns : List Region} (c : ℕ → Page) {x : ℕ} (hx : Reserved rgns x) :
    (marked rgns c x).flags = PG_RESERVED := by
  rw [marked, (markReserved_spec rgns _).2, if_pos hx]

theorem marked_of_not {rgns : List Region} (c : ℕ → Page) {x : ℕ} (hx : ¬ Reserved rgns x) :
    marked rgns c x = c x := by
  rw [marked, (markReserved_spec rgns _).2, if_neg hx]
  rfl

/-- Before round `i`, the states of two runs over the same regions: `s` over the contents `c`. -/
structure Sim (rgns : List Region) (c : ℕ → Page) (i : ℕ) (s s₀ : MmState) : Prop where
  area : s.freeArea = s₀.freeArea
  flags : ∀ x < i, (s.memMap x).flags = (s₀.memMap x).flags
  priv : ∀ x < i, (s₀.memMap x).flags = PG_buddy → (s.memMap x).priv = (s₀.memMap x).priv
  rest : ∀ x ≥ i, s.memMap x = marked rgns c x

section

variable {n i : ℕ} {rgns : List Region} {c : ℕ → Page} {s s₀ : MmState} {tile : Tiles}

/-- The page of round `i` as the block in hand. -/
theorem InitInv.hand (hi : i + 1 < n) (h : InitInv n rgns i s tile) (hr : ¬ Reserved rgns i) :
    Hand n rgns i (s.setFlags i PG_AVAIL) (Tiling.recolor tile .hand ⟨i, 0⟩) i 0 := by
  have ht := h.pending i (by omega) hr le_rfl
  have hother : ∀ x, x ≠ i → Tiling.recolor tile .hand ⟨i, 0⟩ x = tile x := by
    intro x hx
    exact Tiling.recolor_of_not_mem (by rw [Block.mem_order_zero]; exact hx)
  refine ⟨(h.avail (by omega) hr).pick (b := ⟨i, 0⟩) (by dsimp only; omega) ht (by simp), by omega,
    Tiling.recolor_start Owner.hand ⟨i, 0⟩, ?_, rfl, ?_, ?_, ?_, hi, ?_⟩
  · intro x hx hh
    by_contra hxi
    rw [Tiling.recolor_of_not_mem hxi] at hh
    exact h.idle x hx hh
  · intro x hx
    rw [Block.mem_order_zero.mp hx]
    exact hr
  · intro x hx hxr
    have hne : x ≠ i := by
      rintro rfl
      exact hr hxr
    rw [hother x hne, h.reserved x hx hxr]
  · intro x hx hxr
    rw [hother x (by omega)]
    exact h.done x (by omega) hxr hx
  · rw [hother (i + 1) (by omega)]
    by_cases hxr : Reserved rgns (i + 1)
    · rw [h.reserved _ hi hxr]
      simp
    · rw [h.pending _ hi hxr (by omega)]
      simp

/-- The old contents of a page lead the run astray: `page_frame_init` unlinks it. -/
def Misleads (skip : ℕ → Prop) (c : ℕ → Page) (x : ℕ) : Prop := ¬ skip x ∧ Stale skip (c x) x

theorem stale_marked {x : ℕ} :
    Stale (Reserved rgns) (marked rgns c x) x ↔ Misleads (Reserved rgns) c x := by
  by_cases hx : Reserved rgns x
  · refine iff_of_false ?_ fun h => h.1 hx
    rintro ⟨k, -, -, hk⟩
    simp [pageIsBuddy, marked_of_reserved c hx] at hk
  · rw [marked_of_not c hx, Misleads]
    exact (and_iff_right hx).symm

theorem stale_unreserved {page : Page} (h : Stale (Reserved rgns) page (i + 1)) :
    ¬ Reserved rgns i := by
  obtain ⟨k, -, ⟨-, -, hres⟩, -⟩ := h
  have := Nat.two_pow_pos k
  exact hres i (by omega) (by omega)

/-- One round in lockstep. -/
theorem initPage_lockstep (hi : i + 1 < n) (h : InitInv n rgns i s₀ tile) (hsim : Sim rgns c i s s₀)
    (hold : ¬ Reserved rgns i → (c i).flags ≠ PG_RESERVED) :
    (Misleads (Reserved rgns) c (i + 1) → ∃ e, initPage s i = .error e) ∧
    (¬ Misleads (Reserved rgns) c (i + 1) → ∃ s' s₀', initPage s i = .ok s' ∧
      initPage s₀ i = .ok s₀' ∧ Sim rgns c (i + 1) s' s₀') := by
  by_cases hr : Reserved rgns i
  · have hs : (s.memMap i).flags = PG_RESERVED := by
      rw [hsim.rest i le_rfl]
      exact marked_of_reserved c hr
    have hs₀ := h.inv.mark i (by omega) .reserved 0 (h.reserved i (by omega) hr)
    refine ⟨fun hm => absurd hr (stale_unreserved hm.2), fun _ => ⟨s, s₀, if_pos hs, if_pos hs₀, ?_⟩⟩
    refine ⟨hsim.area, fun x hx => ?_, fun x hx => ?_, fun x hx => hsim.rest x (by omega)⟩
    · rcases Nat.lt_succ_iff_lt_or_eq.mp hx with hlt | rfl
      · exact hsim.flags x hlt
      · exact hs.trans hs₀.symm
    · rcases Nat.lt_succ_iff_lt_or_eq.mp hx with hlt | rfl
      · exact hsim.priv x hlt
      · intro hb
        rw [show (s₀.memMap x).flags = PG_RESERVED from hs₀] at hb
        cases hb
  · have hs : (s.memMap i).flags ≠ PG_RESERVED := by
      rw [hsim.rest i le_rfl, marked_of_not c hr]
      exact hold hr
    have hs₀ := (h.inv.mark i (by omega) .pending 0 (h.pending i (by omega) hr le_rfl)).2
    have hagree : Agree i (s.setFlags i PG_AVAIL) (s₀.setFlags i PG_AVAIL) := by
      refine ⟨hsim.area, fun x hx => ?_, fun x hx => ?_⟩
      · by_cases hxi : x = i
        · subst hxi
          simp [MmState.setFlags]
        · simpa [MmState.setFlags, Function.update_of_ne hxi] using hsim.flags x (by omega)
      · by_cases hxi : x = i
        · subst hxi
          simp [MmState.setFlags]
        · simpa [MmState.setFlags, Function.update_of_ne hxi] using hsim.priv x (by omega)
    have hnext : ∀ x > i, (s.setFlags i PG_AVAIL).memMap x = marked rgns c x := by
      intro x hx
      rw [← hsim.rest x (by omega)]
      exact Function.update_of_ne (by omega) ..
    obtain ⟨herr, hok⟩ := freeLoop_lockstep (maxOrder - 1) rfl (h.hand hi hr) hagree
    rw [hnext (i + 1) (by omega), stale_marked] at herr hok
    rw [initPage, if_neg hs, initPage, if_neg hs₀]
    refine ⟨herr, fun hm => ?_⟩
    obtain ⟨s', s₀', hrun, hrun₀, hagree', hframe⟩ := hok hm
    refine ⟨s', s₀', hrun, hrun₀, hagree'.area, fun x hx => hagree'.flags x (by omega),
      fun x hx => hagree'.priv x (by omega), fun x hx => ?_⟩
    rw [hframe x (by omega), hnext x (by omega)]

/-- The first `i` rounds over the contents `c`. -/
def rounds (rgns : List Region) (c : ℕ → Page) (i : ℕ) : Except Stop MmState :=
  (List.range i).foldlM initPage (markReserved rgns (buddyFreeAreaInit (MmState.boot c)))

theorem rounds_succ (rgns : List Region) (c : ℕ → Page) (i : ℕ) :
    rounds rgns c (i + 1) = rounds rgns c i >>= fun s => initPage s i := by
  rw [rounds, List.range_succ, List.foldlM_append]
  simp only [List.foldlM_cons, List.foldlM_nil]
  rw [rounds]
  congr 1
  funext s
  cases initPage s i with
  | error e => rfl
  | ok s' => rfl

/-- No block is in hand before page 0. -/
theorem not_misleads_zero (skip : ℕ → Prop) (c : ℕ → Page) : ¬ Misleads skip c 0 := by
  rintro ⟨-, k, -, ⟨-, hk, -⟩, -⟩
  exact hk (dvd_zero _)

/-- The second loop over any contents against the second loop over zeroes. The array may end in the
    middle of a block, so the invariant is about the next multiple of the largest block. -/
theorem rounds_lockstep (hold : ∀ x < n, ¬ Reserved rgns x → (c x).flags ≠ PG_RESERVED) :
    ∀ i ≤ n, (∃ x ≤ i, Misleads (Reserved rgns) c x ∧ ∃ e, rounds rgns c i = .error e) ∨
      ((∀ x ≤ i, ¬ Misleads (Reserved rgns) c x) ∧ ∃ s s₀ tile, rounds rgns c i = .ok s ∧
        rounds rgns (fun _ => Page.zero) i = .ok s₀ ∧ Sim rgns c i s s₀ ∧
        InitInv (512 * (n / 512 + 1)) rgns i s₀ tile) := by
  intro i
  induction i with
  | zero =>
    intro _
    refine Or.inr ⟨fun x hx => ?_, _, _, _, rfl, rfl, ⟨?_, ?_, ?_, fun x _ => rfl⟩,
      initInv_zero (Dvd.intro _ rfl) rgns _ fun x _ => by simp [Page.zero]⟩
    · rw [Nat.le_zero.mp hx]
      exact not_misleads_zero _ c
    · rw [(markReserved_spec rgns _).1, (markReserved_spec rgns _).1]
      rfl
    · exact fun x hx => absurd hx (Nat.not_lt_zero x)
    · exact fun x hx => absurd hx (Nat.not_lt_zero x)
  | succ i ih =>
    intro hi
    rw [rounds_succ, rounds_succ]
    rcases ih (by omega) with ⟨x, hx, hm, e, he⟩ | ⟨hno, s, s₀, tile, hs, hs₀, hsim, hinv⟩
    · exact Or.inl ⟨x, by omega, hm, e, by rw [he]; rfl⟩
    · rw [hs, hs₀]
      obtain ⟨herr, hok⟩ := initPage_lockstep (by omega) hinv hsim (hold i (by omega))
      by_cases hm : Misleads (Reserved rgns) c (i + 1)
      · exact Or.inl ⟨i + 1, le_rfl, hm, herr hm⟩
      · obtain ⟨s', s₀', hs', hs₀', hsim'⟩ := hok hm
        obtain ⟨s₁, tile', hs₁, hinv'⟩ := initPage_spec (by omega) hinv
        obtain rfl : s₁ = s₀' := Except.ok.inj (hs₁.symm.trans hs₀')
        refine Or.inr ⟨fun x hx => ?_, s', s₁, tile', hs', hs₁, hsim', hinv'⟩
        rcases Nat.le_succ_iff.mp hx with hle | rfl
        · exact hno x hle
        · exact hm

end

/-! ## Pages left with `PG_RESERVED` -/

/-- The pages that the second loop passes over. -/
def Skipped (rgns : List Region) (c : ℕ → Page) (x : ℕ) : Prop :=
  Reserved rgns x ∨ (c x).flags = PG_RESERVED

theorem setFlags_same {s : MmState} {x : ℕ} (h : (s.memMap x).flags = PG_RESERVED) :
    s.setFlags x PG_RESERVED = s := by
  unfold MmState.setFlags MmState.setPage
  rw [← h, Function.update_eq_self]

theorem foldl_setFlags_same {l : List ℕ} {s : MmState}
    (h : ∀ x ∈ l, (s.memMap x).flags = PG_RESERVED) :
    l.foldl (fun s pfn => s.setFlags pfn PG_RESERVED) s = s := by
  induction l with
  | nil => rfl
  | cons x l ih =>
    rw [List.foldl_cons, setFlags_same (h x List.mem_cons_self)]
    exact ih fun y hy => h y (List.mem_cons_of_mem x hy)

/-- The first loop has no effect on pages that have the flags already. -/
theorem markReserved_same {rgns : List Region} {s : MmState}
    (h : ∀ x, Reserved rgns x → (s.memMap x).flags = PG_RESERVED) : markReserved rgns s = s := by
  induction rgns with
  | nil => rfl
  | cons r rgns ih =>
    have hr : (pfns r).foldl (fun s pfn => s.setFlags pfn PG_RESERVED) s = s :=
      foldl_setFlags_same fun x hx => h x ⟨r, List.mem_cons_self, hx⟩
    rw [markReserved, List.foldl_cons, hr]
    refine ih fun x hx => ?_
    obtain ⟨r', hr', hx⟩ := hx
    exact h x ⟨r', List.mem_cons_of_mem r hr', hx⟩

/-- The same run with the pages left with `PG_RESERVED` as regions of their own: the regions `all`
    are the given ones and these pages below `n`. -/
theorem exists_rounds_eq (rgns : List Region) (c : ℕ → Page) (n : ℕ) : ∃ all,
    (∀ x, Reserved all x ↔ Reserved rgns x ∨ x < n ∧ (c x).flags = PG_RESERVED) ∧
    ∀ c' : ℕ → Page, (∀ x < n, (c x).flags = PG_RESERVED → Skipped rgns c' x) →
      ∀ i, rounds all c' i = rounds rgns c' i := by
  obtain ⟨extra, hextra⟩ :=
    exists_reserved_iff ((Finset.range n).filter fun x => (c x).flags = PG_RESERVED)
  refine ⟨rgns ++ extra, fun x => ?_, fun c' hc' i => ?_⟩
  · have happ : Reserved (rgns ++ extra) x ↔ Reserved rgns x ∨ Reserved extra x := by
      simp [Reserved, or_and_right, exists_or]
    rw [happ, hextra, Finset.mem_filter, Finset.mem_range]
  · have hsame : markReserved (rgns ++ extra) (buddyFreeAreaInit (MmState.boot c')) =
        markReserved rgns (buddyFreeAreaInit (MmState.boot c')) := by
      rw [markReserved, List.foldl_append]
      refine markReserved_same fun x hx => ?_
      obtain ⟨hxn, hxc⟩ := Finset.mem_filter.mp ((hextra x).mp hx)
      show (marked rgns c' x).flags = PG_RESERVED
      by_cases hr : Reserved rgns x
      · exact marked_of_reserved c' hr
      · rw [marked_of_not c' hr]
        exact (hc' x (Finset.mem_range.mp hxn) hxc).resolve_left hr
    rw [rounds, rounds, hsame]

theorem mergesTo_congr {skip skip' : ℕ → Prop} {x : ℕ} (h : ∀ y < x, skip y ↔ skip' y) (k : ℕ) :
    MergesTo skip x k ↔ MergesTo skip' x k := by
  unfold MergesTo
  refine and_congr_right fun _ => and_congr_right fun _ => forall_congr' fun y => ?_
  refine imp_congr_right fun _ => forall_congr' fun hy => not_congr (h y hy)

/-- A page with `PG_RESERVED` does not look like a free block, so it does not matter whether the page
    itself counts as skipped. -/
theorem misleads_congr {skip skip' : ℕ → Prop} {c : ℕ → Page} {x : ℕ}
    (h : ∀ y < x, skip y ↔ skip' y)
    (hx : (c x).flags ≠ PG_RESERVED → (skip x ↔ skip' x)) :
    Misleads skip c x ↔ Misleads skip' c x := by
  by_cases hc : (c x).flags = PG_RESERVED
  · have hno : ∀ k, ¬ pageIsBuddy (c x) k = true := by
      intro k
      simp [pageIsBuddy, hc]
    refine iff_of_false ?_ ?_
    · rintro ⟨-, k, -, -, hk⟩
      exact hno k hk
    · rintro ⟨-, k, -, -, hk⟩
      exact hno k hk
  · unfold Misleads Stale
    simp only [hx hc, mergesTo_congr h]

/-! ## Two runs -/

/-- Two outcomes of `page_frame_init` are the same: the free blocks of each order, the counters and
    the pages below `n` that are reserved. -/
structure SameFree (n : ℕ) (s s' : MmState) : Prop where
  blocks : ∀ k < maxOrder, ∀ x, x ∈ (s.freeArea k).freeList ↔ x ∈ (s'.freeArea k).freeList
  nrFree : ∀ k < maxOrder, (s.freeArea k).nrFree = (s'.freeArea k).nrFree
  reserved : ∀ x < n, (s.memMap x).flags = PG_RESERVED ↔ (s'.memMap x).flags = PG_RESERVED

/-- Both runs of `page_frame_init` come back, with the same outcome. -/
def SameInit (r r' : Except Stop (ℕ × ℕ × Memblock.State × MmState)) : Prop :=
  ∃ p n mb s p' mb' s', r = .ok (p, n, mb, s) ∧ r' = .ok (p', n, mb', s') ∧ SameFree n s s'

/-- The old contents do not matter in the second loop: they differ in no page that is passed over, and
    no page is taken for a free block before it is reached. The page behind the array is read as
    well. -/
structure Harmless (n : ℕ) (rgns : List Region) (c c' : ℕ → Page) : Prop where
  skipped : ∀ x < n, Skipped rgns c x ↔ Skipped rgns c' x
  left : ∀ x ≤ n, ¬ Misleads (Skipped rgns c) c x
  right : ∀ x ≤ n, ¬ Misleads (Skipped rgns c') c' x

/-- A run over the contents `c`, against a run over zeroes with the regions `all` of
    `exists_rounds_eq`. -/
theorem rounds_cases {n : ℕ} {rgns all : List Region} {c : ℕ → Page}
    (hall : ∀ x, Reserved all x ↔ Reserved rgns x ∨ x < n ∧ (c x).flags = PG_RESERVED)
    (heq : rounds all c n = rounds rgns c n) :
    (∃ x ≤ n, Misleads (Skipped rgns c) c x ∧ ∃ e, rounds rgns c n = .error e) ∨
    ((∀ x ≤ n, ¬ Misleads (Skipped rgns c) c x) ∧ ∃ s s₀, rounds rgns c n = .ok s ∧
      rounds all (fun _ => Page.zero) n = .ok s₀ ∧ s.freeArea = s₀.freeArea) := by
  have hmis : ∀ x ≤ n, Misleads (Reserved all) c x ↔ Misleads (Skipped rgns c) c x := by
    intro x hx
    refine misleads_congr (fun y hy => ?_) fun hc => ?_
    · rw [hall, Skipped, and_iff_right (show y < n by omega)]
    · simp [hall, Skipped, hc]
  have hold : ∀ x < n, ¬ Reserved all x → (c x).flags ≠ PG_RESERVED := by
    intro x hx hr hc
    exact hr ((hall x).mpr (Or.inr ⟨hx, hc⟩))
  rw [← heq]
  rcases rounds_lockstep hold n le_rfl with ⟨x, hx, hm, he⟩ | ⟨hno, s, s₀, _, hs, hs₀, hsim, _⟩
  · exact Or.inl ⟨x, hx, (hmis x hx).mp hm, he⟩
  · exact Or.inr ⟨fun x hx => mt (hmis x hx).mpr (hno x hx), s, s₀, hs, hs₀, hsim.area⟩

/-- The second loop over two contents. -/
theorem rounds_same_iff (n : ℕ) (rgns : List Region) (c c' : ℕ → Page) :
    (∃ s s', rounds rgns c n = .ok s ∧ rounds rgns c' n = .ok s' ∧ SameFree n s s') ↔
      Harmless n rgns c c' := by
  obtain ⟨all, hall, heq⟩ := exists_rounds_eq rgns c n
  constructor
  · rintro ⟨s, s', hs, hs', hsame⟩
    refine ⟨fun x hx => ?_, ?_, ?_⟩
    · have h := hsame.reserved x hx
      rwa [flags_reserved_iff hs, flags_reserved_iff hs'] at h
    · rcases rounds_cases hall (heq c (fun x _ hx => Or.inr hx) n) with ⟨-, -, -, e, he⟩ | ⟨hno, -⟩
      · rw [hs] at he
        cases he
      · exact hno
    · obtain ⟨all', hall', heq'⟩ := exists_rounds_eq rgns c' n
      rcases rounds_cases hall' (heq' c' (fun x _ hx => Or.inr hx) n) with ⟨-, -, -, e, he⟩ | ⟨hno, -⟩
      · rw [hs'] at he
        cases he
      · exact hno
  · rintro ⟨hskip, hleft, hright⟩
    have hall' : ∀ x, Reserved all x ↔ Reserved rgns x ∨ x < n ∧ (c' x).flags = PG_RESERVED := by
      intro x
      rw [hall]
      by_cases hx : x < n
      · simpa [hx, Skipped] using hskip x hx
      · simp [hx]
    have heq' := heq c' (fun x hx hc => (hskip x hx).mp (Or.inr hc)) n
    rcases rounds_cases hall (heq c (fun x _ hx => Or.inr hx) n) with
      ⟨x, hx, hm, -⟩ | ⟨-, s, s₀, hs, hs₀, harea⟩
    · exact absurd hm (hleft x hx)
    rcases rounds_cases hall' heq' with ⟨x, hx, hm, -⟩ | ⟨-, s', s₀', hs', hs₀', harea'⟩
    · exact absurd hm (hright x hx)
    obtain rfl : s₀ = s₀' := Except.ok.inj (hs₀.symm.trans hs₀')
    refine ⟨s, s', hs, hs', ⟨fun k _ x => ?_, fun k _ => ?_, fun x hx => ?_⟩⟩
    · rw [harea, harea']
    · rw [harea, harea']
    · rw [flags_reserved_iff hs, flags_reserved_iff hs']
      exact hskip x hx

/-- Once memblock has handed out `mem_map`, the rest of `page_frame_init` are its two loops. -/
theorem pageFrameInit_eq_ok {fuel : ℕ} {stack : ℕ × ℕ} {mb mb' : Memblock.State} {p : ℕ}
    (halloc : Memblock.physAlloc fuel stack mb (sizeofPage * (mb.currentLimit >>> 12)) =
      .ok (p, mb')) {c : ℕ → Page} {r : ℕ × ℕ × Memblock.State × MmState} :
    pageFrameInit fuel stack mb c (buddyFreeAreaInit (MmState.boot fun _ => Page.zero)) = .ok r ↔
      ∃ s, rounds mb'.reserved.list c (mb.currentLimit >>> 12) = .ok s ∧
        r = (p, mb.currentLimit >>> 12, mb', s) := by
  rw [pageFrameInit]
  simp only [halloc]
  constructor
  · intro h
    obtain ⟨_, hmb, h⟩ := bind_eq_ok.mp h
    obtain rfl := Except.ok.inj hmb
    obtain ⟨s, hs, hr⟩ := bind_eq_ok.mp h
    exact ⟨s, hs, (Except.ok.inj hr).symm⟩
  · rintro ⟨s, hs, rfl⟩
    exact bind_eq_ok.mpr ⟨(p, mb'), rfl, bind_eq_ok.mpr ⟨s, hs, rfl⟩⟩

/-- **Leftover contents.** For every memory limit, every list of reserved regions for which memblock
    finds room for `mem_map`, and any two old contents of that room, the two runs of `page_frame_init`
    have the same outcome exactly if the old contents are harmless. -/
theorem init_same_iff {fuel : ℕ} {stack : ℕ × ℕ} {mb mb' : Memblock.State} {p : ℕ}
    (halloc : Memblock.physAlloc fuel stack mb (sizeofPage * (mb.currentLimit >>> 12)) =
      .ok (p, mb')) (c c' : ℕ → Page) :
    SameInit
        (pageFrameInit fuel stack mb c (buddyFreeAreaInit (MmState.boot fun _ => Page.zero)))
        (pageFrameInit fuel stack mb c' (buddyFreeAreaInit (MmState.boot fun _ => Page.zero))) ↔
      Harmless (mb.currentLimit >>> 12) mb'.reserved.list c c' := by
  rw [← rounds_same_iff]
  constructor
  · rintro ⟨q, n, m, s, q', m', s', h, h', hsame⟩
    obtain ⟨s₁, hs, hr⟩ := (pageFrameInit_eq_ok halloc).mp h
    obtain ⟨s₁', hs', hr'⟩ := (pageFrameInit_eq_ok halloc).mp h'
    cases hr
    cases hr'
    exact ⟨s, s', hs, hs', hsame⟩
  · rintro ⟨s, s', hs, hs', hsame⟩
    exact ⟨p, _, mb', s, p, mb', s', (pageFrameInit_eq_ok halloc).mpr ⟨s, hs, rfl⟩,
      (pageFrameInit_eq_ok halloc).mpr ⟨s', hs', rfl⟩, hsame⟩

/-- Old pages in use are harmless, as zeroes are. -/
theorem init_same_used : ∃ mb p mb', reservedMemblock 0 0x400000
      [(0, 0x80123), (0x100000, 0x1fed)] (fun _ => ⟨0, 0⟩) (fun _ => ⟨0, 0⟩) = .ok mb ∧
    Memblock.physAlloc 5 (0, 0) mb (sizeofPage * (mb.currentLimit >>> 12)) = .ok (p, mb') ∧
    SameInit
      (pageFrameInit 5 (0, 0) mb (fun _ => { Page.zero with flags := PG_USED, priv := 3 })
        (buddyFreeAreaInit (MmState.boot fun _ => Page.zero)))
      (pageFrameInit 5 (0, 0) mb (fun _ => Page.zero)
        (buddyFreeAreaInit (MmState.boot fun _ => Page.zero))) := by
  refine ⟨_, _, _, rfl, rfl, (init_same_iff rfl _ _).mpr ⟨fun x _ => ?_, fun x _ => ?_, fun x _ => ?_⟩⟩
  · simp [Skipped, Page.zero]
  · rintro ⟨-, k, -, -, hk⟩
    simp [pageIsBuddy] at hk
  · rintro ⟨-, k, -, -, hk⟩
    simp [pageIsBuddy, Page.zero] at hk

/-- A page that an earlier boot left with `PG_RESERVED` stays reserved. -/
theorem init_keeps_reserved : ∃ mb p mb', reservedMemblock 0 0x200000 [(0, 0x80000)]
      (fun _ => ⟨0, 0⟩) (fun _ => ⟨0, 0⟩) = .ok mb ∧
    Memblock.physAlloc 5 (0, 0) mb (sizeofPage * (mb.currentLimit >>> 12)) = .ok (p, mb') ∧
    ¬ SameInit
      (pageFrameInit 5 (0, 0) mb
        (fun x => if x = 300 then { Page.zero with flags := PG_RESERVED } else Page.zero)
        (buddyFreeAreaInit (MmState.boot fun _ => Page.zero)))
      (pageFrameInit 5 (0, 0) mb (fun _ => Page.zero)
        (buddyFreeAreaInit (MmState.boot fun _ => Page.zero))) := by
  refine ⟨_, _, _, rfl, rfl, ?_⟩
  rintro ⟨q, n, m, s, q', m', s', h, h', hsame⟩
  obtain ⟨s₁, hs, hr⟩ := (pageFrameInit_eq_ok rfl).mp h
  obtain ⟨s₁', hs', hr'⟩ := (pageFrameInit_eq_ok rfl).mp h'
  cases hr
  cases hr'
  have h300 := hsame.reserved 300 (by decide)
  rw [flags_reserved_iff hs, flags_reserved_iff hs'] at h300
  rcases h300.mp (Or.inr rfl) with hres | hflags
  · exact absurd hres (by decide)
  · cases hflags

end RaspiKernel.Mm
