import Mathlib

/-!
# Aligned power-of-two blocks and tilings

A block of order `k` is a run of `2 ^ k` consecutive naturals that starts at a
multiple of `2 ^ k`. Two aligned blocks are either nested or disjoint, a block
and its buddy (`start xor 2 ^ k`) make up one block of order `k + 1`, and
`x ∈ b` is the equation `x / 2 ^ k = start / 2 ^ k`. The last form is what the
proofs here use: it turns block arithmetic into linear arithmetic on quotients.

A *tiling* of `[0, n)` assigns to every point the tagged block it lies in
(`Tiling`). The tiles that meet a region can be replaced by other tiles of the
same region (`Tiling.patch`). Retagging a tile, joining two buddies and cutting
a tile in halves are the three instances (`Tiling.paint`, `Tiling.split`).
-/

namespace RaspiKernel.Lib

/-- The run of `2 ^ order` naturals that starts at `start`. -/
@[ext] structure Block where
  start : ℕ
  order : ℕ
  deriving DecidableEq, Repr

namespace Block

instance : Membership ℕ Block := ⟨fun b x => b.start ≤ x ∧ x < b.start + 2 ^ b.order⟩

instance (x : ℕ) (b : Block) : Decidable (x ∈ b) :=
  inferInstanceAs (Decidable (b.start ≤ x ∧ x < b.start + 2 ^ b.order))

theorem mem_def {x : ℕ} {b : Block} : x ∈ b ↔ b.start ≤ x ∧ x < b.start + 2 ^ b.order := Iff.rfl

/-- The start is a multiple of the length. -/
def Aligned (b : Block) : Prop := 2 ^ b.order ∣ b.start

theorem start_mem (b : Block) : b.start ∈ b := ⟨le_rfl, by have := Nat.two_pow_pos b.order; omega⟩

@[simp] theorem mem_order_zero {x y : ℕ} : x ∈ (⟨y, 0⟩ : Block) ↔ x = y := by
  rw [mem_def]; simp only [pow_zero]; omega

theorem aligned_order_zero (x : ℕ) : (⟨x, 0⟩ : Block).Aligned := by simp [Aligned]

theorem mem_iff_div {b : Block} (h : b.Aligned) {x : ℕ} :
    x ∈ b ↔ x / 2 ^ b.order = b.start / 2 ^ b.order := by
  obtain ⟨m, hm⟩ := h
  have hpos := Nat.two_pow_pos b.order
  rw [mem_def, hm, Nat.mul_div_cancel_left _ hpos, Nat.div_eq_iff hpos, mul_comm]
  omega

/-- Two aligned blocks that share a point are nested. -/
theorem subset_of_mem {b c : Block} (hb : b.Aligned) (hc : c.Aligned) (hle : b.order ≤ c.order)
    {x : ℕ} (hxb : x ∈ b) (hxc : x ∈ c) {y : ℕ} (hy : y ∈ b) : y ∈ c := by
  rw [mem_iff_div hb] at hxb hy
  rw [mem_iff_div hc] at hxc ⊢
  have key : ∀ z : ℕ, z / 2 ^ c.order = z / 2 ^ b.order / 2 ^ (c.order - b.order) := by
    intro z
    rw [Nat.div_div_eq_div_mul, ← pow_add, Nat.add_sub_cancel' hle]
  rw [← hxc, key y, key x, hxb, hy]

theorem eq_of_mem {b c : Block} (hb : b.Aligned) (hc : c.Aligned) (ho : b.order = c.order)
    {x : ℕ} (hxb : x ∈ b) (hxc : x ∈ c) : b = c := by
  have h1 := subset_of_mem hb hc ho.le hxb hxc b.start_mem
  have h2 := subset_of_mem hc hb ho.ge hxc hxb c.start_mem
  exact Block.ext (le_antisymm h2.1 h1.1) ho

/-- A multiple of `2 ^ k` inside an aligned block of order at most `k` is its start. -/
theorem start_eq_of_dvd {b : Block} (hb : b.Aligned) {x k : ℕ} (hk : b.order ≤ k) (hx : 2 ^ k ∣ x)
    (hxb : x ∈ b) : b.start = x := by
  have hx' : (⟨x, b.order⟩ : Block).Aligned := (pow_dvd_pow 2 hk).trans hx
  exact congrArg Block.start (eq_of_mem hb hx' rfl hxb (start_mem ⟨x, b.order⟩))

/-! ## Buddies -/

/-- The other half of the block of the next order. -/
def buddy (b : Block) : Block := ⟨b.start ^^^ 1 <<< b.order, b.order⟩

/-- The block of the next order that contains `b`. -/
def parent (b : Block) : Block := ⟨b.buddy.start &&& b.start, b.order + 1⟩

@[simp] theorem buddy_order (b : Block) : b.buddy.order = b.order := rfl

@[simp] theorem parent_order (b : Block) : b.parent.order = b.order + 1 := rfl

theorem xor_one_eq (m : ℕ) : m ^^^ 1 = m + 1 - 2 * (m % 2) := by
  have h1 : (m ^^^ 1) / 2 = m / 2 := by rw [Nat.xor_div_two]; simp
  have h2 : (m ^^^ 1) % 2 = (m + 1) % 2 := Nat.xor_mod_two_eq
  omega

theorem xor_one_and_eq (m : ℕ) : (m ^^^ 1) &&& m = m / 2 * 2 := by
  have h1 : ((m ^^^ 1) &&& m) / 2 = m / 2 := by rw [Nat.and_div_two, Nat.xor_div_two]; simp
  have h2 : ((m ^^^ 1) &&& m) % 2 = 0 := by
    have hx : (m ^^^ 1) % 2 = (m + 1) % 2 := Nat.xor_mod_two_eq
    rw [← pow_one 2, Nat.and_mod_two_pow, pow_one, hx]
    rcases Nat.mod_two_eq_zero_or_one m with h | h
    · rw [h, Nat.and_zero]
    · rw [show (m + 1) % 2 = 0 by omega, Nat.zero_and]
  omega

theorem buddy_start {b : Block} (h : b.Aligned) :
    b.buddy.start = (b.start / 2 ^ b.order ^^^ 1) * 2 ^ b.order := by
  obtain ⟨m, hm⟩ := h
  have hpos := Nat.two_pow_pos b.order
  have hs : b.start = m <<< b.order := by rw [Nat.shiftLeft_eq, hm, mul_comm]
  rw [hm, Nat.mul_div_cancel_left _ hpos, ← Nat.shiftLeft_eq, Nat.shiftLeft_xor_distrib, ← hs]
  rfl

theorem parent_start {b : Block} (h : b.Aligned) :
    b.parent.start = b.start / 2 ^ b.order / 2 * 2 ^ (b.order + 1) := by
  obtain ⟨m, hm⟩ := h
  have hpos := Nat.two_pow_pos b.order
  have hs : b.start = m <<< b.order := by rw [Nat.shiftLeft_eq, hm, mul_comm]
  have hp : b.parent.start = (m ^^^ 1) <<< b.order &&& m <<< b.order := by
    rw [Nat.shiftLeft_xor_distrib, ← hs]; rfl
  rw [hp, ← Nat.shiftLeft_and_distrib, xor_one_and_eq, hm, Nat.mul_div_cancel_left _ hpos,
    Nat.shiftLeft_eq, pow_succ]
  ring

theorem buddy_aligned {b : Block} (h : b.Aligned) : b.buddy.Aligned := by
  rw [Aligned, buddy_start h]; exact Dvd.intro_left _ rfl

theorem parent_aligned {b : Block} (h : b.Aligned) : b.parent.Aligned := by
  rw [Aligned, parent_start h]; exact Dvd.intro_left _ rfl

theorem mem_buddy_iff {b : Block} (h : b.Aligned) {x : ℕ} :
    x ∈ b.buddy ↔ x / 2 ^ b.order = b.start / 2 ^ b.order ^^^ 1 := by
  rw [mem_iff_div (buddy_aligned h), buddy_order, buddy_start h,
    Nat.mul_div_cancel _ (Nat.two_pow_pos _)]

theorem mem_parent_iff {b : Block} (h : b.Aligned) {x : ℕ} :
    x ∈ b.parent ↔ x ∈ b ∨ x ∈ b.buddy := by
  rw [mem_iff_div (parent_aligned h), mem_iff_div h, mem_buddy_iff h, parent_order, parent_start h,
    Nat.mul_div_cancel _ (Nat.two_pow_pos _), pow_succ, ← Nat.div_div_eq_div_mul, xor_one_eq]
  generalize x / 2 ^ b.order = y
  generalize b.start / 2 ^ b.order = m
  omega

theorem not_mem_buddy {b : Block} (h : b.Aligned) {x : ℕ} (hx : x ∈ b) : x ∉ b.buddy := by
  rw [mem_iff_div h] at hx
  rw [mem_buddy_iff h, hx, xor_one_eq]
  omega

theorem buddy_buddy {b : Block} (h : b.Aligned) : b.buddy.buddy = b := by
  refine Block.ext ?_ rfl
  rw [buddy_start (buddy_aligned h), buddy_start h, buddy_order,
    Nat.mul_div_cancel _ (Nat.two_pow_pos _), Nat.xor_assoc, Nat.xor_self, Nat.xor_zero]
  exact Nat.div_mul_cancel h

/-- A block and its buddy lie on the same side of every multiple of their joint length. -/
theorem lt_of_mem_parent {b : Block} (h : b.Aligned) {n x y : ℕ} (hn : 2 ^ (b.order + 1) ∣ n)
    (hx : x ∈ b.parent) (hy : y ∈ b.parent) (hxn : x < n) : y < n := by
  rw [mem_iff_div (parent_aligned h)] at hx hy
  obtain ⟨q, rfl⟩ := hn
  rw [mul_comm, ← Nat.div_lt_iff_lt_mul (Nat.two_pow_pos _)] at hxn ⊢
  rw [parent_order] at hx hy
  omega

/-! ## Halves -/

/-- The lower half of a block of order `k + 1`. -/
def left (b : Block) : Block := ⟨b.start, b.order - 1⟩

/-- The upper half of a block of order `k + 1`. -/
def right (b : Block) : Block := ⟨b.start + 2 ^ (b.order - 1), b.order - 1⟩

theorem two_pow_pred {k : ℕ} (h : 0 < k) : 2 ^ k = 2 ^ (k - 1) + 2 ^ (k - 1) := by
  obtain ⟨j, rfl⟩ : ∃ j, k = j + 1 := ⟨k - 1, by omega⟩
  rw [pow_succ, Nat.add_sub_cancel]; ring

theorem left_aligned {b : Block} (h : b.Aligned) : b.left.Aligned :=
  (pow_dvd_pow 2 (Nat.sub_le b.order 1)).trans h

theorem right_aligned {b : Block} (h : b.Aligned) : b.right.Aligned :=
  Dvd.dvd.add (left_aligned h) dvd_rfl

theorem mem_halves {b : Block} (ho : 0 < b.order) {x : ℕ} :
    x ∈ b ↔ x ∈ b.left ∨ x ∈ b.right := by
  have := two_pow_pred ho
  simp only [mem_def, left, right]
  omega

theorem not_mem_right_of_mem_left {b : Block} {x : ℕ} (h : x ∈ b.left) : x ∉ b.right := by
  simp only [mem_def, left, right] at h ⊢
  omega

/-- The upper half is the buddy of the lower half. -/
theorem buddy_left {b : Block} (h : b.Aligned) (ho : 0 < b.order) : b.left.buddy = b.right := by
  refine Block.ext ?_ rfl
  obtain ⟨m, hm⟩ := h
  have hm' : b.start = 2 * m * 2 ^ (b.order - 1) := by
    rw [hm, two_pow_pred ho]; ring
  have hpos := Nat.two_pow_pos (b.order - 1)
  rw [buddy_start (left_aligned ⟨m, hm⟩)]
  show (b.start / 2 ^ (b.order - 1) ^^^ 1) * 2 ^ (b.order - 1) = b.start + 2 ^ (b.order - 1)
  rw [hm', Nat.mul_div_cancel _ hpos, xor_one_eq, show 2 * m + 1 - 2 * (2 * m % 2) = 2 * m + 1 by omega]
  ring

theorem buddy_right {b : Block} (h : b.Aligned) (ho : 0 < b.order) : b.right.buddy = b.left := by
  rw [← buddy_left h ho, buddy_buddy (left_aligned h)]

end Block

/-! ## Tilings -/

/-- `tile` assigns to every point below `n` the tagged aligned block it lies in. -/
structure Tiling {τ : Type*} (n : ℕ) (tile : ℕ → τ × Block) : Prop where
  mem : ∀ x < n, x ∈ (tile x).2
  aligned : ∀ x < n, (tile x).2.Aligned
  lt : ∀ x < n, ∀ y ∈ (tile x).2, y < n
  same : ∀ x < n, ∀ y ∈ (tile x).2, tile y = tile x

namespace Tiling

variable {τ : Type*} {n : ℕ} {tile : ℕ → τ × Block}

theorem start_lt (h : Tiling n tile) {x : ℕ} (hx : x < n) : (tile x).2.start < n :=
  h.lt x hx _ (Block.start_mem _)

theorem tile_start (h : Tiling n tile) {x : ℕ} (hx : x < n) : tile (tile x).2.start = tile x :=
  h.same x hx _ (Block.start_mem _)

/-- A point of a tile has that tile. -/
theorem tile_eq_of_mem (h : Tiling n tile) {b : Block} {t : τ} (hb : b.start < n)
    (ht : tile b.start = (t, b)) {x : ℕ} (hx : x ∈ b) : x < n ∧ tile x = (t, b) := by
  have hm : x ∈ (tile b.start).2 := by rw [ht]; exact hx
  exact ⟨h.lt _ hb x hm, (h.same _ hb x hm).trans ht⟩

theorem aligned_of_tile (h : Tiling n tile) {b : Block} {t : τ} (hb : b.start < n)
    (ht : tile b.start = (t, b)) : b.Aligned := by
  have := h.aligned _ hb; rwa [ht] at this

/-- A region that is a union of tiles can be tiled afresh. -/
theorem patch (h : Tiling n tile) (R : ℕ → Prop) [DecidablePred R] (new : ℕ → τ × Block)
    (hR : ∀ x, R x → x < n)
    (hsat : ∀ x < n, R x → ∀ y ∈ (tile x).2, R y)
    (hmem : ∀ x, R x → x ∈ (new x).2)
    (haligned : ∀ x, R x → (new x).2.Aligned)
    (hclosed : ∀ x, R x → ∀ y ∈ (new x).2, R y)
    (hsame : ∀ x, R x → ∀ y ∈ (new x).2, new y = new x) :
    Tiling n fun x => if R x then new x else tile x := by
  have hout : ∀ x < n, ¬ R x → ∀ y ∈ (tile x).2, ¬ R y := by
    intro x hx hnR y hy hRy
    have hxy : x ∈ (tile y).2 := by rw [h.same x hx y hy]; exact h.mem x hx
    exact hnR (hsat y (h.lt x hx y hy) hRy x hxy)
  refine ⟨?_, ?_, ?_, ?_⟩
  · intro x hx
    by_cases hr : R x
    · simpa only [hr, if_true] using hmem x hr
    · simpa only [hr, if_false] using h.mem x hx
  · intro x hx
    by_cases hr : R x
    · simpa only [hr, if_true] using haligned x hr
    · simpa only [hr, if_false] using h.aligned x hx
  · intro x hx y hy
    by_cases hr : R x
    · simp only [hr, if_true] at hy
      exact hR y (hclosed x hr y hy)
    · simp only [hr, if_false] at hy
      exact h.lt x hx y hy
  · intro x hx y hy
    by_cases hr : R x
    · simp only [hr, if_true] at hy ⊢
      simp only [hclosed x hr y hy, if_true]
      exact hsame x hr y hy
    · simp only [hr, if_false] at hy ⊢
      simp only [hout x hx hr y hy, if_false]
      exact h.same x hx y hy

/-- Retag every point of `b` and make `b` one tile. -/
def recolor (tile : ℕ → τ × Block) (t : τ) (b : Block) : ℕ → τ × Block :=
  fun x => if x ∈ b then (t, b) else tile x

theorem recolor_of_mem {t : τ} {b : Block} {x : ℕ} (h : x ∈ b) : recolor tile t b x = (t, b) :=
  if_pos h

theorem recolor_of_not_mem {t : τ} {b : Block} {x : ℕ} (h : x ∉ b) :
    recolor tile t b x = tile x :=
  if_neg h

theorem recolor_start (t : τ) (b : Block) : recolor tile t b b.start = (t, b) :=
  recolor_of_mem b.start_mem

/-- Painting a union of tiles keeps a tiling. -/
theorem paint (h : Tiling n tile) (t : τ) {b : Block} (hb : b.Aligned) (hn : ∀ x ∈ b, x < n)
    (hsat : ∀ x ∈ b, ∀ y ∈ (tile x).2, y ∈ b) : Tiling n (recolor tile t b) :=
  h.patch (fun x => x ∈ b) (fun _ => (t, b)) hn (fun x _ hx => hsat x hx) (fun _ hx => hx)
    (fun _ _ => hb) (fun _ _ _ hy => hy) (fun _ _ _ _ => rfl)

/-- Retagging one tile. -/
theorem retag (h : Tiling n tile) (t' : τ) {t : τ} {b : Block} (hb : b.start < n)
    (ht : tile b.start = (t, b)) : Tiling n (recolor tile t' b) := by
  refine h.paint t' (h.aligned_of_tile hb ht) (fun x hx => (h.tile_eq_of_mem hb ht hx).1) ?_
  intro x hx y hy
  rw [(h.tile_eq_of_mem hb ht hx).2] at hy
  exact hy

/-- Joining a tile and its buddy. -/
theorem join (h : Tiling n tile) (t' : τ) {t u : τ} {b : Block} (hb : b.start < n)
    (ht : tile b.start = (t, b)) (hb' : b.buddy.start < n)
    (ht' : tile b.buddy.start = (u, b.buddy)) : Tiling n (recolor tile t' b.parent) := by
  have ha := h.aligned_of_tile hb ht
  refine h.paint t' (Block.parent_aligned ha) ?_ ?_
  · intro x hx
    rcases (Block.mem_parent_iff ha).mp hx with hx | hx
    · exact (h.tile_eq_of_mem hb ht hx).1
    · exact (h.tile_eq_of_mem hb' ht' hx).1
  · intro x hx y hy
    rw [Block.mem_parent_iff ha] at hx ⊢
    rcases hx with hx | hx
    · rw [(h.tile_eq_of_mem hb ht hx).2] at hy
      exact Or.inl hy
    · rw [(h.tile_eq_of_mem hb' ht' hx).2] at hy
      exact Or.inr hy

/-- Cutting a tile in halves. -/
theorem split (h : Tiling n tile) (t₁ t₂ : τ) {t : τ} {b : Block} (ho : 0 < b.order)
    (hb : b.start < n) (ht : tile b.start = (t, b)) :
    Tiling n (recolor (recolor tile t₁ b.left) t₂ b.right) := by
  have ha := h.aligned_of_tile hb ht
  have hin : ∀ x, x ∈ b → x < n ∧ tile x = (t, b) := fun x hx => h.tile_eq_of_mem hb ht hx
  have hp := h.patch (fun x => x ∈ b) (fun x => if x ∈ b.left then (t₁, b.left) else (t₂, b.right))
    (fun x hx => (hin x hx).1) (fun x _ hx y hy => by rwa [(hin x hx).2] at hy) ?_ ?_ ?_ ?_
  · convert hp using 1
    funext x
    by_cases hr : x ∈ b.right
    · have hl : x ∉ b.left := fun hl => Block.not_mem_right_of_mem_left hl hr
      rw [recolor_of_mem hr, if_pos ((Block.mem_halves ho).mpr (Or.inr hr)), if_neg hl]
    · rw [recolor_of_not_mem hr]
      by_cases hl : x ∈ b.left
      · rw [recolor_of_mem hl, if_pos ((Block.mem_halves ho).mpr (Or.inl hl)), if_pos hl]
      · rw [recolor_of_not_mem hl, if_neg (by rw [Block.mem_halves ho]; tauto)]
  · intro x hx
    by_cases hl : x ∈ b.left
    · simp only [hl, if_true]
    · simpa only [hl, if_false] using ((Block.mem_halves ho).mp hx).resolve_left hl
  · intro x _
    by_cases hl : x ∈ b.left
    · simpa only [hl, if_true] using Block.left_aligned ha
    · simpa only [hl, if_false] using Block.right_aligned ha
  · intro x hx y hy
    rw [Block.mem_halves ho]
    by_cases hl : x ∈ b.left
    · simp only [hl, if_true] at hy
      exact Or.inl hy
    · simp only [hl, if_false] at hy
      exact Or.inr hy
  · intro x hx y hy
    by_cases hl : x ∈ b.left
    · simp only [hl, if_true] at hy ⊢
      simp only [hy, if_true]
    · simp only [hl, if_false] at hy ⊢
      rw [if_neg fun hl' => Block.not_mem_right_of_mem_left hl' hy]

/-- Where the buddy of a tile starts, a tile starts, and it is no longer than the buddy. So a test
    of the point `b.buddy.start` never sees the inside of another tile. -/
theorem buddy_tile (h : Tiling n tile) {t : τ} {b : Block} (hb : b.start < n)
    (ht : tile b.start = (t, b)) (hn : 2 ^ (b.order + 1) ∣ n) :
    b.buddy.start < n ∧ (tile b.buddy.start).2.start = b.buddy.start ∧
      (tile b.buddy.start).2.order ≤ b.order := by
  have ha := h.aligned_of_tile hb ht
  have hbud : b.buddy.start ∈ b.parent := (Block.mem_parent_iff ha).mpr (Or.inr (Block.start_mem _))
  have hself : b.start ∈ b.parent := (Block.mem_parent_iff ha).mpr (Or.inl (Block.start_mem _))
  have hlt := Block.lt_of_mem_parent ha hn hself hbud hb
  set c := (tile b.buddy.start).2 with hc
  have hca : c.Aligned := h.aligned _ hlt
  have hcm : b.buddy.start ∈ c := h.mem _ hlt
  have hord : c.order ≤ b.order := by
    by_contra hgt
    -- a longer tile around the buddy would contain `b` as well
    have hin : b.start ∈ c :=
      Block.subset_of_mem (Block.parent_aligned ha) hca (by simp; omega) hbud hcm hself
    have := h.same _ hlt b.start hin
    rw [ht] at this
    have : b.order = c.order := by rw [hc, ← this]
    omega
  exact ⟨hlt, Block.start_eq_of_dvd hca hord (Block.buddy_aligned ha) hcm, hord⟩

/-- If no two buddies below order `K` both carry the tag `t`, then an aligned run of `t`-tagged
    points of order at most `K` lies in one tile. -/
theorem order_le_of_run (h : Tiling n tile) {t : τ} {K : ℕ}
    (hco : ∀ b : Block, b.start < n → b.buddy.start < n → b.order < K →
      tile b.start = (t, b) → tile b.buddy.start ≠ (t, b.buddy)) :
    ∀ b : Block, b.Aligned → b.order ≤ K → (∀ x ∈ b, x < n ∧ (tile x).1 = t) →
      b.order ≤ (tile b.start).2.order := by
  intro b
  obtain ⟨p, k⟩ := b
  induction k generalizing p with
  | zero => intro _ _ _; exact Nat.zero_le _
  | succ k ih =>
    intro ha hK hrun
    have hpos : 0 < (⟨p, k + 1⟩ : Block).order := Nat.succ_pos k
    have hhalf : ∀ c : Block, (c = ⟨p, k⟩ ∨ c = ⟨p + 2 ^ k, k⟩) →
        c.start < n ∧ (tile c.start).1 = t ∧ k ≤ (tile c.start).2.order := by
      rintro c (rfl | rfl)
      · have hin : ∀ x ∈ (⟨p, k⟩ : Block), x < n ∧ (tile x).1 = t := fun x hx =>
          hrun x ((Block.mem_halves hpos).mpr (Or.inl hx))
        exact ⟨(hin _ (Block.start_mem _)).1, (hin _ (Block.start_mem _)).2,
          ih p (Block.left_aligned ha) (by simp at hK ⊢; omega) hin⟩
      · have hin : ∀ x ∈ (⟨p + 2 ^ k, k⟩ : Block), x < n ∧ (tile x).1 = t := fun x hx =>
          hrun x ((Block.mem_halves hpos).mpr (Or.inr hx))
        exact ⟨(hin _ (Block.start_mem _)).1, (hin _ (Block.start_mem _)).2,
          ih _ (Block.right_aligned ha) (by simp at hK ⊢; omega) hin⟩
    obtain ⟨hln, hlt, hlo⟩ := hhalf ⟨p, k⟩ (Or.inl rfl)
    obtain ⟨hrn, hrt, hro⟩ := hhalf ⟨p + 2 ^ k, k⟩ (Or.inr rfl)
    by_contra hlt'
    -- both halves are tiles of order `k` then, and they are buddies
    have hlk : (tile p).2.order = k := by simp only at hlo hlt'; omega
    have hl : tile p = (t, ⟨p, k⟩) := by
      refine Prod.ext hlt (Block.ext ?_ hlk)
      exact Block.start_eq_of_dvd (h.aligned p hln) hlk.le (Block.left_aligned ha) (h.mem p hln)
    have hrk : (tile (p + 2 ^ k)).2.order = k := by
      by_contra hne
      have hin : p ∈ (tile (p + 2 ^ k)).2 := Block.subset_of_mem ha (h.aligned _ hrn)
        (by simp only at hro ⊢; omega) ((Block.mem_halves hpos).mpr (Or.inr (Block.start_mem _)))
        (h.mem _ hrn) (Block.start_mem ⟨p, k + 1⟩)
      have := h.same _ hrn p hin
      rw [← this] at hne
      exact hne hlk
    have hr : tile (p + 2 ^ k) = (t, ⟨p + 2 ^ k, k⟩) := by
      refine Prod.ext hrt (Block.ext ?_ hrk)
      exact Block.start_eq_of_dvd (h.aligned _ hrn) hrk.le (Block.right_aligned ha) (h.mem _ hrn)
    have hbud : (⟨p, k⟩ : Block).buddy = ⟨p + 2 ^ k, k⟩ := Block.buddy_left ha hpos
    exact hco ⟨p, k⟩ hln (by rw [hbud]; exact hrn) hK hl (by rw [hbud]; exact hr)

end Tiling

end RaspiKernel.Lib
