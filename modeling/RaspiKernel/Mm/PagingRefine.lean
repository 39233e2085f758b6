import RaspiKernel.Memblock.Alloc
import RaspiKernel.Mm.Paging

/-!
# Page tables refine a flat map

The tables of all address spaces form a forest: a table is reached from one
`pgd`, at one level and under one index prefix only (`Forest`). `walk` extends
the forest by linking fresh tables (`link_spec`) and writes one leaf
(`leaf_spec`). So `map_pages` refines a flat map from pages to the last mapping
that covers them.

Results:
* `walk_spec`, `mapPages_spec`: what one call changes.
* `map_pages_refines`: every sequence of calls.
-/

namespace RaspiKernel.Mm

open Lib
open Memblock (kernelVaddrBase physToVirt virtToPhys physToVirt_eq virtToPhys_eq
  virtToPhys_physToVirt)

/-! ## Indices and entries -/

/-- The index prefix of the table that `va` uses at level `l`; at level 4, the page. -/
def levelPrefix (l va : ℕ) : ℕ := va / 2 ^ (48 - 9 * l)

theorem tableIndex_eq {l : ℕ} (hl : l ≤ 3) (va : ℕ) :
    tableIndex va l = levelPrefix (l + 1) va % 512 := by
  unfold tableIndex levelPrefix
  rw [show (0x1ff : ℕ) = 2 ^ 9 - 1 from rfl, Nat.and_two_pow_sub_one_eq_mod,
    Nat.shiftRight_eq_div_pow, show 39 - l * 9 = 48 - 9 * (l + 1) by omega]

theorem levelPrefix_succ {l : ℕ} (hl : l ≤ 3) (va : ℕ) :
    levelPrefix l va = levelPrefix (l + 1) va / 512 := by
  unfold levelPrefix
  rw [Nat.div_div_eq_div_mul, show (512 : ℕ) = 2 ^ 9 from rfl, ← pow_add,
    show 48 - 9 * (l + 1) + 9 = 48 - 9 * l by omega]

theorem tableIndex_lt (va l : ℕ) : tableIndex va l < 512 :=
  lt_of_le_of_lt Nat.and_le_right (by norm_num)

/-- A prefix is the prefix before it and one more index. -/
theorem levelPrefix_succ_eq_iff {l : ℕ} (hl : l ≤ 3) (v w : ℕ) :
    levelPrefix (l + 1) v = levelPrefix (l + 1) w ↔
      levelPrefix l v = levelPrefix l w ∧ tableIndex v l = tableIndex w l := by
  rw [tableIndex_eq hl, tableIndex_eq hl, levelPrefix_succ hl, levelPrefix_succ hl]
  omega

theorem levelPrefix_zero {v : ℕ} (hv : v < 2 ^ 48) : levelPrefix 0 v = 0 := Nat.div_eq_of_lt hv

theorem levelPrefix_four (v : ℕ) : levelPrefix 4 v = v / 4096 := rfl

/-- An address `kmalloc(PAGE_SIZE)` can return: a page of the kernel's linear map. -/
def IsPage (t : ℕ) : Prop := kernelVaddrBase ≤ t ∧ t < 2 ^ 64 ∧ 4096 ∣ t

instance (t : ℕ) : Decidable (IsPage t) :=
  inferInstanceAs (Decidable (kernelVaddrBase ≤ t ∧ t < 2 ^ 64 ∧ 4096 ∣ t))

/-- Masking an entry keeps its page address, whatever the attribute bits are. -/
theorem and_entryAddrMask {x attr : ℕ} (hx : x < 2 ^ 48) (hx' : 4096 ∣ x)
    (hattr : attr &&& entryAddrMask = 0) : (x ||| attr) &&& entryAddrMask = x := by
  rw [Nat.and_or_distrib_right, hattr, Nat.or_zero,
    show entryAddrMask = 2 ^ 48 - 2 ^ 12 from rfl, and_high_mask hx (by norm_num)]
  omega

/-- The entry of a table leads to the table. -/
theorem nextTable_link {t : ℕ} (ht : IsPage t) : nextTable (virtToPhys t ||| tableEntry) = t := by
  obtain ⟨h1, h2, h3⟩ := ht
  unfold kernelVaddrBase at h1
  have hphys : virtToPhys t = t - kernelVaddrBase := by
    rw [virtToPhys_eq]; unfold kernelVaddrBase; omega
  have hlt : virtToPhys t < 2 ^ 48 := by rw [hphys]; unfold kernelVaddrBase; omega
  unfold nextTable
  rw [and_entryAddrMask hlt (by rw [hphys]; unfold kernelVaddrBase; omega) (by decide),
    physToVirt_eq hlt, hphys]
  unfold kernelVaddrBase
  omega

theorem link_ne_zero (t : ℕ) : virtToPhys t ||| tableEntry ≠ 0 := by
  intro h
  exact absurd (Nat.or_eq_zero_iff.mp h).2 (by decide)

/-! ## Walks -/

/-- The table that a walk from `pgd` to `va` uses at level `l`. -/
def tableAt (mem : ℕ → ℕ) (pgd va : ℕ) : ℕ → Option ℕ
  | 0 => some pgd
  | l + 1 => (tableAt mem pgd va l).bind fun t =>
    let entry := mem (t + 8 * tableIndex va l)
    if entry = 0 then none else some (nextTable entry)

theorem tableAt_succ {mem : ℕ → ℕ} {pgd va l t : ℕ} (h : tableAt mem pgd va l = some t) :
    tableAt mem pgd va (l + 1) =
      if mem (t + 8 * tableIndex va l) = 0 then none
      else some (nextTable (mem (t + 8 * tableIndex va l))) := by
  rw [tableAt, h]; rfl

theorem tableAt_succ_none {mem : ℕ → ℕ} {pgd va l : ℕ} (h : tableAt mem pgd va l = none) :
    tableAt mem pgd va (l + 1) = none := by
  rw [tableAt, h]; rfl

theorem tableAt_congr (mem : ℕ → ℕ) (pgd : ℕ) {v w l : ℕ} (hl : l ≤ 4)
    (h : levelPrefix l v = levelPrefix l w) : tableAt mem pgd v l = tableAt mem pgd w l := by
  induction l with
  | zero => rfl
  | succ l ih =>
    obtain ⟨hp, hi⟩ := (levelPrefix_succ_eq_iff (by omega) v w).mp h
    rw [tableAt, tableAt, ih (by omega) hp, hi]

/-- The entry of the page of `va`, 0 if there is no table for it. -/
def leafEntry (mem : ℕ → ℕ) (pgd va : ℕ) : ℕ :=
  match tableAt mem pgd va 3 with
  | none => 0
  | some t => mem (t + 8 * tableIndex va 3)

theorem leafEntry_congr (mem : ℕ → ℕ) (pgd : ℕ) {v w : ℕ} (h : v / 4096 = w / 4096) :
    tableAt mem pgd v 3 = tableAt mem pgd w 3 ∧ leafEntry mem pgd v = leafEntry mem pgd w := by
  obtain ⟨hp, hi⟩ := (levelPrefix_succ_eq_iff le_rfl v w).mp h
  have ht := tableAt_congr mem pgd (by omega) hp
  exact ⟨ht, by unfold leafEntry; rw [ht, hi]⟩

/-- `simulate_walk` is the walk to the leaf. -/
theorem simulateWalkLoop_eq {mem : ℕ → ℕ} {pgd va : ℕ} (rem l t : ℕ) (hl : rem + l = 3)
    (ht : tableAt mem pgd va l = some t) :
    simulateWalkLoop mem va rem l t =
      if tableAt mem pgd va 3 = none then 0
      else (leafEntry mem pgd va &&& entryAddrMask) ||| (va &&& 0xfff) := by
  induction rem generalizing l t with
  | zero =>
    obtain rfl : l = 3 := by omega
    simp [simulateWalkLoop, leafEntry, ht]
  | succ rem ih =>
    have hnext := tableAt_succ ht
    simp only [simulateWalkLoop]
    split_ifs at hnext ⊢ with he h3 h3
    · rfl
    · -- no table below an empty entry
      exfalso
      apply h3
      have hdown : ∀ k, tableAt mem pgd va (l + 1 + k) = none := by
        intro k
        induction k with
        | zero => exact hnext
        | succ k ihk => exact tableAt_succ_none ihk
      have := hdown (2 - l)
      rwa [show l + 1 + (2 - l) = 3 by omega] at this
    · rw [ih (l + 1) _ (by omega) hnext, if_pos h3]
    · rw [ih (l + 1) _ (by omega) hnext, if_neg h3]

theorem simulateWalk_eq (mem : ℕ → ℕ) (pgd va : ℕ) :
    simulateWalk mem pgd va = if tableAt mem pgd va 3 = none then 0
      else (leafEntry mem pgd va &&& entryAddrMask) ||| (va &&& 0xfff) :=
  simulateWalkLoop_eq 3 0 pgd rfl rfl

/-! ## The forest of tables -/

section Forest

variable {kmalloc : ℕ → ℕ} {pgds : List ℕ}

/-- `create_empty_page_table` has returned `n` pages, all different and none of them a `pgd`. -/
def Fresh (kmalloc : ℕ → ℕ) (pgds : List ℕ) (n : ℕ) : Prop :=
  ∀ k < n, IsPage (kmalloc k) ∧ kmalloc k ∉ pgds ∧ ∀ j < k, kmalloc j ≠ kmalloc k

instance (kmalloc : ℕ → ℕ) (pgds : List ℕ) (n : ℕ) : Decidable (Fresh kmalloc pgds n) :=
  inferInstanceAs (Decidable (∀ k < n, IsPage (kmalloc k) ∧ kmalloc k ∉ pgds ∧
    ∀ j < k, kmalloc j ≠ kmalloc k))

/-- `t` is a table. -/
def IsTable (kmalloc : ℕ → ℕ) (pgds : List ℕ) (n t : ℕ) : Prop :=
  t ∈ pgds ∨ ∃ k < n, t = kmalloc k

/-- Every table is reached in one way only: from one `pgd`, at one level, under one prefix. -/
structure Forest (kmalloc : ℕ → ℕ) (pgds : List ℕ) (st : PtState) : Prop where
  isPage : ∀ t ∈ pgds, IsPage t
  table : ∀ P ∈ pgds, ∀ v < 2 ^ 48, ∀ l ≤ 3, ∀ t, tableAt st.mem P v l = some t →
    IsTable kmalloc pgds st.next t
  unique : ∀ P ∈ pgds, ∀ Q ∈ pgds, ∀ v < 2 ^ 48, ∀ w < 2 ^ 48, ∀ l ≤ 3, ∀ m ≤ 3, ∀ t,
    tableAt st.mem P v l = some t → tableAt st.mem Q w m = some t →
    P = Q ∧ l = m ∧ levelPrefix l v = levelPrefix l w

theorem Forest.isPage_of_table {st : PtState} (h : Forest kmalloc pgds st)
    (hf : Fresh kmalloc pgds st.next) {t : ℕ} (ht : IsTable kmalloc pgds st.next t) : IsPage t := by
  rcases ht with ht | ⟨k, hk, rfl⟩
  · exact h.isPage t ht
  · exact (hf k hk).1

/-- The words of two pages are different. -/
theorem word_ne {t u i j : ℕ} (ht : 4096 ∣ t) (hu : 4096 ∣ u) (htu : t ≠ u) (hi : i < 512)
    (hj : j < 512) : t + 8 * i ≠ u + 8 * j := by
  omega

/-- The next page is no table yet. -/
theorem Fresh.ne {n t : ℕ} (hf : Fresh kmalloc pgds (n + 1)) (ht : IsTable kmalloc pgds n t) :
    t ≠ kmalloc n := by
  obtain ⟨-, hpgd, hlt⟩ := hf n (Nat.lt_succ_self n)
  rcases ht with ht | ⟨k, hk, rfl⟩
  · rintro rfl; exact hpgd ht
  · exact hlt k hk

theorem Fresh.mono {m n : ℕ} (hf : Fresh kmalloc pgds n) (h : m ≤ n) : Fresh kmalloc pgds m :=
  fun k hk => hf k (lt_of_lt_of_le hk h)

/-- What a step under `P` on the addresses `S` may change: it keeps the tables, the leaves of the
    other addresses and every word of the tables of the other address spaces. -/
structure Extends (pgds : List ℕ) (P : ℕ) (S : ℕ → Prop) (st st' : PtState) : Prop where
  next : st.next ≤ st'.next
  tables : ∀ Q ∈ pgds, ∀ w < 2 ^ 48, ∀ l ≤ 3, ∀ t, tableAt st.mem Q w l = some t →
    tableAt st'.mem Q w l = some t
  leaves : ∀ Q ∈ pgds, ∀ w < 2 ^ 48, (Q = P → ¬ S w) →
    leafEntry st'.mem Q w = leafEntry st.mem Q w
  others : ∀ Q ∈ pgds, Q ≠ P → ∀ w < 2 ^ 48, ∀ l ≤ 3, ∀ t, tableAt st.mem Q w l = some t →
    ∀ i < 512, st'.mem (t + 8 * i) = st.mem (t + 8 * i)

theorem Extends.refl (P : ℕ) (S : ℕ → Prop) (st : PtState) : Extends pgds P S st st :=
  ⟨le_rfl, fun _ _ _ _ _ _ _ h => h, fun _ _ _ _ _ => rfl, fun _ _ _ _ _ _ _ _ _ _ _ => rfl⟩

theorem Extends.mono {P : ℕ} {S S' : ℕ → Prop} {st st' : PtState} (h : Extends pgds P S st st')
    (hS : ∀ w, S w → S' w) : Extends pgds P S' st st' :=
  ⟨h.next, h.tables, fun Q hQ w hw hne => h.leaves Q hQ w hw fun hQP hSw => hne hQP (hS w hSw),
    h.others⟩

theorem Extends.trans {P : ℕ} {S : ℕ → Prop} {st st' st'' : PtState} (h : Extends pgds P S st st')
    (h' : Extends pgds P S st' st'') : Extends pgds P S st st'' where
  next := h.next.trans h'.next
  tables Q hQ w hw l hl t ht := h'.tables Q hQ w hw l hl t (h.tables Q hQ w hw l hl t ht)
  leaves Q hQ w hw hne := (h'.leaves Q hQ w hw hne).trans (h.leaves Q hQ w hw hne)
  others Q hQ hQP w hw l hl t ht i hi :=
    (h'.others Q hQ hQP w hw l hl t (h.tables Q hQ w hw l hl t ht) i hi).trans
      (h.others Q hQ hQP w hw l hl t ht i hi)

/-- A new table `N` below the table `t` at level `l`. -/
def linked (kmalloc : ℕ → ℕ) (st : PtState) (t idx : ℕ) : PtState :=
  (createEmptyPageTable kmalloc st).2.set t idx (virtToPhys (kmalloc st.next) ||| tableEntry)

section Link

variable {st : PtState} {P va l t : ℕ}

theorem linked_self : (linked kmalloc st t (tableIndex va l)).mem (t + 8 * tableIndex va l) =
    virtToPhys (kmalloc st.next) ||| tableEntry := Function.update_self _ _ _

/-- Words outside the new table other than the link. -/
theorem linked_of_ne {u i : ℕ} (hu : IsPage u) (hN : IsPage (kmalloc st.next))
    (huN : u ≠ kmalloc st.next) (hi : i < 512) (hne : u + 8 * i ≠ t + 8 * tableIndex va l) :
    (linked kmalloc st t (tableIndex va l)).mem (u + 8 * i) = st.mem (u + 8 * i) := by
  unfold linked PtState.set createEmptyPageTable
  simp only
  rw [Function.update_of_ne hne, if_neg]
  obtain ⟨-, -, h1⟩ := hu
  obtain ⟨-, -, h2⟩ := hN
  omega

/-- Words of the new table. -/
theorem linked_new {i : ℕ} (ht : IsPage t) (hN : IsPage (kmalloc st.next))
    (htN : t ≠ kmalloc st.next) (hi : i < 512) :
    (linked kmalloc st t (tableIndex va l)).mem (kmalloc st.next + 8 * i) = 0 := by
  unfold linked PtState.set createEmptyPageTable
  simp only
  rw [Function.update_of_ne (word_ne hN.2.2 ht.2.2 htN.symm hi (tableIndex_lt va l)), if_pos]
  omega

/-- After the link, the walks that take it reach the new table, and all the others are as before. -/
theorem tableAt_linked (h : Forest kmalloc pgds st) (hf : Fresh kmalloc pgds (st.next + 1))
    (hP : P ∈ pgds) (hva : va < 2 ^ 48) (hl : l ≤ 2) (ht : tableAt st.mem P va l = some t)
    (he : st.mem (t + 8 * tableIndex va l) = 0) {Q w m : ℕ} (hQ : Q ∈ pgds) (hw : w < 2 ^ 48)
    (hm : m ≤ 3) :
    tableAt (linked kmalloc st t (tableIndex va l)).mem Q w m =
      if Q = P ∧ m = l + 1 ∧ levelPrefix (l + 1) w = levelPrefix (l + 1) va then
        some (kmalloc st.next)
      else tableAt st.mem Q w m := by
  have hN : IsPage (kmalloc st.next) := (hf st.next (Nat.lt_succ_self _)).1
  have hpage : ∀ {u}, IsTable kmalloc pgds st.next u → IsPage u :=
    fun hu => h.isPage_of_table (hf.mono (Nat.le_succ _)) hu
  have htable := h.table P hP va hva l (by omega) t ht
  induction m with
  | zero => rw [if_neg (by rintro ⟨-, h0, -⟩; omega)]; rfl
  | succ m ih =>
    specialize ih (by omega)
    by_cases hsp : Q = P ∧ m = l + 1 ∧ levelPrefix (l + 1) w = levelPrefix (l + 1) va
    · -- below the new table there is nothing
      obtain ⟨rfl, rfl, hpre⟩ := hsp
      rw [if_pos ⟨rfl, rfl, hpre⟩] at ih
      rw [tableAt_succ ih, linked_new (hpage htable) hN (hf.ne htable) (tableIndex_lt _ _),
        if_pos rfl, if_neg (by rintro ⟨-, h0, -⟩; omega)]
      have hold : tableAt st.mem Q w (l + 1) = none := by
        rw [tableAt_congr _ _ (by omega) hpre, tableAt_succ ht, if_pos he]
      exact (tableAt_succ_none hold).symm
    · rw [if_neg hsp] at ih
      cases hu : tableAt st.mem Q w m with
      | none =>
        rw [hu] at ih
        rw [tableAt_succ_none ih, tableAt_succ_none hu, if_neg]
        rintro ⟨rfl, hml, hpre⟩
        obtain rfl : m = l := by omega
        rw [tableAt_congr _ _ (by omega) ((levelPrefix_succ_eq_iff (by omega) w va).mp hpre).1, ht] at hu
        cases hu
      | some u =>
        rw [hu] at ih
        have hut := h.table Q hQ w hw m (by omega) u hu
        by_cases hlink : u = t ∧ tableIndex w m = tableIndex va l
        · -- the walk comes to the entry that was written
          obtain ⟨rfl, hidx⟩ := hlink
          obtain ⟨rfl, rfl, hpre⟩ := h.unique Q hQ P hP w hw va hva m (by omega) l (by omega) u hu ht
          rw [tableAt_succ ih, hidx, linked_self, if_neg (link_ne_zero _), nextTable_link hN,
            if_pos ⟨rfl, rfl, (levelPrefix_succ_eq_iff (by omega) w va).mpr ⟨hpre, hidx⟩⟩]
        · have hne : u + 8 * tableIndex w m ≠ t + 8 * tableIndex va l := by
            intro heq
            by_cases hut' : u = t
            · subst hut'; exact hlink ⟨rfl, by omega⟩
            · exact word_ne (hpage hut).2.2 (hpage htable).2.2 hut' (tableIndex_lt _ _)
                (tableIndex_lt _ _) heq
          have hnsp : ¬ (Q = P ∧ m + 1 = l + 1 ∧
              levelPrefix (l + 1) w = levelPrefix (l + 1) va) := by
            rintro ⟨rfl, hml, hpre⟩
            obtain rfl : m = l := by omega
            obtain ⟨hp, hi⟩ := (levelPrefix_succ_eq_iff (by omega) w va).mp hpre
            rw [tableAt_congr _ _ (by omega) hp, ht] at hu
            exact hlink ⟨(Option.some.inj hu).symm, hi⟩
          rw [if_neg hnsp, tableAt_succ ih, tableAt_succ hu,
            linked_of_ne (hpage hut) hN (hf.ne hut) (tableIndex_lt _ _) hne]

theorem link_spec (h : Forest kmalloc pgds st) (hf : Fresh kmalloc pgds (st.next + 1))
    (hP : P ∈ pgds) (hva : va < 2 ^ 48) (hl : l ≤ 2) (ht : tableAt st.mem P va l = some t)
    (he : st.mem (t + 8 * tableIndex va l) = 0) (S : ℕ → Prop) :
    Forest kmalloc pgds (linked kmalloc st t (tableIndex va l)) ∧
      Extends pgds P S st (linked kmalloc st t (tableIndex va l)) ∧
      tableAt (linked kmalloc st t (tableIndex va l)).mem P va (l + 1) = some (kmalloc st.next) := by
  have hwalk := @tableAt_linked kmalloc pgds st P va l t h hf hP hva hl ht he
  have hN : IsPage (kmalloc st.next) := (hf st.next (Nat.lt_succ_self _)).1
  have hpage : ∀ {u}, IsTable kmalloc pgds st.next u → IsPage u :=
    fun hu => h.isPage_of_table (hf.mono (Nat.le_succ _)) hu
  have htable := h.table P hP va hva l (by omega) t ht
  have hnext : (linked kmalloc st t (tableIndex va l)).next = st.next + 1 := rfl
  -- a walk that takes the link found nothing before
  have hnone : ∀ w, levelPrefix (l + 1) w = levelPrefix (l + 1) va →
      tableAt st.mem P w (l + 1) = none := by
    intro w hpre
    rw [tableAt_congr _ _ (by omega) hpre, tableAt_succ ht, if_pos he]
  refine ⟨⟨h.isPage, ?_, ?_⟩, ⟨Nat.le_succ _, ?_, ?_, ?_⟩, ?_⟩
  · intro Q hQ w hw m hm u hu
    rw [hnext]
    rw [hwalk hQ hw hm] at hu
    split_ifs at hu with hsp
    · exact Or.inr ⟨st.next, Nat.lt_succ_self _, (Option.some.inj hu).symm⟩
    · rcases h.table Q hQ w hw m hm u hu with hu | ⟨k, hk, rfl⟩
      · exact Or.inl hu
      · exact Or.inr ⟨k, by omega, rfl⟩
  · intro Q hQ R hR v hv w hw m hm k hk u hu hu'
    rw [hwalk hQ hv hm] at hu
    rw [hwalk hR hw hk] at hu'
    split_ifs at hu hu' with hsp hsp' hsp'
    · obtain ⟨rfl, rfl, hpre⟩ := hsp
      obtain ⟨rfl, rfl, hpre'⟩ := hsp'
      exact ⟨rfl, rfl, hpre.trans hpre'.symm⟩
    · exact absurd (Option.some.inj hu).symm (hf.ne (h.table R hR w hw k hk u hu'))
    · exact absurd (Option.some.inj hu').symm (hf.ne (h.table Q hQ v hv m hm u hu))
    · exact h.unique Q hQ R hR v hv w hw m hm k hk u hu hu'
  · intro Q hQ w hw m hm u hu
    rw [hwalk hQ hw hm, if_neg]
    · exact hu
    · rintro ⟨rfl, rfl, hpre⟩
      rw [hnone w hpre] at hu
      cases hu
  · intro Q hQ w hw _
    unfold leafEntry
    rw [hwalk hQ hw le_rfl]
    split_ifs with hsp
    · obtain ⟨rfl, h3, hpre⟩ := hsp
      have hold := hnone w hpre
      rw [← h3] at hold
      rw [hold]
      exact linked_new (hpage htable) hN (hf.ne htable) (tableIndex_lt _ _)
    · cases hu : tableAt st.mem Q w 3 with
      | none => rfl
      | some u =>
        -- the link is at a level above the leaves
        have hut := h.table Q hQ w hw 3 le_rfl u hu
        refine linked_of_ne (hpage hut) hN (hf.ne hut) (tableIndex_lt _ _) ?_
        apply word_ne (hpage hut).2.2 (hpage htable).2.2 _ (tableIndex_lt _ _) (tableIndex_lt _ _)
        rintro rfl
        have := (h.unique Q hQ P hP w hw va hva 3 le_rfl l (by omega) u hu ht).2.1
        omega
  · intro Q hQ hQP w hw m hm u hu i hi
    have hut := h.table Q hQ w hw m hm u hu
    refine linked_of_ne (hpage hut) hN (hf.ne hut) hi ?_
    apply word_ne (hpage hut).2.2 (hpage htable).2.2 _ hi (tableIndex_lt _ _)
    rintro rfl
    exact hQP (h.unique Q hQ P hP w hw va hva m hm l (by omega) u hu ht).1
  · rw [hwalk hP hva (by omega), if_pos ⟨rfl, rfl, rfl⟩]

/-! ## The leaf -/

/-- Writing a leaf changes no walk. -/
theorem tableAt_leaf (h : Forest kmalloc pgds st) (hf : Fresh kmalloc pgds st.next) (hP : P ∈ pgds)
    (hva : va < 2 ^ 48) (ht : tableAt st.mem P va 3 = some t) (e : ℕ) {Q w m : ℕ} (hQ : Q ∈ pgds)
    (hw : w < 2 ^ 48) (hm : m ≤ 3) :
    tableAt (st.set t (tableIndex va 3) e).mem Q w m = tableAt st.mem Q w m := by
  induction m with
  | zero => rfl
  | succ m ih =>
    specialize ih (by omega)
    cases hu : tableAt st.mem Q w m with
    | none => rw [tableAt_succ_none hu, tableAt_succ_none (ih.trans hu)]
    | some u =>
      have hne : u + 8 * tableIndex w m ≠ t + 8 * tableIndex va 3 := by
        apply word_ne (h.isPage_of_table hf (h.table Q hQ w hw m (by omega) u hu)).2.2
          (h.isPage_of_table hf (h.table P hP va hva 3 le_rfl t ht)).2.2 _ (tableIndex_lt _ _)
          (tableIndex_lt _ _)
        rintro rfl
        have := (h.unique Q hQ P hP w hw va hva m (by omega) 3 le_rfl u hu ht).2.1
        omega
      rw [tableAt_succ (ih.trans hu), tableAt_succ hu]
      simp only [PtState.set, Function.update_of_ne hne]

theorem leaf_spec (h : Forest kmalloc pgds st) (hf : Fresh kmalloc pgds st.next) (hP : P ∈ pgds)
    (hva : va < 2 ^ 48) (ht : tableAt st.mem P va 3 = some t) (e : ℕ) :
    Forest kmalloc pgds (st.set t (tableIndex va 3) e) ∧
      Extends pgds P (fun w => w / 4096 = va / 4096) st (st.set t (tableIndex va 3) e) ∧
      leafEntry (st.set t (tableIndex va 3) e).mem P va = e := by
  have hwalk := @tableAt_leaf kmalloc pgds st P va t h hf hP hva ht e
  have hpage : ∀ {u}, IsTable kmalloc pgds st.next u → IsPage u := fun hu => h.isPage_of_table hf hu
  have htable := h.table P hP va hva 3 le_rfl t ht
  refine ⟨⟨h.isPage, ?_, ?_⟩, ⟨le_rfl, ?_, ?_, ?_⟩, ?_⟩
  · intro Q hQ w hw m hm u hu
    rw [hwalk hQ hw hm] at hu
    exact h.table Q hQ w hw m hm u hu
  · intro Q hQ R hR v hv w hw m hm k hk u hu hu'
    rw [hwalk hQ hv hm] at hu
    rw [hwalk hR hw hk] at hu'
    exact h.unique Q hQ R hR v hv w hw m hm k hk u hu hu'
  · intro Q hQ w hw m hm u hu
    rwa [hwalk hQ hw hm]
  · intro Q hQ w hw hne
    unfold leafEntry
    rw [hwalk hQ hw le_rfl]
    cases hu : tableAt st.mem Q w 3 with
    | none => rfl
    | some u =>
      refine Function.update_of_ne ?_ _ _
      intro heq
      have hut := h.table Q hQ w hw 3 le_rfl u hu
      by_cases hut' : u = t
      · -- the same table: then it is another index
        subst hut'
        obtain ⟨rfl, -, hpre⟩ := h.unique Q hQ P hP w hw va hva 3 le_rfl 3 le_rfl u hu ht
        have h4 := (levelPrefix_succ_eq_iff (l := 3) le_rfl w va).mpr ⟨hpre, by omega⟩
        rw [levelPrefix_four, levelPrefix_four] at h4
        exact hne rfl h4
      · exact word_ne (hpage hut).2.2 (hpage htable).2.2 hut' (tableIndex_lt _ _)
          (tableIndex_lt _ _) heq
  · intro Q hQ hQP w hw m hm u hu i hi
    refine Function.update_of_ne ?_ _ _
    apply word_ne (hpage (h.table Q hQ w hw m hm u hu)).2.2 (hpage htable).2.2 _ hi
      (tableIndex_lt _ _)
    rintro rfl
    exact hQP (h.unique Q hQ P hP w hw va hva m hm 3 le_rfl u hu ht).1
  · unfold leafEntry
    rw [hwalk hP hva le_rfl, ht]
    exact Function.update_self _ _ _

end Link

/-! ## `walk` -/

theorem le_walkLoop_next (va pa flag rem l t : ℕ) (st : PtState) :
    st.next ≤ (walkLoop kmalloc va pa flag rem l t st).next := by
  induction rem generalizing l t st with
  | zero => exact le_rfl
  | succ rem ih =>
    rw [walkLoop]
    refine le_trans ?_ (ih _ _ _)
    split_ifs
    · exact Nat.le_succ _
    · exact le_rfl

/-- A round of `walk` that meets an empty entry. -/
theorem walkLoop_empty {va l t : ℕ} {st : PtState} (pa flag rem : ℕ)
    (he : st.mem (t + 8 * tableIndex va l) = 0) :
    walkLoop kmalloc va pa flag (rem + 1) l t st =
      walkLoop kmalloc va pa flag rem (l + 1)
        (nextTable (virtToPhys (kmalloc st.next) ||| tableEntry))
        (linked kmalloc st t (tableIndex va l)) := by
  rw [walkLoop, if_pos he]
  exact congrArg (fun e => walkLoop kmalloc va pa flag rem (l + 1) (nextTable e)
    (linked kmalloc st t (tableIndex va l))) linked_self

/-- A round of `walk` that follows an entry. -/
theorem walkLoop_entry {va l t : ℕ} {st : PtState} (pa flag rem : ℕ)
    (he : st.mem (t + 8 * tableIndex va l) ≠ 0) :
    walkLoop kmalloc va pa flag (rem + 1) l t st =
      walkLoop kmalloc va pa flag rem (l + 1) (nextTable (st.mem (t + 8 * tableIndex va l))) st := by
  rw [walkLoop, if_neg he]

theorem walkLoop_spec {P va : ℕ} (hP : P ∈ pgds) (hva : va < 2 ^ 48) (pa flag rem l t : ℕ)
    (st : PtState) (hrem : rem + l = 3) (h : Forest kmalloc pgds st)
    (ht : tableAt st.mem P va l = some t)
    (hf : Fresh kmalloc pgds (walkLoop kmalloc va pa flag rem l t st).next) :
    let st' := walkLoop kmalloc va pa flag rem l t st
    Forest kmalloc pgds st' ∧ Extends pgds P (fun w => w / 4096 = va / 4096) st st' ∧
      leafEntry st'.mem P va = pageEntry pa flag ∧ tableAt st'.mem P va 3 ≠ none := by
  induction rem generalizing l t st with
  | zero =>
    obtain rfl : l = 3 := by omega
    obtain ⟨h1, h2, h3⟩ := leaf_spec h hf hP hva ht (pageEntry pa flag)
    refine ⟨h1, h2, h3, ?_⟩
    rw [show walkLoop kmalloc va pa flag 0 3 t st =
      st.set t (tableIndex va 3) (pageEntry pa flag) from rfl, h2.tables P hP va hva 3 le_rfl t ht]
    simp
  | succ rem ih =>
    by_cases he : st.mem (t + 8 * tableIndex va l) = 0
    · -- an empty entry gets a new table
      rw [walkLoop_empty pa flag rem he] at hf ⊢
      have hf1 : Fresh kmalloc pgds (st.next + 1) :=
        hf.mono (le_walkLoop_next va pa flag rem (l + 1) _ (linked kmalloc st t (tableIndex va l)))
      have hN : IsPage (kmalloc st.next) := (hf1 st.next (Nat.lt_succ_self _)).1
      rw [nextTable_link hN] at hf ⊢
      obtain ⟨h1, h2, h3⟩ := link_spec h hf1 hP hva (by omega) ht he _
      obtain ⟨h4, h5, h6, h7⟩ := ih (l + 1) _ _ (by omega) h1 h3 hf
      exact ⟨h4, h2.trans h5, h6, h7⟩
    · rw [walkLoop_entry pa flag rem he] at hf ⊢
      exact ih (l + 1) _ st (by omega) h (by rw [tableAt_succ ht, if_neg he]) hf

theorem walk_spec {P va : ℕ} (hP : P ∈ pgds) (hva : va < 2 ^ 48) (pa flag : ℕ) {st : PtState}
    (h : Forest kmalloc pgds st) (hf : Fresh kmalloc pgds (walk kmalloc st P va pa flag).next) :
    Forest kmalloc pgds (walk kmalloc st P va pa flag) ∧
      Extends pgds P (fun w => w / 4096 = va / 4096) st (walk kmalloc st P va pa flag) ∧
      leafEntry (walk kmalloc st P va pa flag).mem P va = pageEntry pa flag ∧
      tableAt (walk kmalloc st P va pa flag).mem P va 3 ≠ none :=
  walkLoop_spec hP hva pa flag 3 0 P st rfl h rfl hf

/-! ## `map_pages` -/

/-- The arguments of a call of `map_pages`. -/
structure MapCall where
  pgd : ℕ
  va : ℕ
  size : ℕ
  pa : ℕ
  flags : ℕ
  deriving DecidableEq, Repr

def MapCall.exec (kmalloc : ℕ → ℕ) (st : PtState) (c : MapCall) : PtState :=
  mapPages kmalloc st c.pgd c.va c.size c.pa c.flags

/-- The page range of the call covers `v`. -/
def MapCall.Covers (c : MapCall) (v : ℕ) : Prop := c.va ≤ v ∧ v < c.va + 4096 * nrPagesOf c.size

instance (c : MapCall) (v : ℕ) : Decidable (c.Covers v) :=
  inferInstanceAs (Decidable (c.va ≤ v ∧ v < c.va + 4096 * nrPagesOf c.size))

/-- Aligned addresses, ranges below `2 ^ 48`, and flags that leave bits 12 to 47 alone. -/
@[mk_iff] structure MapCall.Valid (pgds : List ℕ) (c : MapCall) : Prop where
  pgd : c.pgd ∈ pgds
  va : 4096 ∣ c.va
  pa : 4096 ∣ c.pa
  va_le : c.va + c.size ≤ 2 ^ 48
  pa_le : c.pa + c.size ≤ 2 ^ 48
  flags : c.flags &&& entryAddrMask = 0

instance MapCall.decidableValid (pgds : List ℕ) (c : MapCall) : Decidable (c.Valid pgds) :=
  decidable_of_iff _ (MapCall.valid_iff pgds c).symm

/-- The part of a valid call that is about the virtual range: nothing is said about the frames. -/
structure MapCall.Placed (pgds : List ℕ) (c : MapCall) : Prop where
  pgd : c.pgd ∈ pgds
  va : 4096 ∣ c.va
  va_le : c.va + c.size ≤ 2 ^ 48

theorem MapCall.Valid.placed {c : MapCall} (h : c.Valid pgds) : c.Placed pgds :=
  ⟨h.pgd, h.va, h.va_le⟩

theorem MapCall.Placed.lt {c : MapCall} (h : c.Placed pgds) {v : ℕ} (hv : c.Covers v) :
    v < 2 ^ 48 := by
  have h1 := h.va
  have h2 := h.va_le
  have h3 := hv.2
  unfold nrPagesOf at h3
  omega

theorem le_walk_next (st : PtState) (P va pa flag : ℕ) :
    st.next ≤ (walk kmalloc st P va pa flag).next := le_walkLoop_next va pa flag 3 0 P st

theorem le_mapLoop_next (st : PtState) (P va pa flags n : ℕ) :
    st.next ≤ ((List.range n).foldl
      (fun st i => walk kmalloc st P (va + 4096 * i) (pa + 4096 * i) flags) st).next := by
  induction n with
  | zero => exact le_rfl
  | succ n ih =>
    rw [List.range_succ, List.foldl_append]
    exact ih.trans (le_walk_next _ _ _ _ _)

/-- The first `n` rounds of the loop of `map_pages`. -/
theorem mapLoop_spec {P va : ℕ} (hP : P ∈ pgds) (hva : 4096 ∣ va) (pa flags n : ℕ)
    (hend : va + 4096 * n ≤ 2 ^ 48) {st : PtState} (h : Forest kmalloc pgds st)
    (hf : Fresh kmalloc pgds ((List.range n).foldl
      (fun st i => walk kmalloc st P (va + 4096 * i) (pa + 4096 * i) flags) st).next) :
    let st' := (List.range n).foldl
      (fun st i => walk kmalloc st P (va + 4096 * i) (pa + 4096 * i) flags) st
    Forest kmalloc pgds st' ∧ Extends pgds P (fun w => va ≤ w ∧ w < va + 4096 * n) st st' ∧
      ∀ i < n, leafEntry st'.mem P (va + 4096 * i) = pageEntry (pa + 4096 * i) flags ∧
        tableAt st'.mem P (va + 4096 * i) 3 ≠ none := by
  induction n with
  | zero => exact ⟨h, Extends.refl _ _ _, fun i hi => absurd hi (Nat.not_lt_zero i)⟩
  | succ n ih =>
    simp only [List.range_succ, List.foldl_append, List.foldl_cons, List.foldl_nil] at hf ⊢
    obtain ⟨h1, h2, h3⟩ := ih (by omega) (hf.mono (le_walk_next _ _ _ _ _))
    obtain ⟨h4, h5, h6, h7⟩ := walk_spec hP (by omega) _ _ h1 hf
    refine ⟨h4, (h2.mono ?_).trans (h5.mono ?_), ?_⟩
    · intro w hw; omega
    · intro w hw; omega
    · intro i hi
      rcases Nat.lt_succ_iff_lt_or_eq.mp hi with hi | rfl
      · obtain ⟨hleaf, htab⟩ := h3 i hi
        refine ⟨?_, ?_⟩
        · rw [h5.leaves P hP _ (by omega) (fun _ => by omega), hleaf]
        · obtain ⟨t, ht⟩ := Option.ne_none_iff_exists'.mp htab
          rw [h5.tables P hP _ (by omega) 3 le_rfl t ht]
          simp
      · exact ⟨h6, h7⟩

theorem le_exec_next (st : PtState) (c : MapCall) : st.next ≤ (c.exec kmalloc st).next :=
  le_mapLoop_next st c.pgd c.va c.pa c.flags (nrPagesOf c.size)

/-- One call of `map_pages`. -/
theorem mapPages_spec {c : MapCall} (hc : c.Placed pgds) {st : PtState} (h : Forest kmalloc pgds st)
    (hf : Fresh kmalloc pgds (c.exec kmalloc st).next) :
    Forest kmalloc pgds (c.exec kmalloc st) ∧
      Extends pgds c.pgd c.Covers st (c.exec kmalloc st) ∧
      ∀ v, c.Covers v → tableAt (c.exec kmalloc st).mem c.pgd v 3 ≠ none ∧
        leafEntry (c.exec kmalloc st).mem c.pgd v =
          pageEntry (c.pa + 4096 * ((v - c.va) / 4096)) c.flags := by
  have hend : c.va + 4096 * nrPagesOf c.size ≤ 2 ^ 48 := by
    have := hc.va; have := hc.va_le
    unfold nrPagesOf
    omega
  obtain ⟨h1, h2, h3⟩ := mapLoop_spec hc.pgd hc.va c.pa c.flags _ hend h hf
  refine ⟨h1, h2, ?_⟩
  rintro v ⟨hv, hv'⟩
  have hpage : v / 4096 = (c.va + 4096 * ((v - c.va) / 4096)) / 4096 := by
    have := hc.va; omega
  obtain ⟨hleaf, htab⟩ := h3 ((v - c.va) / 4096) (by omega)
  obtain ⟨ht, hl⟩ := leafEntry_congr (c.exec kmalloc st).mem c.pgd hpage
  exact ⟨by rw [ht]; exact htab, hl.trans hleaf⟩

/-! ## Sequences of calls -/

/-- A sequence of calls of `map_pages`. -/
def mapRun (kmalloc : ℕ → ℕ) (calls : List MapCall) (st : PtState) : PtState :=
  calls.foldl (MapCall.exec kmalloc) st

/-- The flat map: the last call under `pgd` whose page range covers `v`. -/
def lastMapping (calls : List MapCall) (pgd v : ℕ) : Option MapCall :=
  (calls.filter fun c => c.pgd = pgd ∧ c.Covers v).getLast?

theorem lastMapping_snoc (calls : List MapCall) (c : MapCall) (pgd v : ℕ) :
    lastMapping (calls ++ [c]) pgd v =
      if c.pgd = pgd ∧ c.Covers v then some c else lastMapping calls pgd v := by
  unfold lastMapping
  rw [List.filter_append]
  split_ifs with h
  · rw [List.filter_cons_of_pos (by simpa using h), List.filter_nil, List.getLast?_concat]
  · rw [List.filter_cons_of_neg (by simpa using h), List.filter_nil, List.append_nil]

theorem mapRun_snoc (calls : List MapCall) (c : MapCall) (st : PtState) :
    mapRun kmalloc (calls ++ [c]) st = c.exec kmalloc (mapRun kmalloc calls st) := by
  simp [mapRun]

theorem le_mapRun_next (calls : List MapCall) (st : PtState) :
    st.next ≤ (mapRun kmalloc calls st).next := by
  induction calls generalizing st with
  | nil => exact le_rfl
  | cons c calls ih => exact (le_exec_next st c).trans (ih _)

/-- Empty tables are a forest of roots. -/
theorem forest_init {mem : ℕ → ℕ} (hpgds : ∀ P ∈ pgds, IsPage P)
    (hzero : ∀ P ∈ pgds, ∀ i < 512, mem (P + 8 * i) = 0) : Forest kmalloc pgds ⟨mem, 0⟩ := by
  have hroot : ∀ P ∈ pgds, ∀ v l t, tableAt mem P v l = some t → l = 0 ∧ t = P := by
    intro P hP v l
    induction l with
    | zero => intro t ht; exact ⟨rfl, (Option.some.inj ht).symm⟩
    | succ l ih =>
      intro t ht
      cases hu : tableAt mem P v l with
      | none => rw [tableAt_succ_none hu] at ht; cases ht
      | some u =>
        obtain ⟨rfl, rfl⟩ := ih u hu
        rw [tableAt_succ hu, if_pos (hzero u hP _ (tableIndex_lt _ _))] at ht
        cases ht
  refine ⟨hpgds, ?_, ?_⟩
  · intro P hP v _ l _ t ht
    rw [(hroot P hP v l t ht).2]
    exact Or.inl hP
  · intro P hP Q hQ v hv w hw l _ m _ t ht ht'
    obtain ⟨rfl, rfl⟩ := hroot P hP v l t ht
    obtain ⟨rfl, rfl⟩ := hroot Q hQ w m t ht'
    exact ⟨rfl, rfl, by rw [levelPrefix_zero hv, levelPrefix_zero hw]⟩

/-- The tables refine the flat map. -/
structure Refines (pgds : List ℕ) (calls : List MapCall) (mem : ℕ → ℕ) : Prop where
  mapped : ∀ P ∈ pgds, ∀ v < 2 ^ 48, ∀ c, lastMapping calls P v = some c →
    tableAt mem P v 3 ≠ none ∧
      leafEntry mem P v = pageEntry (c.pa + 4096 * ((v - c.va) / 4096)) c.flags
  unmapped : ∀ P ∈ pgds, ∀ v < 2 ^ 48, lastMapping calls P v = none → leafEntry mem P v = 0

/-- A new, empty address space refines a flat map without calls for it. -/
theorem leafEntry_of_empty {mem : ℕ → ℕ} {P : ℕ} (hzero : ∀ i < 512, mem (P + 8 * i) = 0) (v : ℕ) :
    leafEntry mem P v = 0 := by
  have hnone : tableAt mem P v 1 = none := by
    rw [tableAt_succ (t := P) rfl, if_pos (hzero _ (tableIndex_lt _ _))]
  have hnone3 : tableAt mem P v 3 = none := tableAt_succ_none (tableAt_succ_none hnone)
  rw [leafEntry, hnone3]

/-- One more call of `map_pages`. -/
theorem Refines.snoc {calls : List MapCall} {st : PtState} {c : MapCall}
    (href : Refines pgds calls st.mem) (hc : c.Placed pgds) (h : Forest kmalloc pgds st)
    (hf : Fresh kmalloc pgds (c.exec kmalloc st).next) :
    Refines pgds (calls ++ [c]) (c.exec kmalloc st).mem := by
  obtain ⟨-, hext, hcov⟩ := mapPages_spec hc h hf
  refine ⟨?_, ?_⟩
  · intro P hP v hv d hd
    rw [lastMapping_snoc] at hd
    split_ifs at hd with hcase
    · obtain rfl := Option.some.inj hd
      obtain ⟨rfl, hcv⟩ := hcase
      exact hcov v hcv
    · obtain ⟨htab, hleaf⟩ := href.mapped P hP v hv d hd
      refine ⟨?_, ?_⟩
      · obtain ⟨t, ht⟩ := Option.ne_none_iff_exists'.mp htab
        rw [hext.tables P hP v hv 3 le_rfl t ht]
        simp
      · rw [hext.leaves P hP v hv fun hPc hcv => hcase ⟨hPc.symm, hcv⟩, hleaf]
  · intro P hP v hv hd
    rw [lastMapping_snoc] at hd
    split_ifs at hd with hcase
    rw [hext.leaves P hP v hv fun hPc hcv => hcase ⟨hPc.symm, hcv⟩]
    exact href.unmapped P hP v hv hd

theorem mapRun_spec {mem : ℕ → ℕ} (hpgds : ∀ P ∈ pgds, IsPage P)
    (hzero : ∀ P ∈ pgds, ∀ i < 512, mem (P + 8 * i) = 0) (calls : List MapCall)
    (hvalid : ∀ c ∈ calls, c.Valid pgds)
    (hf : Fresh kmalloc pgds (mapRun kmalloc calls ⟨mem, 0⟩).next) :
    Forest kmalloc pgds (mapRun kmalloc calls ⟨mem, 0⟩) ∧
      Refines pgds calls (mapRun kmalloc calls ⟨mem, 0⟩).mem := by
  induction calls using List.reverseRecOn with
  | nil =>
    refine ⟨forest_init hpgds hzero, ?_, ?_⟩
    · intro P _ v _ c hc; cases hc
    · intro P hP v _ _
      exact leafEntry_of_empty (hzero P hP) v
  | append_singleton calls c ih =>
    rw [mapRun_snoc] at hf ⊢
    obtain ⟨h, href⟩ := ih (fun d hd => hvalid d (List.mem_append_left _ hd))
      (hf.mono (le_exec_next _ c))
    have hc := (hvalid c (List.mem_append_right _ List.mem_cons_self)).placed
    exact ⟨(mapPages_spec hc h hf).1, href.snoc hc h hf⟩

theorem mem_of_lastMapping {calls : List MapCall} {P v : ℕ} {c : MapCall}
    (h : lastMapping calls P v = some c) : c ∈ calls ∧ c.pgd = P ∧ c.Covers v := by
  have := List.mem_of_getLast? h
  simpa using this

/-- What `simulate_walk` makes of the entry of a page. -/
theorem pageEntry_translate {c : MapCall} (hc : c.Valid pgds) {v : ℕ} (hv : c.Covers v) :
    (pageEntry (c.pa + 4096 * ((v - c.va) / 4096)) c.flags &&& entryAddrMask) ||| (v &&& 0xfff) =
      c.pa + (v - c.va) := by
  obtain ⟨h1, h2⟩ := hv
  have hva := hc.va
  have hpa := hc.pa
  have hpal := hc.pa_le
  have hattr : (normalPageAttr ||| pxn ||| c.flags) &&& entryAddrMask = 0 := by
    rw [Nat.and_or_distrib_right, hc.flags, Nat.or_zero]
    decide
  have hlt : c.pa + 4096 * ((v - c.va) / 4096) < 2 ^ 48 := by
    unfold nrPagesOf at h2
    omega
  unfold pageEntry
  rw [and_entryAddrMask hlt (by omega) hattr]
  obtain ⟨q, hq⟩ : 2 ^ 12 ∣ c.pa + 4096 * ((v - c.va) / 4096) := by omega
  have hoff : v &&& 0xfff = v % 2 ^ 12 := Nat.and_two_pow_sub_one_eq_mod v 12
  rw [hoff, hq, ← Nat.two_pow_add_eq_or_of_lt (Nat.mod_lt _ (by norm_num)), ← hq]
  omega

/-- Of an address that is not page aligned, the entry keeps the page: the bits below it are lost among
    the attributes. -/
theorem pageEntry_page {x flags : ℕ} (hx : x < 2 ^ 48) (hflags : flags &&& entryAddrMask = 0) (v : ℕ) :
    ((pageEntry x flags &&& entryAddrMask) ||| (v &&& 0xfff)) / 4096 = x / 4096 := by
  have hattr : (normalPageAttr ||| pxn ||| flags) &&& entryAddrMask = 0 := by
    rw [Nat.and_or_distrib_right, hflags, Nat.or_zero]
    decide
  have hmask : pageEntry x flags &&& entryAddrMask = 2 ^ 12 * (x / 4096) := by
    rw [pageEntry, Nat.and_or_distrib_right, hattr, Nat.or_zero,
      show entryAddrMask = 2 ^ 48 - 2 ^ 12 from rfl, and_high_mask hx (by norm_num)]
    omega
  have hoff : v &&& 0xfff = v % 2 ^ 12 := Nat.and_two_pow_sub_one_eq_mod v 12
  rw [hmask, hoff, ← Nat.two_pow_add_eq_or_of_lt (Nat.mod_lt _ (by norm_num))]
  omega

/-- A step that keeps the tables and the leaf keeps the translation of a page, and that of every
    address of a mapped page. -/
theorem Extends.simulateWalk_eq {P Q w : ℕ} {S : ℕ → Prop} {st st' : PtState}
    (h : Extends pgds P S st st') (hQ : Q ∈ pgds) (hw : w < 2 ^ 48) (hne : Q = P → ¬ S w)
    (hmap : 4096 ∣ w ∨ leafEntry st.mem Q w ≠ 0) :
    simulateWalk st'.mem Q w = simulateWalk st.mem Q w := by
  have hleaf := h.leaves Q hQ w hw hne
  rw [Mm.simulateWalk_eq, Mm.simulateWalk_eq, hleaf]
  cases ht : tableAt st.mem Q w 3 with
  | some t => rw [h.tables Q hQ w hw 3 le_rfl t ht]
  | none =>
    -- no table yet: the page has no entry, and an address without offset translates to 0
    have h0 : leafEntry st.mem Q w = 0 := by rw [leafEntry, ht]
    have hoff : w &&& 0xfff = 0 := by
      have := hmap.resolve_right (not_not.mpr h0)
      rw [show w &&& 0xfff = w % 2 ^ 12 from Nat.and_two_pow_sub_one_eq_mod w 12]
      omega
    rw [h0, hoff]
    simp

end Forest

/-- **Page-table correctness.** For every set of initially empty `pgd`s and every sequence of
    `map_pages` calls: every address that some call covers translates as the last call that covers
    it says; a call changes neither the entry nor the translation of a page outside its range, and
    no word of a table reachable from another `pgd`. -/
theorem map_pages_refines {kmalloc : ℕ → ℕ} {pgds : List ℕ} {mem : ℕ → ℕ}
    (hpgds : ∀ P ∈ pgds, IsPage P) (hzero : ∀ P ∈ pgds, ∀ i < 512, mem (P + 8 * i) = 0)
    (calls : List MapCall) (hvalid : ∀ c ∈ calls, c.Valid pgds)
    (hfresh : Fresh kmalloc pgds (mapRun kmalloc calls ⟨mem, 0⟩).next) :
    (∀ P ∈ pgds, ∀ v c, lastMapping calls P v = some c →
      simulateWalk (mapRun kmalloc calls ⟨mem, 0⟩).mem P v = c.pa + (v - c.va)) ∧
    ∀ before c after, calls = before ++ c :: after →
      let st := mapRun kmalloc before ⟨mem, 0⟩
      let st' := c.exec kmalloc st
      (∀ P ∈ pgds, ∀ w < 2 ^ 48, (P = c.pgd → ¬ c.Covers w) →
        leafEntry st'.mem P w = leafEntry st.mem P w ∧
        (4096 ∣ w ∨ leafEntry st.mem P w ≠ 0 →
          simulateWalk st'.mem P w = simulateWalk st.mem P w)) ∧
      ∀ Q ∈ pgds, Q ≠ c.pgd → ∀ w < 2 ^ 48, ∀ l ≤ 3, ∀ t, tableAt st.mem Q w l = some t →
        ∀ i < 512, st'.mem (t + 8 * i) = st.mem (t + 8 * i) := by
  refine ⟨?_, ?_⟩
  · intro P hP v c hc
    obtain ⟨-, href⟩ := mapRun_spec hpgds hzero calls hvalid hfresh
    obtain ⟨hmem, hPc, hcv⟩ := mem_of_lastMapping hc
    have hcval := hvalid c hmem
    have hv := hcval.placed.lt hcv
    obtain ⟨htab, hleaf⟩ := href.mapped P hP v hv c hc
    rw [simulateWalk_eq, if_neg htab, hleaf]
    exact pageEntry_translate hcval hcv
  · rintro before c after rfl
    have hnext : (c.exec kmalloc (mapRun kmalloc before ⟨mem, 0⟩)).next ≤
        (mapRun kmalloc (before ++ c :: after) ⟨mem, 0⟩).next := by
      simp only [mapRun, List.foldl_append, List.foldl_cons]
      exact le_mapRun_next after _
    have hf' := hfresh.mono hnext
    obtain ⟨h, -⟩ := mapRun_spec hpgds hzero before
      (fun d hd => hvalid d (List.mem_append_left _ hd)) (hf'.mono (le_exec_next _ c))
    obtain ⟨-, hext, -⟩ := mapPages_spec (hvalid c (by simp)).placed h hf'
    refine ⟨fun P hP w hw hne => ⟨hext.leaves P hP w hw hne, ?_⟩, hext.others⟩
    exact hext.simulateWalk_eq hP hw hne

/-- Two pages, then one of them again to another frame, next to a second address space. -/
theorem map_pages_refines_remap :
    simulateWalk (mapRun (fun k => 0xffff000000100000 + 4096 * k)
      [⟨0xffff000000001000, 0x1000, 0x1801, 0x80000, 0x40⟩,
        ⟨0xffff000000002000, 0x2000, 0x1000, 0x90000, 0x40⟩,
        ⟨0xffff000000001000, 0x2000, 0x1000, 0x3f000000, 0x40⟩] ⟨fun _ => 0, 0⟩).mem
      0xffff000000001000 0x2345 = 0x3f000345 := by
  have h := @map_pages_refines (fun k => 0xffff000000100000 + 4096 * k)
    [0xffff000000001000, 0xffff000000002000] (fun _ => 0) (by decide) (fun _ _ _ _ => rfl)
    [⟨0xffff000000001000, 0x1000, 0x1801, 0x80000, 0x40⟩,
      ⟨0xffff000000002000, 0x2000, 0x1000, 0x90000, 0x40⟩,
      ⟨0xffff000000001000, 0x2000, 0x1000, 0x3f000000, 0x40⟩]
    (by decide) (by decide)
  exact h.1 _ (by decide) _ ⟨0xffff000000001000, 0x2000, 0x1000, 0x3f000000, 0x40⟩ (by decide)

end RaspiKernel.Mm
