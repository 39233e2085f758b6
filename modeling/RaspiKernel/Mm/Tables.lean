import RaspiKernel.Mm.PagingRefine

/-!
# Page tables next to other memory

The tables share the memory with the programs and stacks that they map. Here is
what the two have to do with each other: a store outside the tables changes no
translation, `map_pages` stores nowhere else, and `create_empty_page_table` adds
an address space to those that are there.
-/

namespace RaspiKernel.Mm

open Memblock (physToVirt virtToPhys)

section

variable {kmalloc : ℕ → ℕ} {pgds : List ℕ}

/-- The word at `a` is part of a table. -/
def InTable (kmalloc : ℕ → ℕ) (pgds : List ℕ) (n a : ℕ) : Prop :=
  ∃ t, IsTable kmalloc pgds n t ∧ t ≤ a ∧ a < t + 4096

theorem IsTable.mono {m n t : ℕ} (h : IsTable kmalloc pgds m t) (hmn : m ≤ n) :
    IsTable kmalloc pgds n t := by
  rcases h with h | ⟨k, hk, rfl⟩
  · exact Or.inl h
  · exact Or.inr ⟨k, by omega, rfl⟩

theorem InTable.mono {m n a : ℕ} (h : InTable kmalloc pgds m a) (hmn : m ≤ n) :
    InTable kmalloc pgds n a := by
  obtain ⟨t, ht, ha⟩ := h
  exact ⟨t, ht.mono hmn, ha⟩

theorem IsTable.entry {n t : ℕ} (h : IsTable kmalloc pgds n t) (v l : ℕ) :
    InTable kmalloc pgds n (t + 8 * tableIndex v l) := by
  have := tableIndex_lt v l
  exact ⟨t, h, by omega, by omega⟩

/-! ## Stores outside the tables -/

/-- A walk only reads tables. -/
theorem Forest.tableAt_eq {st : PtState} (h : Forest kmalloc pgds st) {mem' : ℕ → ℕ}
    (hmem : ∀ a, InTable kmalloc pgds st.next a → mem' a = st.mem a) {P v : ℕ} (hP : P ∈ pgds)
    (hv : v < 2 ^ 48) : ∀ l ≤ 3, tableAt mem' P v l = tableAt st.mem P v l := by
  intro l
  induction l with
  | zero => exact fun _ => rfl
  | succ l ih =>
    intro hl
    have hprev := ih (by omega)
    cases ht : tableAt st.mem P v l with
    | none => rw [tableAt_succ_none ht, tableAt_succ_none (hprev.trans ht)]
    | some t =>
      have hentry := hmem _ ((h.table P hP v hv l (by omega) t ht).entry v l)
      rw [tableAt_succ ht, tableAt_succ (hprev.trans ht), hentry]

theorem Forest.leafEntry_eq {st : PtState} (h : Forest kmalloc pgds st) {mem' : ℕ → ℕ}
    (hmem : ∀ a, InTable kmalloc pgds st.next a → mem' a = st.mem a) {P v : ℕ} (hP : P ∈ pgds)
    (hv : v < 2 ^ 48) : leafEntry mem' P v = leafEntry st.mem P v := by
  have htab := h.tableAt_eq hmem hP hv 3 le_rfl
  unfold leafEntry
  rw [htab]
  cases ht : tableAt st.mem P v 3 with
  | none => rfl
  | some t => exact hmem _ ((h.table P hP v hv 3 le_rfl t ht).entry v 3)

theorem Forest.of_mem {st : PtState} (h : Forest kmalloc pgds st) {mem' : ℕ → ℕ}
    (hmem : ∀ a, InTable kmalloc pgds st.next a → mem' a = st.mem a) :
    Forest kmalloc pgds { st with mem := mem' } := by
  refine ⟨h.isPage, ?_, ?_⟩
  · intro P hP v hv l hl t ht
    rw [h.tableAt_eq hmem hP hv l hl] at ht
    exact h.table P hP v hv l hl t ht
  · intro P hP Q hQ v hv w hw l hl m hm t ht ht'
    rw [h.tableAt_eq hmem hP hv l hl] at ht
    rw [h.tableAt_eq hmem hQ hw m hm] at ht'
    exact h.unique P hP Q hQ v hv w hw l hl m hm t ht ht'

theorem Refines.of_mem {calls : List MapCall} {st : PtState} (href : Refines pgds calls st.mem)
    (h : Forest kmalloc pgds st) {mem' : ℕ → ℕ}
    (hmem : ∀ a, InTable kmalloc pgds st.next a → mem' a = st.mem a) :
    Refines pgds calls mem' := by
  refine ⟨?_, ?_⟩
  · intro P hP v hv c hc
    rw [h.tableAt_eq hmem hP hv 3 le_rfl, h.leafEntry_eq hmem hP hv]
    exact href.mapped P hP v hv c hc
  · intro P hP v hv hc
    rw [h.leafEntry_eq hmem hP hv]
    exact href.unmapped P hP v hv hc

/-! ## Where `map_pages` stores -/

theorem walkLoop_frame {P va : ℕ} (hP : P ∈ pgds) (hva : va < 2 ^ 48) (pa flag rem l t : ℕ)
    (st : PtState) (hrem : rem + l = 3) (h : Forest kmalloc pgds st)
    (ht : tableAt st.mem P va l = some t)
    (hf : Fresh kmalloc pgds (walkLoop kmalloc va pa flag rem l t st).next) {a : ℕ}
    (ha : ¬ InTable kmalloc pgds (walkLoop kmalloc va pa flag rem l t st).next a) :
    (walkLoop kmalloc va pa flag rem l t st).mem a = st.mem a := by
  induction rem generalizing l t st with
  | zero =>
    obtain rfl : l = 3 := by omega
    have htable := h.table P hP va hva 3 le_rfl t ht
    refine Function.update_of_ne ?_ ..
    rintro rfl
    exact ha (htable.entry va 3)
  | succ rem ih =>
    have htable := h.table P hP va hva l (by omega) t ht
    by_cases he : st.mem (t + 8 * tableIndex va l) = 0
    · rw [walkLoop_empty pa flag rem he] at hf ha ⊢
      have hle := @le_walkLoop_next kmalloc va pa flag rem (l + 1)
        (nextTable (virtToPhys (kmalloc st.next) ||| tableEntry))
        (linked kmalloc st t (tableIndex va l))
      rw [show (linked kmalloc st t (tableIndex va l)).next = st.next + 1 from rfl] at hle
      have hf1 : Fresh kmalloc pgds (st.next + 1) := hf.mono hle
      have hN : IsPage (kmalloc st.next) := (hf1 st.next (Nat.lt_succ_self _)).1
      rw [nextTable_link hN] at hf ha hle ⊢
      obtain ⟨h1, -, h3⟩ := link_spec h hf1 hP hva (by omega) ht he fun _ => False
      rw [ih (l + 1) _ _ (by omega) h1 h3 hf ha]
      -- neither the link nor the new table
      have hlink : a ≠ t + 8 * tableIndex va l := by
        rintro rfl
        exact ha ((htable.entry va l).mono (by omega))
      have hnew : ¬ (kmalloc st.next ≤ a ∧ a < kmalloc st.next + 4096) := by
        intro hin
        exact ha ⟨_, Or.inr ⟨st.next, by omega, rfl⟩, hin⟩
      unfold linked PtState.set createEmptyPageTable
      dsimp only
      rw [Function.update_of_ne hlink, if_neg hnew]
    · rw [walkLoop_entry pa flag rem he] at hf ha ⊢
      exact ih (l + 1) _ st (by omega) h (by rw [tableAt_succ ht, if_neg he]) hf ha

theorem mapLoop_frame {P va : ℕ} (hP : P ∈ pgds) (hva : 4096 ∣ va) (pa flags n : ℕ)
    (hend : va + 4096 * n ≤ 2 ^ 48) {st : PtState} (h : Forest kmalloc pgds st)
    (hf : Fresh kmalloc pgds ((List.range n).foldl
      (fun st i => walk kmalloc st P (va + 4096 * i) (pa + 4096 * i) flags) st).next) {a : ℕ}
    (ha : ¬ InTable kmalloc pgds ((List.range n).foldl
      (fun st i => walk kmalloc st P (va + 4096 * i) (pa + 4096 * i) flags) st).next a) :
    ((List.range n).foldl
      (fun st i => walk kmalloc st P (va + 4096 * i) (pa + 4096 * i) flags) st).mem a =
        st.mem a := by
  induction n with
  | zero => rfl
  | succ n ih =>
    simp only [List.range_succ, List.foldl_append, List.foldl_cons, List.foldl_nil] at hf ha ⊢
    have hf' := hf.mono (le_walk_next _ _ _ _ _)
    obtain ⟨h1, -, -⟩ := mapLoop_spec hP hva pa flags n (by omega) h hf'
    rw [← ih (by omega) hf' fun hin => ha (hin.mono (le_walk_next _ _ _ _ _))]
    exact walkLoop_frame hP (by omega) _ _ 3 0 P _ rfl h1 rfl hf ha

/-- `map_pages` leaves the words outside the tables alone. -/
theorem mapPages_frame {c : MapCall} (hc : c.Placed pgds) {st : PtState} (h : Forest kmalloc pgds st)
    (hf : Fresh kmalloc pgds (c.exec kmalloc st).next) {a : ℕ}
    (ha : ¬ InTable kmalloc pgds (c.exec kmalloc st).next a) :
    (c.exec kmalloc st).mem a = st.mem a := by
  have hend : c.va + 4096 * nrPagesOf c.size ≤ 2 ^ 48 := by
    have := hc.va
    have := hc.va_le
    unfold nrPagesOf
    omega
  exact mapLoop_frame hc.pgd hc.va c.pa c.flags _ hend h hf ha

/-! ## A new address space -/

/-- The memory after `create_empty_page_table` has returned `P`. -/
def zeroPage (P : ℕ) (mem : ℕ → ℕ) : ℕ → ℕ :=
  fun a => if P ≤ a ∧ a < P + 4096 then 0 else mem a

theorem zeroPage_of_not_mem {P a : ℕ} {mem : ℕ → ℕ} (h : ¬ (P ≤ a ∧ a < P + 4096)) :
    zeroPage P mem a = mem a := if_neg h

section

variable {st : PtState} {P : ℕ}

/-- A page that is no table yet. -/
theorem zeroPage_inTable (h : Forest kmalloc pgds st) (hf : Fresh kmalloc pgds st.next)
    (hP : IsPage P) (hnew : ¬ IsTable kmalloc pgds st.next P) (a : ℕ)
    (ha : InTable kmalloc pgds st.next a) : zeroPage P st.mem a = st.mem a := by
  obtain ⟨t, ht, hta⟩ := ha
  have htP : t ≠ P := by
    rintro rfl
    exact hnew ht
  obtain ⟨-, -, hta'⟩ := h.isPage_of_table hf ht
  obtain ⟨-, -, hP'⟩ := hP
  exact zeroPage_of_not_mem (by omega)

theorem zeroPage_entry (i : ℕ) (hi : i < 512) : zeroPage P st.mem (P + 8 * i) = 0 :=
  if_pos ⟨by omega, by omega⟩

theorem tableAt_zeroPage {v l t : ℕ} (h : tableAt (zeroPage P st.mem) P v l = some t) :
    l = 0 ∧ t = P := by
  induction l generalizing t with
  | zero => exact ⟨rfl, (Option.some.inj h).symm⟩
  | succ l ih =>
    cases hu : tableAt (zeroPage P st.mem) P v l with
    | none =>
      rw [tableAt_succ_none hu] at h
      cases h
    | some u =>
      obtain ⟨rfl, rfl⟩ := ih hu
      rw [tableAt_succ hu, if_pos (zeroPage_entry _ (tableIndex_lt _ _))] at h
      cases h

/-- A new `pgd` makes one more tree. -/
theorem Forest.addPgd (h : Forest kmalloc pgds st) (hf : Fresh kmalloc pgds st.next) (hP : IsPage P)
    (hnew : ¬ IsTable kmalloc pgds st.next P) :
    Forest kmalloc (P :: pgds) { st with mem := zeroPage P st.mem } := by
  have hsame := zeroPage_inTable h hf hP hnew
  -- a walk from an old root stays as it is and does not meet the new table
  have hold : ∀ Q ∈ pgds, ∀ v < 2 ^ 48, ∀ l ≤ 3, ∀ t, tableAt (zeroPage P st.mem) Q v l = some t →
      tableAt st.mem Q v l = some t ∧ t ≠ P := by
    intro Q hQ v hv l hl t ht
    rw [h.tableAt_eq hsame hQ hv l hl] at ht
    refine ⟨ht, ?_⟩
    rintro rfl
    exact hnew (h.table Q hQ v hv l hl t ht)
  refine ⟨?_, ?_, ?_⟩
  · intro t ht
    rcases List.mem_cons.mp ht with rfl | ht
    · exact hP
    · exact h.isPage t ht
  · intro Q hQ v hv l hl t ht
    rcases List.mem_cons.mp hQ with rfl | hQ
    · rw [(tableAt_zeroPage ht).2]
      exact Or.inl List.mem_cons_self
    · rcases h.table Q hQ v hv l hl t (hold Q hQ v hv l hl t ht).1 with hin | hk
      · exact Or.inl (List.mem_cons_of_mem _ hin)
      · exact Or.inr hk
  · intro Q hQ R hR v hv w hw l hl m hm t ht ht'
    rcases List.mem_cons.mp hQ with rfl | hQ'
    · rcases List.mem_cons.mp hR with rfl | hR'
      · obtain ⟨rfl, -⟩ := tableAt_zeroPage ht
        obtain ⟨rfl, -⟩ := tableAt_zeroPage ht'
        exact ⟨rfl, rfl, by rw [levelPrefix_zero hv, levelPrefix_zero hw]⟩
      · exact absurd (tableAt_zeroPage ht).2 (hold R hR' w hw m hm t ht').2
    · rcases List.mem_cons.mp hR with rfl | hR'
      · exact absurd (tableAt_zeroPage ht').2 (hold Q hQ' v hv l hl t ht).2
      · exact h.unique Q hQ' R hR' v hv w hw l hl m hm t (hold Q hQ' v hv l hl t ht).1
          (hold R hR' w hw m hm t ht').1

theorem Refines.addPgd {calls : List MapCall} (href : Refines pgds calls st.mem)
    (h : Forest kmalloc pgds st) (hf : Fresh kmalloc pgds st.next) (hP : IsPage P)
    (hnew : ¬ IsTable kmalloc pgds st.next P) (hcalls : ∀ c ∈ calls, c.pgd ∈ pgds) :
    Refines (P :: pgds) calls (zeroPage P st.mem) := by
  have hsame := zeroPage_inTable h hf hP hnew
  have hmem : Refines pgds calls (zeroPage P st.mem) := href.of_mem h hsame
  have hPnew : P ∉ pgds := fun hin => hnew (Or.inl hin)
  refine ⟨?_, ?_⟩
  · intro Q hQ v hv c hc
    rcases List.mem_cons.mp hQ with rfl | hQ
    · obtain ⟨hcm, hcP, -⟩ := mem_of_lastMapping hc
      exact absurd (hcP ▸ hcalls c hcm) hPnew
    · exact hmem.mapped Q hQ v hv c hc
  · intro Q hQ v hv hc
    rcases List.mem_cons.mp hQ with rfl | hQ
    · exact leafEntry_of_empty zeroPage_entry v
    · exact hmem.unmapped Q hQ v hv hc

end

end

end RaspiKernel.Mm
