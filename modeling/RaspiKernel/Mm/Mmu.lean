import RaspiKernel.Lib.Stage1
import RaspiKernel.Mm.Tables

/-!
# The MMU on the tables of the tasks

`simulate_walk` looks for the entry of a page and trusts what it finds. The MMU looks at the type of each
descriptor and at the access flag, and it reads physical memory. Here is that `walk` writes descriptors
that it accepts, and that it faults wherever nothing was mapped.

Results:
* `Links.walk`: one call of `walk` keeps that every used entry above the last level is a table descriptor.
* `mmu_mapRun`: after any sequence of `map_pages` calls, the MMU translates an address of the lower half
  as the last call says that covers it, with the rights of that call, and faults if there is none.
-/

namespace RaspiKernel.Mm

open Lib
open Memblock (physToVirt virtToPhys kernelVaddrBase)

variable {kmalloc : ℕ → ℕ} {pgds : List ℕ} {st : PtState}

/-! ## Table descriptors -/

/-- Above the last level every used entry points to a table. -/
def Links (pgds : List ℕ) (mem : ℕ → ℕ) : Prop :=
  ∀ P ∈ pgds, ∀ v < 2 ^ 48, ∀ l ≤ 2, ∀ t, tableAt mem P v l = some t →
    mem (t + 8 * tableIndex v l) = 0 ∨
      ∃ u, IsPage u ∧ mem (t + 8 * tableIndex v l) = virtToPhys u ||| tableEntry

theorem Links.init {mem : ℕ → ℕ} (hzero : ∀ P ∈ pgds, ∀ i < 512, mem (P + 8 * i) = 0) : Links pgds mem := by
  intro P hP v _ l _ t ht
  have hnone : ∀ l, tableAt mem P v (l + 1) = none := by
    intro l
    induction l with
    | zero => rw [tableAt_succ (t := P) rfl, if_pos (hzero P hP _ (tableIndex_lt v 0))]
    | succ l ih => exact tableAt_succ_none ih
  cases l with
  | zero =>
    obtain rfl := Option.some.inj ht
    exact .inl (hzero P hP _ (tableIndex_lt v 0))
  | succ l =>
    rw [hnone l] at ht
    cases ht

section Step

variable {P va l t : ℕ}

/-- A new table is linked by a table descriptor, and it is empty. -/
theorem Links.linked (hlinks : Links pgds st.mem) (h : Forest kmalloc pgds st)
    (hf : Fresh kmalloc pgds (st.next + 1)) (hP : P ∈ pgds) (hva : va < 2 ^ 48) (hl : l ≤ 2)
    (ht : tableAt st.mem P va l = some t) (he : st.mem (t + 8 * tableIndex va l) = 0) :
    Links pgds (linked kmalloc st t (tableIndex va l)).mem := by
  have hN : IsPage (kmalloc st.next) := (hf st.next (Nat.lt_succ_self _)).1
  have hpage : ∀ {u}, IsTable kmalloc pgds st.next u → IsPage u :=
    fun hu => h.isPage_of_table (hf.mono (Nat.le_succ _)) hu
  have htable := h.table P hP va hva l (by omega) t ht
  intro Q hQ w hw m hm u hu
  rw [tableAt_linked h hf hP hva hl ht he hQ hw (by omega)] at hu
  split_ifs at hu
  · obtain rfl := Option.some.inj hu
    exact .inl (linked_new (hpage htable) hN (hf.ne htable) (tableIndex_lt w m))
  · have hutable := h.table Q hQ w hw m (by omega) u hu
    by_cases hlink : u + 8 * tableIndex w m = t + 8 * tableIndex va l
    · rw [hlink, linked_self]
      exact .inr ⟨_, hN, rfl⟩
    · rw [linked_of_ne (hpage hutable) hN (hf.ne hutable) (tableIndex_lt w m) hlink]
      exact hlinks Q hQ w hw m hm u hu

/-- The entry of a page is no entry above the last level. -/
theorem Links.leaf (hlinks : Links pgds st.mem) (h : Forest kmalloc pgds st) (hf : Fresh kmalloc pgds st.next)
    (hP : P ∈ pgds) (hva : va < 2 ^ 48) (ht : tableAt st.mem P va 3 = some t) (e : ℕ) :
    Links pgds (st.set t (tableIndex va 3) e).mem := by
  intro Q hQ w hw m hm u hu
  rw [tableAt_leaf h hf hP hva ht e hQ hw (by omega)] at hu
  have hne : u + 8 * tableIndex w m ≠ t + 8 * tableIndex va 3 := by
    refine word_ne (h.isPage_of_table hf (h.table Q hQ w hw m (by omega) u hu)).2.2
      (h.isPage_of_table hf (h.table P hP va hva 3 le_rfl t ht)).2.2 ?_ (tableIndex_lt _ _) (tableIndex_lt _ _)
    rintro rfl
    have := (h.unique Q hQ P hP w hw va hva m (by omega) 3 le_rfl u hu ht).2.1
    omega
  rw [show (st.set t (tableIndex va 3) e).mem (u + 8 * tableIndex w m) = st.mem (u + 8 * tableIndex w m) from
    Function.update_of_ne hne ..]
  exact hlinks Q hQ w hw m hm u hu

theorem Links.walkLoop (hP : P ∈ pgds) (hva : va < 2 ^ 48) (pa flag rem l t : ℕ) (st : PtState)
    (hrem : rem + l = 3) (hlinks : Links pgds st.mem) (h : Forest kmalloc pgds st)
    (ht : tableAt st.mem P va l = some t)
    (hf : Fresh kmalloc pgds (walkLoop kmalloc va pa flag rem l t st).next) :
    Links pgds (walkLoop kmalloc va pa flag rem l t st).mem := by
  induction rem generalizing l t st with
  | zero =>
    obtain rfl : l = 3 := by omega
    exact hlinks.leaf h hf hP hva ht (pageEntry pa flag)
  | succ rem ih =>
    by_cases he : st.mem (t + 8 * tableIndex va l) = 0
    · rw [walkLoop_empty pa flag rem he] at hf ⊢
      have hf1 : Fresh kmalloc pgds (st.next + 1) :=
        hf.mono (le_walkLoop_next va pa flag rem (l + 1) _ (Mm.linked kmalloc st t (tableIndex va l)))
      have hN : IsPage (kmalloc st.next) := (hf1 st.next (Nat.lt_succ_self _)).1
      rw [nextTable_link hN] at hf ⊢
      obtain ⟨h1, -, h3⟩ := link_spec h hf1 hP hva (by omega) ht he fun _ => False
      exact ih (l + 1) _ _ (by omega) (hlinks.linked h hf1 hP hva (by omega) ht he) h1 h3 hf
    · rw [walkLoop_entry pa flag rem he] at hf ⊢
      exact ih (l + 1) _ st (by omega) hlinks h (by rw [tableAt_succ ht, if_neg he]) hf

/-- One call of `walk`. -/
theorem Links.walk (hlinks : Links pgds st.mem) (hP : P ∈ pgds) (hva : va < 2 ^ 48) (pa flag : ℕ)
    (h : Forest kmalloc pgds st) (hf : Fresh kmalloc pgds (walk kmalloc st P va pa flag).next) :
    Links pgds (walk kmalloc st P va pa flag).mem :=
  Links.walkLoop hP hva pa flag 3 0 P st rfl hlinks h rfl hf

theorem Links.mapLoop (hlinks : Links pgds st.mem) (hP : P ∈ pgds) (hva : 4096 ∣ va) (pa flags n : ℕ)
    (hend : va + 4096 * n ≤ 2 ^ 48) (h : Forest kmalloc pgds st)
    (hf : Fresh kmalloc pgds ((List.range n).foldl
      (fun st i => Mm.walk kmalloc st P (va + 4096 * i) (pa + 4096 * i) flags) st).next) :
    Links pgds ((List.range n).foldl
      (fun st i => Mm.walk kmalloc st P (va + 4096 * i) (pa + 4096 * i) flags) st).mem := by
  induction n with
  | zero => exact hlinks
  | succ n ih =>
    simp only [List.range_succ, List.foldl_append, List.foldl_cons, List.foldl_nil] at hf ⊢
    have hf' := hf.mono (le_walk_next _ _ _ _ _)
    obtain ⟨h1, -, -⟩ := mapLoop_spec hP hva pa flags n (by omega) h hf'
    exact (ih (by omega) hf').walk hP (by omega) _ _ h1 hf

end Step

theorem Links.exec {c : MapCall} (hlinks : Links pgds st.mem) (hc : c.Placed pgds) (h : Forest kmalloc pgds st)
    (hf : Fresh kmalloc pgds (c.exec kmalloc st).next) : Links pgds (c.exec kmalloc st).mem := by
  have hend : c.va + 4096 * nrPagesOf c.size ≤ 2 ^ 48 := by
    have := hc.va
    have := hc.va_le
    unfold nrPagesOf
    omega
  exact hlinks.mapLoop hc.pgd hc.va c.pa c.flags _ hend h hf

theorem Links.mapRun {mem : ℕ → ℕ} (hpgds : ∀ P ∈ pgds, IsPage P)
    (hzero : ∀ P ∈ pgds, ∀ i < 512, mem (P + 8 * i) = 0) (calls : List MapCall)
    (hvalid : ∀ c ∈ calls, c.Valid pgds) (hf : Fresh kmalloc pgds (mapRun kmalloc calls ⟨mem, 0⟩).next) :
    Links pgds (mapRun kmalloc calls ⟨mem, 0⟩).mem := by
  induction calls using List.reverseRecOn with
  | nil => exact Links.init hzero
  | append_singleton calls c ih =>
    rw [mapRun_snoc] at hf ⊢
    have hbefore : ∀ d ∈ calls, d.Valid pgds := fun d hd => hvalid d (List.mem_append_left _ hd)
    have hf' := hf.mono (le_exec_next _ c)
    obtain ⟨h, -⟩ := mapRun_spec hpgds hzero calls hbefore hf'
    exact (ih hbefore hf').exec (hvalid c (List.mem_append_right _ List.mem_cons_self)).placed h hf

/-- A store outside the tables. -/
theorem Links.of_mem (hlinks : Links pgds st.mem) (h : Forest kmalloc pgds st) {mem' : ℕ → ℕ}
    (hmem : ∀ a, InTable kmalloc pgds st.next a → mem' a = st.mem a) : Links pgds mem' := by
  intro P hP v hv l hl t ht
  rw [h.tableAt_eq hmem hP hv l (by omega)] at ht
  rw [hmem _ ((h.table P hP v hv l (by omega) t ht).entry v l)]
  exact hlinks P hP v hv l hl t ht

/-- A new `pgd` links nothing. -/
theorem Links.addPgd {P : ℕ} (hlinks : Links pgds st.mem) (h : Forest kmalloc pgds st)
    (hf : Fresh kmalloc pgds st.next) (hP : IsPage P) (hnew : ¬ IsTable kmalloc pgds st.next P) :
    Links (P :: pgds) (zeroPage P st.mem) := by
  intro Q hQ v hv l hl t ht
  rcases List.mem_cons.mp hQ with rfl | hQ
  · obtain ⟨rfl, rfl⟩ := tableAt_zeroPage ht
    exact .inl (zeroPage_entry _ (tableIndex_lt v 0))
  · exact hlinks.of_mem h (zeroPage_inTable h hf hP hnew) Q hQ v hv l hl t ht

/-! ## The walk of the MMU -/

/-- Physical memory, which the kernel sees at the addresses of `phys_to_virt`. -/
def ramOf (mem : ℕ → ℕ) (p : ℕ) : ℕ := mem (physToVirt p)

theorem virtToPhys_of_isPage {t : ℕ} (ht : IsPage t) :
    virtToPhys t = t - kernelVaddrBase ∧ virtToPhys t + 4096 ≤ 2 ^ 48 ∧ 2 ^ 12 ∣ virtToPhys t := by
  obtain ⟨hbase, hlt, hdvd⟩ := ht
  unfold kernelVaddrBase at hbase
  rw [Memblock.virtToPhys_eq]
  unfold kernelVaddrBase
  omega

theorem ramOf_entry (mem : ℕ → ℕ) {t i : ℕ} (ht : IsPage t) (hi : i < 512) :
    ramOf mem (virtToPhys t + 8 * i) = mem (t + 8 * i) := by
  obtain ⟨heq, hlt, -⟩ := virtToPhys_of_isPage ht
  have hbase := ht.1
  rw [ramOf, Memblock.physToVirt_eq (by omega), heq]
  congr 1
  omega

theorem index_eq {rem l : ℕ} (h : rem + l = 3) (v : ℕ) : Stage1.index v rem = tableIndex v l := by
  rw [tableIndex_eq (by omega), levelPrefix, show 48 - 9 * (l + 1) = 12 + 9 * rem by omega]
  rfl

theorem leafEntry_of_none {mem : ℕ → ℕ} {P v l : ℕ} (hl : l ≤ 3) (h : tableAt mem P v l = none) :
    leafEntry mem P v = 0 := by
  have hnone : tableAt mem P v 3 = none := by
    induction hl using Nat.decreasingInduction with
    | self => exact h
    | of_succ m _ ih => exact ih (tableAt_succ_none h)
  rw [leafEntry, hnone]

/-- The MMU comes to the entry of the page, or it faults on the way. -/
theorem Links.mmuWalk {mem : ℕ → ℕ} (hlinks : Links pgds mem) {P v : ℕ} (hP : P ∈ pgds) (hv : v < 2 ^ 48)
    (rem l t : ℕ) (hrem : rem + l = 3) (ht : tableAt mem P v l = some t) (hpage : IsPage t) :
    Stage1.walk (ramOf mem) v rem (virtToPhys t) =
      if leafEntry mem P v % 4 = 3 then Stage1.output (leafEntry mem P v) v 0 else none := by
  have hentry : ramOf mem (virtToPhys t + 8 * Stage1.index v rem) = mem (t + 8 * tableIndex v l) := by
    rw [index_eq hrem, ramOf_entry mem hpage (tableIndex_lt v l)]
  induction rem generalizing l t with
  | zero =>
    obtain rfl : l = 3 := by omega
    have hleaf : leafEntry mem P v = mem (t + 8 * tableIndex v 3) := by rw [leafEntry, ht]
    rw [Stage1.walk, hentry, hleaf]
  | succ rem ih =>
    rcases hlinks P hP v hv l (by omega) t ht with hzero | ⟨u, hu, hlink⟩
    · have hnone : tableAt mem P v (l + 1) = none := by rw [tableAt_succ ht, if_pos hzero]
      rw [Stage1.walk_invalid (hentry.trans hzero) rfl, leafEntry_of_none (by omega) hnone,
        if_neg (by norm_num)]
    · have hnext : tableAt mem P v (l + 1) = some u := by
        rw [tableAt_succ ht, hlink, if_neg (link_ne_zero u), nextTable_link hu]
      obtain ⟨-, hlt, hdvd⟩ := virtToPhys_of_isPage hu
      have htype : (virtToPhys u ||| tableEntry) % 4 = 3 := by
        rw [show 4 = 2 ^ 2 from rfl, Nat.or_mod_two_pow, show virtToPhys u % 2 ^ 2 = 0 by omega]
        rfl
      rw [Stage1.walk_table (hentry.trans hlink) htype, Stage1.tableAddr_or (by omega) hdvd (by norm_num)]
      exact ih (l + 1) u (by omega) hnext hu (by
        rw [index_eq (show rem + (l + 1) = 3 by omega), ramOf_entry mem hu (tableIndex_lt v (l + 1))])

/-- The rights of a page that was mapped with `flags`. -/
def userAttrs (flags : ℕ) : Stage1.Attrs where
  attrIndx := 1 ||| flags / 2 ^ 2 % 2 ^ 3
  el0 := flags.testBit 6
  readOnly := flags.testBit 7
  pxn := true
  uxn := flags.testBit 54

theorem pageEntry_type (x flags : ℕ) : pageEntry x flags % 4 = 3 := by
  have hlow : ∀ y, (y ||| 3) % 4 = 3 := by
    intro y
    rw [show 4 = 2 ^ 2 from rfl, Nat.or_mod_two_pow]
    have hy : y % 2 ^ 2 < 4 := Nat.mod_lt _ (by norm_num)
    interval_cases y % 2 ^ 2 <;> rfl
  have hthree : pageEntry x flags = (x ||| (1 <<< 10 ||| 1 <<< 2 ||| pxn ||| flags)) ||| 3 := by
    unfold pageEntry normalPageAttr
    ac_rfl
  rw [hthree, hlow]

theorem testBit_pageEntry {x flags i : ℕ} (hx : x < 2 ^ 48) (hx' : 2 ^ 12 ∣ x) (hi : i < 12 ∨ 48 ≤ i) :
    (pageEntry x flags).testBit i = ((normalPageAttr ||| pxn).testBit i || flags.testBit i) := by
  have hzero : x.testBit i = false := by
    rcases hi with hi | hi
    · obtain ⟨q, rfl⟩ := hx'
      rw [Nat.testBit_two_pow_mul, decide_eq_false (by omega), Bool.false_and]
    · exact Nat.testBit_lt_two_pow (hx.trans_le (Nat.pow_le_pow_right (by norm_num) hi))
  rw [pageEntry, Nat.testBit_or, hzero, Bool.false_or, Nat.testBit_or]

theorem ofDescriptor_pageEntry {x flags : ℕ} (hx : x < 2 ^ 48) (hx' : 2 ^ 12 ∣ x) :
    Stage1.Attrs.ofDescriptor (pageEntry x flags) = userAttrs flags := by
  have hindx : pageEntry x flags / 2 ^ 2 % 2 ^ 3 = 1 ||| flags / 2 ^ 2 % 2 ^ 3 := by
    apply Nat.eq_of_testBit_eq
    intro i
    rw [Nat.testBit_or, Nat.testBit_mod_two_pow, Nat.testBit_mod_two_pow, Nat.testBit_div_two_pow,
      Nat.testBit_div_two_pow]
    by_cases hi : i < 3
    · rw [testBit_pageEntry hx hx' (by omega), decide_eq_true hi, Bool.true_and, Bool.true_and]
      interval_cases i <;> rfl
    · rw [decide_eq_false hi, Bool.false_and, Bool.false_and,
        Nat.testBit_lt_two_pow (Nat.one_lt_two_pow (by omega))]
      rfl
  unfold Stage1.Attrs.ofDescriptor userAttrs
  rw [hindx, testBit_pageEntry hx hx' (by omega), testBit_pageEntry hx hx' (by omega),
    testBit_pageEntry hx hx' (by omega), testBit_pageEntry hx hx' (by omega)]
  rfl

/-- What the MMU makes of the entry of a page. -/
theorem output_pageEntry {c : MapCall} (hc : c.Valid pgds) {v : ℕ} (hv : c.Covers v) :
    Stage1.output (pageEntry (c.pa + 4096 * ((v - c.va) / 4096)) c.flags) v 0 =
      some (c.pa + (v - c.va), userAttrs c.flags) := by
  obtain ⟨h1, h2⟩ := hv
  have hva := hc.va
  have hpa := hc.pa
  have hpal := hc.pa_le
  have hlt : c.pa + 4096 * ((v - c.va) / 4096) < 2 ^ 48 := by
    unfold nrPagesOf at h2
    omega
  have hdvd : 2 ^ 12 ∣ c.pa + 4096 * ((v - c.va) / 4096) := by omega
  have hattr : (normalPageAttr ||| pxn ||| c.flags) &&& entryAddrMask = 0 := by
    rw [Nat.and_or_distrib_right, hc.flags, Nat.or_zero]
    decide
  have haddr := and_entryAddrMask hlt hdvd hattr
  rw [show entryAddrMask = 2 ^ 48 - 2 ^ 12 from rfl, and_mid_mask _ (by norm_num),
    show (2 : ℕ) ^ 48 = 2 ^ 12 * 2 ^ 36 by norm_num, Nat.mod_mul_right_div_self] at haddr
  unfold Stage1.output
  rw [testBit_pageEntry hlt hdvd (by omega), show (normalPageAttr ||| pxn).testBit 10 = true by decide,
    Bool.true_or, if_pos rfl, show Stage1.shift 0 = 12 from rfl, show 48 - 12 = 36 from rfl,
    ofDescriptor_pageEntry hlt hdvd, Option.some_inj, Prod.mk.injEq]
  refine ⟨?_, rfl⟩
  rw [show pageEntry (c.pa + 4096 * ((v - c.va) / 4096)) c.flags / 2 ^ 12 % 2 ^ 36 * 2 ^ 12 = _ from haddr]
  omega

/-- In every sequence of `map_pages` calls on empty tables. The MMU translates an address of the lower
    half as the last call says that covers it. Only the flags of this call let EL0 in, EL1 never
    executes there, and an address that no call covers faults. -/
theorem mmu_mapRun {mem : ℕ → ℕ} (hpgds : ∀ P ∈ pgds, IsPage P)
    (hzero : ∀ P ∈ pgds, ∀ i < 512, mem (P + 8 * i) = 0) (calls : List MapCall)
    (hvalid : ∀ c ∈ calls, c.Valid pgds)
    (hfresh : Fresh kmalloc pgds (mapRun kmalloc calls ⟨mem, 0⟩).next) {P v : ℕ} (hP : P ∈ pgds)
    (hv : v < 2 ^ 48) (ttbr1 : ℕ) :
    Stage1.translate (ramOf (mapRun kmalloc calls ⟨mem, 0⟩).mem) (virtToPhys P) ttbr1 v =
      (lastMapping calls P v).map fun c => (c.pa + (v - c.va), userAttrs c.flags) := by
  obtain ⟨-, href⟩ := mapRun_spec hpgds hzero calls hvalid hfresh
  have hlinks := Links.mapRun hpgds hzero calls hvalid hfresh
  obtain ⟨-, hlt, hdvd⟩ := virtToPhys_of_isPage (hpgds P hP)
  have hbase : Stage1.tableAddr (virtToPhys P) = virtToPhys P := by
    have := Stage1.tableAddr_or (by omega) hdvd (by norm_num : 0 < 2 ^ 12)
    rwa [Nat.or_zero] at this
  rw [Stage1.translate_low hv, hbase, hlinks.mmuWalk hP hv 3 0 P rfl rfl (hpgds P hP)]
  cases hlast : lastMapping calls P v with
  | none =>
    rw [href.unmapped P hP v hv hlast]
    rfl
  | some c =>
    obtain ⟨hmem, -, hcov⟩ := mem_of_lastMapping hlast
    obtain ⟨-, hleaf⟩ := href.mapped P hP v hv c hlast
    rw [hleaf, if_pos (pageEntry_type _ _), output_pageEntry (hvalid c hmem) hcov]
    rfl

/-- A page that is mapped for EL0 with `PD_AP_EL0`, and then again to another frame. -/
def remapCalls : List MapCall :=
  [⟨0xffff000000001000, 0x1000, 0x1801, 0x80000, 0x40⟩, ⟨0xffff000000001000, 0x2000, 0x1000, 0x3c000000, 0x40⟩]

theorem mmu_mapRun_remap :
    Stage1.translate (ramOf (mapRun (fun k => 0xffff000000100000 + 4096 * k) remapCalls ⟨fun _ => 0, 0⟩).mem)
      (virtToPhys 0xffff000000001000) 0 0x2345 = some (0x3c000345, ⟨1, true, false, true, false⟩) := by
  have hP : (0xffff000000001000 : ℕ) ∈ [0xffff000000001000] := List.mem_cons_self
  refine (@mmu_mapRun (fun k => 0xffff000000100000 + 4096 * k) [0xffff000000001000] (fun _ => 0) (by decide)
    (fun _ _ _ _ => rfl) remapCalls (by decide) (by decide)
    0xffff000000001000 0x2345 hP (by norm_num) 0).trans ?_
  decide

end RaspiKernel.Mm
