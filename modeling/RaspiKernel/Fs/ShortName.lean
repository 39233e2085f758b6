import RaspiKernel.Fs.Mount

/-!
# Short names

`fat32_create` writes a name of 8.3 form into a directory entry and `setup_fat32`
reads it back. The loop for the extension stops one step late: with fewer than
three characters it copies the NUL behind the name into the entry, where the
`strcpy` of `setup_fat32` stops.

Results:
* `encodeBase_eq`, `encodeExt_eq`: the bytes of the name fields.
* `parseEntry_newEntry`: the entry that `fat32_create` writes reads back as a file
  with the name, the cluster and the size of one block.
* `roundTrip_iff`: which names come back.
-/

namespace RaspiKernel.Fs

open Lib

/-- A character of a name: no blank, no dot, no NUL. -/
def NameChar (c : UInt8) : Prop := c ≠ 0x20 ∧ c ≠ 0x2e ∧ c ≠ 0

/-- A name of 8.3 form with a non-empty extension. -/
structure Name83 (name : List UInt8) (base ext : List UInt8) : Prop where
  name_eq : name = base ++ 0x2e :: ext
  base_ne : base ≠ []
  base_le : base.length ≤ 8
  base_char : ∀ c ∈ base, NameChar c
  ext_ne : ext ≠ []
  ext_le : ext.length ≤ 3
  ext_char : ∀ c ∈ ext, NameChar c

/-! ## Encoding -/

theorem charAt_append (pre post : List UInt8) : charAt (pre ++ post) pre.length = charAt post 0 := by
  unfold charAt
  rw [List.getD_append_right _ _ _ _ le_rfl, Nat.sub_self]

/-- The characters up to the dot or the NUL behind them. -/
theorem encodeBase_eq (pre b tail : List UInt8) (hb : ∀ c ∈ b, NameChar c)
    (htail : charAt tail 0 = 0x2e ∨ charAt tail 0 = 0) {n : ℕ} (hn : b.length ≤ n) :
    encodeBase (pre ++ b ++ tail) n pre.length =
      (b ++ List.replicate (n - b.length) 0x20, pre.length + b.length) := by
  induction n generalizing pre b with
  | zero =>
    obtain rfl : b = [] := List.length_eq_zero_iff.mp (by omega)
    rfl
  | succ n ih =>
    cases b with
    | nil =>
      have hstop : charAt (pre ++ [] ++ tail) pre.length = charAt tail 0 := by
        rw [List.append_nil, charAt_append]
      have hrec := ih pre [] (by simp) (by simp)
      rw [encodeBase, if_pos (hstop ▸ htail), hrec]
      rfl
    | cons c b =>
      obtain ⟨-, hdot, hnul⟩ := hb c List.mem_cons_self
      have hc : charAt (pre ++ c :: b ++ tail) pre.length = c := by
        rw [List.append_assoc, charAt_append]
        rfl
      have hrec := ih (pre ++ [c]) b (fun d hd => hb d (List.mem_cons_of_mem _ hd))
        (by rw [List.length_cons] at hn; omega)
      rw [encodeBase, if_neg (by rw [hc]; tauto), hc]
      rw [List.length_append, List.length_singleton,
        show pre ++ [c] ++ b ++ tail = pre ++ c :: b ++ tail by simp] at hrec
      rw [hrec]
      simp only [List.length_cons, List.cons_append, Nat.add_sub_add_right]
      congr 1
      omega

/-- At the NUL behind the name only blanks follow. -/
theorem encodeExt_nul {name : List UInt8} {n idx : ℕ} (h : charAt name idx = 0) :
    encodeExt name n idx = List.replicate n 0x20 := by
  induction n with
  | zero => rfl
  | succ n ih => rw [encodeExt, if_pos h, ih, List.replicate_succ]

/-- What stands behind the extension where `n` bytes of the field are left. -/
def extTail : ℕ → List UInt8
  | 0 => []
  | n + 1 => 0 :: List.replicate n 0x20

/-- The loop for the extension, at the character `d` before what is left of it. -/
theorem encodeExt_eq (pre e : List UInt8) {d : UInt8} (hd : d ≠ 0) (he : ∀ c ∈ e, NameChar c) {n : ℕ}
    (hn : e.length ≤ n) :
    encodeExt (pre ++ d :: e) n pre.length = e ++ extTail (n - e.length) := by
  induction n generalizing pre d e with
  | zero =>
    obtain rfl : e = [] := List.length_eq_zero_iff.mp (by omega)
    rfl
  | succ n ih =>
    have hc : charAt (pre ++ d :: e) pre.length = d := by
      rw [charAt_append]
      rfl
    have hshift : pre ++ d :: e = pre ++ [d] ++ e := by simp
    have hnext : charAt (pre ++ d :: e) (pre.length + 1) = charAt e 0 := by
      rw [hshift, show pre.length + 1 = (pre ++ [d]).length by simp, charAt_append]
    rw [encodeExt, if_neg (by rw [hc]; exact hd), hnext]
    cases e with
    | nil =>
      -- the character behind the last one is the NUL
      have hnul : charAt (pre ++ [d]) (pre.length + 1) = 0 := hnext
      rw [encodeExt_nul hnul]
      rfl
    | cons c e =>
      have hrec := ih (pre ++ [d]) e (he c List.mem_cons_self).2.2
        (fun x hx => he x (List.mem_cons_of_mem _ hx)) (by rw [List.length_cons] at hn; omega)
      rw [show pre ++ [d] ++ c :: e = pre ++ d :: c :: e by simp, List.length_append,
        List.length_singleton] at hrec
      rw [hrec, List.length_cons, Nat.add_sub_add_right]
      rfl

/-! ## Decoding -/

theorem filter_nameChar {l : List UInt8} (h : ∀ c ∈ l, NameChar c) : l.filter (· ≠ 0x20) = l := by
  rw [List.filter_eq_self]
  intro c hc
  exact decide_eq_true (h c hc).1

theorem filter_blanks (n : ℕ) : (List.replicate n (0x20 : UInt8)).filter (· ≠ 0x20) = [] := by
  simp

/-- The blanks go, and the `strcpy` stops at the NUL. -/
theorem takeWhile_ext {base ext : List UInt8} (hbase : ∀ c ∈ base, NameChar c)
    (hext : ∀ c ∈ ext, NameChar c) (n : ℕ) :
    (base ++ 0x2e :: (ext ++ extTail n).filter (· ≠ 0x20)).takeWhile (· ≠ 0) =
      base ++ 0x2e :: ext := by
  have hname : ∀ c ∈ base ++ 0x2e :: ext, decide (c ≠ 0) = true := by
    intro c hc
    rw [List.mem_append, List.mem_cons] at hc
    rcases hc with hc | rfl | hc
    · exact decide_eq_true (hbase c hc).2.2
    · decide
    · exact decide_eq_true (hext c hc).2.2
  rw [List.filter_append, filter_nameChar hext]
  cases n with
  | zero =>
    rw [extTail, List.filter_nil, List.append_nil]
    exact List.takeWhile_eq_self_iff.mpr hname
  | succ n =>
    rw [extTail, List.filter_cons_of_pos (by decide), filter_blanks, ← List.cons_append,
      ← List.append_assoc, List.takeWhile_append_of_pos hname]
    simp

/-! ## The entry -/

/-- The bytes of the new entry. -/
structure NewEntrySpec (m : Mem) (base ext : List UInt8) (cluster : ℕ) : Prop where
  base_eq : bytes m 0 8 = base ++ List.replicate (8 - base.length) 0x20
  ext_eq : bytes m 8 3 = ext ++ extTail (3 - ext.length)
  attr_eq : m 11 = 0x20
  high_eq : load m 20 2 = cluster >>> 16
  low_eq : load m 26 2 = cluster &&& 0xffff
  size_eq : load m 28 4 = blockSize

/-- The fields that hold the name, and the attribute. -/
theorem newEntry_fields (stack : Mem) {name b e : List UInt8} {idx : ℕ}
    (hbase : encodeBase name 8 0 = (b, idx)) (hb : b.length = 8) (hext : encodeExt name 3 idx = e)
    (he : e.length = 3) (cluster : ℕ) :
    bytes (newEntry stack name cluster) 0 8 = b ∧ bytes (newEntry stack name cluster) 8 3 = e ∧
      newEntry stack name cluster 11 = 0x20 := by
  unfold newEntry
  rw [hbase]
  dsimp only
  rw [hext]
  refine ⟨?_, ?_, ?_⟩
  · apply bytes_eq hb
    intro i hi
    rw [zero_add, store_of_not_mem (by omega), store_of_not_mem (by omega),
      store_of_not_mem (by omega), store_of_not_mem (by omega), copy_of_not_mem (by omega),
      copy_of_mem (by omega), Nat.sub_zero]
  · apply bytes_eq he
    intro i hi
    rw [store_of_not_mem (by omega), store_of_not_mem (by omega), store_of_not_mem (by omega),
      store_of_not_mem (by omega), copy_of_mem (by omega), Nat.add_sub_cancel_left]
  · rw [store_of_not_mem (by omega), store_of_not_mem (by omega), store_of_not_mem (by omega)]
    rfl

theorem length_base {base : List UInt8} (h : base.length ≤ 8) :
    (base ++ List.replicate (8 - base.length) (0x20 : UInt8)).length = 8 := by
  rw [List.length_append, List.length_replicate]
  omega

theorem length_ext {ext : List UInt8} (h : ext.length ≤ 3) :
    (ext ++ extTail (3 - ext.length)).length = 3 := by
  have htail : ∀ n, (extTail n).length = n := by
    intro n
    cases n <;> simp [extTail]
  rw [List.length_append, htail]
  omega

theorem newEntry_name83 {name base ext : List UInt8} (h : Name83 name base ext) (stack : Mem)
    (cluster : ℕ) : bytes (newEntry stack name cluster) 0 8 =
        base ++ List.replicate (8 - base.length) 0x20 ∧
      bytes (newEntry stack name cluster) 8 3 = ext ++ extTail (3 - ext.length) ∧
      newEntry stack name cluster 11 = 0x20 := by
  have hbase : encodeBase name 8 0 =
      (base ++ List.replicate (8 - base.length) 0x20, base.length) := by
    have := encodeBase_eq [] base (0x2e :: ext) h.base_char (Or.inl rfl) h.base_le
    rwa [List.nil_append, ← h.name_eq, List.length_nil, zero_add] at this
  have hext : encodeExt name 3 base.length = ext ++ extTail (3 - ext.length) := by
    rw [h.name_eq]
    exact encodeExt_eq base ext (by decide) h.ext_char h.ext_le
  exact newEntry_fields stack hbase (length_base h.base_le) hext (length_ext h.ext_le) cluster

theorem newEntry_spec {name base ext : List UInt8} (h : Name83 name base ext) (stack : Mem)
    {cluster : ℕ} (hc : cluster < 2 ^ 32) :
    NewEntrySpec (newEntry stack name cluster) base ext cluster := by
  obtain ⟨h1, h2, h3⟩ := newEntry_name83 h stack cluster
  refine ⟨h1, h2, h3, ?_, ?_, ?_⟩
  · unfold newEntry
    rw [load_store_of_disjoint (by omega), load_store_of_disjoint (by omega)]
    exact load_store (by rw [Nat.shiftRight_eq_div_pow]; omega)
  · unfold newEntry
    rw [load_store_of_disjoint (by omega)]
    exact load_store (lt_of_le_of_lt Nat.and_le_right (by norm_num))
  · exact load_store (by decide)

theorem cluster_join (cluster : ℕ) :
    (cluster >>> 16) <<< 16 ||| (cluster &&& 0xffff) = cluster := by
  have hlow : cluster &&& 0xffff = cluster % 2 ^ 16 := Nat.and_two_pow_sub_one_eq_mod cluster 16
  rw [hlow, Nat.shiftLeft_eq, Nat.shiftRight_eq_div_pow, mul_comm,
    ← Nat.two_pow_add_eq_or_of_lt (Nat.mod_lt _ (by norm_num))]
  omega

/-- What `setup_fat32` makes of the name of a file. -/
theorem parse_fields {m : Mem} {base e : List UInt8}
    (hbase : bytes m 0 8 = base ++ List.replicate (8 - base.length) 0x20) (hext : bytes m 8 3 = e)
    (hattr : m 11 = 0x20) (hne : base ≠ []) (hchar : ∀ c ∈ base, NameChar c) :
    ¬ SkipEntry m 0 ∧ entryAttr m 0 = 0x20 ∧
      entryName m 0 .file = (base ++ 0x2e :: e.filter (· ≠ 0x20)).takeWhile (· ≠ 0) := by
  have hattr' : entryAttr m 0 = 0x20 := by
    rw [entryAttr, Nat.mul_zero, Nat.zero_add, hattr]
    rfl
  obtain ⟨c, b, rfl⟩ := List.exists_cons_of_ne_nil hne
  have hfirst : m 0 = c := by
    have := getElem?_bytes m 0 8 0
    rw [hbase] at this
    simpa using this.symm
  obtain ⟨hblank, hdot, hnul⟩ := hchar c List.mem_cons_self
  refine ⟨?_, hattr', ?_⟩
  · unfold SkipEntry
    rw [hattr', Nat.mul_zero, hfirst]
    simp [hblank, hdot, hnul]
  · unfold entryName nonBlank
    dsimp only
    rw [Nat.mul_zero, Nat.zero_add, hbase, hext, List.filter_append, filter_nameChar hchar,
      filter_blanks, List.append_nil]

theorem parseEntry_newEntry {name base ext : List UInt8} (h : Name83 name base ext) (stack : Mem)
    {cluster : ℕ} (hc : cluster < 2 ^ 32) :
    parseEntry (newEntry stack name cluster) 0 = some ⟨.file, name, cluster, blockSize⟩ := by
  obtain ⟨hbase, hext, hattr, hhigh, hlow, hsize⟩ := newEntry_spec h stack hc
  obtain ⟨hskip, hattr', hname⟩ := parse_fields hbase hext hattr h.base_ne h.base_char
  rw [takeWhile_ext h.base_char h.ext_char, ← h.name_eq] at hname
  unfold parseEntry
  rw [if_neg hskip, hattr']
  simp only [entryCluster, Nat.mul_zero, Nat.zero_add, hhigh, hlow, hsize, cluster_join]
  simpa using hname

/-! ## The round trip -/

/-- A file name of 8.3 form, without an extension if `ext` is empty. -/
structure FileName83 (name base ext : List UInt8) : Prop where
  name_eq : name = if ext = [] then base else base ++ 0x2e :: ext
  base_ne : base ≠ []
  base_le : base.length ≤ 8
  base_char : ∀ c ∈ base, NameChar c
  base_head : base.head? ≠ some 0xe5
  ext_le : ext.length ≤ 3
  ext_char : ∀ c ∈ ext, NameChar c

/-- A name without an extension comes back with a dot. -/
theorem name_newEntry {name base ext : List UInt8} (h : FileName83 name base ext) (stack : Mem)
    (cluster : ℕ) :
    (parseEntry (newEntry stack name cluster) 0).map (·.name) = some (base ++ 0x2e :: ext) := by
  obtain ⟨e, hfields, htake⟩ : ∃ e, (bytes (newEntry stack name cluster) 0 8 =
      base ++ List.replicate (8 - base.length) 0x20 ∧ bytes (newEntry stack name cluster) 8 3 = e ∧
        newEntry stack name cluster 11 = 0x20) ∧
      (base ++ 0x2e :: e.filter (· ≠ 0x20)).takeWhile (· ≠ 0) = base ++ 0x2e :: ext := by
    by_cases hext : ext = []
    · have hname : name = base := h.name_eq.trans (if_pos hext)
      have hbase : encodeBase name 8 0 =
          (base ++ List.replicate (8 - base.length) 0x20, base.length) := by
        have := encodeBase_eq [] base [] h.base_char (Or.inr rfl) h.base_le
        rw [List.nil_append, List.append_nil, List.length_nil, zero_add] at this
        rw [hname, this]
      -- the field of the extension is blank
      have hnul : charAt name base.length = 0 := by
        rw [hname, charAt, List.getD_eq_default _ _ le_rfl]
      refine ⟨_, newEntry_fields stack hbase (length_base h.base_le) (encodeExt_nul hnul)
        List.length_replicate cluster, ?_⟩
      have htake := takeWhile_ext h.base_char h.ext_char 0
      rw [hext] at htake ⊢
      rw [filter_blanks]
      exact htake
    · have hname : name = base ++ 0x2e :: ext := h.name_eq.trans (if_neg hext)
      have h83 : Name83 name base ext :=
        ⟨hname, h.base_ne, h.base_le, h.base_char, hext, h.ext_le, h.ext_char⟩
      exact ⟨_, newEntry_name83 h83 stack cluster, takeWhile_ext h.base_char h.ext_char _⟩
  obtain ⟨h1, h2, h3⟩ := hfields
  obtain ⟨hskip, hattr, hname⟩ := parse_fields h1 h2 h3 h.base_ne h.base_char
  rw [htake] at hname
  unfold parseEntry
  rw [if_neg hskip, hattr]
  simpa using hname

/-- A file name comes back from its directory entry exactly if it has an extension. -/
theorem roundTrip_iff {name base ext : List UInt8} (h : FileName83 name base ext) (stack : Mem)
    (cluster : ℕ) :
    (parseEntry (newEntry stack name cluster) 0).map (·.name) = some name ↔ ext ≠ [] := by
  rw [name_newEntry h, Option.some.injEq, h.name_eq]
  by_cases hext : ext = []
  · rw [if_pos hext, hext]
    simp
  · rw [if_neg hext]
    simp [hext]

theorem readme_fileName83 : FileName83 [0x52, 0x2e, 0x4d, 0x44] [0x52] [0x4d, 0x44] :=
  ⟨rfl, by decide, by decide, by simp [NameChar], by decide, by decide, by simp [NameChar]⟩

theorem roundTrip_iff_readme :
    (parseEntry (newEntry (fun _ => 0) [0x52, 0x2e, 0x4d, 0x44] 3) 0).map (·.name) =
      some [0x52, 0x2e, 0x4d, 0x44] ↔ [(0x4d : UInt8), 0x44] ≠ [] :=
  roundTrip_iff readme_fileName83 (fun _ => 0) 3

/-- The name `A` comes back as `A.`. -/
theorem roundTrip_no_extension : FileName83 [0x41] [0x41] [] ∧
    (parseEntry (newEntry (fun _ => 0) [0x41] 3) 0).map (·.name) = some [0x41, 0x2e] ∧
      (parseEntry (newEntry (fun _ => 0) [0x41] 3) 0).map (·.name) ≠ some [0x41] := by
  have h : FileName83 [0x41] [0x41] [] :=
    ⟨rfl, by decide, by decide, by simp [NameChar], by decide, by decide, by simp [NameChar]⟩
  have hname := name_newEntry h (fun _ => 0) 3
  exact ⟨h, hname, by rw [hname]; decide⟩

end RaspiKernel.Fs
