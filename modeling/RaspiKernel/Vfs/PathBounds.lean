import RaspiKernel.Vfs.AbsPath

/-!
# Where `get_absolute_path` writes

The model stops at the first write outside `abs_path[]` or `path[]`. `abs_path[]`
is too small for some paths of 255 characters each. In `path[]` the index never
gets behind the character that is copied, but a `..` that finds no slash leaves it
at -1, and the next write is made there.

Results:
* `scan_negative`: an index of -1 stays, up to the write that is out of bounds.
* `getAbsolutePath_inBounds`: when all writes are in the buffers.
* `not_inBounds`: `..` in the root directory, and a long current path.
-/

namespace RaspiKernel.Vfs

open Lib

variable {path buf : Mem} {idx i' : ℤ} {s t cur : Str} {c : UInt8} {k : ℕ}

/-! ## Behind the front of the buffer -/

theorem goBack_negative (h : idx < 0) : goBack path idx = idx := if_pos h

/-- Once the index is negative, the loop comes to its end only without a write. -/
theorem scan_negative {path' : Mem} (hneg : idx < 0) (h : scan s k path idx = .ok (path', i')) :
    i' = idx := by
  induction s generalizing k with
  | nil =>
    rw [scan_nil] at h
    cases h
    rfl
  | cons c s ih =>
    cases k with
    | succ k => exact ih h
    | zero =>
      rw [scan_cons, goBack_negative hneg] at h
      split at h
      · exact ih h
      · split at h
        · exact ih h
        · rw [putChar, if_pos hneg] at h
          cases h

/-! ## The slash that a `..` goes back to -/

/-- There is a slash in `path[0..idx]`. -/
def SlashBefore (path : Mem) (idx : ℤ) : Prop := ∃ j : ℕ, j ≤ idx ∧ path j = slash

theorem goBackLoop_nonneg {j n : ℕ} (hj : j ≤ n) (h : path j = slash) : 0 ≤ goBackLoop path n := by
  induction n with
  | zero =>
    obtain rfl := Nat.le_zero.mp hj
    rw [goBackLoop, if_pos h]
  | succ n ih =>
    rw [goBackLoop]
    split
    · omega
    · next hne =>
      refine ih (Nat.le_of_lt_succ (lt_of_le_of_ne hj fun heq => hne ?_))
      rwa [heq] at h

theorem goBack_nonneg_iff (hidx : 0 ≤ idx) : 0 ≤ goBack path idx ↔ SlashBefore path idx := by
  obtain ⟨n, rfl⟩ := Int.eq_ofNat_of_zero_le hidx
  constructor
  · intro h
    by_contra hnone
    rw [goBack_of_none fun k hk hslash => hnone ⟨k, by exact_mod_cast hk, hslash⟩] at h
    omega
  · rintro ⟨j, hj, hslash⟩
    rw [goBack, if_neg (by omega), Int.toNat_natCast]
    exact goBackLoop_nonneg (by exact_mod_cast hj) hslash

/-- At every `/..` that the loop comes to, there is a slash in `path[0..idx]`. -/
def NeverFalls (s : Str) (k : ℕ) (path : Mem) (idx : ℤ) : Prop :=
  ∀ pre rest, s = pre ++ slash :: dot :: dot :: rest → k ≤ pre.length →
    ∀ path' idx', scan pre k path idx = .ok (path', idx') → SlashBefore path' idx'

/-- The part before a slash, of which `k` characters are taken: a look-ahead finds the same there. -/
theorem charAt_before_slash {pre rest : Str} (heq : s = pre ++ slash :: rest) {i : ℕ} (hi : i ≤ pre.length) :
    charAt pre i = dot ↔ charAt s i = dot := by
  have hslash : charAt (slash :: rest) 0 ≠ dot := (by decide : slash ≠ dot)
  rw [heq]
  exact (charAt_append_eq_dot hslash hi).symm

theorem neverFalls_taken : NeverFalls (c :: s) (k + 1) path idx ↔ NeverFalls s k path idx := by
  constructor
  · intro h pre rest heq hk
    exact h (c :: pre) rest (by rw [heq, List.cons_append]) (Nat.succ_le_succ hk)
  · intro h pre rest heq hk
    cases pre with
    | nil => cases hk
    | cons x pre =>
      rw [List.cons_append, List.cons.injEq] at heq
      exact h pre rest heq.2 (Nat.le_of_succ_le_succ hk)

/-- A first token that is not `/..`, or where the slash is there, with what it makes of the loop. -/
theorem neverFalls_token {k' : ℕ} {path₁ : Mem} {idx₁ : ℤ}
    (hfirst : c = slash → charAt s 0 = dot → charAt s 1 = dot → SlashBefore path idx)
    (htaken : ∀ pre rest, s = pre ++ slash :: rest → k' ≤ pre.length)
    (hscan : ∀ pre rest, s = pre ++ slash :: rest →
      scan (c :: pre) 0 path idx = scan pre k' path₁ idx₁) :
    NeverFalls (c :: s) 0 path idx ↔ NeverFalls s k' path₁ idx₁ := by
  constructor
  · intro h pre rest heq _ path' idx' hpre
    refine h (c :: pre) rest (by rw [heq, List.cons_append]) (Nat.zero_le _) path' idx' ?_
    rwa [hscan pre _ heq]
  · intro h pre rest heq _ path' idx' hpre
    cases pre with
    | nil =>
      rw [scan_nil] at hpre
      cases hpre
      rw [List.nil_append, List.cons.injEq] at heq
      obtain ⟨rfl, rfl⟩ := heq
      exact hfirst rfl rfl rfl
    | cons x pre =>
      rw [List.cons_append, List.cons.injEq] at heq
      obtain ⟨rfl, heq⟩ := heq
      rw [hscan pre _ heq] at hpre
      exact h pre rest heq (htaken pre _ heq) path' idx' hpre

theorem exists_dots (h : charAt s 0 = dot ∧ charAt s 1 = dot) : ∃ rest, s = dot :: dot :: rest := by
  match s, h with
  | x :: y :: rest, ⟨hx, hy⟩ => exact ⟨rest, by rw [show x = dot from hx, show y = dot from hy]⟩
  | [_], ⟨_, hy⟩ => exact absurd hy (by decide : (0 : UInt8) ≠ dot)
  | [], ⟨hx, _⟩ => exact absurd hx (by decide)

/-- A `/..` that finds a slash. -/
theorem neverFalls_dotDot (hdots : c = slash ∧ charAt s 0 = dot ∧ charAt s 1 = dot)
    (hslash : SlashBefore path idx) :
    NeverFalls (c :: s) 0 path idx ↔ NeverFalls s 2 path (goBack path idx) := by
  have htwo : ∀ pre rest, s = pre ++ slash :: rest → charAt pre 0 = dot ∧ charAt pre 1 = dot := by
    intro pre rest heq
    have hone := (charAt_before_slash heq (Nat.zero_le _)).mpr hdots.2.1
    exact ⟨hone, (charAt_before_slash heq (lt_length_of_dot hone)).mpr hdots.2.2⟩
  refine neverFalls_token (fun _ _ _ => hslash) (fun pre rest heq => ?_) fun pre rest heq => ?_
  · exact lt_length_of_dot (htwo pre rest heq).2
  · rw [scan_cons, if_pos ⟨hdots.1, htwo pre rest heq⟩]

/-- A `/.` without another dot. -/
theorem neverFalls_dot (hdots : ¬ (c = slash ∧ charAt s 0 = dot ∧ charAt s 1 = dot))
    (hdot : c = slash ∧ charAt s 0 = dot) :
    NeverFalls (c :: s) 0 path idx ↔ NeverFalls s 1 path idx := by
  have hone : ∀ pre rest, s = pre ++ slash :: rest → charAt pre 0 = dot :=
    fun pre rest heq => (charAt_before_slash heq (Nat.zero_le _)).mpr hdot.2
  refine neverFalls_token (fun h₁ h₂ h₃ => absurd ⟨h₁, h₂, h₃⟩ hdots) (fun pre rest heq => ?_)
    fun pre rest heq => ?_
  · exact lt_length_of_dot (hone pre rest heq)
  · have hnot : ¬ (c = slash ∧ charAt pre 0 = dot ∧ charAt pre 1 = dot) := fun h =>
      hdots ⟨h.1, hdot.2, (charAt_before_slash heq (lt_length_of_dot h.2.1)).mp h.2.2⟩
    rw [scan_cons, if_neg hnot, if_pos ⟨hdot.1, hone pre rest heq⟩]

/-- Any other character is copied. -/
theorem neverFalls_char {i : ℕ} (hdot : ¬ (c = slash ∧ charAt s 0 = dot)) (hi : i < maxPathLen) :
    NeverFalls (c :: s) 0 path i ↔ NeverFalls s 0 (Function.update path i c) (i + 1) := by
  refine neverFalls_token (fun h₁ h₂ _ => absurd ⟨h₁, h₂⟩ hdot) (fun _ _ _ => Nat.zero_le _)
    fun pre rest heq => ?_
  have hcopy : c ≠ slash ∨ charAt pre 0 ≠ dot := by
    by_contra h
    rw [not_or, not_not, not_not] at h
    exact hdot ⟨h.1, (charAt_before_slash heq (Nat.zero_le _)).mp h.2⟩
  rw [scan_char hcopy, putChar_of_lt hi]
  rfl

/-- The loop comes to its end with an index in the buffer exactly if no `..` falls off its front. -/
theorem scan_ok_iff (hidx : 0 ≤ idx) (hlen : idx + (s.length - k : ℕ) < maxPathLen) :
    (∃ path' i', scan s k path idx = .ok (path', i') ∧ 0 ≤ i') ↔ NeverFalls s k path idx := by
  induction s generalizing k path idx with
  | nil =>
    refine iff_of_true ⟨path, idx, scan_nil k, hidx⟩ fun pre rest heq => ?_
    simp at heq
  | cons c s ih =>
    rw [List.length_cons] at hlen
    cases k with
    | succ k =>
      rw [scan_taken, neverFalls_taken]
      exact ih hidx (by omega)
    | zero =>
      rw [scan_cons]
      by_cases hdots : c = slash ∧ charAt s 0 = dot ∧ charAt s 1 = dot
      · rw [if_pos hdots]
        by_cases hslash : SlashBefore path idx
        · have hle := goBack_le path idx
          rw [neverFalls_dotDot hdots hslash]
          exact ih ((goBack_nonneg_iff hidx).mpr hslash) (by omega)
        · have hback : goBack path idx < 0 := not_le.mp fun h => hslash ((goBack_nonneg_iff hidx).mp h)
          refine iff_of_false ?_ fun h => ?_
          · rintro ⟨path', i', hscan, hi'⟩
            have := scan_negative hback hscan
            omega
          · obtain ⟨rest, rfl⟩ := exists_dots hdots.2
            exact hslash (h [] rest (by rw [hdots.1, List.nil_append]) le_rfl path idx (scan_nil 0))
      rw [if_neg hdots]
      by_cases hdot : c = slash ∧ charAt s 0 = dot
      · rw [if_pos hdot, neverFalls_dot hdots hdot]
        exact ih hidx (by omega)
      · obtain ⟨n, rfl⟩ := Int.eq_ofNat_of_zero_le hidx
        have hn : n < maxPathLen := by omega
        rw [if_neg hdot, neverFalls_char hdot hn, putChar_of_lt hn]
        exact ih (by omega) (by omega)

/-! ## All writes -/

/-- `get_absolute_path` writes to no index outside `abs_path[]` and `path[]`. -/
def InBounds (b : CallerBuf) (cur : Str) : Prop := ∃ path, getAbsolutePath b.buf cur = .ok path

theorem putChar_eq_ok_iff : (∃ path', putChar path idx c = .ok path') ↔ 0 ≤ idx ∧ idx < maxPathLen := by
  unfold putChar
  split_ifs
  · exact iff_of_false (by simp) (by omega)
  · exact iff_of_false (by simp) (by omega)
  · exact iff_of_true ⟨_, rfl⟩ (by omega)

theorem inBounds_iff_scan (b : CallerBuf) {cur : Str} (hcur : cur.length < maxPathLen) :
    InBounds b cur ↔ (fullPath b.str cur).length < maxPathLen ∧
      ∃ path i, scan (fullPath b.str cur) 0 b.buf 0 = .ok (path, i) ∧ 0 ≤ i := by
  unfold InBounds
  simp only [getAbsolutePath_eq, bind_eq_ok]
  constructor
  · rintro ⟨path', s, hs, ⟨path, i⟩, hscan, hput⟩
    obtain ⟨hlen, rfl⟩ := (absPath_eq_ok hcur).mp hs
    exact ⟨hlen, path, i, hscan, (putChar_eq_ok_iff.mp ⟨path', hput⟩).1⟩
  · rintro ⟨hlen, path, i, hscan, hi⟩
    have hle := scan_idx_le hscan
    have hwrite : ∃ path', putChar path i 0 = .ok path' := putChar_eq_ok_iff.mpr ⟨hi, by omega⟩
    obtain ⟨path', hput⟩ := hwrite
    exact ⟨path', _, (absPath_eq_ok hcur).mpr ⟨hlen, rfl⟩, (path, i), hscan, hput⟩

/-! ### Names without a leading dot -/

/-- Only `.` and `..` begin with a dot. -/
def NoDotNames (cs : List Str) : Prop := ∀ c ∈ cs, charAt c 0 = dot → c = [dot] ∨ c = [dot, dot]

variable {cs : List Str}

theorem scan_component (n : Str) (cs : List Str) : scan (render (n :: cs)) 0 path idx =
    scan (slash :: n) 0 path idx >>= fun r => scan (render cs) 0 r.1 r.2 := by
  rw [render_cons, scan_append (charAt_render cs) (Nat.zero_le _)]

/-- As long as the first byte is a slash, every `..` finds one. -/
theorem scan_rooted {i : ℕ} (hroot : path 0 = slash) (hslash : ∀ c ∈ cs, slash ∉ c)
    (hnames : NoDotNames cs) (hlen : i + (render cs).length < maxPathLen) :
    ∃ path' i', scan (render cs) 0 path i = .ok (path', i') ∧ 0 ≤ i' := by
  induction cs generalizing path i with
  | nil => exact ⟨path, i, scan_nil 0, by omega⟩
  | cons n cs ih =>
    obtain ⟨hn, hslash'⟩ := List.forall_mem_cons.mp hslash
    obtain ⟨hname, hnames'⟩ := List.forall_mem_cons.mp hnames
    rw [render_cons, List.length_append, List.length_cons] at hlen
    rw [scan_component]
    by_cases hdot : charAt n 0 = dot
    · rcases hname hdot with rfl | rfl
      · rw [scan_dot (by decide), scan_nil]
        exact ih hroot hslash' hnames' (by omega)
      · have hback := (goBack_nonneg_iff (Int.natCast_nonneg i)).mpr ⟨0, Int.natCast_nonneg i, hroot⟩
        have hle := goBack_le path i
        obtain ⟨j, hj⟩ := Int.eq_ofNat_of_zero_le hback
        rw [scan_dotDot, scan_nil, hj]
        exact ih hroot hslash' hnames' (by omega)
    · rw [scan_plain hdot hn (by rw [List.length_cons]; omega)]
      have hkept : put path i (slash :: n) 0 = slash := by
        rcases Nat.eq_zero_or_pos i with rfl | hi
        · rfl
        · rw [put, copy_of_not_mem (by omega), hroot]
      have hlt : i + (slash :: n).length + (render cs).length < maxPathLen := by
        rw [List.length_cons]
        omega
      exact ih hkept hslash' hnames' hlt

/-- From the start, the loop falls off the front exactly if the first byte of the buffer is no slash and
    the first component, apart from `.`, is `..`. -/
theorem scan_start_iff (hslash : ∀ c ∈ cs, slash ∉ c) (hnames : NoDotNames cs)
    (hlen : (render cs).length < maxPathLen) :
    (∃ path' i', scan (render cs) 0 path 0 = .ok (path', i') ∧ 0 ≤ i') ↔
      path 0 = slash ∨ cs.find? (· ≠ [dot]) ≠ some [dot, dot] := by
  by_cases hroot : path 0 = slash
  · have hscan := scan_rooted (i := 0) hroot hslash hnames (by omega)
    exact iff_of_true hscan (Or.inl hroot)
  rw [or_iff_right hroot]
  induction cs with
  | nil => exact iff_of_true ⟨path, 0, scan_nil 0, le_rfl⟩ (by simp)
  | cons n cs ih =>
    obtain ⟨hn, hslash'⟩ := List.forall_mem_cons.mp hslash
    obtain ⟨hname, hnames'⟩ := List.forall_mem_cons.mp hnames
    rw [render_cons, List.length_append, List.length_cons] at hlen
    rw [scan_component]
    by_cases hdot : charAt n 0 = dot
    · rcases hname hdot with rfl | rfl
      · rw [scan_dot (by decide), scan_nil, List.find?_cons_of_neg (by decide)]
        exact ih hslash' hnames' (by omega)
      · have hback : goBack path (0 : ℕ) = -1 :=
          goBack_of_none fun k hk => by rwa [Nat.le_zero.mp hk]
        rw [scan_dotDot, scan_nil, List.find?_cons_of_pos (by decide)]
        refine iff_of_false ?_ (by simp)
        rintro ⟨path', i', hscan, hi'⟩
        rw [Nat.cast_zero] at hback
        have hscan' : scan (render cs) 0 path (goBack path 0) = .ok (path', i') := hscan
        have := scan_negative (by omega) hscan'
        omega
    · have hne : n ≠ [dot] := by
        rintro rfl
        exact hdot rfl
      have hne' : n ≠ [dot, dot] := by
        rintro rfl
        exact hdot rfl
      have hplain : scan (slash :: n) 0 path (0 : ℕ) =
          .ok (put path 0 (slash :: n), (0 + (slash :: n).length : ℕ)) :=
        scan_plain hdot hn (by rw [List.length_cons]; omega)
      rw [Nat.cast_zero] at hplain
      have hlt : 0 + (slash :: n).length + (render cs).length < maxPathLen := by
        rw [List.length_cons]
        omega
      rw [hplain, List.find?_cons_of_pos (by simpa using hne)]
      refine iff_of_true ?_ (by simpa using hne')
      have hslot : put path 0 (slash :: n) 0 = slash := rfl
      exact scan_rooted hslot hslash' hnames' hlt

/-- All writes are in the buffers exactly if the whole path name fits in `abs_path[]` and every `..` that
    is met finds a slash up to `idx`. With a normalised current path, and if only `.` and `..` begin with a
    dot, that is exactly if the path name fits, and it is absolute or its first component apart from `.` is
    not `..`. -/
theorem getAbsolutePath_inBounds (b : CallerBuf) :
    (∀ cur : Path, InBounds b cur.str ↔ (fullPath b.str cur.str).length < maxPathLen ∧
      NeverFalls (fullPath b.str cur.str) 0 b.buf 0) ∧
    ∀ cur : NormalPath, NoDotNames (allComponents b cur) →
      (InBounds b cur.str ↔ (fullPath b.str cur.str).length < maxPathLen ∧
        (charAt b.str 0 = slash ∨ (allComponents b cur).find? (· ≠ [dot]) ≠ some [dot, dot])) := by
  refine ⟨fun cur => ?_, fun cur hnames => ?_⟩
  · rw [inBounds_iff_scan b cur.length_lt]
    refine and_congr_right fun hlen => ?_
    exact scan_ok_iff le_rfl (by omega)
  · have hfirst : b.buf 0 = charAt b.str 0 := by
      have hholds := b.holds.1
      cases hstr : b.str with
      | nil =>
        rw [hstr] at hholds
        exact hholds.1
      | cons c s =>
        rw [hstr] at hholds
        exact hholds.1
    rw [inBounds_iff_scan b cur.length_lt, fullPath_eq, ← hfirst]
    exact and_congr_right fun hlen => scan_start_iff slash_notMem_of_allComponents hnames hlen

/-! ## Path names that are written out of bounds -/

/-- The first write that is out of bounds. -/
def stops (b : CallerBuf) (cur : Str) : Option BufStop :=
  match getAbsolutePath b.buf cur with
  | .error e => some e
  | .ok _ => none

theorem not_inBounds_of_stops {b : CallerBuf} {e : BufStop} (h : stops b cur = some e) :
    ¬ InBounds b cur := by
  rintro ⟨path, hpath⟩
  rw [stops, hpath] at h
  cases h

/-- A directory 200 characters deep. -/
def longPath : NormalPath where
  str := slash :: List.replicate 199 97
  comps := [List.replicate 199 97]
  plain := by
    intro n hn
    obtain rfl := List.mem_singleton.mp hn
    constructor <;> decide +kernel
  spells := Or.inl (by decide +kernel)
  length_lt := by decide +kernel

/-- A path name of 100 characters. -/
def longRest : CallerBuf := zeroedBuf (List.replicate 100 98) (by decide +kernel) (by decide +kernel)

/-- `..` in the root directory is written in front of `path[]`, and 100 characters behind a current path of
    200 are written behind `abs_path[]`. -/
theorem not_inBounds :
    stops (zeroedBuf (ofString "..") (by decide) (by decide)) rootPath.str = some .underrun ∧
      ¬ InBounds (zeroedBuf (ofString "..") (by decide) (by decide)) rootPath.str ∧
    stops longRest longPath.str = some .overrun ∧ ¬ InBounds longRest longPath.str := by
  have hunder : stops (zeroedBuf (ofString "..") (by decide) (by decide)) rootPath.str =
      some .underrun := by
    decide +kernel
  have hover : stops longRest longPath.str = some .overrun := by decide +kernel
  exact ⟨hunder, not_inBounds_of_stops hunder, hover, not_inBounds_of_stops hover⟩

/-- `../c` from `/a/b` is in bounds. -/
theorem getAbsolutePath_inBounds_deep :
    let b := zeroedBuf (ofString "../c") (by decide) (by decide)
    NoDotNames (allComponents b deepPath) ∧ InBounds b deepPath.str := by
  intro b
  have hnames : NoDotNames (allComponents b deepPath) := by
    unfold NoDotNames
    decide +kernel
  refine ⟨hnames, ((getAbsolutePath_inBounds b).2 deepPath hnames).mpr ⟨?_, Or.inr ?_⟩⟩
  · decide +kernel
  · decide +kernel

end RaspiKernel.Vfs
