import RaspiKernel.Lib.Run
import RaspiKernel.Vfs.PathBuf

/-!
# Absolute paths

Model of `get_absolute_path` of `src/vfs.c`. The path name is put together in
`abs_path[]` and copied from there to `path[]`, the buffer it came in, while `.`
and `..` are dropped on the way. `path[]` still has what the caller has put there,
and what was copied before a `..` went back; the search for the slash that a `..`
goes back to begins with the byte at `idx`, which is one of those.

* Components are what is between two slashes, so that they may be empty.
* The root directory is spelled by no component, hence by the empty string.

Results:
* `scan_append`: the loop takes one component after the other.
* `normalised_of_clean`: what `get_absolute_path` leaves in `path[]`.
* `rightAll_iff`: when it is right behind every component.
-/

namespace RaspiKernel.Vfs

open Lib

/-! ## The model -/

/-- `'.'`. -/
abbrev dot : UInt8 := 0x2e

/-- `str[i]` of a string with its NUL. -/
def charAt (s : Str) (i : ℕ) : UInt8 := s.getD i 0

/-- `strcpy` into `abs_path[]`. -/
def strcpy (src : Str) : Except BufStop Str :=
  if src.length < maxPathLen then .ok src else .error .overrun

/-- `strcat` to the string in `abs_path[]`. -/
def strcat (dst src : Str) : Except BufStop Str := strcpy (dst ++ src)

/-- The string in `abs_path[]` before the loop (lines 225–232). -/
def absPath (path currentPath : Str) : Except BufStop Str :=
  if charAt path 0 ≠ slash then do
    let s ← strcpy currentPath
    let s ← if currentPath ≠ [slash] then strcat s [slash] else .ok s
    strcat s path
  else strcpy path

/-- `while (idx >= 0 && path[idx] != '/') idx--;` from an index that is not negative. -/
def goBackLoop (path : Mem) : ℕ → ℤ
  | 0 => if path 0 = slash then 0 else -1
  | idx + 1 => if path (idx + 1) = slash then (idx + 1 : ℕ) else goBackLoop path idx

/-- The loop that goes back to the last slash (line 239). -/
def goBack (path : Mem) (idx : ℤ) : ℤ := if idx < 0 then idx else goBackLoop path idx.toNat

/-- The loop of `get_absolute_path` (lines 235–254) on the rest of `abs_path[]`, of which the given number
    of characters has been taken by `i += 2` or `i++`, with `path[]` and `idx`. -/
def scan : Str → ℕ → Mem → ℤ → Except BufStop (Mem × ℤ)
  | [], _, path, idx => .ok (path, idx)
  | _ :: rest, taken + 1, path, idx => scan rest taken path idx
  | c :: rest, 0, path, idx =>
    if c = slash ∧ charAt rest 0 = dot ∧ charAt rest 1 = dot then scan rest 2 path (goBack path idx)
    else if c = slash ∧ charAt rest 0 = dot then scan rest 1 path idx
    else do
      let path ← putChar path idx c
      scan rest 0 path (idx + 1)

/-- `get_absolute_path` (lines 219–257): the buffer `path[]` afterwards. -/
def getAbsolutePath (path : Mem) (currentPath : Str) : Except BufStop Mem :=
  match Boot.readStr path maxPathLen 0 with
  | none => .error .overrun
  | some p => do
    let s ← absPath p currentPath
    let (path, idx) ← scan s 0 path 0
    putChar path idx 0

variable {path buf : Mem} {idx i' : ℤ} {s t : Str} {c : UInt8}

/-! ## One character -/

theorem scan_nil (k : ℕ) : scan [] k path idx = .ok (path, idx) := by
  cases k <;> rfl

theorem scan_taken (k : ℕ) : scan (c :: s) (k + 1) path idx = scan s k path idx := rfl

theorem scan_cons : scan (c :: s) 0 path idx =
    if c = slash ∧ charAt s 0 = dot ∧ charAt s 1 = dot then scan s 2 path (goBack path idx)
    else if c = slash ∧ charAt s 0 = dot then scan s 1 path idx
    else putChar path idx c >>= fun path => scan s 0 path (idx + 1) := rfl

/-- `/..`. -/
theorem scan_dotDot (s : Str) :
    scan (slash :: dot :: dot :: s) 0 path idx = scan s 0 path (goBack path idx) := by
  rw [scan_cons, if_pos ⟨rfl, rfl, rfl⟩, scan_taken, scan_taken]

/-- `/.` without another dot. -/
theorem scan_dot (h : charAt s 0 ≠ dot) :
    scan (slash :: dot :: s) 0 path idx = scan s 0 path idx := by
  have hnot : ¬ (slash = slash ∧ charAt (dot :: s) 0 = dot ∧ charAt (dot :: s) 1 = dot) :=
    fun hd => h hd.2.2
  rw [scan_cons, if_neg hnot, if_pos ⟨rfl, rfl⟩, scan_taken]

/-- A character that is copied. -/
theorem scan_char (h : c ≠ slash ∨ charAt s 0 ≠ dot) : scan (c :: s) 0 path idx =
    (putChar path idx c >>= fun path => scan s 0 path (idx + 1)) := by
  have hnot : ¬ (c = slash ∧ charAt s 0 = dot) := fun hd => h.elim (· hd.1) (· hd.2)
  rw [scan_cons, if_neg fun hd => hnot ⟨hd.1, hd.2.1⟩, if_neg hnot]

theorem charAt_append_of_lt {i : ℕ} (h : i < s.length) : charAt (s ++ t) i = charAt s i := by
  exact List.getD_append _ _ _ _ h

theorem charAt_append_length : charAt (s ++ t) s.length = charAt t 0 := by
  rw [charAt, List.getD_append_right _ _ _ _ le_rfl, Nat.sub_self, charAt]

/-- A look-ahead does not reach into a part that does not begin with a dot. -/
theorem charAt_append_eq_dot (ht : charAt t 0 ≠ dot) {i : ℕ} (hi : i ≤ s.length) :
    charAt (s ++ t) i = dot ↔ charAt s i = dot := by
  rcases hi.lt_or_eq with h | rfl
  · rw [charAt_append_of_lt h]
  · have hend : charAt s s.length = 0 := by simp [charAt]
    rw [charAt_append_length, hend]
    exact iff_of_false ht (by decide)

/-- A dot is no character behind the end. -/
theorem lt_length_of_dot {i : ℕ} (h : charAt s i = dot) : i < s.length := by
  by_contra hi
  rw [charAt, List.getD_eq_default _ _ (not_lt.mp hi)] at h
  exact absurd h (by decide)

/-- The loop takes one part after the other, if the second does not begin with a dot. -/
theorem scan_append (ht : charAt t 0 ≠ dot) {k : ℕ} (hk : k ≤ s.length) :
    scan (s ++ t) k path idx = scan s k path idx >>= fun r => scan t 0 r.1 r.2 := by
  induction s generalizing k path idx with
  | nil =>
    obtain rfl := Nat.le_zero.mp hk
    rfl
  | cons c s ih =>
    rw [List.cons_append]
    cases k with
    | succ k => exact ih (Nat.le_of_succ_le_succ hk)
    | zero =>
      have hone : charAt (s ++ t) 0 = dot ↔ charAt s 0 = dot :=
        charAt_append_eq_dot ht (Nat.zero_le _)
      have htwo : charAt s 0 = dot → (charAt (s ++ t) 1 = dot ↔ charAt s 1 = dot) :=
        fun h => charAt_append_eq_dot ht (lt_length_of_dot h)
      rw [scan_cons, scan_cons]
      by_cases hdot : c = slash ∧ charAt s 0 = dot
      · by_cases hdots : charAt s 1 = dot
        · rw [if_pos ⟨hdot.1, hone.mpr hdot.2, (htwo hdot.2).mpr hdots⟩,
            if_pos ⟨hdot.1, hdot.2, hdots⟩]
          exact ih (lt_length_of_dot hdots)
        · have hnot : ¬ (c = slash ∧ charAt s 0 = dot ∧ charAt s 1 = dot) := fun h => hdots h.2.2
          have hnot' : ¬ (c = slash ∧ charAt (s ++ t) 0 = dot ∧ charAt (s ++ t) 1 = dot) :=
            fun h => hdots ((htwo hdot.2).mp h.2.2)
          rw [if_neg hnot, if_neg hnot', if_pos hdot, if_pos ⟨hdot.1, hone.mpr hdot.2⟩]
          exact ih (lt_length_of_dot hdot.2)
      · have hnot : ¬ (c = slash ∧ charAt s 0 = dot ∧ charAt s 1 = dot) :=
          fun h => hdot ⟨h.1, h.2.1⟩
        have hdot' : ¬ (c = slash ∧ charAt (s ++ t) 0 = dot) := fun h => hdot ⟨h.1, hone.mp h.2⟩
        have hnot' : ¬ (c = slash ∧ charAt (s ++ t) 0 = dot ∧ charAt (s ++ t) 1 = dot) :=
          fun h => hdot' ⟨h.1, h.2.1⟩
        rw [if_neg hnot, if_neg hnot', if_neg hdot, if_neg hdot', bind_assoc]
        congr 1
        funext path
        exact ih (Nat.zero_le _)

/-! ## Going back -/

theorem goBackLoop_le (path : Mem) (n : ℕ) : goBackLoop path n ≤ n := by
  induction n with
  | zero =>
    rw [goBackLoop]
    split <;> simp
  | succ n ih =>
    rw [goBackLoop]
    split
    · exact le_rfl
    · push_cast
      omega

theorem goBack_le (path : Mem) (idx : ℤ) : goBack path idx ≤ idx := by
  unfold goBack
  split
  · exact le_rfl
  · have := goBackLoop_le path idx.toNat
    omega

/-- The last slash up to an index. -/
theorem goBack_of_last {j n : ℕ} (hj : j ≤ n) (h : path j = slash)
    (hlast : ∀ k, j < k → k ≤ n → path k ≠ slash) : goBack path n = j := by
  rw [goBack, if_neg (by omega), Int.toNat_natCast]
  induction n with
  | zero =>
    obtain rfl := Nat.le_zero.mp hj
    rw [goBackLoop, if_pos h, Nat.cast_zero]
  | succ n ih =>
    rw [goBackLoop]
    rcases hj.eq_or_lt with rfl | hlt
    · rw [if_pos h]
    · rw [if_neg (hlast _ hlt le_rfl)]
      exact ih (Nat.le_of_lt_succ hlt) fun k hjk hk => hlast k hjk (Nat.le_succ_of_le hk)

/-- Without a slash up to the index it falls off the front of the buffer. -/
theorem goBack_of_none {n : ℕ} (h : ∀ k ≤ n, path k ≠ slash) : goBack path n = -1 := by
  rw [goBack, if_neg (by omega), Int.toNat_natCast]
  induction n with
  | zero => rw [goBackLoop, if_neg (h 0 le_rfl)]
  | succ n ih =>
    rw [goBackLoop, if_neg (h _ le_rfl)]
    exact ih fun k hk => h k (Nat.le_succ_of_le hk)

/-- The loop copies a character of `abs_path[]` at most once. -/
theorem scan_idx_le {k : ℕ} {path' : Mem} (h : scan s k path idx = .ok (path', i')) :
    i' ≤ idx + (s.length - k : ℕ) := by
  induction s generalizing k path idx with
  | nil =>
    rw [scan_nil] at h
    cases h
    simp
  | cons c s ih =>
    rw [List.length_cons]
    cases k with
    | succ k =>
      have := ih h
      omega
    | zero =>
      rw [scan_cons] at h
      split at h
      · have := ih h
        have := goBack_le path idx
        omega
      · split at h
        · have := ih h
          omega
        · cases hput : putChar path idx c with
          | error e =>
            rw [hput] at h
            cases h
          | ok path₁ =>
            rw [hput] at h
            have := ih h
            omega

/-! ## Copying -/

/-- A string put into a buffer. -/
def put (buf : Mem) (i : ℕ) (s : Str) : Mem := copy buf i (ofBytes s) s.length

theorem put_cons (buf : Mem) (i : ℕ) (c : UInt8) (s : Str) :
    put buf i (c :: s) = put (Function.update buf i c) (i + 1) s := by
  funext x
  unfold put
  rw [List.length_cons]
  by_cases hx : i + 1 ≤ x ∧ x < i + 1 + s.length
  · rw [copy_of_mem (by omega), copy_of_mem hx, show x - i = x - (i + 1) + 1 by omega]
    rfl
  · rw [copy_of_not_mem hx]
    rcases eq_or_ne x i with rfl | hne
    · rw [copy_of_mem (by omega), Function.update_self, Nat.sub_self]
      rfl
    · rw [copy_of_not_mem (by omega), Function.update_of_ne hne]

theorem holds_put {buf : Mem} (h : Holds buf 0 s) (t : Str) :
    Holds (put buf s.length t) 0 (s ++ t) := by
  refine holds_append.mpr ⟨?_, holds_ofBytes fun i hi => ?_⟩
  · rw [holds_iff] at h ⊢
    intro i hi
    rw [put, copy_of_not_mem (by omega)]
    exact h i hi
  · rw [put, zero_add, copy_of_mem (by omega), Nat.add_sub_cancel_left]

/-- Characters that are no slash are copied. -/
theorem scan_chars {i : ℕ} (hs : slash ∉ s) (hlen : i + s.length ≤ maxPathLen) :
    scan s 0 buf i = .ok (put buf i s, (i + s.length : ℕ)) := by
  induction s generalizing i buf with
  | nil =>
    rw [scan_nil]
    congr 2
    funext x
    rw [put, copy_of_not_mem (by simp only [List.length_nil]; omega)]
  | cons c s ih =>
    rw [List.mem_cons, not_or] at hs
    rw [List.length_cons] at hlen
    rw [scan_char (Or.inl (Ne.symm hs.1)), putChar_of_lt (by omega)]
    have hrest : scan s 0 (Function.update buf i c) (i + 1 : ℕ) =
        .ok (put (Function.update buf i c) (i + 1) s, (i + 1 + s.length : ℕ)) := ih hs.2 (by omega)
    rw [Nat.cast_add, Nat.cast_one, ← put_cons] at hrest
    change scan s 0 (Function.update buf i c) (i + 1) = _
    rw [hrest, List.length_cons]
    congr 3
    omega

/-- A component that does not begin with a dot is copied with its slash. -/
theorem scan_plain {i : ℕ} (hdot : charAt s 0 ≠ dot) (hs : slash ∉ s)
    (hlen : i + (slash :: s).length ≤ maxPathLen) :
    scan (slash :: s) 0 buf i = .ok (put buf i (slash :: s), (i + (slash :: s).length : ℕ)) := by
  rw [List.length_cons] at hlen
  rw [scan_char (Or.inr hdot), putChar_of_lt (by omega)]
  have hrest : scan s 0 (Function.update buf i slash) (i + 1 : ℕ) =
      .ok (put (Function.update buf i slash) (i + 1) s, (i + 1 + s.length : ℕ)) :=
    scan_chars hs (by omega)
  rw [Nat.cast_add, Nat.cast_one, ← put_cons] at hrest
  change scan s 0 (Function.update buf i slash) (i + 1) = _
  rw [hrest, List.length_cons]
  congr 3
  omega

/-! ## Normalised paths -/

/-- `/c₁/c₂/…/cₙ`. -/
def render (cs : List Str) : Str := cs.flatMap (slash :: ·)

/-- One more component behind those that are left: `.` is dropped, and `..` removes the last one. -/
def normStep (done : List Str) (c : Str) : List Str :=
  if c = [dot] then done else if c = [dot, dot] then done.dropLast else done ++ [c]

/-- The components of the normalised path. -/
def normalForm (cs : List Str) : List Str := cs.foldl normStep []

@[simp] theorem render_nil : render [] = [] := rfl

@[simp] theorem render_cons (c : Str) (cs : List Str) : render (c :: cs) = slash :: c ++ render cs := rfl

@[simp] theorem render_append (cs cs' : List Str) : render (cs ++ cs') = render cs ++ render cs' := by
  simp [render]

theorem charAt_render (cs : List Str) : charAt (render cs) 0 ≠ dot := by
  cases cs with
  | nil => decide
  | cons c cs => exact (by decide : slash ≠ dot)

/-- The normalised path of the components is in front of `idx`. -/
def Shows (r : Except BufStop (Mem × ℤ)) (done : List Str) : Prop :=
  ∃ buf, r = .ok (buf, (render done).length) ∧ Holds buf 0 (render done)

/-- Behind each of the components the loop shows the normalised path. -/
def RightFrom (buf : Mem) (done cs : List Str) : Prop :=
  ∀ cs₁ cs₂, cs = cs₁ ++ cs₂ →
    Shows (scan (render cs₁) 0 buf (render done).length) (cs₁.foldl normStep done)

/-- What the components have to satisfy, where the buffer has `done` in front: a name does not begin with
    a dot. For a `..` that removes a component, the byte behind the output is no slash. For a `..` in the
    root directory the first byte is one. -/
def Clean : Mem → List Str → List Str → Prop
  | _, _, [] => True
  | buf, done, c :: cs =>
    if c = [dot] then Clean buf done cs
    else if c = [dot, dot] then
      (if done = [] then buf 0 = slash else buf (render done).length ≠ slash) ∧
        Clean buf done.dropLast cs
    else charAt c 0 ≠ dot ∧ Clean (put buf (render done).length (slash :: c)) (done ++ [c]) cs

instance decidableClean : ∀ (buf : Mem) (done cs : List Str), Decidable (Clean buf done cs)
  | _, _, [] => .isTrue trivial
  | buf, done, c :: cs =>
    have := decidableClean buf done cs
    have := decidableClean buf done.dropLast cs
    have := decidableClean (put buf (render done).length (slash :: c)) (done ++ [c]) cs
    inferInstanceAs (Decidable (ite _ _ (ite _ (_ ∧ _) (_ ∧ _))))

variable {done cs : List Str} {n : Str}

/-- The last component of a rendered path goes from a slash to the end. -/
theorem goBack_render (h : Holds buf 0 (render (done ++ [n]))) (hn : slash ∉ n)
    (hbehind : buf (render (done ++ [n])).length ≠ slash) :
    goBack buf (render (done ++ [n])).length = (render done).length := by
  have hlen : (render (done ++ [n])).length = (render done).length + (n.length + 1) := by simp
  rw [render_append, holds_append] at h
  have hname : Holds buf ((render done).length + 1) n := by simpa [Holds] using h.2.2
  refine goBack_of_last (by omega) ?_ fun k hk hle => ?_
  · simpa using h.2.1
  · rcases hle.eq_or_lt with rfl | hlt
    · exact hbehind
    · obtain ⟨j, rfl⟩ := Nat.exists_eq_add_of_le (Nat.succ_le_of_lt hk)
      rw [hlen] at hlt
      have hj : j < n.length := by omega
      rw [holds_iff.mp hname j hj]
      exact fun heq => hn (heq ▸ List.get_mem n ⟨j, hj⟩)

/-- A first component that leads to the right state. -/
theorem rightFrom_cons {buf' : Mem} (hbuf : Holds buf 0 (render done))
    (hscan : scan (slash :: n) 0 buf (render done).length =
      .ok (buf', (render (normStep done n)).length)) :
    RightFrom buf done (n :: cs) ↔ RightFrom buf' (normStep done n) cs := by
  have hsplit : ∀ cs₁, scan (render (n :: cs₁)) 0 buf (render done).length =
      scan (render cs₁) 0 buf' (render (normStep done n)).length := by
    intro cs₁
    rw [render_cons, scan_append (charAt_render cs₁) (Nat.zero_le _), hscan]
    rfl
  constructor
  · intro h cs₁ cs₂ heq
    rw [← hsplit]
    exact h (n :: cs₁) cs₂ (by rw [heq, List.cons_append])
  · intro h cs₁ cs₂ heq
    cases cs₁ with
    | nil => exact ⟨buf, scan_nil 0, hbuf⟩
    | cons m cs₁ =>
      rw [List.cons_append, List.cons.injEq] at heq
      obtain ⟨rfl, heq⟩ := heq
      rw [hsplit]
      exact h cs₁ cs₂ heq

/-- A first component that does not lead to the right index. -/
theorem not_rightFrom_cons (h : ∀ buf', scan (slash :: n) 0 buf (render done).length ≠
    .ok (buf', (render (normStep done n)).length)) : ¬ RightFrom buf done (n :: cs) := by
  intro hright
  obtain ⟨buf', hscan, -⟩ := hright [n] cs rfl
  rw [render_cons, render_nil, List.append_nil] at hscan
  exact h buf' hscan

/-- A name that begins with a dot loses at least one character. -/
theorem scan_dotName (hdot : charAt n 0 = dot) {i : ℕ} {buf' : Mem}
    (h : scan (slash :: n) 0 buf i = .ok (buf', idx)) : idx < i + (slash :: n).length := by
  rw [scan_cons] at h
  have hpos := lt_length_of_dot hdot
  rw [List.length_cons]
  split at h
  · have := scan_idx_le h
    have := goBack_le buf i
    omega
  · rw [if_pos ⟨rfl, hdot⟩] at h
    have := scan_idx_le h
    omega

/-- A `..` goes back to the end of the path without its last component exactly if the byte it begins with
    is no slash, or, without a component, is one. -/
theorem goBack_dropLast_iff (h : Holds buf 0 (render done)) (hdone : ∀ c ∈ done, slash ∉ c) :
    goBack buf (render done).length = (render done.dropLast).length ↔
      if done = [] then buf 0 = slash else buf (render done).length ≠ slash := by
  rcases List.eq_nil_or_concat' done with rfl | ⟨done, m, rfl⟩
  · rw [if_pos rfl]
    change goBack buf (0 : ℕ) = (0 : ℕ) ↔ _
    by_cases hroot : buf 0 = slash
    · refine iff_of_true ?_ hroot
      exact goBack_of_last le_rfl hroot fun k h₁ h₂ => absurd h₁ (not_lt.mpr h₂)
    · have hback : goBack buf (0 : ℕ) = -1 :=
        goBack_of_none fun k hk => by rwa [Nat.le_zero.mp hk]
      exact iff_of_false (by omega) hroot
  · rw [if_neg (List.append_ne_nil_of_right_ne_nil _ (List.cons_ne_nil m [])), List.dropLast_concat]
    by_cases hbehind : buf (render (done ++ [m])).length = slash
    · have hback : goBack buf (render (done ++ [m])).length = (render (done ++ [m])).length :=
        goBack_of_last le_rfl hbehind fun k h₁ h₂ => absurd h₁ (not_lt.mpr h₂)
      refine iff_of_false (fun heq => ?_) (not_not.mpr hbehind)
      rw [hback, render_append, List.length_append] at heq
      simp at heq
      omega
    · exact iff_of_true (goBack_render h (hdone m (by simp)) hbehind) hbehind

/-- A name without a leading dot is one more component. -/
theorem scan_name (hname : charAt n 0 ≠ dot) (hn : slash ∉ n)
    (hlen : (render (done ++ [n])).length ≤ maxPathLen) :
    scan (slash :: n) 0 buf (render done).length =
      .ok (put buf (render done).length (slash :: n), (render (done ++ [n])).length) := by
  have hend : (render done).length + (slash :: n).length = (render (done ++ [n])).length := by simp
  rw [scan_plain hname hn (by rwa [hend]), hend]

/-- What the loop has behind each component is right exactly if the components are clean. -/
theorem rightFrom_iff_clean (hbuf : Holds buf 0 (render done)) (hdone : ∀ c ∈ done, slash ∉ c)
    (hcs : ∀ c ∈ cs, slash ∉ c) (hlen : (render done).length + (render cs).length < maxPathLen) :
    RightFrom buf done cs ↔ Clean buf done cs := by
  induction cs generalizing buf done with
  | nil =>
    refine iff_of_true (fun cs₁ cs₂ heq => ?_) trivial
    obtain ⟨rfl, -⟩ := List.append_eq_nil_iff.mp heq.symm
    exact ⟨buf, scan_nil 0, hbuf⟩
  | cons n cs ih =>
    obtain ⟨hn, hcs⟩ := List.forall_mem_cons.mp hcs
    rw [render_cons, List.length_append, List.length_cons] at hlen
    rw [Clean]
    by_cases hdot : n = [dot]
    · have hstep : normStep done n = done := if_pos hdot
      have hscan : scan (slash :: n) 0 buf (render done).length = .ok (buf, (render done).length) := by
        rw [hdot, scan_dot (by decide), scan_nil]
      rw [if_pos hdot, rightFrom_cons hbuf (by rwa [hstep]), hstep]
      exact ih hbuf hdone hcs (by omega)
    rw [if_neg hdot]
    by_cases hdots : n = [dot, dot]
    · have hstep : normStep done n = done.dropLast := by rw [normStep, if_neg hdot, if_pos hdots]
      have hscan : scan (slash :: n) 0 buf (render done).length =
          .ok (buf, goBack buf (render done).length) := by
        rw [hdots, scan_dotDot, scan_nil]
      rw [if_pos hdots, ← goBack_dropLast_iff hbuf hdone]
      by_cases hback : goBack buf (render done).length = (render done.dropLast).length
      · obtain ⟨t, ht⟩ : ∃ t, render done = render done.dropLast ++ t := by
          rcases List.eq_nil_or_concat' done with rfl | ⟨done, m, rfl⟩
          · exact ⟨[], rfl⟩
          · exact ⟨_, by rw [List.dropLast_concat, render_append]⟩
        have hholds : Holds buf 0 (render done.dropLast) := by
          rw [ht, holds_append] at hbuf
          exact hbuf.1
        have hle := congrArg List.length ht
        rw [List.length_append] at hle
        rw [hback] at hscan
        rw [and_iff_right hback, rightFrom_cons hbuf (by rwa [hstep]), hstep]
        exact ih hholds (fun c hc => hdone c (List.mem_of_mem_dropLast hc)) hcs (by omega)
      · refine iff_of_false (not_rightFrom_cons fun buf' h => hback ?_) fun h => hback h.1
        rw [← hstep]
        exact (Prod.mk.inj (Except.ok.inj (hscan.symm.trans h))).2
    · have hstep : normStep done n = done ++ [n] := by rw [normStep, if_neg hdot, if_neg hdots]
      rw [if_neg hdots]
      by_cases hname : charAt n 0 = dot
      · refine iff_of_false (not_rightFrom_cons fun buf' h => ?_) fun h => h.1 hname
        have hlt := scan_dotName hname h
        rw [hstep] at hlt
        simp at hlt
      · have hend : (render (done ++ [n])).length = (render done).length + (n.length + 1) := by simp
        have hscan : scan (slash :: n) 0 buf (render done).length =
            .ok (put buf (render done).length (slash :: n), (render (done ++ [n])).length) :=
          scan_name hname hn (by omega)
        have hholds : Holds (put buf (render done).length (slash :: n)) 0 (render (done ++ [n])) := by
          simpa using holds_put hbuf (slash :: n)
        rw [and_iff_right hname, rightFrom_cons hbuf (by rwa [hstep]), hstep]
        exact ih hholds (by simpa [or_imp, forall_and] using ⟨hdone, hn⟩) hcs (by omega)

/-! ## The whole path name -/

/-- A component of a normalised path. -/
structure PlainName (n : Str) : Prop where
  ne_nil : n ≠ []
  ne_dot : n ≠ [dot]
  ne_dotDot : n ≠ [dot, dot]
  slash_notMem : slash ∉ n
  nul_notMem : 0 ∉ n

/-- A normalised absolute path. The empty string and `/` are the root directory. -/
structure NormalPath where
  str : Str
  comps : List Str
  plain : ∀ n ∈ comps, PlainName n
  spells : str = render comps ∨ (comps = [] ∧ str = [slash])
  length_lt : str.length < maxPathLen

/-- The buffer of a caller with a path name in it. What is behind the path name is left from before. -/
structure CallerBuf where
  buf : Mem
  str : Str
  holds : HoldsStr buf 0 str
  length_lt : str.length < maxPathLen

/-- The components of a path name, behind those of the current path if it is relative. -/
def allComponents (b : CallerBuf) (cur : NormalPath) : List Str :=
  if charAt b.str 0 = slash then (b.str.drop 1).splitOn slash else cur.comps ++ b.str.splitOn slash

/-- Putting the parts together gives the string back. -/
theorem render_splitOn (s : Str) : render (s.splitOn slash) = slash :: s := by
  induction s with
  | nil => rfl
  | cons c s ih =>
    by_cases hc : c = slash
    · rw [hc, splitOn_cons_slash, render_cons, ih]
      rfl
    · rw [splitOn_cons_of_ne hc]
      obtain ⟨x, xs, hsplit⟩ := List.exists_cons_of_ne_nil (splitOn_ne_nil s)
      rw [hsplit, render_cons, List.cons_append, List.cons.injEq] at ih
      rw [hsplit, List.modifyHead_cons, render_cons]
      simp [ih.2]

theorem render_absolute {p : Str} (h : charAt p 0 = slash) :
    render ((p.drop 1).splitOn slash) = p := by
  rw [render_splitOn]
  cases p with
  | nil => exact absurd h (by decide)
  | cons c p => rw [show c = slash from h, List.drop_one, List.tail_cons]

theorem strcpy_eq_ok {r : Str} : strcpy s = .ok r ↔ s.length < maxPathLen ∧ r = s := by
  unfold strcpy
  split
  · next h => simp [h, eq_comm]
  · next h => simp [h]

/-- The path name behind the current path, if it is relative. -/
def fullPath (path currentPath : Str) : Str :=
  if charAt path 0 ≠ slash then
    (if currentPath ≠ [slash] then currentPath ++ [slash] else currentPath) ++ path
  else path

/-- What is in `abs_path[]`, if it fits. -/
theorem absPath_eq_ok {p cur r : Str} (hcur : cur.length < maxPathLen) : absPath p cur = .ok r ↔
    (fullPath p cur).length < maxPathLen ∧ r = fullPath p cur := by
  unfold absPath fullPath
  by_cases hrel : charAt p 0 ≠ slash
  · rw [if_pos hrel, if_pos hrel, show strcpy cur = .ok cur from strcpy_eq_ok.mpr ⟨hcur, rfl⟩]
    change (if cur ≠ [slash] then strcat cur [slash] >>= (strcat · p) else strcat cur p) = _ ↔ _
    by_cases hroot : cur ≠ [slash]
    · rw [if_pos hroot, if_pos hroot, bind_eq_ok]
      constructor
      · rintro ⟨s, hs, h⟩
        obtain ⟨-, rfl⟩ := strcpy_eq_ok.mp hs
        exact strcpy_eq_ok.mp h
      · rintro ⟨hlen, rfl⟩
        refine ⟨cur ++ [slash], strcpy_eq_ok.mpr ⟨?_, rfl⟩, strcpy_eq_ok.mpr ⟨hlen, rfl⟩⟩
        rw [List.length_append] at hlen
        omega
    · rw [if_neg hroot, if_neg hroot]
      exact strcpy_eq_ok
  · rw [if_neg hrel, if_neg hrel]
    exact strcpy_eq_ok

theorem NormalPath.comps_nil_of_root {cur : NormalPath} (h : cur.str = [slash]) : cur.comps = [] := by
  rcases cur.spells with hstr | ⟨hnil, -⟩
  · rw [h] at hstr
    cases hcomps : cur.comps with
    | nil => rfl
    | cons n ns =>
      rw [hcomps, render_cons, List.cons_append, List.cons.injEq] at hstr
      exact absurd (List.append_eq_nil_iff.mp hstr.2.symm).1 (cur.plain n (by simp [hcomps])).ne_nil
  · exact hnil

/-- Behind a normalised path, the whole path name is spelled by all components. -/
theorem fullPath_eq (b : CallerBuf) (cur : NormalPath) :
    fullPath b.str cur.str = render (allComponents b cur) := by
  unfold fullPath allComponents
  by_cases habs : charAt b.str 0 = slash
  · rw [if_neg (not_not.mpr habs), if_pos habs, render_absolute habs]
  · rw [if_pos habs, if_neg habs, render_append, render_splitOn]
    by_cases hroot : cur.str = [slash]
    · rw [if_neg (not_not.mpr hroot), cur.comps_nil_of_root hroot, hroot]
      rfl
    · have hstr : cur.str = render cur.comps := cur.spells.resolve_right fun h => hroot h.2
      rw [if_pos hroot, ← hstr, List.append_assoc]
      rfl

theorem slash_notMem_of_allComponents {b : CallerBuf} {cur : NormalPath} :
    ∀ c ∈ allComponents b cur, slash ∉ c := by
  intro c hc
  unfold allComponents at hc
  split at hc
  · exact slash_notMem_of_splitOn hc
  · rcases List.mem_append.mp hc with hc | hc
    · exact (cur.plain c hc).slash_notMem
    · exact slash_notMem_of_splitOn hc

theorem nul_notMem_of_splitOn {p : Str} (hs : 0 ∉ s) (hp : p ∈ s.splitOn slash) : 0 ∉ p := by
  intro hzero
  have hmem : (0 : UInt8) ∈ render (s.splitOn slash) :=
    List.mem_flatMap.mpr ⟨p, hp, List.mem_cons_of_mem _ hzero⟩
  rw [render_splitOn, List.mem_cons] at hmem
  exact hmem.elim (by decide) hs

theorem nul_notMem_of_allComponents {b : CallerBuf} {cur : NormalPath} :
    ∀ c ∈ allComponents b cur, 0 ∉ c := by
  intro c hc
  unfold allComponents at hc
  split at hc
  · exact nul_notMem_of_splitOn (fun h => b.holds.2 (List.mem_of_mem_drop h)) hc
  · rcases List.mem_append.mp hc with hc | hc
    · exact (cur.plain c hc).nul_notMem
    · exact nul_notMem_of_splitOn b.holds.2 hc

/-- A normalised path has components of the path name only. -/
theorem mem_normalForm {c : Str} (h : c ∈ cs.foldl normStep done) : c ∈ done ∨ c ∈ cs := by
  induction cs generalizing done with
  | nil => exact Or.inl h
  | cons n cs ih =>
    rcases ih h with hstep | hmem
    · unfold normStep at hstep
      split_ifs at hstep
      · exact Or.inl hstep
      · exact Or.inl (List.mem_of_mem_dropLast hstep)
      · simpa [or_assoc] using Or.inl (b := c ∈ cs) (List.mem_append.mp hstep)
    · exact Or.inr (List.mem_cons_of_mem _ hmem)

/-! ## What is left in `path[]` -/

/-- `get_absolute_path` leaves the normalised path in `path[]`. -/
def Normalises (b : CallerBuf) (cur : NormalPath) : Prop :=
  ∃ path, getAbsolutePath b.buf cur.str = .ok path ∧
    Boot.readStr path maxPathLen 0 = some (render (normalForm (allComponents b cur)))

/-- The path name fits in `abs_path[]`, and behind each of its components `path[]` has the normalised
    path of the components so far. -/
def RightThroughout (b : CallerBuf) (cur : NormalPath) : Prop :=
  absPath b.str cur.str = .ok (render (allComponents b cur)) ∧ RightFrom b.buf [] (allComponents b cur)

/-- The path name fits in `abs_path[]`, and its components are clean. -/
def CleanPath (b : CallerBuf) (cur : NormalPath) : Prop :=
  (render (allComponents b cur)).length < maxPathLen ∧ Clean b.buf [] (allComponents b cur)

variable {b : CallerBuf} {cur : NormalPath}

theorem rightThroughout_iff : RightThroughout b cur ↔ CleanPath b cur := by
  unfold RightThroughout CleanPath
  rw [absPath_eq_ok cur.length_lt, fullPath_eq, and_iff_left rfl]
  refine and_congr_right fun hlen => ?_
  exact rightFrom_iff_clean trivial (by simp) slash_notMem_of_allComponents (by simpa using hlen)

theorem getAbsolutePath_eq (b : CallerBuf) (cur : Str) :
    getAbsolutePath b.buf cur = absPath b.str cur >>= fun s =>
      scan s 0 b.buf 0 >>= fun r => putChar r.1 r.2 0 := by
  unfold getAbsolutePath
  rw [Boot.readStr_spec b.holds b.length_lt]

theorem RightThroughout.normalises (h : RightThroughout b cur) : Normalises b cur := by
  obtain ⟨habs, hright⟩ := h
  obtain ⟨buf, hscan, hholds⟩ := hright (allComponents b cur) [] (List.append_nil _).symm
  have hlen := (absPath_eq_ok cur.length_lt).mp habs
  rw [fullPath_eq] at hlen
  have hidx := scan_idx_le hscan
  have hlt : (render ((allComponents b cur).foldl normStep [])).length < maxPathLen := by
    simp only [render_nil, List.length_nil] at hidx
    omega
  obtain ⟨hput, hstr⟩ := putChar_of_holds hholds hlt 0
  refine ⟨_, ?_, readStr_of_holds hstr ?_ hlt⟩
  · rw [getAbsolutePath_eq, habs]
    change (scan (render (allComponents b cur)) 0 b.buf 0 >>= fun r => putChar r.1 r.2 0) = _
    rw [show (0 : ℤ) = (render []).length from rfl, hscan]
    exact hput
  · intro hzero
    obtain ⟨c, hc, hmem⟩ := List.mem_flatMap.mp hzero
    rcases mem_normalForm hc with hc | hc
    · cases hc
    · exact (List.mem_cons.mp hmem).elim (by decide) (nul_notMem_of_allComponents c hc)

/-- If the components are clean, `get_absolute_path` leaves the normalised path. It has the normalised
    path of the components so far behind each of them exactly if they are. -/
theorem getAbsolutePath_normalises (b : CallerBuf) (cur : NormalPath) :
    (CleanPath b cur → Normalises b cur) ∧ (RightThroughout b cur ↔ CleanPath b cur) :=
  ⟨fun h => (rightThroughout_iff.mpr h).normalises, rightThroughout_iff⟩

/-! ## Path names that go wrong -/

/-- The string that is left in `path[]`. -/
def leaves (b : CallerBuf) (cur : NormalPath) : Option Str :=
  match getAbsolutePath b.buf cur.str with
  | .error _ => none
  | .ok path => Boot.readStr path maxPathLen 0

theorem normalises_iff : Normalises b cur ↔
    leaves b cur = some (render (normalForm (allComponents b cur))) := by
  unfold Normalises leaves
  cases getAbsolutePath b.buf cur.str with
  | error e => simp
  | ok path => simp

/-- A buffer that was zeroed before the path name was copied to it, as in `sys_open`. -/
def zeroedBuf (s : Str) (hnul : 0 ∉ s) (hlen : s.length < maxPathLen) : CallerBuf where
  buf := ofBytes s
  str := s
  holds := by
    refine ⟨holds_snoc (holds_ofBytes fun i _ => ?_) (by simp [ofBytes]), hnul⟩
    rw [zero_add]
  length_lt := hlen

/-- The root directory, as it is spelled after `sys_chdir("/")`. -/
def rootPath : NormalPath := ⟨[slash], [], by simp, Or.inr ⟨rfl, rfl⟩, by decide⟩

/-- `/a/b`. -/
def deepPath : NormalPath where
  str := ofString "/a/b"
  comps := [ofString "a", ofString "b"]
  plain := by
    intro n hn
    rcases List.mem_cons.mp hn with rfl | hn
    · constructor <;> decide
    · obtain rfl := List.mem_singleton.mp hn
      constructor <;> decide
  spells := Or.inl (by decide)
  length_lt := by decide

/-- In `/a/b` the components of `x/../y` are clean: `/a/b/x` ends where the buffer has the NUL. -/
theorem getAbsolutePath_normalises_dotdot :
    let b := zeroedBuf (ofString "x/../y") (by decide) (by decide)
    Normalises b deepPath ∧ leaves b deepPath = some (ofString "/a/b/y") := by
  intro b
  have hclean : CleanPath b deepPath := ⟨by decide +kernel, by decide +kernel⟩
  exact ⟨(getAbsolutePath_normalises b deepPath).1 hclean, by decide +kernel⟩

/-- An absolute path keeps what its first `..` should remove, a name that begins with a dot loses the dot
    and its slash, and the second of two `..` removes nothing. -/
theorem not_normalises :
    (leaves (zeroedBuf (ofString "/aaa/bbb/../ccc") (by decide) (by decide)) rootPath =
        some (ofString "/aaa/bbb/ccc") ∧
      ¬ Normalises (zeroedBuf (ofString "/aaa/bbb/../ccc") (by decide) (by decide)) rootPath) ∧
    (leaves (zeroedBuf (ofString ".hidden") (by decide) (by decide)) deepPath =
        some (ofString "/a/bhidden") ∧
      ¬ Normalises (zeroedBuf (ofString ".hidden") (by decide) (by decide)) deepPath) ∧
    (leaves (zeroedBuf (ofString "../..") (by decide) (by decide)) deepPath =
        some (ofString "/a") ∧
      ¬ Normalises (zeroedBuf (ofString "../..") (by decide) (by decide)) deepPath) := by
  simp only [normalises_iff]
  decide +kernel

/-- Two mistakes can make up for each other: `.h` loses its slash, so that one `..` removes `a` with it, and
    the second `..` removes nothing. -/
theorem normalises_by_chance :
    let b := zeroedBuf (ofString "a/.h/../..") (by decide) (by decide)
    Normalises b rootPath ∧ ¬ CleanPath b rootPath := by
  intro b
  refine ⟨normalises_iff.mpr (by decide +kernel), fun h => ?_⟩
  obtain ⟨buf, hscan, -⟩ := (rightThroughout_iff.mpr h).2 [ofString "a", ofString ".h"]
    [ofString "..", ofString ".."] (by decide +kernel)
  have hidx : (scan (render [ofString "a", ofString ".h"]) 0 b.buf 0).map Prod.snd = .ok 3 := by
    decide +kernel
  have hidx' := congrArg (Except.map Prod.snd) hscan
  rw [show ((render []).length : ℤ) = 0 from rfl, hidx] at hidx'
  have hlen : (3 : ℤ) = (render (normalForm [ofString "a", ofString ".h"])).length :=
    Except.ok.inj hidx'
  exact absurd hlen (by decide)

end RaspiKernel.Vfs
