import RaspiKernel.Boot.Cpio

/-!
# What `initrd_cat` sends

`initrd_cat` of `src/initrd.c` reads a name into an array of 128 characters, looks for
it in the archive as `_initrd_usr_prog` does, and sends the file from
`buf + sizeof(cpio_f) + ns` on, where the other two readers have
`buf + ALIGN(sizeof(cpio_f) + ns, 4)`.

Results:
* `shellInput_line`, `shellInput_overrun`: what `shell_input` makes of a line.
* `initrdCat_line`: what `initrd_cat` does on every archive.
* `cat_agrees_iff`: the files for which it agrees with the others.
-/

namespace RaspiKernel.Boot

open Lib

/-! ## The model -/

/-- `uart_getc` (`uart.c`, lines 82–92), of what it reads from `AUX_MU_IO_REG`. -/
def uartGetc (r : UInt8) : UInt8 := if r = 0x0d then 0x0a else r

/-- `shell_input` (`shell.c`, lines 20–30) into an array of `size` characters, of which `idx` have been
    written. It comes back at the end of a line; a write behind the array stops the model. -/
def shellInput (size : ℕ) : ℕ → Mem → List UInt8 → Option Mem
  | _, _, [] => none
  | idx, cmd, r :: input =>
    if uartGetc r = 0x0a then some cmd
    else if idx + 1 < size then
      -- `cmd[idx++] = c` and `cmd[++end] = '\0'`, where `end` is `idx` before both
      shellInput size (idx + 1) (Function.update (Function.update cmd idx (uartGetc r)) (idx + 1) 0) input
    else none

/-- `buf_size`. -/
abbrev bufSize : ℕ := 128

/-- What `initrd_cat` comes to behind the name. -/
inductive CatAnswer
  | noArchive
  | notFound
  | directory
  | sent (target : ℕ) (output : List UInt8)
  deriving DecidableEq, Repr

/-- The branch of `initrd_cat` for an entry with the name. `file.h` declares the size as an `int`, which
    `readfile` takes from the register without its sign. -/
def catEntry (m : Mem) (r : Round) : CatAnswer :=
  if r.fs = 0 then .directory
  else
    let target := ptrAdd r.buf (sizeofCpio + r.ns)
    .sent target (bytes m target (r.fs % 2 ^ 32).toNat)

/-- `initrd_cat` (lines 97–131), with what the array has on entry and the characters that come in. -/
def initrdCat (fuel : ℕ) (m : Mem) (cpioBase : ℕ) (buffer : Mem) (input : List UInt8) :
    Option CatAnswer :=
  if memcmp m cpioBase cpioMagic ≠ 0 then some .noArchive
  else (shellInput bufSize 0 buffer input).bind fun buffer =>
    (readStr buffer fuel 0).bind fun name =>
      (cpioLoop m
        (fun r (_ : Unit) => some (if strcmp m name r.name = 0 then .inl (catEntry m r) else .inr ()))
        fuel cpioBase ()).map fun
          | .inl answer => answer
          | .inr _ => .notFound

/-! ## Lines -/

/-- No character of the line ends it. -/
def OneLine (line : List UInt8) : Prop := ∀ c ∈ line, uartGetc c ≠ 0x0a

theorem uartGetc_of_ne {c : UInt8} (h : uartGetc c ≠ 0x0a) : uartGetc c = c := by
  unfold uartGetc at *
  split_ifs at h ⊢ with hc
  · exact absurd rfl h
  · rfl

/-- What is typed up to the first end of a line. -/
theorem exists_line (s : List UInt8) : ∃ line c rest,
    s ++ [0x0d] = line ++ c :: rest ∧ OneLine line ∧ uartGetc c = 0x0a ∧ line <+: s := by
  induction s with
  | nil => exact ⟨[], 0x0d, [], rfl, nofun, rfl, List.nil_prefix⟩
  | cons a s ih =>
    by_cases ha : uartGetc a = 0x0a
    · exact ⟨[], a, s ++ [0x0d], rfl, nofun, ha, List.nil_prefix⟩
    · obtain ⟨line, c, rest, heq, hline, hc, hpre⟩ := ih
      refine ⟨a :: line, c, rest, by rw [List.cons_append, heq, List.cons_append], ?_, hc,
        List.cons_prefix_cons.mpr ⟨rfl, hpre⟩⟩
      intro b hb
      rcases List.mem_cons.mp hb with rfl | hb
      · exact ha
      · exact hline b hb

variable {size idx : ℕ} {cmd : Mem} {line rest : List UInt8} {c : UInt8}

/-- A line that fits is stored, with a NUL if it is not empty. -/
theorem shellInput_line (hline : OneLine line) (hc : uartGetc c = 0x0a)
    (hlen : idx + line.length < size) :
    ∃ cmd', shellInput size idx cmd (line ++ c :: rest) = some cmd' ∧
      (∀ i < idx, cmd' i = cmd i) ∧ Holds cmd' idx line ∧
      cmd' (idx + line.length) = if line = [] then cmd idx else 0 := by
  induction line generalizing idx cmd with
  | nil => exact ⟨cmd, if_pos hc, fun _ _ => rfl, trivial, rfl⟩
  | cons a line ih =>
    rw [List.length_cons] at hlen
    have ha := hline a List.mem_cons_self
    obtain ⟨cmd', heq, hbefore, hholds, hnul⟩ :=
      @ih (idx + 1) (Function.update (Function.update cmd idx a) (idx + 1) 0)
        (fun b hb => hline b (List.mem_cons_of_mem _ hb)) (by omega)
    refine ⟨cmd', ?_, ?_, ⟨?_, hholds⟩, ?_⟩
    · rw [List.cons_append, shellInput, if_neg ha, if_pos (by omega), uartGetc_of_ne ha, heq]
    · intro i hi
      rw [hbefore i (by omega), Function.update_of_ne (by omega), Function.update_of_ne (by omega)]
    · rw [hbefore idx (by omega), Function.update_of_ne (by omega), Function.update_self]
    · rw [List.length_cons, show idx + (line.length + 1) = idx + 1 + line.length by omega, hnul,
        Function.update_self, ite_self, if_neg (List.cons_ne_nil _ _)]

/-- A line that does not fit is written behind the array. -/
theorem shellInput_overrun (hline : OneLine line) (hidx : idx < size)
    (hlen : size ≤ idx + line.length) : shellInput size idx cmd (line ++ rest) = none := by
  induction line generalizing idx cmd with
  | nil => exact absurd hlen (by simpa using hidx)
  | cons a line ih =>
    rw [List.length_cons] at hlen
    rw [List.cons_append, shellInput, if_neg (hline a List.mem_cons_self)]
    split_ifs with hlt
    · exact ih (fun b hb => hline b (List.mem_cons_of_mem _ hb)) hlt (by omega)
    · rfl

/-! ## Archives -/

section

variable {m : Mem} {base fuel : ℕ} {entries : List Entry} {trailer : Entry} {x : Entry × Round}

/-- What the loop reads of an entry, and where the entry is. -/
theorem visits_span : ∀ x ∈ visits base entries, x.2 = x.1.round x.2.buf ∧ base ≤ x.2.buf ∧
    x.2.buf + x.1.encode.length ≤ base + (entries.flatMap Entry.encode).length := by
  induction entries generalizing base with
  | nil => simp [visits]
  | cons e es ih =>
    intro x hx
    rw [List.flatMap_cons, List.length_append]
    rcases List.mem_cons.mp hx with rfl | hx
    · refine ⟨rfl, le_rfl, ?_⟩
      dsimp only [Entry.round]
      omega
    · obtain ⟨hround, hle, hend⟩ := ih x hx
      exact ⟨hround, by omega, by omega⟩

/-- Two entries of an archive do not overlap. -/
theorem visits_apart : ∀ x ∈ visits base entries, ∀ y ∈ visits base entries, x = y ∨
    x.2.buf + x.1.encode.length ≤ y.2.buf ∨ y.2.buf + y.1.encode.length ≤ x.2.buf := by
  induction entries generalizing base with
  | nil => simp [visits]
  | cons e es ih =>
    intro x hx y hy
    rcases List.mem_cons.mp hx with rfl | hx <;> rcases List.mem_cons.mp hy with rfl | hy
    · exact .inl rfl
    · exact .inr (.inl (visits_span y hy).2.1)
    · exact .inr (.inr (visits_span x hx).2.1)
    · exact ih x hx y hy

/-- What `initrd_cat` does with a line: it takes the first entry with this name. If nothing is typed,
    the array has to start with a NUL for that. -/
theorem initrdCat_line {buffer : Mem} (h : ArchiveAt m base entries trailer)
    (hfuel : (archive entries trailer).length ≤ fuel) (hline : OneLine line)
    (hc : uartGetc c = 0x0a) (hnul : 0 ∉ line) (hlen : line.length < fuel)
    (hbuffer : line = [] → buffer 0 = 0) :
    initrdCat fuel m base buffer (line ++ c :: rest) =
      if line.length < bufSize then
        some (match (visits base entries).find? fun x => line = x.1.name with
          | some x => catEntry m x.2
          | none => .notFound)
      else none := by
  have hentries := length_le_archive entries trailer
  rw [initrdCat, h.magic, if_neg (by decide)]
  split_ifs with hfits
  · obtain ⟨cmd, heq, -, hholds, hend⟩ :=
      @shellInput_line bufSize 0 buffer line rest c hline hc (by omega)
    have hstr : HoldsStr cmd 0 line := by
      refine ⟨holds_append.mpr ⟨hholds, ?_, trivial⟩, hnul⟩
      rw [hend]
      split_ifs with hempty
      · exact hbuffer hempty
      · rfl
    rw [heq, Option.bind_some, readStr_spec hstr hlen, Option.bind_some,
      cpioLoop_archive _ h (by omega), walk_select (p := fun e => line = e.name) (f := catEntry m)]
    · cases (visits base entries).find? fun x => line = x.1.name <;> rfl
    · intro x hx
      simp only [strcmp_eq_zero (visits_visited h x hx).name hnul]
  · rw [shellInput_overrun hline (by decide) (by omega), Option.bind_none]

/-- A file of an archive that is found by its name. -/
structure FoundFirst (base : ℕ) (entries : List Entry) (x : Entry × Round) : Prop where
  first : (visits base entries).find? (fun y => x.1.name = y.1.name) = some x
  data_ne : x.1.data ≠ []

/-- When the name of `x` is typed, then whatever the array had before, what `initrd_cat` sends starts at the
    address that `_initrd_usr_prog` uses for the file and `initramfs_init` in its round at the header, and
    begins with the contents. -/
def CatAgrees (fuel : ℕ) (m : Mem) (base : ℕ) (x : Entry × Round) : Prop :=
  ∀ buffer, ∃ target output prog file,
    initrdCat fuel m base buffer (x.1.name ++ [0x0d]) = some (.sent target output) ∧
    initrdUsrProg fuel m base x.1.name = some (some prog) ∧ prog.progAddr = target ∧
    initramfsFile fuel m (readRound m x.2.buf) = some (some file) ∧
    file.name = x.1.name ∧ file.data = target ∧
    x.1.data <+: output

theorem FoundFirst.mem (hx : FoundFirst base entries x) : x ∈ visits base entries :=
  List.mem_of_find?_eq_some hx.first

/-- `_initrd_usr_prog` takes the data from where the loop sees them. -/
theorem initrdUsrProg_first (h : ArchiveAt m base entries trailer)
    (hfuel : (archive entries trailer).length ≤ fuel) (hx : FoundFirst base entries x) :
    initrdUsrProg fuel m base x.1.name =
      some (some ⟨x.2.buf, x.2.data, x.2.fs, bytes m x.2.data x.2.fs.toNat⟩) := by
  have hfs := mt (fs_eq_zero (visits_visited h x hx.mem)).mp hx.data_ne
  rw [initrdUsrProg_archive h hfuel x.1.nul_free, hx.first, Option.bind_some, selectProgram, if_neg hfs]

/-- Where `readfile` starts, and where the data of an entry are. -/
theorem target_round (h : ArchiveAt m base entries trailer) (hx : x ∈ visits base entries) :
    ptrAdd x.2.buf (sizeofCpio + x.2.ns) = x.2.buf + 111 + x.1.name.length ∧
      x.2.data = x.2.buf + (x.1.name.length + 114) / 4 * 4 := by
  obtain ⟨hround, -, hend⟩ := visits_span x hx
  have hlt := h.end_lt
  have hlen := x.1.length_encode
  have hcpio : sizeofCpio = 110 := rfl
  rw [archive, List.length_append] at hlt
  have hdata := @data_round x.2.buf x.1 (by omega)
  rw [← hround] at hdata
  refine ⟨?_, by rw [hdata]; omega⟩
  have hns : x.2.ns = (x.1.name.length + 1 : ℕ) := by
    rw [hround]
    rfl
  rw [hns, ← Nat.cast_add, ptrAdd_of_lt (by omega)]
  omega

/-- The bytes at the data of an entry begin with it, if enough of them are read. -/
theorem data_prefix_bytes {e : List UInt8} {a n : ℕ} (h : Holds m a e) (hn : e.length ≤ n) :
    e <+: bytes m a n := by
  have heq : bytes m a e.length = e := bytes_eq rfl fun i hi => by
    rw [holds_iff.mp h i hi]
    simp [ofBytes, hi]
  refine ⟨bytes m (a + e.length) (n - e.length), ?_⟩
  conv_lhs => rw [← heq]
  rw [length_bytes, bytes_append, Nat.add_sub_cancel' hn]

/-- Where `readfile` starts for one file, no other file has its data. -/
theorem target_inj (h : ArchiveAt m base entries trailer) {y : Entry × Round} (hx : x ∈ visits base entries)
    (hy : y ∈ visits base entries) (hxdata : x.1.data ≠ []) (hydata : y.1.data ≠ [])
    (htarget : ptrAdd y.2.buf (sizeofCpio + y.2.ns) = x.2.data) : y = x := by
  have hxlen := x.1.length_encode
  have hylen := y.1.length_encode
  have hxpos := List.length_pos_iff.mpr hxdata
  have hypos := List.length_pos_iff.mpr hydata
  rw [(target_round h hy).1, (target_round h hx).2] at htarget
  rcases visits_apart y hy x hx with heq | hapart
  · exact heq
  · omega

/-- A file whose header ends at a word is sent as it is. -/
theorem initrdCat_first {buffer : Mem} (h : ArchiveAt m base entries trailer)
    (hfuel : (archive entries trailer).length ≤ fuel) (hx : FoundFirst base entries x)
    (hline : OneLine x.1.name) (hfits : x.1.name.length < 128) (hmod : x.1.name.length % 4 = 1) :
    initrdCat fuel m base buffer (x.1.name ++ [0x0d]) =
      some (.sent x.2.data (bytes m x.2.data (x.2.fs % 2 ^ 32).toNat)) := by
  have hname := name_lt_archive base entries trailer x hx.mem
  obtain ⟨htarget, hdata⟩ := target_round h hx.mem
  have hne : x.1.name ≠ [] := by
    rintro hnil
    rw [hnil] at hmod
    exact absurd hmod (by decide)
  have hfs := mt (fs_eq_zero (visits_visited h x hx.mem)).mp hx.data_ne
  have haddr : ptrAdd x.2.buf (sizeofCpio + x.2.ns) = x.2.data := by omega
  have hcat := @initrdCat_line x.1.name [] 0x0d m base fuel entries trailer buffer h hfuel hline rfl
    x.1.nul_free (by omega) fun hnil => absurd hnil hne
  have hentry : catEntry m x.2 = .sent x.2.data (bytes m x.2.data (x.2.fs % 2 ^ 32).toNat) := by
    rw [catEntry, if_neg hfs, haddr]
  rw [if_pos hfits, hx.first] at hcat
  simpa only [hentry] using hcat

/-- The readers of an archive agree on a file exactly if its name can be typed into the array and the header
    with the name and its NUL ends at a word: the length of the name is 1 modulo 4. -/
theorem cat_agrees_iff (h : ArchiveAt m base entries trailer)
    (hfuel : (archive entries trailer).length ≤ fuel) (hx : FoundFirst base entries x) :
    CatAgrees fuel m base x ↔
      OneLine x.1.name ∧ x.1.name.length < 128 ∧ x.1.name.length % 4 = 1 := by
  constructor
  · intro hagree
    have hname := name_lt_archive base entries trailer x hx.mem
    obtain ⟨htarget, hdata⟩ := target_round h hx.mem
    obtain ⟨line, c, rest, hinput, hline, hc, hpre⟩ := exists_line x.1.name
    obtain ⟨target, output, prog, -, hcat, hprog, rfl, -⟩ := hagree fun _ => 0
    rw [initrdUsrProg_first h hfuel hx] at hprog
    obtain rfl := Option.some.inj (Option.some.inj hprog)
    have hle := hpre.length_le
    rw [hinput, initrdCat_line h hfuel hline hc (fun h0 => x.1.nul_free (hpre.subset h0)) (by omega)
      fun _ => rfl] at hcat
    split_ifs at hcat with hfits
    cases hy : (visits base entries).find? fun y => line = y.1.name with
    | none => simp [hy] at hcat
    | some y =>
      have hmem := List.mem_of_find?_eq_some hy
      have hyname : line = y.1.name := by simpa using List.find?_some hy
      rw [hy] at hcat
      simp only [Option.some.injEq, catEntry] at hcat
      split_ifs at hcat with hfs
      have hydata := mt (fs_eq_zero (visits_visited h y hmem)).mpr hfs
      have haddr := (CatAnswer.sent.inj hcat).1
      obtain rfl : y = x := target_inj h hx.mem hmem hx.data_ne hydata haddr
      rw [hyname] at hline hfits
      exact ⟨hline, hfits, by omega⟩
  · rintro ⟨hline, hfits, hmod⟩ buffer
    have hvisited := visits_visited h x hx.mem
    have hfile : initramfsFile fuel m (readRound m x.2.buf) = some (some (fileOf x)) := by
      rw [readRound_visits h x hx.mem, initramfsFile_visited h hfuel x hx.mem, if_pos hx.data_ne]
    refine ⟨_, _, _, _, initrdCat_first h hfuel hx hline hfits hmod, initrdUsrProg_first h hfuel hx, rfl,
      hfile, rfl, rfl, data_prefix_bytes hvisited.data ?_⟩
    have hlen := x.1.length_encode
    have hlt := h.length_lt
    obtain ⟨-, hlow, hend⟩ := visits_span x hx.mem
    rw [archive, List.length_append] at hlt
    rw [hvisited.fs]
    omega

end

/-- The first of two files with one name. -/
theorem foundFirst_small : FoundFirst 0 smallEntries
    (smallEntries.head (by decide), (smallEntries.head (by decide)).round 0) :=
  ⟨List.find?_cons_of_pos (decide_eq_true rfl), by decide⟩

theorem initrdUsrProg_small :
    initrdUsrProg 400 (ofBytes (archive smallEntries smallTrailer)) 0 [0x61] =
      some (some ⟨0, 112, 8, [1, 2, 3, 4, 5, 0, 0, 0]⟩) := by decide +kernel

/-- The name `a` has one character. -/
theorem cat_agrees_small : CatAgrees 400 (ofBytes (archive smallEntries smallTrailer)) 0
    (smallEntries.head (by decide), (smallEntries.head (by decide)).round 0) := by
  have hline : OneLine [0x61] := by
    intro c hc
    rw [List.mem_singleton.mp hc]
    decide
  exact (cat_agrees_iff archiveAt_small length_archive_small foundFirst_small).mpr
    ⟨hline, by decide +kernel, rfl⟩

/-- Here the padding behind the name is sent, and the byte after it. -/
theorem cat_sends_padding : ¬ CatAgrees 400 (ofBytes (archive [pairEntry] smallTrailer)) 0
    (pairEntry, pairEntry.round 0) := by
  intro h
  obtain ⟨target, output, prog, file, hcat, hprog, heq, -⟩ := h fun _ => 0
  have hsent : initrdCat 400 (ofBytes (archive [pairEntry] smallTrailer)) 0 (fun _ => 0)
      (pairEntry.name ++ [0x0d]) = some (.sent 113 [0, 0, 0, 5]) := by decide +kernel
  have hfound : initrdUsrProg 400 (ofBytes (archive [pairEntry] smallTrailer)) 0 pairEntry.name =
      some (some ⟨0, 116, 4, [5, 0, 0, 0]⟩) := by decide +kernel
  obtain ⟨rfl, -⟩ := CatAnswer.sent.inj (Option.some.inj (hsent.symm.trans hcat))
  obtain rfl := Option.some.inj (Option.some.inj (hfound.symm.trans hprog))
  exact absurd heq (by decide)

end RaspiKernel.Boot
