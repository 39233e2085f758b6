import RaspiKernel.Print.Calls

/-!
# The messages that fit

`printf` formats into 128 bytes, and the `%s` in its formats are names, path names and
program names of up to 255 characters. Which of the calls of `RaspiKernel.Print.Calls`
print only what fits depends on the names that they print when something is not found,
or is found.

Results:
* `all_vfsLookup`: a component that is looked for in vain in an `initramfs`.
* `all_vfsOpen`, `all_vfsMkdir`, `all_vfsMount`, `all_sysExec`: the functions.
* `messages_fit_iff`: the system calls.
-/

namespace RaspiKernel.Print

open Lib
open Vfs (Str State Filesystem Image CallerBuf ofString slash maxPathLen components)
open Fd (fdTableSize)

variable {disk : Disk} {σ : State} {d e v : ℕ} {n c pathname : Str} {cs : List Str} {k : Kernel}
  {cmd : UserStr} {fuel : ℕ}

/-! ## The messages -/

theorem lookupNotFound_fits : (lookupNotFound n).Fits ↔ n.length ≤ 89 :=
  fits_string (ofString "        [initramfs_lookup] ") (ofString " not found\n")
    (by decide) (by decide) (by decide) (by decide)

theorem alreadyExists_fits {fs : Filesystem} (hfs : fs ≠ .initramfs) :
    (alreadyExists fs n).Fits ↔ n.length ≤ 83 := by
  have hpre : (opText fs "_create" "file ").length = 28 := by
    cases fs with
    | tmpfs => decide
    | initramfs => exact absurd rfl hfs
    | fat32 => decide
  exact fits_string (opText fs "_create" "file ") (ofString " already exists\n")
    (by cases fs <;> decide) (by decide) (by cases fs <;> decide) (by rw [hpre]; decide)

theorem directoryNotFound_fits : (directoryNotFound n).Fits ↔ n.length ≤ 72 :=
  fits_string (ofString "    [vfs_open] directory ")
    (ofString " not found, can't create file\n")
    (by decide) (by decide) (by decide) (by decide)

theorem emptyDirectory_fits : (emptyDirectory n).Fits ↔ n.length ≤ 86 :=
  fits_string (ofString "[sys_chdir] change to a empty directory ") (ofString "\n")
    (by decide) (by decide) (by decide) (by decide)

theorem foundProgram_fits : (foundProgram n).Fits ↔ n.length ≤ 105 :=
  fits_string (ofString "\nFound user_program: ") (ofString "\n")
    (by decide) (by decide) (by decide) (by decide)

theorem fileNotFound_fits : (fileNotFound n).Fits ↔ n.length ≤ 111 :=
  fits_string (ofString "file ") (ofString " not found\n")
    (by decide) (by decide) (by decide) (by decide)

theorem all_print {m : Message} : (print m).All Message.Fits ↔ m.Fits := Logged.all_emit m ()

theorem all_print_pure {α : Type} {m : Message} {a : α} :
    (print m >>= fun _ => pure a).All Message.Fits ↔ m.Fits := by
  rw [Logged.all_bind_of_ok (val_print m), all_print]
  simp

/-- A message with a fixed text that fits. -/
theorem all_fixed_pure {α : Type} {fmt : Str} {a : α} (hfmt : percent ∉ fmt)
    (hlen : fmt.length + 1 ≤ tmpSize) :
    (print ⟨fmt, []⟩ >>= fun _ => pure a).All Message.Fits :=
  all_print_pure.mpr (fits_plain hfmt hlen)

theorem percent_notMem_opText {fs : Filesystem} {op text : String} (hop : percent ∉ ofString op)
    (htext : percent ∉ ofString text) : percent ∉ opText fs op text := by
  have hopen : percent ∉ ofString "        [" := by decide
  have hclose : percent ∉ ofString "] " := by decide
  have hname : percent ∉ fs.name := by cases fs <;> decide
  simp only [opText, List.mem_append, not_or]
  exact ⟨⟨⟨⟨hopen, hname⟩, hop⟩, hclose⟩, htext⟩

/-- The name of a file system has at most nine characters. -/
theorem length_opText_le (fs : Filesystem) (op text : String) :
    (opText fs op text).length ≤ (ofString op).length + (ofString text).length + 20 := by
  have hopen : (ofString "        [").length = 9 := by decide
  have hclose : (ofString "] ").length = 2 := by decide
  have hname : fs.name.length ≤ 9 := by cases fs <;> decide
  simp only [opText, List.length_append, hopen, hclose]
  omega

/-- A text of one of the file systems. -/
theorem all_opText_pure {α : Type} {fs : Filesystem} {op text : String} {a : α}
    (hop : percent ∉ ofString op) (htext : percent ∉ ofString text)
    (hlen : (ofString op).length + (ofString text).length ≤ 107) :
    (print ⟨opText fs op text, []⟩ >>= fun _ => pure a).All Message.Fits := by
  have hle := length_opText_le fs op text
  apply all_fixed_pure (percent_notMem_opText hop htext)
  unfold tmpSize
  omega

/-! ## `vfs_lookup` -/

theorem all_lookup : (lookup σ d n).All Message.Fits ↔
    ((σ.node d).fs = .initramfs → Vfs.lookup σ d n = none → n.length ≤ 89) := by
  unfold lookup
  cases hfs : (σ.node d).fs with
  | tmpfs => simp
  | fat32 => simp
  | initramfs =>
    dsimp only
    unfold initramfsLookup
    cases hv : Vfs.lookup σ d n with
    | some v => simp
    | none =>
      dsimp only
      rw [all_print_pure, lookupNotFound_fits]
      simp

/-- On the way along the components, none that is looked for in vain in an `initramfs` is longer than 89
    characters. -/
def MissesShort (σ : State) (d : ℕ) (cs : List Str) : Prop :=
  ∀ pre c post e, cs = pre ++ c :: post → Vfs.walk σ d pre = some e →
    (σ.node e).fs = .initramfs → Vfs.lookup σ e c = none → c.length ≤ 89

theorem missesShort_nil : MissesShort σ d [] := by
  intro pre c post e heq
  simp at heq

theorem missesShort_cons : MissesShort σ d (n :: cs) ↔
    ((σ.node d).fs = .initramfs → Vfs.lookup σ d n = none → n.length ≤ 89) ∧
      ∀ v, Vfs.lookup σ d n = some v → MissesShort σ (Vfs.redirect σ v) cs := by
  constructor
  · intro h
    refine ⟨fun hfs hnone => h [] n cs d rfl rfl hfs hnone, fun v hv pre c post e heq hwalk => ?_⟩
    refine h (n :: pre) c post e (by rw [heq, List.cons_append]) ?_
    rw [Vfs.walk_cons, hv]
    exact hwalk
  · rintro ⟨hfirst, hrest⟩ pre c post e heq hwalk hfs hnone
    cases pre with
    | nil =>
      obtain ⟨rfl, rfl⟩ := List.cons.inj heq
      obtain rfl := Option.some.inj hwalk
      exact hfirst hfs hnone
    | cons x pre =>
      obtain ⟨rfl, rfl⟩ := List.cons.inj heq
      rw [Vfs.walk_cons, Option.bind_eq_some_iff] at hwalk
      obtain ⟨v, hv, hwalk⟩ := hwalk
      exact hrest v hv pre c post e rfl hwalk hfs hnone

theorem all_lookupChars (rest path : Str) : (lookupChars σ rest d path).All Message.Fits ↔
    MissesShort σ d ((rest.splitOn slash).modifyHead (path ++ ·)) := by
  induction rest generalizing d path with
  | nil =>
    have hsplit : ([] : Str).splitOn slash = [[]] := rfl
    rw [hsplit, List.modifyHead_cons, List.append_nil, missesShort_cons, lookupChars,
      Logged.all_bind_of_ok (lookup_val σ d path), all_lookup]
    exact and_congr_right fun _ =>
      iff_of_true (Logged.all_pure _) fun _ _ => missesShort_nil
  | cons c rest ih =>
    rw [lookupChars]
    by_cases hc : c = slash
    · rw [if_pos hc, hc, Vfs.splitOn_cons_slash, List.modifyHead_cons, List.append_nil, missesShort_cons,
        Logged.all_bind_of_ok (lookup_val σ d path), all_lookup]
      refine and_congr_right fun _ => ?_
      cases Vfs.lookup σ d path with
      | none => simp
      | some v =>
        dsimp only
        rw [ih, Vfs.modifyHead_nil_append]
        simp
    · rw [if_neg hc, ih, Vfs.splitOn_cons_of_ne hc, List.modifyHead_modifyHead]
      congr! 2
      funext s
      simp

/-- No component that `vfs_lookup` looks for in vain in an `initramfs` is longer than 89 characters. -/
def LookupShort (σ : State) (pathname : Str) : Prop := MissesShort σ σ.root (components pathname)

theorem all_vfsLookup : (vfsLookup σ pathname).All Message.Fits ↔ LookupShort σ pathname := by
  unfold vfsLookup LookupShort components
  split_ifs
  · exact iff_of_true (Logged.all_pure _) missesShort_nil
  · rw [all_lookupChars, Vfs.modifyHead_nil_append]

/-- A path name that is found prints nothing. -/
theorem LookupShort.of_found (h : Vfs.vfsLookup σ pathname = some d) : LookupShort σ pathname := by
  intro pre c post e heq hwalk _ hnone
  rw [Vfs.vfsLookup_eq, heq, Vfs.walk_append, hwalk, Option.bind_some, Vfs.walk_cons, hnone] at h
  cases h

theorem length_le_of_splitOn {s : Str} (h : c ∈ s.splitOn slash) : c.length ≤ s.length := by
  have hrender := congrArg List.length (Vfs.render_splitOn s)
  obtain ⟨before, behind, heq⟩ := List.append_of_mem h
  rw [heq, Vfs.render_append, Vfs.render_cons] at hrender
  simp only [List.length_append, List.length_cons] at hrender
  omega

/-- A component is not longer than the path name. -/
theorem LookupShort.of_length (h : pathname.length ≤ 89) : LookupShort σ pathname := by
  intro pre c post e heq _ _ _
  have hmem : c ∈ components pathname := by
    rw [heq]
    simp
  unfold components at hmem
  split_ifs at hmem
  · cases hmem
  · have hle := length_le_of_splitOn hmem
    rw [List.length_drop] at hle
    omega

/-! ## The other functions -/

theorem createIn_fits {fs : Filesystem} (hfs : fs ≠ .initramfs) (maxLen : ℕ) {after : List Message}
    (hafter : ∀ m ∈ after, m.Fits) : (createIn fs maxLen after σ d n).All Message.Fits ↔
      ((σ.node d).type = .dir → (Vfs.lookup σ d n).isSome → n.length ≤ 83) := by
  unfold createIn
  by_cases htype : (σ.node d).type ≠ .dir
  · rw [if_pos htype]
    exact iff_of_true (all_opText_pure (by decide) (by decide) (by decide)) fun h => absurd h htype
  · rw [if_neg htype]
    rw [not_not] at htype
    by_cases hlookup : (Vfs.lookup σ d n).isSome
    · rw [if_pos hlookup, all_print_pure, alreadyExists_fits hfs]
      simp [htype, hlookup]
    · rw [if_neg hlookup]
      refine iff_of_true ?_ fun _ h => absurd h hlookup
      cases Vfs.freeIdx σ d with
      | none => exact all_opText_pure (by decide) (by decide) (by decide)
      | some idx =>
        dsimp only
        split_ifs
        · exact all_opText_pure (by decide) (by decide) (by decide)
        · exact hafter

theorem newFileMessages_fit (disk : Disk) : ∀ m ∈ newFileMessages disk, m.Fits := by
  intro m hm
  unfold newFileMessages at hm
  rcases List.mem_append.mp hm with hm | hm
  · split_ifs at hm
    · cases hm
    · rw [List.mem_singleton.mp hm]
      exact fits_plain (by decide) (by decide)
  · split_ifs at hm
    · cases hm
    · rw [List.mem_singleton.mp hm]
      exact fits_plain (by decide) (by decide)

theorem all_create : (create disk σ d n).All Message.Fits ↔ ((σ.node d).fs ≠ .initramfs →
    (σ.node d).type = .dir → (Vfs.lookup σ d n).isSome → n.length ≤ 83) := by
  unfold create
  cases hfs : (σ.node d).fs with
  | tmpfs =>
    dsimp only
    rw [createIn_fits (by decide) _ (List.forall_mem_nil _)]
    simp
  | initramfs => simp
  | fat32 =>
    dsimp only
    rw [createIn_fits (by decide) _ (newFileMessages_fit disk)]
    simp

theorem mkdirIn_fits (fs : Filesystem) (maxLen : ℕ) : (mkdirIn fs maxLen σ d n).All Message.Fits := by
  unfold mkdirIn
  by_cases htype : (σ.node d).type ≠ .dir
  · rw [if_pos htype]
    exact all_opText_pure (by decide) (by decide) (by decide)
  · rw [if_neg htype]
    cases Vfs.freeIdx σ d with
    | none => exact all_opText_pure (by decide) (by decide) (by decide)
    | some idx =>
      dsimp only
      split_ifs
      · exact all_opText_pure (by decide) (by decide) (by decide)
      · exact List.forall_mem_nil _

theorem mkdir_fits (σ : State) (d : ℕ) (n : Str) : (mkdir σ d n).All Message.Fits := by
  unfold mkdir
  cases (σ.node d).fs with
  | tmpfs => exact mkdirIn_fits _ _
  | initramfs => exact Logged.all_pure _
  | fat32 => exact mkdirIn_fits _ _

theorem setupMessages_fit (disk : Disk) (fs : Filesystem) : (setupMessages disk fs).All Message.Fits := by
  cases fs with
  | tmpfs => exact Logged.all_pure _
  | initramfs => exact Logged.all_pure _
  | fat32 =>
    unfold setupMessages
    split_ifs
    · exact Logged.all_pure _
    · exact all_print.mpr (fits_plain (by decide) (by decide))
    · rw [Logged.all_bind_of_ok (val_print _), all_print]
      exact ⟨fits_plain (by decide) (by decide), Logged.all_stop _⟩

/-- The names that `vfs_open` prints are short enough. -/
structure OpenShort (σ : State) (pathname : Str) (flags : UInt32) : Prop where
  lookup : LookupShort σ pathname
  /-- The directory in which a file cannot be created. -/
  directory : Vfs.vfsLookup σ pathname = none → flags &&& Vfs.oCreat ≠ 0 →
    Vfs.vfsLookup σ (Vfs.dirName pathname) = none → (Vfs.dirName pathname).length ≤ 72
  /-- The name of a file to be created that the directory has already. -/
  name : Vfs.vfsLookup σ pathname = none → flags &&& Vfs.oCreat ≠ 0 →
    ∀ d, Vfs.vfsLookup σ (Vfs.dirName pathname) = some d → (σ.node d).fs ≠ .initramfs →
      (σ.node d).type = .dir → (Vfs.lookup σ d (Vfs.baseName pathname)).isSome →
        (Vfs.baseName pathname).length ≤ 83

theorem openShort_of_found (h : Vfs.vfsLookup σ pathname = some d) (flags : UInt32) :
    OpenShort σ pathname flags where
  lookup := .of_found h
  directory hnone := by rw [h] at hnone; cases hnone
  name hnone := by rw [h] at hnone; cases hnone

theorem all_vfsOpen (disk : Disk) (flags : UInt32) :
    (vfsOpen disk σ pathname flags).All Message.Fits ↔ OpenShort σ pathname flags := by
  unfold vfsOpen
  rw [Logged.all_bind_of_ok (vfsLookup_val σ pathname), all_vfsLookup]
  cases hpath : Vfs.vfsLookup σ pathname with
  | some node =>
    have hopen := openShort_of_found hpath flags
    exact iff_of_true ⟨hopen.lookup, Logged.all_pure _⟩ hopen
  | none =>
    dsimp only
    by_cases hflags : flags &&& Vfs.oCreat ≠ 0
    · rw [if_pos hflags, Logged.all_bind_of_ok (vfsLookup_val σ (Vfs.dirName pathname)), all_vfsLookup]
      cases hdir : Vfs.vfsLookup σ (Vfs.dirName pathname) with
      | none =>
        dsimp only
        rw [all_print_pure, directoryNotFound_fits]
        constructor
        · rintro ⟨hlookup, -, hlen⟩
          refine ⟨hlookup, fun _ _ _ => hlen, fun _ _ d hd => ?_⟩
          rw [hdir] at hd
          cases hd
        · intro h
          have hlen := h.directory hpath hflags hdir
          exact ⟨h.lookup, .of_length (by omega), hlen⟩
      | some node =>
        have hfound : LookupShort σ (Vfs.dirName pathname) := .of_found hdir
        dsimp only
        rw [Logged.all_bind_of_forall ?_, all_create]
        swap
        · -- `target` is returned, or the function stops
          rintro ⟨ret, target, σ'⟩
          cases target with
          | some v => exact Logged.all_pure _
          | none => exact Logged.all_stop _
        constructor
        · rintro ⟨hlookup, -, hname⟩
          refine ⟨hlookup, fun _ _ hnone => ?_, fun _ _ d hd => ?_⟩
          · rw [hdir] at hnone
            cases hnone
          · rw [hdir] at hd
            cases hd
            exact hname
        · intro h
          exact ⟨h.lookup, hfound, h.name hpath hflags node hdir⟩
    · rw [if_neg hflags]
      constructor
      · rintro ⟨hlookup, -⟩
        exact ⟨hlookup, fun _ h => absurd h hflags, fun _ h => absurd h hflags⟩
      · intro h
        exact ⟨h.lookup, Logged.all_pure _⟩

theorem all_vfsMkdir : (vfsMkdir σ pathname).All Message.Fits ↔
    (pathname ≠ [] → LookupShort σ (Vfs.dirName pathname)) := by
  unfold vfsMkdir
  split_ifs with hnil
  · exact iff_of_true (Logged.all_stop _) fun h => absurd hnil h
  · rw [Logged.all_bind_of_ok (vfsLookup_val σ (Vfs.dirName pathname)), all_vfsLookup]
    refine (and_iff_left ?_).trans ⟨fun h _ => h, fun h => h hnil⟩
    cases Vfs.vfsLookup σ (Vfs.dirName pathname) with
    | none => exact all_fixed_pure (by decide) (by decide)
    | some vnode =>
      dsimp only
      rw [Logged.all_bind_of_forall fun _ => Logged.all_pure _]
      exact mkdir_fits σ vnode _

theorem all_vfsMount (disk : Disk) (filesystem : Str) (img : Image) :
    (vfsMount disk σ pathname filesystem img).All Message.Fits ↔
      (Vfs.findFilesystem filesystem ≠ none → LookupShort σ pathname) := by
  unfold vfsMount
  cases Vfs.findFilesystem filesystem with
  | none => exact iff_of_true (all_fixed_pure (by decide) (by decide)) fun h => absurd rfl h
  | some fs =>
    dsimp only
    rw [Logged.all_bind_of_ok (vfsLookup_val σ pathname), all_vfsLookup]
    have hsimp : (some fs ≠ none → LookupShort σ pathname) ↔ LookupShort σ pathname := by simp
    rw [hsimp]
    refine and_iff_left ?_
    cases Vfs.vfsLookup σ pathname with
    | none => exact all_fixed_pure (by decide) (by decide)
    | some t =>
      dsimp only
      rw [Logged.all_bind]
      refine ⟨setupMessages_fit disk fs, fun _ _ => ?_⟩
      split_ifs
      · exact all_fixed_pure (by decide) (by decide)
      · exact Logged.all_pure _

/-! ## System calls -/

/-- `get_absolute_path` comes back, and leaves `p` in the buffer. -/
def AbsolutePath (b : CallerBuf) (currentDir p : Str) : Prop :=
  ∃ path, Vfs.getAbsolutePath b.buf currentDir = .ok path ∧ Boot.readStr path maxPathLen 0 = some p

theorem absolutePath_val {b : CallerBuf} {currentDir p : Str} :
    (absolutePath b currentDir).val = .ok p ↔ AbsolutePath b currentDir p := by
  unfold absolutePath AbsolutePath
  cases Vfs.getAbsolutePath b.buf currentDir with
  | error e => simp
  | ok path => cases h : Boot.readStr path maxPathLen 0 <;> simp [h]

theorem all_absolutePath_bind {α : Type} {b : CallerBuf} {currentDir : Str} {f : Str → Printing α} :
    (absolutePath b currentDir >>= f).All Message.Fits ↔
      ∀ p, AbsolutePath b currentDir p → (f p).All Message.Fits := by
  rw [Logged.all_bind]
  simp only [absolutePath_val]
  refine and_iff_right ?_
  unfold absolutePath
  cases Vfs.getAbsolutePath b.buf currentDir with
  | error e => exact Logged.all_stop _
  | ok path =>
    dsimp only
    cases Boot.readStr path maxPathLen 0 with
    | none => exact Logged.all_stop _
    | some p => exact Logged.all_pure _

theorem all_sysChdir {path : UserStr} : (sysChdir k path).All Message.Fits ↔
    ∀ p, AbsolutePath path.buf k.currentDir p → Vfs.vfsLookup k.vfs p = none → p.length ≤ 86 := by
  rw [sysChdir, all_absolutePath_bind]
  refine forall₂_congr fun p _ => ?_
  rw [Logged.all_bind_of_ok (vfsLookup_val k.vfs p), all_vfsLookup]
  cases hp : Vfs.vfsLookup k.vfs p with
  | some d => exact iff_of_true ⟨.of_found hp, Logged.all_pure _⟩ nofun
  | none =>
    dsimp only
    rw [all_print_pure, emptyDirectory_fits]
    constructor
    · exact fun h _ => h.2
    · intro h
      have hlen := h rfl
      exact ⟨.of_length (by omega), hlen⟩

theorem all_sysOpen {path : UserStr} {flags : UInt32} : (sysOpen k path flags).All Message.Fits ↔
    ∀ p, AbsolutePath path.buf k.currentDir p → (∃ i, k.fdTable i = none) →
      OpenShort k.vfs p flags := by
  rw [sysOpen, all_absolutePath_bind]
  refine forall₂_congr fun p _ => ?_
  cases hfd : (List.finRange fdTableSize).find? fun i => (k.fdTable i).isNone with
  | none =>
    refine iff_of_true (all_fixed_pure (by decide) (by decide)) ?_
    rintro ⟨i, hi⟩
    have hused := List.find?_eq_none.mp hfd i (List.mem_finRange i)
    rw [hi] at hused
    exact absurd rfl hused
  | some i =>
    have hfree : k.fdTable i = none := by
      have hnone := List.find?_some hfd
      rwa [Option.isNone_iff_eq_none] at hnone
    dsimp only
    rw [Logged.all_bind, all_vfsOpen]
    refine (and_iff_left ?_).trans ⟨fun h _ => h, fun h => h ⟨i, hfree⟩⟩
    intro r _
    obtain ⟨target, vfs⟩ := r
    cases target with
    | some v => exact Logged.all_pure _
    | none => exact all_fixed_pure (by decide) (by decide)

theorem all_sysMkdir {path : CallerBuf} : (sysMkdir k path).All Message.Fits ↔
    ∀ p, AbsolutePath path k.currentDir p → p ≠ [] → LookupShort k.vfs (Vfs.dirName p) := by
  rw [sysMkdir, all_absolutePath_bind]
  exact forall₂_congr fun p _ => all_vfsMkdir

theorem all_sysMount {target filesystem : UserStr} {img : Image} :
    (sysMount k target filesystem img).All Message.Fits ↔
      ∀ p, AbsolutePath target.buf k.currentDir p →
        Vfs.findFilesystem filesystem.str ≠ none → LookupShort k.vfs p := by
  rw [sysMount, all_absolutePath_bind]
  exact forall₂_congr fun p _ => all_vfsMount k.disk filesystem.str img

/-! ## Programs -/

/-- The search comes to an entry with the name of the program, and with data. -/
def FindsProgram (k : Kernel) (cmd : UserStr) : Prop :=
  Boot.memcmp k.mem k.cpioBase Boot.cpioMagic = 0 ∧
    ∃ buf, Boot.Reached k.mem (Boot.SearchGoesOn k.mem cmd.str) k.cpioBase buf ∧
      Boot.AtEntry k.mem buf ∧ Boot.strcmp k.mem cmd.str (Boot.readRound k.mem buf).name = 0 ∧
      (Boot.readRound k.mem buf).fs ≠ 0

/-- There is no archive, or the search comes to its end or to an entry without data. -/
def FindsNothing (k : Kernel) (cmd : UserStr) : Prop :=
  Boot.memcmp k.mem k.cpioBase Boot.cpioMagic ≠ 0 ∨
    ∃ buf, Boot.Reached k.mem (Boot.SearchGoesOn k.mem cmd.str) k.cpioBase buf ∧
      (Boot.AtEntry k.mem buf → Boot.strcmp k.mem cmd.str (Boot.readRound k.mem buf).name = 0 ∧
        (Boot.readRound k.mem buf).fs = 0)

/-- The name is short enough for what is printed where the search ends. -/
def EndShort (cmd : UserStr) : Boot.Round ⊕ Unit → Prop
  | .inl r => if r.fs = 0 then cmd.str.length ≤ 111 else cmd.str.length ≤ 105
  | .inr _ => cmd.str.length ≤ 111

theorem all_fileNotFound {r : Option Boot.Program} (h : cmd.str.length ≤ 111) :
    (match r with
      | some prog => pure (some prog)
      | none => print (fileNotFound cmd.str) >>= fun _ =>
        (pure none : Printing (Option Boot.Program))).All Message.Fits := by
  cases r with
  | some prog => exact Logged.all_pure _
  | none => exact all_print_pure.mpr (fileNotFound_fits.mpr h)

theorem all_sysExec_magic (hmagic : Boot.memcmp k.mem k.cpioBase Boot.cpioMagic ≠ 0) :
    (sysExec fuel k cmd).All Message.Fits ↔ cmd.str.length ≤ 111 := by
  unfold sysExec usrProg
  rw [if_pos hmagic, pure_bind]
  dsimp only
  rw [all_print_pure, fileNotFound_fits]

theorem all_sysExec (hmagic : Boot.memcmp k.mem k.cpioBase Boot.cpioMagic = 0) :
    (sysExec fuel k cmd).All Message.Fits ↔
      ∀ found, searchLoop k.mem cmd.str fuel k.cpioBase = some found → EndShort cmd found := by
  unfold sysExec usrProg
  rw [if_neg (not_not.mpr hmagic)]
  cases hfound : searchLoop k.mem cmd.str fuel k.cpioBase with
  | none => exact iff_of_true (List.forall_mem_nil _) nofun
  | some found =>
    simp only [Option.some.injEq, forall_eq']
    cases found with
    | inr u =>
      dsimp only
      rw [pure_bind]
      dsimp only
      rw [all_print_pure, fileNotFound_fits]
      rfl
    | inl r =>
      dsimp only
      unfold selectProgram EndShort
      dsimp only
      by_cases hfs : r.fs = 0
      · rw [if_pos hfs, if_pos hfs, bind_assoc, Logged.all_bind_of_ok (val_print _), all_print, pure_bind]
        dsimp only
        rw [all_print_pure, fileNotFound_fits]
        exact and_iff_right (fits_plain (by decide) (by decide))
      · rw [if_neg hfs, if_neg hfs, readStr_of_strcmp (searchLoop_name hfound)]
        dsimp only
        rw [bind_assoc, Logged.all_bind_of_ok (val_print _), all_print, foundProgram_fits, pure_bind]
        exact and_iff_left_of_imp fun h => all_fileNotFound (by omega)

/-- The messages of `sys_exec`, whatever number of rounds the search takes. -/
theorem all_sysExec_iff : (∀ fuel, (sysExec fuel k cmd).All Message.Fits) ↔
    (FindsProgram k cmd → cmd.str.length ≤ 105) ∧ (FindsNothing k cmd → cmd.str.length ≤ 111) := by
  by_cases hmagic : Boot.memcmp k.mem k.cpioBase Boot.cpioMagic = 0
  · simp only [all_sysExec hmagic]
    constructor
    · intro h
      constructor
      · rintro ⟨-, buf, hreached, hat, hname, hfs⟩
        have hends : EndsAt k.mem cmd.str buf (.inl (Boot.readRound k.mem buf)) := ⟨hat, hname, rfl⟩
        obtain ⟨fuel, hfuel⟩ := hends.searchLoop hreached
        have hshort := h fuel _ hfuel
        rwa [EndShort, if_neg hfs] at hshort
      · rintro (hnone | ⟨buf, hreached, hend⟩)
        · exact absurd hmagic hnone
        · by_cases hat : Boot.AtEntry k.mem buf
          · obtain ⟨hname, hfs⟩ := hend hat
            have hends : EndsAt k.mem cmd.str buf (.inl (Boot.readRound k.mem buf)) :=
              ⟨hat, hname, rfl⟩
            obtain ⟨fuel, hfuel⟩ := hends.searchLoop hreached
            have hshort := h fuel _ hfuel
            rwa [EndShort, if_pos hfs] at hshort
          · have hends : EndsAt k.mem cmd.str buf (.inr ()) := hat
            obtain ⟨fuel, hfuel⟩ := hends.searchLoop hreached
            exact h fuel _ hfuel
    · rintro ⟨hfinds, hnothing⟩ fuel found hfound
      obtain ⟨buf, hreached, hends⟩ := EndsAt.of_searchLoop hfound
      cases found with
      | inr u => exact hnothing (Or.inr ⟨buf, hreached, fun hat => absurd hat hends⟩)
      | inl r =>
        obtain ⟨hat, hname, rfl⟩ := hends
        unfold EndShort
        dsimp only
        split_ifs with hfs
        · exact hnothing (Or.inr ⟨buf, hreached, fun _ => ⟨hname, hfs⟩⟩)
        · exact hfinds ⟨hmagic, buf, hreached, hat, hname, hfs⟩
  · simp only [all_sysExec_magic hmagic, forall_const]
    constructor
    · exact fun h => ⟨fun hfinds => absurd hfinds.1 hmagic, fun _ => h⟩
    · exact fun h => h.2 (Or.inl hmagic)

/-! ## The system calls -/

/-- A system call with what user space passes to it. -/
inductive Syscall where
  | exec (name : UserStr)
  | chdir (path : UserStr)
  | openFile (path : UserStr) (flags : UInt32)
  /-- The path name is normalised in the user's buffer. -/
  | mkdir (path : CallerBuf)
  /-- The image is what the mount finds in the archive or on the disk. -/
  | mount (target filesystem : UserStr) (img : Image)

/-- What a call prints, the search in the archive having the given number of rounds. -/
def Syscall.messages (fuel : ℕ) (k : Kernel) : Syscall → List Message
  | .exec name => (sysExec fuel k name).log
  | .chdir path => (sysChdir k path).log
  | .openFile path flags => (sysOpen k path flags).log
  | .mkdir path => (sysMkdir k path).log
  | .mount target filesystem img => (sysMount k target filesystem img).log

/-- The names that a call prints are short enough. -/
def Syscall.Short (k : Kernel) : Syscall → Prop
  | .exec name =>
    (FindsProgram k name → name.str.length ≤ 105) ∧ (FindsNothing k name → name.str.length ≤ 111)
  | .chdir path => ∀ p, AbsolutePath path.buf k.currentDir p →
    Vfs.vfsLookup k.vfs p = none → p.length ≤ 86
  | .openFile path flags => ∀ p, AbsolutePath path.buf k.currentDir p →
    (∃ i, k.fdTable i = none) → OpenShort k.vfs p flags
  | .mkdir path => ∀ p, AbsolutePath path k.currentDir p →
    p ≠ [] → LookupShort k.vfs (Vfs.dirName p)
  | .mount target filesystem _ => ∀ p, AbsolutePath target.buf k.currentDir p →
    Vfs.findFilesystem filesystem.str ≠ none → LookupShort k.vfs p

/-- Every message that a call prints is formatted into at most 128 bytes exactly if the names that it
    prints are short enough. -/
theorem messages_fit_iff (k : Kernel) (call : Syscall) :
    (∀ fuel, ∀ m ∈ call.messages fuel k, m.Fits) ↔ call.Short k := by
  cases call with
  | exec name => exact all_sysExec_iff
  | chdir path => exact forall_const ℕ |>.trans all_sysChdir
  | openFile path flags => exact forall_const ℕ |>.trans all_sysOpen
  | mkdir path => exact forall_const ℕ |>.trans all_sysMkdir
  | mount target filesystem img => exact forall_const ℕ |>.trans all_sysMount

/-- The kernel after boot, with a small archive. -/
def smallKernel : Kernel where
  mem := ofBytes (Boot.archive Boot.smallEntries Boot.smallTrailer)
  cpioBase := 0
  vfs := Vfs.bootState
  currentDir := [slash]
  fdTable := fun _ => none
  disk := ⟨true, true, true, true⟩
  progPage := 1

/-- A name of 200 characters. -/
def longName : UserStr := ⟨List.replicate 200 0x62, by decide +kernel, by decide +kernel⟩

/-- `sys_exec` of a program that is not there. -/
theorem messages_not_fit : (Syscall.exec longName).messages 3 smallKernel = [fileNotFound longName.str] ∧
    ¬ (fileNotFound longName.str).Fits := by
  refine ⟨by decide +kernel, ?_⟩
  rw [fileNotFound_fits]
  decide +kernel

end RaspiKernel.Print
