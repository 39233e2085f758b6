import RaspiKernel.Boot.Str

/-!
# The initial ramdisk

Model of the loops of `src/initrd.c` over a cpio archive in memory, and of the
newc format that they read.

`initrd_ls`, `initrd_list`, `_initrd_usr_prog` and `initramfs_init` have one loop
with different bodies. What a function prints is the list of what it passes to
`uart_puts` and `uart_hex`; `kmalloc` and `memmove` of `_initrd_usr_prog` give a
copy of the bytes. What `initramfs_init` reads is here, what it stores is in
`RaspiKernel.Boot.Initramfs`.

Results:
* `cpioLoop_archive`: on every archive the loop visits the headers of the entries,
  in order, and stops at the trailer.
* `visits_visited`: what is found where the loop looks.
* `initrdLs_archive`, `initrdList_archive`, `initrdUsrProg_archive`,
  `initramfsFiles_archive`: what the functions read of every archive.
-/

namespace RaspiKernel.Boot

open Lib

/-! ## The loop -/

/-- `"070701"`. -/
def cpioMagic : List UInt8 := [0x30, 0x37, 0x30, 0x37, 0x30, 0x31]

/-- `"TRAILER!!"`. -/
def cpioTrailer : List UInt8 := [0x54, 0x52, 0x41, 0x49, 0x4c, 0x45, 0x52, 0x21, 0x21]

/-- `sizeof(cpio_f)`. -/
abbrev sizeofCpio : ℕ := 110

/-- `ALIGN(x, 4)` of an `unsigned long`. -/
def alignUlong (x : ℤ) : ℤ := (x + 3) % 2 ^ 64 / 4 * 4

/-- What a round of the loops reads of a header: `buf`, `ns` and `fs`. -/
structure Round where
  buf : ℕ
  ns : ℤ
  fs : ℤ
  deriving DecidableEq, Repr

/-- `hex2bin(header->namesize, 8)` and `ALIGN(hex2bin(header->filesize, 8), 4)`. -/
def readRound (m : Mem) (buf : ℕ) : Round :=
  ⟨buf, hex2bin m (buf + 94) 8, alignInt (hex2bin m (buf + 54) 8)⟩

/-- `buf + sizeof(cpio_f)`. -/
def Round.name (r : Round) : ℕ := r.buf + sizeofCpio

/-- `buf + ALIGN(sizeof(cpio_f) + ns, 4)`. -/
def Round.data (r : Round) : ℕ := ptrAdd r.buf (alignUlong (sizeofCpio + r.ns))

/-- `buf += (ALIGN(sizeof(cpio_f) + ns, 4) + fs)`. -/
def Round.next (r : Round) : ℕ := ptrAdd r.buf (alignUlong (sizeofCpio + r.ns) + r.fs)

/-- The condition of the loop. -/
def AtEntry (m : Mem) (buf : ℕ) : Prop :=
  memcmp m buf cpioMagic = 0 ∧ memcmp m (buf + sizeofCpio) cpioTrailer ≠ 0

instance decidableAtEntry (m : Mem) (buf : ℕ) : Decidable (AtEntry m buf) :=
  inferInstanceAs (Decidable (_ ∧ _))

section

variable {σ ρ : Type}

/-- `while(!memcmp(buf, "070701", 6) && memcmp(buf + sizeof(cpio_f), "TRAILER!!", 9))`, with a bound on
    its rounds. The body returns from the function, or goes on with its state. -/
def cpioLoop (m : Mem) (body : Round → σ → Option (ρ ⊕ σ)) : ℕ → ℕ → σ → Option (ρ ⊕ σ)
  | 0, _, _ => none
  | fuel + 1, buf, s =>
    if AtEntry m buf then
      match body (readRound m buf) s with
      | none => none
      | some (.inl ret) => some (.inl ret)
      | some (.inr s) => cpioLoop m body fuel (readRound m buf).next s
    else some (.inr s)

/-- The body, round after round. -/
def walk (body : Round → σ → Option (ρ ⊕ σ)) : List Round → σ → Option (ρ ⊕ σ)
  | [], s => some (.inr s)
  | r :: rs, s => match body r s with
    | none => none
    | some (.inl ret) => some (.inl ret)
    | some (.inr s) => walk body rs s

end

/-! ## The functions -/

/-- The value of a loop that does not return from its function. -/
def loopState {σ : Type} : Empty ⊕ σ → σ
  | .inr s => s

/-- `initrd_ls` (lines 77–95): the lines that it prints. -/
def initrdLs (fuel : ℕ) (m : Mem) (cpioBase : ℕ) : Option (List (List UInt8)) :=
  if memcmp m cpioBase cpioMagic ≠ 0 then some []
  else (cpioLoop m (fun r out => (readStr m fuel r.name).map fun name => .inr (out ++ [name]))
    fuel cpioBase [[0x2e]]).map loopState

/-- A line of `initrd_list`. -/
structure ListLine where
  mode : ℤ
  offset : ℤ
  fs : ℤ
  uid : ℤ
  gid : ℤ
  name : List UInt8
  deriving DecidableEq, Repr

/-- What `initrd_list` prints for a header (lines 52–71). -/
def listLine (m : Mem) (r : Round) (name : List UInt8) : ListLine where
  mode := hex2bin m (r.buf + 14) 8
  offset := (r.buf % 2 ^ 32 + sizeofCpio + r.ns) % 2 ^ 32
  fs := r.fs
  uid := hex2bin m (r.buf + 22) 8
  gid := hex2bin m (r.buf + 30) 8
  name := name

/-- `initrd_list` (lines 44–72): the lines behind the heading. -/
def initrdList (fuel : ℕ) (m : Mem) (cpioBase : ℕ) : Option (List ListLine) :=
  if memcmp m cpioBase cpioMagic ≠ 0 then some []
  else (cpioLoop m
    (fun r out => (readStr m fuel r.name).map fun name => .inr (out ++ [listLine m r name]))
    fuel cpioBase []).map loopState

/-- What `_initrd_usr_prog` finds: the header, `prog_addr`, `*size`, and the copy of the program. -/
structure Program where
  header : ℕ
  progAddr : ℕ
  size : ℤ
  image : List UInt8
  deriving DecidableEq, Repr

/-- The branch of `_initrd_usr_prog` for an entry with the name of the program (lines 151–166). -/
def selectProgram (m : Mem) (r : Round) : Option Program :=
  if r.fs = 0 then none else some ⟨r.buf, r.data, r.fs, bytes m r.data r.fs.toNat⟩

/-- `_initrd_usr_prog` (lines 134–171), where `none` is NULL. -/
def initrdUsrProg (fuel : ℕ) (m : Mem) (cpioBase : ℕ) (cmd : List UInt8) :
    Option (Option Program) :=
  if memcmp m cpioBase cpioMagic ≠ 0 then some none
  else (cpioLoop m
    (fun r (_ : Unit) => some (if strcmp m cmd r.name = 0 then .inl (selectProgram m r) else .inr ()))
    fuel cpioBase ()).map fun
      | .inl prog => prog
      | .inr _ => none

/-- What `initramfs_init` takes from an entry: `file_name`, `data` and `fs`. -/
structure InitramfsFile where
  name : List UInt8
  data : ℕ
  dataSize : ℤ
  deriving DecidableEq, Repr

/-- A round of `initramfs_init` (lines 234–250). Directories and empty files are ignored. -/
def initramfsFile (fuel : ℕ) (m : Mem) (r : Round) : Option (Option InitramfsFile) :=
  if r.fs = 0 then some none
  else (readStr m fuel r.name).map fun name => some ⟨name, r.data, r.fs⟩

/-- The loop of `initramfs_init` (lines 229–255): the files for which it makes inodes. -/
def initramfsFiles (fuel : ℕ) (m : Mem) (cpioBase : ℕ) : Option (List InitramfsFile) :=
  if memcmp m cpioBase cpioMagic ≠ 0 then some []
  else (cpioLoop m
    (fun r files => (initramfsFile fuel m r).map fun file => .inr (files ++ file.toList))
    fuel cpioBase []).map loopState

/-! ## The format -/

/-- A field of a header: eight hexadecimal digits. -/
structure Field where
  digits : List UInt8
  value : ℕ
  length_eq : digits.length = 8
  hex : hexValue digits 0 = some value

/-- An entry of an archive. -/
structure Entry where
  ino : Field
  mode : Field
  uid : Field
  gid : Field
  nlink : Field
  mtime : Field
  filesize : Field
  devmajor : Field
  devminor : Field
  rdevmajor : Field
  rdevminor : Field
  namesize : Field
  check : Field
  name : List UInt8
  data : List UInt8
  filesize_eq : filesize.value = data.length
  namesize_eq : namesize.value = name.length + 1
  nul_free : 0 ∉ name

/-- The fields before `filesize`. -/
def Entry.front (e : Entry) : List UInt8 :=
  cpioMagic ++ (e.ino.digits ++ (e.mode.digits ++ (e.uid.digits ++ (e.gid.digits ++
    (e.nlink.digits ++ e.mtime.digits)))))

/-- The fields between `filesize` and `namesize`. -/
def Entry.middle (e : Entry) : List UInt8 :=
  e.devmajor.digits ++ (e.devminor.digits ++ (e.rdevmajor.digits ++ e.rdevminor.digits))

/-- The header, `cpio_f`. -/
def Entry.header (e : Entry) : List UInt8 :=
  e.front ++ (e.filesize.digits ++ (e.middle ++ (e.namesize.digits ++ e.check.digits)))

/-- An entry in the archive: header and name, and data, each padded to a word. -/
def Entry.encode (e : Entry) : List UInt8 := pad4 (e.header ++ (e.name ++ [0])) ++ pad4 e.data

/-- The entry that ends an archive. -/
def Entry.IsTrailer (e : Entry) : Prop := e.name = cpioTrailer ++ [0x21] ∧ e.data = []

/-- An archive. -/
def archive (entries : List Entry) (trailer : Entry) : List UInt8 :=
  entries.flatMap Entry.encode ++ trailer.encode

/-- What the loop reads of an entry at `buf`. -/
def Entry.round (buf : ℕ) (e : Entry) : Round :=
  ⟨buf, (e.name.length + 1 : ℕ), ((e.data.length + 3) / 4 * 4 : ℕ)⟩

/-- The entries of an archive at `buf`, each with what the loop reads of it. -/
def visits : ℕ → List Entry → List (Entry × Round)
  | _, [] => []
  | buf, e :: es => (e, e.round buf) :: visits (buf + e.encode.length) es

/-! ## One entry -/

theorem Entry.length_front (e : Entry) : e.front.length = 54 := by
  simp [Entry.front, cpioMagic, Field.length_eq]

theorem Entry.length_middle (e : Entry) : e.middle.length = 32 := by
  simp [Entry.middle, Field.length_eq]

theorem Entry.length_header (e : Entry) : e.header.length = sizeofCpio := by
  simp [Entry.header, Entry.length_front, Entry.length_middle, Field.length_eq]

theorem Entry.length_encode (e : Entry) :
    e.encode.length = (sizeofCpio + e.name.length + 4) / 4 * 4 + (e.data.length + 3) / 4 * 4 := by
  rw [Entry.encode, List.length_append, length_pad4, length_pad4, List.length_append,
    List.length_append, e.length_header, List.length_singleton]
  omega

section

variable {m : Mem} {buf : ℕ} {e : Entry}

/-- Where the parts of an entry are. -/
theorem Entry.parts (h : Holds m buf e.encode) :
    Holds m buf e.header ∧ HoldsStr m (buf + sizeofCpio) e.name ∧
      Holds m (buf + (sizeofCpio + e.name.length + 4) / 4 * 4) e.data := by
  obtain ⟨hfirst, hdata⟩ := holds_append.mp h
  have hlen : (pad4 (e.header ++ (e.name ++ [0]))).length =
      (sizeofCpio + e.name.length + 4) / 4 * 4 := by
    rw [length_pad4, List.length_append, e.length_header, List.length_append, List.length_singleton]
    omega
  rw [hlen] at hdata
  rw [pad4, holds_append, holds_append, e.length_header] at hfirst
  exact ⟨hfirst.1.1, ⟨hfirst.1.2, e.nul_free⟩, (holds_append.mp hdata).1⟩

theorem field_spec {f : Field} (h : Holds m buf f.digits) (hlt : f.value < 2 ^ 31) :
    hex2bin m buf 8 = f.value := by
  have := hex2bin_spec h f.hex hlt
  rwa [f.length_eq] at this

/-- Reading a header gives the sizes of the entry. -/
theorem readRound_entry (h : Holds m buf e.encode) (hlen : e.encode.length < 2 ^ 31) :
    readRound m buf = e.round buf := by
  obtain ⟨hheader, -, -⟩ := e.parts h
  rw [e.length_encode] at hlen
  rw [Entry.header] at hheader
  obtain ⟨-, hheader⟩ := holds_append.mp hheader
  obtain ⟨hfs, hheader⟩ := holds_append.mp hheader
  obtain ⟨-, hheader⟩ := holds_append.mp hheader
  obtain ⟨hns, -⟩ := holds_append.mp hheader
  rw [e.length_front] at hfs hns
  rw [e.filesize.length_eq, e.length_middle] at hns
  have hname := field_spec hns (by rw [e.namesize_eq]; omega)
  have hfile := field_spec hfs (by rw [e.filesize_eq]; omega)
  rw [readRound, hfile, e.filesize_eq, alignInt_of_lt (by omega),
    show buf + 94 = buf + 54 + 8 + 32 by omega, hname, e.namesize_eq]
  rfl

theorem atEntry_entry (h : Holds m buf e.encode) (hname : ¬ cpioTrailer <+: e.name) :
    AtEntry m buf := by
  obtain ⟨hheader, hstr, -⟩ := e.parts h
  refine ⟨memcmp_eq_zero.mpr ?_, ?_⟩
  · rw [Entry.header, Entry.front] at hheader
    exact (holds_append.mp (holds_append.mp hheader).1).1
  · rw [Ne, memcmp_eq_zero, holds_iff_prefix hstr (by decide)]
    exact hname

theorem not_atEntry_trailer (h : Holds m buf e.encode) (htrailer : e.IsTrailer) :
    ¬ AtEntry m buf := by
  obtain ⟨-, hstr, -⟩ := e.parts h
  rw [htrailer.1] at hstr
  intro hentry
  exact hentry.2 (memcmp_eq_zero.mpr (holds_append.mp (holds_append.mp hstr.1).1).1)

theorem alignUlong_of_lt {x : ℕ} (h : x + 3 < 2 ^ 64) :
    alignUlong x = ((x + 3) / 4 * 4 : ℕ) := by
  unfold alignUlong
  omega

/-- The data of an entry is where the loop looks for it. -/
theorem data_round (hend : buf + e.encode.length < 2 ^ 64) :
    (e.round buf).data = buf + (sizeofCpio + e.name.length + 4) / 4 * 4 := by
  rw [e.length_encode] at hend
  rw [Round.data, Entry.round]
  dsimp only
  rw [← Nat.cast_add, alignUlong_of_lt (by omega), ptrAdd_of_lt (by omega)]
  omega

/-- The next header is behind the entry. -/
theorem next_round (hend : buf + e.encode.length < 2 ^ 64) :
    (e.round buf).next = buf + e.encode.length := by
  rw [e.length_encode] at hend ⊢
  rw [Round.next, Entry.round]
  dsimp only
  rw [← Nat.cast_add, alignUlong_of_lt (by omega), ← Nat.cast_add, ptrAdd_of_lt (by omega)]
  omega

end

/-! ## Whole archives -/

section

variable {m : Mem} {base fuel : ℕ} {entries : List Entry} {trailer : Entry}

/-- An archive in memory: no name starts like that of the trailer, and the sizes are `int`s. -/
structure ArchiveAt (m : Mem) (base : ℕ) (entries : List Entry) (trailer : Entry) : Prop where
  holds : Holds m base (archive entries trailer)
  names : ∀ e ∈ entries, ¬ cpioTrailer <+: e.name
  isTrailer : trailer.IsTrailer
  length_lt : (archive entries trailer).length < 2 ^ 31
  end_lt : base + (archive entries trailer).length < 2 ^ 64

theorem archive_cons (e : Entry) (es : List Entry) (trailer : Entry) :
    archive (e :: es) trailer = e.encode ++ archive es trailer := by
  simp [archive]

/-- The first entry, and the archive that the others make. -/
theorem ArchiveAt.cons {e : Entry} {es : List Entry} (h : ArchiveAt m base (e :: es) trailer) :
    Holds m base e.encode ∧ ¬ cpioTrailer <+: e.name ∧ e.encode.length < 2 ^ 31 ∧
      base + e.encode.length < 2 ^ 64 ∧ ArchiveAt m (base + e.encode.length) es trailer := by
  obtain ⟨hholds, hnames, htrailer, hlen, hend⟩ := h
  rw [archive_cons] at hholds hlen hend
  rw [List.length_append] at hlen hend
  obtain ⟨he, hes⟩ := holds_append.mp hholds
  exact ⟨he, hnames e List.mem_cons_self, by omega, by omega, hes,
    fun e' he' => hnames e' (List.mem_cons_of_mem _ he'), htrailer, by omega, by omega⟩

/-- Every archive starts with the magic number. -/
theorem ArchiveAt.magic (h : ArchiveAt m base entries trailer) : memcmp m base cpioMagic = 0 := by
  have hmagic : ∀ e : Entry, Holds m base e.encode → memcmp m base cpioMagic = 0 := by
    intro e he
    have hheader := (e.parts he).1
    rw [Entry.header, Entry.front] at hheader
    exact memcmp_eq_zero.mpr (holds_append.mp (holds_append.mp hheader).1).1
  cases entries with
  | nil => exact hmagic trailer h.holds
  | cons e es => exact hmagic e h.cons.1

theorem length_le_archive (entries : List Entry) (trailer : Entry) :
    entries.length < (archive entries trailer).length := by
  induction entries with
  | nil =>
    rw [archive, List.flatMap_nil, List.nil_append, trailer.length_encode, List.length_nil]
    omega
  | cons e es ih =>
    rw [archive_cons, List.length_append, List.length_cons, e.length_encode]
    omega

/-- The loop visits the headers of the entries, in order, and stops at the trailer. -/
theorem cpioLoop_archive {σ ρ : Type} (body : Round → σ → Option (ρ ⊕ σ))
    (h : ArchiveAt m base entries trailer) (hfuel : entries.length < fuel) (s : σ) :
    cpioLoop m body fuel base s = walk body ((visits base entries).map Prod.snd) s := by
  induction entries generalizing base fuel s with
  | nil =>
    obtain ⟨fuel, rfl⟩ := Nat.exists_eq_add_of_lt hfuel
    rw [cpioLoop, if_neg (not_atEntry_trailer h.holds h.isTrailer)]
    rfl
  | cons e es ih =>
    obtain ⟨fuel, rfl⟩ := Nat.exists_eq_add_of_lt hfuel
    obtain ⟨he, hname, hlen, hend, hes⟩ := h.cons
    rw [cpioLoop, if_pos (atEntry_entry he hname), readRound_entry he hlen, next_round hend, visits,
      List.map_cons, walk]
    cases body (e.round base) s with
    | none => rfl
    | some r =>
      cases r with
      | inl ret => rfl
      | inr s => exact ih hes (by rw [List.length_cons]; omega) s

/-- What is found where the loop looks. -/
structure Visited (m : Mem) (x : Entry × Round) : Prop where
  header : Holds m x.2.buf x.1.header
  name : HoldsStr m x.2.name x.1.name
  data : Holds m x.2.data x.1.data
  fs : x.2.fs = ((x.1.data.length + 3) / 4 * 4 : ℕ)

theorem visits_visited (h : ArchiveAt m base entries trailer) :
    ∀ x ∈ visits base entries, Visited m x := by
  induction entries generalizing base with
  | nil => simp [visits]
  | cons e es ih =>
    obtain ⟨he, -, -, hend, hes⟩ := h.cons
    intro x hx
    rcases List.mem_cons.mp hx with rfl | hx
    · obtain ⟨hheader, hname, hdata⟩ := e.parts he
      rw [← data_round hend] at hdata
      exact ⟨hheader, hname, hdata, rfl⟩
    · exact ih hes x hx

/-- The header that the loop reads. -/
theorem readRound_visits (h : ArchiveAt m base entries trailer) :
    ∀ x ∈ visits base entries, readRound m x.2.buf = x.2 := by
  induction entries generalizing base with
  | nil => simp [visits]
  | cons e es ih =>
    obtain ⟨he, -, hlen, -, hes⟩ := h.cons
    intro x hx
    rcases List.mem_cons.mp hx with rfl | hx
    · exact readRound_entry he hlen
    · exact ih hes x hx

theorem map_fst_visits (base : ℕ) (entries : List Entry) :
    (visits base entries).map Prod.fst = entries := by
  induction entries generalizing base with
  | nil => rfl
  | cons e es ih => rw [visits, List.map_cons, ih]

theorem name_lt_archive (base : ℕ) (entries : List Entry) (trailer : Entry) :
    ∀ x ∈ visits base entries, x.1.name.length < (archive entries trailer).length := by
  intro x hx
  have he : x.1 ∈ entries := by
    rw [← map_fst_visits base entries]
    exact List.mem_map_of_mem hx
  obtain ⟨l, r, heq⟩ := List.append_of_mem he
  rw [heq]
  simp only [archive, List.flatMap_append, List.flatMap_cons, List.length_append, x.1.length_encode]
  omega

/-- A body that only appends to a list. -/
theorem walk_collect {α β ρ : Type} {body : Round → List α → Option (ρ ⊕ List α)}
    {l : List (β × Round)} {f : β × Round → List α}
    (h : ∀ x ∈ l, ∀ out, body x.2 out = some (.inr (out ++ f x))) (out : List α) :
    walk body (l.map Prod.snd) out = some (.inr (out ++ l.flatMap f)) := by
  induction l generalizing out with
  | nil => simp [walk]
  | cons x l ih =>
    rw [List.map_cons, walk, h x List.mem_cons_self]
    show walk body (l.map Prod.snd) (out ++ f x) = _
    rw [ih (fun y hy => h y (List.mem_cons_of_mem _ hy)), List.flatMap_cons, List.append_assoc]

/-- A body that returns at the first round that it accepts. -/
theorem walk_select {β ρ : Type} {p : β → Prop} [DecidablePred p] {f : Round → ρ}
    {body : Round → Unit → Option (ρ ⊕ Unit)} {l : List (β × Round)}
    (h : ∀ x ∈ l, body x.2 () = some (if p x.1 then .inl (f x.2) else .inr ())) :
    walk body (l.map Prod.snd) () =
      some (match l.find? fun x => p x.1 with
        | some x => .inl (f x.2)
        | none => .inr ()) := by
  induction l with
  | nil => rfl
  | cons x l ih =>
    rw [List.map_cons, walk, h x List.mem_cons_self]
    by_cases hx : p x.1
    · rw [if_pos hx, List.find?_cons_of_pos (by simpa using hx)]
    · rw [if_neg hx, List.find?_cons_of_neg (by simpa using hx)]
      exact ih fun y hy => h y (List.mem_cons_of_mem _ hy)

/-- A name is read where the loop looks for it. -/
theorem readStr_visited (h : ArchiveAt m base entries trailer)
    (hfuel : (archive entries trailer).length ≤ fuel) :
    ∀ x ∈ visits base entries, readStr m fuel x.2.name = some x.1.name := by
  intro x hx
  have hlt := name_lt_archive base entries trailer x hx
  exact readStr_spec (visits_visited h x hx).name (by omega)

theorem initrdLs_archive (h : ArchiveAt m base entries trailer)
    (hfuel : (archive entries trailer).length ≤ fuel) :
    initrdLs fuel m base = some ([0x2e] :: entries.map Entry.name) := by
  have hlen := length_le_archive entries trailer
  rw [initrdLs, h.magic, if_neg (by decide), cpioLoop_archive _ h (by omega),
    walk_collect (f := fun x => [x.1.name])]
  · have hnames : (visits base entries).flatMap (fun x => [x.1.name]) = entries.map Entry.name := by
      rw [← List.map_eq_flatMap]
      conv_rhs => rw [← map_fst_visits base entries, List.map_map]
      rfl
    rw [hnames]
    rfl
  · intro x hx out
    rw [readStr_visited h hfuel x hx]
    rfl

theorem initrdList_archive (h : ArchiveAt m base entries trailer)
    (hfuel : (archive entries trailer).length ≤ fuel) :
    initrdList fuel m base = some ((visits base entries).map fun x => listLine m x.2 x.1.name) := by
  have hlen := length_le_archive entries trailer
  rw [initrdList, h.magic, if_neg (by decide), cpioLoop_archive _ h (by omega),
    walk_collect (f := fun x => [listLine m x.2 x.1.name])]
  · rw [← List.map_eq_flatMap]
    rfl
  · intro x hx out
    rw [readStr_visited h hfuel x hx]
    rfl

theorem fs_eq_zero {x : Entry × Round} (hx : Visited m x) : x.2.fs = 0 ↔ x.1.data = [] := by
  rw [hx.fs, ← List.length_eq_zero_iff]
  omega

theorem flatMap_ite {α β : Type} {p : α → Prop} [DecidablePred p] (f : α → β) (l : List α) :
    (l.flatMap fun x => if p x then [f x] else []) = (l.filter fun x => p x).map f := by
  induction l with
  | nil => rfl
  | cons x l ih =>
    rw [List.flatMap_cons, ih]
    by_cases hx : p x
    · rw [if_pos hx, List.filter_cons_of_pos (by simpa using hx), List.map_cons]
      rfl
    · rw [if_neg hx, List.filter_cons_of_neg (by simpa using hx), List.nil_append]

/-- What `initramfs_init` takes from an entry that has data. -/
def fileOf (x : Entry × Round) : InitramfsFile := ⟨x.1.name, x.2.data, x.2.fs⟩

/-- The entries that become files. -/
def fileVisits (base : ℕ) (entries : List Entry) : List (Entry × Round) :=
  (visits base entries).filter fun x => x.1.data ≠ []

theorem initramfsFile_visited (h : ArchiveAt m base entries trailer)
    (hfuel : (archive entries trailer).length ≤ fuel) :
    ∀ x ∈ visits base entries, initramfsFile fuel m x.2 =
      some (if x.1.data ≠ [] then some (fileOf x) else none) := by
  intro x hx
  have hfs := fs_eq_zero (visits_visited h x hx)
  unfold initramfsFile
  by_cases hdata : x.1.data = []
  · rw [if_pos (hfs.mpr hdata), if_neg (not_not.mpr hdata)]
  · rw [if_neg (mt hfs.mp hdata), if_pos hdata, readStr_visited h hfuel x hx]
    rfl

/-- Directories and empty files are passed over. -/
theorem initramfsFiles_archive (h : ArchiveAt m base entries trailer)
    (hfuel : (archive entries trailer).length ≤ fuel) :
    initramfsFiles fuel m base = some ((fileVisits base entries).map fileOf) := by
  have hlen := length_le_archive entries trailer
  rw [initramfsFiles, h.magic, if_neg (by decide), cpioLoop_archive _ h (by omega),
    walk_collect (f := fun x => if x.1.data ≠ [] then [fileOf x] else []), flatMap_ite]
  · rfl
  · intro x hx out
    rw [initramfsFile_visited h hfuel x hx]
    by_cases hdata : x.1.data = []
    · simp [hdata]
    · simp [hdata]

/-- The first entry with the given name is taken. -/
theorem initrdUsrProg_archive (h : ArchiveAt m base entries trailer)
    (hfuel : (archive entries trailer).length ≤ fuel) {cmd : List UInt8} (hcmd : 0 ∉ cmd) :
    initrdUsrProg fuel m base cmd =
      some (((visits base entries).find? fun x => cmd = x.1.name).bind
        fun x => selectProgram m x.2) := by
  have hlen := length_le_archive entries trailer
  rw [initrdUsrProg, h.magic, if_neg (by decide), cpioLoop_archive _ h (by omega),
    walk_select (p := fun e => cmd = e.name) (f := selectProgram m)]
  · cases (visits base entries).find? fun x => cmd = x.1.name <;> rfl
  · intro x hx
    simp only [strcmp_eq_zero (visits_visited h x hx).name hcmd]

end

/-- A field with one digit that is not 0. -/
def digitField (d : UInt8) (v : ℕ) (h : hexDigit d = some v) : Field where
  digits := List.replicate 7 0x30 ++ [d]
  value := v
  length_eq := rfl
  hex := by
    have h0 : hexDigit 0x30 = some 0 := rfl
    simp [hexValue, h0, h]

/-- An entry with zero in the fields that are not read. -/
def smallEntry (name data : List UInt8) (filesize namesize : Field)
    (hfs : filesize.value = data.length) (hns : namesize.value = name.length + 1)
    (hnul : 0 ∉ name) : Entry :=
  let zero := digitField 0x30 0 rfl
  ⟨zero, zero, zero, zero, zero, zero, filesize, zero, zero, zero, zero, namesize, zero, name, data,
    hfs, hns, hnul⟩

/-- Two files with one name, `a`. -/
def smallEntries : List Entry :=
  [smallEntry [0x61] [1, 2, 3, 4, 5] (digitField 0x35 5 rfl) (digitField 0x32 2 rfl) rfl rfl (by decide),
    smallEntry [0x61] [6] (digitField 0x31 1 rfl) (digitField 0x32 2 rfl) rfl rfl (by decide)]

/-- A file with the name `ab` and one byte. -/
def pairEntry : Entry :=
  smallEntry [0x61, 0x62] [5] (digitField 0x31 1 rfl) (digitField 0x33 3 rfl) rfl rfl (by decide)

/-- A file `a` of one word. -/
def wordEntry : Entry :=
  smallEntry [0x61] [1, 2, 3, 4] (digitField 0x34 4 rfl) (digitField 0x32 2 rfl) rfl rfl (by decide)

def smallTrailer : Entry :=
  smallEntry (cpioTrailer ++ [0x21]) [] (digitField 0x30 0 rfl) (digitField 0x42 11 rfl) rfl rfl
    (by decide)

theorem archiveAt_small :
    ArchiveAt (ofBytes (archive smallEntries smallTrailer)) 0 smallEntries smallTrailer :=
  ⟨holds_ofBytes fun i _ => by rw [Nat.zero_add], by decide, ⟨rfl, rfl⟩, by decide +kernel,
    by decide +kernel⟩

theorem length_archive_small : (archive smallEntries smallTrailer).length ≤ 400 := by decide +kernel

end RaspiKernel.Boot
