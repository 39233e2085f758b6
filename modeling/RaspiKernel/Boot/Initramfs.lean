import RaspiKernel.Boot.Cpio
import RaspiKernel.Lib.Run

/-!
# The inodes of the initial ramdisk

`initramfs_init` of `src/initrd.c` makes an inode of every entry of the archive that
has data. It copies the name first, whatever its length, and then sets `data` and
`data_size`, which lie behind it in the inode. The vnodes are stored at `childs[0]`,
`childs[1]` and so on of the directory, whatever the size of the array.

An inode has `type` in the bytes 0 to 3, `name` in 4 to 19, `childs` in 24 to 151, `data`
in 152 to 159 and `data_size` in 160 to 167. It is in a slab object of 256 bytes, and a
write behind the object, where another one lies, stops the model.

Results:
* `fileInode_load`, `storeFiles_childs`: what is read back from the inodes.
* `initramfsInit_ok_iff`: the archives of which no byte is written behind an object.
* `archive_decoded_iff`: these are the archives that the four readers decode.
-/

namespace RaspiKernel.Boot

open Lib

/-! ## The inodes -/

/-- The offset of `name` in an inode. -/
abbrev nameOffset : ℕ := 4

/-- The offset of `childs`. -/
abbrev childsOffset : ℕ := 24

/-- The offset of `data`. -/
abbrev dataOffset : ℕ := 152

/-- The offset of `data_size`. -/
abbrev sizeOffset : ℕ := 160

/-- The slab object that `kmalloc` gives for the 168 bytes of an inode. -/
abbrev inodeObjectSize : ℕ := 256

/-- `FSNODE_TYPE_FILE`. -/
abbrev fsnodeTypeFile : ℕ := 0

/-- `FSNODE_TYPE_DIR`. -/
abbrev fsnodeTypeDir : ℕ := 1

/-- What is written behind a slab object. -/
inductive Overrun
  | name
  | childs
  deriving DecidableEq, Repr

/-- The inode of the root, as `initramfs_create_vnode` leaves it (lines 72–76), with its buffer. -/
def dirInode (buf : ℕ) : Mem :=
  let inode : Mem := fun _ => 0
  store (store inode 0 fsnodeTypeDir 4) dataOffset buf 8

/-- The inode that `initramfs_init` makes (lines 244–250), from the `memset` on. The buffer that
    `initramfs_create_vnode` has put into `data` is lost. -/
def fileInode (file : InitramfsFile) : Except Overrun Mem :=
  if nameOffset + file.name.length ≥ inodeObjectSize then .error .name
  else
    let inode : Mem := fun _ => 0
    let inode := store inode 0 fsnodeTypeFile 4
    let inode := strcpyTo inode nameOffset file.name
    let inode := store inode dataOffset file.data 8
    .ok (store inode sizeOffset (file.dataSize % 2 ^ 64).toNat 8)

/-- What `initramfs_init` stores for the files that are left (lines 244–251): `vnode idx` is the address of
    the vnode that `initramfs_create_vnode` returns. The inode of the directory and those of the files. -/
def storeFiles (vnode : ℕ → ℕ) : Mem → ℕ → List InitramfsFile → Except Overrun (Mem × List Mem)
  | dir, _, [] => .ok (dir, [])
  | dir, idx, file :: files => do
    let inode ← fileInode file
    -- `dir->childs[idx++] = file_vnode`
    if childsOffset + 8 * idx + 8 > inodeObjectSize then .error .childs
    else do
      let (dir, inodes) ←
        storeFiles vnode (store dir (childsOffset + 8 * idx) (vnode idx) 8) (idx + 1) files
      .ok (dir, inode :: inodes)

/-- `initramfs_init` (lines 221–256) of the directory with the inode `dir`. -/
def initramfsInit (fuel : ℕ) (m : Mem) (cpioBase : ℕ) (vnode : ℕ → ℕ) (dir : Mem) :
    Option (Except Overrun (Mem × List Mem)) :=
  (initramfsFiles fuel m cpioBase).map (storeFiles vnode dir 0)

/-! ## What is stored -/

variable {file : InitramfsFile} {files : List InitramfsFile} {inode dir dir' : Mem}
variable {inodes : List Mem} {vnode : ℕ → ℕ} {idx j : ℕ}

theorem inode_layout : nameOffset = 4 ∧ childsOffset = 24 ∧ dataOffset = childsOffset + 8 * 16 ∧
    sizeOffset = childsOffset + 8 * 17 ∧ inodeObjectSize = childsOffset + 8 * 29 := by decide

/-- The address and the size are read back. -/
theorem fileInode_load (h : fileInode file = .ok inode) (hdata : file.data < 2 ^ 64) :
    load inode dataOffset 8 = file.data ∧
      load inode sizeOffset 8 = (file.dataSize % 2 ^ 64).toNat := by
  obtain ⟨-, hchilds, hdataOff, hsize, -⟩ := inode_layout
  rw [fileInode] at h
  split_ifs at h
  cases h
  constructor
  · rw [load_store_of_disjoint (by omega), load_store (by omega)]
  · exact load_store (by omega)

/-- A new directory has no data. -/
theorem dirInode_size (buf : ℕ) : load (dirInode buf) sizeOffset 8 = 0 := by
  unfold dirInode
  rw [load_store_of_disjoint (by decide), load_store_of_disjoint (by decide)]
  rfl

/-- An inode is made of every name that ends in its object. -/
theorem fileInode_ok_iff : (∃ inode, fileInode file = .ok inode) ↔ file.name.length ≤ 251 := by
  obtain ⟨hname, hchilds, -, -, hobject⟩ := inode_layout
  unfold fileInode
  constructor
  · rintro ⟨inode, h⟩
    split_ifs at h with hlen
    omega
  · intro h
    exact ⟨_, if_neg (by omega)⟩

/-- One file more. -/
theorem storeFiles_cons_ok_iff : storeFiles vnode dir idx (file :: files) = .ok (dir', inodes) ↔
    idx < 29 ∧ ∃ inode rest, fileInode file = .ok inode ∧
      storeFiles vnode (store dir (childsOffset + 8 * idx) (vnode idx) 8) (idx + 1) files =
        .ok (dir', rest) ∧ inodes = inode :: rest := by
  obtain ⟨-, -, -, -, hobject⟩ := inode_layout
  rw [storeFiles, bind_eq_ok]
  constructor
  · rintro ⟨inode, hinode, h⟩
    split_ifs at h with hfull
    obtain ⟨⟨dir₁, rest⟩, hrest, h⟩ := bind_eq_ok.mp h
    cases h
    exact ⟨by omega, inode, rest, hinode, hrest, rfl⟩
  · rintro ⟨hlt, inode, rest, hinode, hrest, rfl⟩
    refine ⟨inode, hinode, ?_⟩
    rw [if_neg (by omega), hrest]
    rfl

/-- All inodes are made, and the object of the directory has room for 29 pointers. -/
theorem storeFiles_ok_iff (hidx : idx ≤ 29) :
    (∃ dir', storeFiles vnode dir idx files = .ok (dir', inodes)) ↔
      List.Forall₂ (fun file inode => fileInode file = .ok inode) files inodes ∧
        idx + files.length ≤ 29 := by
  induction files generalizing dir idx inodes with
  | nil =>
    rw [List.forall₂_nil_left_iff]
    constructor
    · rintro ⟨dir', h⟩
      cases h
      exact ⟨rfl, hidx⟩
    · rintro ⟨rfl, -⟩
      exact ⟨dir, rfl⟩
  | cons file files ih =>
    simp only [storeFiles_cons_ok_iff]
    rw [List.forall₂_cons_left_iff, List.length_cons]
    constructor
    · rintro ⟨dir', hlt, inode, rest, hinode, hrest, rfl⟩
      obtain ⟨hall, hle⟩ := (ih hlt).mp ⟨dir', hrest⟩
      exact ⟨⟨inode, rest, hinode, hall, rfl⟩, by omega⟩
    · rintro ⟨⟨inode, rest, hinode, hall, rfl⟩, hle⟩
      have hrest : ∃ dir', storeFiles vnode (store dir (childsOffset + 8 * idx) (vnode idx) 8) (idx + 1)
          files = .ok (dir', rest) := (ih (by omega)).mpr ⟨hall, by omega⟩
      obtain ⟨dir', hrest⟩ := hrest
      exact ⟨dir', by omega, inode, rest, hinode, hrest, rfl⟩

/-- The pointers that the directory has in the end. -/
theorem storeFiles_childs (h : storeFiles vnode dir idx files = .ok (dir', inodes))
    (hvnode : ∀ i, vnode i < 2 ^ 64) : load dir' (childsOffset + 8 * j) 8 =
      if idx ≤ j ∧ j < idx + files.length then vnode j else load dir (childsOffset + 8 * j) 8 := by
  induction files generalizing dir idx inodes with
  | nil =>
    cases h
    rw [if_neg (by simp)]
  | cons file files ih =>
    obtain ⟨-, inode, rest, -, hrest, -⟩ := storeFiles_cons_ok_iff.mp h
    rw [ih hrest, List.length_cons]
    rcases eq_or_ne j idx with rfl | hne
    · rw [if_neg (by omega), if_pos (by omega), load_store (hvnode j)]
    · rw [load_store_of_disjoint (by omega)]
      exact if_congr (by omega) rfl rfl

/-! ## Archives -/

section

variable {m : Mem} {base fuel : ℕ} {entries : List Entry} {trailer : Entry}

theorem map_fst_fileVisits (base : ℕ) (entries : List Entry) :
    (fileVisits base entries).map Prod.fst = entries.filter fun e => e.data ≠ [] := by
  conv_rhs => rw [← map_fst_visits base entries, List.filter_map]
  rfl

theorem length_fileVisits (base : ℕ) (entries : List Entry) :
    (fileVisits base entries).length = (entries.filter fun e => e.data ≠ []).length := by
  rw [← map_fst_fileVisits base, List.length_map]

theorem forall_fileVisits (base : ℕ) (entries : List Entry) {P : Entry → Prop} :
    (∀ x ∈ fileVisits base entries, P x.1) ↔ ∀ e ∈ entries, e.data ≠ [] → P e := by
  have hmap := map_fst_fileVisits base entries
  constructor
  · intro h e he hdata
    have hmem : e ∈ (fileVisits base entries).map Prod.fst := by
      rw [hmap]
      exact List.mem_filter.mpr ⟨he, by simpa using hdata⟩
    obtain ⟨x, hx, rfl⟩ := List.mem_map.mp hmem
    exact h x hx
  · intro h x hx
    have hmem := List.mem_map_of_mem (f := Prod.fst) hx
    rw [hmap] at hmem
    obtain ⟨he, hdata⟩ := List.mem_filter.mp hmem
    exact h x.1 he (by simpa using hdata)

/-- The data of an entry, with its padding, lies within the entries. -/
theorem visits_data (h : ArchiveAt m base entries trailer) :
    ∀ x ∈ visits base entries, base ≤ x.2.data ∧
      x.2.data + (x.1.data.length + 3) / 4 * 4 ≤ base + (entries.flatMap Entry.encode).length := by
  induction entries generalizing base with
  | nil => simp [visits]
  | cons e es ih =>
    obtain ⟨-, -, -, hend, hes⟩ := h.cons
    intro x hx
    rw [List.flatMap_cons, List.length_append]
    rcases List.mem_cons.mp hx with rfl | hx
    · dsimp only
      rw [data_round hend, e.length_encode]
      omega
    · have := ih hes x hx
      omega

/-- The data of an entry are an address and a number of bytes that the code can count. -/
theorem visits_bounds (h : ArchiveAt m base entries trailer) {x : Entry × Round}
    (hx : x ∈ visits base entries) : x.1.data.length < 2 ^ 31 ∧ x.2.data < 2 ^ 64 := by
  obtain ⟨hlow, hhigh⟩ := visits_data h x hx
  have hlt := h.length_lt
  have hend := h.end_lt
  rw [archive, List.length_append] at hlt hend
  omega

/-- The size that is published, as a number. -/
theorem fs_toNat {x : Entry × Round} (hx : Visited m x) (hlen : x.1.data.length < 2 ^ 31) :
    x.2.fs.toNat = (x.1.data.length + 3) / 4 * 4 ∧ (x.2.fs % 2 ^ 64).toNat = x.2.fs.toNat ∧
      x.2.fs.toNat < 2 ^ 32 := by
  rw [hx.fs]
  omega

/-- What `initramfs_init` stores on an archive. -/
theorem initramfsInit_archive (h : ArchiveAt m base entries trailer)
    (hfuel : (archive entries trailer).length ≤ fuel) :
    (∃ dir', initramfsInit fuel m base vnode dir = some (.ok (dir', inodes))) ↔
      List.Forall₂ (fun x inode => fileInode (fileOf x) = .ok inode) (fileVisits base entries) inodes ∧
        (fileVisits base entries).length ≤ 29 := by
  have hstored : (∃ dir', storeFiles vnode dir 0 ((fileVisits base entries).map fileOf) =
      .ok (dir', inodes)) ↔ _ := storeFiles_ok_iff (Nat.zero_le 29)
  rw [List.forall₂_map_left_iff, List.length_map, zero_add] at hstored
  rw [← hstored, initramfsInit, initramfsFiles_archive h hfuel]
  simp

/-- No byte is written behind an object exactly if the directory has room for the pointers and no name
    comes to the end of its inode. -/
theorem initramfsInit_ok_iff (h : ArchiveAt m base entries trailer)
    (hfuel : (archive entries trailer).length ≤ fuel) :
    (∃ dir' inodes, initramfsInit fuel m base vnode dir = some (.ok (dir', inodes))) ↔
      (entries.filter fun e => e.data ≠ []).length ≤ 29 ∧
        ∀ e ∈ entries, e.data ≠ [] → e.name.length ≤ 251 := by
  rw [exists_comm, ← length_fileVisits base, ← forall_fileVisits base]
  simp only [initramfsInit_archive h hfuel]
  constructor
  · rintro ⟨inodes, hall, hle⟩
    refine ⟨hle, fun x hx => ?_⟩
    obtain ⟨inode, -, hinode⟩ := forall₂_mem_left hall hx
    exact fileInode_ok_iff.mp ⟨inode, hinode⟩
  · rintro ⟨hle, hshort⟩
    have hmade : ∀ x ∈ fileVisits base entries, ∃ inode, fileInode (fileOf x) = .ok inode :=
      fun x hx => fileInode_ok_iff.mpr (hshort x hx)
    obtain ⟨inodes, hall⟩ := exists_forall₂ hmade
    exact ⟨inodes, hall, hle⟩

/-- The inodes have the addresses and the sizes that were read. -/
theorem initramfsInit_load (h : ArchiveAt m base entries trailer)
    (hfuel : (archive entries trailer).length ≤ fuel)
    (hinit : initramfsInit fuel m base vnode dir = some (.ok (dir', inodes))) :
    List.Forall₂ (fun x inode => load inode dataOffset 8 = x.2.data ∧
      load inode sizeOffset 8 = x.2.fs.toNat) (fileVisits base entries) inodes := by
  obtain ⟨hall, -⟩ := (initramfsInit_archive h hfuel).mp ⟨dir', hinit⟩
  refine ((List.forall₂_and_left _ _).mpr ⟨fun x hx => hx, hall⟩).imp ?_
  rintro x inode ⟨hx, hinode⟩
  have hx := List.mem_of_mem_filter hx
  obtain ⟨hlen, hdata⟩ := visits_bounds h hx
  obtain ⟨haddr, hsize⟩ := fileInode_load hinode hdata
  exact ⟨haddr, hsize.trans (fs_toNat (visits_visited h x hx) hlen).2.1⟩

/-- The pointers of the directory: `data` is where the 17th of them is stored, and `data_size` where the
    18th is. -/
theorem initramfsInit_childs (h : ArchiveAt m base entries trailer)
    (hfuel : (archive entries trailer).length ≤ fuel)
    (hinit : initramfsInit fuel m base vnode dir = some (.ok (dir', inodes)))
    (hvnode : ∀ i, vnode i < 2 ^ 64) (j : ℕ) : load dir' (childsOffset + 8 * j) 8 =
      if j < (entries.filter fun e => e.data ≠ []).length then vnode j
      else load dir (childsOffset + 8 * j) 8 := by
  rw [initramfsInit, initramfsFiles_archive h hfuel, Option.map_some, Option.some.injEq] at hinit
  rw [storeFiles_childs hinit hvnode, List.length_map, length_fileVisits]
  exact if_congr (by omega) rfl rfl

/-- The loop of the four readers visits the headers of the entries, in order, and stops at the trailer,
    whatever its body does. For each entry the name and the data are where the functions look for them, so
    that each does what it is for: `_initrd_usr_prog` takes the first entry with the given name, and
    `initramfs_init`, wherever its vnodes are, makes an inode of each file with the address of its data. -/
structure Decoded (fuel : ℕ) (m : Mem) (base : ℕ) (entries : List Entry) : Prop where
  loop : ∀ (σ ρ : Type) (body : Round → σ → Option (ρ ⊕ σ)) (s : σ),
    cpioLoop m body fuel base s = walk body ((visits base entries).map Prod.snd) s
  headers : (visits base entries).map Prod.fst = entries
  visited : ∀ x ∈ visits base entries, Visited m x
  ls : initrdLs fuel m base = some ([0x2e] :: entries.map Entry.name)
  list : initrdList fuel m base = some ((visits base entries).map fun x => listLine m x.2 x.1.name)
  usrProg : ∀ cmd, 0 ∉ cmd → initrdUsrProg fuel m base cmd =
    some (((visits base entries).find? fun x => cmd = x.1.name).bind fun x => selectProgram m x.2)
  init : ∀ vnode dir, ∃ dir' inodes, initramfsInit fuel m base vnode dir = some (.ok (dir', inodes)) ∧
    List.Forall₂ (fun x inode => load inode dataOffset 8 = x.2.data ∧
      load inode sizeOffset 8 = x.2.fs.toNat) (fileVisits base entries) inodes

/-- **cpio traversal.** The four readers decode an archive exactly if `initramfs_init` writes nothing behind
    an object: at most 29 entries have data, the pointers for which there is room behind `childs`, and
    their names have at most 251 characters. -/
theorem archive_decoded_iff (h : ArchiveAt m base entries trailer)
    (hfuel : (archive entries trailer).length ≤ fuel) : Decoded fuel m base entries ↔
      (entries.filter fun e => e.data ≠ []).length ≤ 29 ∧
        ∀ e ∈ entries, e.data ≠ [] → e.name.length ≤ 251 := by
  have hlen := length_le_archive entries trailer
  constructor
  · intro hdec
    obtain ⟨dir', inodes, hinit, -⟩ := hdec.init (fun _ => 0) fun _ => 0
    exact (initramfsInit_ok_iff h hfuel).mp ⟨dir', inodes, hinit⟩
  · intro hroom
    refine ⟨fun σ ρ body s => cpioLoop_archive body h (by omega) s, map_fst_visits base entries,
      visits_visited h, initrdLs_archive h hfuel, initrdList_archive h hfuel,
      fun cmd hcmd => initrdUsrProg_archive h hfuel hcmd, fun vnode dir => ?_⟩
    obtain ⟨dir', inodes, hinit⟩ := (initramfsInit_ok_iff h hfuel).mpr hroom
    exact ⟨dir', inodes, hinit, initramfsInit_load h hfuel hinit⟩

end

/-- Of two files with one name the first is taken, with its padding. -/
theorem archive_decoded_small : Decoded 400 (ofBytes (archive smallEntries smallTrailer)) 0 smallEntries ∧
    initrdUsrProg 400 (ofBytes (archive smallEntries smallTrailer)) 0 [0x61] =
      some (some ⟨0, 112, 8, [1, 2, 3, 4, 5, 0, 0, 0]⟩) := by
  have hdec := (archive_decoded_iff archiveAt_small length_archive_small).mpr ⟨by decide, by decide⟩
  refine ⟨hdec, ?_⟩
  rw [hdec.usrProg [0x61] (by decide)]
  decide +kernel

theorem archiveAt_words {n : ℕ} (hlen : (archive (List.replicate n wordEntry) smallTrailer).length < 2 ^ 31) :
    ArchiveAt (ofBytes (archive (List.replicate n wordEntry) smallTrailer)) 0
      (List.replicate n wordEntry) smallTrailer := by
  refine ⟨holds_ofBytes fun i _ => by rw [Nat.zero_add], fun e he => ?_, ⟨rfl, rfl⟩, hlen, by omega⟩
  rw [List.eq_of_mem_replicate he]
  decide

/-- Of 49 files the last pointers are written to the object behind that of the directory, and the very last
    one to where an inode has the address of its data. -/
theorem archive_not_decoded :
    ¬ Decoded 6000 (ofBytes (archive (List.replicate 49 wordEntry) smallTrailer)) 0
      (List.replicate 49 wordEntry) ∧
    childsOffset + 8 * 48 = inodeObjectSize + dataOffset := by
  have hlen : (archive (List.replicate 49 wordEntry) smallTrailer).length ≤ 6000 := by decide +kernel
  refine ⟨fun hdec => ?_, rfl⟩
  obtain ⟨dir', inodes, hinit, -⟩ := hdec.init (fun _ => 0) fun _ => 0
  have hroom := ((initramfsInit_ok_iff (archiveAt_words (by omega)) hlen).mp ⟨dir', inodes, hinit⟩).1
  exact absurd hroom (by decide)

end RaspiKernel.Boot
