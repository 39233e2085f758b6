import RaspiKernel.Boot.Initrd
import RaspiKernel.Fs.Mount
import RaspiKernel.Fs.ReadClip
import RaspiKernel.Vfs.InodeName

/-!
# The files of the initial ramdisk

What `initramfs_lookup` and `initramfs_read` show of the inodes that `initramfs_init`
has made. A name is copied before `data` and `data_size`, which lie behind it in the
inode, are set.

Results:
* `fileInode_shown`: the name that an inode shows.
* `initramfsReadAll_eq`: what a sequence of reads returns.
* `exposes_iff`: the archives of which every file is shown as it is.
-/

namespace RaspiKernel.Fs

open Lib
open Boot (Entry Round InitramfsFile ArchiveAt archive visits fileVisits fileOf fileInode initramfsInit
  nameOffset dataOffset sizeOffset inode_layout fileInode_load wordEntry)
open Vfs (Str)

/-! ## The model -/

/-- `initramfs_lookup` (`initramfs.c`, lines 137–157): the index of the child that it finds. -/
def initramfsLookup (childs : List Mem) (name : Str) : Option ℕ :=
  (childs.take maxDirNum).findIdx? fun inode => Boot.strcmp inode name nameOffset = 0

/-- Calls of `initramfs_read` with the given lengths, one after the other, from `f_pos` on: the bytes that
    they return. -/
def initramfsReadAll (data : Mem) (dataSize : ℕ) : ℕ → List ℕ → List UInt8
  | _, [] => []
  | fPos, len :: lens =>
    let (fPos, out) := readRaw data dataSize fPos len
    out.bytes ++ initramfsReadAll data dataSize fPos lens

/-- The number that is stored in `w` bytes. -/
def leBytes (w v : ℕ) : List UInt8 := (List.range w).map fun i => UInt8.ofNat (v / 256 ^ i)

/-- The name that an inode shows. Of a name of 148 characters or more, those from the 149th on are
    overwritten with the address of the data and their size. -/
def shownName (name : Str) (data size : ℕ) : Str :=
  if name.length < 148 then name
  else name.take 148 ++ (leBytes 8 data ++ leBytes 8 size).takeWhile (· ≠ 0)

/-! ## The inode -/

variable {m : Mem} {a : ℕ} {s t : List UInt8}

/-- The string at the start of bytes with a NUL among them. -/
theorem holdsStr_takeWhile (h : Holds m a s) (h0 : 0 ∈ s) : HoldsStr m a (s.takeWhile (· ≠ 0)) := by
  induction s generalizing a with
  | nil => cases h0
  | cons c s ih =>
    by_cases hc : c = 0
    · rw [List.takeWhile_cons_of_neg (by simpa using hc), holdsStr_nil]
      exact h.1.trans hc
    · rw [List.takeWhile_cons_of_pos (by simpa using hc), holdsStr_cons]
      refine ⟨h.1, hc, ih h.2 ?_⟩
      exact (List.mem_cons.mp h0).resolve_left fun h => hc h.symm

theorem holdsStr_append (hs : Holds m a s) (h0 : 0 ∉ s) (ht : HoldsStr m (a + s.length) t) :
    HoldsStr m a (s ++ t) := by
  refine ⟨?_, fun h => (List.mem_append.mp h).elim h0 ht.2⟩
  rw [List.append_assoc]
  exact holds_append.mpr ⟨hs, ht.1⟩

/-- Memory holds one string at an address. -/
theorem holdsStr_unique (hs : HoldsStr m a s) (ht : HoldsStr m a t) : s = t := by
  have hs' := Boot.readStr_spec hs (show s.length < s.length + t.length + 1 by omega)
  have ht' := Boot.readStr_spec ht (show t.length < s.length + t.length + 1 by omega)
  exact Option.some.inj (hs'.symm.trans ht')

theorem length_leBytes (w v : ℕ) : (leBytes w v).length = w := by simp [leBytes]

/-- Where the number is stored. -/
theorem holds_store (m : Mem) (a v w : ℕ) : Holds (store m a v w) a (leBytes w v) := by
  rw [holds_iff]
  intro i hi
  rw [length_leBytes] at hi
  simp only [leBytes, List.get_eq_getElem, List.getElem_map, List.getElem_range, store]
  rw [if_pos (by omega), Nat.add_sub_cancel_left]

theorem Holds.congr {m' : Mem} (h : Holds m a s) (hm : ∀ i < s.length, m' (a + i) = m (a + i)) :
    Holds m' a s := by
  rw [holds_iff] at *
  intro i hi
  rw [hm i hi, h i hi]

variable {file : InitramfsFile} {inode : Mem}

/-- A size of 32 bits has a NUL in its bytes. -/
theorem zero_mem_leBytes {size : ℕ} (h : size < 2 ^ 32) : 0 ∈ leBytes 8 size := by
  refine List.mem_map.mpr ⟨4, by decide, ?_⟩
  rw [Nat.div_eq_of_lt (by omega)]
  rfl

/-- What an inode has behind `strcpy`, and what is stored later. -/
theorem fileInode_bytes (h : fileInode file = .ok inode) :
    (∀ i < 148, inode (nameOffset + i) = (file.name ++ [0]).getD i 0) ∧
      Holds inode dataOffset (leBytes 8 file.data ++ leBytes 8 (file.dataSize % 2 ^ 64).toNat) := by
  obtain ⟨hname, hchilds, hdata, hsize, hinode⟩ := inode_layout
  rw [fileInode] at h
  split_ifs at h
  cases h
  constructor
  · intro i hi
    rw [store_of_not_mem (by omega), store_of_not_mem (by omega)]
    rcases le_or_gt i file.name.length with hle | hgt
    · exact Boot.strcpyTo_add hle
    · rw [Boot.strcpyTo_of_gt (by omega), store_of_not_mem (by omega), List.getD_eq_default]
      rw [List.length_append, List.length_singleton]
      omega
  · refine holds_append.mpr ⟨?_, ?_⟩
    · refine Holds.congr (holds_store _ _ _ _) fun i hi => store_of_not_mem ?_
      rw [length_leBytes] at hi
      omega
    · rw [length_leBytes]
      exact holds_store _ _ _ _

/-- The name that an inode shows. -/
theorem fileInode_shown (h : fileInode file = .ok inode) (hnul : 0 ∉ file.name)
    (hsize : (file.dataSize % 2 ^ 64).toNat < 2 ^ 32) :
    HoldsStr inode nameOffset
      (shownName file.name file.data (file.dataSize % 2 ^ 64).toNat) := by
  obtain ⟨hname, hrest⟩ := fileInode_bytes h
  unfold shownName
  split_ifs with hlen
  · refine ⟨holds_ofBytes fun i hi => ?_, hnul⟩
    rw [List.length_append, List.length_singleton] at hi
    exact hname i (by omega)
  · have htake : (file.name.take 148).length = 148 := List.length_take_of_le (by omega)
    refine holdsStr_append (holds_ofBytes fun i hi => ?_) (fun h0 => hnul (List.mem_of_mem_take h0)) ?_
    · rw [htake] at hi
      rw [hname i hi, ofBytes, List.getD_eq_getElem?_getD, List.getD_eq_getElem?_getD,
        List.getElem?_take_of_lt hi, List.getElem?_append_left (by omega)]
    · rw [htake]
      exact holdsStr_takeWhile hrest (List.mem_append_right _ (zero_mem_leBytes hsize))

/-! ## Reading to the end -/

/-- Whatever the lengths of the reads, they return the bytes from the position on, up to the end of the
    file. -/
theorem initramfsReadAll_eq (data : Mem) {dataSize fPos : ℕ} {lens : List ℕ} (hpos : fPos ≤ dataSize)
    (hsize : dataSize < 2 ^ 63) (hlens : ∀ len ∈ lens, len < 2 ^ 63) :
    initramfsReadAll data dataSize fPos lens = bytes data fPos (min lens.sum (dataSize - fPos)) := by
  induction lens generalizing fPos with
  | nil =>
    rw [List.sum_nil, Nat.zero_min]
    rfl
  | cons len lens ih =>
    have hlen := hlens len List.mem_cons_self
    have hclip : clipLen dataSize fPos len = restOf dataSize fPos len :=
      (clipLen_eq_iff (by omega) (by omega) (by omega)).mpr ⟨hpos, by omega⟩
    rw [restOf, if_pos hpos] at hclip
    rw [initramfsReadAll, readRaw, hclip, Nat.mod_eq_of_lt (by omega)]
    dsimp only
    rw [ih (by omega) fun l hl => hlens l (List.mem_cons_of_mem _ hl), bytes_append, List.sum_cons]
    congr 1
    omega

/-! ## What is shown -/

/-- The inode shows the entry: its name, the size in the archive, and its bytes to whoever reads the file
    to the end. No read goes on to the last positions of 64 bits. -/
structure Shows (m : Mem) (e : Entry) (inode : Mem) : Prop where
  name : HoldsStr inode nameOffset e.name
  size : load inode sizeOffset 8 = e.data.length
  read : ∀ lens : List ℕ, (∀ len ∈ lens, len < 2 ^ 63) → e.data.length ≤ lens.sum →
    initramfsReadAll (fun i => m (load inode dataOffset 8 + i)) (load inode sizeOffset 8) 0 lens = e.data

/-- After `initramfs_init`, wherever its vnodes are, the children of the root show the entries that have
    data, each one. -/
def Exposes (fuel : ℕ) (m : Mem) (base : ℕ) (entries : List Entry) : Prop :=
  ∀ vnode dir, ∃ dir' inodes, initramfsInit fuel m base vnode dir = some (.ok (dir', inodes)) ∧
    List.Forall₂ (Shows m) (entries.filter fun e => e.data ≠ []) inodes

/-- The data fill words, and the name is not overwritten. -/
def AsArchived (x : Entry × Round) : Prop :=
  4 ∣ x.1.data.length ∧ shownName x.1.name x.2.data x.2.fs.toNat = x.1.name

/-- A name that is kept ends within its inode. -/
theorem length_of_shown {name : Str} {data size : ℕ} (hsize : size < 2 ^ 32)
    (h : shownName name data size = name) : name.length < 164 := by
  unfold shownName at h
  split_ifs at h with hlen
  · omega
  · have hzero : (0 : UInt8) ∈ leBytes 8 data ++ leBytes 8 size :=
      List.mem_append_right _ (zero_mem_leBytes hsize)
    have hlt : ((leBytes 8 data ++ leBytes 8 size).takeWhile (· ≠ 0)).length <
        (leBytes 8 data ++ leBytes 8 size).length := by
      refine lt_of_le_of_ne (List.takeWhile_prefix _).length_le fun heq => ?_
      have hall := (List.takeWhile_prefix (p := (· ≠ (0 : UInt8)))).eq_of_length heq
      have h0 := List.mem_takeWhile_imp (hall.symm ▸ hzero)
      exact absurd h0 (by decide)
    have htotal := congrArg List.length h
    rw [List.length_append, List.length_take] at htotal
    rw [List.length_append, length_leBytes, length_leBytes] at hlt
    omega

section

variable {base fuel : ℕ} {entries : List Entry} {trailer : Entry} {x : Entry × Round}

/-- The inode of an entry shows it exactly if the data fill words and the name is kept. -/
theorem shows_iff (hx : Boot.Visited m x) (hlen : x.1.data.length < 2 ^ 31) (hdata : x.2.data < 2 ^ 64) :
    (∃ inode, fileInode (fileOf x) = .ok inode ∧ Shows m x.1 inode) ↔ AsArchived x := by
  obtain ⟨hfs, hmod, hlt⟩ := Boot.fs_toNat hx hlen
  have hsize : ((fileOf x).dataSize % 2 ^ 64).toNat = x.2.fs.toNat := hmod
  constructor
  · rintro ⟨inode, hinode, hshows⟩
    have hname := fileInode_shown hinode x.1.nul_free (by omega)
    obtain ⟨-, hload⟩ := fileInode_load hinode hdata
    rw [hsize] at hname hload
    refine ⟨?_, holdsStr_unique hname hshows.name⟩
    have := hshows.size
    omega
  · rintro ⟨hdvd, hshown⟩
    have hshort : (fileOf x).name.length < 164 := length_of_shown hlt hshown
    obtain ⟨inode, hinode⟩ := Boot.fileInode_ok_iff.mpr (show (fileOf x).name.length ≤ 251 by omega)
    have hname := fileInode_shown hinode x.1.nul_free (by omega)
    obtain ⟨haddr, hload⟩ := fileInode_load hinode hdata
    rw [hsize] at hname hload
    have hpub : load inode sizeOffset 8 = x.1.data.length := by omega
    refine ⟨inode, hinode, hshown ▸ hname, hpub, fun lens hlens hsum => ?_⟩
    rw [hpub, haddr, initramfsReadAll_eq _ (Nat.zero_le _) (by omega) hlens, Nat.sub_zero,
      Nat.min_eq_right hsum]
    refine bytes_eq rfl fun i hi => ?_
    rw [zero_add]
    show m (x.2.data + i) = _
    rw [holds_iff.mp hx.data i hi]
    simp [ofBytes, hi]

/-- Every file of an archive with at most `MAX_DIR_NUM` of them is shown as it is exactly if the data of each
    have a multiple of four bytes and no name is overwritten, as none of 147 characters or less is. -/
theorem exposes_iff (h : ArchiveAt m base entries trailer)
    (hfuel : (archive entries trailer).length ≤ fuel)
    (hcount : (entries.filter fun e => e.data ≠ []).length ≤ maxDirNum) :
    Exposes fuel m base entries ↔ ∀ x ∈ visits base entries, x.1.data ≠ [] → AsArchived x := by
  have hfiles : (∀ x ∈ visits base entries, x.1.data ≠ [] → AsArchived x) ↔
      ∀ x ∈ fileVisits base entries, AsArchived x := by
    simp [fileVisits, and_imp]
  rw [hfiles]
  unfold Exposes
  simp only [← Boot.map_fst_fileVisits base, List.forall₂_map_left_iff]
  constructor
  · intro hshown x hx
    obtain ⟨dir', inodes, hinit, hshows⟩ := hshown (fun _ => 0) fun _ => 0
    obtain ⟨hinodes, -⟩ := (Boot.initramfsInit_archive h hfuel).mp ⟨dir', hinit⟩
    obtain ⟨inode, -, hinode⟩ := forall₂_mem_left (forall₂_and_iff.mp ⟨hinodes, hshows⟩) hx
    have hx := List.mem_of_mem_filter hx
    obtain ⟨hlen, hdata⟩ := Boot.visits_bounds h hx
    exact (shows_iff (Boot.visits_visited h x hx) hlen hdata).mp ⟨inode, hinode⟩
  · intro hkept vnode dir
    have hmade : ∀ x ∈ fileVisits base entries,
        ∃ inode, fileInode (fileOf x) = .ok inode ∧ Shows m x.1 inode := by
      intro x hx
      have hkept := hkept x hx
      have hx := List.mem_of_mem_filter hx
      obtain ⟨hlen, hdata⟩ := Boot.visits_bounds h hx
      exact (shows_iff (Boot.visits_visited h x hx) hlen hdata).mpr hkept
    obtain ⟨inodes, hinodes⟩ := exists_forall₂ hmade
    obtain ⟨hall, hshows⟩ := forall₂_and_iff.mpr hinodes
    have hcap : maxDirNum ≤ 29 := by decide
    rw [← Boot.length_fileVisits base] at hcount
    obtain ⟨dir', hinit⟩ := (Boot.initramfsInit_archive h hfuel).mpr ⟨hall, hcount.trans hcap⟩
    exact ⟨dir', inodes, hinit, hshows⟩

end

/-- A file of one word is shown as it is. -/
theorem exposes_word : Exposes 400 (ofBytes (archive [wordEntry] Boot.smallTrailer)) 0 [wordEntry] := by
  have hat : ArchiveAt (ofBytes (archive [wordEntry] Boot.smallTrailer)) 0 [wordEntry]
      Boot.smallTrailer :=
    ⟨holds_ofBytes fun i _ => by rw [Nat.zero_add], by decide, ⟨rfl, rfl⟩, by decide +kernel,
      by decide +kernel⟩
  have hfuel : (archive [wordEntry] Boot.smallTrailer).length ≤ 400 := by decide +kernel
  refine (exposes_iff hat hfuel (by decide)).mpr fun x hx _ => ?_
  rw [List.mem_singleton.mp hx]
  exact ⟨⟨1, rfl⟩, rfl⟩

/-- The files of five bytes and of one byte are shown with eight and four. -/
theorem exposes_padding : ¬ Exposes 400 (ofBytes (archive Boot.smallEntries Boot.smallTrailer)) 0
    Boot.smallEntries := by
  intro hshown
  obtain ⟨dir', inodes, hinit, hshows⟩ := hshown (fun _ => 0) fun _ => 0
  have hsizes : (initramfsInit 400 (ofBytes (archive Boot.smallEntries Boot.smallTrailer)) 0 (fun _ => 0)
      fun _ => 0).map (fun r => r.toOption.map fun r => r.2.map (load · sizeOffset 8)) =
      some (some [8, 4]) := by decide +kernel
  rw [hinit] at hsizes
  have hmap : inodes.map (load · sizeOffset 8) = [8, 4] :=
    Option.some.inj (Option.some.inj hsizes)
  obtain ⟨inode, rest, hshow, -, rfl⟩ := List.forall₂_cons_left_iff.mp hshows
  have hpadded : load inode sizeOffset 8 = 8 := (List.cons.inj hmap).1
  exact absurd (hpadded.symm.trans hshow.size) (by decide)

end RaspiKernel.Fs
