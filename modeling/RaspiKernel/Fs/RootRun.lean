import RaspiKernel.Fs.Persist

/-!
# Runs in the root directory

Files are created and written in the root directory of a mounted image, and the
image is mounted again. What the new mount shows depends on the calls only
through where the writes end.

Results:
* `RunInv.step`: what one call keeps.
* `remount_iff`: the new mount gives what was in memory exactly if no file of the
  first mount was written behind its end and every created file was written up to
  byte 512.
* `remount_loses_size`: a created file comes back with another size.
-/

namespace RaspiKernel.Fs

open Lib

variable {limit k fuel rootDir : ℕ} {chain : List ℕ} {boot disk : Disk} {fs₀ fs fs' : Fat32}
  {sizes : List ℕ} {ops : List FsOp} {op : FsOp}

/-! ## Calls -/

/-- A successful call: `fat32_create` returns 1, and `fat32_write` comes back. -/
inductive Succeeds (fuel : ℕ) (fs : Fat32) : FsOp → Fat32 → Prop
  | create {path : List ℕ} {name : List UInt8} {stack : Mem} {fs' : Fat32}
      (h : fs.create fuel path name stack = .ok (1, fs')) :
      Succeeds fuel fs (.create path name stack) fs'
  | write {path : List ℕ} {fPos : ℕ} {bs : List UInt8} {ret : ℤ} {fs' : Fat32}
      (h : fs.write path fPos bs = .ok (ret, fs')) : Succeeds fuel fs (.write path fPos bs) fs'

/-- The calls in the root directory: a name of 8.3 form with a non-empty extension, or a write to a
    file. -/
def FsOp.InRoot (fs : Fat32) : FsOp → Prop
  | .create path name _ => path = [] ∧ ∃ base ext, Name83 name base ext
  | .write path _ _ => ∃ i v, path = [i] ∧ fs.root.childs[i]? = some v ∧ v.inode.type = .file

/-- Before a create, the root directory has a slot with attribute 0, and the first one is not taken by
    a file: `setup_fat32` passes over it. -/
def FsOp.HasSlot (fs : Fat32) : FsOp → Prop
  | .create _ _ _ => ∃ chain c i, FatChain fs.disk fs.info fs.root.inode.cluster chain ∧
      freeSlot fs.disk fs.info chain = some (c, i) ∧ SkipEntry (fs.disk (clusterBlock fs.info c)) i
  | .write _ _ _ => True

/-- The calls that find their place on the disk. -/
structure FsOp.Fits (limit : ℕ) (fs : Fat32) (op : FsOp) : Prop where
  inRoot : op.InRoot fs
  granted : op.Granted limit fs
  safe : op.Safe fs
  hasSlot : op.HasSlot fs

/-- The runs of successful calls with the property `P`, with the calls they have made. -/
inductive RootRun (fuel : ℕ) (P : Fat32 → FsOp → Prop) (fs₀ : Fat32) : List FsOp → Fat32 → Prop
  | start : RootRun fuel P fs₀ [] fs₀
  | step {ops : List FsOp} {fs fs' : Fat32} {op : FsOp} (h : RootRun fuel P fs₀ ops fs)
      (hop : P fs op) (hstep : Succeeds fuel fs op fs') : RootRun fuel P fs₀ (ops ++ [op]) fs'

/-! ## Sizes -/

/-- Some nonempty write to child `i` of the root directory ends at byte `e`. -/
def EndsAt (ops : List FsOp) (i e : ℕ) : Prop :=
  ∃ fPos bs, FsOp.write [i] fPos bs ∈ ops ∧ bs ≠ [] ∧ fPos + bs.length = e

def FsOp.isCreate : FsOp → Bool
  | .create _ _ _ => true
  | .write _ _ _ => false

/-- The number of files that the calls have created. -/
def created (ops : List FsOp) : ℕ := ops.countP FsOp.isCreate

/-- The writes leave the sizes of the directory entries true: no file of the first mount is written
    behind its end, and every created file is written up to byte 512. -/
def SizesKept (fs₀ : Fat32) (ops : List FsOp) : Prop :=
  (∀ i v e, fs₀.root.childs[i]? = some v → EndsAt ops i e → e ≤ v.inode.dataSize) ∧
    ∀ j < created ops, EndsAt ops (fs₀.root.childs.length + j) blockSize

/-- The size that child `i` starts with. -/
def startSize (fs₀ : Fat32) (i : ℕ) : ℕ :=
  match fs₀.root.childs[i]? with
  | some v => v.inode.dataSize
  | none => 0

/-- A size that started with `start` and was raised to the given ends. -/
structure RaisedTo (start : ℕ) (ends : ℕ → Prop) (size : ℕ) : Prop where
  start_le : start ≤ size
  ends_le : ∀ e, ends e → e ≤ size
  eq_or : size = start ∨ ends size

theorem endsAt_snoc {i e : ℕ} : EndsAt (ops ++ [op]) i e ↔ EndsAt ops i e ∨ EndsAt [op] i e := by
  unfold EndsAt
  constructor
  · rintro ⟨fPos, bs, hmem, h⟩
    rcases List.mem_append.mp hmem with hmem | hmem
    · exact Or.inl ⟨fPos, bs, hmem, h⟩
    · exact Or.inr ⟨fPos, bs, hmem, h⟩
  · rintro (⟨fPos, bs, hmem, h⟩ | ⟨fPos, bs, hmem, h⟩)
    · exact ⟨fPos, bs, List.mem_append_left _ hmem, h⟩
    · exact ⟨fPos, bs, List.mem_append_right _ hmem, h⟩

theorem endsAt_write {i j fPos e : ℕ} {bs : List UInt8} :
    EndsAt [.write [j] fPos bs] i e ↔ i = j ∧ bs ≠ [] ∧ fPos + bs.length = e := by
  unfold EndsAt
  constructor
  · rintro ⟨fPos', bs', hmem, hbs, he⟩
    cases List.mem_singleton.mp hmem
    exact ⟨rfl, hbs, he⟩
  · rintro ⟨rfl, hbs, he⟩
    exact ⟨fPos, bs, List.mem_singleton_self _, hbs, he⟩

theorem not_endsAt_create {path : List ℕ} {name : List UInt8} {stack : Mem} {i e : ℕ} :
    ¬ EndsAt [.create path name stack] i e := by
  rintro ⟨fPos, bs, hmem, -⟩
  cases List.mem_singleton.mp hmem

/-- A size does not change without a write. -/
theorem RaisedTo.congr {start size : ℕ} {ends ends' : ℕ → Prop} (h : RaisedTo start ends size)
    (hends : ∀ e, ends' e ↔ ends e) : RaisedTo start ends' size :=
  ⟨h.start_le, fun e he => h.ends_le e ((hends e).mp he), h.eq_or.imp_right (hends size).mpr⟩

/-- A write that ends at byte `e`. -/
theorem RaisedTo.raise {start size e : ℕ} {ends ends' : ℕ → Prop} (h : RaisedTo start ends size)
    (hends : ∀ x, ends' x ↔ ends x ∨ x = e) : RaisedTo start ends' (max size e) := by
  refine ⟨h.start_le.trans (le_max_left _ _), ?_, ?_⟩
  · intro x hx
    rcases (hends x).mp hx with hx | rfl
    · exact (h.ends_le x hx).trans (le_max_left _ _)
    · exact le_max_right _ _
  · rcases le_total size e with hle | hle
    · rw [max_eq_right hle]
      exact Or.inr ((hends e).mpr (Or.inr rfl))
    · rw [max_eq_left hle]
      exact h.eq_or.imp_right fun hsize => (hends size).mpr (Or.inl hsize)

/-- A size is the one it started with exactly if nothing ends behind it. -/
theorem RaisedTo.eq_start_iff {start size : ℕ} {ends : ℕ → Prop} (h : RaisedTo start ends size) :
    size = start ↔ ∀ e, ends e → e ≤ start := by
  constructor
  · rintro rfl
    exact h.ends_le
  · intro hends
    rcases h.eq_or with heq | hsize
    · exact heq
    · exact le_antisymm (hends size hsize) h.start_le

/-- A new file reaches a bound of the writes exactly if one of them does. -/
theorem RaisedTo.eq_bound_iff {size bound : ℕ} {ends : ℕ → Prop} (h : RaisedTo 0 ends size)
    (hbound : 0 < bound) (hends : ∀ e, ends e → e ≤ bound) : size = bound ↔ ends bound := by
  constructor
  · rintro rfl
    exact h.eq_or.resolve_left (by omega)
  · intro hb
    rcases h.eq_or with rfl | hsize
    · exact absurd (h.ends_le bound hb) (by omega)
    · exact le_antisymm (hends size hsize) (h.ends_le bound hb)

/-! ## The invariant of the runs -/

/-- The names of the files of the first mount. -/
def oldNames (fs₀ : Fat32) : List (List UInt8) := fs₀.root.childs.map (·.inode.name)

/-- What the calls `ops` have made of the mounted image `fs₀`. -/
structure RunInv (limit k rootDir : ℕ) (chain : List ℕ) (fs₀ : Fat32) (ops : List FsOp) (fs : Fat32)
    (sizes : List ℕ) : Prop where
  root : RootInv limit k rootDir chain fs₀.disk fs sizes
  sizes_eq : sizes = fs₀.root.childs.map (·.inode.dataSize) ++
    List.replicate (created ops) blockSize
  /-- The files of the first mount are in front, and no created file has the name of one. -/
  name_iff : ∀ i v, fs.root.childs[i]? = some v →
    (v.inode.name ∈ oldNames fs₀ ↔ i < fs₀.root.childs.length)
  old : ∀ name ∈ oldNames fs₀, ∃ v ∈ fs.root.childs, v.inode.name = name
  raised : ∀ i v, fs.root.childs[i]? = some v →
    RaisedTo (startSize fs₀ i) (EndsAt ops i) v.inode.dataSize
  ends : ∀ i e, EndsAt ops i e →
    e ≤ blockSize ∧ ∃ v, fs.root.childs[i]? = some v ∧ v.inode.type = .file
  file : ∀ i v, fs.root.childs[i]? = some v → fs₀.root.childs.length ≤ i → v.inode.type = .file

theorem RunInv.length_eq (hr : RunInv limit k rootDir chain fs₀ ops fs sizes) :
    fs.root.childs.length = fs₀.root.childs.length + created ops := by
  rw [← hr.root.length_eq, hr.sizes_eq, List.length_append, List.length_map, List.length_replicate]

theorem created_write {path : List ℕ} {fPos : ℕ} {bs : List UInt8} :
    created (ops ++ [.write path fPos bs]) = created ops := by
  unfold created
  rw [List.countP_append]
  rfl

theorem created_create {path : List ℕ} {name : List UInt8} {stack : Mem} :
    created (ops ++ [.create path name stack]) = created ops + 1 := by
  unfold created
  rw [List.countP_append]
  rfl

theorem RunInv.mount (hmount : fat32SetupMount (k + 1) disk = .ok fs₀)
    (hwf : WellFormed limit fs₀) :
    ∃ rootDir chain, RunInv limit k rootDir chain fs₀ [] fs₀
      (fs₀.root.childs.map (·.inode.dataSize)) := by
  obtain ⟨rootDir, chain, hroot⟩ := RootInv.mount hmount hwf
  obtain ⟨-, -, rfl, -⟩ := mount_ok hmount
  have hends : ∀ i e, ¬ EndsAt [] i e := by
    rintro i e ⟨fPos, bs, hmem, -⟩
    cases hmem
  refine ⟨rootDir, chain, hroot, ?_, ?_, ?_, ?_, fun i e he => absurd he (hends i e), ?_⟩
  · exact (List.append_nil _).symm
  · intro i v hv
    obtain ⟨hi, -⟩ := List.getElem?_eq_some_iff.mp hv
    have hmem : v.inode.name ∈ oldNames fs₀ := List.mem_map.mpr ⟨v, List.mem_of_getElem? hv, rfl⟩
    exact iff_of_true hmem hi
  · intro name hname
    exact List.mem_map.mp hname
  · intro i v hv
    have hstart : startSize fs₀ i = v.inode.dataSize := by rw [startSize, hv]
    rw [hstart]
    exact ⟨le_rfl, fun e he => absurd he (hends i e), Or.inl rfl⟩
  · intro i v hv hi
    obtain ⟨hlt, -⟩ := List.getElem?_eq_some_iff.mp hv
    omega

/-! ## One call -/

/-- An empty write changes nothing. -/
theorem write_child_nil {i : ℕ} {v : Vnode} {fPos : ℕ} (hv : fs.root.childs[i]? = some v) :
    fs.write [i] fPos [] = .ok (0, fs) := by
  have hget : fs.root.get? [i] = some v := by
    rw [Vnode.get?, hv]
    rfl
  have hset : fs.root.set [i] (.mk v.inode v.childs) = fs.root := by
    obtain ⟨hi, rfl⟩ := List.getElem?_eq_some_iff.mp hv
    rw [Vnode.set, hv]
    dsimp only [Vnode.set]
    rw [Vnode.eta, List.set_getElem_self, Vnode.eta]
  unfold Fat32.write
  rw [hget]
  show Except.ok (_, _) = _
  rw [hset]

/-- A child of a directory in which child `i` was replaced. -/
theorem child_set {l : List Vnode} {i j : ℕ} {v w : Vnode} (h : (l.set i v)[j]? = some w) :
    (j = i ∧ w = v) ∨ (j ≠ i ∧ l[j]? = some w) := by
  by_cases hji : j = i
  · subst hji
    rw [List.getElem?_set_self'] at h
    obtain ⟨-, -, rfl⟩ := Option.map_eq_some_iff.mp h
    exact Or.inl ⟨rfl, rfl⟩
  · rw [List.getElem?_set_ne (Ne.symm hji)] at h
    exact Or.inr ⟨hji, h⟩

theorem RunInv.write (hr : RunInv limit k rootDir chain fs₀ ops fs sizes) {i : ℕ} {v : Vnode}
    {fPos : ℕ} {bs : List UInt8} {ret : ℤ} (hv : fs.root.childs[i]? = some v)
    (htype : v.inode.type = .file) (h0 : v.inode.cluster ≠ 0) (hend : fPos + bs.length ≤ blockSize)
    (h : fs.write [i] fPos bs = .ok (ret, fs')) :
    RunInv limit k rootDir chain fs₀ (ops ++ [.write [i] fPos bs]) fs' sizes := by
  have hsizes : sizes = fs₀.root.childs.map (·.inode.dataSize) ++
      List.replicate (created (ops ++ [.write [i] fPos bs])) blockSize := by
    rw [created_write]
    exact hr.sizes_eq
  obtain ⟨hi, -⟩ := List.getElem?_eq_some_iff.mp hv
  have hends : ∀ j e, EndsAt (ops ++ [.write [i] fPos bs]) j e →
      e ≤ blockSize ∧ ∃ w, fs.root.childs[j]? = some w ∧ w.inode.type = .file := by
    intro j e he
    rcases endsAt_snoc.mp he with he | he
    · exact hr.ends j e he
    · obtain ⟨rfl, -, rfl⟩ := endsAt_write.mp he
      exact ⟨hend, v, hv, htype⟩
  by_cases hbs : bs = []
  · subst hbs
    rw [write_child_nil hv] at h
    obtain ⟨-, rfl⟩ := Prod.mk.inj (Except.ok.inj h)
    refine ⟨hr.root, hsizes, hr.name_iff, hr.old, fun j w hw => ?_, hends, hr.file⟩
    refine (hr.raised j w hw).congr fun e => ?_
    rw [endsAt_snoc, endsAt_write]
    tauto
  · rw [write_child hv hbs hend] at h
    obtain ⟨-, rfl⟩ := Prod.mk.inj (Except.ok.inj h)
    obtain ⟨pre, post, hchilds, hset⟩ := split_child hv
    refine ⟨?_, hsizes, ?_, ?_, ?_, ?_, ?_⟩
    · have hsame : SameFile { v.inode with
          data := copy v.inode.data fPos (ofBytes bs) bs.length
          dataSize := max v.inode.dataSize (fPos + bs.length) } v.inode := ⟨rfl, rfl, rfl, rfl⟩
      rw [hset]
      exact hr.root.write hchilds htype h0 hsame
    · intro j w hw
      rcases child_set hw with ⟨rfl, rfl⟩ | ⟨-, hw⟩
      · exact hr.name_iff j v hv
      · exact hr.name_iff j w hw
    · intro name hname
      obtain ⟨w, hw, rfl⟩ := hr.old name hname
      obtain ⟨j, hj⟩ := List.mem_iff_getElem?.mp hw
      by_cases hji : j = i
      · subst hji
        obtain rfl := Option.some.inj (hv.symm.trans hj)
        exact ⟨_, List.mem_set hi _, rfl⟩
      · have hj' := hj
        rw [← List.getElem?_set_ne (Ne.symm hji)] at hj'
        exact ⟨w, List.mem_of_getElem? hj', rfl⟩
    · intro j w hw
      rcases child_set hw with ⟨rfl, rfl⟩ | ⟨hji, hw⟩
      · refine (hr.raised j v hv).raise fun e => ?_
        rw [endsAt_snoc, endsAt_write]
        tauto
      · refine (hr.raised j w hw).congr fun e => ?_
        rw [endsAt_snoc, endsAt_write]
        tauto
    · intro j e he
      obtain ⟨he, w, hw, hfile⟩ := hends j e he
      refine ⟨he, ?_⟩
      by_cases hji : j = i
      · subst hji
        exact ⟨_, List.getElem?_set_self hi, htype⟩
      · rw [← List.getElem?_set_ne (Ne.symm hji)] at hw
        exact ⟨w, hw, hfile⟩
    · intro j w hw hj
      rcases child_set hw with ⟨rfl, rfl⟩ | ⟨-, hw⟩
      · exact htype
      · exact hr.file j w hw hj

theorem RunInv.create (hr : RunInv limit k rootDir chain fs₀ ops fs sizes)
    {name : List UInt8} {stack : Mem} (hop : FsOp.Fits limit fs (.create [] name stack))
    (h : fs.create fuel [] name stack = .ok (1, fs')) :
    RunInv limit k rootDir chain fs₀ (ops ++ [.create [] name stack]) fs'
      (sizes ++ [blockSize]) := by
  obtain ⟨⟨-, base, ext, hname⟩, hfree, hfirst, chain', c, i, hchain, hslot, hskip⟩ := hop
  rw [hr.root.root_cluster] at hchain
  obtain rfl := hchain.unique hr.root.fatChain
  obtain ⟨hroot, hchilds, hfresh⟩ := hr.root.create hname hfree hfirst hslot hskip h
  have hlen := hr.length_eq
  -- the new file is behind the others
  have hcase : ∀ {j : ℕ} {w : Vnode}, fs'.root.childs[j]? = some w →
      fs.root.childs[j]? = some w ∨ j = fs.root.childs.length ∧
        w = newVnode fs.disk fs.info name := by
    intro j w hw
    rw [hchilds] at hw
    rcases lt_trichotomy j fs.root.childs.length with hj | rfl | hj
    · rw [List.getElem?_append_left hj] at hw
      exact Or.inl hw
    · rw [List.getElem?_concat_length] at hw
      exact Or.inr ⟨rfl, (Option.some.inj hw).symm⟩
    · rw [List.getElem?_eq_none (by rw [List.length_append]; exact hj)] at hw
      cases hw
  have hnoends : ∀ j e, EndsAt (ops ++ [.create [] name stack]) j e ↔ EndsAt ops j e := by
    intro j e
    rw [endsAt_snoc]
    exact or_iff_left not_endsAt_create
  refine ⟨hroot, ?_, ?_, ?_, ?_, ?_, ?_⟩
  · rw [hr.sizes_eq, created_create, List.replicate_succ', List.append_assoc]
  · intro j w hw
    rcases hcase hw with hw | ⟨rfl, rfl⟩
    · exact hr.name_iff j w hw
    · refine iff_of_false ?_ (by omega)
      intro hmem
      obtain ⟨v, hv, heq⟩ := hr.old _ hmem
      exact hfresh v hv heq
  · intro n hn
    obtain ⟨v, hv, heq⟩ := hr.old n hn
    rw [hchilds]
    exact ⟨v, List.mem_append_left _ hv, heq⟩
  · intro j w hw
    rcases hcase hw with hw | ⟨rfl, rfl⟩
    · exact (hr.raised j w hw).congr (hnoends j)
    · have hstart : startSize fs₀ fs.root.childs.length = 0 := by
        rw [startSize, List.getElem?_eq_none (by omega)]
      rw [hstart]
      refine ⟨le_rfl, fun e he => ?_, Or.inl rfl⟩
      obtain ⟨-, v, hv, -⟩ := hr.ends _ e ((hnoends _ e).mp he)
      obtain ⟨hlt, -⟩ := List.getElem?_eq_some_iff.mp hv
      exact absurd hlt (lt_irrefl _)
  · intro j e he
    obtain ⟨he, v, hv, hfile⟩ := hr.ends j e ((hnoends j e).mp he)
    obtain ⟨hlt, -⟩ := List.getElem?_eq_some_iff.mp hv
    refine ⟨he, v, ?_, hfile⟩
    rw [hchilds, List.getElem?_append_left hlt]
    exact hv
  · intro j w hw hj
    rcases hcase hw with hw | ⟨-, rfl⟩
    · exact hr.file j w hw hj
    · rfl

/-- What one call keeps. -/
theorem RunInv.step (hr : RunInv limit k rootDir chain fs₀ ops fs sizes) (hop : op.Fits limit fs)
    (h : Succeeds fuel fs op fs') :
    ∃ sizes', RunInv limit k rootDir chain fs₀ (ops ++ [op]) fs' sizes' := by
  cases h with
  | create h =>
    obtain ⟨rfl, -⟩ := hop.inRoot
    exact ⟨_, hr.create hop h⟩
  | write h =>
    obtain ⟨i, v, rfl, hv, htype⟩ := hop.inRoot
    have h0 : v.inode.cluster ≠ 0 := by
      apply hop.safe
      rw [Vnode.get?, hv]
      rfl
    exact ⟨_, hr.write hv htype h0 hop.granted h⟩

theorem RootRun.inv (hmount : fat32SetupMount (k + 1) disk = .ok fs₀) (hwf : WellFormed limit fs₀)
    (hrun : RootRun fuel (fun fs op => op.Fits limit fs) fs₀ ops fs) :
    ∃ rootDir chain sizes, RunInv limit k rootDir chain fs₀ ops fs sizes := by
  induction hrun with
  | start =>
    obtain ⟨rootDir, chain, hr⟩ := RunInv.mount hmount hwf
    exact ⟨rootDir, chain, _, hr⟩
  | step _ hop hstep ih =>
    obtain ⟨rootDir, chain, sizes, hr⟩ := ih
    obtain ⟨sizes', hr'⟩ := hr.step hop hstep
    exact ⟨rootDir, chain, sizes', hr'⟩

/-! ## The new mount -/

/-- A child comes back as it is in memory if the sizes agree. -/
theorem ChildInv.diskView_eq {info : Fat32Info} {v : Vnode} (h : ChildInv k boot disk info v)
    {size : ℕ} (hsize : v.inode.type = .file → size = v.inode.dataSize) :
    diskView disk info v size = v.view := by
  unfold diskView
  cases htype : v.inode.type with
  | dir => rfl
  | file =>
    rw [hsize htype, ← v.eta, Vnode.view_file htype]
    show View.file v.inode.name v.inode.dataSize _ = _
    congr 1
    rcases h.synced htype with h0 | hsame
    · show bytes _ 0 (min v.inode.dataSize _) = _
      rw [h0]
      rfl
    · apply bytes_congr
      intro j hj
      rw [zero_add]
      exact hsame j (by omega)

/-- A number that a new mount can only make smaller: the size of a file of the first mount, and what
    a created file lacks of 512 bytes. -/
def View.weight (old : List (List UInt8)) : View → ℕ
  | .file name size _ => if name ∈ old then size else blockSize - size
  | .dir _ _ => 0

/-- The size on the disk of a child of the root directory, and what it says of the one in memory. -/
theorem RunInv.size_cases (hr : RunInv limit k rootDir chain fs₀ ops fs sizes) {i size : ℕ}
    {v : Vnode} (hv : fs.root.childs[i]? = some v) (hsize : sizes[i]? = some size) :
    (∃ v₀, fs₀.root.childs[i]? = some v₀ ∧ v.inode.name ∈ oldNames fs₀ ∧
        size = v₀.inode.dataSize ∧ RaisedTo size (EndsAt ops i) v.inode.dataSize) ∨
      ∃ j < created ops, i = fs₀.root.childs.length + j ∧ v.inode.name ∉ oldNames fs₀ ∧
        size = blockSize ∧ RaisedTo 0 (EndsAt ops i) v.inode.dataSize := by
  have hraised := hr.raised i v hv
  have hname := hr.name_iff i v hv
  rw [hr.sizes_eq] at hsize
  rcases lt_or_ge i fs₀.root.childs.length with hi | hi
  · left
    have hv₀ := List.getElem?_eq_getElem hi
    rw [List.getElem?_append_left (by simpa using hi), List.getElem?_map, hv₀] at hsize
    obtain rfl := Option.some.inj hsize
    rw [startSize, hv₀] at hraised
    exact ⟨_, hv₀, hname.mpr hi, rfl, hraised⟩
  · right
    obtain ⟨hlt, -⟩ := List.getElem?_eq_some_iff.mp hv
    have hlen := hr.length_eq
    rw [List.getElem?_append_right (by simpa using hi), List.getElem?_replicate] at hsize
    split at hsize
    · rw [startSize, List.getElem?_eq_none hi] at hraised
      refine ⟨i - fs₀.root.childs.length, by omega, by omega, ?_,
        (Option.some.inj hsize).symm, hraised⟩
      rw [hname]
      omega
    · cases hsize

/-- A created file has at most 512 bytes. -/
theorem RunInv.size_le (hr : RunInv limit k rootDir chain fs₀ ops fs sizes) {i : ℕ} {size : ℕ}
    (h : RaisedTo 0 (EndsAt ops i) size) : size ≤ blockSize := by
  rcases h.eq_or with rfl | hsize
  · exact Nat.zero_le _
  · exact (hr.ends i size hsize).1

theorem RunInv.weight_le (hr : RunInv limit k rootDir chain fs₀ ops fs sizes) {i size : ℕ}
    {v : Vnode} (hv : fs.root.childs[i]? = some v) (hsize : sizes[i]? = some size) :
    (diskView fs.disk fs.info v size).weight (oldNames fs₀) ≤ v.view.weight (oldNames fs₀) ∧
      ((diskView fs.disk fs.info v size).weight (oldNames fs₀) = v.view.weight (oldNames fs₀) →
        v.inode.type = .file → size = v.inode.dataSize) := by
  cases htype : v.inode.type with
  | dir =>
    have hview : diskView fs.disk fs.info v size = v.view := by
      rw [diskView, htype]
    rw [hview]
    exact ⟨le_rfl, fun _ hfile => by cases hfile⟩
  | file =>
    have hdisk : diskView fs.disk fs.info v size = .file v.inode.name size
        (bytes (fs.disk (clusterBlock fs.info v.inode.cluster)) 0 (min size blockSize)) := by
      rw [diskView, htype]
    have hmem : v.view = .file v.inode.name v.inode.dataSize
        (bytes v.inode.data 0 (min v.inode.dataSize blockSize)) := by
      rw [← v.eta, Vnode.view_file htype]
      rfl
    rw [hdisk, hmem, View.weight, View.weight]
    rcases hr.size_cases hv hsize with ⟨v₀, -, hname, -, hraised⟩ | ⟨j, -, -, hname, rfl, hraised⟩
    · rw [if_pos hname, if_pos hname]
      exact ⟨hraised.start_le, fun heq _ => heq⟩
    · have hle := hr.size_le hraised
      rw [if_neg hname, if_neg hname]
      exact ⟨by omega, fun heq _ => by omega⟩

/-- The sizes on the disk are those in memory exactly if the writes have kept them. -/
theorem RunInv.sizes_iff (hr : RunInv limit k rootDir chain fs₀ ops fs sizes) :
    (∀ (i : ℕ) (v : Vnode) (size : ℕ), fs.root.childs[i]? = some v → sizes[i]? = some size →
      v.inode.type = .file → size = v.inode.dataSize) ↔ SizesKept fs₀ ops := by
  have hentry : ∀ {i : ℕ} {v : Vnode}, fs.root.childs[i]? = some v →
      ∃ size, sizes[i]? = some size := by
    intro i v hv
    obtain ⟨hi, -⟩ := List.getElem?_eq_some_iff.mp hv
    rw [← hr.root.length_eq] at hi
    exact ⟨_, List.getElem?_eq_getElem hi⟩
  constructor
  · intro h
    refine ⟨fun i v₀ e hv₀ he => ?_, fun j hj => ?_⟩
    · obtain ⟨-, v, hv, htype⟩ := hr.ends i e he
      obtain ⟨size, hsize⟩ := hentry hv
      have heq := h i v size hv hsize htype
      rcases hr.size_cases hv hsize with ⟨v₁, hv₁, -, rfl, hraised⟩ | ⟨j, -, rfl, -⟩
      · obtain rfl := Option.some.inj (hv₀.symm.trans hv₁)
        exact hraised.eq_start_iff.mp heq.symm e he
      · rw [List.getElem?_eq_none (Nat.le_add_right _ _)] at hv₀
        cases hv₀
    · have hlen := hr.length_eq
      have hv := List.getElem?_eq_getElem (l := fs.root.childs)
        (i := fs₀.root.childs.length + j) (by omega)
      obtain ⟨size, hsize⟩ := hentry hv
      have heq := h _ _ size hv hsize (hr.file _ _ hv (Nat.le_add_right _ _))
      rcases hr.size_cases hv hsize with ⟨v₀, hv₀, -⟩ | ⟨j', -, hj', -, rfl, hraised⟩
      · rw [List.getElem?_eq_none (Nat.le_add_right _ _)] at hv₀
        cases hv₀
      · exact (hraised.eq_bound_iff (by decide) fun e he => (hr.ends _ e he).1).mp heq.symm
  · rintro ⟨hold, hnew⟩ i v size hv hsize -
    rcases hr.size_cases hv hsize with ⟨v₀, hv₀, -, rfl, hraised⟩ | ⟨j, hj, rfl, -, rfl, hraised⟩
    · exact (hraised.eq_start_iff.mpr fun e he => hold i v₀ e hv₀ he).symm
    · exact ((hraised.eq_bound_iff (by decide) fun e he => (hr.ends _ e he).1).mpr (hnew j hj)).symm

/-- Mounting again gives the tree in memory exactly if the writes have kept the sizes. -/
theorem RunInv.remount (hr : RunInv limit k rootDir chain fs₀ ops fs sizes) :
    ∃ fs', fat32SetupMount (k + 1) fs.disk = .ok fs' ∧
      ((fs'.root.childs.map Vnode.view).Perm (fs.root.childs.map Vnode.view) ↔
        SizesKept fs₀ ops) := by
  obtain ⟨fs', hmount, hviews⟩ := hr.root.remount
  refine ⟨fs', hmount, ?_⟩
  -- both sides as one list of children with their sizes on the disk
  have hchilds : fs.root.childs.map Vnode.view =
      (fs.root.childs.zip sizes).map fun p => p.1.view := by
    have hfst := List.map_fst_zip hr.root.length_eq.ge
    calc fs.root.childs.map Vnode.view
        = ((fs.root.childs.zip sizes).map Prod.fst).map Vnode.view := by rw [hfst]
      _ = _ := List.map_map
  have hdisk : List.zipWith (diskView fs.disk fs.info) fs.root.childs sizes =
      (fs.root.childs.zip sizes).map fun p => diskView fs.disk fs.info p.1 p.2 := by
    rw [List.map_zip_eq_zipWith]
    rfl
  rw [hdisk] at hviews
  rw [← hr.sizes_iff, hchilds]
  constructor
  · intro hperm i v size hv hsize htype
    have hmem : (v, size) ∈ fs.root.childs.zip sizes :=
      List.mem_of_getElem? (List.getElem?_zip_eq_some.mpr ⟨hv, hsize⟩)
    have hle : ∀ p ∈ fs.root.childs.zip sizes,
        (diskView fs.disk fs.info p.1 p.2).weight (oldNames fs₀) ≤
          p.1.view.weight (oldNames fs₀) := by
      intro p hp
      obtain ⟨j, hj⟩ := List.mem_iff_getElem?.mp hp
      obtain ⟨hw, hs⟩ := List.getElem?_zip_eq_some.mp hj
      exact (hr.weight_le hw hs).1
    have hsum := ((hviews.symm.trans hperm).map (View.weight (oldNames fs₀))).sum_eq
    rw [List.map_map, List.map_map] at hsum
    have hweight := hr.weight_le hv hsize
    refine hweight.2 (hweight.1.eq_of_not_lt fun hlt => ?_) htype
    exact absurd hsum (List.sum_lt_sum _ _ hle ⟨_, hmem, hlt⟩).ne
  · intro hsizes
    refine hviews.trans (List.Perm.of_eq (List.map_congr_left ?_))
    rintro ⟨v, size⟩ hp
    obtain ⟨i, hi⟩ := List.mem_iff_getElem?.mp hp
    obtain ⟨hv, hsize⟩ := List.getElem?_zip_eq_some.mp hi
    exact (hr.root.childs v (List.mem_of_getElem? hv)).diskView_eq (hsizes i v size hv hsize)

/-- Mount a well-formed image and make any sequence of successful creates and writes in the root
    directory that find their place on the disk. Mounting the disk again gives the names, the sizes
    and the bytes of the tree in memory exactly if the writes have kept the sizes. -/
theorem remount_iff (hmount : fat32SetupMount (k + 1) disk = .ok fs₀) (hwf : WellFormed limit fs₀)
    (hrun : RootRun fuel (fun fs op => op.Fits limit fs) fs₀ ops fs) :
    ∃ fs', fat32SetupMount (k + 1) fs.disk = .ok fs' ∧
      ((fs'.root.childs.map Vnode.view).Perm (fs.root.childs.map Vnode.view) ↔
        SizesKept fs₀ ops) := by
  obtain ⟨rootDir, chain, sizes, hr⟩ := hrun.inv hmount hwf
  exact hr.remount

/-! ## Two runs on a small image -/

/-- Mount the small image with 252 free clusters, and give what the runs depend on. -/
def smallMount : Except Stop (Fat32Info × List ℕ × List (FsnodeType × ℕ)) := do
  let fs ← fat32SetupMount 2 (smallImage (usedBelow 4))
  .ok (fs.info, fs.root.nodes.map (·.cluster),
    fs.root.childs.map fun v => (v.inode.type, v.inode.dataSize))

theorem smallMount_spec {fs : Fat32} (h : fat32SetupMount 2 (smallImage (usedBelow 4)) = .ok fs) :
    fs.disk = smallImage (usedBelow 4) ∧ fs.info = smallInfo ∧
      fs.root.nodes.map (·.cluster) = [2, 3] ∧
      fs.root.childs.map (fun v => (v.inode.type, v.inode.dataSize)) = [(.file, 5)] := by
  have heval : smallMount.toOption = some (smallInfo, [2, 3], [(.file, 5)]) := by decide +kernel
  obtain ⟨-, -, hdisk, -⟩ := mount_ok h
  have hmount : smallMount = .ok (fs.info, fs.root.nodes.map (·.cluster),
      fs.root.childs.map fun v => (v.inode.type, v.inode.dataSize)) := by
    rw [smallMount, h]
    rfl
  rw [hmount] at heval
  obtain ⟨hinfo, hrest⟩ := Prod.mk.inj (Option.some.inj heval)
  obtain ⟨hclusters, hchilds⟩ := Prod.mk.inj hrest
  exact ⟨hdisk, hinfo, hclusters, hchilds⟩

theorem smallMount_wellFormed {fs : Fat32}
    (h : fat32SetupMount 2 (smallImage (usedBelow 4)) = .ok fs) : WellFormed 256 fs := by
  obtain ⟨hdisk, hinfo, hclusters, -⟩ := smallMount_spec h
  have howned : ownedClusters fs.root = [2, 3] := by
    rw [ownedClusters, hclusters]
    rfl
  refine ⟨?_, ?_, ?_⟩
  · rw [hdisk, hinfo, howned]
    exact smallVolume (by decide +kernel) (by decide +kernel)
  · rw [hinfo]
    decide
  · intro n hn _ h0
    have hmem : n.cluster ∈ fs.root.nodes.map (·.cluster) := List.mem_map.mpr ⟨n, hn, rfl⟩
    rw [hclusters, h0] at hmem
    exact absurd hmem (by decide)

/-- The call that creates `B.TXT`. -/
def createB : FsOp := .create [] nameB fun _ => 0

theorem createB_fits {fs : Fat32} (h : fat32SetupMount 2 (smallImage (usedBelow 4)) = .ok fs) :
    createB.Fits 256 fs := by
  obtain ⟨hdisk, hinfo, hclusters, -⟩ := smallMount_spec h
  refine ⟨⟨rfl, [0x42], [0x54, 0x58, 0x54], ?_⟩, ?_, ?_, ?_⟩
  · have hbase : ∀ c ∈ [(0x42 : UInt8)], NameChar c := by simp [NameChar]
    have hext : ∀ c ∈ [(0x54 : UInt8), 0x58, 0x54], NameChar c := by simp [NameChar]
    exact ⟨rfl, by decide, by decide, hbase, by decide, by decide, hext⟩
  · refine ⟨4, by unfold InVolume; omega, ?_⟩
    rw [hdisk, hinfo]
    decide +kernel
  · refine ⟨4, by decide, ?_⟩
    rw [hdisk, hinfo]
    decide +kernel
  · -- the root directory has cluster 2, of which the first slot has `A.TXT`
    have hroot : fs.root.inode.cluster = 2 := by
      rw [fs.root.nodes_eq, List.map_cons] at hclusters
      exact (List.cons.inj hclusters).1
    show ∃ chain c i, _ ∧ _ ∧ _
    rw [hdisk, hinfo, hroot]
    exact ⟨[2], 2, 1, .link (by decide) (.stop (by decide +kernel)), by decide +kernel,
      by decide +kernel⟩

/-- Mount, create `B.TXT` and mount again, with the sizes before and behind the second mount. -/
def createSizes : Except Stop (ℕ × List ℕ × List ℕ) := do
  let fs₀ ← fat32SetupMount 2 (smallImage (usedBelow 4))
  let (ret, fs) ← fs₀.create 2 [] nameB fun _ => 0
  let fs' ← fat32SetupMount 2 fs.disk
  .ok (ret, fs.root.childs.map (·.inode.dataSize), fs'.root.childs.map (·.inode.dataSize))

/-- A file that was created and not written is empty in memory, and has 512 bytes when the image is
    mounted again. -/
theorem remount_loses_size :
    ∃ fs₀ fs fs', fat32SetupMount 2 (smallImage (usedBelow 4)) = .ok fs₀ ∧ WellFormed 256 fs₀ ∧
      RootRun 2 (fun fs op => op.Fits 256 fs) fs₀ [createB] fs ∧
      fat32SetupMount 2 fs.disk = .ok fs' ∧
      fs.root.childs.map (·.inode.dataSize) = [5, 0] ∧
      fs'.root.childs.map (·.inode.dataSize) = [5, 512] ∧
      ¬ (fs'.root.childs.map Vnode.view).Perm (fs.root.childs.map Vnode.view) := by
  have heval : createSizes = .ok (1, [5, 0], [5, 512]) := by
    have hopt : createSizes.toOption = some (1, [5, 0], [5, 512]) := by decide +kernel
    cases h : createSizes with
    | error e => rw [h] at hopt; cases hopt
    | ok r => rw [h] at hopt; rw [Option.some.inj hopt]
  obtain ⟨fs₀, hmount, hrest⟩ := bind_eq_ok.mp heval
  obtain ⟨⟨ret, fs⟩, hcreate, hrest⟩ := bind_eq_ok.mp hrest
  obtain ⟨fs', hremount, hok⟩ := bind_eq_ok.mp hrest
  obtain ⟨rfl, hsizes⟩ := Prod.mk.inj (Except.ok.inj hok)
  obtain ⟨hsizes, hsizes'⟩ := Prod.mk.inj hsizes
  have hwf := smallMount_wellFormed hmount
  have hrun : RootRun 2 (fun fs op => op.Fits 256 fs) fs₀ [createB] fs :=
    .step .start (createB_fits hmount) (.create hcreate)
  refine ⟨fs₀, fs, fs', hmount, hwf, hrun, hremount, hsizes, hsizes', ?_⟩
  obtain ⟨rootDir, chain, sizes, hr⟩ := hrun.inv hmount hwf
  obtain ⟨fs'', hremount', hiff⟩ := hr.remount
  obtain rfl := Except.ok.inj (hremount.symm.trans hremount')
  -- nothing was written
  rw [hiff]
  rintro ⟨-, hnew⟩
  exact not_endsAt_create (hnew 0 Nat.one_pos)

/-- Writing one byte to `A.TXT`, of five bytes. -/
theorem remount_iff_write :
    ∃ fs₀ fs fs', fat32SetupMount 2 (smallImage (usedBelow 4)) = .ok fs₀ ∧
      RootRun 2 (fun fs op => op.Fits 256 fs) fs₀ [.write [0] 0 [7]] fs ∧
      fat32SetupMount 2 fs.disk = .ok fs' ∧
      (fs'.root.childs.map Vnode.view).Perm (fs.root.childs.map Vnode.view) := by
  obtain ⟨fs₀, hmount⟩ : ∃ fs₀, fat32SetupMount 2 (smallImage (usedBelow 4)) = .ok fs₀ := by
    have hopt : (fat32SetupMount 2 (smallImage (usedBelow 4))).toOption.isSome := by decide +kernel
    cases h : fat32SetupMount 2 (smallImage (usedBelow 4)) with
    | error e => rw [h] at hopt; cases hopt
    | ok fs => exact ⟨fs, rfl⟩
  obtain ⟨-, -, hclusters, hchilds⟩ := smallMount_spec hmount
  obtain ⟨v, hv, hvtype⟩ := List.map_eq_singleton_iff.mp hchilds
  obtain ⟨htype, hsize⟩ := Prod.mk.inj hvtype
  have hget : fs₀.root.childs[0]? = some v := by
    rw [hv]
    rfl
  have hcluster : ∀ w, fs₀.root.get? [0] = some w → w.inode.cluster ≠ 0 := by
    intro w hw h0
    have hmem := List.mem_map.mpr ⟨w.inode, Vnode.inode_mem_of_get? hw, h0⟩
    rw [hclusters] at hmem
    exact absurd hmem (by decide)
  have hend : 0 + [(7 : UInt8)].length ≤ blockSize := by decide
  have hfits : FsOp.Fits 256 fs₀ (.write [0] 0 [7]) :=
    ⟨⟨0, v, rfl, hget, htype⟩, hend, hcluster, trivial⟩
  have hrun : RootRun 2 (fun fs op => op.Fits 256 fs) fs₀ [.write [0] 0 [7]] _ :=
    .step .start hfits (.write (write_child hget (by decide) hend))
  obtain ⟨fs', hremount, hiff⟩ := remount_iff hmount (smallMount_wellFormed hmount) hrun
  refine ⟨fs₀, _, fs', hmount, hrun, hremount, hiff.mpr ⟨?_, ?_⟩⟩
  · intro i w e hw he
    obtain ⟨rfl, -, rfl⟩ := endsAt_write.mp he
    obtain rfl := Option.some.inj (hget.symm.trans hw)
    rw [hsize]
    decide
  · intro j hj
    cases hj

end RaspiKernel.Fs
