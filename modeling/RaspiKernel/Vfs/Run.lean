import RaspiKernel.Lib.Run
import RaspiKernel.Vfs.Inv

/-!
# Runs of the virtual file system

One call adds an entry to a directory, mounts a new instance, or leaves the
vnodes in use as they are. Each keeps the graph well formed, so that this holds
in every state that a sequence of calls after `rootfs_init` leads to.

Results:
* `step_cases`: what one call does to the graph.
* `vfsMount_cases`: what `vfs_mount` does to the graph.
* `wf_step`, `wf_reachable`: every reachable state is well formed.
-/

namespace RaspiKernel.Vfs

open Lib
open Fs (FsnodeType)

variable {σ σ' : State} {d i v : ℕ} {n : Str}

/-! ## One call -/

/-- A directory of a file system that creates entries. -/
def Writable (σ : State) (d : ℕ) : Prop := (σ.node d).type = .dir ∧ (σ.node d).fs ≠ .initramfs

/-- The call adds an entry with name `n` to directory `d`, if an index is free. -/
def Adds (σ : State) (d : ℕ) (n : Str) : Op → Prop
  | .mkdir path => vfsLookup σ (dirName path.str) = some d ∧ n = baseName path.str ∧ Writable σ d
  | .openFile path flags => vfsLookup σ path.str = none ∧ flags &&& oCreat ≠ 0 ∧
      vfsLookup σ (dirName path.str) = some d ∧ n = baseName path.str ∧ Writable σ d ∧
      lookup σ d n = none
  | .mount _ _ _ => False

theorem mkdirIn_cases {maxLen : ℕ} {ret : ℤ} (h : mkdirIn maxLen σ d n = .ok (ret, σ')) :
    σ' = σ ∨ ((σ.node d).type = .dir ∧ ∃ i, freeIdx σ d = some i ∧ σ' = σ.withChild d i .dir n) := by
  unfold mkdirIn at h
  split at h
  · cases h
    exact .inl rfl
  · next htype =>
    split at h
    · cases h
      exact .inl rfl
    · next i hi =>
      split at h
      · cases h
        exact .inl rfl
      · obtain ⟨⟨v, σ₁⟩, hadd, hret⟩ := bind_eq_ok.mp h
        cases hret
        unfold addChild at hadd
        split at hadd
        · cases hadd
        · cases hadd
          exact .inr ⟨not_not.mp htype, i, hi, rfl⟩

theorem createIn_cases {maxLen : ℕ} {ret : ℤ} {target : Option ℕ}
    (h : createIn maxLen σ d n = .ok (ret, target, σ')) :
    (σ' = σ ∧ target = none) ∨ ((σ.node d).type = .dir ∧ lookup σ d n = none ∧
      ∃ i, freeIdx σ d = some i ∧ σ' = σ.withChild d i .file n ∧ target = some σ.next) := by
  unfold createIn at h
  split at h
  · cases h
    exact .inl ⟨rfl, rfl⟩
  · next htype =>
    split at h
    · cases h
      exact .inl ⟨rfl, rfl⟩
    · next hnew =>
      split at h
      · cases h
        exact .inl ⟨rfl, rfl⟩
      · next i hi =>
        split at h
        · cases h
          exact .inl ⟨rfl, rfl⟩
        · obtain ⟨⟨v, σ₁⟩, hadd, hret⟩ := bind_eq_ok.mp h
          cases hret
          unfold addChild at hadd
          split at hadd
          · cases hadd
          · cases hadd
            exact .inr ⟨not_not.mp htype, by simpa using hnew, i, hi, rfl, rfl⟩

theorem mkdir_cases {ret : ℤ} (h : mkdir σ d n = .ok (ret, σ')) :
    σ' = σ ∨ (Writable σ d ∧ ∃ i, freeIdx σ d = some i ∧ σ' = σ.withChild d i .dir n) := by
  unfold mkdir at h
  cases hfs : (σ.node d).fs with
  | tmpfs =>
    rw [hfs] at h
    rcases mkdirIn_cases h with rfl | ⟨htype, hi⟩
    · exact .inl rfl
    · exact .inr ⟨⟨htype, by simp [hfs]⟩, hi⟩
  | initramfs =>
    rw [hfs] at h
    cases h
    exact .inl rfl
  | fat32 =>
    rw [hfs] at h
    rcases mkdirIn_cases h with rfl | ⟨htype, hi⟩
    · exact .inl rfl
    · exact .inr ⟨⟨htype, by simp [hfs]⟩, hi⟩

theorem create_cases {ret : ℤ} {target : Option ℕ} (h : create σ d n = .ok (ret, target, σ')) :
    (σ' = σ ∧ target = none) ∨ (Writable σ d ∧ lookup σ d n = none ∧
      ∃ i, freeIdx σ d = some i ∧ σ' = σ.withChild d i .file n ∧ target = some σ.next) := by
  unfold create at h
  cases hfs : (σ.node d).fs with
  | tmpfs =>
    rw [hfs] at h
    rcases createIn_cases h with hsame | ⟨htype, hi⟩
    · exact .inl hsame
    · exact .inr ⟨⟨htype, by simp [hfs]⟩, hi⟩
  | initramfs =>
    rw [hfs] at h
    cases h
    exact .inl ⟨rfl, rfl⟩
  | fat32 =>
    rw [hfs] at h
    rcases createIn_cases h with hsame | ⟨htype, hi⟩
    · exact .inl hsame
    · exact .inr ⟨⟨htype, by simp [hfs]⟩, hi⟩

theorem vfsMkdir_cases {path : Path} {ret : ℕ} (h : vfsMkdir σ path.str = .ok (ret, σ')) :
    σ' = σ ∨ ∃ d n i, Adds σ d n (.mkdir path) ∧ freeIdx σ d = some i ∧
      σ' = σ.withChild d i .dir n := by
  unfold vfsMkdir at h
  split at h
  · cases h
  · split at h
    · next d hd =>
      obtain ⟨⟨r, σ₂⟩, hmk, hret⟩ := bind_eq_ok.mp h
      cases hret
      rcases mkdir_cases hmk with rfl | ⟨hw, i, hi, rfl⟩
      · exact .inl rfl
      · exact .inr ⟨d, _, i, ⟨hd, rfl, hw⟩, hi, rfl⟩
    · cases h
      exact .inl rfl

theorem vfsOpen_cases {path : Path} {flags : UInt32} {target : Option ℕ}
    (h : vfsOpen σ path.str flags = .ok (target, σ')) :
    σ' = σ ∨ ∃ d n i, Adds σ d n (.openFile path flags) ∧ freeIdx σ d = some i ∧
      σ' = σ.withChild d i .file n := by
  unfold vfsOpen at h
  split at h
  · cases h
    exact .inl rfl
  · next hnone =>
    split at h
    · next hflags =>
      split at h
      · cases h
        exact .inl rfl
      · next d hd =>
        obtain ⟨⟨r, t, σ₂⟩, hcr, hret⟩ := bind_eq_ok.mp h
        rcases create_cases hcr with ⟨rfl, rfl⟩ | ⟨hw, hnew, i, hi, rfl, rfl⟩
        · cases hret
        · cases hret
          exact .inr ⟨d, _, i, ⟨hnone, hflags, hd, rfl, hw, hnew⟩, hi, rfl⟩
    · cases h
      exact .inl rfl

/-- Directory `d` takes a new file with name `n`: it is a directory of a file system that creates
    entries, has no entry of that name and an index that is free, and the name fits its field. -/
structure TakesFile (σ : State) (d : ℕ) (n : Str) : Prop where
  writable : Writable σ d
  new : lookup σ d n = none
  free : (freeIdx σ d).isSome
  fits : n.length < maxFileNameLen

theorem createIn_ok_iff {maxLen : ℕ} (hmax : maxFileNameLen ≤ maxLen) :
    (∃ ret v σ', createIn maxLen σ d n = .ok (ret, some v, σ')) ↔ (σ.node d).type = .dir ∧
      lookup σ d n = none ∧ (freeIdx σ d).isSome ∧ n.length < maxFileNameLen := by
  constructor
  · rintro ⟨ret, v, σ', h⟩
    rcases createIn_cases h with ⟨-, hv⟩ | ⟨htype, hnew, i, hi, -, -⟩
    · cases hv
    · refine ⟨htype, hnew, by simp [hi], ?_⟩
      by_contra hlen
      have hadd : addChild σ d i .file n = .error .nameOverrun := if_pos (not_lt.mp hlen)
      rw [createIn, if_neg (not_not.mpr htype), hnew, if_neg (by simp), hi] at h
      dsimp only at h
      rw [hadd] at h
      split at h <;> cases h
  · rintro ⟨htype, hnew, hfree, hlen⟩
    obtain ⟨i, hi⟩ := Option.isSome_iff_exists.mp hfree
    refine ⟨1, σ.next, σ.withChild d i .file n, ?_⟩
    have hadd : addChild σ d i .file n = .ok (σ.next, σ.withChild d i .file n) :=
      if_neg (by omega)
    simp only [createIn, htype, hnew, hi, hadd, if_neg (show ¬ n.length > maxLen by omega)]
    rfl

theorem create_ok_iff : (∃ ret v σ', create σ d n = .ok (ret, some v, σ')) ↔ TakesFile σ d n := by
  have hiff : ∀ {maxLen}, maxFileNameLen ≤ maxLen → (σ.node d).fs ≠ .initramfs →
      ((∃ ret v σ', createIn maxLen σ d n = .ok (ret, some v, σ')) ↔ TakesFile σ d n) := by
    intro maxLen hmax hfs
    rw [createIn_ok_iff hmax]
    constructor
    · rintro ⟨htype, hnew, hfree, hlen⟩
      exact ⟨⟨htype, hfs⟩, hnew, hfree, hlen⟩
    · exact fun h => ⟨h.writable.1, h.new, h.free, h.fits⟩
  unfold create
  cases hfs : (σ.node d).fs with
  | tmpfs => exact hiff (by decide) (by simp [hfs])
  | initramfs =>
    refine iff_of_false ?_ fun h => h.writable.2 hfs
    rintro ⟨ret, v, σ', h⟩
    cases h
  | fat32 => exact hiff (by decide) (by simp [hfs])

/-- A file that the call of `vfs_open` has to create is one that its directory takes. -/
def OpenFits (σ : State) (pathname : Str) (flags : UInt32) : Prop :=
  vfsLookup σ pathname = none → flags &&& oCreat ≠ 0 → ∀ d, vfsLookup σ (dirName pathname) = some d →
    TakesFile σ d (baseName pathname)

/-- Exactly then `vfs_open` comes back. -/
theorem vfsOpen_ok_iff {pathname : Str} {flags : UInt32} :
    (∃ r, vfsOpen σ pathname flags = .ok r) ↔ OpenFits σ pathname flags := by
  unfold vfsOpen OpenFits
  cases vfsLookup σ pathname with
  | some node => simp
  | none =>
    by_cases hflags : flags &&& oCreat ≠ 0
    · simp only [if_pos hflags, forall_const, forall_prop_of_true hflags]
      cases vfsLookup σ (dirName pathname) with
      | none => simp
      | some d =>
        simp only [Option.some.injEq, forall_eq', ← create_ok_iff]
        cases hcreate : create σ d (baseName pathname) with
        | error e => simp [bind, Except.bind]
        | ok r =>
          obtain ⟨ret, target, σ'⟩ := r
          cases target <;> simp [bind, Except.bind]
    · simp [hflags]

/-- `vfs_mount` finds no file system or no target, or sets up an instance and uses it exactly if the
    vnode it has looked up has no mount. -/
theorem vfsMount_cases (σ : State) (target filesystem : Str) (img : Image) :
    vfsMount σ target filesystem img = (0, σ) ∧
        (findFilesystem filesystem = none ∨ vfsLookup σ target = none) ∨
      ∃ fs t, findFilesystem filesystem = some fs ∧ vfsLookup σ target = some t ∧
        vfsMount σ target filesystem img =
          if ((setupMount σ fs img).2.node t).mount.isSome then (0, (setupMount σ fs img).2)
          else (1, (setupMount σ fs img).2.setMount t σ.next) := by
  unfold vfsMount
  cases hfs : findFilesystem filesystem with
  | none => exact .inl ⟨rfl, .inl rfl⟩
  | some fs =>
    cases ht : vfsLookup σ target with
    | none => exact .inl ⟨rfl, .inr rfl⟩
    | some t => exact .inr ⟨fs, t, rfl, rfl, rfl⟩

/-- What one call does to the graph. -/
theorem step_cases {op : Op} (h : step σ op = .ok σ') :
    σ' = σ ∨ (∃ d n i type, Adds σ d n op ∧ freeIdx σ d = some i ∧ σ' = σ.withChild d i type n) ∨
      ∃ target filesystem img, op = .mount target filesystem img ∧
        σ' = (vfsMount σ target.str filesystem img).2 := by
  cases op with
  | mkdir path =>
    obtain ⟨⟨ret, σ₁⟩, hmk, rfl⟩ := map_eq_ok.mp h
    rcases vfsMkdir_cases hmk with rfl | ⟨d, n, i, hadd, hi, rfl⟩
    · exact .inl rfl
    · exact .inr (.inl ⟨d, n, i, .dir, hadd, hi, rfl⟩)
  | openFile path flags =>
    obtain ⟨⟨t, σ₁⟩, hop, rfl⟩ := map_eq_ok.mp h
    rcases vfsOpen_cases hop with rfl | ⟨d, n, i, hadd, hi, rfl⟩
    · exact .inl rfl
    · exact .inr (.inl ⟨d, n, i, .file, hadd, hi, rfl⟩)
  | mount target filesystem img =>
    cases h
    exact .inr (.inr ⟨target, filesystem, img, rfl, rfl⟩)

/-! ## The invariant -/

theorem Wf.vfsLookup_lt (h : Wf σ) {path : Str} (hd : vfsLookup σ path = some d) : d < σ.next := by
  rw [vfsLookup_eq] at hd
  exact h.walk_lt hd

theorem wf_vfsMount (h : Wf σ) (target filesystem : Str) (img : Image) :
    Wf (vfsMount σ target filesystem img).2 := by
  rcases vfsMount_cases σ target filesystem img with ⟨heq, -⟩ | ⟨fs, t, -, ht, heq⟩
  · rw [heq]
    exact h
  · rw [heq]
    split
    · exact wf_setupMount h
    · have hlen := (fs.image img).length_pos
      have htlt := h.vfsLookup_lt ht
      refine wf_setMount (wf_setupMount h) ?_ ?_ fun q => setupMount_target_ne h
      · rw [setupMount_next]
        omega
      · rw [setupMount_next]
        omega

theorem Adds.lt (h : Wf σ) {op : Op} (hadd : Adds σ d n op) : d < σ.next := by
  cases op with
  | mkdir path => exact h.vfsLookup_lt hadd.1
  | openFile path flags => exact h.vfsLookup_lt hadd.2.2.1
  | mount target filesystem img => exact hadd.elim

theorem wf_step {op : Op} (h : Wf σ) (hstep : step σ op = .ok σ') : Wf σ' := by
  rcases step_cases hstep with rfl | ⟨d, n, i, type, hadd, hi, rfl⟩ |
    ⟨target, filesystem, img, -, rfl⟩
  · exact h
  · exact wf_withChild h (hadd.lt h) hi
  · exact wf_vfsMount h target.str filesystem img

/-! ## `rootfs_init` -/

/-- The root directory after `rootfs_init` has set it up. -/
def rootState : State := { (setupMount zeroState .tmpfs tmpfsImage).2 with root := 0 }

theorem wf_rootState : Wf rootState := by
  have hnode : ∀ d, (∀ i, (rootState.node d).childs i = none) ∧ (rootState.node d).mount = none := by
    intro d
    rcases Nat.eq_zero_or_pos d with rfl | hd
    · exact ⟨fun _ => rfl, rfl⟩
    · have hnd : (setupMount zeroState .tmpfs tmpfsImage).2.node d = zeroState.node d :=
        setupMount_node_of_le hd
      change (∀ i, ((setupMount zeroState .tmpfs tmpfsImage).2.node d).childs i = none) ∧ _
      rw [hnd]
      exact ⟨fun _ => rfl, congrArg Vnode.mount hnd⟩
  have htarget : ∀ {q x}, rootState.target q = some x → q = .root ∧ x = 0 := by
    intro q x hq
    cases q with
    | root => exact ⟨rfl, (Option.some.inj hq).symm⟩
    | child d i => simp [State.target, (hnode d).1] at hq
    | mount d => simp [State.target, (hnode d).2] at hq
  constructor
  case target_lt =>
    intro q x hq
    rw [(htarget hq).2]
    exact Nat.one_pos
  case unique =>
    intro q q' x hq hq'
    rw [(htarget hq).1, (htarget hq').1]
  case gapFree => exact fun d => ⟨0, Nat.zero_le _, fun i => by simp [(hnode d).1]⟩
  case childs_blank => exact fun {d} _ i => (hnode d).1 i
  case mount_blank => exact fun {d} _ => (hnode d).2

/-- The path names of `rootfs_init`. -/
def initramfsPath : Path := ⟨ofString "/initramfs", by decide⟩

def bootPath : Path := ⟨ofString "/boot", by decide⟩

/-- The calls that `rootfs_init` makes. -/
def initOps (archive disk : Image) : List Op :=
  [.mkdir initramfsPath, .mount initramfsPath (ofString "initramfs") archive,
    .mkdir bootPath, .mount bootPath (ofString "fat32") disk]

theorem rootfsInit_eq (archive disk : Image) :
    rootfsInit archive disk = (initOps archive disk).foldlM step rootState := by
  rfl

theorem wf_reachable {archive disk : Image} (h : Reachable archive disk σ) : Wf σ := by
  induction h with
  | init hinit =>
    rw [rootfsInit_eq] at hinit
    exact foldlM_keep (fun _ _ _ _ h hstep => wf_step h hstep) hinit wf_rootState
  | step hσ op hstep ih => exact wf_step ih hstep

end RaspiKernel.Vfs
