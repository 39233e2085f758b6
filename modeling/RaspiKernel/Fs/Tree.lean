import RaspiKernel.Fs.Fat32

/-!
# The tree of vnodes

The inodes of a tree in preorder, and what replacing the vnode at the end of a
path does to them.

Results:
* `Vnode.nodes_set`: the inodes outside of the replaced vnode are kept.
* `Vnode.pairwise_paths_iff`: what holds of any two inodes of the list holds of the
  vnodes at any two distinct paths, and the other way round.
-/

namespace RaspiKernel.Fs

mutual

/-- The inodes of a tree. -/
def Vnode.nodes : Vnode → List Fat32Inode
  | .mk inode childs => inode :: nodesOf childs

/-- The inodes of a list of trees. -/
def nodesOf : List Vnode → List Fat32Inode
  | [] => []
  | v :: vs => v.nodes ++ nodesOf vs

end

theorem nodesOf_eq (l : List Vnode) : nodesOf l = l.flatMap Vnode.nodes := by
  induction l with
  | nil => rfl
  | cons v vs ih => rw [nodesOf, List.flatMap_cons, ih]

theorem Vnode.nodes_eq (v : Vnode) : v.nodes = v.inode :: v.childs.flatMap Vnode.nodes := by
  cases v with
  | mk inode childs => rw [Vnode.nodes, nodesOf_eq]; rfl

theorem Vnode.inode_mem_nodes (v : Vnode) : v.inode ∈ v.nodes := by
  rw [v.nodes_eq]
  exact List.mem_cons_self

/-- The inodes around the vnode at the end of a path stay when it is replaced. -/
theorem Vnode.nodes_set {v w : Vnode} {path : List ℕ} (h : v.get? path = some w) :
    ∃ pre post, v.nodes = pre ++ w.nodes ++ post ∧
      ∀ w', (v.set path w').nodes = pre ++ w'.nodes ++ post := by
  induction path generalizing v with
  | nil =>
    cases h
    exact ⟨[], [], by simp, fun w' => by simp [Vnode.set]⟩
  | cons i path ih =>
    rw [Vnode.get?] at h
    split at h
    · cases h
    next c hc =>
      obtain ⟨pre, post, hnodes, hset⟩ := ih h
      obtain ⟨hi, rfl⟩ := List.getElem?_eq_some_iff.mp hc
      refine ⟨v.inode :: (v.childs.take i).flatMap Vnode.nodes ++ pre,
        post ++ (v.childs.drop (i + 1)).flatMap Vnode.nodes, ?_, ?_⟩
      · have hsplit : v.childs.flatMap Vnode.nodes = (v.childs.take i).flatMap Vnode.nodes ++
            (v.childs[i].nodes ++ (v.childs.drop (i + 1)).flatMap Vnode.nodes) := by
          rw [← List.flatMap_cons, ← List.flatMap_append]
          simp
        rw [v.nodes_eq, hsplit, hnodes]
        simp
      · intro w'
        rw [Vnode.set, hc]
        dsimp only
        rw [Vnode.nodes_eq]
        show v.inode :: (v.childs.set i _).flatMap Vnode.nodes = _
        rw [List.set_eq_take_append_cons_drop, if_pos hi]
        simp [hset]

theorem Vnode.inode_mem_of_get? {v w : Vnode} {path : List ℕ} (h : v.get? path = some w) :
    w.inode ∈ v.nodes := by
  obtain ⟨pre, post, hnodes, -⟩ := Vnode.nodes_set h
  rw [hnodes]
  simp [w.inode_mem_nodes]

/-- A child and what is below it. -/
theorem Vnode.get?_cons {v w : Vnode} {i : ℕ} {path : List ℕ} (h : v.get? (i :: path) = some w) :
    ∃ c, v.childs[i]? = some c ∧ c.get? path = some w := by
  rw [Vnode.get?] at h
  split at h
  · cases h
  next c hc => exact ⟨c, hc, h⟩

/-- The inodes at two distinct paths are two distinct ones of the list. -/
theorem Vnode.pairwise_paths {R : Fat32Inode → Fat32Inode → Prop} (hR : ∀ a b, R a b → R b a)
    {v u w : Vnode} (h : v.nodes.Pairwise R) {p q : List ℕ} (hpq : p ≠ q) (hp : v.get? p = some u)
    (hq : v.get? q = some w) : R u.inode w.inode := by
  induction p generalizing v q with
  | nil =>
    obtain rfl : v = u := Option.some.inj hp
    cases q with
    | nil => exact absurd rfl hpq
    | cons j q =>
      obtain ⟨c, hc, hw⟩ := Vnode.get?_cons hq
      rw [v.nodes_eq, List.pairwise_cons] at h
      exact h.1 _ (List.mem_flatMap.mpr ⟨c, List.mem_of_getElem? hc, Vnode.inode_mem_of_get? hw⟩)
  | cons i p ih =>
    obtain ⟨c, hc, hu⟩ := Vnode.get?_cons hp
    rw [v.nodes_eq, List.pairwise_cons] at h
    obtain ⟨hroot, hchilds⟩ := h
    cases q with
    | nil =>
      obtain rfl : v = w := Option.some.inj hq
      exact hR _ _
        (hroot _ (List.mem_flatMap.mpr ⟨c, List.mem_of_getElem? hc, Vnode.inode_mem_of_get? hu⟩))
    | cons j q =>
      obtain ⟨d, hd, hw⟩ := Vnode.get?_cons hq
      rw [List.pairwise_flatMap] at hchilds
      obtain ⟨hin, hacross⟩ := hchilds
      rcases lt_trichotomy i j with hij | rfl | hij
      · -- two children, in this order
        obtain ⟨hi, rfl⟩ := List.getElem?_eq_some_iff.mp hc
        obtain ⟨hj, rfl⟩ := List.getElem?_eq_some_iff.mp hd
        exact List.pairwise_iff_getElem.mp hacross i j hi hj hij _ (Vnode.inode_mem_of_get? hu) _
          (Vnode.inode_mem_of_get? hw)
      · rw [hc, Option.some.injEq] at hd
        subst hd
        exact ih (hin c (List.mem_of_getElem? hc)) (fun heq => hpq (by rw [heq])) hu hw
      · obtain ⟨hi, rfl⟩ := List.getElem?_eq_some_iff.mp hc
        obtain ⟨hj, rfl⟩ := List.getElem?_eq_some_iff.mp hd
        exact hR _ _ (List.pairwise_iff_getElem.mp hacross j i hj hi hij _
          (Vnode.inode_mem_of_get? hw) _ (Vnode.inode_mem_of_get? hu))

theorem Vnode.sizeOf_lt_of_mem {v c : Vnode} (h : c ∈ v.childs) : sizeOf c < sizeOf v := by
  cases v with
  | mk inode childs =>
    have := List.sizeOf_lt_of_mem h
    simp only [Vnode.childs_mk] at this
    simp only [Vnode.mk.sizeOf_spec]
    omega

theorem Vnode.get?_of_child {v c w : Vnode} {i : ℕ} {path : List ℕ} (hc : v.childs[i]? = some c)
    (hw : c.get? path = some w) : v.get? (i :: path) = some w := by
  simp [Vnode.get?, hc, hw]

/-- Every inode of the list is at a path. -/
theorem Vnode.exists_get?_of_mem (v : Vnode) {n : Fat32Inode} (h : n ∈ v.nodes) :
    ∃ path w, v.get? path = some w ∧ w.inode = n := by
  rw [v.nodes_eq, List.mem_cons, List.mem_flatMap] at h
  rcases h with rfl | ⟨c, hc, hn⟩
  · exact ⟨[], v, rfl, rfl⟩
  · obtain ⟨path, w, hw, hwn⟩ := c.exists_get?_of_mem hn
    obtain ⟨i, hi⟩ := List.getElem?_of_mem hc
    exact ⟨i :: path, w, Vnode.get?_of_child hi hw, hwn⟩
termination_by sizeOf v
decreasing_by exact Vnode.sizeOf_lt_of_mem hc

/-- Conversely, two distinct inodes of the list are at two distinct paths. -/
theorem Vnode.pairwise_of_paths {R : Fat32Inode → Fat32Inode → Prop} (v : Vnode)
    (h : ∀ p q u w, p ≠ q → v.get? p = some u → v.get? q = some w → R u.inode w.inode) :
    v.nodes.Pairwise R := by
  have hbelow : ∀ {i : ℕ} {c : Vnode}, v.childs[i]? = some c → ∀ n ∈ c.nodes,
      ∃ path w, v.get? (i :: path) = some w ∧ w.inode = n := by
    intro i c hc n hn
    obtain ⟨path, w, hw, hwn⟩ := c.exists_get?_of_mem hn
    exact ⟨path, w, Vnode.get?_of_child hc hw, hwn⟩
  rw [v.nodes_eq, List.pairwise_cons, List.pairwise_flatMap]
  refine ⟨?_, ?_, ?_⟩
  · intro n hn
    obtain ⟨c, hc, hn⟩ := List.mem_flatMap.mp hn
    obtain ⟨i, hi⟩ := List.getElem?_of_mem hc
    obtain ⟨path, w, hw, rfl⟩ := hbelow hi n hn
    exact h [] (i :: path) v w (by simp) rfl hw
  · intro c hc
    obtain ⟨i, hi⟩ := List.getElem?_of_mem hc
    apply c.pairwise_of_paths
    intro p q u w hpq hu hw
    have hne : i :: p ≠ i :: q := by simpa using hpq
    exact h _ _ u w hne (Vnode.get?_of_child hi hu) (Vnode.get?_of_child hi hw)
  · rw [List.pairwise_iff_getElem]
    intro i j hi hj hij n hn m hm
    obtain ⟨p, u, hu, rfl⟩ := hbelow (List.getElem?_eq_getElem hi) n hn
    obtain ⟨q, w, hw, rfl⟩ := hbelow (List.getElem?_eq_getElem hj) m hm
    exact h (i :: p) (j :: q) u w (by simp [hij.ne]) hu hw
termination_by sizeOf v
decreasing_by exact Vnode.sizeOf_lt_of_mem hc

/-- A symmetric relation holds between the inodes of the list if and only if it does at distinct
    paths. -/
theorem Vnode.pairwise_paths_iff {R : Fat32Inode → Fat32Inode → Prop} (hR : ∀ a b, R a b → R b a)
    (v : Vnode) : v.nodes.Pairwise R ↔
      ∀ p q u w, p ≠ q → v.get? p = some u → v.get? q = some w → R u.inode w.inode :=
  ⟨fun h _ _ _ _ hpq hu hw => Vnode.pairwise_paths hR h hpq hu hw, v.pairwise_of_paths⟩

end RaspiKernel.Fs
