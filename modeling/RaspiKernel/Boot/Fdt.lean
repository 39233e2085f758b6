import RaspiKernel.Boot.Str

/-!
# The flattened device tree

Model of `fdt_traverse` in `src/dtb.c` and of the format it reads. What the
callback is called with is the list of its calls: no callback of the kernel
changes the tree.

`fdt_traverse` steps over a node name by `ALIGN(strlen(name), 4) / 4` words,
which does not count the NUL. For a name whose length is a multiple of 4 it stops
one word short, at the padding, whose token 0 it ignores.

Results:
* `Node.runs`: over the words of a node the loop makes the calls of the node.
* `traverse_exact`: on every device tree, `fdt_traverse` ends and makes one call
  for each property, in order, with its header, the name of its node and its name.
* `traverse_long_name`: `strlen` returns an `int`, so that a name of `2 ^ 31` bytes
  leads it astray.
-/

namespace RaspiKernel.Boot

open Lib

/-! ## `fdt_traverse` -/

/-- `FDT_MAGIC`. -/
abbrev FDT_MAGIC : ℕ := 0xd00dfeed
/-- `FDT_BEGIN_NODE`. -/
abbrev FDT_BEGIN_NODE : ℕ := 1
/-- `FDT_END_NODE`. -/
abbrev FDT_END_NODE : ℕ := 2
/-- `FDT_PROP`. -/
abbrev FDT_PROP : ℕ := 3
/-- `FDT_NOP`. -/
abbrev FDT_NOP : ℕ := 4
/-- `FDT_END`. -/
abbrev FDT_END : ℕ := 9

/-- The arguments of a call of the callback. -/
structure FdtCall where
  /-- `fdt_prop *`. -/
  prop : ℕ
  nodeName : ℕ
  propertyName : ℕ
  deriving DecidableEq, Repr

/-- `struct_sp` and `node_name`. -/
structure Cursor where
  structSp : ℕ
  nodeName : ℕ

/-- `ALIGN(x, 4)` of a `uint32_t`. -/
def alignU32 (x : ℕ) : ℕ := (x + 3) % 2 ^ 32 / 4 * 4

/-- One round of the loop of `fdt_traverse` (lines 47–67): the calls it makes, and where it goes on
    if `END` is not set. -/
def traverseStep (m : Mem) (stringSp fuel : ℕ) (c : Cursor) :
    Option (List FdtCall × Option Cursor) :=
  let token := bswap32 (load m c.structSp 4)
  if token = FDT_BEGIN_NODE then do
    let len ← strlen m fuel (c.structSp + 4)
    let structSp := ptrAdd c.structSp (4 * (alignInt len / 4))
    some ([], some ⟨ptrAdd structSp 4, c.structSp + 4⟩)
  else if token = FDT_PROP then
    let prop := c.structSp + 4
    let len := bswap32 (load m prop 4)
    let structSp := ptrAdd c.structSp (4 * ((8 + alignU32 len) / 4 : ℕ))
    let propertyName := ptrAdd stringSp (bswap32 (load m (prop + 4) 4))
    some ([⟨prop, c.nodeName, propertyName⟩], some ⟨ptrAdd structSp 4, c.nodeName⟩)
  else if token = FDT_END then some ([], none)
  else some ([], some ⟨ptrAdd c.structSp 4, c.nodeName⟩)

/-- `while (!END)` of `fdt_traverse` (lines 46–70), with a bound on its rounds and on those of
    `strlen`. -/
def traverseLoop (m : Mem) (stringSp : ℕ) : ℕ → Cursor → Option (List FdtCall)
  | 0, _ => none
  | fuel + 1, c => do
    let (calls, next) ← traverseStep m stringSp fuel c
    match next with
    | none => some calls
    | some c => (traverseLoop m stringSp fuel c).map (calls ++ ·)

/-- `fdt_traverse` (lines 36–71). -/
def fdtTraverse (fuel : ℕ) (m : Mem) (dtb : ℕ) : Option (List FdtCall) :=
  if bswap32 (load m dtb 4) ≠ FDT_MAGIC then some []
  else
    let structSp := ptrAdd dtb (bswap32 (load m (dtb + 8) 4))
    let stringSp := ptrAdd dtb (bswap32 (load m (dtb + 12) 4))
    traverseLoop m stringSp fuel ⟨structSp, 0⟩

/-! ## The format -/

/-- A property, with the number of `FDT_NOP` tokens before it. Its name is in the strings block, at
    `nameoff`. -/
structure Property where
  nops : ℕ
  nameoff : ℕ
  name : List UInt8
  value : List UInt8

/-- A node, with the number of `FDT_NOP` tokens before its first and before its last token. -/
inductive Node where
  | mk (nops : ℕ) (name : List UInt8) (props : List Property) (subnodes : List Node) (endNops : ℕ)

/-- `FDT_NOP` tokens. -/
def nopTokens : ℕ → List UInt8
  | 0 => []
  | k + 1 => be32 FDT_NOP ++ nopTokens k

def Property.flatten (p : Property) : List UInt8 :=
  nopTokens p.nops ++ (be32 FDT_PROP ++
    (be32 p.value.length ++ (be32 p.nameoff ++ pad4 p.value)))

mutual
/-- The part of the structure block that a node becomes. -/
def Node.flatten : Node → List UInt8
  | .mk nops name props subnodes endNops =>
    nopTokens nops ++ (be32 FDT_BEGIN_NODE ++ (pad4 (name ++ [0]) ++
      (props.flatMap Property.flatten ++
        (Node.flattenAll subnodes ++ (nopTokens endNops ++ be32 FDT_END_NODE)))))

def Node.flattenAll : List Node → List UInt8
  | [] => []
  | n :: ns => n.flatten ++ Node.flattenAll ns
end

mutual
/-- The name and the properties of every node, in document order. -/
def Node.nodes : Node → List (List UInt8 × List Property)
  | .mk _ name props subnodes _ => (name, props) :: Node.nodesAll subnodes

def Node.nodesAll : List Node → List (List UInt8 × List Property)
  | [] => []
  | n :: ns => n.nodes ++ Node.nodesAll ns
end

/-- The properties of a tree in document order, each with the name of its node. -/
def Node.properties (n : Node) : List (List UInt8 × Property) :=
  n.nodes.flatMap fun x => x.2.map (x.1, ·)

/-- A device tree: the root node, the `FDT_NOP` tokens before `FDT_END`, and the strings block. -/
structure DeviceTree where
  root : Node
  nops : ℕ
  strings : List UInt8

/-- The structure block. -/
def DeviceTree.flatten (t : DeviceTree) : List UInt8 :=
  t.root.flatten ++ (nopTokens t.nops ++ be32 FDT_END)

/-- A node name is free of NUL, and the name of a property is in the strings block. -/
def DeviceTree.Named (t : DeviceTree) : Prop :=
  (∀ x ∈ t.root.nodes, 0 ∉ x.1) ∧
    ∀ x ∈ t.root.properties, 0 ∉ x.2.name ∧ x.2.nameoff < 2 ^ 32 ∧
      x.2.name ++ [0] <+: t.strings.drop x.2.nameoff

/-- A device tree at `dtb`: the fields of the header that are read, and the two blocks. The size of the
    structure block is a 32-bit field of the header. -/
structure Placed (m : Mem) (dtb offStruct offStrings : ℕ) (t : DeviceTree) : Prop where
  magic : Holds m dtb (be32 FDT_MAGIC)
  off_dt_struct : Holds m (dtb + 8) (be32 offStruct)
  off_dt_strings : Holds m (dtb + 12) (be32 offStrings)
  offStruct_lt : offStruct < 2 ^ 32
  offStrings_lt : offStrings < 2 ^ 32
  structBlock : Holds m (dtb + offStruct) t.flatten
  stringsBlock : Holds m (dtb + offStrings) t.strings
  size_dt_struct : t.flatten.length < 2 ^ 32
  struct_lt : dtb + offStruct + t.flatten.length < 2 ^ 64
  strings_lt : dtb + offStrings + t.strings.length < 2 ^ 64

/-! ## The calls of a tree -/

/-- The calls for the properties of a node whose name is at `nodeName`, where the properties start
    at `a`. -/
def propCalls (stringSp nodeName : ℕ) : ℕ → List Property → List FdtCall
  | _, [] => []
  | a, p :: ps => ⟨a + 4 * p.nops + 4, nodeName, stringSp + p.nameoff⟩ ::
      propCalls stringSp nodeName (a + p.flatten.length) ps

mutual
/-- The calls for a node that starts at `a`. -/
def Node.calls (stringSp a : ℕ) : Node → List FdtCall
  | .mk nops name props subnodes _ =>
    let nodeName := a + 4 * nops + 4
    let body := nodeName + (pad4 (name ++ [0])).length
    propCalls stringSp nodeName body props ++
      Node.callsAll stringSp (body + (props.flatMap Property.flatten).length) subnodes

def Node.callsAll (stringSp a : ℕ) : List Node → List FdtCall
  | [] => []
  | n :: ns => n.calls stringSp a ++ Node.callsAll stringSp (a + n.flatten.length) ns
end

/-! ## Lengths -/

@[simp] theorem length_be32 (v : ℕ) : (be32 v).length = 4 := rfl

@[simp] theorem length_nopTokens (k : ℕ) : (nopTokens k).length = 4 * k := by
  induction k with
  | zero => rfl
  | succ k ih =>
    rw [nopTokens, List.length_append, ih, length_be32]
    omega

theorem Property.length_flatten (p : Property) :
    p.flatten.length = 4 * p.nops + 12 + (p.value.length + 3) / 4 * 4 := by
  simp only [Property.flatten, List.length_append, length_nopTokens, length_be32, length_pad4]
  omega

/-! ## Runs of the loop -/

section

variable {m : Mem} {stringSp bound : ℕ}

/-- From one cursor the loop makes the given calls and comes to another cursor. The bound is on the
    strings that it measures. -/
def Runs (m : Mem) (stringSp bound : ℕ) (c : Cursor) (calls : List FdtCall) (c' : Cursor) : Prop :=
  ∃ n, ∀ fuel ≥ bound, traverseLoop m stringSp (fuel + n) c =
    (traverseLoop m stringSp fuel c').map (calls ++ ·)

theorem Runs.refl (c : Cursor) : Runs m stringSp bound c [] c := by
  refine ⟨0, fun fuel _ => ?_⟩
  rw [Nat.add_zero]
  cases traverseLoop m stringSp fuel c <;> rfl

theorem Runs.trans {c c' c'' : Cursor} {calls calls' : List FdtCall}
    (h : Runs m stringSp bound c calls c') (h' : Runs m stringSp bound c' calls' c'') :
    Runs m stringSp bound c (calls ++ calls') c'' := by
  obtain ⟨n, hn⟩ := h
  obtain ⟨n', hn'⟩ := h'
  refine ⟨n' + n, fun fuel hfuel => ?_⟩
  rw [← Nat.add_assoc, hn (fuel + n') (by omega), hn' fuel hfuel, Option.map_map]
  congr 1
  funext rest
  simp

theorem Runs.of_step {c c' : Cursor} {calls : List FdtCall}
    (h : ∀ fuel ≥ bound, traverseStep m stringSp fuel c = some (calls, some c')) :
    Runs m stringSp bound c calls c' := by
  refine ⟨1, fun fuel hfuel => ?_⟩
  rw [traverseLoop, h fuel hfuel]
  rfl

/-- `struct_sp++`. -/
theorem ptrAdd_word {p : ℕ} (h : p + 4 < 2 ^ 64) : ptrAdd p 4 = p + 4 := ptrAdd_of_lt h

/-- A token that `fdt_traverse` does not know. -/
theorem runs_skip {a v : ℕ} (h : Holds m a (be32 v)) (hv : v = 0 ∨ v = FDT_END_NODE ∨ v = FDT_NOP)
    (ha : a + 4 < 2 ^ 64) (nodeName : ℕ) :
    Runs m stringSp bound ⟨a, nodeName⟩ [] ⟨a + 4, nodeName⟩ := by
  have hlt : v < 2 ^ 32 := by rcases hv with rfl | rfl | rfl <;> decide
  have hunknown : v ≠ FDT_BEGIN_NODE ∧ v ≠ FDT_PROP ∧ v ≠ FDT_END := by
    rcases hv with rfl | rfl | rfl <;> decide
  apply Runs.of_step
  intro fuel _
  simp only [traverseStep, bswap32_load h hlt, ptrAdd_word ha]
  rw [if_neg hunknown.1, if_neg hunknown.2.1, if_neg hunknown.2.2]

theorem runs_nopTokens {a k : ℕ} (h : Holds m a (nopTokens k)) (ha : a + 4 * k < 2 ^ 64)
    (nodeName : ℕ) : Runs m stringSp bound ⟨a, nodeName⟩ [] ⟨a + 4 * k, nodeName⟩ := by
  induction k generalizing a with
  | zero => exact Runs.refl _
  | succ k ih =>
    obtain ⟨hnop, hrest⟩ := holds_append.mp h
    have hskip : Runs m stringSp bound ⟨a, nodeName⟩ [] ⟨a + 4, nodeName⟩ :=
      runs_skip hnop (.inr (.inr rfl)) (by omega) nodeName
    have hrun := ih hrest (by rw [length_be32]; omega)
    rw [length_be32, show a + 4 + 4 * k = a + 4 * (k + 1) by omega] at hrun
    exact hskip.trans hrun

/-- The NUL of a name whose length is a multiple of 4 is a word of its own. -/
theorem pad4_of_dvd {name : List UInt8} (h : name.length % 4 = 0) :
    pad4 (name ++ [0]) = name ++ be32 0 := by
  unfold pad4
  rw [List.length_append, List.length_singleton,
    show (4 - (name.length + 1) % 4) % 4 = 3 by omega, List.append_assoc]
  rfl

theorem runs_beginNode {a : ℕ} {name : List UInt8}
    (h : Holds m a (be32 FDT_BEGIN_NODE ++ pad4 (name ++ [0]))) (hnul : 0 ∉ name)
    (hlen : name.length + 3 < 2 ^ 31) (hbound : name.length < bound)
    (ha : a + 4 + (pad4 (name ++ [0])).length < 2 ^ 64) (nodeName : ℕ) :
    Runs m stringSp bound ⟨a, nodeName⟩ [] ⟨a + 4 + (pad4 (name ++ [0])).length, a + 4⟩ := by
  obtain ⟨htoken, hname⟩ := holds_append.mp h
  rw [length_be32] at hname
  have hstr : HoldsStr m (a + 4) name := ⟨(holds_append.mp hname).1, hnul⟩
  have hpad : (pad4 (name ++ [0])).length = name.length / 4 * 4 + 4 := by
    rw [length_pad4, List.length_append, List.length_singleton]
    omega
  -- the words that the code steps over
  have hstep : ∀ sp, sp = a + 4 + (name.length + 3) / 4 * 4 →
      Runs m stringSp bound ⟨a, nodeName⟩ [] ⟨sp, a + 4⟩ := by
    rintro sp rfl
    apply Runs.of_step
    intro fuel hfuel
    have hmove : ptrAdd (ptrAdd a (4 * (alignInt (name.length : ℤ) / 4))) 4 =
        a + 4 + (name.length + 3) / 4 * 4 := by
      rw [alignInt_of_lt hlen, show (4 : ℤ) * (((name.length + 3) / 4 * 4 : ℕ) / 4) =
        ((name.length + 3) / 4 * 4 : ℕ) by omega, ptrAdd_of_lt (by omega)]
      rw [ptrAdd_word (by omega)]
      omega
    simp only [traverseStep, bswap32_load htoken (by norm_num),
      strlen_spec hstr (show name.length < fuel by omega), toInt_of_lt (show name.length < _ by omega)]
    show some (_, some (Cursor.mk (ptrAdd (ptrAdd a _) 4) (a + 4))) = _
    rw [hmove]
  by_cases h4 : name.length % 4 = 0
  · -- one word short: the padding is a word with token 0
    rw [pad4_of_dvd h4, holds_append] at hname
    have hzero : Runs m stringSp bound ⟨a + 4 + name.length, a + 4⟩ []
        ⟨a + 4 + name.length + 4, a + 4⟩ := runs_skip hname.2 (.inl rfl) (by omega) (a + 4)
    have hrun := (hstep (a + 4 + name.length) (by omega)).trans hzero
    rwa [show a + 4 + name.length + 4 = a + 4 + (pad4 (name ++ [0])).length by omega] at hrun
  · exact hstep _ (by omega)

theorem runs_property {a : ℕ} {p : Property} (h : Holds m a p.flatten)
    (hlen : p.value.length + 3 < 2 ^ 32) (hoff : p.nameoff < 2 ^ 32)
    (hname : stringSp + p.nameoff < 2 ^ 64) (ha : a + p.flatten.length < 2 ^ 64) (nodeName : ℕ) :
    Runs m stringSp bound ⟨a, nodeName⟩ [⟨a + 4 * p.nops + 4, nodeName, stringSp + p.nameoff⟩]
      ⟨a + p.flatten.length, nodeName⟩ := by
  have hflat := p.length_flatten
  rw [Property.flatten, holds_append, length_nopTokens, holds_append, length_be32, holds_append,
    length_be32, holds_append, length_be32] at h
  obtain ⟨hnops, htoken, hlength, hnameoff, -⟩ := h
  have hskip := @runs_nopTokens m stringSp bound a p.nops hnops (by omega) nodeName
  refine hskip.trans (Runs.of_step fun fuel _ => ?_)
  have hmove : ptrAdd (ptrAdd (a + 4 * p.nops)
      (4 * (((8 + alignU32 p.value.length) / 4 : ℕ) : ℤ))) 4 = a + p.flatten.length := by
    unfold alignU32
    rw [Nat.mod_eq_of_lt hlen, show (4 : ℤ) * (((8 + (p.value.length + 3) / 4 * 4) / 4 : ℕ) : ℤ) =
      (8 + (p.value.length + 3) / 4 * 4 : ℕ) by omega, ptrAdd_of_lt (by omega)]
    rw [ptrAdd_word (by omega)]
    omega
  simp only [traverseStep, bswap32_load htoken (show FDT_PROP < 2 ^ 32 by norm_num)]
  rw [if_neg (by decide), if_pos trivial, bswap32_load hlength (by omega), bswap32_load hnameoff hoff, hmove,
    ptrAdd_of_lt hname]

theorem runs_properties {a nodeName : ℕ} {props : List Property}
    (h : Holds m a (props.flatMap Property.flatten))
    (hlen : (props.flatMap Property.flatten).length < 2 ^ 32)
    (hprops : ∀ p ∈ props, p.nameoff < 2 ^ 32 ∧ stringSp + p.nameoff < 2 ^ 64)
    (ha : a + (props.flatMap Property.flatten).length < 2 ^ 64) :
    Runs m stringSp bound ⟨a, nodeName⟩ (propCalls stringSp nodeName a props)
      ⟨a + (props.flatMap Property.flatten).length, nodeName⟩ := by
  induction props generalizing a with
  | nil => exact Runs.refl _
  | cons p ps ih =>
    rw [List.flatMap_cons] at h hlen ha ⊢
    rw [List.length_append] at hlen ha ⊢
    obtain ⟨hp, hps⟩ := holds_append.mp h
    obtain ⟨hoff, hname⟩ := hprops p List.mem_cons_self
    have hflat := p.length_flatten
    have hhead := @runs_property m stringSp bound a p hp (by omega) hoff hname (by omega) nodeName
    have htail := ih hps (by omega) (fun q hq => hprops q (List.mem_cons_of_mem _ hq)) (by omega)
    rw [← Nat.add_assoc]
    exact hhead.trans htail

/-- What the loop needs of the nodes. -/
def NodesOk (stringSp : ℕ) (nodes : List (List UInt8 × List Property)) : Prop :=
  ∀ x ∈ nodes, (0 ∉ x.1 ∧ x.1.length + 3 < 2 ^ 31) ∧
    ∀ p ∈ x.2, p.nameoff < 2 ^ 32 ∧ stringSp + p.nameoff < 2 ^ 64

mutual
/-- Over the words of a node, the loop makes the calls of the node. -/
theorem Node.runs (n : Node) {a nodeName : ℕ} (h : Holds m a n.flatten)
    (hok : NodesOk stringSp n.nodes) (hlen : n.flatten.length < 2 ^ 32)
    (hbound : n.flatten.length ≤ bound) (ha : a + n.flatten.length < 2 ^ 64) :
    ∃ nodeName', Runs m stringSp bound ⟨a, nodeName⟩ (n.calls stringSp a)
      ⟨a + n.flatten.length, nodeName'⟩ := by
  obtain ⟨nops, name, props, subnodes, endNops⟩ := n
  rw [Node.nodes] at hok
  obtain ⟨⟨hnul, hshort⟩, hprops⟩ := hok _ List.mem_cons_self
  rw [Node.flatten] at h hlen hbound ha ⊢
  -- the parts of the node, each with its place
  rw [← List.append_assoc (be32 _)] at h
  obtain ⟨hnops, h⟩ := holds_append.mp h
  obtain ⟨hbegin, h⟩ := holds_append.mp h
  obtain ⟨hpropsAt, h⟩ := holds_append.mp h
  obtain ⟨hsub, h⟩ := holds_append.mp h
  obtain ⟨hend, hlast⟩ := holds_append.mp h
  simp only [List.length_append, length_nopTokens, length_be32, ← Nat.add_assoc] at *
  have hpad := length_pad4 (name ++ [0])
  rw [List.length_append, List.length_singleton] at hpad
  have r₁ := @runs_nopTokens m stringSp bound a nops hnops (by omega) nodeName
  have r₂ := @runs_beginNode m stringSp bound _ _ hbegin hnul hshort (by omega) (by omega) nodeName
  have r₃ := @runs_properties m stringSp bound _ (a + 4 * nops + 4) _ hpropsAt (by omega) hprops
    (by omega)
  obtain ⟨nodeName', r₄⟩ := @Node.runsAll subnodes _ (a + 4 * nops + 4) hsub
    (fun x hx => hok x (List.mem_cons_of_mem _ hx)) (by omega) (by omega) (by omega)
  have r₅ := @runs_nopTokens m stringSp bound _ endNops hend (by omega) nodeName'
  have r₆ := @runs_skip m stringSp bound _ _ hlast (.inr (.inl rfl)) (by omega) nodeName'
  refine ⟨nodeName', ?_⟩
  have hrun := r₁.trans (r₂.trans (r₃.trans (r₄.trans (r₅.trans r₆))))
  rw [Node.calls]
  simpa only [List.nil_append, List.append_nil] using hrun

theorem Node.runsAll (ns : List Node) {a nodeName : ℕ} (h : Holds m a (Node.flattenAll ns))
    (hok : NodesOk stringSp (Node.nodesAll ns)) (hlen : (Node.flattenAll ns).length < 2 ^ 32)
    (hbound : (Node.flattenAll ns).length ≤ bound)
    (ha : a + (Node.flattenAll ns).length < 2 ^ 64) :
    ∃ nodeName', Runs m stringSp bound ⟨a, nodeName⟩ (Node.callsAll stringSp a ns)
      ⟨a + (Node.flattenAll ns).length, nodeName'⟩ := by
  cases ns with
  | nil => exact ⟨nodeName, Runs.refl _⟩
  | cons n ns =>
    rw [Node.flattenAll] at h hlen hbound ha ⊢
    rw [Node.nodesAll] at hok
    rw [List.length_append] at hlen hbound ha ⊢
    obtain ⟨hn, hns⟩ := holds_append.mp h
    obtain ⟨nodeName', r₁⟩ := @Node.runs n _ nodeName hn
      (fun x hx => hok x (List.mem_append_left _ hx)) (by omega) (by omega) (by omega)
    obtain ⟨nodeName'', r₂⟩ := @Node.runsAll ns _ nodeName' hns
      (fun x hx => hok x (List.mem_append_right _ hx)) (by omega) (by omega) (by omega)
    rw [← Nat.add_assoc]
    exact ⟨nodeName'', r₁.trans r₂⟩
end

/-! ## What the callback is given -/

/-- A call has the header of the property with its value behind it, the name of the node, and the name
    of the property. -/
structure Delivers (m : Mem) (x : List UInt8 × Property) (call : FdtCall) : Prop where
  header : Holds m call.prop (be32 x.2.value.length ++ (be32 x.2.nameoff ++ x.2.value))
  nodeName : HoldsStr m call.nodeName x.1
  propertyName : HoldsStr m call.propertyName x.2.name

/-- The names of the properties are where `nameoff` says. -/
def NamesAt (m : Mem) (stringSp : ℕ) (nodes : List (List UInt8 × List Property)) : Prop :=
  ∀ x ∈ nodes, ∀ p ∈ x.2, HoldsStr m (stringSp + p.nameoff) p.name

theorem propCalls_deliver {a nodeName : ℕ} {name : List UInt8} {props : List Property}
    (h : Holds m a (props.flatMap Property.flatten)) (hname : HoldsStr m nodeName name)
    (hprops : ∀ p ∈ props, HoldsStr m (stringSp + p.nameoff) p.name) :
    List.Forall₂ (Delivers m) (props.map (name, ·)) (propCalls stringSp nodeName a props) := by
  induction props generalizing a with
  | nil => exact .nil
  | cons p ps ih =>
    rw [List.flatMap_cons] at h
    obtain ⟨hp, hps⟩ := holds_append.mp h
    refine .cons ⟨?_, hname, hprops p List.mem_cons_self⟩
      (ih hps fun q hq => hprops q (List.mem_cons_of_mem _ hq))
    rw [Property.flatten, holds_append, length_nopTokens, holds_append, length_be32] at hp
    have hvalue := hp.2.2
    rw [pad4, ← List.append_assoc, ← List.append_assoc, holds_append, List.append_assoc] at hvalue
    exact hvalue.1

theorem Node.properties_mk (nops : ℕ) (name : List UInt8) (props : List Property)
    (subnodes : List Node) (endNops : ℕ) :
    (Node.mk nops name props subnodes endNops).properties =
      props.map (name, ·) ++ (Node.nodesAll subnodes).flatMap fun x => x.2.map (x.1, ·) := by
  rw [Node.properties, Node.nodes, List.flatMap_cons]

mutual
theorem Node.calls_deliver (n : Node) {a : ℕ} (h : Holds m a n.flatten)
    (hnul : ∀ x ∈ n.nodes, 0 ∉ x.1) (hnames : NamesAt m stringSp n.nodes) :
    List.Forall₂ (Delivers m) n.properties (n.calls stringSp a) := by
  obtain ⟨nops, name, props, subnodes, endNops⟩ := n
  rw [Node.nodes] at hnul hnames
  rw [Node.flatten] at h
  obtain ⟨-, h⟩ := holds_append.mp h
  obtain ⟨-, h⟩ := holds_append.mp h
  obtain ⟨hname, h⟩ := holds_append.mp h
  obtain ⟨hprops, h⟩ := holds_append.mp h
  obtain ⟨hsub, -⟩ := holds_append.mp h
  simp only [length_nopTokens, length_be32] at hname hprops hsub
  have hstr : HoldsStr m (a + 4 * nops + 4) name :=
    ⟨(holds_append.mp hname).1, hnul _ List.mem_cons_self⟩
  rw [Node.properties_mk, Node.calls]
  exact List.rel_append (propCalls_deliver hprops hstr (hnames _ List.mem_cons_self))
    (Node.callsAll_deliver subnodes hsub (fun x hx => hnul x (List.mem_cons_of_mem _ hx))
      fun x hx => hnames x (List.mem_cons_of_mem _ hx))

theorem Node.callsAll_deliver (ns : List Node) {a : ℕ} (h : Holds m a (Node.flattenAll ns))
    (hnul : ∀ x ∈ Node.nodesAll ns, 0 ∉ x.1) (hnames : NamesAt m stringSp (Node.nodesAll ns)) :
    List.Forall₂ (Delivers m) ((Node.nodesAll ns).flatMap fun x => x.2.map (x.1, ·))
      (Node.callsAll stringSp a ns) := by
  cases ns with
  | nil => exact .nil
  | cons n ns =>
    rw [Node.nodesAll] at hnul hnames ⊢
    rw [Node.flattenAll] at h
    obtain ⟨hn, hns⟩ := holds_append.mp h
    rw [List.flatMap_append, Node.callsAll]
    exact List.rel_append
      (Node.calls_deliver n hn (fun x hx => hnul x (List.mem_append_left _ hx))
        fun x hx => hnames x (List.mem_append_left _ hx))
      (Node.callsAll_deliver ns hns (fun x hx => hnul x (List.mem_append_right _ hx))
        fun x hx => hnames x (List.mem_append_right _ hx))
end

end

/-! ## Whole trees -/

variable {m : Mem} {dtb offStruct offStrings : ℕ} {t : DeviceTree}

/-- The name of a property, in the strings block. -/
theorem Placed.name {p : Property} (h : Placed m dtb offStruct offStrings t) (hnul : 0 ∉ p.name)
    (hpre : p.name ++ [0] <+: t.strings.drop p.nameoff) :
    HoldsStr m (dtb + offStrings + p.nameoff) p.name ∧
      dtb + offStrings + p.nameoff < 2 ^ 64 := by
  have hlen := hpre.length_le
  rw [List.length_append, List.length_singleton, List.length_drop] at hlen
  have htake : (t.strings.take p.nameoff).length = p.nameoff := by
    rw [List.length_take]
    omega
  have hstrings := h.stringsBlock
  have hlt := h.strings_lt
  rw [← List.take_append_drop p.nameoff t.strings, holds_append, htake] at hstrings
  obtain ⟨rest, hrest⟩ := hpre
  rw [← hrest, holds_append] at hstrings
  exact ⟨⟨hstrings.2.1, hnul⟩, by omega⟩

theorem mem_properties {n : Node} {x : List UInt8 × List Property} {p : Property}
    (hx : x ∈ n.nodes) (hp : p ∈ x.2) : (x.1, p) ∈ n.properties :=
  List.mem_flatMap.mpr ⟨x, hx, List.mem_map_of_mem hp⟩

/-- On every device tree whose node names are shorter than `2 ^ 31 - 3` bytes, `fdt_traverse` ends and
    calls the callback once for each property, in document order. Each call has the address of the
    header of its property, with the value behind it, the name of the node and the name of the
    property. -/
theorem traverse_exact (h : Placed m dtb offStruct offStrings t) (hnamed : t.Named)
    (hshort : ∀ x ∈ t.root.nodes, x.1.length + 3 < 2 ^ 31) :
    ∃ bound, (∀ fuel ≥ bound, fdtTraverse fuel m dtb =
        some (t.root.calls (dtb + offStrings) (dtb + offStruct))) ∧
      List.Forall₂ (Delivers m) t.root.properties
        (t.root.calls (dtb + offStrings) (dtb + offStruct)) := by
  obtain ⟨hnul, hprops⟩ := hnamed
  have hname : ∀ x ∈ t.root.nodes, ∀ p ∈ x.2, HoldsStr m (dtb + offStrings + p.nameoff) p.name ∧
      dtb + offStrings + p.nameoff < 2 ^ 64 := by
    intro x hx p hp
    obtain ⟨hpnul, -, hpre⟩ := hprops _ (mem_properties hx hp)
    exact h.name hpnul hpre
  have hok : NodesOk (dtb + offStrings) t.root.nodes := by
    intro x hx
    refine ⟨⟨hnul x hx, hshort x hx⟩, fun p hp => ?_⟩
    exact ⟨(hprops _ (mem_properties hx hp)).2.1, (hname x hx p hp).2⟩
  have hblock := h.structBlock
  have hsize := h.size_dt_struct
  have hlt := h.struct_lt
  have hlt' := h.strings_lt
  rw [DeviceTree.flatten] at hblock hsize hlt
  simp only [List.length_append, length_nopTokens, length_be32] at hsize hlt
  obtain ⟨hroot, hrest⟩ := holds_append.mp hblock
  obtain ⟨hnops, hend⟩ := holds_append.mp hrest
  rw [length_nopTokens] at hend
  obtain ⟨nodeName, r₁⟩ := @Node.runs m (dtb + offStrings) t.root.flatten.length t.root _ 0 hroot hok
    (by omega) le_rfl (by omega)
  have r₂ := @runs_nopTokens m (dtb + offStrings) t.root.flatten.length _ _ hnops (by omega) nodeName
  obtain ⟨n, hn⟩ := r₁.trans r₂
  refine ⟨t.root.flatten.length + 1 + n, fun fuel hfuel => ?_, ?_⟩
  · obtain ⟨fuel, rfl⟩ := Nat.exists_eq_add_of_le hfuel
    -- the last round meets `FDT_END`
    have hlast : traverseLoop m (dtb + offStrings) (t.root.flatten.length + fuel + 1)
        ⟨dtb + offStruct + t.root.flatten.length + 4 * t.nops, nodeName⟩ = some [] := by
      rw [traverseLoop]
      simp only [traverseStep, bswap32_load hend (show FDT_END < 2 ^ 32 by norm_num)]
      rw [if_neg (by decide), if_neg (by decide), if_pos trivial]
      rfl
    have hrun := hn (t.root.flatten.length + fuel + 1) (by omega)
    rw [hlast, List.append_nil] at hrun
    rw [fdtTraverse, bswap32_load h.magic (by norm_num), if_neg (by decide),
      bswap32_load h.off_dt_struct h.offStruct_lt, bswap32_load h.off_dt_strings h.offStrings_lt]
    dsimp only
    rw [ptrAdd_of_lt (by omega), ptrAdd_of_lt (by omega),
      show t.root.flatten.length + 1 + n + fuel = t.root.flatten.length + fuel + 1 + n by omega, hrun,
      Option.map_some, List.append_nil]
  · exact Node.calls_deliver t.root hroot hnul fun x hx p hp => (hname x hx p hp).1

/-- The bytes of a blob: header, structure block and strings block. -/
def DeviceTree.blob (t : DeviceTree) : List UInt8 :=
  be32 FDT_MAGIC ++ (be32 (40 + t.flatten.length + t.strings.length) ++ (be32 40 ++
    (be32 (40 + t.flatten.length) ++ (List.replicate 24 0 ++ (t.flatten ++ t.strings)))))

theorem DeviceTree.length_blob (t : DeviceTree) :
    t.blob.length = 40 + t.flatten.length + t.strings.length := by
  simp only [DeviceTree.blob, List.length_append, length_be32, List.length_replicate]
  omega

/-- A blob that is small enough for its header is a device tree in memory. -/
theorem DeviceTree.placed (h : Holds m dtb t.blob) (hlen : t.blob.length < 2 ^ 32)
    (hdtb : dtb + 2 ^ 32 < 2 ^ 64) : Placed m dtb 40 (40 + t.flatten.length) t := by
  rw [t.length_blob] at hlen
  rw [DeviceTree.blob] at h
  obtain ⟨hmagic, h⟩ := holds_append.mp h
  obtain ⟨-, h⟩ := holds_append.mp h
  obtain ⟨hstruct, h⟩ := holds_append.mp h
  obtain ⟨hstrings, h⟩ := holds_append.mp h
  obtain ⟨-, h⟩ := holds_append.mp h
  obtain ⟨hblock, hblock'⟩ := holds_append.mp h
  simp only [length_be32, List.length_replicate, Nat.add_assoc, Nat.reduceAdd] at *
  exact ⟨hmagic, hstruct, hstrings, by omega, by omega, hblock, hblock', by omega, by omega, by omega⟩

/-- A root node and a node `soc1`, each with a property. The first value is a token, and the length of
    `soc1` is a multiple of 4. -/
def socTree : DeviceTree where
  root := .mk 0 [] [⟨1, 0, [0x72], be32 FDT_BEGIN_NODE⟩]
    [.mk 0 [0x73, 0x6f, 0x63, 0x31] [⟨0, 2, [0x73], [0x01]⟩] [] 1] 0
  nops := 0
  strings := [0x72, 0, 0x73, 0]

theorem traverse_exact_soc : ∃ bound, ∀ fuel ≥ bound,
    fdtTraverse fuel (ofBytes socTree.blob) 0 = some [⟨56, 44, 112⟩, ⟨84, 72, 114⟩] := by
  have hblob : Holds (ofBytes socTree.blob) 0 socTree.blob :=
    holds_ofBytes fun i _ => by rw [Nat.zero_add]
  have hplaced : Placed (ofBytes socTree.blob) 0 40 (40 + socTree.flatten.length) socTree :=
    DeviceTree.placed hblob (by decide +kernel) (by norm_num)
  have hnamed : socTree.Named := by
    unfold DeviceTree.Named
    decide +kernel
  have hcalls : socTree.root.calls (0 + (40 + socTree.flatten.length)) (0 + 40) =
      [⟨56, 44, 112⟩, ⟨84, 72, 114⟩] := by decide +kernel
  obtain ⟨bound, hbound, -⟩ := traverse_exact hplaced hnamed (by decide +kernel)
  rw [hcalls] at hbound
  exact ⟨bound, hbound⟩

/-! ## A name of `2 ^ 31` bytes -/

/-- A root node with one property. -/
def longTree (name : List UInt8) : DeviceTree where
  root := .mk 0 name [⟨0, 0, [0x70], []⟩] [] 0
  nops := 0
  strings := [0x70, 0]

/-- The tree at `2 ^ 31`, and a word with the value of `FDT_END` at 44. -/
def longMem (name : List UInt8) : Mem := fun x =>
  if x < 2 ^ 31 then (if x = 47 then 9 else 0) else ofBytes (longTree name).blob (x - 2 ^ 31)

theorem longTree_length (name : List UInt8) :
    (longTree name).flatten.length = 4 + (name.length + 4) / 4 * 4 + 12 + 4 + 4 := by
  simp only [DeviceTree.flatten, longTree, Node.flatten, Node.flattenAll, nopTokens, List.flatMap_cons,
    List.flatMap_nil, List.length_append, List.length_nil, length_be32, length_pad4,
    Property.length_flatten, List.length_singleton]
  omega

theorem longTree_placed {name : List UInt8} (hlen : name.length = 2 ^ 31) :
    Placed (longMem name) (2 ^ 31) 40 (40 + (longTree name).flatten.length) (longTree name) := by
  have hflat := longTree_length name
  refine DeviceTree.placed (holds_ofBytes fun i _ => ?_) ?_ (by norm_num)
  · unfold longMem
    rw [if_neg (by omega), Nat.add_sub_cancel_left]
  · rw [DeviceTree.length_blob, show (longTree name).strings.length = 2 from rfl]
    omega

/-- From the name the loop goes back to the word at 44, and ends. -/
theorem traverse_astray {name : List UInt8} (hlen : name.length = 2 ^ 31) (hnul : 0 ∉ name)
    (fuel : ℕ) : fdtTraverse fuel (longMem name) (2 ^ 31) = none ∨
      fdtTraverse fuel (longMem name) (2 ^ 31) = some [] := by
  have h := longTree_placed hlen
  have hflat := longTree_length name
  have hblock := h.structBlock
  rw [DeviceTree.flatten, longTree, Node.flatten, nopTokens, List.nil_append, List.append_assoc,
    holds_append, List.append_assoc, holds_append, length_be32] at hblock
  obtain ⟨htoken, hname, -⟩ := hblock
  have hstr : HoldsStr (longMem name) (2 ^ 31 + 40 + 4) name := ⟨(holds_append.mp hname).1, hnul⟩
  have hend : Holds (longMem name) 44 (be32 FDT_END) := ⟨rfl, rfl, rfl, rfl, trivial⟩
  rw [fdtTraverse, bswap32_load h.magic (by norm_num), if_neg (by decide),
    bswap32_load h.off_dt_struct h.offStruct_lt, bswap32_load h.off_dt_strings h.offStrings_lt]
  dsimp only
  rw [ptrAdd_of_lt (by omega), ptrAdd_of_lt (by omega)]
  have hback : ptrAdd (ptrAdd (2 ^ 31 + 40) (4 * (alignInt (toInt ((2 ^ 31 : ℕ) : ℤ)) / 4))) 4 = 44 := by
    decide
  generalize 2 ^ 31 + (40 + (longTree name).flatten.length) = stringSp
  have hstep : ∀ fuel, traverseStep (longMem name) stringSp fuel ⟨2 ^ 31 + 40, 0⟩ =
      if name.length < fuel then some ([], some ⟨44, 2 ^ 31 + 40 + 4⟩) else none := by
    intro fuel
    simp only [traverseStep, bswap32_load htoken (show FDT_BEGIN_NODE < 2 ^ 32 by norm_num)]
    rcases Nat.lt_or_ge name.length fuel with hfuel | hfuel
    · rw [strlen_spec hstr hfuel, if_pos hfuel, hlen]
      show some ([], some (Cursor.mk (ptrAdd (ptrAdd _ _) 4) _)) = _
      rw [hback]
    · rw [strlen, readStr_eq_none hstr hfuel, if_neg (Nat.not_lt.mpr hfuel)]
      rfl
  have hlast : ∀ fuel nodeName, traverseStep (longMem name) stringSp fuel ⟨44, nodeName⟩ =
      some ([], none) := by
    intro fuel nodeName
    simp only [traverseStep, bswap32_load hend (show FDT_END < 2 ^ 32 by norm_num)]
    rfl
  rcases fuel with _ | _ | fuel
  · exact .inl rfl
  · rw [traverseLoop, hstep, if_neg (by omega)]
    exact .inl rfl
  · rw [traverseLoop, hstep]
    split
    · simp only [bind, Option.bind]
      rw [traverseLoop, hlast]
      exact .inr rfl
    · exact .inl rfl

/-- The tree has one property, and no call is made for it. -/
theorem traverse_long_name :
    Placed (longMem (List.replicate (2 ^ 31) 0x61)) (2 ^ 31) 40
        (40 + (longTree (List.replicate (2 ^ 31) 0x61)).flatten.length)
        (longTree (List.replicate (2 ^ 31) 0x61)) ∧
      (longTree (List.replicate (2 ^ 31) 0x61)).Named ∧
      (longTree (List.replicate (2 ^ 31) 0x61)).root.properties.length = 1 ∧
      ∀ fuel, fdtTraverse fuel (longMem (List.replicate (2 ^ 31) 0x61)) (2 ^ 31) = none ∨
        fdtTraverse fuel (longMem (List.replicate (2 ^ 31) 0x61)) (2 ^ 31) = some [] := by
  have hlen : (List.replicate (2 ^ 31) (0x61 : UInt8)).length = 2 ^ 31 := List.length_replicate
  have hnul : (0 : UInt8) ∉ List.replicate (2 ^ 31) (0x61 : UInt8) := by
    intro h0
    exact absurd (List.eq_of_mem_replicate h0) (by decide)
  generalize List.replicate (2 ^ 31) (0x61 : UInt8) = name at hlen hnul
  refine ⟨longTree_placed hlen, ⟨?_, ?_⟩, rfl, traverse_astray hlen hnul⟩
  · intro x hx
    rw [List.mem_singleton.mp hx]
    exact hnul
  · intro x hx
    rw [List.mem_singleton.mp hx]
    exact ⟨show (0 : UInt8) ∉ [0x70] by decide, show 0 < 2 ^ 32 by norm_num, List.prefix_rfl⟩

end RaspiKernel.Boot
