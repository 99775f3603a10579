import HuyaOS.Filesystem.Path
import HuyaOS.Lib.Chain
import HuyaOS.Lib.NameTree
import HuyaOS.Util.ArrayListRuns
import HuyaOS.Util.StringRuns

/-!
`RamFsDriver`, a filesystem of `VirtualNode`s. The nodes are kept at their
addresses; a call that allocates a node is given its address. Only what the tree
is made of is modelled here, not the data of the files.

The nodes form a tree of names: paths are looked up token by token, and the check
that all but the last token lead to directories never matters, since nothing else
has children.
-/

namespace HuyaOS.Filesystem

open Lib Function List Option ArrayList

/-- The file types that the driver tells apart from others. -/
def DIRECTORY_FILE : UInt8 := 4

structure VirtualNode where
  name : String
  fileType : UInt8
  children : ArrayList Nat

def VirtualNode.new (name : String) (fileType : UInt8) : VirtualNode :=
  ⟨name.copy, fileType, ArrayList.new (fun _ => 0) 0⟩

def VirtualNode.getName (node : VirtualNode) : String := node.name.copy

/-- What a node keeps when its children change. -/
def VirtualNode.label (node : VirtualNode) : String × UInt8 := (node.name, node.fileType)

structure RamFsDriver where
  heap : Heap VirtualNode
  rootNode : Option Nat

namespace RamFsDriver

/-- `mount`, with the address of the root -/
def mount (root : Nat) : RamFsDriver :=
  ⟨update (fun _ => none) root (some (.new SEPARATOR DIRECTORY_FILE)), some root⟩

section Lookup

variable (heap : Heap VirtualNode)

/-- The loop of `getChildByName`, with `left` rounds left. -/
def getChildLoop (children : ArrayList Nat) (path : String) :
    Nat → Nat → Except Cpu.Stop (Option Nat)
  | 0, _ => .ok none
  | left + 1, i => do
      let child ← children.get i
      let node ← Cpu.deref heap (some child)
      if ← node.getName.equals path then return some child
        else getChildLoop children path left (i + 1)

def getChildByName (parent : Option Nat) (path : String) : Except Cpu.Stop (Option Nat) := do
  let parent ← Cpu.deref heap parent
  getChildLoop heap parent.children path parent.children.size 0

/-- The loop over the tokens that have to lead to directories. It gives no result
where its function returns early. -/
def descend : Option Nat → List String → Except Cpu.Stop (Option Nat)
  | currentDir, [] => .ok currentDir
  | currentDir, token :: tokens => do
      match ← getChildByName heap currentDir token with
      | none => return none
      | some child =>
          let node ← Cpu.deref heap (some child)
          if node.fileType != DIRECTORY_FILE then return none else descend (some child) tokens

/-- `delete node`. The destructor deletes the children first. -/
def destroy : Nat → Heap VirtualNode → Nat → Except Cpu.Stop (Heap VirtualNode)
  | 0, _, _ => .error .endlessLoop
  | depth + 1, heap, a => do
      let node ← Cpu.deref heap (some a)
      let heap ← node.children.toArray.foldlM (fun heap child => destroy depth heap child) heap
      return update heap a none

end Lookup

variable (fs : RamFsDriver) (fresh : Nat → UInt8)

def getNode (path : String) : Except Cpu.Stop (Option Nat) := do
  if path.len = 0 then return fs.rootNode
  else
    let token ← path.split SEPARATOR 0 fresh
    match token.getLast? with
    | none => return fs.rootNode
    | some last =>
        match ← descend fs.heap fs.rootNode token.dropLast with
        | none => return none
        | some currentDir => getChildByName fs.heap (some currentDir) last

def newNode (node : Nat) (name : String) (fileType : UInt8) : RamFsDriver :=
  { fs with heap := update fs.heap node (some (.new name fileType)) }

def setChildren (heap : Heap VirtualNode) (a : Nat) (dir : VirtualNode) (children : ArrayList Nat) :
    Heap VirtualNode :=
  update heap a (some { dir with children })

def addChild (currentDir node : Nat) : Except Cpu.Stop RamFsDriver := do
  let dir ← Cpu.deref fs.heap (some currentDir)
  return { fs with heap := setChildren fs.heap currentDir dir (dir.children.add node) }

def addNode (path : String) (node : Nat) : Except Cpu.Stop (Bool × RamFsDriver) := do
  let token ← path.split SEPARATOR 0 fresh
  match ← descend fs.heap fs.rootNode token with
  | none => return (false, fs)
  | some currentDir =>
      let virtualNode ← Cpu.deref fs.heap (some node)
      if (← getChildByName fs.heap (some currentDir) virtualNode.getName).isSome then
        return (false, fs)
      else return (true, ← fs.addChild currentDir node)

/-- `createNode`. Without a token the index of the last one wraps around, and the
first access stops. -/
def createNode (node : Nat) (path : String) (fileType : UInt8) :
    Except Cpu.Stop (Bool × RamFsDriver) := do
  let token ← path.split SEPARATOR 0 fresh
  if 0 < path.len ∧ token = [] then return (false, fs)
  else match token.getLast? with
    | none => throw (.throwException .OUT_OF_BOUNDS)
    | some last =>
        match ← descend fs.heap fs.rootNode token.dropLast with
        | none => return (false, fs)
        | some currentDir =>
            if (← getChildByName fs.heap (some currentDir) last).isSome then return (false, fs)
            else return (true, ← (fs.newNode node last fileType).addChild currentDir node)

/-- The end of `deleteNode`, once the node is found. A node with children is deleted
as well, but not taken out of the children of its directory. -/
def deleteFound (depth currentDir a : Nat) : Except Cpu.Stop (Bool × RamFsDriver) := do
  let node ← Cpu.deref fs.heap (some a)
  if !node.children.isEmpty then return (false, { fs with heap := ← destroy depth fs.heap a })
  else
    let dir ← Cpu.deref fs.heap (some currentDir)
    let (_, children) ← dir.children.remove a
    return (true,
      { fs with heap := ← destroy depth (setChildren fs.heap currentDir dir children) a })

def deleteNode (depth : Nat) (path : String) : Except Cpu.Stop (Bool × RamFsDriver) := do
  let token ← path.split SEPARATOR 0 fresh
  if 0 < path.len ∧ token = [] then return (false, fs)
  else match token.getLast? with
    | none => throw (.throwException .OUT_OF_BOUNDS)
    | some last =>
        match ← descend fs.heap fs.rootNode token.dropLast with
        | none => return (false, fs)
        | some currentDir =>
            match ← getChildByName fs.heap (some currentDir) last with
            | none => return (false, fs)
            | some a => fs.deleteFound depth currentDir a

def kids (heap : Heap VirtualNode) (a : Nat) : List Nat :=
  (heap a).elim [] fun node => node.children.toArray

def nameOf (heap : Heap VirtualNode) (a : Nat) : List UInt8 :=
  (heap a).elim [] fun node => node.name.chars

def isDirectory (heap : Heap VirtualNode) (a : Nat) : Bool :=
  (heap a).elim false fun node => node.fileType == DIRECTORY_FILE

def childOf (heap : Heap VirtualNode) : Nat → List UInt8 → Option Nat :=
  child (kids heap) (nameOf heap)

/-- The nodes below the root form a tree of allocated nodes, in which only
directories have children. There may be other nodes that are not in the tree. -/
structure Tree (fs : RamFsDriver) (root : Nat) : Prop where
  rootNode : fs.rootNode = some root
  directory_root : isDirectory fs.heap root = true
  isTree : IsTree (kids fs.heap) (nameOf fs.heap) root
  allocated : ∀ a, ∀ c ∈ kids fs.heap a, fs.heap c ≠ none
  directory : ∀ a c, c ∈ kids fs.heap a → isDirectory fs.heap a = true
  wellFormed : ∀ a node, fs.heap a = some node → node.name.WellFormed

theorem kids_update (heap : Heap VirtualNode) (a : Nat) (node : Option VirtualNode) :
    kids (update heap a node) = update (kids heap) a (node.elim [] fun node =>
      node.children.toArray) :=
  comp_update (fun node : Option VirtualNode => node.elim [] fun node =>
    node.children.toArray) heap a node

variable {heap : Heap VirtualNode} {a : Nat} {node : VirtualNode}

theorem kids_of_some (h : heap a = some node) : kids heap a = node.children.toArray := by
  unfold kids
  rw [h]
  rfl

theorem nameOf_of_some (h : heap a = some node) : nameOf heap a = node.name.chars := by
  unfold nameOf
  rw [h]
  rfl

theorem isDirectory_of_some (h : heap a = some node) :
    isDirectory heap a = (node.fileType == DIRECTORY_FILE) := by
  unfold isDirectory
  rw [h]
  rfl

section Label

variable {heap heap' : Heap VirtualNode} {a : Nat}
  (h : (heap' a).map VirtualNode.label = (heap a).map VirtualNode.label)

include h

theorem nameOf_congr : nameOf heap' a = nameOf heap a := by
  have heq := congrArg (fun label => label.elim [] fun label => label.1.chars) h
  rwa [elim_map, elim_map] at heq

theorem isDirectory_congr : isDirectory heap' a = isDirectory heap a := by
  have heq := congrArg (fun label => label.elim false fun label => label.2 == DIRECTORY_FILE) h
  rwa [elim_map, elim_map] at heq

theorem eq_none_congr : heap' a = none ↔ heap a = none := by
  rw [← map_eq_none_iff, h, map_eq_none_iff]

theorem name_congr {node : VirtualNode} (ha : heap' a = some node) :
    ∃ node', heap a = some node' ∧ node'.name = node.name := by
  rw [ha, map_some, eq_comm, map_eq_some_iff] at h
  obtain ⟨node', hnode', hlabel⟩ := h
  exact ⟨node', hnode', congrArg Prod.fst hlabel⟩

end Label

section SetChildren

variable {heap : Heap VirtualNode} {d : Nat} {dir : VirtualNode} (hd : heap d = some dir)
  (children : ArrayList Nat)

include hd

omit hd in
theorem kids_setChildren :
    kids (setChildren heap d dir children) = update (kids heap) d children.toArray :=
  kids_update _ _ _

theorem label_setChildren (a : Nat) :
    (setChildren heap d dir children a).map VirtualNode.label = (heap a).map VirtualNode.label := by
  unfold setChildren
  rw [update_apply]
  split
  · rename_i heq
    rw [heq, hd]
    rfl
  · rfl

end SetChildren

section Lookups

variable {fs : RamFsDriver} {root a : Nat}

variable {path : String} {heap : Heap VirtualNode}

theorem getChildLoop_eq {children : ArrayList Nat}
    (hchildren : ∀ c ∈ children.toArray, ∃ node, heap c = some node ∧ node.name.WellFormed)
    (hpath : path.WellFormed) {left i : Nat} (hleft : i + left = children.length) :
    getChildLoop heap children path left i =
      .ok ((children.toArray.drop i).find? fun c => nameOf heap c = path.chars) := by
  induction left generalizing i with
  | zero =>
    rw [drop_eq_nil_of_le (by rw [length_toArray]; omega)]
    rfl
  | succ left ih =>
    have hi : i < children.toArray.length := by rw [length_toArray]; omega
    have hget : children.get i = .ok children.toArray[i] := by
      rw [get_eq, getElem?_eq_getElem hi]
      rfl
    obtain ⟨node, hnode, hname⟩ := hchildren _ (getElem_mem hi)
    rw [getChildLoop, hget, drop_eq_getElem_cons hi]
    simp only [bind, Except.bind, Cpu.deref_some hnode]
    rw [VirtualNode.getName, hname.copy.equals hpath, find?_cons, nameOf_of_some hnode]
    by_cases heq : node.name.chars = path.chars
    · have hbeq : (node.name.copy.chars == path.chars) = true := beq_iff_eq.mpr heq
      simp only [hbeq, heq, decide_true]
      rfl
    · have hbeq : (node.name.copy.chars == path.chars) = false := beq_eq_false_iff_ne.mpr heq
      simp only [hbeq, heq, decide_false]
      exact ih (by omega)

variable (h : fs.Tree root)

include h

theorem Tree.getChildByName_eq (ha : fs.heap a ≠ none) (hpath : path.WellFormed) :
    getChildByName fs.heap (some a) path = .ok (childOf fs.heap a path.chars) := by
  obtain ⟨node, hnode⟩ := ne_none_iff_exists'.mp ha
  have hchildren : ∀ c ∈ node.children.toArray, ∃ child, fs.heap c = some child ∧
      child.name.WellFormed := by
    intro c hc
    obtain ⟨child, hchild⟩ := ne_none_iff_exists'.mp (h.allocated a c (kids_of_some hnode ▸ hc))
    exact ⟨child, hchild, h.wellFormed c child hchild⟩
  unfold getChildByName
  rw [Cpu.deref_some hnode]
  simp only [bind, Except.bind]
  rw [size, getChildLoop_eq hchildren hpath (Nat.zero_add _), drop_zero, childOf, child,
    kids_of_some hnode]

theorem Tree.childOf_mem {n : List UInt8} {c : Nat} (hc : childOf fs.heap a n = some c) :
    c ∈ kids fs.heap a :=
  (h.isTree.child_eq_some_iff.mp hc).1

omit h in
theorem ne_none_of_isDirectory (ha : isDirectory heap a = true) : heap a ≠ none := by
  intro hnone
  unfold isDirectory at ha
  rw [hnone] at ha
  cases ha

theorem Tree.childOf_eq_none (ha : isDirectory fs.heap a = false) (n : List UInt8) :
    childOf fs.heap a n = none := by
  rw [eq_none_iff_forall_ne_some]
  intro c hc
  have hdir := h.directory a c (h.childOf_mem hc)
  rw [ha] at hdir
  cases hdir

theorem Tree.descend_eq (ha : isDirectory fs.heap a = true) {tokens : List (List UInt8)}
    (hzero : ∀ t ∈ tokens, 0 ∉ t) :
    descend fs.heap (some a) (tokens.map .ofChars) =
      .ok ((follow (childOf fs.heap) a tokens).filter (isDirectory fs.heap)) := by
  induction tokens generalizing a with
  | nil =>
    change Except.ok (some a) = Except.ok ((some a).filter _)
    rw [filter_some_pos ha]
  | cons token tokens ih =>
    obtain ⟨htoken, htokens⟩ := forall_mem_cons.mp hzero
    rw [map_cons, descend, h.getChildByName_eq (ne_none_of_isDirectory ha)
      (String.wellFormed_ofChars.mpr htoken), follow, String.chars_ofChars]
    cases hchild : childOf fs.heap a token with
    | none => rfl
    | some c =>
      obtain ⟨node, hnode⟩ := ne_none_iff_exists'.mp (h.allocated a c (h.childOf_mem hchild))
      simp only [bind, Except.bind, Cpu.deref_some hnode, bind_some]
      rw [bne, ← isDirectory_of_some hnode]
      cases hdir : isDirectory fs.heap c with
      | true => exact ih hdir htokens
      | false =>
        cases tokens with
        | nil => exact congrArg Except.ok (filter_some_neg hdir).symm
        | cons token tokens =>
          rw [follow, h.childOf_eq_none hdir]
          rfl

omit h in
theorem zero_notMem_of_mem_components (hpath : path.WellFormed) :
    ∀ t ∈ components slash path.chars, 0 ∉ t :=
  fun _ ht hzero => hpath.not_mem (mem_of_mem_components ht hzero)

section Tokens

variable {path : String} (hpath : path.WellFormed) {ns : List (List UInt8)} {n : List UInt8}
  (hparts : components slash path.chars = ns ++ [n])

include hpath hparts

omit h in
theorem wellFormed_last : (String.ofChars n).WellFormed := by
  apply String.wellFormed_ofChars.mpr
  apply zero_notMem_of_mem_components hpath
  rw [hparts]
  exact mem_append_right _ (mem_singleton_self n)

theorem Tree.descend_dropLast :
    descend fs.heap fs.rootNode (ns.map .ofChars) =
      .ok ((follow (childOf fs.heap) root ns).filter (isDirectory fs.heap)) := by
  rw [h.rootNode]
  apply h.descend_eq h.directory_root
  intro t ht
  apply zero_notMem_of_mem_components hpath
  rw [hparts]
  exact mem_append_left _ ht

end Tokens

theorem Tree.getNode_eq (fresh : Nat → UInt8) (hpath : path.WellFormed) :
    fs.getNode fresh path = .ok (follow (childOf fs.heap) root (components slash path.chars)) := by
  unfold getNode
  rw [SEPARATOR, String.split_char]
  rcases eq_nil_or_concat' (components slash path.chars) with hparts | ⟨ns, n, hparts⟩
  · rw [hparts, h.rootNode]
    split <;> rfl
  · have hlen : path.len ≠ 0 := by
      intro hlen
      rw [eq_nil_of_length_eq_zero hlen] at hparts
      cases ns <;> cases hparts
    rw [if_neg hlen, hparts, follow_concat]
    simp only [bind, Except.bind, map_append, map_cons, map_nil, getLast?_concat,
      dropLast_concat, h.descend_dropLast hpath hparts]
    cases hdir : follow (childOf fs.heap) root ns with
    | none => rfl
    | some d =>
      cases hd : isDirectory fs.heap d with
      | true =>
        rw [filter_some_pos hd]
        exact h.getChildByName_eq (ne_none_of_isDirectory hd) (wellFormed_last hpath hparts)
      | false =>
        rw [filter_some_neg hd, bind_some, h.childOf_eq_none hd]
        rfl

end Lookups

end RamFsDriver

end HuyaOS.Filesystem
