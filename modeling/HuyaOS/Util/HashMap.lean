import HuyaOS.Lib.PartialMap
import HuyaOS.Util.ArrayList

/-!
`HashMap`, a table of chains. The chain of a key is found through the number
that the key is cast to, modulo the size of the table. Keys are compared with
their own `operator==`. The table is created with empty chains by the first call
that needs it, also if that call is `const`.
-/

namespace HuyaOS

structure HashMap (K V : Type) where
  table : Nat → List (K × V)
  tableSize : Nat
  isInitialized : Bool
  count : Nat

namespace HashMap

variable {K V : Type} (code : K → Nat)

def DEFAULT_TABLE_SIZE : Nat := 47

/-- `HashMap(tableSize)`. The pointer to the table leads to `garbage`. -/
def ofSize (garbage : Nat → List (K × V)) (tableSize : Nat) : HashMap K V :=
  ⟨garbage, tableSize, false, 0⟩

def new (K V : Type) : HashMap K V := ofSize (fun _ => []) DEFAULT_TABLE_SIZE

/-- `if (!isInitialized) initialize()` -/
def initialized (map : HashMap K V) : HashMap K V :=
  if map.isInitialized then map else { map with table := fun _ => [], isInitialized := true }

def chain (map : HashMap K V) (key : K) : List (K × V) := map.table (code key % map.tableSize)

def setChain (map : HashMap K V) (key : K) (nodes : List (K × V)) (count : Nat) : HashMap K V :=
  { map with table := Function.update map.table (code key % map.tableSize) nodes, count }

section Operations

variable [BEq K]

def getNode (key : K) : List (K × V) → Option V
  | [] => none
  | (k, v) :: rest => if k == key then some v else getNode key rest

def putNode (key : K) (value : V) : List (K × V) → List (K × V)
  | [] => [(key, value)]
  | (k, v) :: rest => if k == key then (k, value) :: rest else (k, v) :: putNode key value rest

def removeNode (key : K) : List (K × V) → Option (V × List (K × V))
  | [] => none
  | (k, v) :: rest =>
      if k == key then some (v, rest)
      else match removeNode key rest with
        | none => none
        | some (w, rest') => some (w, (k, v) :: rest')

def put (map : HashMap K V) (key : K) (value : V) : HashMap K V :=
  let map := map.initialized
  let count := match getNode key (map.chain code key) with
    | none => (map.count + 1) % 2 ^ 32
    | some _ => map.count
  map.setChain code key (putNode key value (map.chain code key)) count

def get (map : HashMap K V) (key : K) : Except Cpu.Stop V :=
  match getNode key (map.initialized.chain code key) with
  | none => .error (.throwException .KEY_NOT_FOUND)
  | some value => .ok value

def remove (map : HashMap K V) (key : K) : Except Cpu.Stop (V × HashMap K V) :=
  let map := map.initialized
  match removeNode key (map.chain code key) with
  | none => .error (.throwException .KEY_NOT_FOUND)
  | some (value, nodes) =>
      .ok (value, map.setChain code key nodes ((map.count + 2 ^ 32 - 1) % 2 ^ 32))

/-- `containsKey`, which does not create the table. -/
def containsKey (map : HashMap K V) (key : K) : Bool :=
  map.isInitialized && (getNode key (map.chain code key)).isSome

end Operations

def clear (map : HashMap K V) : HashMap K V :=
  let map := map.initialized
  { map with table := fun i => if i < map.tableSize then [] else map.table i, count := 0 }

def size (map : HashMap K V) : Nat := map.count

def keySet [Inhabited K] (map : HashMap K V) : List K :=
  let addKeys (keyList : ArrayList K) (nodes : List (K × V)) : ArrayList K :=
    nodes.foldl (fun keyList node => keyList.add node.1) keyList
  ((List.range map.tableSize).foldl (fun keyList i => addKeys keyList (map.initialized.table i))
    (ArrayList.new (fun _ => default) 0)).toArray

@[simp] theorem tableSize_initialized (map : HashMap K V) :
    map.initialized.tableSize = map.tableSize := by
  unfold initialized
  split <;> rfl

@[simp] theorem initialized_initialized (map : HashMap K V) :
    map.initialized.initialized = map.initialized := by
  unfold initialized
  split
  · rfl
  · rfl

theorem initialized_setChain (map : HashMap K V) (key : K) (nodes : List (K × V)) (count : Nat) :
    (map.initialized.setChain code key nodes count).initialized =
      map.initialized.setChain code key nodes count := by
  apply if_pos
  unfold initialized
  split
  · assumption
  · rfl

theorem chain_setChain (map : HashMap K V) (key : K) (nodes : List (K × V)) (count : Nat) :
    (map.setChain code key nodes count).chain code key = nodes :=
  Function.update_self _ _ _

section Put

variable [BEq K] {key : K} {value : V}

theorem getNode_putNode_self [ReflBEq K] (key : K) (value : V) (nodes : List (K × V)) :
    getNode key (putNode key value nodes) = some value := by
  induction nodes with
  | nil => simp [putNode, getNode]
  | cons node rest ih =>
    unfold putNode
    split
    · rename_i hkey
      simp [getNode, hkey]
    · rename_i hkey
      simpa [getNode, hkey] using ih

theorem removeNode_of_getNode {nodes : List (K × V)} (hget : getNode key nodes = some value) :
    ∃ nodes', removeNode key nodes = some (value, nodes') := by
  induction nodes with
  | nil => cases hget
  | cons node rest ih =>
    unfold getNode at hget
    unfold removeNode
    split at hget
    · rename_i hkey
      cases hget
      exact ⟨rest, if_pos hkey⟩
    · rename_i hkey
      obtain ⟨nodes', hremove⟩ := ih hget
      exact ⟨(node.1, node.2) :: nodes', by rw [if_neg hkey, hremove]⟩

theorem get_put [ReflBEq K] (map : HashMap K V) (key : K) (value : V) :
    (map.put code key value).get code key = .ok value := by
  unfold get put
  rw [initialized_setChain, chain_setChain, getNode_putNode_self]

theorem remove_of_get {map : HashMap K V} (hget : map.get code key = .ok value) :
    ∃ map', map.remove code key = .ok (value, map') := by
  unfold get at hget
  unfold remove
  cases hnode : getNode key (map.initialized.chain code key) with
  | none =>
    rw [hnode] at hget
    cases hget
  | some value' =>
    rw [hnode] at hget
    cases hget
    obtain ⟨nodes', hremove⟩ := removeNode_of_getNode hnode
    exact ⟨map.initialized.setChain code key nodes' ((map.initialized.count + 2 ^ 32 - 1) % 2 ^ 32),
      by simp only [hremove]⟩

end Put

end HashMap

end HuyaOS
