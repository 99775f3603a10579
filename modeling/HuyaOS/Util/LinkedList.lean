import HuyaOS.Cpu
import HuyaOS.Lib.Chain
import HuyaOS.Lib.Transition

/-!
`LinkedBlockingQueue` and `LinkedList`, which share their nodes. The state of a
list holds the nodes that it has allocated, at their addresses; a call that
allocates is given the addresses of the new nodes.

Compared with lists, `push`, `pop` and `remove(index)` are right. The loop of
`remove(element)` does not advance: it looks at the second node only, and for ever
if that is not the one. If it is also the last node, `tail` is left with a pointer
to the deleted node. `add(index, element)` inserts behind the position instead of
at it, does not move `tail`, inserts nothing behind the last position, and inserts
twice into an empty list.
-/

namespace HuyaOS

open Lib Function Cpu List Prod

structure LinkedList (T : Type) where
  heap : Heap (Cell T)
  head : Option Nat
  tail : Option Nat
  length : Nat

namespace LinkedList

variable {T : Type}

def new (T : Type) : LinkedList T := ⟨fun _ => none, none, none, 0⟩

variable (list : LinkedList T)

/-- `new Node(element)`, at the address `node` -/
def newNode (node : Nat) (element : T) : LinkedList T :=
  { list with heap := update list.heap node (some ⟨element, none⟩) }

def setNext (pointer next : Option Nat) : Except Stop (LinkedList T) :=
  match pointer with
  | none => .error .nullPointer
  | some a => do
      let cell ← deref list.heap (some a)
      return { list with heap := update list.heap a (some ⟨cell.element, next⟩) }

def delete : Option Nat → LinkedList T
  | none => list
  | some a => { list with heap := update list.heap a none }

def increment : LinkedList T := { list with length := (list.length + 1) % 2 ^ 32 }

def decrement : LinkedList T :=
  { list with length := if list.length = 0 then 2 ^ 32 - 1 else list.length - 1 }

theorem length_increment : list.increment.length = (list.length + 1) % 2 ^ 32 := rfl

theorem length_decrement {list : LinkedList T} (h : list.length ≠ 0) :
    list.decrement.length = list.length - 1 :=
  if_neg h

def isEmpty : Bool := list.length == 0

def push (node : Nat) (element : T) : Except Stop (LinkedList T) := do
  let list := list.newNode node element
  if list.head.isNone then return increment { list with head := some node, tail := some node }
  else
    let list ← list.setNext list.tail (some node)
    return increment { list with tail := some node }

/-- `pop`, which waits for an element -/
def pop : Except Stop (T × LinkedList T) := do
  if list.isEmpty then throw .endlessLoop
  else
    let cell ← deref list.heap list.head
    return (cell.element, decrement { list.delete list.head with head := cell.next })

/-- The loop of `remove(element)`. It never leaves its first node, the head, whose
successor is `next`: a round that does not find the element changes nothing and is
repeated. -/
def removeNext [BEq T] (list : LinkedList T) (element : T) (next : Option Nat) :
    Except Stop (Bool × LinkedList T) := do
  let tmp ← deref list.heap next
  if tmp.element == element then
    let list ← list.setNext list.head tmp.next
    return (true, (list.delete next).decrement)
  else throw .endlessLoop

def remove [BEq T] (list : LinkedList T) (element : T) : Except Stop (Bool × LinkedList T) := do
  if list.head.isNone then return (false, list)
  else
    let current ← deref list.heap list.head
    if current.element == element then
      let (_, list) ← list.pop
      return (true, list)
    else list.removeNext element current.next

/-- A new node becomes the successor of `current`. -/
def insertAfter (node : Nat) (current : Option Nat) : Except Stop (LinkedList T) := do
  let cell ← deref list.heap current
  let list ← list.setNext (some node) cell.next
  let list ← list.setNext current (some node)
  return list.increment

/-- The loop of `add(index, element)`, with `left` rounds left. -/
def addLoop (list : LinkedList T) (node index : Nat) :
    Nat → Nat → Option Nat → Except Stop (LinkedList T)
  | 0, _, _ => .ok list
  | left + 1, i, current =>
      if i = index then list.insertAfter node current
      else do
        let cell ← deref list.heap current
        list.addLoop node index left (i + 1) cell.next

/-- `add(index, element)`; `pushed` is the address of the node of the call to `push`. -/
def addAt (pushed node index : Nat) (element : T) : Except Stop (LinkedList T) := do
  let list ← if list.length < index ∨ list.head.isNone then list.push pushed element else pure list
  let list := list.newNode node element
  list.addLoop node index list.length 0 list.head

/-- The node `current`, the successor of `pred`, is taken out. -/
def unlink (pred current : Option Nat) : Except Stop (T × LinkedList T) := do
  let cell ← deref list.heap current
  let list ← list.setNext pred cell.next
  let list := if cell.next.isNone then { list with tail := pred } else list
  return (cell.element, (list.delete current).decrement)

/-- The loop of `remove(index)`, with `left` rounds left. -/
def removeLoop (list : LinkedList T) (index : Nat) :
    Nat → Nat → Option Nat → Option Nat → Except Stop (T × LinkedList T)
  | 0, _, _, _ => .error (.throwException .OUT_OF_BOUNDS)
  | left + 1, i, pred, current =>
      if i = index then list.unlink pred current
      else do
        let cell ← deref list.heap current
        list.removeLoop index left (i + 1) current cell.next

def removeAt (index : Nat) : Except Stop (T × LinkedList T) :=
  if index = 0 then list.pop else list.removeLoop index list.length 0 list.head list.head

/-- The loop of `toArray`, with `left` cells of the array left. -/
def toArrayLoop [Inhabited T] (heap : Heap (Cell T)) : Nat → Option Nat → Except Stop (List T)
  | left, none => .ok (List.replicate left default)
  | 0, some _ => .error (.throwException .OUT_OF_BOUNDS)
  | left + 1, some current => do
      let cell ← deref heap (some current)
      return cell.element :: (← toArrayLoop heap left cell.next)

def toArray [Inhabited T] (list : LinkedList T) : Except Stop (List T) :=
  toArrayLoop list.heap list.length list.head

/-- An address that `new` may return. -/
def Fresh (node : Nat) : Prop := list.heap node = none ∧ 0 < node ∧ node < 2 ^ 32

/-- The nodes of a list in their order, each with its address and element. -/
structure Holds (list : LinkedList T) (nodes : List (Nat × T)) : Prop where
  chain : Chain list.heap list.head nodes none
  nodup : (nodes.map Prod.fst).Nodup
  length : list.length = nodes.length
  range : ∀ a ∈ nodes.map Prod.fst, 0 < a ∧ a < 2 ^ 32

/-- If there is a node, `tail` leads to the last one. -/
structure Linked (list : LinkedList T) (nodes : List (Nat × T)) :
    Prop extends list.Holds nodes where
  tail : nodes ≠ [] → list.tail = (nodes.map Prod.fst).getLast?

/-- The list has the elements in its nodes. -/
def Represents (xs : List T) : Prop :=
  ∃ nodes, list.Linked nodes ∧ nodes.map Prod.snd = xs

theorem linked_new : (new T).Linked [] := ⟨⟨rfl, nodup_nil, rfl, nofun⟩, nofun⟩

section Linked

variable {list} {nodes before after : List (Nat × T)} {node a b : Nat} {x y : T}
  {list' : LinkedList T} {xs : List T} {left : Nat}

theorem length_lt (hnodup : (nodes.map fst).Nodup)
    (hrange : ∀ a ∈ nodes.map fst, 0 < a ∧ a < 2 ^ 32) :
    nodes.length < 2 ^ 32 := by
  have hsub : (nodes.map fst).toFinset ⊆ Finset.Ioo 0 (2 ^ 32) := by
    intro a ha
    exact Finset.mem_Ioo.mpr (hrange a (mem_toFinset.mp ha))
  have hcard := Finset.card_le_card hsub
  rw [toFinset_card_of_nodup hnodup, length_map, Nat.card_Ioo] at hcard
  omega

theorem Holds.fresh_notMem (h : list.Holds nodes) (hnode : list.Fresh node) :
    node ∉ nodes.map fst :=
  fun hmem => h.chain.ne_none node hmem hnode.1

theorem setNext_some {next next' : Option Nat} (h : list.heap a = some ⟨x, next⟩) :
    list.setNext (some a) next' = .ok
      { list with heap := update list.heap a (some ⟨x, next'⟩) } := by
  simp only [setNext, deref_some h]
  rfl

theorem Holds.grow (h : list.Holds (before ++ after)) (hnode : list.Fresh node)
    (hchain : Chain list'.heap list'.head (before ++ (node, x) :: after) none)
    (hlength : list'.length = list.length) :
    list'.increment.Holds (before ++ (node, x) :: after) := by
  have hnodup : ((before ++ (node, x) :: after).map fst).Nodup := by
    rw [map_append, map_cons, nodup_middle, ← map_append]
    exact nodup_cons.mpr ⟨h.fresh_notMem hnode, h.nodup⟩
  have hrange : ∀ a ∈ (before ++ (node, x) :: after).map fst, 0 < a ∧ a < 2 ^ 32 := by
    intro a ha
    rw [map_append, map_cons, mem_append, mem_cons, or_left_comm, ← mem_append, ← map_append] at ha
    rcases ha with rfl | ha
    · exact hnode.2
    · exact h.range a ha
  refine ⟨hchain, hnodup, ?_, hrange⟩
  have hlt := length_lt hnodup hrange
  have hcount := h.length
  simp only [length_append, length_cons] at hlt hcount ⊢
  rw [length_increment, hlength]
  omega

theorem Holds.shrink (h : list.Holds (before ++ (a, x) :: after))
    (hchain : Chain list'.heap list'.head (before ++ after) none)
    (hlength : list'.length = list.length) :
    list'.decrement.Holds (before ++ after) := by
  have hlt := length_lt h.nodup h.range
  have hcount := h.length
  have hnodup := h.nodup
  rw [map_append, map_cons, nodup_middle, ← map_append] at hnodup
  refine ⟨hchain, (nodup_cons.mp hnodup).2, ?_, fun b hb => h.range b ?_⟩
  · simp only [length_append, length_cons] at hcount ⊢
    rw [length_decrement (by omega)]
    omega
  · rw [map_append]
    rw [map_append] at hb
    exact mem_append.mpr ((mem_append.mp hb).imp_right (mem_cons_of_mem a))

theorem Holds.notMem (h : list.Holds (before ++ (a, x) :: after)) :
    a ∉ (before ++ after).map fst := by
  have hnodup := h.nodup
  rw [map_append, map_cons, nodup_middle, ← map_append] at hnodup
  exact (nodup_cons.mp hnodup).1

theorem toArrayLoop_eq [Inhabited T] {heap : Heap (Cell T)} {start : Option Nat}
    (h : Chain heap start nodes none) :
    toArrayLoop heap nodes.length start = .ok (nodes.map snd) := by
  induction nodes generalizing start with
  | nil =>
    cases show start = none from h
    rfl
  | cons node nodes ih =>
    obtain ⟨rfl, next, hcell, hrest⟩ := h
    rw [length_cons, toArrayLoop, deref_some hcell]
    simp only [bind, Except.bind, ih hrest]
    rfl

theorem Represents.toArray [Inhabited T] (h : list.Represents xs) : list.toArray = .ok xs := by
  obtain ⟨nodes, hlinked, rfl⟩ := h
  unfold LinkedList.toArray
  rw [hlinked.length]
  exact toArrayLoop_eq hlinked.chain

theorem Represents.eq_of_chain (h : list.Represents xs)
    (hchain : Chain list.heap list.head nodes none) :
    xs = nodes.map snd ∧ list.Linked nodes := by
  obtain ⟨nodes', hlinked, rfl⟩ := h
  cases hlinked.chain.unique hchain
  exact ⟨rfl, hlinked⟩

theorem Linked.push (h : list.Linked nodes) (hnode : list.Fresh node) (x : T) :
    ∃ list', list.push node x = .ok list' ∧ list'.Linked (nodes ++ [(node, x)]) := by
  have hnotMem := h.fresh_notMem hnode
  have hold := h.chain.update hnotMem (some ⟨x, none⟩)
  have hnew : Chain (update list.heap node (some ⟨x, none⟩)) (some node) [(node, x)] none :=
    ⟨rfl, none, update_self _ _ _, rfl⟩
  have htail : (((nodes ++ [(node, x)]).map fst).getLast?) = some node := by simp
  have hnone : (list.newNode node x).head.isNone = nodes.isEmpty := h.chain.isNone_start
  have hholds : list.Holds (nodes ++ []) := (append_nil nodes).symm ▸ h.toHolds
  unfold LinkedList.push
  rcases eq_nil_or_concat' nodes with rfl | ⟨before, ⟨last, y⟩, rfl⟩
  · rw [if_pos (by simp [hnone])]
    exact ⟨_, rfl, hholds.grow hnode hnew rfl, fun _ => htail.symm⟩
  · have hlast : list.tail = some last := by simpa using h.tail (by simp)
    obtain ⟨-, next, hcell, -⟩ := chain_append_cons.mp hold
    have hbefore := h.toHolds.notMem
    have hne : last ∉ [(node, x)].map fst := by
      simp only [map_append, mem_append, not_or] at hnotMem
      simpa [eq_comm] using hnotMem.2
    have hset : (list.newNode node x).setNext list.tail (some node) = .ok { list.newNode node x with
        heap := update (list.newNode node x).heap last (some ⟨y, some node⟩) } := by
      rw [hlast]
      exact setNext_some hcell
    rw [if_neg (by simp [hnone]), show (list.newNode node x).tail = list.tail from rfl, hset]
    refine ⟨_, rfl, hholds.grow hnode ?_ rfl, fun _ => htail.symm⟩
    rw [append_nil] at hbefore
    rw [append_assoc]
    exact hold.relink hbefore hnew hne

theorem Linked.pop (h : list.Linked ((a, x) :: nodes)) :
    ∃ list', list.pop = .ok (x, list') ∧ list'.Linked nodes := by
  obtain ⟨hhead, next, hcell, hrest⟩ := h.chain
  have hne : list.isEmpty = false := by
    unfold isEmpty
    rw [h.length]
    rfl
  unfold LinkedList.pop
  rw [hne, hhead, deref_some hcell]
  have hholds : list.Holds ([] ++ (a, x) :: nodes) := h.toHolds
  refine ⟨_, rfl, hholds.shrink (hrest.update hholds.notMem none) rfl, ?_⟩
  intro hnodes
  cases nodes with
  | nil => exact absurd rfl hnodes
  | cons node nodes => exact h.tail (cons_ne_nil _ _)

theorem Holds.insertAfter (h : list.Holds (before ++ (a, x) :: after)) (hnode : list.Fresh node)
    (y : T) :
    ∃ list', (list.newNode node y).insertAfter node (some a) = .ok list' ∧ list'.tail = list.tail ∧
      list'.Holds (before ++ (a, x) :: (node, y) :: after) := by
  have hnotMem := h.fresh_notMem hnode
  have hold : Chain (list.newNode node y).heap list.head (before ++ (a, x) :: after) none :=
    h.chain.update hnotMem _
  obtain ⟨-, next, hcell, hafter⟩ := chain_append_cons.mp hold
  -- the new node leads on to the rest, and then the old one leads to it
  let linked : LinkedList T := { list with
    heap := update (list.newNode node y).heap node (some ⟨y, next⟩) }
  have hfirst : (list.newNode node y).setNext (some node) next = .ok linked :=
    setNext_some (update_self _ _ _)
  have hchain : Chain linked.heap list.head (before ++ (a, x) :: after) none :=
    hold.update hnotMem _
  rw [map_append, map_cons, mem_append, mem_cons, not_or, not_or] at hnotMem
  obtain ⟨-, hne, hrest⟩ := hnotMem
  have hcell' : linked.heap a = some ⟨x, next⟩ := (update_of_ne (Ne.symm hne) _ _).trans hcell
  have hnew : Chain linked.heap (some node) ((node, y) :: after) none :=
    ⟨rfl, next, update_self _ _ _, hafter.update hrest _⟩
  have ha := h.notMem
  rw [map_append, mem_append, not_or] at ha
  have hlast := hchain.relink ha.1 hnew (not_mem_cons_of_ne_of_not_mem (Ne.symm hne) ha.2)
  rw [append_cons] at h hlast ⊢
  unfold LinkedList.insertAfter
  rw [deref_some hcell]
  simp only [bind, Except.bind, hfirst, setNext_some hcell']
  exact ⟨_, rfl, rfl, h.grow hnode hlast rfl⟩

/-- The successor of a node is taken out, and only `tail` is left to be moved. -/
theorem Holds.detach (h : list.Holds (before ++ (a, x) :: (b, y) :: after)) :
    ∃ next list', list.heap b = some ⟨y, next⟩ ∧ next.isNone = after.isEmpty ∧
      list.setNext (some a) next = .ok list' ∧ list'.tail = list.tail ∧
      (list'.delete (some b)).decrement.Holds (before ++ (a, x) :: after) := by
  obtain ⟨-, next', hcell', -, next, hcell, hafter⟩ := chain_append_cons.mp h.chain
  have ha := h.notMem
  simp only [map_append, map_cons, mem_append, mem_cons, not_or] at ha
  have hchain := h.chain.relink ha.1 hafter ha.2.2
  rw [append_cons] at h hchain ⊢
  exact ⟨next, _, hcell, hafter.isNone_start, setNext_some hcell', rfl,
    h.shrink (hchain.update h.notMem none) rfl⟩

variable {index i : Nat} {current stop : Option Nat}

theorem addLoop_eq (h : Chain list.heap current (before ++ (a, x) :: after) stop)
    (hindex : i + before.length = index) (hleft : before.length < left) :
    list.addLoop node index left i current = list.insertAfter node (some a) := by
  induction before generalizing current left i with
  | nil =>
    obtain ⟨left, rfl⟩ := Nat.exists_eq_succ_of_ne_zero (Nat.ne_of_gt hleft)
    obtain ⟨rfl, -⟩ := h
    exact if_pos hindex
  | cons first before ih =>
    obtain ⟨left, rfl⟩ := Nat.exists_eq_succ_of_ne_zero (Nat.ne_of_gt (Nat.zero_lt_of_lt hleft))
    obtain ⟨rfl, next, hcell, hrest⟩ := h
    rw [length_cons] at hindex hleft
    rw [addLoop, if_neg (by omega), deref_some hcell]
    exact ih hrest (by omega) (by omega)

theorem addLoop_of_le (h : Chain list.heap current nodes stop) (hindex : i + nodes.length ≤ index) :
    list.addLoop node index nodes.length i current = .ok list := by
  induction nodes generalizing current i with
  | nil => rfl
  | cons first nodes ih =>
    obtain ⟨rfl, next, hcell, hrest⟩ := h
    rw [length_cons] at hindex
    rw [length_cons, addLoop, if_neg (by omega), deref_some hcell]
    exact ih hrest (by omega)

/-- `pred` is always one node behind. -/
theorem removeLoop_eq (h : Chain list.heap current (before ++ (b, y) :: after) stop)
    (hindex : i + before.length = index) (hleft : before.length < left) (a : Nat) :
    list.removeLoop index left i (some a) current = list.unlink (some ((before.map fst).getLastD a))
      (some b) := by
  induction before generalizing current left i a with
  | nil =>
    obtain ⟨left, rfl⟩ := Nat.exists_eq_succ_of_ne_zero (Nat.ne_of_gt hleft)
    obtain ⟨rfl, -⟩ := h
    exact if_pos hindex
  | cons first before ih =>
    obtain ⟨left, rfl⟩ := Nat.exists_eq_succ_of_ne_zero (Nat.ne_of_gt (Nat.zero_lt_of_lt hleft))
    obtain ⟨rfl, next, hcell, hrest⟩ := h
    rw [length_cons] at hindex hleft
    rw [removeLoop, if_neg (by omega), deref_some hcell, map_cons, getLastD_cons]
    exact ih hrest (by omega) (by omega) first.1

theorem Linked.unlink (h : list.Linked (before ++ (a, x) :: (b, y) :: after)) :
    ∃ list', list.unlink (some a) (some b) = .ok (y, list') ∧
      list'.Linked (before ++ (a, x) :: after) := by
  obtain ⟨next, list', hcell, hnone, hset, htail, hholds⟩ := h.detach
  have hlast := h.tail (by simp)
  unfold LinkedList.unlink
  rw [deref_some hcell]
  simp only [bind, Except.bind, hset]
  cases after with
  | nil =>
    rw [if_pos (by simp [hnone])]
    exact ⟨_, rfl, ⟨hholds.chain, hholds.nodup, hholds.length, hholds.range⟩,
      fun _ => by simp [delete, decrement]⟩
  | cons node after =>
    rw [if_neg (by simp [hnone])]
    refine ⟨_, rfl, hholds, fun _ => ?_⟩
    rw [show (list'.delete (some b)).decrement.tail = list.tail from htail, hlast]
    simp

theorem Linked.removeAt (h : list.Linked (before ++ (b, y) :: after)) :
    ∃ list', list.removeAt before.length = .ok (y, list') ∧ list'.Linked (before ++ after) := by
  cases before with
  | nil => exact h.pop
  | cons first before =>
    obtain ⟨hhead, next, hcell, hrest⟩ := h.chain
    obtain ⟨init, ⟨a, x⟩, hinit⟩ :=
      (eq_nil_or_concat' (first :: before)).resolve_left (cons_ne_nil _ _)
    -- the loop stops with `pred` at the last of the nodes before
    have hpred : (before.map fst).getLastD first.1 = a := by
      have hlast : ((first :: before).map fst).getLastD 0 = a := by
        rw [hinit]
        simp
      rwa [map_cons, getLastD_cons] at hlast
    have hloop :
        list.removeLoop (before.length + 1) (before.length + (after.length + 1)) 1
        (some first.1) next =
        list.unlink (some a) (some b) := by
      rw [removeLoop_eq hrest (Nat.add_comm 1 before.length) (by omega) first.1, hpred]
    have hcall : list.removeAt (before.length + 1) = list.unlink (some a) (some b) := by
      have hlength : list.length = before.length + (after.length + 1) + 1 := by
        rw [h.length]
        simp
      rw [LinkedList.removeAt, hlength, removeLoop, hhead, deref_some hcell]
      exact hloop
    rw [length_cons, hcall]
    rw [hinit, append_assoc] at h ⊢
    exact h.unlink

theorem Holds.addAt (h : list.Holds (before ++ (a, x) :: after)) (hnode : list.Fresh node)
    (pushed : Nat) (y : T) :
    ∃ list', list.addAt pushed node before.length y = .ok list' ∧ list'.tail = list.tail ∧
      list'.Holds (before ++ (a, x) :: (node, y) :: after) := by
  obtain ⟨list', hinsert, hrest⟩ := h.insertAfter hnode y
  have hlength := h.length
  have hnone := h.chain.isNone_start
  have hchain : Chain (list.newNode node y).heap list.head (before ++ (a, x) :: after) none :=
    h.chain.update (h.fresh_notMem hnode) _
  rw [length_append, length_cons] at hlength
  refine ⟨list', ?_, hrest⟩
  unfold LinkedList.addAt
  rw [if_neg]
  · exact (addLoop_eq hchain (Nat.zero_add _) (hlength.symm ▸ by omega)).trans hinsert
  · rw [hnone]
    simp
    omega

/-- Behind the last position, `add` inserts nothing. -/
theorem Holds.addAt_length (h : list.Holds nodes) (hne : nodes ≠ []) (hnode : list.Fresh node)
    (pushed : Nat) (y : T) :
    list.addAt pushed node nodes.length y = .ok (list.newNode node y) ∧
      Chain (list.newNode node y).heap (list.newNode node y).head nodes none := by
  have hnone := h.chain.isNone_start
  have hchain : Chain (list.newNode node y).heap list.head nodes none :=
    h.chain.update (h.fresh_notMem hnode) _
  refine ⟨?_, hchain⟩
  unfold LinkedList.addAt
  rw [if_neg]
  · have hlength : (list.newNode node y).length = nodes.length := h.length
    simp only [bind, Except.bind, pure, Except.pure, hlength]
    exact addLoop_of_le hchain (Nat.zero_add _).le
  · rw [hnone, h.length]
    simp [hne]

/-- `add` inserts twice into an empty list. -/
theorem Linked.addAt_nil {pushed : Nat} (h : list.Linked []) (hpushed : list.Fresh pushed)
    (hnode : list.Fresh node) (hne : pushed ≠ node) (y : T) :
    ∃ list', list.addAt pushed node 0 y = .ok list' ∧ list'.Holds [(pushed, y), (node, y)] := by
  let single : LinkedList T :=
    increment { list.newNode pushed y with head := some pushed, tail := some pushed }
  have hpush : list.push pushed y = .ok single := if_pos h.chain.isNone_start
  obtain ⟨list', hpush', hlinked⟩ := h.push hpushed y
  cases hpush.symm.trans hpush'
  have hfresh : single.Fresh node := ⟨(update_of_ne hne.symm _ _).trans hnode.1, hnode.2⟩
  have hholds : single.Holds ([] ++ (pushed, y) :: []) := hlinked.toHolds
  obtain ⟨list', hinsert, -, hholds'⟩ := hholds.insertAfter hfresh y
  refine ⟨list', ?_, hholds'⟩
  have hlength : (single.newNode node y).length = 1 := hlinked.length
  unfold LinkedList.addAt
  rw [if_pos (.inr h.chain.isNone_start), hpush]
  simp only [bind, Except.bind, hlength]
  exact hinsert

end Linked

end LinkedList

end HuyaOS
