import HuyaOS.Cpu

/-!
`ArrayList`, a list in an array that grows, and `ArrayBlockingQueue`, a queue in
such a list.

An array of `2 ^ 31` elements does not fit into the address space, so lengths
are natural numbers and doubling a capacity does not overflow. `indexOf` answers
`UINT32_MAX` for an element that is not there; this is `none` here. What cells
hold before they are written is a parameter. An array that grows keeps the cells
it had, so every cell is new only once.
-/

namespace HuyaOS

open Function List

structure ArrayList (T : Type) where
  elements : Nat → T
  capacity : Nat
  length : Nat
  length_le : length ≤ capacity
  fresh : Nat → T

namespace ArrayList

variable {T : Type}

def DEFAULT_CAPACITY : Nat := 8

def new (fresh : Nat → T) (capacity : Nat) : ArrayList T :=
  ⟨fresh, capacity, 0, Nat.zero_le _, fresh⟩

def toArray (l : ArrayList T) : List T := (List.range l.length).map l.elements

def size (l : ArrayList T) : Nat := l.length

def isEmpty (l : ArrayList T) : Bool := l.length == 0

/-- `while (capacity < newCapacity) capacity *= 2`. A capacity that is not zero
grows in every round, so there are fewer rounds than elements. -/
def double (newCapacity : Nat) : Nat → Nat → Nat
  | 0, capacity => capacity
  | rounds + 1, capacity =>
      if capacity < newCapacity then double newCapacity rounds (capacity * 2) else capacity

theorem le_double {newCapacity rounds capacity : Nat} (hpos : 0 < capacity)
    (hrounds : newCapacity ≤ capacity + rounds) :
    newCapacity ≤ double newCapacity rounds capacity := by
  induction rounds generalizing capacity with
  | zero => exact hrounds
  | succ rounds ih =>
    unfold double
    split
    · exact ih (by omega) (by omega)
    · omega

theorem self_le_double (newCapacity rounds capacity : Nat) :
    capacity ≤ double newCapacity rounds capacity := by
  induction rounds generalizing capacity with
  | zero => exact le_rfl
  | succ rounds ih =>
    unfold double
    split
    · exact le_trans (by omega) (ih (capacity * 2))
    · exact le_rfl

section Growing

/-- The array that a list without one gets. -/
def firstArray (l : ArrayList T) : ArrayList T :=
  if l.capacity = 0 then new l.fresh DEFAULT_CAPACITY else l

def ensureCapacity (l : ArrayList T) (newCapacity : Nat) : ArrayList T :=
  let l := l.firstArray
  if newCapacity ≤ l.capacity then l
  else
    { l with
      elements := fun i => if i < l.capacity then l.elements i else l.fresh i
      capacity := double newCapacity newCapacity l.capacity
      length_le := l.length_le.trans (self_le_double _ _ _) }

variable {l : ArrayList T} {newCapacity : Nat}

theorem firstArray_pos : 0 < l.firstArray.capacity := by
  unfold firstArray
  split
  · exact Nat.succ_pos 7
  · omega

theorem le_capacity_ensureCapacity : newCapacity ≤ (l.ensureCapacity newCapacity).capacity := by
  unfold ensureCapacity
  simp only
  split
  · assumption
  · exact le_double firstArray_pos (Nat.le_add_left _ _)

theorem elements_ensureCapacity {i : Nat} (hi : i < l.length) :
    (l.ensureCapacity newCapacity).elements i = l.elements i := by
  have hle := l.length_le
  have hfirst : l.firstArray = l := if_neg (by omega)
  unfold ensureCapacity
  simp only [hfirst]
  split
  · rfl
  · exact if_pos (by omega)

def add (l : ArrayList T) (element : T) : ArrayList T where
  elements := update (l.ensureCapacity (l.length + 1)).elements l.length element
  capacity := (l.ensureCapacity (l.length + 1)).capacity
  length := l.length + 1
  length_le := le_capacity_ensureCapacity
  fresh := l.fresh

end Growing

/-- The loop of `remove(index)`, after `n` elements have been moved. -/
def moveDown (elements : Nat → T) (index : Nat) : Nat → Nat → T
  | 0 => elements
  | n + 1 => update (moveDown elements index n) (index + n)
      (moveDown elements index n (index + n + 1))

def removeAt (l : ArrayList T) (index : Nat) : Except Cpu.Stop (T × ArrayList T) :=
  if l.length ≤ index then .error (.throwException .OUT_OF_BOUNDS)
  else .ok (l.elements index,
    { l with
      elements := moveDown l.elements index (l.length - index - 1)
      length := l.length - 1
      length_le := (Nat.sub_le _ _).trans l.length_le })

def read (l : ArrayList T) (index : Nat) : Except Cpu.Stop T :=
  if index < l.capacity then .ok (l.elements index)
  else .error (if l.capacity = 0 then .nullPointer else .strayRead)

/-- The loop of `indexOf` reads a cell before it tests the index, so without a hit
it also reads the cell behind the last element. -/
def indexOfLoop [DecidableEq T] (l : ArrayList T) (element : T) :
    Nat → Nat → Except Cpu.Stop (Option Nat)
  | 0, index => do
      let _ ← l.read index
      return none
  | left + 1, index => do
      if (← l.read index) = element then return some index
      else indexOfLoop l element left (index + 1)

def indexOf [DecidableEq T] (l : ArrayList T) (element : T) : Except Cpu.Stop (Option Nat) :=
  indexOfLoop l element l.length 0

def contains [DecidableEq T] (l : ArrayList T) (element : T) : Except Cpu.Stop Bool := do
  match ← l.indexOf element with
  | none => return false
  | some index => return decide (index < l.length)

def remove [DecidableEq T] (l : ArrayList T) (element : T) :
    Except Cpu.Stop (Bool × ArrayList T) := do
  match ← l.indexOf element with
  | none => return (false, l)
  | some index =>
      if l.length ≤ index then return (false, l) else return (true, (← l.removeAt index).2)

def get (l : ArrayList T) (index : Nat) : Except Cpu.Stop T :=
  if l.length ≤ index then .error (.throwException .OUT_OF_BOUNDS) else .ok (l.elements index)

def set (l : ArrayList T) (index : Nat) (element : T) : ArrayList T :=
  if l.length ≤ index then l else { l with elements := update l.elements index element }

def clear (l : ArrayList T) : ArrayList T := { l with length := 0, length_le := Nat.zero_le _ }

/-- The loop of `add(index, element)`, which runs downwards from `last`, after `n`
elements have been moved. -/
def moveUp (elements : Nat → T) (last : Nat) : Nat → Nat → T
  | 0 => elements
  | n + 1 => update (moveUp elements last n) (last - n) (moveUp elements last n (last - n - 1))

/-- `add(index, element)`. The loop begins at the last element and not behind it.
For an empty list its first index wraps around, far behind the end of the array. -/
def addAt (l : ArrayList T) (index : Nat) (element : T) : Except Cpu.Stop (ArrayList T) :=
  if l.length < index then .ok l
  else if l.length = 0 then .error .strayRead
  else .ok
    { elements := update
        (moveUp (l.ensureCapacity (l.length + 1)).elements (l.length - 1) (l.length - 1 - index))
          index element
      capacity := (l.ensureCapacity (l.length + 1)).capacity
      length := l.length + 1
      length_le := le_capacity_ensureCapacity
      fresh := l.fresh }

@[simp] theorem length_toArray (l : ArrayList T) : l.toArray.length = l.length := by simp [toArray]

theorem isEmpty_iff (l : ArrayList T) : l.isEmpty = true ↔ l.toArray = [] := by
  rw [← length_eq_zero_iff, length_toArray]
  exact beq_iff_eq

theorem toArray_add (l : ArrayList T) (element : T) :
    (l.add element).toArray = l.toArray ++ [element] := by
  simp only [toArray, add, range_succ, map_append, map_cons, map_nil, update_self]
  congr 1
  apply map_congr_left
  intro i hi
  have hlt := mem_range.mp hi
  rw [update_of_ne (by omega), elements_ensureCapacity hlt]

theorem moveDown_apply (elements : Nat → T) (index n i : Nat) :
    moveDown elements index n i =
      if index ≤ i ∧ i < index + n then elements (i + 1) else elements i := by
  induction n generalizing i with
  | zero =>
    rw [if_neg (by omega)]
    rfl
  | succ n ih =>
    rw [moveDown, update_apply]
    split
    · rename_i heq
      rw [ih, if_neg (by omega), if_pos (by omega), heq]
    · rw [ih]
      exact if_congr (by omega) rfl rfl

theorem removeAt_spec {l : ArrayList T} {index : Nat} (hindex : index < l.length) :
    ∃ l', l.removeAt index = .ok (l.elements index, l') ∧
      l'.toArray = l.toArray.eraseIdx index := by
  refine ⟨_, if_neg (not_le.mpr hindex), ?_⟩
  apply ext_getElem
  · simp [length_eraseIdx, hindex]
  · intro i hi hi'
    simp only [toArray, getElem_map, getElem_range, getElem_eraseIdx, moveDown_apply]
    rw [length_toArray] at hi
    change i < l.length - 1 at hi
    split
    · rw [dif_neg (by omega)]
    · rw [dif_pos (by omega)]

section Search

variable [DecidableEq T] {l : ArrayList T} {element : T}

/-- A search without a hit ends with the cell behind the last element. -/
theorem indexOfLoop_eq {left index : Nat} (hlength : index + left = l.length) :
    indexOfLoop l element left index =
      (((List.range' index left).map l.elements).idxOf? element).elim
        ((l.read l.length).map fun _ => none) (.ok <| some <| index + ·) := by
  induction left generalizing index with
  | zero =>
    rw [← hlength, indexOfLoop]
    cases l.read index <;> rfl
  | succ left ih =>
    have hread : l.read index = .ok (l.elements index) := if_pos (by have := l.length_le; omega)
    rw [range'_succ, map_cons, idxOf?_cons, indexOfLoop, hread]
    by_cases hhit : l.elements index = element
    · rw [beq_iff_eq.mpr hhit]
      exact if_pos hhit
    · rw [beq_eq_false_iff_ne.mpr hhit]
      refine (if_neg hhit).trans ((ih (by omega)).trans ?_)
      cases ((List.range' (index + 1) left).map l.elements).idxOf? element with
      | none => rfl
      | some i =>
        have hnext : index + 1 + i = index + (i + 1) := by omega
        exact congrArg (fun j => Except.ok (some j)) hnext

theorem indexOf_cases (l : ArrayList T) (element : T) : l.indexOf element =
    (l.toArray.idxOf? element).elim ((l.read l.length).map fun _ => none) (.ok <| some ·) := by
  rw [indexOf, indexOfLoop_eq (Nat.zero_add _), toArray, range_eq_range']
  simp only [Nat.zero_add]

/-- When all reads of a search succeed. -/
def Searchable (l : ArrayList T) (element : T) : Prop :=
  element ∈ l.toArray ∨ l.length < l.capacity

instance (l : ArrayList T) (element : T) : Decidable (l.Searchable element) :=
  inferInstanceAs (Decidable (_ ∨ _))

theorem indexOf_eq (h : l.Searchable element) :
    l.indexOf element = .ok (l.toArray.idxOf? element) := by
  rw [indexOf_cases]
  cases hindex : l.toArray.idxOf? element with
  | some index => rfl
  | none =>
    have hnot : element ∉ l.toArray := idxOf?_eq_none_iff.mp hindex
    rw [read, if_pos (h.resolve_left hnot)]
    rfl

theorem indexOf_stops (h : ¬l.Searchable element) : ∃ stop, l.indexOf element = .error stop := by
  obtain ⟨hnot, hfull⟩ := not_or.mp h
  refine ⟨if l.capacity = 0 then .nullPointer else .strayRead, ?_⟩
  rw [indexOf_cases, idxOf?_eq_none_iff.mpr hnot, read, if_neg hfull]
  rfl

theorem contains_eq (h : l.Searchable element) :
    l.contains element = .ok (decide (element ∈ l.toArray)) := by
  unfold contains
  rw [indexOf_eq h]
  cases hindex : l.toArray.idxOf? element with
  | none =>
    rw [decide_eq_false (idxOf?_eq_none_iff.mp hindex)]
    rfl
  | some index =>
    obtain ⟨hlt, hfound, -⟩ := idxOf?_eq_some_iff.mp hindex
    rw [length_toArray] at hlt
    rw [decide_eq_true (hfound ▸ getElem_mem _)]
    exact congrArg Except.ok (decide_eq_true hlt)

theorem remove_eq (h : l.Searchable element) :
    ∃ l', l.remove element = .ok (decide (element ∈ l.toArray), l') ∧
      l'.toArray = l.toArray.erase element := by
  unfold remove
  rw [indexOf_eq h, erase_eq_eraseIdx]
  cases hindex : l.toArray.idxOf? element with
  | none =>
    rw [decide_eq_false (idxOf?_eq_none_iff.mp hindex)]
    exact ⟨l, rfl, rfl⟩
  | some index =>
    obtain ⟨hlt, hfound, -⟩ := idxOf?_eq_some_iff.mp hindex
    have hmem : element ∈ l.toArray := hfound ▸ getElem_mem _
    rw [length_toArray] at hlt
    obtain ⟨l', hremove, harray⟩ := removeAt_spec hlt
    refine ⟨l', ?_, harray⟩
    rw [decide_eq_true hmem]
    change (if l.length ≤ index then _ else _) = _
    rw [if_neg (not_le.mpr hlt), hremove]
    rfl

theorem remove_stops (h : ¬l.Searchable element) : ∃ stop, l.remove element = .error stop := by
  obtain ⟨stop, hstop⟩ := indexOf_stops h
  refine ⟨stop, ?_⟩
  unfold remove
  rw [hstop]
  rfl

theorem toArray_remove {found : Bool} {l' : ArrayList T}
    (hcall : l.remove element = .ok (found, l')) : l'.toArray = l.toArray.erase element := by
  by_cases h : l.Searchable element
  · obtain ⟨l'', hremove, harray⟩ := remove_eq h
    rw [hcall] at hremove
    cases hremove
    exact harray
  · obtain ⟨stop, hstop⟩ := remove_stops h
    rw [hcall] at hstop
    cases hstop

end Search

end ArrayList

/-- `ArrayBlockingQueue`. Its own capacity argument is ignored. -/
structure ArrayBlockingQueue (T : Type) where
  elements : ArrayList T

namespace ArrayBlockingQueue

variable {T : Type}

def DEFAULT_CAPACITY : Nat := 16

def new (fresh : Nat → T) : ArrayBlockingQueue T := ⟨ArrayList.new fresh DEFAULT_CAPACITY⟩

def push (q : ArrayBlockingQueue T) (element : T) : ArrayBlockingQueue T :=
  ⟨q.elements.add element⟩

def isEmpty (q : ArrayBlockingQueue T) : Bool := q.elements.isEmpty

/-- `pop`. On an empty queue the call waits for somebody else to push. -/
def pop (q : ArrayBlockingQueue T) : Except Cpu.Stop (T × ArrayBlockingQueue T) :=
  if q.isEmpty then .error .endlessLoop
  else do
    let (element, elements) ← q.elements.removeAt 0
    return (element, ⟨elements⟩)

def remove [DecidableEq T] (q : ArrayBlockingQueue T) (element : T) :
    Except Cpu.Stop (ArrayBlockingQueue T) := do
  let (_, elements) ← q.elements.remove element
  return ⟨elements⟩

def toArray (q : ArrayBlockingQueue T) : List T := q.elements.toArray

@[simp] theorem toArray_push (q : ArrayBlockingQueue T) (element : T) :
    (q.push element).toArray = q.toArray ++ [element] := q.elements.toArray_add element

theorem toArray_remove [DecidableEq T] {q q' : ArrayBlockingQueue T} {element : T}
    (hcall : q.remove element = .ok q') : q'.toArray = q.toArray.erase element := by
  obtain ⟨⟨found, elements⟩, hremove, hresult⟩ := bind_eq_ok.mp hcall
  cases hresult
  exact ArrayList.toArray_remove hremove

theorem isEmpty_iff (q : ArrayBlockingQueue T) : q.isEmpty = true ↔ q.toArray = [] :=
  q.elements.isEmpty_iff

theorem pop_spec {q : ArrayBlockingQueue T} (hne : q.isEmpty = false) :
    ∃ element q', q.pop = .ok (element, q') ∧ q.toArray = element :: q'.toArray := by
  have hlt : 0 < q.elements.length := by
    rw [Nat.pos_iff_ne_zero]
    exact beq_eq_false_iff_ne.mp hne
  obtain ⟨l', hcall, hrest⟩ := ArrayList.removeAt_spec hlt
  refine ⟨q.elements.elements 0, ⟨l'⟩, ?_, ?_⟩
  · rw [pop, hne]
    exact bind_eq_ok.mpr ⟨_, hcall, rfl⟩
  · rw [toArray, toArray, hrest]
    obtain ⟨n, hn⟩ := Nat.exists_eq_add_of_lt hlt
    simp [ArrayList.toArray, hn, range_succ_eq_map]

end ArrayBlockingQueue

end HuyaOS
