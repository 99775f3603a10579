import HuyaOS.Cpu
import HuyaOS.Lib.Transition

/-!
`RingBuffer`. The read index, the write index and the size are counted
separately. `push` does not test whether the buffer is full: it overwrites the
oldest element, leaves the read index where it is and counts one element more
than there is room for. As long as nobody pushes into a full buffer, the
elements between the indices are those that were pushed and not yet popped.
-/

namespace HuyaOS

open Nat

/-- The index checks of `Array` never fail, since both indices stay below the
capacity. -/
structure RingBuffer (T : Type) where
  buffer : Nat → T
  capacity : Nat
  readIndex : Nat
  writeIndex : Nat
  size : Nat
  readIndex_lt : readIndex < capacity
  writeIndex_lt : writeIndex < capacity

namespace RingBuffer

variable {T : Type} {ring : RingBuffer T}

/-- An index that moves on and wraps around at the end. -/
def advance (index capacity : Nat) : Nat := if capacity ≤ index + 1 then 0 else index + 1

theorem advance_lt {index capacity : Nat} (h : index < capacity) :
    advance index capacity < capacity := by
  unfold advance
  split <;> omega

def new (T : Type) [Inhabited T] (capacity : Nat) : Except Cpu.Stop (RingBuffer T) :=
  if h : capacity = 0 then .error (.throwException .INVALID_ARGUMENT)
  else .ok ⟨fun _ => default, capacity, 0, 0, 0, Nat.pos_of_ne_zero h, Nat.pos_of_ne_zero h⟩

def push (ring : RingBuffer T) (element : T) : RingBuffer T :=
  { ring with
    buffer := Function.update ring.buffer ring.writeIndex element
    writeIndex := advance ring.writeIndex ring.capacity
    size := (ring.size + 1) % 2 ^ 32
    writeIndex_lt := advance_lt ring.writeIndex_lt }

def pop (ring : RingBuffer T) : T × RingBuffer T :=
  (ring.buffer ring.readIndex,
    { ring with
      readIndex := advance ring.readIndex ring.capacity
      size := (ring.size + 2 ^ 32 - 1) % 2 ^ 32
      readIndex_lt := advance_lt ring.readIndex_lt })

def isEmpty (ring : RingBuffer T) : Bool := ring.size == 0

/-- The index of the cell that is `i` cells behind the read index. -/
def slot (ring : RingBuffer T) (i : Nat) : Nat :=
  if ring.readIndex + i < ring.capacity then ring.readIndex + i
    else ring.readIndex + i - ring.capacity

/-- The buffer holds the elements `pending`, the oldest first. -/
structure Holds (ring : RingBuffer T) (pending : List T) : Prop where
  capacity_lt : ring.capacity < 2 ^ 32
  size_eq : ring.size = pending.length
  size_le : ring.size ≤ ring.capacity
  writeIndex_eq : ring.writeIndex = ring.slot ring.size
  cell : ∀ (i : Nat) (hi : i < pending.length), ring.buffer (ring.slot i) = pending[i]

section Holds

variable {ring : RingBuffer T} {pending : List T}

theorem slot_ne {i j : Nat} (hij : i < j) (hj : j < ring.capacity) : ring.slot i ≠ ring.slot j := by
  unfold slot
  split <;> split <;> omega

theorem advance_slot {i : Nat} (hi : i < ring.capacity) :
    advance (ring.slot i) ring.capacity = ring.slot (i + 1) := by
  have := ring.readIndex_lt
  unfold slot advance
  split <;> split <;> split <;> omega

theorem slot_pop {i : Nat} (hi : i < ring.capacity) : ring.pop.2.slot i = ring.slot (i + 1) := by
  have := ring.readIndex_lt
  unfold slot pop advance
  dsimp only
  split <;> split <;> split <;> omega

theorem Holds.push (h : Holds ring pending) (hroom : ring.size < ring.capacity) (element : T) :
    Holds (ring.push element) (pending ++ [element]) := by
  have hsize : (ring.size + 1) % 2 ^ 32 = ring.size + 1 :=
    mod_eq_of_lt (by have := h.capacity_lt; omega)
  have hbuffer : ∀ i, (ring.push element).buffer ((ring.push element).slot i) =
      Function.update ring.buffer (ring.slot ring.size) element (ring.slot i) := by
    intro i
    rw [← h.writeIndex_eq]
    rfl
  refine ⟨h.capacity_lt, ?_, ?_, ?_, ?_⟩
  · rw [List.length_append, ← h.size_eq]
    exact hsize
  · exact hsize.le.trans hroom
  · have hwrite : (ring.push element).writeIndex = advance (ring.slot ring.size) ring.capacity := by
      rw [← h.writeIndex_eq]
      rfl
    rw [hwrite, advance_slot hroom]
    exact congrArg ring.slot hsize.symm
  · intro i hi
    rw [hbuffer]
    have hi' : i < ring.size + 1 := by simpa [← h.size_eq] using hi
    rcases Nat.lt_succ_iff_lt_or_eq.mp hi' with hlt | rfl
    · have hi' : i < pending.length := h.size_eq ▸ hlt
      rw [Function.update_of_ne (slot_ne hlt hroom), List.getElem_append_left hi']
      exact h.cell i hi'
    · simp [h.size_eq]

theorem Holds.pop {element : T} (h : Holds ring (element :: pending)) :
    ring.pop.1 = element ∧ Holds ring.pop.2 pending := by
  have hlen : ring.size = pending.length + 1 := h.size_eq
  have hle := h.size_le
  have hsize : ring.pop.2.size = pending.length := by
    have := h.capacity_lt
    change (ring.size + 2 ^ 32 - 1) % 2 ^ 32 = pending.length
    omega
  refine ⟨?_, h.capacity_lt, hsize, ?_, ?_, ?_⟩
  · have hslot : ring.slot 0 = ring.readIndex := if_pos ring.readIndex_lt
    have hcell := h.cell 0 (succ_pos _)
    rw [hslot] at hcell
    exact hcell
  · change ring.pop.2.size ≤ ring.capacity
    omega
  · rw [slot_pop (by omega), hsize, ← hlen]
    exact h.writeIndex_eq
  · intro i hi
    rw [slot_pop (by omega)]
    exact h.cell (i + 1) (succ_lt_succ hi)

theorem Holds.isEmpty_iff (h : Holds ring pending) : ring.isEmpty = true ↔ pending = [] := by
  rw [← List.length_eq_zero_iff, ← h.size_eq]
  exact beq_iff_eq

end Holds

/-- A buffer and what has been pushed and popped so far. -/
structure History (T : Type) where
  ring : RingBuffer T
  pushed : List T
  popped : List T

/-- `push` with its element, or `pop`. -/
abbrev Call (T : Type) := Option T

def History.push (h : History T) (element : T) : History T :=
  ⟨h.ring.push element, h.pushed ++ [element], h.popped⟩

def History.pop (h : History T) : History T := ⟨h.ring.pop.2, h.pushed, h.popped ++ [h.ring.pop.1]⟩

/-- `pop` is only called when the buffer is not empty. -/
inductive Step : History T → Call T → History T → Prop
  | push (h : History T) (element : T) : Step h (some element) (h.push element)
  | pop (h : History T) (hne : h.ring.isEmpty = false) : Step h none h.pop

/-- What is popped was pushed, in the same order and not more often, and there is
room for all elements that the buffer claims to hold. -/
def Delivers (h : History T) : Prop := h.popped.Sublist h.pushed ∧ h.ring.size ≤ h.ring.capacity

/-- Nobody pushes into a full buffer. -/
def SoundStep (h : History T) (call : Call T) (h' : History T) : Prop :=
  Step h call h' ∧ (call.isSome → h.ring.size < h.ring.capacity)

/-- The elements that were not popped are in the buffer. -/
def Coherent (h : History T) : Prop :=
  ∃ pending, h.pushed = h.popped ++ pending ∧ Holds h.ring pending

theorem Coherent.step {h h' : History T} {call : Call T} (hcoherent : Coherent h)
    (hstep : SoundStep h call h') :
    Coherent h' := by
  obtain ⟨pending, hpushed, hholds⟩ := hcoherent
  obtain ⟨hstep, hroom⟩ := hstep
  cases hstep with
  | push element =>
    refine ⟨pending ++ [element], ?_, hholds.push (hroom rfl) element⟩
    change h.pushed ++ [element] = h.popped ++ (pending ++ [element])
    rw [hpushed, List.append_assoc]
  | pop hne =>
    cases pending with
    | nil =>
      rw [hholds.isEmpty_iff.mpr rfl] at hne
      cases hne
    | cons element pending =>
      obtain ⟨hpop, hrest⟩ := hholds.pop
      refine ⟨pending, ?_, hrest⟩
      change h.pushed = h.popped ++ [h.ring.pop.1] ++ pending
      rw [hpop, hpushed, List.append_assoc]
      rfl

theorem Coherent.delivers {h : History T} (hcoherent : Coherent h) : Delivers h := by
  obtain ⟨pending, hpushed, hholds⟩ := hcoherent
  refine ⟨?_, hholds.size_le⟩
  rw [hpushed]
  exact List.sublist_append_left _ _

theorem coherent_new [Inhabited T] {capacity : Nat} (hcapacity : capacity < 2 ^ 32)
    (hnew : new T capacity = .ok ring) : Coherent ⟨ring, [], []⟩ := by
  unfold new at hnew
  split at hnew
  · cases hnew
  · rename_i hpos
    cases hnew
    refine ⟨[], rfl, hcapacity, rfl, zero_le _, ?_, fun _ hi => absurd hi (not_lt_zero _)⟩
    exact (if_pos (pos_of_ne_zero hpos)).symm

/-- A run in which nobody pushes into a full buffer delivers. In every state of
such a run one more element can be pushed exactly if the buffer is not full; only
a buffer with `2 ^ 32 - 1` cells would lose count of itself. -/
theorem delivers_of_sound_run [Inhabited T] {capacity : Nat} (hcapacity : capacity < 2 ^ 32)
    (hnew : new T capacity = .ok ring) {calls : List (Call T)} {h : History T}
    (hrun : Lib.Run SoundStep ⟨ring, [], []⟩ calls h) :
    Delivers h ∧ (h.ring.capacity + 1 < 2 ^ 32 →
      ∀ element, Delivers (h.push element) ↔ h.ring.size < h.ring.capacity) := by
  have hcoherent : Coherent h :=
    hrun.invariant (fun _ _ _ hinv hstep => hinv.step hstep) (coherent_new hcapacity hnew)
  refine ⟨hcoherent.delivers, fun hsmall element => ⟨?_, ?_⟩⟩
  · rintro ⟨-, hle⟩
    have hbound : h.ring.size ≤ h.ring.capacity := hcoherent.delivers.2
    change (h.ring.size + 1) % 2 ^ 32 ≤ h.ring.capacity at hle
    rw [mod_eq_of_lt (by omega)] at hle
    exact hle
  · intro hroom
    exact (hcoherent.step ⟨.push h element, fun _ => hroom⟩).delivers

/-- Two cells, three elements. -/
theorem delivers_of_sound_run_three_elements :
    ∃ (ring : RingBuffer Nat) (h : History Nat), new Nat 2 = .ok ring ∧
      Lib.Run SoundStep ⟨ring, [], []⟩ [some 1, some 2, none, some 3, none] h ∧ h.popped = [1, 2] ∧
        Delivers h := by
  let ring : RingBuffer Nat := ⟨fun _ => 0, 2, 0, 0, 0, two_pos, two_pos⟩
  let start : History Nat := ⟨ring, [], []⟩
  have hrun : Lib.Run SoundStep start [some 1, some 2, none, some 3, none]
      ((((start.push 1).push 2).pop.push 3).pop) :=
    .next ⟨.push _ _, fun _ => by decide⟩ <| .next ⟨.push _ _, fun _ => by decide⟩ <|
      .next ⟨.pop _ (by decide), nofun⟩ <| .next ⟨.push _ _, fun _ => by decide⟩ <|
      .next ⟨.pop _ (by decide), nofun⟩ <| .done _
  have hnew : new Nat 2 = .ok ring := rfl
  exact ⟨ring, _, hnew, hrun, by decide, (delivers_of_sound_run (by decide) hnew hrun).1⟩

/-- One cell, two elements: the second is popped twice. -/
theorem overwritten_element_popped_twice :
    ∃ (ring : RingBuffer Nat) (h h' : History Nat), new Nat 1 = .ok ring ∧
      Lib.Run Step ⟨ring, [], []⟩ [some 1, some 2] h ∧ h.ring.size = 2 ∧ h.ring.capacity = 1 ∧
      Lib.Run Step h [none, none] h' ∧ h'.popped = [2, 2] ∧ ¬h'.popped.Sublist h'.pushed := by
  let ring : RingBuffer Nat := ⟨fun _ => 0, 1, 0, 0, 0, one_pos, one_pos⟩
  let start : History Nat := ⟨ring, [], []⟩
  refine ⟨ring, (start.push 1).push 2, ((start.push 1).push 2).pop.pop, rfl,
    ?_, by decide, rfl, ?_, by decide, by decide⟩
  · exact .next (.push _ _) <| .next (.push _ _) <| .done _
  · exact .next (.pop _ (by decide)) <| .next (.pop _ (by decide)) <| .done _

end RingBuffer

end HuyaOS
