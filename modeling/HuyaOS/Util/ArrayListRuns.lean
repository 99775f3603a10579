import HuyaOS.Lib.Transition
import HuyaOS.Util.ArrayList

/-!
Runs of calls on an `ArrayList`, compared with the same calls on a list. Two
calls do not always do what they do on lists.

`add(index, element)` moves the elements from the last one on, which should have
been moved behind the last one, and then counts one element more: the last
element is lost, and the cell behind it takes its place. On an empty list the
loop does not end before it has left the array.

A search that finds nothing reads the cell behind the last element. There is no
such cell if the array is full, or if the list has no array yet.
-/

namespace HuyaOS.ArrayList

open Lib List Nat

variable {T : Type} {xs : List T} {l : ArrayList T}

theorem getElem?_toArray (l : ArrayList T) (i : Nat) :
    l.toArray[i]? = if i < l.length then some (l.elements i) else none := by
  unfold toArray
  rw [getElem?_map]
  split
  · rename_i hi
    rw [getElem?_range hi]
    rfl
  · rw [getElem?_eq_none (by rw [length_range]; omega)]
    rfl

theorem get_eq (l : ArrayList T) (index : Nat) :
    l.get index = l.toArray[index]?.elim (.error (.throwException .OUT_OF_BOUNDS)) .ok := by
  rw [getElem?_toArray]
  unfold get
  split
  · rw [if_neg (by omega)]
    rfl
  · rw [if_pos (by omega)]
    rfl

theorem toArray_set (l : ArrayList T) (index : Nat) (element : T) :
    (l.set index element).toArray = l.toArray.set index element := by
  unfold set
  split
  · rw [set_eq_of_length_le (by rwa [length_toArray])]
  · apply ext_getElem?
    intro i
    rw [getElem?_set, getElem?_toArray, getElem?_toArray, length_toArray]
    dsimp only
    rw [Function.update_apply]
    rcases eq_or_ne i index with rfl | hne
    · rw [if_pos rfl, if_pos rfl]
    · rw [if_neg hne, if_neg hne.symm]

theorem insertIdx_append_left {ys : List T} {index : Nat} (h : index ≤ xs.length) {element : T} :
    (xs ++ ys).insertIdx index element = xs.insertIdx index element ++ ys := by
  induction xs generalizing index with
  | nil =>
    rw [le_zero.mp h]
    rfl
  | cons x xs ih =>
    cases index with
    | zero => rfl
    | succ index => exact congrArg (x :: ·) (ih (le_of_succ_le_succ h))

theorem moveUp_apply (elements : Nat → T) {last n : Nat} (hn : n ≤ last) (i : Nat) :
    moveUp elements last n i = if last - n < i ∧ i ≤ last then elements (i - 1)
      else elements i := by
  induction n generalizing i with
  | zero =>
    rw [if_neg (by omega)]
    rfl
  | succ n ih =>
    rw [moveUp, Function.update_apply]
    split
    · rename_i heq
      rw [ih (by omega), if_neg (by omega), if_pos (by omega), heq]
    · rw [ih (by omega)]
      exact if_congr (by omega) rfl rfl

theorem toArray_eq_concat (hpos : 0 < l.length) :
    l.toArray = l.toArray.dropLast ++ [l.elements (l.length - 1)] := by
  have hne : l.toArray ≠ [] := by
    rw [← length_pos_iff, length_toArray]
    exact hpos
  have hlast : l.toArray.getLast hne = l.elements (l.length - 1) := by
    simp [toArray]
  rw [← hlast, dropLast_append_getLast]

theorem get_last {x : T} (h : l.toArray.reverse = x :: xs) :
    l.get (l.size - 1) = .ok x ∧ ∃ l', l.removeAt (l.size - 1) = .ok (x, l') ∧
      l'.toArray.reverse = xs := by
  have harray : l.toArray = xs.reverse ++ [x] := by
    rw [← reverse_reverse l.toArray, h, reverse_cons]
  have hsize : l.size = xs.length + 1 := by
    rw [size, ← length_toArray, harray, length_append, length_reverse, length_singleton]
  have hindex : l.size - 1 = xs.reverse.length := by
    rw [hsize, length_reverse, Nat.add_sub_cancel]
  have hlast : l.get (l.size - 1) = .ok x := by
    rw [get_eq, harray, hindex, getElem?_concat_length]
    rfl
  have hlt : l.size - 1 < l.length := sub_lt (hsize.trans_gt (succ_pos _)) one_pos
  obtain ⟨l', hremove, hrest⟩ := removeAt_spec hlt
  refine ⟨hlast, l', ?_, ?_⟩
  · rw [hremove]
    rw [get, if_neg (not_le.mpr hlt)] at hlast
    rw [Except.ok.inj hlast]
  · rw [hrest, harray, hindex, eraseIdx_append_of_length_le le_rfl, Nat.sub_self,
      eraseIdx_cons_zero, append_nil, reverse_reverse]

theorem get_empty (h : l.toArray.reverse = []) :
    l.get (l.size - 1) = .error (.throwException .OUT_OF_BOUNDS) := by
  rw [get_eq, reverse_eq_nil_iff.mp h]
  rfl

section Insert

variable {l : ArrayList T} {index : Nat}

/-- The cell behind the last element, which `add(index, element)` turns into an
element. -/
def spare (l : ArrayList T) : T := (l.ensureCapacity (l.length + 1)).elements l.length

/-- Before the end an insertion drops the last element and appends the spare cell. -/
theorem addAt_of_lt (hindex : index < l.length) (element : T) :
    ∃ l', l.addAt index element = .ok l' ∧
      l'.toArray = l.toArray.dropLast.insertIdx index element ++ [l.spare] := by
  unfold addAt
  rw [if_neg (by omega), if_neg (by omega)]
  refine ⟨_, rfl, ?_⟩
  have hlen : (l.toArray.dropLast.insertIdx index element).length = l.length := by
    rw [length_insertIdx, length_dropLast, length_toArray, if_pos (by omega)]
    omega
  apply ext_getElem?
  intro i
  rw [getElem?_toArray]
  dsimp only
  rw [Function.update_apply, moveUp_apply _ (by omega)]
  rcases lt_trichotomy i l.length with hi | rfl | hi
  · rw [getElem?_append_left (hlen.symm ▸ hi), getElem?_insertIdx, if_pos (by omega)]
    have hold : ∀ k < l.length - 1,
        l.toArray.dropLast[k]? = some ((l.ensureCapacity (l.length + 1)).elements k) := by
      intro k hk
      rw [getElem?_dropLast, length_toArray, if_pos hk, getElem?_toArray, if_pos (by omega),
        elements_ensureCapacity (by omega)]
    rcases lt_trichotomy i index with hlt | rfl | hgt
    · rw [if_neg (by omega), if_neg (by omega), if_pos hlt, hold i (by omega)]
    · rw [if_pos rfl, if_neg (by omega), if_pos rfl, length_dropLast, length_toArray,
        if_pos (by omega)]
    · rw [if_neg (by omega), if_pos (by omega), if_neg (by omega), if_neg (by omega),
        hold (i - 1) (by omega)]
  · rw [getElem?_append_right hlen.le, hlen, Nat.sub_self, if_pos (Nat.lt_succ_self _),
      if_neg (by omega), if_neg (by omega)]
    rfl
  · rw [getElem?_append_right (by omega), if_neg (by omega), getElem?_singleton,
      if_neg (by omega)]

theorem addAt_length (hpos : 0 < l.length) (element : T) :
    ∃ l', l.addAt l.length element = .ok l' ∧ l'.toArray = l.toArray ++ [element] := by
  unfold addAt
  rw [if_neg (by omega), if_neg (by omega)]
  refine ⟨_, rfl, ?_⟩
  have hmove : l.length - 1 - l.length = 0 := by omega
  rw [← toArray_add]
  rw [hmove]
  rfl

/-- An insertion before the end is right exactly if the spare cell happens to hold
the last element. -/
theorem addAt_of_lt_iff {l' : ArrayList T} (hindex : index < l.length) {element : T}
    (hcall : l.addAt index element = .ok l') :
    l'.toArray = l.toArray.insertIdx index element ↔ l.spare = l.elements (l.length - 1) := by
  obtain ⟨l'', hcall', harray⟩ := addAt_of_lt hindex element
  rw [hcall, Except.ok.injEq] at hcall'
  subst hcall'
  have hle : index ≤ l.toArray.dropLast.length := by
    rw [length_dropLast, length_toArray]
    omega
  have hinsert : l.toArray.insertIdx index element =
      l.toArray.dropLast.insertIdx index element ++ [l.elements (l.length - 1)] := by
    conv_lhs => rw [toArray_eq_concat (zero_lt_of_lt hindex)]
    exact insertIdx_append_left hle
  rw [harray, hinsert, append_cancel_left_eq, singleton_inj]

end Insert

/-- The calls of a run. -/
inductive Call (T : Type)
  | add (element : T)
  | addAt (index : Nat) (element : T)
  | removeAt (index : Nat)
  | remove (element : T)
  | set (index : Nat) (element : T)
  | clear

inductive Answer (T : Type)
  | none
  | flag (b : Bool)
  | element (t : T)
  deriving DecidableEq

variable [DecidableEq T]

/-- A call and its answer. A call that does not return is made on a list that
nobody sees again. -/
def call (l : ArrayList T) : Call T → ArrayList T × Except Cpu.Stop (Answer T)
  | .add element => (l.add element, .ok (.flag true))
  | .addAt index element =>
      match l.addAt index element with
      | .ok l' => (l', .ok .none)
      | .error stop => (l, .error stop)
  | .removeAt index =>
      match l.removeAt index with
      | .ok (element, l') => (l', .ok (.element element))
      | .error stop => (l, .error stop)
  | .remove element =>
      match l.remove element with
      | .ok (found, l') => (l', .ok (.flag found))
      | .error stop => (l, .error stop)
  | .set index element => (l.set index element, .ok .none)
  | .clear => (l.clear, .ok .none)

def listCall (xs : List T) : Call T → List T × Except Cpu.Stop (Answer T)
  | .add element => (xs ++ [element], .ok (.flag true))
  | .addAt index element => (xs.insertIdx index element, .ok .none)
  | .removeAt index =>
      match xs[index]? with
      | some element => (xs.eraseIdx index, .ok (.element element))
      | none => (xs, .error (.throwException .OUT_OF_BOUNDS))
  | .remove element => (xs.erase element, .ok (.flag (decide (element ∈ xs))))
  | .set index element => (xs.set index element, .ok .none)
  | .clear => ([], .ok .none)

/-- When a call does what it does on lists. -/
def Meets (l : ArrayList T) : Call T → Prop
  | .addAt index _ =>
      l.length < index ∨ 0 < l.length ∧ (index = l.length ∨ l.spare = l.elements (l.length - 1))
  | .remove element => l.Searchable element
  | _ => True

instance (l : ArrayList T) : (c : Call T) → Decidable (l.Meets c)
  | .addAt index _ => inferInstanceAs (Decidable (l.length < index ∨ _))
  | .remove element => inferInstanceAs (Decidable (l.Searchable element))
  | .add _ | .removeAt _ | .set _ _ | .clear => isTrue trivial

/-- A call and its answer, seen as a call on a list. -/
def observed (result : ArrayList T × Except Cpu.Stop (Answer T)) :
    List T × Except Cpu.Stop (Answer T) :=
  (result.1.toArray, result.2)

theorem addAt_observed_iff (l : ArrayList T) (index : Nat) (element : T) :
    observed (l.call (.addAt index element)) = listCall l.toArray (.addAt index element) ↔
      l.Meets (.addAt index element) := by
  unfold call listCall Meets observed
  rcases lt_trichotomy l.length index with hgt | rfl | hlt
  · have hcall : l.addAt index element = .ok l := if_pos hgt
    simp only [hcall]
    rw [insertIdx_of_length_lt (by rwa [length_toArray])]
    exact iff_of_true rfl (.inl hgt)
  · rcases Nat.eq_zero_or_pos l.length with hzero | hpos
    · have hcall : l.addAt l.length element = .error .strayRead := by
        rw [addAt, if_neg (lt_irrefl _), if_pos hzero]
      simp only [hcall]
      refine iff_of_false ?_ ?_
      · intro h
        cases congrArg Prod.snd h
      · omega
    · obtain ⟨l', hcall, harray⟩ := addAt_length hpos element
      simp only [hcall]
      rw [harray]
      refine iff_of_true ?_ (Or.inr ⟨hpos, by simp⟩)
      rw [← length_toArray, insertIdx_length_self]
  · obtain ⟨l', hcall, -⟩ := addAt_of_lt hlt element
    simp only [hcall]
    rw [Prod.mk.injEq, addAt_of_lt_iff hlt hcall]
    constructor
    · rintro ⟨hspare, -⟩
      exact .inr ⟨zero_lt_of_lt hlt, .inr hspare⟩
    · rintro (hgt | ⟨-, heq | hspare⟩)
      · omega
      · omega
      · exact ⟨hspare, rfl⟩

theorem observed_call_iff (l : ArrayList T) (c : Call T) :
    observed (l.call c) = listCall l.toArray c ↔ l.Meets c := by
  cases c with
  | add element => exact iff_of_true (Prod.ext (toArray_add l element) rfl) trivial
  | addAt index element => exact addAt_observed_iff l index element
  | removeAt index =>
    refine iff_of_true ?_ trivial
    unfold call listCall observed
    by_cases hindex : index < l.length
    · obtain ⟨l', hremove, harray⟩ := removeAt_spec hindex
      simp only [hremove, getElem?_toArray, if_pos hindex]
      rw [harray]
    · have hremove : l.removeAt index = .error (.throwException .OUT_OF_BOUNDS) :=
        if_pos (not_lt.mp hindex)
      simp only [hremove, getElem?_toArray, if_neg hindex]
  | remove element =>
    unfold call observed
    by_cases h : l.Searchable element
    · obtain ⟨l', hremove, harray⟩ := remove_eq h
      simp only [hremove]
      rw [harray]
      exact iff_of_true rfl h
    · obtain ⟨stop, hremove⟩ := remove_stops h
      simp only [hremove]
      refine iff_of_false ?_ h
      intro heq
      cases congrArg Prod.snd heq
  | set index element => exact iff_of_true (Prod.ext (toArray_set l index element) rfl) trivial
  | clear => exact iff_of_true rfl trivial

theorem indexOf_and_contains_iff (l : ArrayList T) (element : T) :
    (l.indexOf element = .ok (l.toArray.idxOf? element) ∧
      l.contains element = .ok (decide (element ∈ l.toArray))) ↔ l.Searchable element := by
  constructor
  · rintro ⟨hindex, -⟩
    by_contra h
    obtain ⟨stop, hstop⟩ := indexOf_stops h
    rw [hstop] at hindex
    cases hindex
  · intro h
    exact ⟨indexOf_eq h, contains_eq h⟩

/-- A run whose calls all meet the condition is answered as on a list, and leaves
an array with the contents of the list. There a call does what it does on the list
exactly if it meets the condition, and so does a search. -/
theorem refines_list_of_met (fresh : Nat → T) (capacity : Nat) (calls : List (Call T))
    (hmet : AllMet call Meets (new fresh capacity) calls) :
    let run := execute call (new fresh capacity) calls
    let spec := execute listCall [] calls
    run.2 = spec.2 ∧ run.1.toArray = spec.1 ∧ run.1.size = spec.1.length ∧
      (∀ index, run.1.get index = spec.1[index]?.elim
        (.error (.throwException .OUT_OF_BOUNDS)) .ok) ∧
      (∀ element, (run.1.indexOf element = .ok (spec.1.idxOf? element) ∧
        run.1.contains element = .ok (decide (element ∈ spec.1))) ↔ run.1.Searchable element) ∧
      ∀ c, observed (run.1.call c) = listCall spec.1 c ↔ run.1.Meets c := by
  intro run spec
  obtain ⟨harray, hanswers⟩ :=
    execute_simulates (R := fun l xs => l.toArray = xs) (fun l xs c hl hc => by
      subst hl
      exact Prod.ext_iff.mp ((observed_call_iff l c).mpr hc))
    rfl calls hmet
  change run.1.toArray = spec.1 at harray
  rw [← harray]
  exact ⟨hanswers, rfl, (length_toArray _).symm, get_eq _, indexOf_and_contains_iff _,
    observed_call_iff _⟩

/-- Nine elements are appended, so that the array grows, then two are removed. -/
theorem refines_list_of_met_growing :
    (execute call (new (fun _ => 0) 0) [.add 0, .addAt 1 1, .add 2, .add 3, .add 4, .add 5, .add 6,
      .add 7, .add 8,
        .removeAt 0, .remove 4, .set 0 9]).1.toArray = [9, 2, 3, 5, 6, 7, 8] :=
  (refines_list_of_met (fun _ => 0) 0 [.add 0, .addAt 1 1, .add 2, .add 3, .add 4, .add 5, .add 6,
    .add 7, .add 8, .removeAt 0, .remove 4, .set 0 9] (by decide)).2.1

/-- An element that was removed comes back in the place of the last one. -/
theorem addAt_front_loses_last :
    (execute call (new (fun _ => 0) 0) [.add 1, .add 2, .add 3, .removeAt 2,
      .addAt 0 7]).1.toArray = [7, 1, 3] ∧
      (execute listCall [] [.add 1, .add 2, .add 3, .removeAt 2, .addAt 0 7]).1 = [7, 1, 2] := by
  decide

end HuyaOS.ArrayList
