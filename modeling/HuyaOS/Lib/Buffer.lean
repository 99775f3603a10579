import Mathlib.Tactic

/-!
Arrays of a fixed size that are read and written one element at a time. An access
behind the end has no result. A loop that stores element after element overwrites
a range of the array and nothing else.
-/

namespace HuyaOS.Lib

variable {α : Type*} {n pos : Nat} {array : List α}

def store (array : List α) (i : Nat) (value : α) : Option (List α) :=
  if i < array.length then some (array.set i value) else none

/-- `for (i = 0; i < n; i++) array[pos + i] = source(i)` -/
def storeAll (array : List α) (pos : Nat) (source : Nat → Option α) : Nat → Option (List α)
  | 0 => some array
  | n + 1 => do
      let array ← storeAll array pos source n
      store array (pos + n) (← source n)

/-- `for (i = 0; i < n; i++) result[i] = array[pos + i]` -/
def loadAll (array : List α) (pos : Nat) : Nat → Option (List α)
  | 0 => some []
  | n + 1 => do
      let result ← loadAll array pos n
      return result ++ [← array[pos + n]?]

/-- The stored elements lie in their range, and around it nothing changes. -/
theorem storeAll_spec (array : List α) (pos : Nat) {source : Nat → Option α} {f : Nat → α}
    (hsource : ∀ i < n, source i = some (f i)) (hfits : pos + n ≤ array.length) :
    ∃ array', storeAll array pos source n = some array' ∧ array'.length = array.length ∧
      ∀ i, array'[i]? = if pos ≤ i ∧ i < pos + n then some (f (i - pos)) else array[i]? := by
  induction n with
  | zero =>
    refine ⟨array, rfl, rfl, fun i => ?_⟩
    rw [if_neg (by omega)]
  | succ n ih =>
    obtain ⟨array', hstore, hlength, hget⟩ := ih (fun i hi => hsource i (by omega)) (by omega)
    have hlt : pos + n < array'.length := by omega
    refine ⟨array'.set (pos + n) (f n), ?_, ?_, fun i => ?_⟩
    · simp only [storeAll, hstore, hsource n (Nat.lt_succ_self n), store, bind,
        Option.bind, if_pos hlt]
    · rw [List.length_set, hlength]
    · rw [List.getElem?_set, hget]
      by_cases hi : pos + n = i
      · subst hi
        rw [if_pos rfl, if_pos hlt, if_pos (by omega), Nat.add_sub_cancel_left]
      · rw [if_neg hi]
        congr 1
        rw [eq_iff_iff]
        omega

theorem loadAll_eq (hfits : pos + n ≤ array.length) :
    loadAll array pos n = some ((array.drop pos).take n) := by
  induction n with
  | zero => rfl
  | succ n ih =>
    have hlt : pos + n < array.length := by omega
    simp only [loadAll, ih (by omega), List.getElem?_eq_getElem hlt, bind, Option.bind, pure]
    rw [List.take_add_one, List.getElem?_drop, List.getElem?_eq_getElem hlt]
    rfl

theorem loadAll_eq_none (hpos : pos ≤ array.length) (hlong : array.length < pos + n) :
    loadAll array pos n = none := by
  induction n with
  | zero => exact absurd hlong (not_lt.mpr hpos)
  | succ n ih =>
    by_cases hbehind : array.length < pos + n
    · rw [loadAll, ih hbehind]
      rfl
    · rw [loadAll, loadAll_eq (not_lt.mp hbehind), List.getElem?_eq_none (by omega)]
      rfl

end HuyaOS.Lib
