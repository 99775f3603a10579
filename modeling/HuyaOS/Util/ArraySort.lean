import HuyaOS.Cpu

/-!
`Array::sort`, a bubble sort that goes through the array until a pass changes nothing. Every pass
with a change makes the number of inversions smaller.
-/

namespace HuyaOS.Array

variable {α : Type*} [LinearOrder α]

/-- One pass of the `for` loop, from a position on: whether it has changed something, and what it
leaves. -/
def pass : List α → Bool × List α
  | x :: y :: rest =>
      if x > y then (true, y :: (pass (x :: rest)).2)
      else ((pass (y :: rest)).1, x :: (pass (y :: rest)).2)
  | array => (false, array)

def sortLoop : Nat → List α → Except Cpu.Stop (List α)
  | 0, _ => .error .endlessLoop
  | rounds + 1, array =>
      if (pass array).1 then sortLoop rounds (pass array).2 else .ok (pass array).2

/-- `sort(array)`. Without elements the bound of the loop wraps around, and the first access
fails. -/
def sort (rounds : Nat) (array : List α) : Except Cpu.Stop (List α) :=
  if array = [] then .error (.throwException .OUT_OF_BOUNDS) else sortLoop rounds array

/-- The pairs that are in the wrong order. -/
def inversions : List α → Nat
  | [] => 0
  | x :: rest => rest.countP (· < x) + inversions rest

theorem pass_perm (array : List α) : (pass array).2.Perm array := by
  fun_induction pass array with
  | case1 x y rest h ih => exact (ih.cons y).trans (.swap x y rest)
  | case2 x y rest h ih => exact ih.cons x
  | case3 array => exact .refl _

theorem inversions_pass (array : List α) :
    inversions (pass array).2 + (pass array).1.toNat ≤ inversions array := by
  fun_induction pass array with
  | case1 x y rest h ih =>
    have hcount := (pass_perm (x :: rest)).countP_eq (· < y)
    have hfirst : (x :: rest).countP (· < y) = rest.countP (· < y) :=
      List.countP_cons_of_neg (by simpa using h.le)
    have hsecond : (y :: rest).countP (· < x) = rest.countP (· < x) + 1 :=
      List.countP_cons_of_pos (by simpa using h)
    simp only [inversions, Bool.toNat_true] at ih ⊢
    omega
  | case2 x y rest h ih =>
    have hcount := (pass_perm (y :: rest)).countP_eq (· < x)
    simp only [inversions] at ih ⊢
    omega
  | case3 array => exact le_rfl

/-- A pass without a change has seen that all neighbours are in order. -/
theorem pass_unchanged (array : List α) (h : (pass array).1 = false) :
    (pass array).2 = array ∧ array.IsChain (· ≤ ·) := by
  fun_induction pass array with
  | case1 x y rest hxy ih => cases h
  | case2 x y rest hxy ih =>
    obtain ⟨heq, hchain⟩ := ih h
    exact ⟨congrArg (x :: ·) heq, .cons_cons (not_lt.mp hxy) hchain⟩
  | case3 array hshort =>
    refine ⟨rfl, ?_⟩
    match array, hshort with
    | [], _ => exact .nil
    | [x], _ => exact .singleton x
    | x :: y :: rest, hshort => exact (hshort x y rest rfl).elim

theorem sortLoop_sorts (rounds : Nat) (array : List α) (hrounds : inversions array < rounds) :
    ∃ sorted, sortLoop rounds array = .ok sorted ∧ sorted.Perm array ∧ sorted.Pairwise (· ≤ ·) := by
  induction rounds generalizing array with
  | zero => cases hrounds
  | succ rounds ih =>
    have hless := inversions_pass array
    rw [sortLoop]
    cases hchanged : (pass array).1 with
    | true =>
      rw [hchanged, Bool.toNat_true] at hless
      obtain ⟨sorted, hloop, hperm, hsorted⟩ := ih (pass array).2 (by omega)
      exact ⟨sorted, hloop, hperm.trans (pass_perm array), hsorted⟩
    | false =>
      obtain ⟨heq, hchain⟩ := pass_unchanged array hchanged
      rw [heq]
      exact ⟨array, rfl, .refl array, List.isChain_iff_pairwise.mp hchain⟩

/-- The loop comes to an end, and the array is a permutation in ascending order. -/
theorem sort_sorts {array : List α} (h : array ≠ []) :
    ∃ rounds sorted, sort rounds array = .ok sorted ∧ sorted.Perm array ∧
      sorted.Pairwise (· ≤ ·) := by
  refine ⟨inversions array + 1, ?_⟩
  rw [sort, if_neg h]
  exact sortLoop_sorts _ array (Nat.lt_succ_self _)

theorem sort_sorts_three : ∃ rounds sorted, sort rounds [3, 1, 2] = .ok sorted ∧
    sorted.Perm [3, 1, 2] ∧ sorted.Pairwise (· ≤ ·) :=
  sort_sorts (List.cons_ne_nil 3 [1, 2])

end HuyaOS.Array
