import Mathlib.Data.Finset.Card
import Mathlib.Logic.Function.Iterate
import Mathlib.Tactic

/-!
A walk that goes from place to place until a test holds. Where it goes from a place depends on
the place alone, so a walk that comes back to a place does not end. Among finitely many
places it ends soon or not at all.
-/

namespace HuyaOS.Lib

open Nat Finset Function

variable {α : Type*} (next : α → α) (stop : α → Bool)

def visited : Nat → α → List α
  | 0, _ => []
  | rounds + 1, a => a :: if stop a then [] else visited rounds (next a)

/-- Within a number of rounds the walk ends, and until then it stays among some places. -/
def endsWithin (inside : α → Bool) : Nat → α → Bool
  | 0, _ => false
  | rounds + 1, a => inside a && (stop a || endsWithin inside rounds (next a))

section Pursuit

variable {next stop} {inside : α → Bool} {a : α} {rounds : Nat} {k : Nat} {s : Finset α}

theorem mem_visited_iff {b : α} :
    b ∈ visited next stop rounds a ↔
      ∃ k < rounds, next^[k] a = b ∧ ∀ j < k, stop (next^[j] a) = false := by
  induction rounds generalizing a with
  | zero => exact iff_of_false List.not_mem_nil (by simp)
  | succ rounds ih =>
    have hrest : b ∈ (if stop a then [] else visited next stop rounds (next a)) ↔
        stop a = false ∧ b ∈ visited next stop rounds (next a) := by
      cases stop a <;> simp
    rw [visited, List.mem_cons, hrest, ih, exists_lt_succ_left]
    apply or_congr
    · exact ⟨fun hb => ⟨hb.symm, fun j hj => absurd hj (not_lt_zero j)⟩, fun hb => hb.1.symm⟩
    · simp only [forall_lt_succ_left, iterate_succ_apply, iterate_zero_apply]
      grind

theorem endsWithin_iff :
    endsWithin next stop inside rounds a = true ↔
      ∃ k < rounds, stop (next^[k] a) = true ∧ ∀ j ≤ k, inside (next^[j] a) = true := by
  induction rounds generalizing a with
  | zero => exact iff_of_false Bool.false_ne_true (by simp)
  | succ rounds ih =>
    rw [endsWithin, Bool.and_eq_true, Bool.or_eq_true, ih, exists_lt_succ_left]
    simp only [← Nat.lt_succ_iff, forall_lt_succ_left, iterate_succ_apply, iterate_zero_apply]
    grind

theorem iterate_ne_of_first (hstop : stop (next^[k] a) = true)
    (hfirst : ∀ j < k, stop (next^[j] a) = false) {i j : Nat} (hij : i < j) (hj : j ≤ k) :
    next^[i] a ≠ next^[j] a := by
  intro heq
  -- from the earlier place the walk would end as soon as from the later one
  have hsame : next^[k - j + i] a = next^[k] a := by
    rw [iterate_add_apply, heq, ← iterate_add_apply, Nat.sub_add_cancel hj]
  have hfalse := hfirst (k - j + i) (by omega)
  rw [hsame, hstop] at hfalse
  cases hfalse

/-- A walk among finitely many places ends within as many rounds as there are places. -/
theorem first_lt_card (hstop : stop (next^[k] a) = true)
    (hfirst : ∀ j < k, stop (next^[j] a) = false) (hmem : ∀ j ≤ k, next^[j] a ∈ s) :
    k < s.card := by
  have hinj : Set.InjOn (fun j => next^[j] a) (range (k + 1)) := by
    intro i hi j hj heq
    rw [mem_coe, mem_range] at hi hj
    rcases lt_trichotomy i j with hlt | heq' | hlt
    · exact absurd heq (iterate_ne_of_first hstop hfirst hlt (le_of_lt_succ hj))
    · exact heq'
    · exact absurd heq.symm (iterate_ne_of_first hstop hfirst hlt (le_of_lt_succ hi))
  have hcard := card_le_card_of_injOn _ (fun j hj => hmem j (le_of_lt_succ (mem_range.mp hj))) hinj
  rwa [card_range] at hcard

/-- The walk ends and looks only at places of a finite set exactly if it does so within as many
rounds as there are places. -/
theorem ends_inside_iff {bound : Nat} (hcard : s.card ≤ bound)
    (hmem : ∀ k, (∀ j ≤ k, inside (next^[j] a) = true) → next^[k] a ∈ s) :
    ((∃ k, stop (next^[k] a) = true) ∧ ∀ rounds, ∀ b ∈ visited next stop rounds a,
      inside b = true) ↔
      endsWithin next stop inside bound a = true := by
  rw [endsWithin_iff]
  constructor
  · rintro ⟨hends, hinside⟩
    let first := Nat.find hends
    have hstop : stop (next^[first] a) = true := Nat.find_spec hends
    have hfirst : ∀ j < first, stop (next^[j] a) = false := fun j hj =>
      Bool.eq_false_of_not_eq_true (Nat.find_min hends hj)
    have hall : ∀ j ≤ first, inside (next^[j] a) = true := fun j hj =>
      hinside (j + 1) _ (mem_visited_iff.mpr ⟨j, lt_succ_self j, rfl,
        fun i hi => hfirst i (hi.trans_le hj)⟩)
    have hlt := first_lt_card hstop hfirst fun j hj => hmem j fun i hi => hall i (hi.trans hj)
    exact ⟨first, hlt.trans_le hcard, hstop, hall⟩
  · rintro ⟨k, -, hstop, hall⟩
    refine ⟨⟨k, hstop⟩, fun rounds b hb => ?_⟩
    obtain ⟨j, -, rfl, hbefore⟩ := mem_visited_iff.mp hb
    apply hall
    by_contra hlt
    rw [hbefore k (not_le.mp hlt)] at hstop
    cases hstop

end Pursuit

end HuyaOS.Lib
