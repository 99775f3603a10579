import Mathlib.Algebra.BigOperators.Group.Finset.Basic
import Mathlib.Algebra.Order.BigOperators.Group.Finset
import Mathlib.Tactic

/-!
Families of queues. What is in the queues is a multiset, which the operations on
one queue change by one element. A queue is in order with respect to a record of
the arrivals if its elements stand in the order in which they last arrived.
-/

namespace HuyaOS.Lib

open Function Multiset

variable {α : Type} {n p : Nat} {q : Nat → List α} {x : α}

def pending (n : Nat) (q : Nat → List α) : Multiset α := ∑ p ∈ Finset.range n, (q p : Multiset α)

theorem mem_pending : x ∈ pending n q ↔ ∃ p < n, x ∈ q p := by
  simp [pending, mem_sum]

theorem pending_update (hp : p < n) (l : List α) :
    pending n (update q p l) + (q p : Multiset α) = pending n q + (l : Multiset α) := by
  have hmem : p ∈ Finset.range n := Finset.mem_range.mpr hp
  unfold pending
  rw [← Finset.add_sum_erase _ _ hmem, ← Finset.add_sum_erase _ (fun p => (q p : Multiset α)) hmem,
    update_self]
  have hrest : ∑ i ∈ (Finset.range n).erase p, (update q p l i : Multiset α) =
      ∑ i ∈ (Finset.range n).erase p, (q i : Multiset α) :=
    Finset.sum_congr rfl fun i hi => by rw [update_of_ne (Finset.ne_of_mem_erase hi)]
  rw [hrest]
  abel

theorem pending_push (hp : p < n) (x : α) :
    pending n (update q p (q p ++ [x])) = x ::ₘ pending n q := by
  have h := pending_update hp (q p ++ [x]) (q := q)
  rw [← coe_add, add_comm (q p : Multiset α), ← add_assoc] at h
  rw [add_right_cancel h, coe_singleton, add_comm, singleton_add]

theorem pending_pop (hp : p < n) {rest : List α} (hq : q p = x :: rest) :
    pending n q = x ::ₘ pending n (update q p rest) := by
  have h := pending_update hp rest (q := q)
  rw [hq, ← cons_coe, add_cons] at h
  exact (add_right_cancel ((cons_add _ _ _).trans h)).symm

theorem pending_erase [DecidableEq α] (hp : p < n) (hx : x ∈ q p) :
    pending n q = x ::ₘ pending n (update q p ((q p).erase x)) := by
  have h := pending_update hp ((q p).erase x) (q := q)
  rw [← coe_erase] at h
  have hcons : (q p) = x ::ₘ (q p).erase x := (cons_erase (mem_coe.mpr hx)).symm
  rw [hcons, add_cons, erase_cons_head] at h
  exact (add_right_cancel ((cons_add _ _ _).trans h)).symm

theorem index_unique [DecidableEq α] (hnodup : (pending n q).Nodup) {p' : Nat} (hp : p < n)
    (hp' : p' < n) (hx : x ∈ q p) (hx' : x ∈ q p') : p' = p := by
  by_contra hne
  rw [pending_erase hp hx, nodup_cons] at hnodup
  apply hnodup.1
  refine mem_pending.mpr ⟨p', hp', ?_⟩
  rwa [update_of_ne hne]

variable [DecidableEq α] {arrivals l : List α}

/-- The elements of a queue stand in the order of their last arrivals. The record
of the arrivals begins with the latest. -/
def InOrder (arrivals l : List α) : Prop :=
  l.Pairwise fun x y => arrivals.idxOf y < arrivals.idxOf x

theorem InOrder.nil (arrivals : List α) : InOrder arrivals [] := List.Pairwise.nil

theorem InOrder.sublist {l' : List α} (h : InOrder arrivals l) (hsub : l'.Sublist l) :
    InOrder arrivals l' := List.Pairwise.sublist hsub h

theorem idxOf_arrival (hx : x ∉ l) {y : α} (hy : y ∈ l) :
    (x :: arrivals).idxOf y = arrivals.idxOf y + 1 :=
  List.idxOf_cons_ne _ (ne_of_mem_of_not_mem hy hx).symm

theorem InOrder.arrival (h : InOrder arrivals l) (hx : x ∉ l) : InOrder (x :: arrivals) l := by
  refine List.Pairwise.imp_of_mem ?_ h
  intro y z hy hz hlt
  rw [idxOf_arrival hx hz, idxOf_arrival hx hy]
  exact Nat.succ_lt_succ hlt

theorem InOrder.push (h : InOrder arrivals l) (hx : x ∉ l) :
    InOrder (x :: arrivals) (l ++ [x]) := by
  refine List.pairwise_append.mpr ⟨h.arrival hx, List.pairwise_singleton _ _, ?_⟩
  intro y hy z hz
  rw [List.mem_singleton.mp hz, List.idxOf_cons_self, idxOf_arrival hx hy]
  exact Nat.succ_pos _

/-- The first element has waited longest. -/
theorem InOrder.head (h : InOrder arrivals (x :: l)) {y : α} (hy : y ∈ l) :
    arrivals.idxOf y < arrivals.idxOf x :=
  List.rel_of_pairwise_cons h hy

end HuyaOS.Lib
