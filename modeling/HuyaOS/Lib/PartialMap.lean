import Mathlib.Tactic

/-!
Partial maps whose keys are told apart by a test that need not be equality. The
test only has to behave on the keys that are used; `KeyTest` says that on these
keys it is an equivalence, and that a number that is computed from a key does not
depend on which of several equivalent keys it is computed from.
-/

namespace HuyaOS.Lib

variable {K V : Type} [BEq K]

structure KeyTest (used : K → Prop) (code : K → Nat) : Prop where
  refl : ∀ {a}, used a → (a == a) = true
  symm : ∀ {a b}, used a → used b → (a == b) = true → (b == a) = true
  trans : ∀ {a b c}, used a → used b → used c → (a == b) = true → (b == c) = true → (a == c) = true
  code_eq : ∀ {a b}, used a → used b → (a == b) = true → code a = code b

theorem KeyTest.of_equivBEq [EquivBEq K] {code : K → Nat}
    (hcode : ∀ a b : K, (a == b) = true → code a = code b) :
    KeyTest (fun _ => True) code where
  refl _ := BEq.rfl
  symm _ _ := BEq.symm
  trans _ _ _ := BEq.trans
  code_eq _ _ := hcode _ _

theorem KeyTest.of_eq {used : K → Prop}
    (h : ∀ {a b : K}, used a → used b → ((a == b) = true ↔ a = b)) (code : K → Nat) :
    KeyTest used code where
  refl ha := (h ha ha).mpr rfl
  symm ha hb hab := (h hb ha).mpr ((h ha hb).mp hab).symm
  trans ha hb hc hab hbc := (h ha hc).mpr (((h ha hb).mp hab).trans ((h hb hc).mp hbc))
  code_eq ha hb hab := congrArg code ((h ha hb).mp hab)

namespace KeyTest

variable {used : K → Prop} {code : K → Nat} (test : KeyTest used code)

include test

theorem comm {a b : K} (ha : used a) (hb : used b) : (a == b) = (b == a) := by
  rw [Bool.eq_iff_iff]
  exact ⟨test.symm ha hb, test.symm hb ha⟩

theorem congr_right {a b c : K} (ha : used a) (hb : used b) (hc : used c) (h : (a == b) = true) :
    (c == a) = (c == b) := by
  rw [Bool.eq_iff_iff]
  exact ⟨fun hca => test.trans hc ha hb hca h,
    fun hcb => test.trans hc hb ha hcb (test.symm ha hb h)⟩

end KeyTest

namespace PartialMap

def insert (m : K → Option V) (key : K) (value : V) : K → Option V :=
  fun k => if k == key then some value else m k

def erase (m : K → Option V) (key : K) : K → Option V :=
  fun k => if k == key then none else m k

/-- Values that are inserted one after the other under their own keys: of several
with one key, the last one counts. -/
theorem foldl_insert_apply (key : V → K) (values : List V) (m : K → Option V) (k : K) :
    values.foldl (fun m v => insert m (key v) v) m k =
      (values.reverse.find? fun v => k == key v).or (m k) := by
  induction values generalizing m with
  | nil => rfl
  | cons v values ih =>
    rw [List.foldl_cons, ih, List.reverse_cons, List.find?_append, Option.or_assoc]
    unfold insert
    rw [List.find?_singleton]
    split <;> rfl

end PartialMap

end HuyaOS.Lib
