import HuyaOS.Lib.PartialMap
import HuyaOS.Lib.WordArray

/-!
What linking rests on. Names are defined one after the other, and a weak definition does
not replace one that is there. Words of a memory are patched at sites that do not overlap,
so that the order of the patches does not matter. A loop that reads a part of the memory it
never writes computes the same as one that has read it before.
-/

namespace HuyaOS.Lib

open List

section Definitions

variable {K V : Type} [BEq K]

structure Definition (K V : Type) where
  name : K
  weak : Bool
  value : V

namespace Definition

def define (m : K → Option V) (d : Definition K V) : K → Option V :=
  if (m d.name).isSome && d.weak then m else PartialMap.insert m d.name d.value

/-- The definition that counts for a name: the last one that is not weak, or the first one
if all are weak. -/
def winner (ds : List (Definition K V)) (name : K) : Option V :=
  ((ds.reverse.find? fun d => d.name == name && !d.weak).or (ds.find? fun d => d.name == name)).map
    value

theorem exists_of_winner {ds : List (Definition K V)} {name : K} {v : V}
    (h : winner ds name = some v) :
    ∃ d ∈ ds, d.value = v := by
  obtain ⟨d, hd, hv⟩ := Option.map_eq_some_iff.mp h
  refine ⟨d, ?_, hv⟩
  rcases Option.or_eq_some_iff.mp hd with hstrong | ⟨-, hfirst⟩
  · exact mem_reverse.mp (mem_of_find?_eq_some hstrong)
  · exact mem_of_find?_eq_some hfirst

/-- A definition more changes the name that it defines, unless it is weak and comes late. -/
theorem winner_concat (ds : List (Definition K V)) (d : Definition K V) (name : K) :
    winner (ds ++ [d]) name =
      if (d.name == name) = true ∧ ¬((winner ds name).isSome = true ∧ d.weak = true) then
        some d.value
      else winner ds name := by
  simp only [winner, reverse_append, reverse_cons, reverse_nil, nil_append,
    singleton_append, find?_cons, find?_append, find?_nil]
  obtain hstrong | ⟨_, hstrong⟩ :=
    Option.eq_none_or_eq_some (ds.reverse.find? fun d => d.name == name && !d.weak) <;>
    obtain hfirst | ⟨_, hfirst⟩ := Option.eq_none_or_eq_some (ds.find? fun d => d.name == name) <;>
    cases d.name == name <;> cases d.weak <;> simp [hstrong, hfirst]

theorem foldl_define [LawfulBEq K] (ds : List (Definition K V)) (name : K) :
    ds.foldl define (fun _ => none) name = winner ds name := by
  induction ds using reverseRecOn generalizing name with
  | nil => rfl
  | append_singleton ds d ih =>
    rw [foldl_append, foldl_cons, define, winner_concat]
    by_cases hname : d.name = name
    · subst hname
      rw [ih]
      cases (winner ds d.name).isSome <;> cases d.weak <;> simp [PartialMap.insert, ih]
    · have hother : ¬(name == d.name) = true := fun h => hname (eq_of_beq h).symm
      have hkept : ¬((d.name == name) = true ∧ ¬((winner ds name).isSome = true ∧ d.weak = true)) :=
        fun h =>
        hname (eq_of_beq h.1)
      rw [if_neg hkept]
      cases (ds.foldl define (fun _ => none) d.name).isSome && d.weak with
      | true => exact ih name
      | false => exact (if_neg hother).trans (ih name)

end Definition

end Definitions

/-- The word at the site is replaced by a function of itself. -/
structure Patch where
  site : Nat
  value : Nat → Nat

namespace Patch

variable {p : Patch} {a : Nat} {ps : List Patch}

def apply (m : Mem) (p : Patch) : Mem := store32 m p.site (p.value (load32 m p.site))

theorem apply_of_outside {m : Mem} (h : a < p.site ∨ p.site + 4 ≤ a) : p.apply m a = m a :=
  store32_of_outside h

theorem foldl_apply_of_outside (m : Mem) (h : ∀ p ∈ ps, a < p.site ∨ p.site + 4 ≤ a) :
    ps.foldl apply m a = m a := by
  induction ps generalizing m with
  | nil => rfl
  | cons p ps ih =>
    obtain ⟨hp, hps⟩ := forall_mem_cons.mp h
    rw [foldl_cons, ih _ hps, apply_of_outside hp]

theorem load32_foldl_apply (m : Mem) (hapart : ps.Pairwise fun p q => Apart 1 p.site q.site)
    (hp : p ∈ ps) :
    load32 (ps.foldl apply m) p.site = p.value (load32 m p.site) % 2 ^ 32 := by
  induction ps generalizing m with
  | nil => exact absurd hp not_mem_nil
  | cons q ps ih =>
    obtain ⟨hq, hps⟩ := pairwise_cons.mp hapart
    rw [foldl_cons]
    rcases mem_cons.mp hp with rfl | hmem
    · have hlater : ∀ a, p.site ≤ a → a < p.site + 4 →
          ps.foldl apply (p.apply m) a = p.apply m a := by
        intro a hlo hhi
        refine foldl_apply_of_outside _ fun q hmem => ?_
        have := hq q hmem
        simp only [Apart] at this
        omega
      rw [load32_congr hlater]
      exact load32_store32_self ..
    · rw [ih _ hps hmem]
      have hword : load32 (q.apply m) p.site = load32 m p.site :=
        load32_store32_of_disjoint (by have := hq p hmem; simp only [Apart] at this; omega)
      rw [hword]

end Patch

/-- Two loops that do the same as long as an invariant holds. -/
theorem foldlM_congr {ε α β : Type*} {f g : β → α → Except ε β} (Inv : β → Prop) {l : List α}
    (heq : ∀ b, Inv b → ∀ x ∈ l, f b x = g b x)
    (hinv : ∀ b, Inv b → ∀ x ∈ l, ∀ b', g b x = .ok b' → Inv b') {b : β} (hb : Inv b) :
    l.foldlM f b = l.foldlM g b ∧ ∀ b', l.foldlM g b = .ok b' → Inv b' := by
  induction l generalizing b with
  | nil => exact ⟨rfl, fun b' h => Except.ok.inj h ▸ hb⟩
  | cons x l ih =>
    rw [foldlM_cons, foldlM_cons, heq b hb x mem_cons_self]
    cases hx : g b x with
    | error e => exact ⟨rfl, fun b' h => absurd h (by simp [bind, Except.bind])⟩
    | ok b₁ =>
      exact ih (fun b hb y hy => heq b hb y (mem_cons_of_mem x hy))
        (fun b hb y hy => hinv b hb y (mem_cons_of_mem x hy))
        (hinv b hb x mem_cons_self b₁ hx)

theorem foldlM_flatMap {ε α γ β : Type*} (f : β → α → Except ε β) (parts : γ → List α) (l : List γ)
    (b : β) :
    (l.flatMap parts).foldlM f b = l.foldlM (fun b x => (parts x).foldlM f b) b := by
  induction l generalizing b with
  | nil => rfl
  | cons x l ih =>
    rw [flatMap_cons, foldlM_append]
    exact congrArg _ (funext ih)

end HuyaOS.Lib
