import Mathlib.Tactic

/-!
Holders of resources. Every holder refers to at most one resource; a resource
that is held is not free, and is held by nobody else.
-/

namespace HuyaOS.Lib

open Function

variable {ε ρ : Type*}

structure Exclusive (held : ε → Option ρ) (free : Set ρ) : Prop where
  not_free : ∀ e r, held e = some r → r ∉ free
  unique : ∀ e e' r, held e = some r → held e' = some r → e = e'

/-- A resource that has been taken and that nobody holds yet. -/
structure Loose (held : ε → Option ρ) (free : Set ρ) (r : ρ) : Prop where
  not_free : r ∉ free
  not_held : ∀ e, held e ≠ some r

section Rules

variable {held held' : ε → Option ρ} {free free' : Set ρ} {r : ρ}

theorem Exclusive.mono (h : Exclusive held free) (hheld : ∀ e r, held' e = some r → held e = some r)
    (hfree : free' ⊆ free) : Exclusive held' free' where
  not_free e r he hr := h.not_free e r (hheld e r he) (hfree hr)
  unique e e' r he he' := h.unique e e' r (hheld e r he) (hheld e' r he')

theorem Loose.mono (h : Loose held free r) (hheld : ∀ e, held' e = some r → held e = some r)
    (hfree : free' ⊆ free) : Loose held' free' r where
  not_free hr := h.not_free (hfree hr)
  not_held e he := h.not_held e (hheld e he)

/-- A free resource is held by nobody, so it is loose once it is taken. -/
theorem Exclusive.loose (h : Exclusive held free) (hr : r ∈ free) : Loose held (free \ {r}) r where
  not_free hmem := hmem.2 rfl
  not_held e he := h.not_free e r he hr

variable [DecidableEq ε]

theorem Exclusive.hold (h : Exclusive held free) (hr : Loose held free r) (e : ε) :
    Exclusive (update held e (some r)) free := by
  have hcases : ∀ e' r', update held e (some r) e' = some r' →
      (e' = e ∧ r' = r) ∨ (e' ≠ e ∧ held e' = some r') := by
    intro e' r' he'
    rw [update_apply] at he'
    split at he'
    · rename_i heq
      exact .inl ⟨heq, (Option.some.inj he').symm⟩
    · rename_i hne
      exact .inr ⟨hne, he'⟩
  constructor
  · intro e' r' he'
    rcases hcases e' r' he' with ⟨_, rfl⟩ | ⟨_, hold⟩
    · exact hr.not_free
    · exact h.not_free e' r' hold
  · intro e₁ e₂ r' he₁ he₂
    rcases hcases e₁ r' he₁ with ⟨rfl, rfl⟩ | ⟨_, hold₁⟩
    · rcases hcases e₂ r' he₂ with ⟨rfl, _⟩ | ⟨_, hold₂⟩
      · rfl
      · exact absurd hold₂ (hr.not_held e₂)
    · rcases hcases e₂ r' he₂ with ⟨_, rfl⟩ | ⟨_, hold₂⟩
      · exact absurd hold₁ (hr.not_held e₁)
      · exact h.unique e₁ e₂ r' hold₁ hold₂

theorem Loose.hold (h : Loose held free r) {r' : ρ} (hne : r' ≠ r) (e : ε) :
    Loose (update held e (some r')) free r where
  not_free := h.not_free
  not_held e' he' := by
    rw [update_apply] at he'
    split at he'
    · exact hne (Option.some.inj he')
    · exact h.not_held e' he'

theorem update_none_eq_some {e e' : ε} (hsome : update held e none e' = some r) :
    e' ≠ e ∧ held e' = some r := by
  rw [update_apply] at hsome
  split at hsome
  · cases hsome
  · rename_i hne
    exact ⟨hne, hsome⟩

/-- A resource becomes free when its holder lets go of it. -/
theorem Exclusive.release (h : Exclusive held free) {e : ε} (he : held e = some r) :
    Exclusive (update held e none) (insert r free) where
  not_free e' r' he' := by
    obtain ⟨hne, hold⟩ := update_none_eq_some he'
    rintro (rfl | hfree)
    · exact hne (h.unique e' e r' hold he)
    · exact h.not_free e' r' hold hfree
  unique e₁ e₂ r' he₁ he₂ :=
    h.unique e₁ e₂ r' (update_none_eq_some he₁).2 (update_none_eq_some he₂).2

end Rules

end HuyaOS.Lib
