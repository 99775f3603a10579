import Mathlib.Tactic

/-!
Calls that do not return. `Cpu::throwException` ends in the blue screen and
`Cpu::halt` stops the processor, so a modelled function that gets there has no
result; it stops with the reason instead.
-/

namespace HuyaOS

/-- The exceptions that the modelled functions throw. -/
inductive Cpu.Exception
  | OUT_OF_MEMORY
  | OUT_OF_PHYS_MEMORY
  | OUT_OF_PAGE_MEMORY
  | PAGING_ERROR
  | ILLEGAL_STATE
  | OUT_OF_BOUNDS
  | KEY_NOT_FOUND
  | INVALID_ARGUMENT
  | UNKNOWN_TYPE
  deriving DecidableEq, Repr

/-- Why a call does not return. A page fault that needs a page table for its own
handler never gets to the end of the handler. Using a null pointer, a pointer to
an object that was deleted or what lies behind the end of a buffer has no defined
result. A division whose result does not exist or does not fit raises an exception of
the processor. -/
inductive Cpu.Stop
  | throwException (exception : Cpu.Exception)
  | halt
  | endlessFault
  | endlessLoop
  | nullPointer
  | danglingPointer
  | strayRead
  | divideError
  deriving DecidableEq, Repr

/-- The object that a pointer leads to. -/
def Cpu.deref {α : Type} (heap : Nat → Option α) : Option Nat → Except Cpu.Stop α
  | none => .error .nullPointer
  | some a =>
      match heap a with
      | none => .error .danglingPointer
      | some object => .ok object

theorem Cpu.deref_some {α : Type} {heap : Nat → Option α} {a : Nat} {object : α}
    (h : heap a = some object) :
    Cpu.deref heap (some a) = .ok object := by
  simp only [Cpu.deref, h]

theorem Cpu.deref_eq_ok {α : Type} {heap : Nat → Option α} {a : Nat} {object : α} :
    Cpu.deref heap (some a) = .ok object ↔ heap a = some object := by
  constructor
  · intro h
    cases hobject : heap a with
    | none => simp only [Cpu.deref, hobject, reduceCtorEq] at h
    | some other => exact congrArg some (Except.ok.inj ((Cpu.deref_some hobject).symm.trans h))
  · exact Cpu.deref_some

def Cpu.access {α : Type} : Option α → Except Cpu.Stop α
  | none => .error .strayRead
  | some value => .ok value

/-- A sequence returns when its first part returns and the rest returns from
there. -/
theorem bind_eq_ok {ε α β : Type} {x : Except ε α} {f : α → Except ε β} {r : β} :
    (x >>= f) = .ok r ↔ ∃ a, x = .ok a ∧ f a = .ok r := by
  cases x with
  | error e =>
    constructor
    · rintro ⟨⟩
    · rintro ⟨_, ⟨⟩, _⟩
  | ok a =>
    constructor
    · intro h
      exact ⟨a, rfl, h⟩
    · rintro ⟨_, ⟨⟩, h⟩
      exact h

/-- A sequence is observed as another one when their first parts are and the rests are
from there. -/
theorem map_bind_eq {ε α β γ δ : Type} {x : Except ε α} {y : Except ε γ} {f : α → γ} {g : β → δ}
    {k : α → Except ε β} {k' : γ → Except ε δ} (hfirst : x.map f = y)
    (hrest : ∀ a, x = .ok a → (k a).map g = k' (f a)) :
    (x >>= k).map g = y >>= k' := by
  subst hfirst
  cases x with
  | error e => rfl
  | ok a => exact hrest a rfl

end HuyaOS
