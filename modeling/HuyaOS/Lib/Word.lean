import Mathlib.Tactic

/-!
Unsigned 32-bit arithmetic on natural numbers. A machine word is a natural
number below `2 ^ 32`; every operation reduces its result, so a wrap-around
of the hardware is visible in the terms that compute with it.
-/

namespace HuyaOS.Lib

def add32 (a b : Nat) : Nat := (a + b) % 2 ^ 32

def sub32 (a b : Nat) : Nat := (a + (2 ^ 32 - b % 2 ^ 32)) % 2 ^ 32

theorem add32_lt (a b : Nat) : add32 a b < 2 ^ 32 :=
  Nat.mod_lt _ (by norm_num)

theorem sub32_lt (a b : Nat) : sub32 a b < 2 ^ 32 :=
  Nat.mod_lt _ (by norm_num)

variable {a b c : Nat}

theorem add32_eq (h : a + b < 2 ^ 32) : add32 a b = a + b :=
  Nat.mod_eq_of_lt h

theorem add32_add32 (h : a + b + c < 2 ^ 32) : add32 (add32 a b) c = a + b + c := by
  rw [add32_eq (a := a) (by omega), add32_eq h]

theorem add32_left_inj (hb : b < 2 ^ 32) (hc : c < 2 ^ 32) : add32 a b = add32 a c ↔ b = c := by
  unfold add32
  omega

theorem sub32_right_inj (ha : a < 2 ^ 32) (hb : b < 2 ^ 32) : sub32 a c = sub32 b c ↔ a = b := by
  unfold sub32
  omega

theorem sub32_eq (hba : b ≤ a) (ha : a < 2 ^ 32) : sub32 a b = a - b := by
  unfold sub32
  omega

end HuyaOS.Lib
