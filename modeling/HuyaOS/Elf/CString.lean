import HuyaOS.Lib.Bytes

/-!
C strings in memory.
-/

namespace HuyaOS.Elf

open Lib

/-- The characters from an address up to a zero byte, or to the end of the address space. -/
def cStringLoop (m : Mem) : Nat → Nat → List UInt8
  | 0, _ => []
  | left + 1, a => if m a = 0 then [] else m a :: cStringLoop m left (a + 1)

def cString (m : Mem) (a : Nat) : List UInt8 := cStringLoop m (2 ^ 32 - a) a

variable {m m' : Mem} {a : Nat}

theorem cStringLoop_congr {left k : Nat} (hleft : k < left) (hzero : m (a + k) = 0)
    (h : ∀ x, a ≤ x → x ≤ a + k → m' x = m x) : cStringLoop m' left a = cStringLoop m left a := by
  induction left generalizing a k with
  | zero => exact absurd hleft (Nat.not_lt_zero k)
  | succ left ih =>
    rw [cStringLoop, cStringLoop, h a le_rfl (Nat.le_add_right a k)]
    split_ifs with hend
    · rfl
    · obtain ⟨k, rfl⟩ : ∃ k', k = k' + 1 :=
        Nat.exists_eq_succ_of_ne_zero fun h0 => hend (by rw [← hzero, h0]; rfl)
      have heq : a + 1 + k = a + (k + 1) := by omega
      rw [ih (by omega) (heq ▸ hzero) fun x hlo hhi => h x (by omega) (by omega)]

/-- A name does not depend on what lies behind its end. -/
theorem cString_congr {k : Nat} (hend : a + k < 2 ^ 32) (hzero : m (a + k) = 0)
    (h : ∀ x, a ≤ x → x ≤ a + k → m' x = m x) : cString m' a = cString m a :=
  cStringLoop_congr (by omega) hzero h

theorem zero_not_mem_cStringLoop (left a : Nat) : 0 ∉ cStringLoop m left a := by
  induction left generalizing a with
  | zero => exact List.not_mem_nil
  | succ left ih =>
    rw [cStringLoop]
    split_ifs with hzero
    · exact List.not_mem_nil
    · exact fun h => (List.mem_cons.mp h).elim (fun h0 => hzero h0.symm) (ih (a + 1))

theorem zero_not_mem_cString (a : Nat) : 0 ∉ cString m a := zero_not_mem_cStringLoop _ _

end HuyaOS.Elf
