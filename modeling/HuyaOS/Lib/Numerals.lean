import Mathlib.Data.Nat.Digits.Lemmas
import Mathlib.Tactic

/-!
Numbers written with digits, the most significant one first and zero with a single one. A
numeral can be made from its end, by dividing by the base again and again, or from its
beginning, by dividing by the powers of the base.
-/

namespace HuyaOS.Lib

open Nat List

def numeral (base n : Nat) : List Nat := if n = 0 then [0] else (Nat.digits base n).reverse

/-- The `k` lowest places of a number, from the highest of them on. All that is above them is
in the first one. -/
def places (base : Nat) : Nat → Nat → List Nat
  | 0, _ => []
  | k + 1, n => n / base ^ k :: places base k (n % base ^ k)

variable {base n k : Nat}

theorem numeral_of_lt (h : n < base) : numeral base n = [n] := by
  unfold numeral
  split
  · rename_i hzero
    rw [hzero]
  · rename_i hzero
    rw [digits_of_lt base n hzero h]
    rfl

theorem numeral_of_le (hbase : 1 < base) (h : base ≤ n) :
    numeral base n = numeral base (n / base) ++ [n % base] := by
  have hn : n ≠ 0 := by omega
  have hquot : n / base ≠ 0 := (div_pos h (by omega)).ne'
  unfold numeral
  rw [if_neg hn, if_neg hquot, digits_def' hbase (pos_of_ne_zero hn), reverse_cons]

theorem length_numeral (base n : Nat) :
    (numeral base n).length = max 1 (Nat.digits base n).length := by
  unfold numeral
  split
  · rename_i hzero
    simp [hzero]
  · rename_i hn
    have hpos := length_pos_of_ne_nil (digits_ne_nil_iff_ne_zero (b := base) |>.mpr hn)
    rw [length_reverse]
    omega

theorem length_numeral_pos (base n : Nat) : 0 < (numeral base n).length := by
  rw [length_numeral]
  exact Nat.le_max_left ..

theorem length_numeral_le_iff (hbase : 1 < base) (hk : 0 < k) :
    (numeral base n).length ≤ k ↔ n < base ^ k := by
  unfold numeral
  split
  · rename_i hzero
    rw [hzero]
    exact iff_of_true hk (Nat.pow_pos (by omega))
  · rw [length_reverse, Nat.digits_length_le_iff hbase]

theorem lt_of_mem_numeral (hbase : 1 < base) {d : Nat} (hd : d ∈ numeral base n) : d < base := by
  unfold numeral at hd
  split at hd
  · rw [mem_singleton.mp hd]
    omega
  · exact digits_lt_base hbase (mem_reverse.mp hd)

theorem ofDigits_numeral (base n : Nat) : Nat.ofDigits base (numeral base n).reverse = n := by
  unfold numeral
  split
  · rename_i hzero
    rw [hzero]
    exact ofDigits_singleton
  · rw [reverse_reverse, ofDigits_digits]

theorem headD_numeral_ne_zero (base : Nat) (hn : n ≠ 0) : (numeral base n).headD 0 ≠ 0 := by
  have hdigits : digits base n ≠ [] := digits_ne_nil_iff_ne_zero.mpr hn
  have hlast := getLast_digit_ne_zero base hn
  rw [numeral, if_neg hn, headD_eq_head?_getD, head?_reverse, getLast?_eq_getLast_of_ne_nil hdigits]
  exact hlast

theorem places_concat (base k n : Nat) :
    places base (k + 2) n = places base (k + 1) (n / base) ++ [n % base] := by
  induction k generalizing n with
  | zero => simp [places]
  | succ k ih =>
    have hdiv : n / base ^ (k + 2) = n / base / base ^ (k + 1) := by
      rw [Nat.div_div_eq_div_mul, ← Nat.pow_succ']
    have hmod : n % base ^ (k + 2) / base = n / base % base ^ (k + 1) := by
      rw [Nat.pow_succ', Nat.mod_mul_right_div_self]
    have hlast : n % base ^ (k + 2) % base = n % base :=
      mod_mod_of_dvd n (dvd_pow_self base (succ_ne_zero _))
    rw [places, ih, hdiv, hmod, hlast]
    rfl

theorem numeral_eq_places (hbase : 1 < base) (hlo : base ^ k ≤ n ∨ k = 0)
    (hhi : n < base ^ (k + 1)) :
    numeral base n = places base (k + 1) n := by
  induction k generalizing n with
  | zero =>
    rw [pow_one] at hhi
    rw [numeral_of_lt hhi]
    simp [places]
  | succ k ih =>
    have hpow : base ^ (k + 1) ≤ n := hlo.resolve_right (succ_ne_zero k)
    have hle : base ≤ n := (le_self_pow (succ_ne_zero k) base).trans hpow
    have hlo' : base ^ k ≤ n / base := by
      rw [le_div_iff_mul_le (by omega)]
      exact hpow
    have hhi' : n / base < base ^ (k + 1) := by
      rw [div_lt_iff_lt_mul (by omega)]
      exact hhi
    rw [numeral_of_le hbase hle, ih (Or.inl hlo') hhi', places_concat]

end HuyaOS.Lib
