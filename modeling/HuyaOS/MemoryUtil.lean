import HuyaOS.Lib.Word

/-!
`MemoryUtil::alignUp`, the rounding used by every memory manager. The source
adds and masks in 32 bits, so the rounding wraps to small values at the top of
the address space; the lemmas separate the exact case from the wrapped one.
-/

namespace HuyaOS.MemoryUtil

open Lib Nat

def alignUp (value alignment : Nat) : Nat :=
  if alignment = 0 then value
  else add32 value (alignment - 1) &&& (2 ^ 32 - 1 - (alignment - 1))

variable {k value alignment : Nat}

theorem and_mask {x : Nat} (hx : x < 2 ^ 32) (hk : k ≤ 32) :
    x &&& (2 ^ 32 - 1 - (2 ^ k - 1)) = x / 2 ^ k * 2 ^ k := by
  have hpow : 2 ^ k ≤ 2 ^ 32 := Nat.pow_le_pow_right (by norm_num) hk
  apply Nat.eq_of_testBit_eq
  intro i
  rw [testBit_and, testBit_mul_two_pow, testBit_div_two_pow]
  rw [show 2 ^ 32 - 1 - (2 ^ k - 1) = 2 ^ 32 - ((2 ^ k - 1) + 1) by omega]
  rw [testBit_two_pow_sub_succ (by omega)]
  by_cases hik : k ≤ i
  · rw [Nat.sub_add_cancel hik]
    by_cases hi : i < 32
    · simp [hik, hi]
    · have hbit : x.testBit i = false :=
        testBit_lt_two_pow (lt_of_lt_of_le hx (Nat.pow_le_pow_right (by norm_num) (by omega)))
      simp [hbit]
  · have hlt : i < k := by omega
    simp [hik, hlt]

theorem alignUp_two_pow (hk : k < 32) :
    alignUp value (2 ^ k) = add32 value (2 ^ k - 1) / 2 ^ k * 2 ^ k := by
  unfold alignUp
  rw [if_neg (Nat.two_pow_pos k).ne']
  exact and_mask (add32_lt _ _) (by omega)

theorem dvd_alignUp (value : Nat) (hk : k < 32) : 2 ^ k ∣ alignUp value (2 ^ k) := by
  rw [alignUp_two_pow hk]
  exact dvd_mul_left _ _

theorem alignUp_lt (value : Nat) (hk : k < 32) : alignUp value (2 ^ k) < 2 ^ 32 := by
  rw [alignUp_two_pow hk]
  exact lt_of_le_of_lt (div_mul_le_self _ _) (add32_lt _ _)

theorem le_alignUp (hk : k < 32) (hwrap : value + 2 ^ k ≤ 2 ^ 32) :
    value ≤ alignUp value (2 ^ k) := by
  have hpos : 0 < 2 ^ k := Nat.two_pow_pos k
  rw [alignUp_two_pow hk, add32_eq (by omega)]
  have hdiv := div_add_mod (value + (2 ^ k - 1)) (2 ^ k)
  rw [mul_comm] at hdiv
  omega

def roundUp (value alignment : Nat) : Nat :=
  if alignment = 0 then value else (value + (alignment - 1)) / alignment * alignment

/-- No alignment, or a power of two. -/
def IsAlignment (alignment : Nat) : Prop := alignment = 0 ∨ ∃ k < 32, alignment = 2 ^ k

theorem le_roundUp (value alignment : Nat) : value ≤ roundUp value alignment := by
  unfold roundUp
  split
  · exact le_refl value
  · rename_i hzero
    have hdiv := div_add_mod (value + (alignment - 1)) alignment
    have hmod := mod_lt (value + (alignment - 1)) (pos_of_ne_zero hzero)
    rw [mul_comm] at hdiv
    omega

theorem dvd_roundUp (value : Nat) (h : alignment ≠ 0) : alignment ∣ roundUp value alignment := by
  unfold roundUp
  rw [if_neg h]
  exact dvd_mul_left ..

theorem alignUp_eq_roundUp (h : IsAlignment alignment) (hword : roundUp value alignment < 2 ^ 32) :
    alignUp value alignment = roundUp value alignment := by
  rcases h with rfl | ⟨k, hk, rfl⟩
  · rfl
  · have hpos : 0 < 2 ^ k := Nat.two_pow_pos k
    have hle := le_roundUp value (2 ^ k)
    -- the result is a multiple, so it is one alignment below the end
    have hend : roundUp value (2 ^ k) + 2 ^ k ≤ 2 ^ 32 := by
      obtain ⟨q, hq⟩ := dvd_roundUp value hpos.ne'
      obtain ⟨w, hw⟩ : 2 ^ k ∣ 2 ^ 32 := pow_dvd_pow 2 hk.le
      rw [hq, hw] at hword ⊢
      exact Nat.mul_le_mul_left _ (Nat.lt_of_mul_lt_mul_left hword)
    rw [alignUp_two_pow hk, add32_eq (by omega)]
    unfold roundUp
    rw [if_neg hpos.ne']

/-- Requests are rounded to words; only the last three sizes wrap, to zero. -/
theorem alignUp_four {size : Nat} (h : size < 2 ^ 32) :
    alignUp size 4 = if size + 3 < 2 ^ 32 then (size + 3) / 4 * 4 else 0 := by
  rw [show 4 = 2 ^ 2 by norm_num, alignUp_two_pow (by norm_num)]
  unfold add32
  split <;> omega

end HuyaOS.MemoryUtil
