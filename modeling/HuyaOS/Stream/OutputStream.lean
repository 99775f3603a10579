import HuyaOS.Libc.Sprintf

/-!
The operators of `OutputStream` that write integers. The highest power of the base below the
number is searched first, then it is divided by one power after the other, so the digits come
out in the order in which they are put. What the model returns are the characters given to
`put`; the buffer behind it is not modelled.

A loop that is still running when the fuel is used up has no result, and neither has a division
by zero.
-/

namespace HuyaOS.OutputStream

open Lib Libc

/-- What is put before the digits. -/
def lead (base : Nat) : List UInt8 :=
  if base = 8 then [0x30] else if base = 16 then [0x30, 0x78] else []

def divisor (base ival : Nat) : Nat → Nat → Option Nat
  | 0, _ => none
  | fuel + 1, div =>
      if div = 0 then none
      else if base ≤ ival / div then divisor base ival fuel (div * base % 2 ^ 32)
      else some div

/-- The character for a digit, which is a signed `char`. -/
def digitChar (digit : UInt8) : UInt8 :=
  if digit.toNat < 10 ∨ 128 ≤ digit.toNat then 0x30 + digit else 0x41 + digit - 10

def digits (base : Nat) : Nat → Nat → Nat → Option (List UInt8)
  | 0, _, _ => none
  | fuel + 1, div, ival =>
      if div = 0 then some []
      else (digits base fuel (div / base) (ival % div)).map
        (digitChar (UInt8.ofNat (ival / div)) :: ·)

def writeUnsigned (fuel base : Nat) (ival : UInt32) : Option (List UInt8) := do
  let div ← divisor base ival.toNat fuel 1
  let text ← digits base fuel div ival.toNat
  return lead base ++ text

def writeSigned (fuel base : Nat) (ival : UInt32) : Option (List UInt8) :=
  if negative ival then (writeUnsigned fuel base (-ival)).map (0x2D :: ·)
    else writeUnsigned fuel base ival

section Digits

variable {base n k fuel : Nat}

theorem exponent_lt (hbase : 1 < base) (hn : n < 2 ^ 32) (hlo : base ^ k ≤ n ∨ k = 0) : k < 32 := by
  rcases hlo with hpow | rfl
  · have hexp : 2 ^ k < 2 ^ 32 := (Nat.pow_le_pow_left hbase k).trans_lt (hpow.trans_lt hn)
    exact (Nat.pow_lt_pow_iff_right (by decide)).mp hexp
  · decide

/-- The divisor goes through the powers of the base up to the number, so it never wraps around. -/
theorem divisor_eq (hbase : 1 < base) (hn : n < 2 ^ 32) (hfuel : 32 < fuel + k)
    (hlo : base ^ k ≤ n ∨ k = 0) :
    ∃ j, divisor base n fuel (base ^ k) = some (base ^ j) ∧ (base ^ j ≤ n ∨ j = 0) ∧
      n < base ^ (j + 1) := by
  have hpos : 0 < base ^ k := Nat.pow_pos (by omega)
  induction fuel generalizing k with
  | zero =>
    have := exponent_lt hbase hn hlo
    omega
  | succ fuel ih =>
    rw [divisor, if_neg hpos.ne']
    by_cases hmore : base ≤ n / base ^ k
    · have hnext : base ^ (k + 1) ≤ n := by
        rw [Nat.pow_succ', ← Nat.le_div_iff_mul_le hpos]
        exact hmore
      have hword : base ^ k * base % 2 ^ 32 = base ^ (k + 1) := by
        rw [← Nat.pow_succ, Nat.mod_eq_of_lt (hnext.trans_lt hn)]
      rw [if_pos hmore, hword]
      exact ih (by omega) (.inl hnext) (Nat.pow_pos (by omega))
    · rw [if_neg hmore]
      refine ⟨k, rfl, hlo, ?_⟩
      rw [Nat.pow_succ', ← Nat.div_lt_iff_lt_mul hpos]
      exact not_le.mp hmore

theorem digits_eq (hbase : 1 < base) (hfuel : k + 1 < fuel) :
    digits base fuel (base ^ k) n =
      some ((places base (k + 1) n).map fun d => digitChar (UInt8.ofNat d)) := by
  induction k generalizing n fuel with
  | zero =>
    obtain ⟨fuel, rfl⟩ : ∃ left, fuel = left + 2 := Nat.exists_eq_add_of_le' hfuel
    have hlast : 1 / base = 0 := Nat.div_eq_of_lt hbase
    rw [digits, pow_zero, hlast, digits]
    simp [places]
  | succ k ih =>
    obtain ⟨fuel, rfl⟩ : ∃ left, fuel = left + 1 := Nat.exists_eq_add_of_le' (by omega)
    have hpos : 0 < base ^ (k + 1) := Nat.pow_pos (by omega)
    have hnext : base ^ (k + 1) / base = base ^ k := by
      rw [Nat.pow_succ, Nat.mul_div_cancel _ (by omega)]
    rw [digits, if_neg hpos.ne', hnext, ih (Nat.lt_of_succ_lt_succ hfuel)]
    rfl

theorem digitChar_eq_hex {d : Nat} (h : d < 16) : digitChar (UInt8.ofNat d) = hex d := by
  have hall : ∀ d : Fin 16, digitChar (UInt8.ofNat d) = hex d := by decide
  exact hall ⟨d, h⟩

/-- With enough fuel an unsigned number is written as `convert` writes it. -/
theorem writeUnsigned_eq (hbase : 1 < base) (hle : base ≤ 16) (hfuel : 32 < fuel) (ival : UInt32) :
    writeUnsigned fuel base ival = some (lead base ++ convert ival.toNat base 0) := by
  have hn : ival.toNat < 2 ^ 32 := ival.toNat_lt
  obtain ⟨k, hdivisor, hlo, hhi⟩ := divisor_eq hbase hn hfuel (.inr rfl)
  have hk : k < 32 := exponent_lt hbase hn hlo
  have hchars : (places base (k + 1) ival.toNat).map (fun d => digitChar (UInt8.ofNat d)) =
      convert ival.toNat base 0 := by
    rw [convert_zero hbase hn, numeral_eq_places hbase hlo hhi]
    refine List.map_congr_left fun d hd => digitChar_eq_hex ?_
    rw [← numeral_eq_places hbase hlo hhi] at hd
    exact (lt_of_mem_numeral hbase hd).trans_le hle
  rw [pow_zero] at hdivisor
  unfold writeUnsigned
  rw [hdivisor, ← hchars]
  simp only [Option.bind_eq_bind, Option.bind_some, digits_eq hbase (show k + 1 < fuel by omega),
    Option.pure_def]

end Digits

theorem writeSigned_eq {fuel : Nat} (hfuel : 32 < fuel) (m : Mem) (ival : UInt32) :
    writeSigned fuel 10 ival = some (piece m .d 0 ival) := by
  have hnumber : ∀ i : UInt32, writeUnsigned fuel 10 i = some (convert i.toNat 10 0) :=
    writeUnsigned_eq (by decide) (by decide) hfuel
  unfold writeSigned piece
  rw [hnumber, hnumber]
  cases negative ival <;> rfl

/-- The two printers of integers agree, on every word and for the most negative one too. Both
loops of the stream have ended after 33 rounds. -/
theorem printers_agree (fuel : Nat) (hfuel : 33 ≤ fuel) :
    (∀ base ∈ [2, 8, 10, 16], ∀ ival : UInt32,
      writeUnsigned fuel base ival = some (lead base ++ convert ival.toNat base 0)) ∧
    ∀ (m : Mem) (before : Int → UInt8) (ival : UInt32),
      writeSigned fuel 10 ival = some (sprintfText m before [0x25, 0x64] [ival]) := by
  constructor
  · intro base hmem ival
    have hbounds : ∀ base ∈ [2, 8, 10, 16], 1 < base ∧ base ≤ 16 := by decide
    obtain ⟨hbase, hle⟩ := hbounds base hmem
    exact writeUnsigned_eq hbase hle hfuel ival
  · intro m before ival
    have htext : sprintfText m before [0x25, 0x64] [ival] = piece m .d 0 ival ++ [] :=
      sprintfText_bytes m before [.directive none .d] [ival]
    rw [htext, List.append_nil]
    exact writeSigned_eq hfuel m ival

/-- The most negative word. -/
theorem printers_agree_lowest :
    writeSigned 33 10 0x80000000 =
      some (sprintfText (fun _ => 0) (fun _ => 0) [0x25, 0x64] [0x80000000]) :=
  (printers_agree 33 le_rfl).2 _ _ _

end HuyaOS.OutputStream
