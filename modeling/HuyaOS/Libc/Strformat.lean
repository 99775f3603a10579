import HuyaOS.Lib.Numerals

/-!
`convert`, which writes a number in a base. The digits are put into a static buffer of 50
bytes from its end on, so the text grows at its front.
-/

namespace HuyaOS.Libc

open Lib List Nat

def hex (digit : Nat) : UInt8 :=
  [0x30, 0x31, 0x32, 0x33, 0x34, 0x35, 0x36, 0x37, 0x38, 0x39, 0x41, 0x42, 0x43, 0x44, 0x45,
    0x46].getD digit 0

/-- The first loop of `convert`. A word has at most 32 digits, so the loop has ended after as
many rounds. -/
def convertLoop (base : Nat) : Nat → Nat → List UInt8 → List UInt8
  | 0, _, text => text
  | left + 1, number, text =>
      let text := hex (number % base) :: text
      if number / base = 0 then text else convertLoop base left (number / base) text

/-- `convert(number, base, padding)`. The second loop takes the digits of the number that is
left, which is zero. -/
def convert (number base padding : Nat) : List UInt8 :=
  let text := convertLoop base 32 number []
  List.replicate (padding - text.length) (hex (0 % base)) ++ text

section Digits

variable {base number padding : Nat}

theorem convertLoop_eq (hbase : 1 < base) {left : Nat} (hleft : number < base ^ (left + 1))
    (text : List UInt8) :
    convertLoop base (left + 1) number text = (numeral base number).map hex ++ text := by
  induction left generalizing number text with
  | zero =>
    rw [pow_one] at hleft
    rw [convertLoop, if_pos (div_eq_of_lt hleft), numeral_of_lt hleft, mod_eq_of_lt hleft]
    rfl
  | succ left ih =>
    rw [convertLoop]
    by_cases hlast : number / base = 0
    · have hlt : number < base := (div_eq_zero_iff_lt (by omega)).mp hlast
      rw [if_pos hlast, numeral_of_lt hlt, mod_eq_of_lt hlt]
      rfl
    · have hle : base ≤ number := not_lt.mp fun hlt => hlast (div_eq_of_lt hlt)
      have hrest : number / base < base ^ (left + 1) := by
        rw [div_lt_iff_lt_mul (by omega)]
        exact hleft
      rw [if_neg hlast, ih hrest, numeral_of_le hbase hle, map_append, append_assoc]
      rfl

section

variable (hbase : 1 < base) (hnumber : number < 2 ^ 32)

include hbase hnumber

theorem convert_eq (padding : Nat) : convert number base padding =
      List.replicate (padding - (numeral base number).length) 0x30 ++
        (numeral base number).map hex := by
  have hword : number < base ^ (31 + 1) := hnumber.trans_le (Nat.pow_le_pow_left hbase 32)
  have hzero : hex (0 % base) = 0x30 := by rfl
  unfold convert
  simp only [convertLoop_eq hbase hword, append_nil, length_map, hzero]

theorem convert_zero : convert number base 0 = (numeral base number).map hex := by
  rw [convert_eq hbase hnumber, Nat.zero_sub]
  rfl

theorem length_convert (padding : Nat) :
    (convert number base padding).length = max padding (convert number base 0).length := by
  rw [convert_eq hbase hnumber, convert_zero hbase hnumber, length_append,
    length_replicate, length_map]
  omega

theorem convert_eq_convert_zero_iff :
    convert number base padding = convert number base 0 ↔
      padding ≤ (convert number base 0).length := by
  constructor
  · intro h
    have hlength := congrArg length h
    rw [length_convert hbase hnumber] at hlength
    omega
  · intro h
    rw [convert_zero hbase hnumber, length_map] at h
    rw [convert_eq hbase hnumber, convert_zero hbase hnumber, Nat.sub_eq_zero_of_le h]
    rfl

theorem length_convert_le (padding : Nat) :
    (convert number base padding).length ≤ max padding 32 := by
  have hdigits : (numeral base number).length ≤ 32 :=
    (length_numeral_le_iff hbase (by norm_num)).mpr
      (hnumber.trans_le (Nat.pow_le_pow_left hbase 32))
  rw [length_convert hbase hnumber, convert_zero hbase hnumber, length_map]
  omega

end

theorem hex_ne_zero {digit : Nat} (h : digit < 16) : hex digit ≠ 0 := by
  have hall : ∀ d : Fin 16, hex d ≠ 0 := by decide
  exact hall ⟨digit, h⟩

theorem zero_not_mem_convert (hbase : 1 < base) (hle : base ≤ 16) (hnumber : number < 2 ^ 32)
    (padding : Nat) :
    0 ∉ convert number base padding := by
  rw [convert_eq hbase hnumber, mem_append, not_or]
  constructor
  · intro h
    exact absurd (eq_of_mem_replicate h) (by decide)
  · intro h
    obtain ⟨d, hd, hzero⟩ := mem_map.mp h
    exact hex_ne_zero ((lt_of_mem_numeral hbase hd).trans_le hle) hzero

/-- The text and its terminator fit into the buffer. The text consists of digits that denote the
number, and they begin with a zero only if the padding asks for it or the number is zero. -/
theorem convert_denotes (hbase : 1 < base) (hle : base ≤ 16) (hnumber : number < 2 ^ 32)
    (hpadding : padding ≤ 49) :
    (convert number base padding).length + 1 ≤ 50 ∧ 0 ∉ convert number base padding ∧
      ∃ digits : List Nat, convert number base padding = digits.map hex ∧ (∀ d ∈ digits, d < base) ∧
        Nat.ofDigits base digits.reverse = number ∧
        digits.length = max padding (max 1 (Nat.digits base number).length) ∧
        (padding < digits.length → digits.headD 0 = 0 → number = 0) := by
  have hlength := length_convert_le hbase hnumber padding
  refine ⟨by omega, zero_not_mem_convert hbase hle hnumber padding,
    replicate (padding - (numeral base number).length) 0 ++ numeral base number, ?_, ?_, ?_, ?_, ?_⟩
  · rw [convert_eq hbase hnumber, map_append, map_replicate]
    rfl
  · intro d hd
    rcases mem_append.mp hd with hzero | hdigit
    · rw [eq_of_mem_replicate hzero]
      omega
    · exact lt_of_mem_numeral hbase hdigit
  · rw [reverse_append, reverse_replicate, ofDigits_append_replicate_zero, ofDigits_numeral]
  · rw [length_append, length_replicate, ← length_numeral]
    omega
  · intro hlong hhead
    by_contra hne
    rw [length_append, length_replicate] at hlong
    rw [Nat.sub_eq_zero_of_le (by omega)] at hhead
    exact headD_numeral_ne_zero base hne hhead

theorem convert_denotes_max : (convert 4294967295 2 49).length + 1 ≤ 50 :=
  (convert_denotes (by decide) (by decide) (by decide) (by decide)).1

end Digits

end HuyaOS.Libc
