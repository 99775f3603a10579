import HuyaOS.Libc.Sprintf

/-!
`strtoint` of `string.c`. It takes the digits from the last one on and skips what is no digit.
All arithmetic is that of words.
-/

namespace HuyaOS.Libc

open Lib

/-- The loop of `strtoint`, over the characters from the last one on. Characters are signed, and
the colon counts as a digit of value ten. -/
def strtointLoop : List UInt8 → UInt32 → UInt32 → UInt32
  | [], _, result => result
  | c :: str, j, result =>
      let num := c.toInt8.toInt - 0x30
      if 0 ≤ num ∧ num ≤ 10 then strtointLoop str (j * 10) (result + UInt32.ofNat num.toNat * j)
      else strtointLoop str j result

def strtoint (str : List UInt8) : UInt32 :=
  let (limit, modifier) := if str.headD 0 = 0x2D then (1, -1) else (0, 1)
  strtointLoop (str.drop limit).reverse 1 0 * modifier

theorem hex_digit {d : Nat} (h : d < 10) : (hex d).toInt8.toInt - 0x30 = d ∧ hex d ≠ 0x2D := by
  have hall : ∀ d : Fin 10, (hex d).toInt8.toInt - 0x30 = d ∧ hex d ≠ 0x2D := by decide
  exact hall ⟨d, h⟩

theorem strtointLoop_digits {ds : List Nat} (hds : ∀ d ∈ ds, d < 10) (j result : UInt32) :
    strtointLoop (ds.map hex) j result = result + UInt32.ofNat (Nat.ofDigits 10 ds) * j := by
  induction ds generalizing j result with
  | nil => simp [strtointLoop]
  | cons d ds ih =>
    obtain ⟨hd, hrest⟩ := List.forall_mem_cons.mp hds
    rw [List.map_cons, strtointLoop]
    simp only [(hex_digit hd).1]
    rw [if_pos (by omega), ih hrest, Nat.ofDigits_cons, UInt32.ofNat_add, UInt32.ofNat_mul]
    have hten : UInt32.ofNat 10 = 10 := rfl
    rw [Int.toNat_natCast, hten]
    grind

theorem strtoint_numeral (n : Nat) :
    strtointLoop ((numeral 10 n).map hex).reverse 1 0 = UInt32.ofNat n := by
  rw [← List.map_reverse, strtointLoop_digits, ofDigits_numeral, UInt32.zero_add, UInt32.mul_one]
  exact fun d hd => lt_of_mem_numeral (by decide) (List.mem_reverse.mp hd)

/-- The number behind `"%d"` is read back, the most negative one as well, whose magnitude is no
`int`. -/
theorem strtoint_sprintf (m : Mem) (before : Int → UInt8) (n : UInt32) :
    strtoint (sprintfText m before (bytes [.directive none .d]) [n]) = n := by
  have hconvert : ∀ i : UInt32, convert i.toNat 10 0 = (numeral 10 i.toNat).map hex := fun i =>
    convert_zero (by decide) i.toNat_lt
  have htext : sprintfText m before (bytes [.directive none .d]) [n] = piece m .d 0 n := by
    rw [sprintfText_bytes]
    exact List.append_nil _
  rw [htext, piece]
  cases hneg : negative n with
  | true =>
    rw [if_pos rfl, hconvert]
    change strtointLoop ((numeral 10 (-n).toNat).map hex).reverse 1 0 * -1 = n
    rw [strtoint_numeral, UInt32.ofNat_toNat]
    grind
  | false =>
    have hsign : ((numeral 10 n.toNat).map hex).headD 0 ≠ 0x2D := by
      cases hnum : numeral 10 n.toNat with
      | nil => decide
      | cons d ds =>
        exact (hex_digit (lt_of_mem_numeral (by decide) (hnum ▸ List.mem_cons_self))).2
    rw [if_neg Bool.false_ne_true, hconvert, strtoint, if_neg hsign]
    change strtointLoop ((numeral 10 n.toNat).map hex).reverse 1 0 * 1 = n
    rw [strtoint_numeral, UInt32.ofNat_toNat, UInt32.mul_one]

end HuyaOS.Libc
