import HuyaOS.Device.Keyboard
import HuyaOS.Lib.Transition

/-!
The places at which `Keyboard::decodeKey` reads its tables. A pressed key can have any code
below 128; the tables have 89 entries.
-/

namespace HuyaOS.Device.Keyboard

open Lib

def asciiReads (kb : Keyboard) (code : BitVec 8) : List (List (BitVec 8) × Nat) :=
  if code = 53 ∧ kb.prefixCode = prefix1 then []
  else if kb.gather.numLock ∧ kb.prefixCode = 0 ∧ 71 ≤ code ∧ code ≤ 83 then
    [(ascNumTab, (code - 71).toNat), (scanNumTab, (code - 71).toNat)]
  else if kb.gather.altRight then [(altTab, code.toNat)]
  else if kb.gather.shift then [(shiftTab, code.toNat)]
  else if kb.gather.capsLock then
    if (16 ≤ code ∧ code ≤ 26) ∨ (30 ≤ code ∧ code ≤ 40) ∨ (44 ≤ code ∧ code ≤ 50) then
      [(shiftTab, code.toNat)]
    else [(normalTab, code.toNat)]
  else [(normalTab, code.toNat)]

section Lookup

variable (behind : List (BitVec 8) → BitVec 8 → BitVec 8) (kb : Keyboard) (reply code : BitVec 8)

/-- The character and the scan code come from the entries read. -/
theorem getAsciiCode_eq :
    kb.getAsciiCode behind code = match kb.asciiReads code with
      | [(tab, i)] => kb.setAscii (tab.getD i (behind tab code)) code
      | [(asc, i), (scan, j)] => kb.setAscii (asc.getD i 0) (scan.getD j 0)
      | _ => kb.setAscii (BitVec.ofNat 8 '/'.toNat) Key.div := by
  unfold getAsciiCode asciiReads
  split_ifs <;> rfl

theorem decodeKey_of_make (hmake : code &&& breakBit = 0) :
    kb.decodeKey behind reply code =
      let (kb, done) := ((kb.addToBuffer code).setPressed true).decodeMake behind reply code
      ({ kb with prefixCode := 0 }, done) := by
  have hcode : ∀ code : BitVec 8, code &&& breakBit = 0 →
      code &&& ~~~breakBit = code ∧ ¬(code = prefix1 ∨ code = prefix2) := by decide
  obtain ⟨hself, hprefix⟩ := hcode code hmake
  unfold decodeKey
  simp only [hmake, hself, if_neg hprefix, ne_eq, not_true_eq_false, decide_false, if_false,
    Bool.false_eq_true]

/-- Those of `decodeKey`. The prefixes have the break bit, too. -/
def tableReads (kb : Keyboard) (code : BitVec 8) : List (List (BitVec 8) × Nat) :=
  let kb := (kb.addToBuffer code).setPressed true
  if code &&& breakBit ≠ 0 ∨ code ∈ [42, 54, 56, 29, 58, 70] ∨ code = 69 ∧ ¬kb.gather.ctrlLeft then
    []
  else kb.asciiReads code

/-- A byte is looked up in the tables, or what stands behind them has no effect on it. -/
theorem decodeKey_eq_tableReads :
    kb.decodeKey behind reply code =
      let next := (kb.addToBuffer code).setPressed true
      match kb.tableReads code with
      | [(tab, i)] =>
          ({ next.setAscii (tab.getD i (behind tab code)) code with prefixCode := 0 }, true)
      | [(asc, i), (scan, j)] =>
          ({ next.setAscii (asc.getD i 0) (scan.getD j 0) with prefixCode := 0 }, true)
      | _ => kb.decodeKey (fun _ _ => 0) reply code := by
  by_cases hbreak : code &&& breakBit = 0
  · rw [decodeKey_of_make _ _ _ _ hbreak, decodeKey_of_make _ _ _ _ hbreak]
    unfold tableReads decodeMake
    simp only [hbreak, List.mem_cons, List.not_mem_nil, or_false, getAsciiCode_eq]
    split_ifs <;> grind
  · have hreads : kb.tableReads code = [] := if_pos (.inl hbreak)
    rw [hreads]
    unfold decodeKey
    dsimp only
    rw [if_pos hbreak, if_pos hbreak]

end Lookup

def Inside (read : List (BitVec 8) × Nat) : Prop := read.2 < read.1.length

theorem asciiReads_inside_iff (kb : Keyboard) (code : BitVec 8) :
    (∀ read ∈ kb.asciiReads code, Inside read) ↔ code.toNat < 89 := by
  have halt : altTab.length = 89 := rfl
  have hshift : shiftTab.length = 89 := rfl
  have hnormal : normalTab.length = 89 := rfl
  have hasc : ascNumTab.length = 13 := rfl
  have hscan : scanNumTab.length = 13 := rfl
  unfold asciiReads
  split_ifs with hdiv hnum
  · exact iff_of_true nofun (by rw [hdiv.1]; decide)
  · simp only [List.forall_mem_cons, Inside, hasc, hscan, List.not_mem_nil, false_implies,
      implies_true, and_true]
    bv_omega
  all_goals simp [Inside, halt, hshift, hnormal]

theorem tableReads_inside_iff (kb : Keyboard) (code : BitVec 8) :
    (∀ read ∈ kb.tableReads code, Inside read) ↔ code.toNat < 89 ∨ 128 ≤ code.toNat := by
  have hbreak : ∀ code : BitVec 8, code &&& breakBit ≠ 0 ↔ 128 ≤ code.toNat := by decide
  dsimp only [tableReads]
  split_ifs with hnone
  · refine iff_of_true nofun ?_
    rcases hnone with hcode | hcode | ⟨rfl, -⟩
    · exact .inr ((hbreak code).mp hcode)
    · revert code
      decide
    · decide
  · rw [asciiReads_inside_iff, or_iff_left fun hcode => hnone (.inl ((hbreak code).mpr hcode))]

/-- Whatever the bytes before have done to the keyboard, each byte is looked up inside of the
tables if and only if none is the code of a pressed key behind their end. -/
theorem tables_inside_iff (behind : List (BitVec 8) → BitVec 8 → BitVec 8) (kb : Keyboard)
    (calls : List (BitVec 8 × BitVec 8)) :
    AllMet (parseInterruptData behind) (fun kb call => ∀ read ∈ kb.tableReads call.2,
      Inside read) kb calls ↔
      ∀ call ∈ calls, call.2.toNat < 89 ∨ 128 ≤ call.2.toNat := by
  simp only [tableReads_inside_iff]
  exact allMet_iff_forall

/-- A key with the code 89. -/
theorem tables_read_behind : ¬AllMet (parseInterruptData fun _ _ => 0)
    (fun kb call => ∀ read ∈ kb.tableReads call.2, Inside read) (new 0 0 (ack, ack, ack))
      [(ack, 89)] := by
  rintro ⟨h, -⟩
  exact absurd ((tableReads_inside_iff _ _).mp h) (by decide)

end HuyaOS.Device.Keyboard
