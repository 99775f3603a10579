import HuyaOS.Elf.CString
import HuyaOS.Libc.Strformat

/-!
Format strings that consist of literal characters and complete directives, and the text that
they stand for. A directive may set a padding, which stays in effect for the directives behind
it. The arguments are words: numbers, characters, or the addresses of strings.
-/

namespace HuyaOS.Libc

open Lib Elf List

/-- The letters of the directives. -/
inductive Kind
  | c
  | d
  | u
  | o
  | s
  | x
  | b
  deriving DecidableEq

namespace Kind

def char : Kind → UInt8
  | .c => 0x63
  | .d => 0x64
  | .u => 0x75
  | .o => 0x6F
  | .s => 0x73
  | .x => 0x78
  | .b => 0x62

/-- The case of a `switch` over the letters. -/
def ofChar (c : UInt8) : Option Kind :=
  [Kind.c, .d, .u, .o, .s, .x, .b].find? fun kind => kind.char = c

theorem ofChar_char (kind : Kind) : ofChar kind.char = some kind := by
  cases kind <;> rfl

theorem char_ne_zero (kind : Kind) : kind.char ≠ 0x30 := by
  cases kind <;> decide

def base : Kind → Option Nat
  | .c => none
  | .d => some 10
  | .u => some 10
  | .o => some 8
  | .s => none
  | .x => some 16
  | .b => some 2

theorem base_bounds {kind : Kind} {base : Nat} (h : kind.base = some base) :
    1 < base ∧ base ≤ 16 := by
  cases kind <;> cases h <;> decide

end Kind

/-- A character that is neither the percent sign nor the end of the format. -/
abbrev Literal : Type := {c : UInt8 // c ≠ 0x25 ∧ c ≠ 0}

inductive Item
  | literal (c : Literal)
  | directive (padding : Option (Fin 10)) (kind : Kind)

def Item.bytes : Item → List UInt8
  | .literal c => [c.1]
  | .directive none kind => [0x25, kind.char]
  | .directive (some digit) kind => [0x25, 0x30, 0x30 + UInt8.ofNat digit, kind.char]

def bytes (format : List Item) : List UInt8 := format.flatMap Item.bytes

theorem bytes_cons (item : Item) (format : List Item) :
    bytes (item :: format) = item.bytes ++ bytes format :=
  flatMap_cons

def directives : List Item → Nat
  | [] => 0
  | .literal _ :: format => directives format
  | .directive _ _ :: format => directives format + 1

def negative (i : UInt32) : Bool := 2 ^ 31 ≤ i.toNat

def piece (m : Mem) (kind : Kind) (padding : Nat) (i : UInt32) : List UInt8 :=
  match kind with
  | .c => [i.toUInt8]
  | .d => if negative i then 0x2D :: convert (-i).toNat 10 padding else convert i.toNat 10 padding
  | .u => convert i.toNat 10 padding
  | .o => convert i.toNat 8 padding
  | .s => cString m i.toNat
  | .x => convert i.toNat 16 padding
  | .b => convert i.toNat 2 padding

def nextPadding (own : Option (Fin 10)) (padding : Nat) : Nat := (own.map Fin.val).getD padding

theorem nextPadding_none (padding : Nat) : nextPadding none padding = padding := rfl

/-- The text of a format, given the padding in effect. What is missing from the arguments counts
as zero. -/
def text (m : Mem) : List Item → Nat → List UInt32 → List UInt8
  | [], _, _ => []
  | .literal c :: format, padding, args => c.1 :: text m format padding args
  | .directive own kind :: format, padding, args =>
      piece m kind (nextPadding own padding) (args.headD 0) ++ text m format
        (nextPadding own padding) args.tail

def lastPadding (padding : Nat) : List Item → Nat
  | [] => padding
  | .literal _ :: format => lastPadding padding format
  | .directive own _ :: format => lastPadding (nextPadding own padding) format

section Text

variable {m : Mem} {f g : List Item} {a : List UInt32} {padding : Nat}

/-- The second part of a format is written with the padding that the first part leaves. -/
theorem text_append (ha : a.length = directives f) (a' : List UInt32) :
    text m (f ++ g) padding (a ++ a') =
      text m f padding a ++ text m g (lastPadding padding f) a' := by
  induction f generalizing a padding with
  | nil =>
    obtain rfl : a = [] := eq_nil_of_length_eq_zero ha
    rfl
  | cons item f ih =>
    cases item with
    | literal c =>
      rw [cons_append, text, text, ih ha]
      rfl
    | directive own kind =>
      obtain ⟨i, a, rfl⟩ : ∃ i rest, a = i :: rest := exists_cons_of_length_eq_add_one ha
      rw [cons_append, text, text, append_assoc]
      exact congrArg (piece m kind (nextPadding own padding) i ++ ·) (ih (Nat.succ.inj ha))

end Text

/-- The sign that is written before a number. -/
def sign (kind : Kind) (i : UInt32) : List UInt8 := if kind = .d ∧ negative i then [0x2D] else []

def magnitude (kind : Kind) (i : UInt32) : Nat := (if kind = .d ∧ negative i then -i else i).toNat

theorem magnitude_lt (kind : Kind) (i : UInt32) : magnitude kind i < 2 ^ 32 := UInt32.toNat_lt _

variable {kind : Kind} {m : Mem}

theorem piece_of_base {base : Nat} (h : kind.base = some base) (padding : Nat) (i : UInt32) :
    piece m kind padding i = sign kind i ++ convert (magnitude kind i) base padding := by
  cases kind <;> cases h
  case d =>
      unfold piece sign magnitude
      cases negative i <;> rfl
  all_goals rfl

theorem piece_of_base_none (h : kind.base = none) (padding padding' : Nat) (i : UInt32) :
    piece m kind padding i = piece m kind padding' i := by
  cases kind <;> cases h <;> rfl

theorem zero_not_mem_piece {i : UInt32} (hc : kind = .c → i.toUInt8 ≠ 0) (padding : Nat) :
    0 ∉ piece m kind padding i := by
  cases hbase : kind.base with
  | some base =>
    have hbounds := Kind.base_bounds hbase
    rw [piece_of_base hbase, mem_append, not_or]
    constructor
    · unfold sign
      split_ifs <;> decide
    · exact zero_not_mem_convert hbounds.1 hbounds.2 (magnitude_lt kind i) padding
  | none =>
    cases kind with
    | c => exact fun h => hc rfl (mem_singleton.mp h).symm
    | s => exact zero_not_mem_cString _
    | d | u | o | x | b => cases hbase

theorem le_length_piece {base : Nat} (h : kind.base = some base) (padding : Nat) (i : UInt32) :
    max 1 padding ≤ (piece m kind padding i).length := by
  have hbounds := (Kind.base_bounds h).1
  have hdigits := length_numeral_pos base (magnitude kind i)
  rw [piece_of_base h, length_append, length_convert hbounds (magnitude_lt kind i),
    convert_zero hbounds (magnitude_lt kind i), length_map]
  omega

def digitCount (base : Nat) (kind : Kind) (i : UInt32) : Nat :=
  (numeral base (magnitude kind i)).length

/-- Every number before the first directive with a padding of its own has as many digits as the
padding asks for. -/
def Covered (padding : Nat) : List Item → List UInt32 → Prop
  | [], _ => True
  | .literal _ :: format, args => Covered padding format args
  | .directive (some _) _ :: _, _ => True
  | .directive none kind :: format, args =>
      (∀ base, kind.base = some base → padding ≤ digitCount base kind (args.headD 0)) ∧
        Covered padding format args.tail

section Padding

variable {m : Mem} (padding : Nat)

theorem length_piece_zero_le (kind : Kind) (i : UInt32) :
    (piece m kind 0 i).length ≤ (piece m kind padding i).length := by
  cases hbase : kind.base with
  | none => rw [piece_of_base_none hbase 0 padding]
  | some base =>
    rw [piece_of_base hbase, piece_of_base hbase, length_append, length_append,
      length_convert (Kind.base_bounds hbase).1 (magnitude_lt kind i) padding]
    omega

theorem piece_eq_piece_zero_iff (kind : Kind) (i : UInt32) :
    piece m kind padding i = piece m kind 0 i ↔
      ∀ base, kind.base = some base → padding ≤ digitCount base kind i := by
  cases hbase : kind.base with
  | none => exact iff_of_true (piece_of_base_none hbase padding 0 i) (by simp)
  | some base =>
    have hbounds := (Kind.base_bounds hbase).1
    have hlength : digitCount base kind i = (convert (magnitude kind i) base 0).length := by
      rw [convert_zero hbounds (magnitude_lt kind i), length_map]
      rfl
    rw [piece_of_base hbase, piece_of_base hbase, append_cancel_left_eq,
      convert_eq_convert_zero_iff hbounds (magnitude_lt kind i), ← hlength]
    simp

theorem length_text_zero_le (f : List Item) (a : List UInt32) :
    (text m f 0 a).length ≤ (text m f padding a).length := by
  induction f generalizing a with
  | nil => exact le_rfl
  | cons item f ih =>
    cases item with
    | literal c => exact Nat.succ_le_succ (ih a)
    | directive own kind =>
      cases own with
      | some digit => exact le_rfl
      | none =>
        rw [text, text, length_append, length_append]
        exact Nat.add_le_add (length_piece_zero_le padding kind _) (ih a.tail)

/-- A padding that was in effect before shows exactly if a number is shorter than it. Since
padding makes no text shorter, no two changes can make up for each other. -/
theorem text_eq_text_zero_iff (f : List Item) (a : List UInt32) :
    text m f padding a = text m f 0 a ↔ Covered padding f a := by
  induction f generalizing a with
  | nil => exact iff_of_true rfl trivial
  | cons item f ih =>
    cases item with
    | literal c =>
      rw [text, text, cons_inj_right]
      exact ih a
    | directive own kind =>
      cases own with
      | some digit => exact iff_of_true rfl trivial
      | none =>
        rw [text, text, Covered, ← piece_eq_piece_zero_iff, ← ih, nextPadding_none,
          nextPadding_none]
        constructor
        · intro h
          have hlength := congrArg length h
          rw [length_append, length_append] at hlength
          have hpiece := length_piece_zero_le (m := m) padding kind (a.headD 0)
          have hrest := length_text_zero_le (m := m) padding f a.tail
          exact append_inj h (by omega)
        · rintro ⟨hpiece, hrest⟩
          exact congrArg₂ (· ++ ·) hpiece hrest

end Padding

end HuyaOS.Libc
