import HuyaOS.Libc.Format
import HuyaOS.Libc.Output

/-!
`sprintf`. The padding is set by a directive and never set back, so it is in effect for all
directives behind it.

A format that ends inside a directive would be read beyond its end; the model stops there.
-/

namespace HuyaOS.Libc

open Lib Elf List

namespace Sprintf

def putc (c : UInt8) (out : Out) : Out := (out.push c).store 0

def puts (s : List UInt8) (out : Out) : Out := (s.foldl Out.push out).store 0

/-- The `switch` in `_vprintf` for the argument `i`. -/
def directive (m : Mem) (kind : Kind) (padding : UInt8) (i : UInt32) (out : Out) : Out :=
  match kind with
  | .c => putc i.toUInt8 out
  | .d =>
      if negative i then puts (convert (-i).toNat 10 padding.toNat) (putc 0x2D out)
      else puts (convert i.toNat 10 padding.toNat) out
  | .u => puts (convert i.toNat 10 padding.toNat) out
  | .o => puts (convert i.toNat 8 padding.toNat) out
  | .s => puts (cString m i.toNat) out
  | .x => puts (convert i.toNat 16 padding.toNat) out
  | .b => puts (convert i.toNat 2 padding.toNat) out

/-- `_vprintf` from a place in the format on. A letter without a case takes no argument. -/
def vprintf (m : Mem) : List UInt8 → UInt8 → List UInt32 → Out → Out
  | [], _, _, out => out
  | c :: format, padding, args, out =>
      if c ≠ 0x25 then vprintf m format padding args (putc c out)
      else
        match format with
        | [] => out
        | letter :: format =>
            if letter = 0x30 then
              match format with
              | digit :: letter :: format =>
                  match Kind.ofChar letter with
                  | some kind =>
                      vprintf m format (digit - 0x30) args.tail
                        (directive m kind (digit - 0x30) (args.headD 0) out)
                  | none => vprintf m format (digit - 0x30) args out
              | _ => out
            else
              match Kind.ofChar letter with
              | some kind =>
                  vprintf m format padding args.tail (directive m kind padding (args.headD 0) out)
              | none => vprintf m format padding args out

end Sprintf

def sprintf (m : Mem) (before : Int → UInt8) (format : List UInt8) (args : List UInt32) : Out :=
  Sprintf.vprintf m format 0 args (Out.start before)

/-- The text that `sprintf` has written: as many characters as it returns. -/
def sprintfText (m : Mem) (before : Int → UInt8) (format : List UInt8) (args : List UInt32) :
    List UInt8 :=
  (sprintf m before format args).chars (sprintf m before format args).n.toNat

namespace Sprintf

section Text

variable {m : Mem} {before : Int → UInt8} {out : Out} {text : List UInt8} {closed : Bool}

theorem holds_putc (h : out.Holds before text closed) (c : UInt8) :
    (putc c out).Holds before (text ++ [c]) true :=
  (h.push c).store_zero

theorem holds_puts (h : out.Holds before text closed) (s : List UInt8) :
    (puts s out).Holds before (text ++ s) true := by
  cases s with
  | nil =>
    rw [append_nil]
    exact h.store_zero
  | cons c s => exact (h.pushAll (cons_ne_nil c s)).store_zero

theorem holds_directive (h : out.Holds before text closed) (kind : Kind) (padding : UInt8)
    (i : UInt32) :
    (directive m kind padding i out).Holds before (text ++ piece m kind padding.toNat i) true := by
  cases kind with
  | c => exact holds_putc h i.toUInt8
  | d =>
    unfold directive piece
    cases negative i with
    | false => exact holds_puts h _
    | true =>
      have hnumber := holds_puts (holds_putc h 0x2D) (convert (-i).toNat 10 padding.toNat)
      rw [append_assoc] at hnumber
      exact hnumber
  | s => exact holds_puts h _
  | u | o | x | b => exact holds_puts h _

end Text

end Sprintf

theorem digit_toNat (digit : Fin 10) : (0x30 + UInt8.ofNat digit - 0x30).toNat = digit := by
  revert digit
  decide

namespace Sprintf

theorem vprintf_directive (m : Mem) (own : Option (Fin 10)) (kind : Kind) (format : List UInt8)
    (padding : UInt8) (args : List UInt32) (out : Out) :
    ∃ next : UInt8, next.toNat = nextPadding own padding.toNat ∧
      vprintf m ((Item.directive own kind).bytes ++ format) padding args out =
        vprintf m format next args.tail (directive m kind next (args.headD 0) out) := by
  cases own with
  | none =>
    refine ⟨padding, rfl, ?_⟩
    rw [Item.bytes, cons_append, cons_append, nil_append, vprintf.eq_def]
    simp only [ne_eq, not_true_eq_false, if_false, if_neg kind.char_ne_zero, Kind.ofChar_char]
  | some digit =>
    refine ⟨0x30 + UInt8.ofNat digit - 0x30, digit_toNat digit, ?_⟩
    rw [Item.bytes, vprintf.eq_def]
    simp only [cons_append, nil_append, ne_eq, not_true_eq_false, if_false, if_true,
      Kind.ofChar_char]

/-- The loop writes what the format stands for. -/
theorem holds_vprintf {m : Mem} {before : Int → UInt8} (f : List Item) {out : Out}
    {written : List UInt8} {closed : Bool} (h : out.Holds before written closed) (padding : UInt8)
    (args : List UInt32) :
    ∃ closed', (vprintf m (bytes f) padding args out).Holds before
      (written ++ text m f padding.toNat args) closed' := by
  induction f generalizing out written closed padding args with
  | nil => exact ⟨closed, by rw [text, append_nil]; exact h⟩
  | cons item f ih =>
    cases item with
    | literal c =>
      have hrun : vprintf m (bytes (.literal c :: f)) padding args out =
          vprintf m (bytes f) padding args (putc c.1 out) := by
        rw [bytes_cons, Item.bytes, cons_append, vprintf.eq_def]
        exact if_pos c.2.1
      rw [hrun, text, append_cons]
      exact ih (holds_putc h c.1) padding args
    | directive own kind =>
      obtain ⟨next, hnext, hrun⟩ := vprintf_directive m own kind (bytes f) padding args out
      rw [bytes_cons, hrun, text, ← append_assoc, ← hnext]
      exact ih (holds_directive h kind next _) next args.tail

end Sprintf

theorem sprintfText_bytes (m : Mem) (before : Int → UInt8) (f : List Item) (args : List UInt32) :
    sprintfText m before (bytes f) args = text m f 0 args := by
  obtain ⟨closed, h⟩ := Sprintf.holds_vprintf f (Out.Holds.start before) 0 args
  unfold sprintfText sprintf
  rw [h.n_eq, Int.toNat_natCast, h.chars_eq]
  rfl

/-- The text of two formats in a row is the text of the one and the text of the other exactly if
the padding that the first one leaves does not show in the second one. -/
theorem sprintf_append_iff (m : Mem) (before : Int → UInt8) (f₁ f₂ : List Item)
    (a₁ a₂ : List UInt32) (h₁ : a₁.length = directives f₁) :
    sprintfText m before (bytes f₁ ++ bytes f₂) (a₁ ++ a₂) =
        sprintfText m before (bytes f₁) a₁ ++ sprintfText m before (bytes f₂) a₂ ↔
      Covered (lastPadding 0 f₁) f₂ a₂ := by
  have hbytes : bytes f₁ ++ bytes f₂ = bytes (f₁ ++ f₂) := flatMap_append.symm
  rw [hbytes, sprintfText_bytes, sprintfText_bytes, sprintfText_bytes, text_append h₁,
    append_cancel_left_eq]
  exact text_eq_text_zero_iff (lastPadding 0 f₁) f₂ a₂

/-- `"%02d"` and `"%d"`, the second one with a number of two digits. -/
theorem sprintf_append_iff_wide :
    sprintfText (fun _ => 0) (fun _ => 0)
      (bytes [.directive (some 2) .d] ++ bytes [.directive none .d]) ([1] ++ [12]) =
      sprintfText (fun _ => 0) (fun _ => 0) (bytes [.directive (some 2) .d]) [1] ++
        sprintfText (fun _ => 0) (fun _ => 0) (bytes [.directive none .d]) [12] := by
  apply (sprintf_append_iff (fun _ => 0) (fun _ => 0) _ _ [1] [12] rfl).mpr
  refine ⟨fun base hbase => ?_, trivial⟩
  obtain rfl : 10 = base := Option.some.inj hbase
  have hlong : ¬ digitCount 10 .d 12 ≤ 1 := by
    unfold digitCount
    decide
  exact not_le.mp hlong

/-- The second number of `"%02d%d"` is padded as the first one is. -/
theorem sprintf_keeps_padding :
    sprintfText (fun _ => 0) (fun _ => 0)
      (bytes [.directive (some 2) .d] ++ bytes [.directive none .d]) ([1] ++ [1]) =
        [0x30, 0x31, 0x30, 0x31] ∧
      sprintfText (fun _ => 0) (fun _ => 0) (bytes [.directive (some 2) .d]) [1] ++
        sprintfText (fun _ => 0) (fun _ => 0) (bytes [.directive none .d]) [1] =
          [0x30, 0x31, 0x31] := by
  decide +kernel

end HuyaOS.Libc
