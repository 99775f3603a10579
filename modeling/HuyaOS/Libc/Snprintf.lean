import HuyaOS.Libc.Sprintf

/-!
`snprintf`. When the limit is reached, the text is closed and the index is made negative. That
the index is negative is also how a directive learns that its text was cut off, and with a
limit of one the index becomes zero instead.

There is no case for `u`: the letter writes nothing and leaves its argument to the next
directive. As in `sprintf`, the model stops in a format that ends inside a directive.
-/

namespace HuyaOS.Libc

open Lib Elf List

namespace Snprintf

def putc (c : UInt8) (out : Out) : Out := out.push c

def nputs (nmax : Int) : List UInt8 → Out → Out
  | [], out => out.store 0
  | c :: s, out =>
      if out.n = nmax - 1 then { out.store 0 with n := -1 * (out.n - 1) }
      else nputs nmax s (out.push c)

/-- The check behind `_nputs`, with the index before the directive. -/
def cutOff (temp : Int) (out : Out) : Out × Bool :=
  if out.n < 0 then ({ out with n := -1 * temp }, true) else (out, false)

/-- The `switch` in `_vsnprintf` for the argument `i`. The flag says that the function returns. -/
def directive (m : Mem) (nmax : Int) (kind : Kind) (padding : UInt8) (i : UInt32) (out : Out) :
    Out × Bool :=
  let temp := out.n
  match kind with
  | .c => (putc i.toUInt8 out, false)
  | .d =>
      if negative i then
        cutOff temp (nputs nmax (convert (-i).toNat 10 padding.toNat) (putc 0x2D out))
      else cutOff temp (nputs nmax (convert i.toNat 10 padding.toNat) out)
  | .u => (out, false)
  | .o => cutOff temp (nputs nmax (convert i.toNat 8 padding.toNat) out)
  | .s => cutOff temp (nputs nmax (cString m i.toNat) out)
  | .x =>
      if out.n < 0 then ({ out with n := -1 * temp }, true)
      else cutOff temp (nputs nmax (convert i.toNat 16 padding.toNat) out)
  | .b =>
      if out.n < 0 then ({ out with n := -1 * temp }, true)
      else cutOff temp (nputs nmax (convert i.toNat 2 padding.toNat) out)

/-- The arguments behind a directive. -/
def taken (kind : Kind) (args : List UInt32) : List UInt32 := if kind = .u then args else args.tail

/-- `_vsnprintf` from a place in the format on. -/
def vsnprintf (m : Mem) (nmax : Int) : List UInt8 → UInt8 → List UInt32 → Out → Out
  | [], _, _, out => out
  | c :: format, padding, args, out =>
      if c ≠ 0x25 then
        if out.n = nmax - 1 then { out.store 0 with n := -1 * (out.n - 1) }
        else vsnprintf m nmax format padding args (putc c out)
      else if out.n = nmax - 1 then { out.store 0 with n := -1 * out.n }
      else
        match format with
        | [] => out
        | letter :: format =>
            if letter = 0x30 then
              match format with
              | digit :: letter :: format =>
                  match Kind.ofChar letter with
                  | some kind =>
                      let (out, returns) := directive m nmax kind (digit - 0x30) (args.headD 0) out
                      if returns then out
                        else vsnprintf m nmax format (digit - 0x30) (taken kind args) out
                  | none => vsnprintf m nmax format (digit - 0x30) args out
              | _ => out
            else
              match Kind.ofChar letter with
              | some kind =>
                  let (out, returns) := directive m nmax kind padding (args.headD 0) out
                  if returns then out else vsnprintf m nmax format padding (taken kind args) out
              | none => vsnprintf m nmax format padding args out

end Snprintf

def intOf (nmax : UInt32) : Int := if negative nmax then nmax.toNat - 2 ^ 32 else nmax.toNat

def snprintf (m : Mem) (before : Int → UInt8) (nmax : UInt32) (format : List UInt8)
    (args : List UInt32) : Out :=
  Snprintf.vsnprintf m (intOf nmax) format 0 args (Out.start before)

namespace Snprintf

theorem vsnprintf_literal (m : Mem) (nmax : Int) (c : Literal) (format : List UInt8)
    (padding : UInt8) (args : List UInt32) (out : Out) :
    vsnprintf m nmax ((Item.literal c).bytes ++ format) padding args out =
      if out.n = nmax - 1 then { out.store 0 with n := -1 * (out.n - 1) }
      else vsnprintf m nmax format padding args (putc c.1 out) := by
  rw [Item.bytes, cons_append, vsnprintf.eq_def]
  exact if_pos c.2.1

theorem vsnprintf_directive (m : Mem) (nmax : Int) (own : Option (Fin 10)) (kind : Kind)
    (format : List UInt8) (padding : UInt8) (args : List UInt32) (out : Out) :
    ∃ next : UInt8, next.toNat = nextPadding own padding.toNat ∧
      vsnprintf m nmax ((Item.directive own kind).bytes ++ format) padding args out =
        if out.n = nmax - 1 then { out.store 0 with n := -1 * out.n }
        else if (directive m nmax kind next (args.headD 0) out).2 then
          (directive m nmax kind next (args.headD 0) out).1
        else
          vsnprintf m nmax format next (taken kind args)
            (directive m nmax kind next (args.headD 0) out).1 := by
  cases own with
  | none =>
    refine ⟨padding, rfl, ?_⟩
    rw [Item.bytes, cons_append, cons_append, nil_append, vsnprintf.eq_def]
    simp only [ne_eq, not_true_eq_false, if_false, if_neg kind.char_ne_zero, Kind.ofChar_char]
  | some digit =>
    refine ⟨0x30 + UInt8.ofNat digit - 0x30, digit_toNat digit, ?_⟩
    rw [Item.bytes, vsnprintf.eq_def]
    simp only [cons_append, nil_append, ne_eq, not_true_eq_false, if_false, if_true,
      Kind.ofChar_char]

variable {out : Out} {kind : Kind}

/-- Apart from `c` and `u`, a directive that is reached hands its text to `_nputs`. The sign goes
where `_nputs` would have put it. -/
theorem directive_eq (m : Mem) {nmax : Int} (hc : kind ≠ .c) (hu : kind ≠ .u) (padding : UInt8)
    (i : UInt32) (hn : 0 ≤ out.n) (hroom : out.n ≠ nmax - 1) :
    directive m nmax kind padding i out =
      cutOff out.n (nputs nmax (piece m kind padding.toNat i) out) := by
  cases kind with
  | c => exact absurd rfl hc
  | u => exact absurd rfl hu
  | d =>
    unfold directive piece
    cases negative i with
    | false => rfl
    | true =>
      simp only [if_true]
      rw [nputs, if_neg hroom]
      rfl
  | o | s => rfl
  | x | b => exact if_neg (not_lt.mpr hn)

theorem vsnprintf_full (m : Mem) {nmax : Int} (item : Item) (format : List UInt8) (padding : UInt8)
    (args : List UInt32) (hfull : out.n = nmax - 1) :
    ∃ n, vsnprintf m nmax (item.bytes ++ format) padding args out = { out.store 0 with n } := by
  cases item with
  | literal c =>
    exact ⟨_, (vsnprintf_literal m nmax c format padding args out).trans (if_pos hfull)⟩
  | directive own kind =>
    obtain ⟨next, -, hrun⟩ := vsnprintf_directive m nmax own kind format padding args out
    exact ⟨_, hrun.trans (if_pos hfull)⟩

/-- Whether the text is closed behind the items. A literal and `c` write no zero. -/
def closesText (closed : Bool) : List Item → Bool
  | [] => closed
  | .literal _ :: format => closesText false format
  | .directive _ kind :: format => closesText (kind ≠ .c) format

/-- No `u` is reached: the limit lies before each of them. There are `n` characters already. -/
def Known (m : Mem) (limit : Nat) : Nat → List Item → Nat → List UInt32 → Prop
  | _, [], _, _ => True
  | n, .literal _ :: format, padding, args => Known m limit (n + 1) format padding args
  | n, .directive own kind :: format, padding, args =>
      (kind = .u → limit ≤ n) ∧
        Known m limit (n + (piece m kind (nextPadding own padding) (args.headD 0)).length) format
          (nextPadding own padding) args.tail

/-- The text has been cut off and closed at the limit. -/
structure Stopped (out : Out) (limit : Nat) (text : List UInt8) : Prop where
  limit_le : limit ≤ text.length
  chars_eq : out.chars limit = text.take limit
  terminated : out.strout limit = 0
  touched : ∀ i ∈ out.touched, 0 ≤ i ∧ i ≤ limit

theorem Stopped.append {limit : Nat} {text : List UInt8} (h : Stopped out limit text)
    (rest : List UInt8) : Stopped out limit (text ++ rest) where
  limit_le := by rw [length_append]; exact h.limit_le.trans (Nat.le_add_right _ _)
  chars_eq := by rw [take_append_of_le_length h.limit_le]; exact h.chars_eq
  terminated := h.terminated
  touched := h.touched

/-- There is room for as many characters. Without a positive limit there always is. -/
def Room (nmax : Int) (length : Nat) : Prop := nmax ≤ 0 ∨ length ≤ nmax - 1

/-- What is left behind by a writer of a text: all of it, or a part that ends at the limit. Items
without text may come behind the limit. -/
def Outcome (before : Int → UInt8) (nmax : Int) (out : Out) (text : List UInt8)
    (closed : Bool) : Prop :=
  (Room nmax text.length ∧ out.Holds before text closed) ∨
    ∃ limit : Nat, nmax = limit + 1 ∧ (limit < text.length ∨ closed = true) ∧
      Stopped out limit text

/-- The same for a writer that says whether it has stopped. -/
def Answer (before : Int → UInt8) (nmax : Int) (r : Out × Bool) (text : List UInt8)
    (closed : Bool) : Prop :=
  (r.2 = false ∧ Room nmax text.length ∧ r.1.Holds before text closed) ∨
    (r.2 = true ∧ ∃ limit : Nat, nmax = limit + 1 ∧ limit < text.length ∧ Stopped r.1 limit text)

section Run

variable {before : Int → UInt8} {nmax : Int} {m : Mem} {out : Out} {text : List UInt8}
  {closed : Bool} {limit padding : Nat}

theorem stopped_of_full (h : out.Holds before text closed) (hfull : out.n = nmax - 1) (n : Int) :
    nmax = text.length + 1 ∧ Stopped { out.store 0 with n } text.length text := by
  refine ⟨by rw [← h.n_eq]; omega, le_rfl, ?_, ?_, ?_⟩
  · rw [take_length]
    exact h.chars_store 0
  · exact h.store_zero.terminated rfl
  · intro i hi
    have := h.store_touched 0 i hi
    omega

theorem room_succ (h : out.Holds before text closed) (hroom : Room nmax text.length)
    (hfull : out.n ≠ nmax - 1) : Room nmax (text.length + 1) := by
  have hn := h.n_eq
  unfold Room at hroom ⊢
  omega

section

variable (hnmax : nmax ≠ 2) (h : out.Holds before text closed)

include hnmax h

theorem nputs_cases (hroom : Room nmax text.length) (hsome : nmax ≠ 1) (s : List UInt8) :
    (0 ≤ (nputs nmax s out).n ∧ Room nmax (text ++ s).length ∧
        (nputs nmax s out).Holds before (text ++ s) true) ∨
      ((nputs nmax s out).n < 0 ∧
        ∃ limit : Nat, nmax = limit + 1 ∧ limit < (text ++ s).length ∧
          Stopped (nputs nmax s out) limit (text ++ s)) := by
  induction s generalizing out text closed with
  | nil =>
    rw [append_nil]
    refine .inl ⟨?_, hroom, h.store_zero⟩
    exact h.n_eq ▸ Int.natCast_nonneg _
  | cons c s ih =>
    rw [nputs]
    by_cases hfull : out.n = nmax - 1
    · rw [if_pos hfull]
      obtain ⟨hlimit, hstopped⟩ := stopped_of_full h hfull (-1 * (out.n - 1))
      refine .inr ⟨?_, text.length, hlimit, ?_, hstopped.append (c :: s)⟩
      · change -1 * (out.n - 1) < 0
        omega
      · rw [length_append, length_cons]
        omega
    · rw [if_neg hfull, append_cons]
      refine ih (h.push c) ?_
      rw [length_append]
      exact room_succ h hroom hfull

theorem cutOff_nputs (hroom : Room nmax text.length) (hsome : nmax ≠ 1) (temp : Int)
    (s : List UInt8) : Answer before nmax (cutOff temp (nputs nmax s out)) (text ++ s) true := by
  unfold cutOff
  rcases nputs_cases hnmax h hroom hsome s with
    ⟨hn, hfits, hholds⟩ | ⟨hn, limit, hlimit, hlt, hstopped⟩
  · rw [if_neg (not_lt.mpr hn)]
    exact .inl ⟨rfl, hfits, hholds⟩
  · rw [if_pos hn]
    exact .inr ⟨rfl, limit, hlimit, hlt,
      ⟨hstopped.limit_le, hstopped.chars_eq, hstopped.terminated, hstopped.touched⟩⟩

theorem directive_cases (hroom : Room nmax (text.length + 1)) {kind : Kind} (hu : kind ≠ .u)
    (padding : UInt8) (i : UInt32) :
    Answer before nmax (directive m nmax kind padding i out) (text ++ piece m kind padding.toNat i)
      (kind ≠ .c) := by
  have hn := h.n_eq
  by_cases hc : kind = .c
  · subst hc
    refine .inl ⟨rfl, ?_, h.push i.toUInt8⟩
    rw [length_append]
    exact hroom
  · have hless : Room nmax text.length := by unfold Room at hroom ⊢; omega
    have hsome : nmax ≠ 1 := by unfold Room at hroom; omega
    have hnotfull : out.n ≠ nmax - 1 := by unfold Room at hroom; omega
    rw [directive_eq m hc hu padding i (by omega) hnotfull, decide_eq_true hc]
    exact cutOff_nputs hnmax h hless hsome out.n (piece m kind padding.toNat i)

end

/-- Before the limit there is no `u`. If the limit is not positive, it is beyond the whole text. -/
theorem ne_u_of_known (h : out.Holds before text closed) (hroom : Room nmax text.length)
    (hfull : out.n ≠ nmax - 1) {kind : Kind} {i : UInt32}
    (hlimit : nmax = limit + 1 ∨ nmax ≤ 0 ∧ (text ++ piece m kind padding i).length ≤ limit)
    (hknown : kind = .u → limit ≤ text.length) : kind ≠ .u := by
  rintro rfl
  have hn := h.n_eq
  have hreached := hknown rfl
  have hdigit := le_length_piece (m := m) (rfl : Kind.u.base = some 10) padding i
  unfold Room at hroom
  rw [length_append] at hlimit
  omega

theorem closesText_of_empty {f : List Item} (hf : f ≠ []) {args : List UInt32}
    (h : Libc.text m f padding args = []) : closesText closed f = true := by
  induction f generalizing closed padding args with
  | nil => exact absurd rfl hf
  | cons item f ih =>
    cases item with
    | literal c => cases h
    | directive own kind =>
      obtain ⟨hpiece, hrest⟩ := append_eq_nil_iff.mp h
      have hc : kind ≠ .c := by
        rintro rfl
        cases hpiece
      rw [closesText, decide_eq_true hc]
      by_cases hmore : f = []
      · rw [hmore]
        rfl
      · exact ih hmore hrest

/-- The loop writes all of the text or stops at the limit. -/
theorem vsnprintf_cases (f : List Item) (hnmax : nmax ≠ 2) (h : out.Holds before text closed)
    (hroom : Room nmax text.length) (padding : UInt8) (args : List UInt32)
    (hlimit : nmax = limit + 1 ∨
      nmax ≤ 0 ∧ (text ++ Libc.text m f padding.toNat args).length ≤ limit)
    (hknown : Known m limit text.length f padding.toNat args) :
    Outcome before nmax (vsnprintf m nmax (bytes f) padding args out)
      (text ++ Libc.text m f padding.toNat args) (closesText closed f) := by
  induction f generalizing out text closed padding args with
  | nil =>
    have hempty : text ++ Libc.text m [] padding.toNat args = text := append_nil text
    rw [hempty]
    exact .inl ⟨hroom, h⟩
  | cons item f ih =>
    rw [bytes_cons]
    by_cases hfull : out.n = nmax - 1
    · obtain ⟨n, hstop⟩ := vsnprintf_full m item (bytes f) padding args hfull
      obtain ⟨hlimit, hstopped⟩ := stopped_of_full h hfull n
      rw [hstop]
      refine .inr ⟨text.length, hlimit, ?_, hstopped.append _⟩
      rcases eq_or_ne (Libc.text m (item :: f) padding.toNat args) [] with hempty | hmore
      · exact .inr (closesText_of_empty (cons_ne_nil item f) hempty)
      · have := length_pos_of_ne_nil hmore
        rw [length_append]
        omega
    · have hone := room_succ h hroom hfull
      cases item with
      | literal c =>
        rw [Libc.text, append_cons] at hlimit ⊢
        rw [vsnprintf_literal, if_neg hfull]
        apply ih (h.push c.1) _ padding args hlimit
        · rw [length_append]
          exact hknown
        · rw [length_append]
          exact hone
      | directive own kind =>
        obtain ⟨next, hnext, hrun⟩ :=
          vsnprintf_directive m nmax own kind (bytes f) padding args out
        rw [Libc.text, ← append_assoc, ← hnext] at hlimit ⊢
        rw [Known, ← hnext, ← length_append] at hknown
        have hshort : nmax = limit + 1 ∨
            nmax ≤ 0 ∧ (text ++ piece m kind next.toNat (args.headD 0)).length ≤ limit := by
          rw [length_append] at hlimit
          omega
        have hkind : kind ≠ .u := ne_u_of_known h hroom hfull hshort hknown.1
        rw [hrun, if_neg hfull, taken, if_neg hkind]
        rcases directive_cases hnmax h hone hkind next (args.headD 0) with
          ⟨hgoes, hfits, hholds⟩ | ⟨hstops, limit, hlimit, hlt, hstopped⟩
        · rw [if_neg (by rw [hgoes]; exact Bool.false_ne_true)]
          exact ih hholds hfits next args.tail hlimit hknown.2
        · rw [if_pos hstops]
          refine .inr ⟨limit, hlimit, .inl ?_, hstopped.append _⟩
          rw [length_append]
          omega

end Run

/-- A text of two or more characters that is cut off sends the writer back to the beginning,
where the next item replaces what is there. So the first text that is not empty is a single
character, or nothing comes behind it. -/
def FirstStays (m : Mem) : List Item → Nat → List UInt32 → Prop
  | [], _, _ => True
  | .literal _ :: _, _, _ => True
  | .directive own kind :: format, padding, args =>
      (piece m kind (nextPadding own padding) (args.headD 0)).length = 1 ∨ format = [] ∨
        piece m kind (nextPadding own padding) (args.headD 0) = [] ∧
          FirstStays m format (nextPadding own padding) args.tail

/-- The first character of the text is there. Behind it is a zero if the text is closed, and
otherwise what was there before. -/
structure Single (before : Int → UInt8) (out : Out) (text : List UInt8) (closed : Bool) :
    Prop where
  first : text ≠ [] → out.strout 0 = text.headD 0
  terminated : closed = true → out.strout (if text = [] then 0 else 1) = 0
  kept : closed = false → text.length ≤ 1 → out.strout text.length = before text.length
  touched : ∀ i ∈ out.touched, 0 ≤ i ∧ i < 2

section Single

variable {before : Int → UInt8} {m : Mem} {out : Out} {c : UInt8} {closed : Bool}

theorem Single.start (before : Int → UInt8) : Single before (Out.start before) [] false where
  first := fun h => absurd rfl h
  terminated := fun h => absurd h Bool.false_ne_true
  kept := fun _ _ => rfl
  touched := fun _ h => absurd h not_mem_nil

theorem Single.append (h : Single before out [c] closed) (rest : List UInt8) :
    Single before out (c :: rest) closed where
  first := fun _ => h.first (cons_ne_nil c [])
  terminated := h.terminated
  kept := fun hopen hlength => by
    have hrest : rest = [] :=
      eq_nil_of_length_eq_zero (Nat.le_zero.mp (Nat.le_of_succ_le_succ hlength))
    rw [hrest]
    exact h.kept hopen le_rfl
  touched := h.touched

theorem Single.store_zero (h : Single before out [c] closed) (hn : out.n = 1)
    (rest : List UInt8) (n : Int) : Single before { out.store 0 with n } (c :: rest) true where
  first := fun _ => (Out.strout_store_of_ne (by omega) 0).trans (h.first (cons_ne_nil c []))
  terminated := fun _ => by
    rw [if_neg (cons_ne_nil c rest), ← hn]
    exact Out.strout_store_self out 0
  kept := fun h => absurd h.symm Bool.false_ne_true
  touched := fun i hi => (mem_cons.mp hi).elim (fun heq => by omega) (h.touched i)

theorem vsnprintf_second (f : List Item) (h : Single before out [c] closed) (hn : out.n = 1)
    (padding : UInt8) (args : List UInt32) (rest : List UInt8) :
    Single before (vsnprintf m 2 (bytes f) padding args out) (c :: rest) (closed || f ≠ []) := by
  cases f with
  | nil =>
    rw [decide_eq_false (not_not.mpr rfl), Bool.or_false]
    exact h.append rest
  | cons item f =>
    have hfull : out.n = 2 - 1 := hn
    obtain ⟨n, hstop⟩ := vsnprintf_full m item (bytes f) padding args hfull
    rw [bytes_cons, hstop, decide_eq_true (cons_ne_nil item f), Bool.or_true]
    exact h.store_zero hn rest n

section

variable (h : Single before out [] closed) (hn : out.n = 0) (hsecond : out.strout 1 = before 1)

include h hn hsecond

theorem Single.push (d : UInt8) : Single before (out.push d) [d] false where
  first := fun _ => by
    change (out.store d).strout 0 = d
    rw [← hn]
    exact Out.strout_store_self out d
  terminated := fun h => absurd h Bool.false_ne_true
  kept := fun _ _ => by
    have hone : (1 : Int) ≠ out.n := by omega
    exact (Out.strout_store_of_ne hone d).trans hsecond
  touched := fun i hi => (mem_cons.mp hi).elim (fun heq => by omega) (h.touched i)

theorem nputs_single (s : List UInt8) :
    Single before (nputs 2 s out) s true ∧
      (nputs 2 s out).n = (if s.length = 1 then 1 else 0) ∧
      (s = [] → (nputs 2 s out).strout 1 = before 1) := by
  cases s with
  | nil =>
    refine ⟨⟨fun h => absurd rfl h, fun _ => ?_, fun h => absurd h.symm Bool.false_ne_true,
      fun i hi => (mem_cons.mp hi).elim (fun heq => by omega) (h.touched i)⟩, hn, fun _ => ?_⟩
    · rw [if_pos rfl, ← hn]
      exact Out.strout_store_self out 0
    · exact (Out.strout_store_of_ne (by omega) 0).trans hsecond
  | cons d s =>
    have hroom : ¬ out.n = 2 - 1 := by omega
    have hpushed : (out.push d).n = 1 := by
      change out.n + 1 = 1
      omega
    have hone := fun n => (h.push hn hsecond d).store_zero hpushed s n
    refine ⟨?_, ?_, fun h => absurd h (cons_ne_nil d s)⟩ <;> rw [nputs, if_neg hroom]
    · cases s with
      | nil => exact hone _
      | cons e s =>
        have hfull : (out.push d).n = 2 - 1 := hpushed
        rw [nputs, if_pos hfull]
        exact hone _
    · cases s with
      | nil => exact hpushed
      | cons e s =>
        have hfull : (out.push d).n = 2 - 1 := hpushed
        rw [nputs, if_pos hfull, hpushed]
        rfl

/-- A directive at the beginning. Its text is not reported as cut off. -/
theorem directive_single {kind : Kind} (hu : kind ≠ .u) (padding : UInt8) (i : UInt32) :
    (directive m 2 kind padding i out).2 = false ∧
      Single before (directive m 2 kind padding i out).1 (piece m kind padding.toNat i)
        (kind ≠ .c) ∧
      (directive m 2 kind padding i out).1.n =
        (if (piece m kind padding.toNat i).length = 1 then 1 else 0) ∧
      (piece m kind padding.toNat i = [] →
        (directive m 2 kind padding i out).1.strout 1 = before 1) := by
  by_cases hc : kind = .c
  · subst hc
    refine ⟨rfl, h.push hn hsecond i.toUInt8, ?_, fun hempty => absurd hempty (cons_ne_nil _ _)⟩
    change out.n + 1 = 1
    omega
  · obtain ⟨hsingle, hafter, hkeeps⟩ := nputs_single h hn hsecond (piece m kind padding.toNat i)
    have hnonneg : ¬ (nputs 2 (piece m kind padding.toNat i) out).n < 0 := by
      rw [hafter]
      split_ifs <;> decide
    rw [directive_eq m hc hu padding i hn.ge (by omega), cutOff, if_neg hnonneg,
      decide_eq_true hc]
    exact ⟨rfl, hsingle, hafter, hkeeps⟩

end

theorem closesText_second (f : List Item) (padding : Nat) (args : List UInt32) :
    (closesText closed f || 2 ≤ (Libc.text m f padding args).length + 1) = (closed || f ≠ []) := by
  rcases eq_or_ne f [] with rfl | hf
  · rfl
  rw [decide_eq_true hf, Bool.or_true]
  rcases eq_or_ne (Libc.text m f padding args) [] with hempty | hmore
  · rw [closesText_of_empty hf hempty, Bool.true_or]
  · have hlong : 2 ≤ (Libc.text m f padding args).length + 1 :=
      Nat.succ_le_succ (length_pos_of_ne_nil hmore)
    rw [decide_eq_true hlong, Bool.or_true]

/-- With a limit of one, the text is closed at its end or behind its first character. -/
theorem vsnprintf_single (f : List Item) (h : Single before out [] closed) (hn : out.n = 0)
    (hsecond : out.strout 1 = before 1) (padding : UInt8) (args : List UInt32)
    (hknown : Known m 1 0 f padding.toNat args) (hstays : FirstStays m f padding.toNat args) :
    Single before (vsnprintf m 2 (bytes f) padding args out) (Libc.text m f padding.toNat args)
      (closesText closed f || 2 ≤ (Libc.text m f padding.toNat args).length) := by
  induction f generalizing out closed padding args with
  | nil =>
    rw [closesText, Libc.text, length_nil, decide_eq_false (by decide), Bool.or_false]
    exact h
  | cons item f ih =>
    have hroom : ¬ out.n = 2 - 1 := by omega
    rw [bytes_cons]
    cases item with
    | literal d =>
      have hpushed : (putc d.1 out).n = 1 := by
        change out.n + 1 = 1
        omega
      rw [vsnprintf_literal, if_neg hroom, Libc.text, closesText, length_cons, closesText_second]
      exact vsnprintf_second f (h.push hn hsecond d.1) hpushed padding args _
    | directive own kind =>
      have hkind : kind ≠ .u := fun hu => absurd (hknown.1 hu) (by decide)
      obtain ⟨next, hnext, hrun⟩ := vsnprintf_directive m 2 own kind (bytes f) padding args out
      obtain ⟨hgoes, hsingle, hafter, hkeeps⟩ :=
        directive_single (m := m) h hn hsecond hkind next (args.headD 0)
      rw [hrun, if_neg hroom, if_neg (by rw [hgoes]; exact Bool.false_ne_true), taken,
        if_neg hkind, Libc.text, closesText, ← hnext]
      rw [FirstStays, ← hnext] at hstays
      rw [Known, ← hnext] at hknown
      rcases hstays with hone | rfl | ⟨hempty, hrest⟩
      · obtain ⟨c, hpiece⟩ := length_eq_one_iff.mp hone
        rw [if_pos hone] at hafter
        rw [hpiece] at hsingle ⊢
        rw [singleton_append, length_cons, closesText_second]
        exact vsnprintf_second f hsingle hafter next args.tail _
      · have hc : 2 ≤ (piece m kind next.toNat (args.headD 0)).length → kind ≠ .c := by
          rintro hlong rfl
          exact absurd hlong (Nat.not_succ_le_self 1)
        rw [Libc.text, append_nil, closesText, ← Bool.decide_or,
          decide_eq_decide.mpr (or_iff_left_of_imp hc)]
        exact hsingle
      · rw [hempty] at hsingle hafter hknown ⊢
        exact ih hsingle hafter (hkeeps hempty) next args.tail hknown.2 hrest

end Single

end Snprintf

end HuyaOS.Libc
