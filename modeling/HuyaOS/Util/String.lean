import HuyaOS.Lib.Paths
import HuyaOS.Util.ArrayList

/-!
`String`: characters in a buffer that is one byte longer. The functions that
compare strings read the buffer up to a zero byte, so the last byte of the buffer
has to be zero. Not every constructor of a buffer writes it: `substring` leaves
there what the memory held before, and it is the copy constructor that ends the
string when it is returned.

Characters are bytes. The zero byte may also stand among the characters, since
nothing but the constructor from a C string looks for it.
-/

namespace HuyaOS

open List Nat

/-- The first `len` bytes of the buffer and its last byte. -/
structure String where
  chars : List UInt8
  last : UInt8
  deriving DecidableEq, Repr

namespace String

open Lib

variable {parts : List (List UInt8)}

/-- `String(const char *)`, also for the literals of the source. -/
def ofChars (chars : List UInt8) : String := ⟨chars, 0⟩

instance : Inhabited String := ⟨ofChars []⟩

def copy (other : String) : String := ⟨other.chars, 0⟩

def len (s : String) : Nat := s.chars.length

def isEmpty (s : String) : Bool := s.len == 0

def buffer (s : String) : List UInt8 := s.chars ++ [s.last]

def byte (s : String) (i : Nat) : UInt8 := s.chars.getD i s.last

/-- `strcmp`. There is no result when a buffer ends before the comparison does. -/
def strcmp : List UInt8 → List UInt8 → Option Int
  | a :: as, b :: bs => if a ≠ 0 ∧ a = b then strcmp as bs else some (a.toNat - b.toNat)
  | _, _ => none

def equals (s other : String) : Except Cpu.Stop Bool :=
  match strcmp s.buffer other.buffer with
  | some difference => .ok (difference == 0)
  | none => .error .strayRead

/-- Keys of hash maps are compared with `operator==`. -/
instance : BEq String := ⟨fun s other => match s.equals other with | .ok b => b | .error _ => false⟩

theorem beq_of_equals {s other : String} {b : Bool} (h : s.equals other = .ok b) :
    (s == other) = b := by
  change (match s.equals other with | .ok b => b | .error _ => false) = b
  rw [h]

/-- `operator uint32_t`, the sum of the characters, which are signed. -/
def toUInt32 (s : String) : Nat :=
  s.chars.foldl (fun hash c => (hash + if c < 128 then c.toNat
    else 2 ^ 32 + c.toNat - 256) % 2 ^ 32) 0

/-- The inner loop of `indexOf`: the rest of `other`, `left` bytes from `j` on, is
compared with the bytes from `i + j` on. The search gives up at the end. -/
def matchLoop (s other : String) (i : Nat) : Nat → Nat → Option Nat
  | 0, j => some j
  | left + 1, j =>
      if s.len ≤ i + j then none
      else if s.byte (i + j) ≠ other.byte j then some j
      else matchLoop s other i left (j + 1)

/-- The outer loop of `indexOf` over the `left` positions from `i` on. The counter
`j` keeps its value while the first byte does not fit. -/
def indexOfLoop (s other : String) : Nat → Nat → Nat → Option Nat
  | 0, _, _ => none
  | left + 1, i, j =>
      match if s.byte i = other.byte 0 then matchLoop s other i (other.len - 1) 1 else some j with
      | none => none
      | some j => if j = other.len then some i else indexOfLoop s other left (i + 1) j

/-- `indexOf(other, start)`; `none` is `UINT32_MAX`. -/
def indexOf (s other : String) (start : Nat) : Option Nat :=
  indexOfLoop s other (s.len - start) start 0

/-- `substring`. The new buffer gets the characters, `fresh` is the byte that the
memory holds behind them. The string is returned by value. Since the function
also returns another string, its copy is not elided. -/
def substring (s : String) (fresh : UInt8) (begin ending : Nat) : String :=
  if ending < begin ∨ s.len ≤ begin then ofChars []
  else
    let ending := if s.len < ending then s.len else ending
    copy ⟨(s.chars.drop begin).take (ending - begin), fresh⟩

/-- `if (!element.isEmpty()) result.add(element)`. An assignment copies the last
byte of the buffer along. -/
def addElement (result : ArrayList String) (element : String) : ArrayList String :=
  if element.isEmpty then result else result.add element

section Split

variable (s delimiter : String) (limit : Nat) (fresh : Nat → UInt8)

/-- The loop of `split`; `fresh start` is the byte behind the characters of the
token that is cut out from `start` on. A delimiter that is not empty moves `start`
on in every round. -/
def splitLoop : Nat → Nat → ArrayList String → Except Cpu.Stop (Nat × ArrayList String)
  | 0, _, _ => .error .endlessLoop
  | rounds + 1, start, result =>
      match s.indexOf delimiter start with
      | none => .ok (start, result)
      | some ending =>
          if result.size + 1 = limit then .ok (start, result)
          else splitLoop rounds (ending + delimiter.len)
            (addElement result (s.substring (fresh start) start ending))

def split : Except Cpu.Stop (List String) :=
  if s.len = 0 then .ok (ArrayList.new (fun _ => default) 0).toArray
  else do
    let (start, result) ← splitLoop s delimiter limit fresh (s.len + 1) 0
      (ArrayList.new (fun _ => default) 0)
    return (addElement result (s.substring (fresh start) start s.len)).toArray

end Split

def beginsWith (s string : String) (fresh : UInt8) : Except Cpu.Stop Bool :=
  (s.substring fresh 0 string.len).equals string

/-- `endsWith`. For a string that is longer, the first index wraps around. -/
def endsWith (s string : String) (fresh : UInt8) : Except Cpu.Stop Bool :=
  let begin := if string.len ≤ s.len then s.len - string.len else 2 ^ 32 + s.len - string.len
  (s.substring fresh begin s.len).equals string

def append (s other : String) : String := ⟨s.chars ++ other.chars, other.last⟩

/-- `memcpy`, byte by byte upwards -/
def memcpy (mem : Nat → UInt8) (dest src : Nat) : Nat → Nat → UInt8
  | 0 => mem
  | n + 1 => Function.update (memcpy mem dest src n) (dest + n) (memcpy mem dest src n (src + n))

/-- `operator+=` with the string itself. Its buffer has been made longer and is
copied behind its own characters, over the zero byte that is to be copied last;
`fresh` is what the memory holds behind the old buffer. -/
def appendSelf (s : String) (fresh : Nat → UInt8) : String :=
  let mem := memcpy (fun i => s.buffer.getD i (fresh i)) s.len 0 (s.len + 1)
  ⟨(List.range (s.len + s.len)).map mem, mem (s.len + s.len)⟩

def plus (first second : String) : String := first.copy.append second

/-- The loop of `join`. For an array without elements the bound of the loop wraps
around, and the first access fails. -/
def joinLoop (separator tmp : String) : List String → Except Cpu.Stop String
  | [] => .error (.throwException .OUT_OF_BOUNDS)
  | [element] => .ok (tmp.append element)
  | element :: rest => joinLoop separator (tmp.append (element.plus separator)) rest

def join (separator : String) (elements : List String) : Except Cpu.Stop String :=
  joinLoop separator (ofChars []) elements

/-- `String(const char *)` for bytes in memory: `strlen` looks for the zero byte. -/
def ofPointer (bytes : List UInt8) : Except Cpu.Stop String :=
  match bytes.idxOf? 0 with
  | some len => .ok (ofChars (bytes.take len))
  | none => .error .strayRead

/-- `remove`. The string is made from the buffer if there is nothing to remove. -/
def remove (s string : String) (fresh fresh' : UInt8) : Except Cpu.Stop String :=
  match s.indexOf string 0 with
  | none => ofPointer s.buffer
  | some index =>
      .ok ((s.substring fresh 0 index).plus (s.substring fresh' (index + string.len) s.len))

def isAlpha (c : UInt8) : Bool := (65 ≤ c && c ≤ 90) || (97 ≤ c && c ≤ 122)

def CASE_OFFSET : UInt8 := 32

/-- The loops of `toUpperCase` and `toLowerCase` for one character. -/
def upper (c : UInt8) : UInt8 := if isAlpha c then if c ≤ 90 then c else c - CASE_OFFSET else c
def lower (c : UInt8) : UInt8 := if isAlpha c then if 97 ≤ c then c else c + CASE_OFFSET else c

def toUpperCase (s : String) : String := ⟨s.copy.chars.map upper, s.copy.last⟩

def toLowerCase (s : String) : String := ⟨s.copy.chars.map lower, s.copy.last⟩

@[simp] theorem chars_ofChars (chars : List UInt8) : (ofChars chars).chars = chars := rfl

@[simp] theorem chars_plus (s other : String) : (s.plus other).chars = s.chars ++ other.chars := rfl

/-- What `strcmp` sees of a string whose buffer ends with a zero byte. -/
def cString (chars : List UInt8) : List UInt8 := chars.takeWhile (· ≠ 0)

@[simp] theorem cString_nil : cString [] = [] := rfl

theorem cString_cons (x : UInt8) (xs : List UInt8) :
    cString (x :: xs) = if x = 0 then [] else x :: cString xs := by
  unfold cString
  split <;> simp_all

theorem sub_eq_zero_iff_byte (a b : UInt8) : (a.toNat : Int) - b.toNat = 0 ↔ a = b := by
  rw [← UInt8.toNat_inj]
  omega

theorem strcmp_terminated (xs ys : List UInt8) :
    ∃ difference, strcmp (xs ++ [0]) (ys ++ [0]) = some difference ∧
      (difference = 0 ↔ cString xs = cString ys) := by
  induction xs generalizing ys with
  | nil =>
    cases ys with
    | nil => exact ⟨0, rfl, by simp⟩
    | cons y ys =>
      refine ⟨(0 : UInt8).toNat - y.toNat, by simp [strcmp], (sub_eq_zero_iff_byte 0 y).trans ?_⟩
      rw [cString_cons, eq_comm]
      split <;> simp [*]
  | cons x xs ih =>
    cases ys with
    | nil =>
      refine ⟨x.toNat - (0 : UInt8).toNat, ?_, (sub_eq_zero_iff_byte x 0).trans ?_⟩
      · exact if_neg fun h => h.1 h.2
      · rw [cString_cons]
        split <;> simp [*]
    | cons y ys =>
      simp only [cons_append, strcmp]
      split
      · rename_i h
        obtain ⟨difference, heq, hiff⟩ := ih ys
        refine ⟨difference, heq, hiff.trans ?_⟩
        simp [cString_cons, ← h.2, h.1]
      · refine ⟨_, rfl, (sub_eq_zero_iff_byte x y).trans ?_⟩
        rw [cString_cons, cString_cons]
        split <;> split <;> simp_all [Ne.symm]

/-- Strings with a zero byte at the end are compared as C strings. -/
theorem equals_ofChars (xs ys : List UInt8) :
    (ofChars xs).equals (ofChars ys) = .ok (cString xs == cString ys) := by
  obtain ⟨difference, heq, hiff⟩ := strcmp_terminated xs ys
  have hbool : (difference == 0) = (cString xs == cString ys) := by
    rw [Bool.eq_iff_iff, beq_iff_eq, beq_iff_eq]
    exact hiff
  simp only [equals, buffer, ofChars, heq, hbool]

section Search

variable {s t : String} {i left j : Nat}

theorem byte_eq (h : i < s.chars.length) : s.byte i = s.chars[i] := by
  simp [byte, h]

/-- The comparison gives up if the string is too short, or it comes to the end of the other string
exactly if that string goes on as this one does. -/
theorem matchLoop_cases (i : Nat) (h : j + left = t.len) :
    (matchLoop s t i left j = none ∧ s.len < i + t.len) ∨
      ∃ k ≤ t.len, matchLoop s t i left j = some k ∧ (k = t.len ↔
        OccursAt (t.chars.drop j) s.chars (i + j)) := by
  induction left generalizing j with
  | zero =>
    obtain rfl : j = t.len := h
    exact .inr ⟨t.len, le_rfl, rfl, by simp [len, OccursAt]⟩
  | succ left ih =>
    rw [matchLoop]
    by_cases hend : s.len ≤ i + j
    · exact .inl ⟨if_pos hend, by omega⟩
    · have hs : i + j < s.chars.length := not_le.mp hend
      have ht : j < t.chars.length := show j < t.len by omega
      rw [if_neg hend, byte_eq hs, byte_eq ht, OccursAt, drop_eq_getElem_cons hs,
        drop_eq_getElem_cons ht, cons_prefix_cons]
      split
      · rename_i hne
        refine .inr ⟨j, by omega, rfl, iff_of_false (by omega) fun hall => hne hall.1.symm⟩
      · rename_i heq
        rw [not_not] at heq
        rw [and_iff_right heq.symm]
        exact ih (by omega)

/-- The comparison at one position. The counter that it leaves behind is at the end of the other
string exactly if that string occurs there. -/
theorem compare_cases (hi : i < s.chars.length) (hj : j < t.len) :
    ∀ r, r = (if s.byte i = t.byte 0 then matchLoop s t i (t.len - 1) 1 else some j) →
      (r = none ∧ s.len < i + t.len) ∨ ∃ k ≤ t.len, r = some k ∧ (k = t.len ↔
        OccursAt t.chars s.chars i) := by
  rintro _ rfl
  have ht : 0 < t.chars.length := zero_lt_of_lt hj
  have hoccurs : OccursAt t.chars s.chars i ↔
      s.byte i = t.byte 0 ∧ OccursAt (t.chars.drop 1) s.chars (i + 1) := by
    unfold OccursAt
    rw [byte_eq hi, byte_eq ht, eq_comm, ← cons_prefix_cons, ← drop_eq_getElem_cons hi,
      ← drop_eq_getElem_cons ht, drop_zero]
  rw [hoccurs]
  by_cases hfirst : s.byte i = t.byte 0
  · rw [if_pos hfirst, and_iff_right hfirst]
    exact matchLoop_cases i (Nat.add_sub_cancel' ht)
  · rw [if_neg hfirst]
    exact .inr ⟨j, hj.le, rfl, iff_of_false hj.ne fun hall => hfirst hall.1⟩

/-- The counter keeps its value while the first byte does not fit, but it is never left at the end
of the other string. -/
theorem indexOfLoop_cases (hleft : s.len - i = left) (hj : j < t.len) :
    (indexOfLoop s t left i j = none ∧ ∀ k ≥ i, ¬OccursAt t.chars s.chars k) ∨
      ∃ k, indexOfLoop s t left i j = some k ∧
        IsLeast {k | i ≤ k ∧ OccursAt t.chars s.chars k} k := by
  have hlength : ∀ {k}, OccursAt t.chars s.chars k → t.len ≤ s.len - k := fun h =>
    h.length_le.trans length_drop.le
  induction left generalizing i j with
  | zero =>
    refine .inl ⟨rfl, fun k hk h => ?_⟩
    have := hlength h
    omega
  | succ left ih =>
    rw [indexOfLoop]
    rcases compare_cases (Nat.lt_of_sub_eq_succ hleft) hj _ rfl with
      ⟨hnone, hshort⟩ | ⟨k, hle, hsome, hoccurs⟩
    · rw [hnone]
      refine .inl ⟨rfl, fun k hk h => ?_⟩
      have := hlength h
      omega
    · rw [hsome]
      dsimp only
      by_cases hhere : k = t.len
      · rw [if_pos hhere]
        exact .inr ⟨i, rfl, ⟨le_rfl, hoccurs.mp hhere⟩, fun _ h => h.1⟩
      · have hnot : ∀ {k'}, i ≤ k' → OccursAt t.chars s.chars k' → i + 1 ≤ k' := fun hk h =>
          lt_of_le_of_ne hk fun heq => hhere (hoccurs.mpr (heq ▸ h))
        rw [if_neg hhere]
        rcases @ih (i + 1) k (by omega) (lt_of_le_of_ne hle hhere) with
          ⟨hloop, hall⟩ | ⟨k', hloop, hk', hleast⟩
        · exact .inl ⟨hloop, fun k' hk h => hall k' (hnot hk h) h⟩
        · exact .inr ⟨k', hloop, ⟨le_of_succ_le hk'.1, hk'.2⟩,
            fun k hk => hleast ⟨hnot hk.1 hk.2, hk.2⟩⟩

theorem indexOf_cases (ht : t.chars ≠ []) (start : Nat) :
    (s.indexOf t start = none ∧ ∀ i ≥ start, ¬OccursAt t.chars s.chars i) ∨
      ∃ i, s.indexOf t start = some i ∧ IsLeast {i | start ≤ i ∧ OccursAt t.chars s.chars i} i :=
  indexOfLoop_cases rfl (length_pos_of_ne_nil ht)

/-- The first place from `start` on at which a string occurs that is not empty. -/
theorem indexOf_least (s : String) (ht : t.chars ≠ []) (start : Nat) :
    (∀ i, s.indexOf t start = some i ↔ IsLeast {i | start ≤ i ∧ OccursAt t.chars s.chars i} i) ∧
      (s.indexOf t start = none ↔ ∀ i ≥ start, ¬OccursAt t.chars s.chars i) := by
  rcases indexOf_cases ht start with ⟨hnone, hall⟩ | ⟨k, hsome, hleast⟩
  · rw [hnone]
    exact ⟨fun i => iff_of_false nofun fun h => hall i h.1.1 h.1.2, iff_of_true rfl hall⟩
  · rw [hsome]
    refine ⟨fun i => ?_, iff_of_false nofun fun hall => hall k hleast.1.1 hleast.1.2⟩
    rw [Option.some.injEq]
    exact ⟨fun heq => heq ▸ hleast, hleast.unique⟩

/-- "aab" in "aaab", where the first comparison fails at the last character. -/
theorem indexOf_least_overlap :
    IsLeast {i | 0 ≤ i ∧ OccursAt ([97, 97, 98] : List UInt8) [97, 97, 97, 98] i} 1 :=
  ((indexOf_least (t := ofChars [97, 97, 98]) (ofChars [97, 97, 97, 98]) (by decide) 0).1 1).mp rfl

end Search

/-- Whatever the fresh memory holds, the substring ends with a zero byte. -/
theorem substring_eq (s : String) (fresh : UInt8) (begin ending : Nat) :
    s.substring fresh begin ending = ofChars ((s.chars.drop begin).take (ending - begin)) := by
  unfold substring
  split
  · rename_i h
    rcases h with h | h
    · rw [Nat.sub_eq_zero_of_le h.le, take_zero]
    · rw [drop_eq_nil_of_le h, take_nil]
  · split
    · rename_i h
      rw [copy, ofChars, take_of_length_le (by simp [len]),
        take_of_length_le (by simp only [length_drop]; unfold len at h; omega)]
    · rfl

theorem toArray_addElement (result : ArrayList String) (chars : List UInt8) :
    (addElement result (ofChars chars)).toArray =
      result.toArray ++ ([chars].filter (· ≠ [])).map ofChars := by
  cases chars with
  | nil => simp [addElement, isEmpty, len, ofChars]
  | cons c cs =>
    have hadd : addElement result (ofChars (c :: cs)) = result.add (ofChars (c :: cs)) := rfl
    rw [hadd, ArrayList.toArray_add]
    rfl

section Split

variable {s t : String}

/-- From any point on, the loop and the last token deliver the parts between the
delimiters that are not empty. -/
theorem splitLoop_cut (ht : t.chars ≠ []) (fresh : Nat → UInt8) {rounds : Nat} (start : Nat)
    (result : ArrayList String) (hrounds : s.len - start < rounds) :
    ∃ start' result' segments, splitLoop s t 0 fresh rounds start result = .ok (start', result') ∧
      Cut t.chars (s.chars.drop start) segments ∧
      (addElement result' (s.substring (fresh start') start' s.len)).toArray =
        result.toArray ++ (segments.filter (· ≠ [])).map ofChars := by
  have hpos := length_pos_of_ne_nil ht
  have hdrop : ∀ {i}, OccursAt t.chars (s.chars.drop start) i ↔
      OccursAt t.chars s.chars (start + i) := by
    simp [OccursAt]
  induction rounds generalizing start result with
  | zero => exact absurd hrounds (not_lt_zero _)
  | succ rounds ih =>
    rw [splitLoop]
    rcases indexOf_cases ht start with
      ⟨hnone, hall⟩ | ⟨ending, hsome, ⟨hle, behind, hbehind⟩, hleast⟩
    · have hrest : (s.chars.drop start).take (s.len - start) = s.chars.drop start :=
        take_of_length_le length_drop.le
      rw [hnone]
      refine ⟨start, result, _, rfl, .last fun i h => hall _ (le_add_right start i) (hdrop.mp h),
        ?_⟩
      rw [substring_eq, toArray_addElement, hrest]
    · obtain ⟨n, rfl⟩ := Nat.exists_eq_add_of_le hle
      have hlength := congrArg length hbehind
      rw [length_append, length_drop] at hlength
      obtain ⟨before, hsplit, rfl⟩ : ∃ before, s.chars.drop start = before ++ (t.chars ++ behind) ∧
        before.length = n := by
        refine ⟨(s.chars.drop start).take n, ?_, ?_⟩
        · rw [hbehind, ← drop_drop, take_append_drop]
        · rw [length_take, length_drop]
          omega
      have hnext : s.chars.drop (start + before.length + t.len) = behind := by
        rw [← drop_drop, ← hbehind]
        exact drop_left
      obtain ⟨start', result', segments, hloop, hcut, harray⟩ := ih (start + before.length + t.len)
        (addElement result (ofChars before)) (by unfold len at hrounds ⊢; omega)
          (by simp [OccursAt])
      rw [hnext] at hcut
      refine ⟨start', result', before :: segments, ?_, ?_, ?_⟩
      · rw [hsome]
        dsimp only
        rw [substring_eq, hsplit, Nat.add_sub_cancel_left, take_left]
        exact hloop
      · rw [hsplit] at hdrop ⊢
        refine .cut (fun i hi h => ?_) hcut
        have := hleast ⟨le_add_right start i, hdrop.mp h⟩
        omega
      · rw [harray, toArray_addElement, append_assoc, ← map_append, ← filter_append]
        rfl

/-- A string is split where the delimiter occurs. The parts that are not empty are returned, each of
which ends with a zero byte. -/
theorem split_cases (ht : t.chars ≠ []) (s : String) (fresh : Nat → UInt8) :
    ∃ segments, Cut t.chars s.chars segments ∧
      s.split t 0 fresh = .ok ((segments.filter (· ≠ [])).map ofChars) := by
  unfold split
  by_cases hlen : s.len = 0
  · have hempty : s.chars = [] := eq_nil_of_length_eq_zero hlen
    rw [if_pos hlen, hempty]
    refine ⟨[[]], .last fun i h => ht (prefix_nil.mp ?_), rfl⟩
    rwa [OccursAt, drop_nil] at h
  · obtain ⟨start, result, segments, hloop, hcut, harray⟩ :=
      splitLoop_cut ht fresh 0 (ArrayList.new (fun _ => default) 0) (lt_succ_self s.len)
    rw [if_neg hlen, hloop]
    exact ⟨segments, hcut, congrArg Except.ok harray⟩

/-- The parts that are not empty, none of which contains the delimiter. All parts together make up
the string again. -/
theorem split_segments (ht : t.chars ≠ []) (s : String) (fresh : Nat → UInt8) :
    ∃ segments, Cut t.chars s.chars segments ∧
      s.split t 0 fresh = .ok ((segments.filter (· ≠ [])).map ofChars) ∧
      (∀ segment ∈ segments, ¬t.chars <:+: segment) ∧ t.chars.intercalate segments = s.chars := by
  obtain ⟨segments, hcut, hsplit⟩ := split_cases ht s fresh
  exact ⟨segments, hcut, hsplit, hcut.not_infix ht, hcut.intercalate⟩

/-- "aaa" at "aa". -/
theorem split_segments_overlap : ∃ segments, Cut ([97, 97] : List UInt8) [97, 97, 97] segments ∧
    (segments.filter (· ≠ [])).map ofChars = [ofChars [97]] := by
  obtain ⟨segments, hcut, hsplit, -⟩ :=
    split_segments (t := ofChars [97, 97]) (cons_ne_nil _ _) (ofChars [97, 97, 97]) fun _ => 0
  exact ⟨segments, hcut, Except.ok.inj (hsplit.symm.trans rfl)⟩

theorem split_char (s : String) (c : UInt8) (fresh : Nat → UInt8) :
    s.split (ofChars [c]) 0 fresh = .ok ((components c s.chars).map ofChars) := by
  obtain ⟨segments, hcut, hsplit⟩ := split_cases (t := ofChars [c]) (cons_ne_nil c []) s fresh
  rw [hsplit, ← hcut.components_eq]

end Split

theorem joinLoop_ofChars (separator tmp : List UInt8) (hparts : parts ≠ []) :
    joinLoop (ofChars separator) (ofChars tmp) (parts.map ofChars) =
      .ok (ofChars (tmp ++ separator.intercalate parts)) := by
  induction parts generalizing tmp with
  | nil => exact absurd rfl hparts
  | cons part parts ih =>
    cases parts with
    | nil => simp [joinLoop, append, ofChars]
    | cons next parts =>
      have hstep :
          joinLoop (ofChars separator) (ofChars tmp) ((part :: next :: parts).map ofChars) =
          joinLoop (ofChars separator) (ofChars (tmp ++ (part ++ separator)))
            ((next :: parts).map ofChars) := rfl
      rw [hstep, ih _ (cons_ne_nil _ _), intercalate_cons_cons]
      simp only [append_assoc]

theorem join_ofChars (separator : List UInt8) (hparts : parts ≠ []) :
    join (ofChars separator) (parts.map ofChars) = .ok (ofChars (separator.intercalate parts)) :=
  joinLoop_ofChars separator [] hparts

end String

end HuyaOS
