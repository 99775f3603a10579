import Mathlib.Data.List.TakeWhile
import HuyaOS.Lib.Transition
import HuyaOS.Util.String

/-!
The representation of strings over runs of calls. A string is well formed if its
buffer has a zero byte behind the characters and nowhere else. Each call builds
its buffer in its own way, and all of them leave well-formed strings, except for
`operator+=` with the string itself: it copies the buffer byte by byte behind
itself, and the zero byte at the end is overwritten before its turn comes.

Well-formed strings are equal if their characters are.
-/

namespace HuyaOS.String

open List

variable {delimiter : String} {limit : Nat} {fresh : Nat → UInt8}

/-- The buffer ends with the first zero byte in it. -/
structure WellFormed (s : String) : Prop where
  terminated : s.byte s.len = 0
  nonzero : ∀ i < s.len, s.byte i ≠ 0

variable {s : String} {i : Nat} {result : String} {elements strings : List String}

theorem wellFormed_iff : s.WellFormed ↔ s.last = 0 ∧ 0 ∉ s.chars := by
  have hlast : s.byte s.len = s.last := by simp [byte, len]
  constructor
  · rintro ⟨hterm, hnonzero⟩
    refine ⟨hlast.symm.trans hterm, fun hmem => ?_⟩
    obtain ⟨i, hi, hzero⟩ := getElem_of_mem hmem
    exact hnonzero i hi ((byte_eq hi).trans hzero)
  · rintro ⟨hterm, hnot⟩
    refine ⟨hlast.trans hterm, fun i hi hzero => hnot ?_⟩
    rw [byte_eq hi] at hzero
    exact hzero ▸ getElem_mem _

theorem chars_eq_iff {other : String} :
    s.chars = other.chars ↔ s.len = other.len ∧ ∀ i < s.len, s.byte i = other.byte i := by
  constructor
  · intro h
    refine ⟨congrArg length h, fun i hi => ?_⟩
    rw [byte_eq hi, byte_eq (congrArg length h ▸ hi)]
    simp only [h]
  · rintro ⟨hlen, hbytes⟩
    refine ext_getElem hlen fun i hi hi' => ?_
    rw [← byte_eq hi, ← byte_eq hi']
    exact hbytes i hi

theorem wellFormed_ofChars {chars : List UInt8} : (ofChars chars).WellFormed ↔ 0 ∉ chars := by
  rw [wellFormed_iff]
  exact and_iff_right rfl

section WellFormed

variable {s other : String} (hs : s.WellFormed)

include hs

theorem WellFormed.not_mem : 0 ∉ s.chars := (wellFormed_iff.mp hs).2

theorem WellFormed.eq_ofChars : s = ofChars s.chars := by
  obtain ⟨chars, last⟩ := s
  exact congrArg (String.mk chars) (wellFormed_iff.mp hs).1

theorem WellFormed.copy : s.copy.WellFormed := wellFormed_ofChars.mpr hs.not_mem

theorem WellFormed.append (hother : other.WellFormed) : (s.append other).WellFormed := by
  rw [wellFormed_iff]
  refine ⟨(wellFormed_iff.mp hother).1, fun hmem => ?_⟩
  rcases mem_append.mp hmem with h | h
  · exact hs.not_mem h
  · exact hother.not_mem h

theorem WellFormed.plus (hother : other.WellFormed) : (s.plus other).WellFormed :=
  hs.copy.append hother

theorem WellFormed.substring (fresh : UInt8) (begin ending : Nat) :
    (s.substring fresh begin ending).WellFormed := by
  rw [substring_eq, wellFormed_ofChars]
  exact fun hmem => hs.not_mem (mem_of_mem_drop (mem_of_mem_take hmem))

omit hs in
/-- What lies behind the zero byte does not matter. -/
theorem ofPointer_terminated {chars : List UInt8} (hchars : 0 ∉ chars) (rest : List UInt8) :
    ofPointer (chars ++ 0 :: rest) = .ok (ofChars chars) := by
  have hlen : (chars ++ 0 :: rest).idxOf? 0 = some chars.length := by
    rw [idxOf?_eq_some_iff]
    refine ⟨by simp, by simp, fun i hi hzero => ?_⟩
    rw [getElem_append_left hi] at hzero
    exact hchars (hzero ▸ getElem_mem hi)
  simp only [ofPointer, hlen, take_left]

omit hs in
theorem wellFormed_ofPointer {bytes : List UInt8} (h : ofPointer bytes = .ok s) : s.WellFormed := by
  unfold ofPointer at h
  split at h
  · rename_i len hlen
    cases h
    obtain ⟨hlt, -, hbefore⟩ := idxOf?_eq_some_iff.mp hlen
    rw [wellFormed_ofChars]
    intro hmem
    obtain ⟨i, hi, hzero⟩ := getElem_of_mem hmem
    rw [getElem_take] at hzero
    rw [length_take] at hi
    exact hbefore i (by omega) hzero
  · cases h

theorem WellFormed.remove {string : String} {fresh fresh' : UInt8} {result : String}
    (h : s.remove string fresh fresh' = .ok result) : result.WellFormed := by
  unfold String.remove at h
  split at h
  · exact wellFormed_ofPointer h
  · cases h
    exact (hs.substring _ _ _).plus (hs.substring _ _ _)

omit hs in
theorem upper_ne_zero {c : UInt8} (hc : c ≠ 0) : upper c ≠ 0 := by
  unfold upper
  split
  · split
    · exact hc
    · rename_i hbig
      intro hzero
      rw [← UInt8.sub_add_cancel c CASE_OFFSET, hzero] at hbig
      exact hbig (by decide)
  · exact hc

omit hs in
theorem lower_ne_zero {c : UInt8} (hc : c ≠ 0) : lower c ≠ 0 := by
  unfold lower
  split
  · rename_i halpha
    split
    · exact hc
    · intro hzero
      rw [← UInt8.add_sub_cancel c CASE_OFFSET, hzero] at halpha
      cases halpha
  · exact hc

theorem WellFormed.mapChars {f : UInt8 → UInt8} (hf : ∀ {c}, c ≠ 0 → f c ≠ 0) :
    (String.mk (s.copy.chars.map f) s.copy.last).WellFormed := by
  rw [wellFormed_iff]
  refine ⟨rfl, fun hmem => ?_⟩
  obtain ⟨c, hc, hzero⟩ := mem_map.mp hmem
  exact hf (ne_of_mem_of_not_mem hc hs.not_mem) hzero

end WellFormed

theorem forall_wellFormed_addElement {result : ArrayList String}
    (hresult : ∀ p ∈ result.toArray, p.WellFormed) {element : String}
    (helement : element.WellFormed) : ∀ p ∈ (addElement result element).toArray, p.WellFormed := by
  unfold addElement
  split
  · exact hresult
  · rw [ArrayList.toArray_add]
    exact forall_mem_append.mpr ⟨hresult, forall_mem_singleton.mpr helement⟩

theorem WellFormed.splitLoop (hs : s.WellFormed) {rounds start start' : Nat}
    {result result' : ArrayList String} (hresult : ∀ p ∈ result.toArray, p.WellFormed)
    (h : String.splitLoop s delimiter limit fresh rounds start result = .ok (start', result')) :
    ∀ p ∈ result'.toArray, p.WellFormed := by
  induction rounds generalizing start result with
  | zero => cases h
  | succ rounds ih =>
    unfold String.splitLoop at h
    split at h
    · cases h
      exact hresult
    · split at h
      · cases h
        exact hresult
      · exact ih (forall_wellFormed_addElement hresult (hs.substring _ _ _)) h

theorem WellFormed.split (hs : s.WellFormed) {parts : List String}
    (h : s.split delimiter limit fresh = .ok parts) : ∀ p ∈ parts, p.WellFormed := by
  unfold String.split at h
  split at h
  · cases h
    exact forall_mem_nil _
  · obtain ⟨⟨start, result⟩, hloop, hparts⟩ := bind_eq_ok.mp h
    cases hparts
    exact forall_wellFormed_addElement (hs.splitLoop (forall_mem_nil _) hloop) (hs.substring _ _ _)

section

variable {separator : String} (hseparator : separator.WellFormed)
  (helements : ∀ e ∈ elements, e.WellFormed)

include hseparator helements

theorem WellFormed.joinLoop {tmp : String} (htmp : tmp.WellFormed)
    (h : String.joinLoop separator tmp elements = .ok result) : result.WellFormed := by
  induction elements generalizing tmp with
  | nil => cases h
  | cons element rest ih =>
    obtain ⟨hfirst, hrest⟩ := forall_mem_cons.mp helements
    cases rest with
    | nil =>
      cases h
      exact htmp.append hfirst
    | cons next rest => exact ih hrest (htmp.append (hfirst.plus hseparator)) h

theorem WellFormed.join (h : String.join separator elements = .ok result) : result.WellFormed :=
  hseparator.joinLoop helements (wellFormed_ofChars.mpr not_mem_nil) h

end

theorem cString_of_not_mem {chars : List UInt8} (h : 0 ∉ chars) : cString chars = chars := by
  unfold cString
  rw [takeWhile_eq_self_iff]
  intro c hc
  exact decide_eq_true (ne_of_mem_of_not_mem hc h)

theorem WellFormed.equals {other : String} (hs : s.WellFormed) (hother : other.WellFormed) :
    s.equals other = .ok (s.chars == other.chars) := by
  rw [hs.eq_ofChars, hother.eq_ofChars, equals_ofChars, chars_ofChars, chars_ofChars,
    cString_of_not_mem hs.not_mem, cString_of_not_mem hother.not_mem]

theorem memcpy_apply (mem : Nat → UInt8) {dest n : Nat} (hn : n ≤ dest) (i : Nat) :
    memcpy mem dest 0 n i = if dest ≤ i ∧ i < dest + n then mem (i - dest) else mem i := by
  induction n generalizing i with
  | zero =>
    rw [if_neg (by omega)]
    rfl
  | succ n ih =>
    rw [memcpy, Function.update_apply]
    split
    · rename_i heq
      rw [ih (by omega), if_neg (by omega), if_pos (by omega)]
      congr 1
      omega
    · rw [ih (by omega)]
      exact if_congr (by omega) rfl rfl

/-- The last byte that is copied is the first character. -/
theorem last_appendSelf (s : String) (fresh : Nat → UInt8) :
    (s.appendSelf fresh).last = s.byte 0 := by
  have hfirst : s.buffer.getD 0 (fresh 0) = s.byte 0 := by
    obtain ⟨chars, last⟩ := s
    cases chars <;> rfl
  have hcopied : memcpy (fun i => s.buffer.getD i (fresh i)) s.len 0 s.len s.len = s.byte 0 := by
    rw [memcpy_apply _ le_rfl]
    split
    · rw [Nat.sub_self, hfirst]
    · have hzero : s.len = 0 := by omega
      rw [hzero, hfirst]
  unfold appendSelf memcpy
  rw [Nat.zero_add, hcopied]
  exact Function.update_self _ _ _

theorem wellFormed_appendSelf_iff (hs : s.WellFormed) (fresh : Nat → UInt8) :
    (s.appendSelf fresh).WellFormed ↔ s.chars = [] := by
  constructor
  · intro h
    have hzero : s.byte 0 = 0 := (last_appendSelf s fresh).symm.trans (wellFormed_iff.mp h).1
    by_contra hne
    exact hs.nonzero 0 (length_pos_iff.mpr hne) hzero
  · intro hempty
    have hlen : s.len = 0 := congrArg length hempty
    rw [wellFormed_iff, last_appendSelf]
    refine ⟨hlen ▸ hs.terminated, ?_⟩
    simp [appendSelf, hlen]

/-- The calls, on strings that are named by their place among all strings. -/
inductive Call
  | fromPointer (bytes : List UInt8)
  | fromChar (c : UInt8)
  | copy (i : Nat)
  | assign (i j : Nat)
  | append (i j : Nat)
  | plus (i j : Nat)
  | substring (i begin ending : Nat)
  | split (i j limit : Nat)
  | join (i : Nat) (elements : List Nat)
  | remove (i j : Nat)
  | toUpperCase (i : Nat)
  | toLowerCase (i : Nat)
  deriving DecidableEq

def find (strings : List String) (i : Nat) : Except Cpu.Stop String :=
  match strings[i]? with
  | some s => .ok s
  | none => .error .strayRead

/-- A call adds the strings that it returns, or changes a string; `fresh` is what
fresh memory holds. An assignment copies the buffer with its last byte. -/
def call (fresh : Nat → UInt8) (strings : List String) : Call → Except Cpu.Stop (List String)
  | .fromPointer bytes => do return strings ++ [← ofPointer bytes]
  | .fromChar c => .ok (strings ++ [ofChars [c]])
  | .copy i => do return strings ++ [(← find strings i).copy]
  | .assign i j => do return strings.set i (← find strings j)
  | .append i j => do
      let s ← find strings i
      let other ← find strings j
      return strings.set i (if i = j then s.appendSelf fresh else s.append other)
  | .plus i j => do return strings ++ [(← find strings i).plus (← find strings j)]
  | .substring i begin ending =>
      do return strings ++ [(← find strings i).substring (fresh 0) begin ending]
  | .split i j limit =>
      do return strings ++ (← (← find strings i).split (← find strings j) limit fresh)
  | .join i elements =>
      do return strings ++ [← join (← find strings i) (← elements.mapM (find strings))]
  | .remove i j =>
      do return strings ++ [← (← find strings i).remove (← find strings j) (fresh 0) (fresh 1)]
  | .toUpperCase i => do return strings ++ [(← find strings i).toUpperCase]
  | .toLowerCase i => do return strings ++ [(← find strings i).toLowerCase]

/-- Zero is not passed as a character. -/
def Step (strings : List String) (c : Call) (strings' : List String) : Prop :=
  (∃ fresh, call fresh strings c = .ok strings') ∧ c ≠ .fromChar 0

/-- No string is appended to itself unless it is empty. -/
def SoundStep (strings : List String) (c : Call) (strings' : List String) : Prop :=
  Step strings c strings' ∧ ∀ i s, c = .append i i → strings[i]? = some s → s.chars = []

theorem find_eq_ok : find strings i = .ok s ↔ strings[i]? = some s := by
  unfold find
  cases strings[i]? <;> simp

theorem mem_of_find (h : find strings i = .ok s) : s ∈ strings :=
  mem_of_getElem? (find_eq_ok.mp h)

theorem forall_mem_mapM_find {is : List Nat} (h : is.mapM (find strings) = .ok elements) :
    ∀ e ∈ elements, e ∈ strings := by
  induction is generalizing elements with
  | nil =>
    cases h
    exact forall_mem_nil _
  | cons i is ih =>
    rw [mapM_cons] at h
    obtain ⟨s, hs, h⟩ := bind_eq_ok.mp h
    obtain ⟨rest, hrest, h⟩ := bind_eq_ok.mp h
    cases h
    exact forall_mem_cons.mpr ⟨mem_of_find hs, ih hrest⟩

theorem forall_wellFormed_concat (h : ∀ s ∈ strings, s.WellFormed) (hresult : result.WellFormed) :
    ∀ s ∈ strings ++ [result], s.WellFormed :=
  forall_mem_append.mpr ⟨h, forall_mem_singleton.mpr hresult⟩

theorem forall_wellFormed_set (h : ∀ s ∈ strings, s.WellFormed) (hresult : result.WellFormed)
    (i : Nat) :
    ∀ s ∈ strings.set i result, s.WellFormed := by
  intro s hs
  rcases mem_or_eq_of_mem_set hs with hs | rfl
  · exact h s hs
  · exact hresult

theorem forall_wellFormed_step {strings' : List String} {c : Call} (h : ∀ s ∈ strings, s.WellFormed)
    (hstep : SoundStep strings c strings') : ∀ s ∈ strings', s.WellFormed := by
  obtain ⟨⟨⟨fresh, hcall⟩, hchar⟩, hself⟩ := hstep
  cases c with
  | fromPointer bytes =>
    obtain ⟨s, hs, hcall⟩ := bind_eq_ok.mp hcall
    cases hcall
    exact forall_wellFormed_concat h (wellFormed_ofPointer hs)
  | fromChar c =>
    cases hcall
    refine forall_wellFormed_concat h (wellFormed_ofChars.mpr ?_)
    rw [mem_singleton]
    rintro rfl
    exact hchar rfl
  | copy i =>
    obtain ⟨s, hs, hcall⟩ := bind_eq_ok.mp hcall
    cases hcall
    exact forall_wellFormed_concat h (h s (mem_of_find hs)).copy
  | assign i j =>
    obtain ⟨s, hs, hcall⟩ := bind_eq_ok.mp hcall
    cases hcall
    exact forall_wellFormed_set h (h s (mem_of_find hs)) i
  | append i j =>
    obtain ⟨s, hs, hcall⟩ := bind_eq_ok.mp hcall
    obtain ⟨other, hother, hcall⟩ := bind_eq_ok.mp hcall
    cases hcall
    apply forall_wellFormed_set h
    split
    · rename_i heq
      subst heq
      rw [wellFormed_appendSelf_iff (h s (mem_of_find hs))]
      exact hself i s rfl (find_eq_ok.mp hs)
    · exact (h s (mem_of_find hs)).append (h other (mem_of_find hother))
  | plus i j =>
    obtain ⟨s, hs, hcall⟩ := bind_eq_ok.mp hcall
    obtain ⟨other, hother, hcall⟩ := bind_eq_ok.mp hcall
    cases hcall
    exact forall_wellFormed_concat h ((h s (mem_of_find hs)).plus (h other (mem_of_find hother)))
  | substring i begin ending =>
    obtain ⟨s, hs, hcall⟩ := bind_eq_ok.mp hcall
    cases hcall
    exact forall_wellFormed_concat h ((h s (mem_of_find hs)).substring _ _ _)
  | split i j limit =>
    obtain ⟨s, hs, hcall⟩ := bind_eq_ok.mp hcall
    obtain ⟨delimiter, hdelimiter, hcall⟩ := bind_eq_ok.mp hcall
    obtain ⟨parts, hparts, hcall⟩ := bind_eq_ok.mp hcall
    cases hcall
    exact forall_mem_append.mpr ⟨h, (h s (mem_of_find hs)).split hparts⟩
  | join i elements =>
    obtain ⟨separator, hseparator, hcall⟩ := bind_eq_ok.mp hcall
    obtain ⟨parts, hparts, hcall⟩ := bind_eq_ok.mp hcall
    obtain ⟨s, hs, hcall⟩ := bind_eq_ok.mp hcall
    cases hcall
    exact forall_wellFormed_concat h ((h separator (mem_of_find hseparator)).join
      (fun e he => h e (forall_mem_mapM_find hparts e he)) hs)
  | remove i j =>
    obtain ⟨s, hs, hcall⟩ := bind_eq_ok.mp hcall
    obtain ⟨string, hstring, hcall⟩ := bind_eq_ok.mp hcall
    obtain ⟨result, hresult, hcall⟩ := bind_eq_ok.mp hcall
    cases hcall
    exact forall_wellFormed_concat h ((h s (mem_of_find hs)).remove hresult)
  | toUpperCase i =>
    obtain ⟨s, hs, hcall⟩ := bind_eq_ok.mp hcall
    cases hcall
    exact forall_wellFormed_concat h ((h s (mem_of_find hs)).mapChars upper_ne_zero)
  | toLowerCase i =>
    obtain ⟨s, hs, hcall⟩ := bind_eq_ok.mp hcall
    cases hcall
    exact forall_wellFormed_concat h ((h s (mem_of_find hs)).mapChars lower_ne_zero)

/-- In a run that appends no string to itself, other than the empty one, all
strings are well formed and are compared by their characters. In every state of
such a run a string can be appended to itself exactly if it is empty. -/
theorem wellFormed_of_sound_run {calls : List Call} {strings : List String}
    (hrun : Lib.Run SoundStep [] calls strings) :
    (∀ s ∈ strings, s.WellFormed) ∧
      (∀ s ∈ strings, ∀ other ∈ strings, s.equals other =
        .ok (decide (s.len = other.len ∧ ∀ i < s.len, s.byte i = other.byte i))) ∧
      ∀ s ∈ strings, ∀ fresh, (s.appendSelf fresh).WellFormed ↔ s.chars = [] := by
  have hwell : ∀ s ∈ strings, s.WellFormed :=
    hrun.invariant (fun _ _ _ h hstep => forall_wellFormed_step h hstep) (forall_mem_nil _)
  refine ⟨hwell, ?_, fun s hs fresh => wellFormed_appendSelf_iff (hwell s hs) fresh⟩
  intro s hs other hother
  rw [(hwell s hs).equals (hwell other hother), Except.ok.injEq, Bool.eq_iff_iff, beq_iff_eq,
    decide_eq_true_iff]
  exact chars_eq_iff

/-- "a/b" is split at its separator, and the parts are put together again. -/
theorem wellFormed_of_sound_run_split :
    ∃ strings, Lib.Run SoundStep [] [.fromPointer [97, 47, 98, 0, 5], .fromChar 47, .split 0 1 0,
      .append 2 3] strings ∧
      strings.map chars = [[97, 47, 98], [47], [97, 98], [98]] ∧ ∀ s ∈ strings, s.WellFormed := by
  have hrun : Lib.Run SoundStep [] [.fromPointer [97, 47, 98, 0, 5], .fromChar 47,
      .split 0 1 0, .append 2 3]
      [ofChars [97, 47, 98], ofChars [47], ofChars [97, 98], ofChars [98]] :=
    .next ⟨⟨⟨fun _ => 255, rfl⟩, nofun⟩, nofun⟩ <| .next ⟨⟨⟨fun _ => 255, rfl⟩, by decide⟩,
      nofun⟩ <|
      .next ⟨⟨⟨fun _ => 255, rfl⟩, nofun⟩, nofun⟩ <| .next ⟨⟨⟨fun _ => 255, rfl⟩, nofun⟩,
        nofun⟩ <| .done _
  exact ⟨_, hrun, rfl, (wellFormed_of_sound_run hrun).1⟩

/-- "a" appended to itself ends with "a", and cannot be compared any more. -/
theorem appendSelf_loses_terminator :
    ∃ strings, Lib.Run Step [] [.fromPointer [97, 0], .append 0 0] strings ∧
      ∃ s ∈ strings, s.byte s.len = 97 ∧ ¬s.WellFormed ∧ s.equals s = .error .strayRead := by
  have hrun : Lib.Run Step [] [.fromPointer [97, 0], .append 0 0] [⟨[97, 97], 97⟩] :=
    .next ⟨⟨fun _ => 0, rfl⟩, nofun⟩ <| .next ⟨⟨fun _ => 0, rfl⟩, nofun⟩ <| .done _
  refine ⟨_, hrun, _, mem_singleton_self _, rfl, ?_, rfl⟩
  rw [wellFormed_iff]
  decide

end HuyaOS.String
