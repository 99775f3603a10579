import Mathlib.Data.List.Chain
import Mathlib.Tactic
import HuyaOS.Device.Keyboard

/-!
The byte sequences that a keyboard sends when its keys are pressed and released, and
the control and alt keys that `decodeKey` takes for held.

A prefix that comes before the code of a released key stays behind when the key is not
a modifier. The next code that looks at the prefix finds it.
-/

namespace HuyaOS.Device

open Keyboard List Key

/-- The code of a key without its break bit. Released keys must not look like a prefix. -/
@[ext]
structure ScanCode where
  code : BitVec 8
  small : code < 0x80
  ne_prefix1 : code ≠ 0x60
  ne_prefix2 : code ≠ 0x61
  deriving DecidableEq

inductive PhysicalKey
  | plain (scan : ScanCode)
  | extended (scan : ScanCode)
  | pause
  deriving DecidableEq

def ctrlCode : ScanCode := ⟨29, by decide, by decide, by decide⟩
def altCode : ScanCode := ⟨56, by decide, by decide, by decide⟩
def numLockCode : ScanCode := ⟨69, by decide, by decide, by decide⟩

structure Stroke where
  key : PhysicalKey
  down : Bool
  deriving DecidableEq

namespace Stroke

def sent (down : Bool) (code : BitVec 8) : BitVec 8 := if down then code else code ||| breakBit

/-- The codes of two keys behind the prefix of the pause key. -/
def pauseCodes (down : Bool) : List (BitVec 8) :=
  [prefix2, sent down ctrlCode.code, sent down numLockCode.code]

/-- The pause key sends everything as soon as it is pressed, and nothing when it is released. -/
def bytes : Stroke → List (BitVec 8)
  | ⟨.plain scan, down⟩ => [sent down scan.code]
  | ⟨.extended scan, down⟩ => [prefix1, sent down scan.code]
  | ⟨.pause, true⟩ => pauseCodes true ++ pauseCodes false
  | ⟨.pause, false⟩ => []

/-- Each key is pressed before it is released, and released before it is pressed again. -/
def Alternate (strokes : List Stroke) : Prop :=
  ∀ key, (false :: (strokes.filter (·.key = key)).map down).IsChain (· ≠ ·)

theorem filter_key_eq_nil {strokes : List Stroke} {key : PhysicalKey}
    (h : ∀ stroke ∈ strokes, stroke.key ≠ key) :
    strokes.filter (·.key = key) = [] :=
  filter_eq_nil_iff.mpr fun stroke hstroke => by simpa using h stroke hstroke

theorem alternate_iff {strokes : List Stroke} : Alternate strokes ↔ ∀ stroke ∈ strokes,
    (false :: (strokes.filter (·.key = stroke.key)).map down).IsChain (· ≠ ·) := by
  refine ⟨fun h stroke _ => h stroke.key, fun h key => ?_⟩
  by_cases hkey : ∃ stroke ∈ strokes, stroke.key = key
  · obtain ⟨stroke, hmem, rfl⟩ := hkey
    exact h stroke hmem
  · rw [filter_key_eq_nil fun stroke hstroke heq => hkey ⟨stroke, hstroke, heq⟩]
    exact .singleton _

instance Alternate.decidable (strokes : List Stroke) : Decidable (Alternate strokes) :=
  decidable_of_iff _ alternate_iff.symm

def isHeld (strokes : List Stroke) (key : PhysicalKey) : Bool :=
  ((strokes.filter (·.key = key)).map down).getLastD false

/-- The keys on both sides of the keyboard, with the modifiers that stand for them. -/
def sided : List (Modifier × PhysicalKey) :=
  [(.ctrlLeft, .plain ctrlCode), (.ctrlRight, .extended ctrlCode), (.altLeft, .plain altCode),
    (.altRight, .extended altCode)]

def Follows (k : Key) (strokes : List Stroke) : Prop :=
  ∀ side ∈ sided, k.modifier side.1 = isHeld strokes side.2

def isModifier (code : BitVec 8) : Bool := code = 42 ∨ code = 54 ∨ code = 56 ∨ code = 29

/-- Whether a prefix stays behind after the stroke. -/
def latch (latched : Bool) : Stroke → Bool
  | ⟨.plain scan, false⟩ => latched && !isModifier scan.code
  | ⟨.extended scan, false⟩ => !isModifier scan.code
  | ⟨.pause, false⟩ => latched
  | _ => false

/-- A left control or alt key moves only while no prefix has stayed behind. The pause
key is pressed only while the left control key is not held. -/
def Undisturbed (latched : Bool) (past : List Stroke) : Stroke → Prop
  | ⟨.plain scan, _⟩ => scan = ctrlCode ∨ scan = altCode → latched = false
  | ⟨.extended _, _⟩ => True
  | ⟨.pause, down⟩ => down = true → isHeld past (.plain ctrlCode) = false

def AllUndisturbed (latched : Bool) (strokes : List Stroke) : Prop :=
  ∀ past stroke, past ++ [stroke] <+: strokes → Undisturbed (past.foldl latch latched) past stroke

def sideOf (prefixed : Bool) (code : BitVec 8) : Option Modifier :=
  if code = 56 then some (if prefixed then .altRight else .altLeft)
  else if code = 29 then some (if prefixed then .ctrlRight else .ctrlLeft)
  else none

theorem sided_ne : ∀ side ∈ sided,
    .shift ≠ side.1 ∧ .capsLock ≠ side.1 ∧ .numLock ≠ side.1 ∧ .scrollLock ≠ side.1 := by decide

section Bytes

variable (behind : List (BitVec 8) → BitVec 8 → BitVec 8)

variable (kb : Keyboard) {side : Modifier × PhysicalKey} {code : BitVec 8}

theorem modifier_getAsciiCode (code : BitVec 8) (m : Modifier) :
    (kb.getAsciiCode behind code).gather.modifier m = kb.gather.modifier m := by
  unfold getAsciiCode
  split_ifs <;> rfl

theorem gather_setLed (reply led : BitVec 8) (on : Bool) :
    (kb.setLed reply led on).gather = kb.gather := by
  unfold setLed
  split_ifs <;> rfl

theorem prefixCode_setLed (reply led : BitVec 8) (on : Bool) :
    (kb.setLed reply led on).prefixCode = kb.prefixCode := by
  unfold setLed
  split_ifs <;> rfl

theorem modifier_decodeMake (reply code : BitVec 8)
    (hside : side ∈ sided) : (kb.decodeMake behind reply code).1.gather.modifier side.1 =
      if sideOf (kb.prefixCode = prefix1) code = some side.1 then true
        else kb.gather.modifier side.1 := by
  obtain ⟨hshift, hcaps, hnum, hscroll⟩ := sided_ne side hside
  unfold sideOf decodeMake
  by_cases h56 : code = 56
  · subst h56
    by_cases hlatched : kb.prefixCode = prefix1 <;>
      simp [hlatched, setAltLeft, setAltRight, modifier_setModifier]
  by_cases h29 : code = 29
  · subst h29
    by_cases hlatched : kb.prefixCode = prefix1 <;>
      simp [hlatched, setCtrlLeft, setCtrlRight, modifier_setModifier]
  simp only [h56, h29, if_false, reduceCtorEq]
  split_ifs
  · simp [setShift, modifier_setModifier, hshift]
  · simp [setCapsLock, gather_setLed, modifier_setModifier, hcaps]
  · simp [setScrollLock, gather_setLed, modifier_setModifier, hscroll]
  · simp [setNumLock, gather_setLed, modifier_setModifier, hnum]
  · exact modifier_getAsciiCode behind kb code side.1

theorem modifier_decodeBreak (code : BitVec 8)
    (hside : side ∈ sided) : (kb.decodeBreak code).gather.modifier side.1 =
      if sideOf (kb.prefixCode = prefix1) code = some side.1 then false
        else kb.gather.modifier side.1 := by
  have hshift := (sided_ne side hside).1
  unfold sideOf decodeBreak
  by_cases h56 : code = 56
  · subst h56
    by_cases hlatched : kb.prefixCode = prefix1 <;>
      simp [hlatched, setAltLeft, setAltRight, modifier_setModifier]
  by_cases h29 : code = 29
  · subst h29
    by_cases hlatched : kb.prefixCode = prefix1 <;>
      simp [hlatched, setCtrlLeft, setCtrlRight, modifier_setModifier]
  simp only [h56, h29, if_false, reduceCtorEq]
  split_ifs
  · simp [setShift, modifier_setModifier, hshift]
  · rfl

theorem prefixCode_decodeBreak (code : BitVec 8) :
    (kb.decodeBreak code).prefixCode = if isModifier code then 0 else kb.prefixCode := by
  unfold decodeBreak
  split_ifs <;> simp_all [isModifier]

theorem sent_small : code < 0x80 → code &&& breakBit = 0 ∧ code ≠ prefix1 ∧ code ≠ prefix2 := by
  revert code
  decide +kernel

theorem sent_break : code < 0x80 → (code ||| breakBit) &&& breakBit ≠ 0 ∧
    (code ||| breakBit) &&& ~~~breakBit = code ∧ (code ≠ 0x60 → code ||| breakBit ≠ prefix1) ∧
      (code ≠ 0x61 → code ||| breakBit ≠ prefix2) := by
  revert code
  decide +kernel

/-- The keyboard after the software buffer has been brought up to date. -/
def noted (code : BitVec 8) : Keyboard :=
  if code &&& breakBit ≠ 0 then (kb.removeFromBuffer (code &&& ~~~breakBit)).setPressed false
  else (kb.addToBuffer (code &&& ~~~breakBit)).setPressed true

theorem prefixCode_noted (code : BitVec 8) : (noted kb code).prefixCode = kb.prefixCode := by
  unfold noted removeFromBuffer addToBuffer
  split_ifs <;> try rfl
  all_goals split <;> rfl

theorem modifier_noted (code : BitVec 8) (m : Modifier) :
    (noted kb code).gather.modifier m = kb.gather.modifier m := by
  unfold noted removeFromBuffer addToBuffer
  split_ifs <;> try rfl
  all_goals split <;> rfl

theorem decodeKey_eq (reply code : BitVec 8) :
    (kb.decodeKey behind reply code).1 =
      if code = prefix1 ∨ code = prefix2 then { noted kb code with prefixCode := code }
      else if code &&& breakBit ≠ 0 then (noted kb code).decodeBreak (code &&& ~~~breakBit)
      else { ((noted kb code).decodeMake behind reply code).1 with prefixCode := 0 } := by
  unfold decodeKey noted
  simp only [decide_eq_true_eq]
  split_ifs <;> rfl

theorem decodeKey_sent (reply : BitVec 8) (scan : ScanCode) (down : Bool) :
    (∀ side ∈ sided, (kb.decodeKey behind reply (sent down scan.code)).1.gather.modifier side.1 =
      if sideOf (kb.prefixCode = prefix1) scan.code = some side.1 then down
        else kb.gather.modifier side.1) ∧
    (kb.decodeKey behind reply (sent down scan.code)).1.prefixCode =
      if down || isModifier scan.code then 0 else kb.prefixCode := by
  rw [decodeKey_eq]
  cases down with
  | true =>
    obtain ⟨hbit, hprefix1, hprefix2⟩ := sent_small scan.small
    rw [sent, if_pos rfl, if_neg (not_or.mpr ⟨hprefix1, hprefix2⟩), if_neg (not_not.mpr hbit)]
    refine ⟨fun side hside => ?_, rfl⟩
    have hmake := modifier_decodeMake behind (noted kb scan.code) reply scan.code hside
    rw [prefixCode_noted, modifier_noted] at hmake
    exact hmake
  | false =>
    obtain ⟨hbit, hcode, hprefix1, hprefix2⟩ := sent_break scan.small
    rw [sent, if_neg Bool.false_ne_true,
      if_neg (not_or.mpr ⟨hprefix1 scan.ne_prefix1, hprefix2 scan.ne_prefix2⟩),
      if_pos hbit, hcode, prefixCode_decodeBreak, prefixCode_noted]
    refine ⟨fun side hside => ?_, rfl⟩
    rw [modifier_decodeBreak _ _ hside, prefixCode_noted, modifier_noted]

theorem decodeKey_prefix (reply : BitVec 8) (h : code = prefix1 ∨ code = prefix2) :
    (∀ m, (kb.decodeKey behind reply code).1.gather.modifier m = kb.gather.modifier m) ∧
      (kb.decodeKey behind reply code).1.prefixCode = code := by
  rw [decodeKey_eq, if_pos h]
  exact ⟨modifier_noted kb code, rfl⟩

end Bytes

section Sequences

variable (behind : List (BitVec 8) → BitVec 8 → BitVec 8) {scan : ScanCode} {down : Bool}
  {kb : Keyboard}

/-- A whole sequence. At most one of its codes talks to the controller and is answered
by `reply`. -/
def decode (kb : Keyboard) (call : BitVec 8 × Stroke) : Keyboard :=
  call.2.bytes.foldl (fun kb code => (kb.decodeKey behind call.1 code).1) kb

def target (latched : Bool) : Stroke → Option Modifier
  | ⟨.plain scan, _⟩ => sideOf latched scan.code
  | ⟨.extended scan, _⟩ => sideOf true scan.code
  | ⟨.pause, down⟩ => if down then some .ctrlLeft else none

/-- What it changes it to. The last codes of the pause key are those of released keys. -/
def value : Stroke → Bool
  | ⟨.pause, _⟩ => false
  | ⟨_, down⟩ => down

/-- The left control key and a code that stays without effect follow the prefix of the
pause key. -/
theorem decode_pauseCodes (kb : Keyboard) (reply : BitVec 8) (down : Bool) :
    let kb' := (pauseCodes down).foldl (fun kb code => (kb.decodeKey behind reply code).1) kb
    (∀ side ∈ sided, kb'.gather.modifier side.1 =
      if some .ctrlLeft = some side.1 then down else kb.gather.modifier side.1) ∧
    kb'.prefixCode = 0 := by
  obtain ⟨hsame, hlatched⟩ := decodeKey_prefix behind kb reply (.inr rfl)
  obtain ⟨hctrl, hreset⟩ :=
    decodeKey_sent behind (kb.decodeKey behind reply prefix2).1 reply ctrlCode down
  obtain ⟨hnum, hlast⟩ := decodeKey_sent behind
    ((kb.decodeKey behind reply prefix2).1.decodeKey behind reply (sent down ctrlCode.code)).1 reply
      numLockCode down
  have hmodifier : isModifier ctrlCode.code = true := rfl
  rw [hmodifier, Bool.or_true, if_pos rfl] at hreset
  refine ⟨fun side hside => ?_, ?_⟩
  · calc
      _ = _ := hnum side hside
      _ = _ := if_neg (Option.some_ne_none _).symm
      _ = _ := hctrl side hside
      _ = _ := by
        rw [hsame]
        rfl
  · exact hlast.trans (by rw [hreset, ite_self])

theorem decode_pause (kb : Keyboard) (reply : BitVec 8) :
    (∀ side ∈ sided, (decode behind kb (reply, ⟨.pause, true⟩)).gather.modifier side.1 =
      if some .ctrlLeft = some side.1 then false else kb.gather.modifier side.1) ∧
    (decode behind kb (reply, ⟨.pause, true⟩)).prefixCode = 0 := by
  obtain ⟨hpressed, -⟩ := decode_pauseCodes behind kb reply true
  obtain ⟨hreleased, hlast⟩ := decode_pauseCodes behind
    ((pauseCodes true).foldl (fun kb code => (kb.decodeKey behind reply code).1) kb) reply false
  rw [decode, bytes, foldl_append]
  refine ⟨fun side hside => ?_, hlast⟩
  rw [hreleased side hside, hpressed side hside]
  split_ifs <;> rfl

theorem decode_spec (kb : Keyboard) (reply : BitVec 8) (stroke : Stroke) :
    (∀ side ∈ sided, (decode behind kb (reply, stroke)).gather.modifier side.1 =
      if target (kb.prefixCode = prefix1) stroke = some side.1 then value stroke
      else kb.gather.modifier side.1) ∧
    decide ((decode behind kb (reply, stroke)).prefixCode = prefix1) =
      latch (kb.prefixCode = prefix1) stroke := by
  have hzero : ¬0#8 = prefix1 := by decide
  obtain ⟨key, down⟩ := stroke
  match key with
  | .plain scan =>
    obtain ⟨hmodifier, hlatched⟩ := decodeKey_sent behind kb reply scan down
    refine ⟨hmodifier, ?_⟩
    rw [show (decode behind kb (reply, ⟨.plain scan, down⟩)).prefixCode = _ from hlatched]
    cases down <;> cases hcode : isModifier scan.code <;> simp [latch, hcode, hzero]
  | .extended scan =>
    obtain ⟨hsame, hprefixed⟩ := decodeKey_prefix behind kb reply (.inl rfl)
    obtain ⟨hmodifier, hlatched⟩ :=
      decodeKey_sent behind (kb.decodeKey behind reply prefix1).1 reply scan down
    rw [hprefixed] at hlatched
    refine ⟨fun side hside => ?_, ?_⟩
    · rw [← hsame]
      exact hmodifier side hside
    · rw [show (decode behind kb (reply, ⟨.extended scan, down⟩)).prefixCode = _ from hlatched]
      cases down <;> cases hcode : isModifier scan.code <;> simp [latch, hcode, hzero]
  | .pause =>
    cases down with
    | true =>
      obtain ⟨hmodifier, hlatched⟩ := decode_pause behind kb reply
      refine ⟨hmodifier, ?_⟩
      rw [hlatched]
      rfl
    | false => exact ⟨fun _ _ => rfl, rfl⟩

theorem isHeld_concat (past : List Stroke) (stroke : Stroke) (key : PhysicalKey) :
    isHeld (past ++ [stroke]) key = if stroke.key = key then stroke.down else isHeld past key := by
  unfold isHeld
  rw [filter_append, filter_singleton]
  by_cases hkey : stroke.key = key
  · rw [if_pos hkey, decide_eq_true hkey]
    simp only [cond_true, map_append, map_singleton, getLastD_concat]
  · rw [if_neg hkey, decide_eq_false hkey]
    simp only [cond_false, append_nil]

variable {stroke : Stroke} {past : List Stroke} {latched : Bool}

theorem Alternate.of_concat (h : Alternate (past ++ [stroke])) :
    Alternate past ∧ isHeld past stroke.key ≠ stroke.down := by
  refine ⟨fun key => ?_, ?_⟩
  · have hchain := h key
    rw [filter_append, map_append, ← cons_append, isChain_append] at hchain
    exact hchain.1
  · have hchain := h stroke.key
    rw [filter_append, filter_singleton, decide_eq_true rfl, cond_true, map_append, ← cons_append,
      isChain_append] at hchain
    apply hchain.2.2
    · rw [getLast?_cons, ← getLastD_eq_getLast?]
      rfl
    · rfl

theorem scan_of_mem_sided {side : Modifier × PhysicalKey} (hside : side ∈ sided)
    (h : .plain scan = side.2 ∨ .extended scan = side.2) : scan = ctrlCode ∨ scan = altCode := by
  have hkeys : ∀ side ∈ sided, side.2 = .plain ctrlCode ∨ side.2 = .extended ctrlCode ∨
      side.2 = .plain altCode ∨
      side.2 = .extended altCode := by decide
  obtain hkey | hkey | hkey | hkey := hkeys side hside <;>
    simp_all only [PhysicalKey.plain.injEq, PhysicalKey.extended.injEq, reduceCtorEq, or_false,
      false_or, true_or, or_true]

theorem sideOf_iff (prefixed : Bool) (scan : ScanCode) : ∀ side ∈ sided,
    sideOf prefixed scan.code = some side.1 ↔
      (if prefixed then .extended scan else .plain scan) = side.2 := by
  by_cases halt : scan = altCode
  · subst halt
    cases prefixed <;> decide
  by_cases hctrl : scan = ctrlCode
  · subst hctrl
    cases prefixed <;> decide
  · intro side hside
    have hnone : sideOf prefixed scan.code = none :=
      (if_neg fun h => halt (ScanCode.ext h)).trans (if_neg fun h => hctrl (ScanCode.ext h))
    rw [hnone]
    refine iff_of_false (Option.some_ne_none _).symm fun h => ?_
    have hkey : .plain scan = side.2 ∨ .extended scan = side.2 := by
      cases prefixed
      · exact .inl h
      · exact .inr h
    exact (scan_of_mem_sided hside hkey).elim hctrl halt

/-- What the decoder makes of a stroke is what the keyboard does. -/
def MovesWith (latched : Bool) (past : List Stroke) (stroke : Stroke) : Prop :=
  ∀ side ∈ sided, (if target latched stroke = some side.1 then value stroke
    else isHeld past side.2) =
    isHeld (past ++ [stroke]) side.2

theorem movesWith_of_target (hvalue : value stroke = stroke.down)
    (h : ∀ side ∈ sided, target latched stroke = some side.1 ↔ stroke.key = side.2) :
    MovesWith latched past stroke := by
  intro side hside
  rw [isHeld_concat, hvalue]
  exact if_congr (h side hside) rfl rfl

/-- A plain key that is taken for the key on the right leaves the left modifier behind. -/
theorem movesWith_plain (hmoves : isHeld past (.plain scan) ≠ down) :
    MovesWith latched past ⟨.plain scan, down⟩ ↔
      (scan = ctrlCode ∨ scan = altCode → latched = false) := by
  constructor
  · intro hall hscan
    obtain ⟨m, hside⟩ : ∃ m, (m, .plain scan) ∈ sided := by
      rcases hscan with rfl | rfl
      · exact ⟨.ctrlLeft, by decide⟩
      · exact ⟨.altLeft, by decide⟩
    by_contra hlatched
    have hnot : ¬target latched ⟨.plain scan, down⟩ = some m := by
      rw [Bool.eq_true_of_not_eq_false hlatched]
      exact fun h => PhysicalKey.noConfusion ((sideOf_iff true scan _ hside).mp h)
    have hleft := hall _ hside
    rw [if_neg hnot, isHeld_concat, if_pos rfl] at hleft
    exact hmoves hleft
  · intro hlatched
    apply movesWith_of_target rfl
    intro side hside
    apply (sideOf_iff latched scan side hside).trans
    cases latched with
    | false => exact Iff.rfl
    | true =>
      have hother := fun h => Bool.false_ne_true (hlatched h).symm
      exact iff_of_false (fun h => hother (scan_of_mem_sided hside (.inr h)))
        fun h => hother (scan_of_mem_sided hside (.inl h))

theorem movesWith_pause : MovesWith latched past ⟨.pause, down⟩ ↔
    (down = true → isHeld past (.plain ctrlCode) = false) := by
  have hpause : ∀ side ∈ sided, ¬PhysicalKey.pause = side.2 := by decide
  have hctrl : ∀ side ∈ sided, some .ctrlLeft = some side.1 → side.2 = .plain ctrlCode := by decide
  have hsame : ∀ side ∈ sided, isHeld (past ++ [⟨.pause, down⟩]) side.2 = isHeld past side.2 :=
    fun side hside => (isHeld_concat past ⟨.pause, down⟩ side.2).trans (if_neg (hpause side hside))
  cases down with
  | false => exact iff_of_true (fun side hside => (hsame side hside).symm) nofun
  | true =>
    constructor
    · intro hall _
      have hside : (.ctrlLeft, .plain ctrlCode) ∈ sided := by decide
      exact (hsame _ hside).symm.trans (hall _ hside).symm
    · intro hheld side hside
      rw [hsame side hside]
      split_ifs with htarget
      · rw [hctrl side hside htarget]
        exact (hheld rfl).symm
      · rfl

theorem movesWith_iff (hmoves : isHeld past stroke.key ≠ stroke.down) :
    MovesWith latched past stroke ↔ Undisturbed latched past stroke := by
  obtain ⟨key, down⟩ := stroke
  cases key with
  | plain scan => exact movesWith_plain hmoves
  | extended scan => exact iff_of_true (movesWith_of_target rfl (sideOf_iff true scan)) trivial
  | pause => exact movesWith_pause

/-- The prefix and the modifiers after a run of sequences, as the strokes have them. -/
structure InStep (latched : Bool) (kb : Keyboard) (strokes : List Stroke) : Prop where
  latched : decide (kb.prefixCode = prefix1) = strokes.foldl latch latched
  follows : Follows kb.gather strokes

theorem follows_decode (h : InStep latched kb past) (reply : BitVec 8)
    (hmoves : isHeld past stroke.key ≠ stroke.down) :
    Follows (decode behind kb (reply, stroke)).gather (past ++ [stroke]) ↔
      Undisturbed (past.foldl latch latched) past stroke := by
  rw [← movesWith_iff hmoves]
  apply forall₂_congr
  intro side hside
  rw [(decode_spec behind kb reply stroke).1 side hside, h.latched, h.follows side hside]

theorem latched_decode (kb : Keyboard) (calls : List (BitVec 8 × Stroke)) :
    decide ((calls.foldl (decode behind) kb).prefixCode = prefix1) =
      (calls.map Prod.snd).foldl latch (kb.prefixCode = prefix1) := by
  induction calls generalizing kb with
  | nil => rfl
  | cons call calls ih =>
    rw [foldl_cons, ih, (decode_spec behind kb call.1 call.2).2, map_cons, foldl_cons]

theorem allUndisturbed_nil (latched : Bool) : AllUndisturbed latched [] := fun past stroke hpast =>
  absurd (prefix_nil.mp hpast) (concat_ne_nil stroke past)

theorem allUndisturbed_concat {strokes : List Stroke} :
    AllUndisturbed latched (strokes ++ [stroke]) ↔
      AllUndisturbed latched strokes ∧
        Undisturbed (strokes.foldl latch latched) strokes stroke := by
  constructor
  · intro h
    exact ⟨fun past last hpast => h past last (hpast.trans (prefix_append _ _)),
      h strokes stroke (prefix_refl _)⟩
  · rintro ⟨hall, hlast⟩ past last hpast
    rcases prefix_concat_iff.mp hpast with heq | hpast
    · obtain ⟨rfl, hstroke⟩ := append_inj' heq rfl
      rw [singleton_inj.mp hstroke]
      exact hlast
    · exact hall past last hpast

theorem follows_iff (hstart : ∀ side ∈ sided, kb.gather.modifier side.1 = false)
    {calls : List (BitVec 8 × Stroke)} (halternate : Alternate (calls.map Prod.snd)) :
    (∀ past, past <+: calls → Follows (past.foldl (decode behind) kb).gather (past.map Prod.snd)) ↔
      AllUndisturbed (kb.prefixCode = prefix1) (calls.map Prod.snd) := by
  induction calls using reverseRecOn with
  | nil =>
    refine iff_of_true (fun past hpast => ?_) (allUndisturbed_nil _)
    rw [prefix_nil.mp hpast]
    exact hstart
  | append_singleton calls call ih =>
    rw [map_append, map_singleton] at halternate ⊢
    obtain ⟨hpast, hmoves⟩ := halternate.of_concat
    simp only [prefix_concat_iff, or_imp, forall_and, forall_eq]
    rw [and_comm, ih hpast, allUndisturbed_concat, foldl_concat, map_append]
    refine and_congr_right fun hall => follows_decode behind
      ⟨latched_decode behind kb calls, ?_⟩ call.1 hmoves
    exact (ih hpast).mpr hall calls (prefix_refl _)

/-- For all sequences of a keyboard whose keys are pressed and released in turn, the
control and alt modifiers are those of the held keys after every sequence exactly if a
left control or alt key never moves while a prefix has stayed behind and the pause key is
never pressed while the left control key is held. -/
theorem modifiers_follow_keys (prefixCode leds : BitVec 8)
    (replies : BitVec 8 × BitVec 8 × BitVec 8) (calls : List (BitVec 8 × Stroke))
    (halternate : Alternate (calls.map Prod.snd)) :
    (∀ past, past <+: calls →
      let key := (past.foldl (decode behind) (Keyboard.new prefixCode leds replies)).gather
      let held := isHeld (past.map Prod.snd)
      key.ctrlLeft = held (.plain ctrlCode) ∧ key.ctrlRight = held (.extended ctrlCode) ∧
        key.altLeft = held (.plain altCode) ∧ key.altRight = held (.extended altCode)) ↔
      AllUndisturbed (prefixCode = prefix1) (calls.map Prod.snd) := by
  have hlatched : (Keyboard.new prefixCode leds replies).prefixCode = prefixCode := by
    simp only [Keyboard.new, prefixCode_setLed]
  have hgather : (Keyboard.new prefixCode leds replies).gather = Key.new := by
    simp only [Keyboard.new, gather_setLed]
  have hstart :
      ∀ side ∈ sided, (Keyboard.new prefixCode leds replies).gather.modifier side.1 = false := by
    rw [hgather]
    decide
  have hiff := follows_iff behind hstart halternate
  rw [hlatched] at hiff
  rw [← hiff]
  simp [Follows, sided, Key.ctrlLeft, Key.ctrlRight, Key.altLeft, Key.altRight]

end Sequences

def upCode : ScanCode := ⟨0x48, by decide, by decide, by decide⟩

/-- The left control key is pressed and released while the up key is held. -/
def controlWithin : List (BitVec 8 × Stroke) :=
  [(ack, ⟨.extended upCode, true⟩), (ack, ⟨.plain ctrlCode, true⟩), (ack, ⟨.plain ctrlCode, false⟩),
    (ack, ⟨.extended upCode, false⟩)]

theorem modifiers_follow_keys_controlWithin :
    Alternate (controlWithin.map Prod.snd) ∧ AllUndisturbed false (controlWithin.map Prod.snd) ∧
      ∀ past, past <+: controlWithin →
        let key := (past.foldl (decode fun _ _ => 0) (Keyboard.new 0 0 (ack, ack, ack))).gather
        let held := isHeld (past.map Prod.snd)
        key.ctrlLeft = held (.plain ctrlCode) ∧ key.ctrlRight = held (.extended ctrlCode) ∧
          key.altLeft = held (.plain altCode) ∧ key.altRight = held (.extended altCode) := by
  have halternate : Alternate (controlWithin.map Prod.snd) := by decide
  have hall : AllUndisturbed false ([] ++ [⟨.extended upCode, true⟩] ++ [⟨.plain ctrlCode, true⟩] ++
      [⟨.plain ctrlCode, false⟩] ++ [⟨.extended upCode, false⟩]) := by
    rw [allUndisturbed_concat, allUndisturbed_concat, allUndisturbed_concat, allUndisturbed_concat]
    exact ⟨⟨⟨⟨allUndisturbed_nil false, trivial⟩, fun _ => rfl⟩, fun _ => rfl⟩, trivial⟩
  exact ⟨halternate, hall, (modifiers_follow_keys _ 0 0 _ controlWithin halternate).mpr hall⟩

def controlAfter : List (BitVec 8 × Stroke) :=
  [(ack, ⟨.extended upCode, true⟩), (ack, ⟨.extended upCode, false⟩),
    (ack, ⟨.plain ctrlCode, true⟩), (ack, ⟨.plain ctrlCode, false⟩)]

/-- All keys have been released, and the right control key is taken for held. -/
theorem ctrlRight_stuck : Alternate (controlAfter.map Prod.snd) ∧
    (∀ stroke ∈ controlAfter, isHeld (controlAfter.map Prod.snd) stroke.2.key = false) ∧
    isHeld (controlAfter.map Prod.snd) (.extended ctrlCode) = false ∧
    (controlAfter.foldl (decode fun _ _ => 0) (Keyboard.new 0 0 (ack, ack, ack))).gather.ctrlRight =
      true := by
  decide

end Stroke

end HuyaOS.Device
