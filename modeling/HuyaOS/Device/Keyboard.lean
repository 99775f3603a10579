import Mathlib.Data.List.Basic
import Mathlib.Data.BitVec

/-!
`Keyboard::decodeKey` and the key that it gathers. The codes come one byte at a time; a
prefix byte is remembered until a later code uses it.
-/

namespace HuyaOS.Device

inductive Modifier
  | shift | altLeft | altRight | ctrlLeft | ctrlRight | capsLock | numLock | scrollLock
  deriving DecidableEq

def Modifier.mbit : Modifier → BitVec 8
  | shift => 1
  | altLeft => 2
  | altRight => 4
  | ctrlLeft => 8
  | ctrlRight => 16
  | capsLock => 32
  | numLock => 64
  | scrollLock => 128

def Modifier.position : Modifier → Nat
  | shift => 0
  | altLeft => 1
  | altRight => 2
  | ctrlLeft => 3
  | ctrlRight => 4
  | capsLock => 5
  | numLock => 6
  | scrollLock => 7

theorem Modifier.mbit_eq (m : Modifier) : m.mbit = BitVec.twoPow 8 m.position := by cases m <;> rfl

theorem Modifier.position_lt (m : Modifier) : m.position < 8 := by cases m <;> decide

theorem Modifier.position_inj {m m' : Modifier} : m.position = m'.position ↔ m = m' := by
  constructor
  · cases m <;> cases m' <;> first | exact fun _ => rfl | exact fun h => absurd h (by decide)
  · exact congrArg position

structure Key where
  asc : BitVec 8
  scan : BitVec 8
  modi : BitVec 8
  pressed : Bool

namespace Key

def new : Key := ⟨0, 0, 0, false⟩

variable (k : Key)

def setModifier (m : Modifier) (pressed : Bool) : Key :=
  { k with modi := if pressed then k.modi ||| m.mbit else k.modi &&& ~~~m.mbit }

def modifier (m : Modifier) : Bool := k.modi &&& m.mbit ≠ 0

def setShift : Bool → Key := k.setModifier .shift
def setAltLeft : Bool → Key := k.setModifier .altLeft
def setAltRight : Bool → Key := k.setModifier .altRight
def setCtrlLeft : Bool → Key := k.setModifier .ctrlLeft
def setCtrlRight : Bool → Key := k.setModifier .ctrlRight
def setCapsLock : Bool → Key := k.setModifier .capsLock
def setNumLock : Bool → Key := k.setModifier .numLock
def setScrollLock : Bool → Key := k.setModifier .scrollLock

def shift : Bool := k.modifier .shift
def altLeft : Bool := k.modifier .altLeft
def altRight : Bool := k.modifier .altRight
def ctrlLeft : Bool := k.modifier .ctrlLeft
def ctrlRight : Bool := k.modifier .ctrlRight
def capsLock : Bool := k.modifier .capsLock
def numLock : Bool := k.modifier .numLock
def scrollLock : Bool := k.modifier .scrollLock

def alt : Bool := k.altLeft || k.altRight
def ctrl : Bool := k.ctrlLeft || k.ctrlRight

def del : BitVec 8 := 0x53
def div : BitVec 8 := 8

theorem modifier_eq (m : Modifier) : k.modifier m = k.modi.getLsbD m.position := by
  unfold modifier
  rw [m.mbit_eq, BitVec.and_twoPow]
  cases k.modi.getLsbD m.position with
  | false => simp
  | true =>
    cases m <;> decide

theorem modifier_setModifier (m m' : Modifier) (pressed : Bool) :
    (k.setModifier m pressed).modifier m' = if m = m' then pressed else k.modifier m' := by
  rw [modifier_eq, modifier_eq, setModifier, m.mbit_eq]
  by_cases hm : m = m'
  · subst hm
    cases pressed <;> simp [m.position_lt]
  · have hposition : ¬m'.position = m.position := mt Modifier.position_inj.mp (Ne.symm hm)
    cases pressed <;> simp [hm, hposition, m'.position_lt]

end Key

structure Keyboard where
  prefixCode : BitVec 8
  gather : Key
  leds : BitVec 8
  keysPressed : UInt32
  buffer : List (BitVec 8)

namespace Keyboard

def breakBit : BitVec 8 := 0x80
def prefix1 : BitVec 8 := 0xE0
def prefix2 : BitVec 8 := 0xE1
def ack : BitVec 8 := 0xFA

def text (s : String) : List (BitVec 8) := s.toList.map fun c => BitVec.ofNat 8 c.toNat

def normalTab : List (BitVec 8) :=
  [0, 0] ++ text "1234567890" ++ [225, 39, 8] ++
  [0] ++ text "qwertzuiop" ++ [129] ++ text "+\n" ++
  [0] ++ text "asdfghjkl" ++ [148, 132] ++ text "^" ++ [0] ++ text "#" ++
  text "yxcvbnm,.-" ++ [0] ++
  text "*" ++ [0] ++ text " " ++ List.replicate 16 0 ++ text "-" ++
  [0, 0, 0] ++ text "+" ++ List.replicate 7 0 ++ text "<" ++ [0, 0]

def shiftTab : List (BitVec 8) :=
  [0, 0] ++ text "!" ++ [34, 21] ++ text "$%&/()=?" ++ [96, 0] ++
  [0] ++ text "QWERTZUIOP" ++ [154] ++ text "*" ++ [0] ++
  [0] ++ text "ASDFGHJKL" ++ [153, 142, 248, 0, 39] ++
  text "YXCVBNM;:_" ++ [0] ++
  [0, 0] ++ text " " ++ List.replicate 17 0 ++
  List.replicate 11 0 ++ text ">" ++ [0, 0]

def altTab : List (BitVec 8) :=
  [0, 0, 0, 253, 0, 0, 0, 0, 123, 91, 93, 125, 92, 0, 0] ++
  [0] ++ text "@" ++ List.replicate 10 0 ++ text "~" ++ [0] ++
  List.replicate 15 0 ++
  [0, 0, 0, 0, 0, 0, 230, 0, 0, 0, 0] ++
  List.replicate 20 0 ++
  List.replicate 11 0 ++ text "|" ++ [0, 0]

def ascNumTab : List (BitVec 8) := text "789-456+1230,"

def scanNumTab : List (BitVec 8) := [8, 9, 10, 53, 5, 6, 7, 27, 2, 3, 4, 11, 51]

variable (behind : List (BitVec 8) → BitVec 8 → BitVec 8) (kb : Keyboard)

def setAscii (asc scan : BitVec 8) : Keyboard :=
  { kb with gather := { kb.gather with asc, scan } }

/-- The tables end before the last codes; `behind` is what follows them in memory. -/
def getAsciiCode (code : BitVec 8) : Keyboard :=
  let entry (tab : List (BitVec 8)) : BitVec 8 := tab.getD code.toNat (behind tab code)
  if code = 53 ∧ kb.prefixCode = prefix1 then kb.setAscii (BitVec.ofNat 8 '/'.toNat) Key.div
  else if kb.gather.numLock ∧ kb.prefixCode = 0 ∧ 71 ≤ code ∧ code ≤ 83 then
    kb.setAscii (ascNumTab.getD (code - 71).toNat 0) (scanNumTab.getD (code - 71).toNat 0)
  else if kb.gather.altRight then kb.setAscii (entry altTab) code
  else if kb.gather.shift then kb.setAscii (entry shiftTab) code
  else if kb.gather.capsLock then
    if (16 ≤ code ∧ code ≤ 26) ∨ (30 ≤ code ∧ code ≤ 40) ∨ (44 ≤ code ∧ code ≤ 50) then
      kb.setAscii (entry shiftTab) code
    else kb.setAscii (entry normalTab) code
  else kb.setAscii (entry normalTab) code

/-- `reply` is the controller's answer to the command. -/
def setLed (reply led : BitVec 8) (on : Bool) : Keyboard :=
  if reply = ack then { kb with leds := if on then kb.leds ||| led else kb.leds &&& ~~~led } else kb

def scrollLockLed : BitVec 8 := 1
def numLockLed : BitVec 8 := 2
def capsLockLed : BitVec 8 := 4

/-- The keyboard after its constructor and `plugin`. The constructor leaves `prefix` as
the memory has it. -/
def new (prefixCode leds : BitVec 8) (replies : BitVec 8 × BitVec 8 × BitVec 8) : Keyboard :=
  let kb : Keyboard := ⟨prefixCode, Key.new, leds, 0, List.replicate 4 0⟩
  ((kb.setLed replies.1 capsLockLed false).setLed replies.2.1 scrollLockLed false).setLed
    replies.2.2 numLockLed false

def isKeyPressed (scancode : BitVec 8) : Bool := kb.buffer.contains scancode

def addToBuffer (scancode : BitVec 8) : Keyboard :=
  if kb.isKeyPressed scancode then kb
  else
    match kb.buffer.findIdx? (· == 0) with
    | some i => { kb with buffer := kb.buffer.set i scancode, keysPressed := kb.keysPressed + 1 }
    | none => kb

def removeFromBuffer (scancode : BitVec 8) : Keyboard :=
  match kb.buffer.findIdx? (· == scancode) with
  | some i => { kb with buffer := kb.buffer.set i 0, keysPressed := kb.keysPressed - 1 }
  | none => kb

def setPressed (pressed : Bool) : Keyboard := { kb with gather := { kb.gather with pressed } }

/-- The switch over the codes of released keys. The codes that it does not know leave
the prefix in place. -/
def decodeBreak (code : BitVec 8) : Keyboard :=
  if code = 42 ∨ code = 54 then { kb with gather := kb.gather.setShift false, prefixCode := 0 }
  else if code = 56 then
    if kb.prefixCode = prefix1 then
      { kb with gather := kb.gather.setAltRight false, prefixCode := 0 }
    else { kb with gather := kb.gather.setAltLeft false, prefixCode := 0 }
  else if code = 29 then
    if kb.prefixCode = prefix1 then
      { kb with gather := kb.gather.setCtrlRight false, prefixCode := 0 }
    else { kb with gather := kb.gather.setCtrlLeft false, prefixCode := 0 }
  else kb

/-- The switch over the codes of pressed keys, and whether a key is complete. -/
def decodeMake (reply code : BitVec 8) : Keyboard × Bool :=
  if code = 42 ∨ code = 54 then ({ kb with gather := kb.gather.setShift true }, false)
  else if code = 56 then
    if kb.prefixCode = prefix1 then ({ kb with gather := kb.gather.setAltRight true }, false)
    else ({ kb with gather := kb.gather.setAltLeft true }, false)
  else if code = 29 then
    if kb.prefixCode = prefix1 then ({ kb with gather := kb.gather.setCtrlRight true }, false)
    else ({ kb with gather := kb.gather.setCtrlLeft true }, false)
  else if code = 58 then
    let kb := { kb with gather := kb.gather.setCapsLock !kb.gather.capsLock }
    (kb.setLed reply capsLockLed kb.gather.capsLock, false)
  else if code = 70 then
    let kb := { kb with gather := kb.gather.setScrollLock !kb.gather.scrollLock }
    (kb.setLed reply scrollLockLed kb.gather.scrollLock, false)
  -- with the left control key the code of the num lock key is a key like the others
  else if code = 69 ∧ ¬kb.gather.ctrlLeft then
    let kb := { kb with gather := kb.gather.setNumLock !kb.gather.numLock }
    (kb.setLed reply numLockLed kb.gather.numLock, false)
  else (kb.getAsciiCode behind code, true)

def decodeKey (reply code : BitVec 8) : Keyboard × Bool :=
  let isBreak : Bool := code &&& breakBit ≠ 0
  let scancode := code &&& ~~~breakBit
  let kb :=
    if isBreak then (kb.removeFromBuffer scancode).setPressed false
    else (kb.addToBuffer scancode).setPressed true
  if code = prefix1 ∨ code = prefix2 then ({ kb with prefixCode := code }, false)
  else if code &&& breakBit ≠ 0 then (kb.decodeBreak (code &&& ~~~breakBit), false)
  else
    let (kb, done) := kb.decodeMake behind reply code
    ({ kb with prefixCode := 0 }, done)

inductive KeyboardAction
  | reboot
  | publish (key : Key)

/-- `parseInterruptData` for a byte from the buffer. -/
def parseInterruptData (call : BitVec 8 × BitVec 8) : Keyboard × List KeyboardAction :=
  let (reply, data) := call
  let (kb, done) := kb.decodeKey behind reply data
  if done then
    let key := kb.gather
    (kb, (if key.ctrl ∧ key.alt ∧ key.scan = Key.del then [.reboot] else []) ++ [.publish key])
  else (kb, [])

end Keyboard

end HuyaOS.Device
