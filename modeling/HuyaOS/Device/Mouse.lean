import Mathlib.Data.List.Chain
import Mathlib.Data.Nat.Bitwise
import HuyaOS.Lib.Transition

/-!
`Mouse::parseInterruptData`. A packet has three bytes; the first one holds the buttons
and has a bit that is always set, by which the mouse gets back into step when bytes
are lost. A packet whose buttons differ from those of the packet before it is reported
by events.
-/

namespace HuyaOS.Device

open Lib List Nat

inductive MouseEvent
  | moved (dx dy : Int32)
  | doubleClicked
  | clicked (bitmask : Nat)
  | released (bitmask : Nat)
  deriving DecidableEq

structure Mouse where
  cycle : Nat
  flags : Nat
  dx : Int32
  dy : Int32
  buttons : Nat
  lastClickTimestamp : UInt32

namespace Mouse

variable {flags buttons : Nat} {frames : List (UInt8 × UInt8 × UInt8) × List UInt8}

/-- The mouse after its constructor. The members that it does not set are read only after
they have been written. -/
def new : Mouse := ⟨1, 0, 0, 0, 0, 0⟩

/-- What the loop over the buttons has found out. -/
structure Changes where
  clickEventOccurred : Bool
  clickMask : Nat
  releaseEventOccurred : Bool
  releaseMask : Nat
  lastClickTimestamp : UInt32
  published : List MouseEvent

/-- One round of the loop over the buttons. The time service answers `time i`. -/
def checkButton (flags buttons : Nat) (time : Nat → UInt32) (c : Changes) (i : Nat) : Changes :=
  if flags &&& (0x1 <<< i) ≠ buttons &&& (0x1 <<< i) then
    if buttons &&& (0x1 <<< i) ≠ 0 then
      { c with releaseEventOccurred := true, releaseMask := c.releaseMask ||| (0x1 <<< i) }
    else
      let c := { c with clickEventOccurred := true, clickMask := c.clickMask ||| (0x1 <<< i) }
      if time i - c.lastClickTimestamp < 300 then
        { c with published := c.published ++ [.doubleClicked], lastClickTimestamp := 0 }
      else { c with lastClickTimestamp := time i }
  else c

def checkButtons (flags buttons : Nat) (time : Nat → UInt32) (lastClickTimestamp : UInt32)
    (n : Nat) : Changes :=
  (List.range n).foldl (checkButton flags buttons time) ⟨false, 0, false, 0, lastClickTimestamp, []⟩

/-- The movement in a byte with its sign bit in the flags. -/
def extend (sign : Bool) (data : UInt8) : UInt32 :=
  if sign then data.toUInt32 ||| 0xFFFFFF00 else data.toUInt32

def complete (m : Mouse) (time : Nat → UInt32) (data : UInt8) : Mouse × List MouseEvent :=
  let dy := (-extend (m.flags &&& 0x20 ≠ 0) data).toInt32
  let moved := if ¬(m.flags &&& 0x40 ≠ 0 ∨ m.flags &&& 0x80 ≠ 0) ∧ (m.dx ≠ 0 ∨ dy ≠ 0) then
    [.moved m.dx dy] else []
  let c := checkButtons m.flags m.buttons time m.lastClickTimestamp 3
  let clicked := if c.clickEventOccurred then [.clicked c.clickMask] else []
  let released := if c.releaseEventOccurred then [.released c.releaseMask] else []
  ({ m with dy, buttons := m.flags, cycle := 1, lastClickTimestamp := c.lastClickTimestamp },
    moved ++ c.published ++ clicked ++ released)

/-- `parseInterruptData` for a byte from the buffer, with the events that it publishes. -/
def parseInterruptData (m : Mouse) (call : (Nat → UInt32) × UInt8) : Mouse × List MouseEvent :=
  let (time, data) := call
  match m.cycle with
  | 1 =>
      let m := { m with flags := data.toNat }
      if m.flags &&& 0x08 = 0 then ({ m with cycle := 1 }, []) else ({ m with cycle := 2 }, [])
  | 2 => ({ m with dx := (extend (m.flags &&& 0x10 ≠ 0) data).toInt32, cycle := 3 }, [])
  | 3 => m.complete time data
  | _ => (m, [])

def isFirst (data : UInt8) : Bool := data.toNat.testBit 3

/-- The packets in a stream of bytes, and the bytes at its end that belong to a packet
that is not complete. A byte that cannot be the first of a packet is dropped. -/
def frame : List UInt8 → List (UInt8 × UInt8 × UInt8) × List UInt8
  | first :: x :: y :: rest =>
      if isFirst first then ((first, x, y) :: (frame rest).1, (frame rest).2)
        else frame (x :: y :: rest)
  | short => ([], short.dropWhile fun data => !isFirst data)

def extendFrame :
    List (UInt8 × UInt8 × UInt8) × List UInt8 → UInt8 → List (UInt8 × UInt8 × UInt8) × List UInt8
  | (packets, [first, x]), data => (packets ++ [(first, x, data)], [])
  | (packets, [first]), data => (packets, [first, data])
  | (packets, _), data => (packets, if isFirst data then [data] else [])

theorem frame_concat (stream : List UInt8) (data : UInt8) :
    frame (stream ++ [data]) = extendFrame (frame stream) data := by
  fun_induction frame stream with
  | case1 first x y rest hfirst ih =>
    simp only [cons_append, frame, hfirst, if_true, ih]
    rcases frame rest with ⟨packets, _ | ⟨a, _ | ⟨b, _ | ⟨c, started⟩⟩⟩⟩ <;> rfl
  | case2 first x y rest hfirst ih =>
    rw [← ih]
    simp only [cons_append, frame, hfirst, Bool.false_eq_true, if_false]
  | case3 short hshort =>
    match short, hshort with
    | [], _ => cases h : isFirst data <;> simp [frame, extendFrame, h]
    | [a], _ => cases ha : isFirst a <;> cases h : isFirst data <;> simp [frame, extendFrame, ha, h]
    | [a, b], _ =>
      cases ha : isFirst a <;> cases hb : isFirst b <;> cases h : isFirst data <;>
        simp [frame, extendFrame, ha, hb, h]
    | a :: b :: c :: rest, hshort => exact absurd rfl (hshort a b c rest)

def lastButtons (packets : List (UInt8 × UInt8 × UInt8)) : Nat :=
  (packets.getLast?.map fun p => p.1.toNat).getD 0

/-- The mouse has read the packets and is in the middle of the next one. -/
structure HasRead (m : Mouse) (frames : List (UInt8 × UInt8 × UInt8) × List UInt8) : Prop where
  short : frames.2.length < 3
  cycle : m.cycle = frames.2.length + 1
  flags : ∀ first ∈ frames.2.head?, m.flags = first.toNat
  buttons : m.buttons = lastButtons frames.1

theorem and_shiftLeft_eq (a i : Nat) : a &&& (0x1 <<< i) = (a.testBit i).toNat * 2 ^ i := by
  rw [one_shiftLeft, and_two_pow]

theorem and_shiftLeft_ne_zero (a i : Nat) : a &&& (0x1 <<< i) ≠ 0 ↔ a.testBit i = true := by
  rw [and_shiftLeft_eq]
  cases a.testBit i <;> simp

theorem and_shiftLeft_inj (a b i : Nat) :
    a &&& (0x1 <<< i) = b &&& (0x1 <<< i) ↔ a.testBit i = b.testBit i := by
  rw [and_shiftLeft_eq, and_shiftLeft_eq, Nat.mul_left_inj (by positivity)]
  cases a.testBit i <;> cases b.testBit i <;> decide

/-- A button that is down in the packet and was up before, and the other way round. -/
def clicks (flags buttons j : Nat) : Bool := flags.testBit j && !buttons.testBit j

def releases (flags buttons j : Nat) : Bool := clicks buttons flags j

theorem checkButton_cases (flags buttons : Nat) (time : Nat → UInt32) (c : Changes) (n : Nat) :
    (clicks flags buttons n = true ∧ releases flags buttons n = false ∧ ∃ stamp doubles,
        (∀ event ∈ doubles, event = .doubleClicked) ∧ checkButton flags buttons time c n =
          { c with clickEventOccurred := true, clickMask := c.clickMask ||| (0x1 <<< n),
                   lastClickTimestamp := stamp, published := c.published ++ doubles }) ∨
      (clicks flags buttons n = false ∧ releases flags buttons n = true ∧
        checkButton flags buttons time c n =
        { c with releaseEventOccurred := true, releaseMask := c.releaseMask ||| (0x1 <<< n) }) ∨
      (clicks flags buttons n = false ∧ releases flags buttons n = false ∧
        checkButton flags buttons time c n = c) := by
  have hchange := not_congr (and_shiftLeft_inj flags buttons n)
  have hdown := and_shiftLeft_ne_zero buttons n
  cases hflag : flags.testBit n with
  | false =>
    cases hbutton : buttons.testBit n with
    | false =>
      rw [hflag, hbutton] at hchange
      exact .inr (.inr ⟨by rw [clicks, hflag]; rfl, by rw [releases, clicks, hbutton]; rfl,
        if_neg (mt hchange.mp (not_not.mpr rfl))⟩)
    | true =>
      rw [hflag, hbutton] at hchange
      refine .inr (.inl
        ⟨by rw [clicks, hflag]; rfl, by rw [releases, clicks, hflag, hbutton]; rfl, ?_⟩)
      exact (if_pos (hchange.mpr Bool.false_ne_true)).trans (if_pos (hdown.mpr hbutton))
  | true =>
    cases hbutton : buttons.testBit n with
    | false =>
      rw [hflag, hbutton] at hchange
      refine .inl ⟨by rw [clicks, hflag, hbutton]; rfl, by rw [releases, clicks, hbutton]; rfl, ?_⟩
      rw [checkButton, if_pos (hchange.mpr Bool.false_ne_true.symm),
        if_neg (mt hdown.mp (ne_true_of_eq_false hbutton))]
      by_cases htime : time n - c.lastClickTimestamp < 300
      · exact ⟨0, [.doubleClicked], forall_mem_singleton.mpr rfl, if_pos htime⟩
      · refine ⟨time n, [], fun event h => absurd h not_mem_nil, ?_⟩
        rw [append_nil]
        exact if_neg htime
    | true =>
      rw [hflag, hbutton] at hchange
      exact .inr (.inr ⟨by rw [clicks, hbutton, Bool.not_true, Bool.and_false],
        by rw [releases, clicks, hflag, Bool.not_true, Bool.and_false],
        if_neg (mt hchange.mp (not_not.mpr rfl))⟩)

variable {n : Nat} {f : Nat → Bool} {j mask : Nat}

theorem decide_lt_succ (j : Nat) :
    (decide (j < n + 1) && f j) = ((decide (j < n) && f j) || (decide (n = j) && f n)) := by
  by_cases hj : n = j
  · subst hj
    simp
  · have hlt : decide (j < n + 1) = decide (j < n) := decide_eq_decide.mpr (by omega)
    rw [hlt, decide_eq_false hj, Bool.false_and, Bool.or_false]

theorem testBit_marked (h : ∀ j, mask.testBit j = (decide (j < n) && f j)) (hf : f n = true)
    (j : Nat) :
    (mask ||| (0x1 <<< n)).testBit j = (decide (j < n + 1) && f j) := by
  rw [decide_lt_succ, testBit_or, one_shiftLeft, testBit_two_pow, hf, Bool.and_true, h j]

theorem testBit_unmarked (h : ∀ j, mask.testBit j = (decide (j < n) && f j)) (hf : f n = false)
    (j : Nat) :
    mask.testBit j = (decide (j < n + 1) && f j) := by
  rw [decide_lt_succ, hf, Bool.and_false, Bool.or_false, h j]

/-- What is known after the first `n` buttons. -/
structure Checked (flags buttons n : Nat) (c : Changes) : Prop where
  clicked : ∀ j, c.clickMask.testBit j = (decide (j < n) && clicks flags buttons j)
  released : ∀ j, c.releaseMask.testBit j = (decide (j < n) && releases flags buttons j)
  clickOccurred : c.clickMask ≠ 0 → c.clickEventOccurred = true
  releaseOccurred : c.releaseMask ≠ 0 → c.releaseEventOccurred = true
  published : ∀ event ∈ c.published, event = .doubleClicked

theorem Checked.checkButton {c : Changes} (h : Checked flags buttons n c) (time : Nat → UInt32) :
    Checked flags buttons (n + 1) (checkButton flags buttons time c n) := by
  obtain ⟨hclick, hrelease, stamp, doubles, hdoubles, heq⟩ | ⟨hclick, hrelease, heq⟩ |
    ⟨hclick, hrelease, heq⟩ :=
    checkButton_cases flags buttons time c n
  · rw [heq]
    exact ⟨testBit_marked h.clicked hclick, testBit_unmarked h.released hrelease, fun _ => rfl,
      h.releaseOccurred, forall_mem_append.mpr ⟨h.published, hdoubles⟩⟩
  · rw [heq]
    exact ⟨testBit_unmarked h.clicked hclick, testBit_marked h.released hrelease, h.clickOccurred,
      fun _ => rfl, h.published⟩
  · rw [heq]
    exact ⟨testBit_unmarked h.clicked hclick, testBit_unmarked h.released hrelease, h.clickOccurred,
      h.releaseOccurred, h.published⟩

theorem checked_checkButtons (flags buttons : Nat) (time : Nat → UInt32)
    (lastClickTimestamp : UInt32) (n : Nat) :
    Checked flags buttons n (checkButtons flags buttons time lastClickTimestamp n) := by
  induction n with
  | zero => constructor <;> simp [checkButtons]
  | succ n ih =>
    rw [checkButtons, range_succ, foldl_concat]
    exact ih.checkButton time

/-- What the events say about the button `j`: clicks are `true`, releases `false`. -/
def history (j : Nat) (events : List MouseEvent) : List Bool :=
  events.flatMap fun event =>
    match event with
    | .clicked bitmask => if bitmask.testBit j then [true] else []
    | .released bitmask => if bitmask.testBit j then [false] else []
    | _ => []

def isDown (j : Nat) (events : List MouseEvent) : Bool := (history j events).getLastD false

def report (buttons flags j : Nat) : List Bool :=
  if clicks flags buttons j then [true] else if releases flags buttons j then [false] else []

theorem report_eq (buttons flags j : Nat) :
    report buttons flags j = if flags.testBit j = buttons.testBit j then []
      else [flags.testBit j] := by
  unfold report releases clicks
  cases flags.testBit j <;> cases buttons.testBit j <;> rfl

theorem report_self (buttons j : Nat) : report buttons buttons j = [] := by
  rw [report_eq, if_pos rfl]

theorem length_report_le (buttons flags j : Nat) : (report buttons flags j).length ≤ 1 := by
  rw [report_eq]
  split
  · exact zero_le 1
  · exact le_rfl

theorem history_append (j : Nat) (events events' : List MouseEvent) :
    history j (events ++ events') = history j events ++ history j events' := flatMap_append

theorem history_doubleClicked {events : List MouseEvent}
    (h : ∀ event ∈ events, event = .doubleClicked) (j : Nat) :
    history j events = [] := by
  apply flatMap_eq_nil_iff.mpr
  intro event hevent
  rw [h event hevent]

theorem history_occurred {occurred b : Bool} {event : MouseEvent} (h : mask ≠ 0 → occurred = true)
    (hevent : history j [event] = if mask.testBit j then [b] else []) :
    history j (if occurred then [event] else []) = if mask.testBit j then [b] else [] := by
  cases occurred with
  | true => exact hevent
  | false =>
    have hmask : mask = 0 := by_contra fun hne => Bool.false_ne_true (h hne)
    rw [hmask, zero_testBit]
    rfl

theorem history_complete (m : Mouse) (time : Nat → UInt32) (data : UInt8) (hj : j < 3) :
    history j (m.complete time data).2 = report m.buttons m.flags j := by
  have h := checked_checkButtons m.flags m.buttons time m.lastClickTimestamp 3
  unfold complete
  have hmoved : ∀ (p : Prop) [Decidable p] (dx dy : Int32),
      history j (if p then [.moved dx dy] else []) = [] := by
    intro p _ dx dy
    split <;> rfl
  rw [history_append, history_append, history_append, hmoved, history_doubleClicked h.published,
    history_occurred h.clickOccurred (append_nil _),
      history_occurred h.releaseOccurred (append_nil _),
    h.clicked, h.released, decide_eq_true hj, report, nil_append]
  -- a button cannot be clicked and released
  cases hflag : m.flags.testBit j <;> cases hbutton : m.buttons.testBit j <;>
    simp [releases, clicks, hflag, hbutton]

/-- A byte takes the mouse to the packets with this byte. What is reported is the
change from the last packet to the one that the byte completes. -/
theorem HasRead.parseInterruptData {m : Mouse}
    (h : m.HasRead frames) (call : (Nat → UInt32) × UInt8) :
    (m.parseInterruptData call).1.HasRead (extendFrame frames call.2) ∧
      ((extendFrame frames call.2).1 = frames.1 → (m.parseInterruptData call).2 = []) ∧
      ∀ j < 3, history j (m.parseInterruptData call).2 =
        report (lastButtons frames.1) (lastButtons (extendFrame frames call.2).1) j := by
  obtain ⟨packets, started⟩ := frames
  obtain ⟨time, data⟩ := call
  obtain ⟨cycle, flags, dx, dy, buttons, lastClickTimestamp⟩ := m
  obtain ⟨hshort, rfl, hflags, rfl⟩ := h
  match started with
  | [] =>
    have hfirst : data.toNat &&& 0x08 = 0 ↔ isFirst data = false := by
      rw [← not_iff_not, Bool.not_eq_false]
      exact and_shiftLeft_ne_zero data.toNat 3
    refine ⟨?_, fun _ => ?_, fun j _ => ?_⟩
    all_goals
      simp only [Mouse.parseInterruptData, hfirst, extendFrame]
      cases hdata : isFirst data
    · exact ⟨by simp, by simp, by simp, rfl⟩
    · exact ⟨by simp, by simp, by simp, rfl⟩
    · rfl
    · rfl
    · exact (report_self _ j).symm
    · exact (report_self _ j).symm
  | [first] =>
    exact ⟨⟨by simp [extendFrame], by simp [extendFrame, Mouse.parseInterruptData], hflags, rfl⟩,
      fun _ => rfl, fun j _ => (report_self _ j).symm⟩
  | [first, x] =>
    have hflags : flags = first.toNat := hflags first rfl
    have hlast : lastButtons (packets ++ [(first, x, data)]) = flags := by
      rw [lastButtons, getLast?_concat, hflags]
      rfl
    refine ⟨⟨zero_lt_succ 2, rfl, fun _ h => absurd h (Option.not_mem_none _), hlast.symm⟩,
      fun h => ?_, fun j hj => ?_⟩
    · exact absurd h (by simp [extendFrame])
    · rw [extendFrame, hlast]
      exact history_complete _ time data hj
  | _ :: _ :: _ :: _ => exact absurd hshort (by simp)

theorem chain_report {past : List Bool} (hchain : (false :: past).IsChain (· ≠ ·))
    (hlast : past.getLastD false = buttons.testBit j) :
    (false :: (past ++ report buttons flags j)).IsChain (· ≠ ·) ∧
      (past ++ report buttons flags j).getLastD false = flags.testBit j := by
  rw [report_eq]
  split
  · rename_i hsame
    rw [append_nil, hsame]
    exact ⟨hchain, hlast⟩
  · rename_i hchanged
    refine ⟨?_, getLastD_concat⟩
    rw [← cons_append, isChain_append]
    refine ⟨hchain, .singleton _, ?_⟩
    intro before hbefore after hafter
    rw [getLast?_cons, ← getLastD_eq_getLast?, hlast] at hbefore
    cases hbefore
    cases hafter
    exact Ne.symm hchanged

/-- The events after a stream of bytes. -/
structure Reported (frames : List (UInt8 × UInt8 × UInt8) × List UInt8)
    (answers : List (List MouseEvent)) : Prop where
  alternate : ∀ j < 3, (false :: history j answers.flatten).IsChain (· ≠ ·)
  once : ∀ j < 3, ∀ answer ∈ answers, (history j answer).length ≤ 1
  down : ∀ j < 3, isDown j answers.flatten = (lastButtons frames.1).testBit j

theorem Reported.concat {frames' : List (UInt8 × UInt8 × UInt8) × List UInt8}
    {answers : List (List MouseEvent)} {answer : List MouseEvent} (h : Reported frames answers)
    (hanswer : ∀ j < 3, history j answer =
        report (lastButtons frames.1) (lastButtons frames'.1) j) :
    Reported frames' (answers ++ [answer]) := by
  have hflatten : ∀ j < 3, history j (answers ++ [answer]).flatten =
      history j answers.flatten ++ report (lastButtons frames.1) (lastButtons frames'.1) j := by
    intro j hj
    rw [flatten_concat, history_append, hanswer j hj]
  refine ⟨fun j hj => ?_, fun j hj => ?_, fun j hj => ?_⟩
  · rw [hflatten j hj]
    exact (chain_report (h.alternate j hj) (h.down j hj)).1
  · intro a ha
    rcases mem_append.mp ha with ha | ha
    · exact h.once j hj a ha
    · rw [mem_singleton.mp ha, hanswer j hj]
      exact length_report_le _ _ j
  · rw [isDown, hflatten j hj]
    exact (chain_report (h.alternate j hj) (h.down j hj)).2

theorem execute_parseInterruptData (calls : List ((Nat → UInt32) × UInt8)) :
    (execute parseInterruptData new calls).1.HasRead (frame (calls.map Prod.snd)) ∧
      Reported (frame (calls.map Prod.snd)) (execute parseInterruptData new calls).2 := by
  induction calls using reverseRecOn with
  | nil =>
    refine ⟨⟨zero_lt_succ 2, rfl, fun _ h => absurd h (Option.not_mem_none _), rfl⟩, ?_⟩
    constructor <;> simp [execute, history, isDown, lastButtons, frame]
  | append_singleton calls call ih =>
    obtain ⟨hread, hreported⟩ := ih
    obtain ⟨hread', _, hanswer⟩ := hread.parseInterruptData call
    rw [execute_concat, map_append, map_singleton, frame_concat]
    exact ⟨hread', hreported.concat hanswer⟩

/-- For every stream of bytes, clicks and releases of a button alternate and begin with
a click, no packet reports both, and the buttons that are down are those of the last
packet. A byte that completes no packet causes no event. -/
theorem events_follow_buttons (calls : List ((Nat → UInt32) × UInt8)) :
    (∀ j < 3, (false :: history j (execute parseInterruptData new calls).2.flatten).IsChain
      (· ≠ ·) ∧
      (∀ answer ∈ (execute parseInterruptData new calls).2, (history j answer).length ≤ 1) ∧
      isDown j (execute parseInterruptData new calls).2.flatten =
        (lastButtons (frame (calls.map Prod.snd)).1).testBit j) ∧
      ∀ time data, (frame (calls.map Prod.snd ++ [data])).1 = (frame (calls.map Prod.snd)).1 →
        ((execute parseInterruptData new calls).1.parseInterruptData (time, data)).2 = [] := by
  obtain ⟨hread, hreported⟩ := execute_parseInterruptData calls
  refine ⟨fun j hj => ⟨hreported.alternate j hj, hreported.once j hj, hreported.down j hj⟩,
    fun time data h => ?_⟩
  rw [frame_concat] at h
  exact (hread.parseInterruptData (time, data)).2.1 h

end Mouse

end HuyaOS.Device
