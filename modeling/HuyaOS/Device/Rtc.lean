import Mathlib.Data.Nat.Bitwise
import HuyaOS.Util.RingBuffer

/-!
The real time clock: `Rtc::setHardwareDate` writes a date into the CMOS registers, an
update interrupt reads them, and `Rtc::parseInterruptData` makes a date of what it
has read. Status register B says whether the clock counts in BCD and whether it
counts to twelve hours.
-/

namespace HuyaOS.Device

@[ext]
structure Date where
  seconds : UInt8
  minutes : UInt8
  hours : UInt8
  dayOfMonth : UInt8
  month : UInt8
  year : UInt16
  deriving DecidableEq

namespace Date

def isLeapYear (year : Nat) : Bool := (year % 4 = 0 ∧ year % 100 ≠ 0) ∨ year % 400 = 0

def daysIn (year month : Nat) : Nat :=
  if month = 2 then if isLeapYear year then 29 else 28
  else if month = 4 ∨ month = 6 ∨ month = 9 ∨ month = 11 then 30
  else 31

/-- A date of the calendar in the years from 1900 to 9999. -/
structure IsValid (date : Date) : Prop where
  seconds : date.seconds.toNat < 60
  minutes : date.minutes.toNat < 60
  hours : date.hours.toNat < 24
  dayOfMonth : 1 ≤ date.dayOfMonth.toNat ∧
    date.dayOfMonth.toNat ≤ daysIn date.year.toNat date.month.toNat
  month : 1 ≤ date.month.toNat ∧ date.month.toNat ≤ 12
  year : 1900 ≤ date.year.toNat ∧ date.year.toNat ≤ 9999

theorem daysIn_le (year month : Nat) : daysIn year month ≤ 31 := by
  unfold daysIn
  split_ifs <;> decide

end Date

/-- The CMOS registers. -/
abbrev Registers := UInt8 → UInt8

namespace Cmos

def readRegister (registers : Registers) (regNumber : UInt8) : UInt8 :=
  registers (regNumber &&& 0x7F)

def writeRegister (registers : Registers) (regNumber value : UInt8) : Registers :=
  Function.update registers (regNumber &&& 0x7F) value

end Cmos

structure InterruptData where
  seconds : UInt8
  minutes : UInt8
  hours : UInt8
  dayOfMonth : UInt8
  month : UInt8
  year : UInt8
  century : UInt8
  deriving Inhabited

structure Rtc where
  currentDate : Date
  interruptDataBuffer : RingBuffer InterruptData
  useBcd : Bool
  useTwelveHours : Bool

namespace Rtc

variable {pending : List InterruptData}

def secondsRegister : UInt8 := 0x00
def minutesRegister : UInt8 := 0x02
def hoursRegister : UInt8 := 0x04
def dayOfMonthRegister : UInt8 := 0x07
def monthRegister : UInt8 := 0x08
def yearRegister : UInt8 := 0x09
def centuryRegister : UInt8 := 0x32
def statusRegisterB : UInt8 := 0x0B
def statusRegisterC : UInt8 := 0x0C

def currentCentury : UInt8 := 20

variable (registers : Registers)

def new : Except Cpu.Stop Rtc := do
  let interruptDataBuffer ← RingBuffer.new InterruptData 1024
  let statusB := Cmos.readRegister registers statusRegisterB
  return { currentDate := ⟨0, 0, 0, 0, 0, 0⟩, interruptDataBuffer,
           useBcd := statusB &&& 0x04 = 0, useTwelveHours := statusB &&& 0x02 = 0 }

def bcdToBinary (bcd : UInt8) : UInt8 := UInt8.ofNat ((bcd.toNat &&& 0x0F) + bcd.toNat / 16 * 10)

def binaryToBcd (binary : UInt8) : UInt8 :=
  UInt8.ofNat (binary.toNat % 10 + (binary.toNat / 10) <<< 4)

def readDate : InterruptData where
  seconds := Cmos.readRegister registers secondsRegister
  minutes := Cmos.readRegister registers minutesRegister
  hours := Cmos.readRegister registers hoursRegister
  dayOfMonth := Cmos.readRegister registers dayOfMonthRegister
  month := Cmos.readRegister registers monthRegister
  year := Cmos.readRegister registers yearRegister
  century := Cmos.readRegister registers centuryRegister

def trigger (rtc : Rtc) (registers : Registers) : Rtc :=
  if Cmos.readRegister registers statusRegisterC &&& 0x10 ≠ 0x10 then rtc
  else { rtc with interruptDataBuffer := rtc.interruptDataBuffer.push (readDate registers) }

def dateOf (useBcd useTwelveHours : Bool) (data : InterruptData) : Date :=
  let date : Date :=
    ⟨data.seconds, data.minutes, data.hours, data.dayOfMonth, data.month, data.year.toUInt16⟩
  let century := if data.century = 0 then currentCentury else data.century
  let (date, century) :=
    if useBcd then
      ({ seconds := bcdToBinary date.seconds
         minutes := bcdToBinary date.minutes
         hours := bcdToBinary date.hours ||| (date.hours &&& 0x80)
         dayOfMonth := bcdToBinary date.dayOfMonth
         month := bcdToBinary date.month
         year := (bcdToBinary date.year.toUInt8).toUInt16 }, bcdToBinary century)
    else (date, century)
  let date := { date with year := date.year + century.toUInt16 * 100 }
  if useTwelveHours ∧ date.hours &&& 0x80 ≠ 0 then
    { date with hours := ((date.hours &&& 0x7F) + 12) % 24 } else date

def parseInterruptData (rtc : Rtc) : Rtc :=
  let (data, interruptDataBuffer) := rtc.interruptDataBuffer.pop
  { rtc with currentDate := dateOf rtc.useBcd rtc.useTwelveHours data, interruptDataBuffer }

def encode (useBcd useTwelveHours : Bool) (date : Date) : InterruptData :=
  let (century, outDate) :=
    if date.year < 100 then (currentCentury, date)
    else ((date.year / 100).toUInt8, { date with year := date.year % 100 })
  let outDate := if useTwelveHours then { outDate with hours := outDate.hours % 12 } else outDate
  let (century, outDate) :=
    if useBcd then
      (binaryToBcd century,
        { seconds := binaryToBcd outDate.seconds
          minutes := binaryToBcd outDate.minutes
          hours := binaryToBcd outDate.hours
          dayOfMonth := binaryToBcd outDate.dayOfMonth
          month := binaryToBcd outDate.month
          year := (binaryToBcd outDate.year.toUInt8).toUInt16 })
    else (century, outDate)
  ⟨outDate.seconds, outDate.minutes, outDate.hours, outDate.dayOfMonth, outDate.month,
    outDate.year.toUInt8, century⟩

def writeDate (data : InterruptData) : Registers :=
  let registers := Cmos.writeRegister registers secondsRegister data.seconds
  let registers := Cmos.writeRegister registers minutesRegister data.minutes
  let registers := Cmos.writeRegister registers hoursRegister data.hours
  let registers := Cmos.writeRegister registers dayOfMonthRegister data.dayOfMonth
  let registers := Cmos.writeRegister registers monthRegister data.month
  let registers := Cmos.writeRegister registers yearRegister data.year
  Cmos.writeRegister registers centuryRegister data.century

/-- The registers after `setHardwareDate`, which waits until no update is going on. -/
def setHardwareDate (rtc : Rtc) (registers : Registers) (date : Date) : Registers :=
  writeDate registers (encode rtc.useBcd rtc.useTwelveHours date)

variable {x : UInt8} {data : InterruptData} {date : Date}

theorem toNat_binaryToBcd (h : x.toNat < 100) :
    (binaryToBcd x).toNat = x.toNat % 10 + x.toNat / 10 * 16 := by
  rw [binaryToBcd, UInt8.toNat_ofNat']
  omega

theorem bcdToBinary_binaryToBcd (h : x.toNat < 100) : bcdToBinary (binaryToBcd x) = x := by
  apply UInt8.toNat_inj.mp
  rw [bcdToBinary, UInt8.toNat_ofNat', toNat_binaryToBcd h, Nat.and_two_pow_sub_one_eq_mod _ 4]
  omega

theorem and_afternoon (h : x.toNat < 128) : x &&& 0x80 = 0 := by
  apply UInt8.toNat_inj.mp
  change x.toNat &&& 2 ^ 7 = 0
  rw [Nat.and_two_pow, Nat.testBit_lt_two_pow h]
  rfl

theorem binaryToBcd_ne_zero (h : x.toNat < 100) (hx : x ≠ 0) : binaryToBcd x ≠ 0 := by
  intro hzero
  have hbcd := toNat_binaryToBcd h
  rw [hzero] at hbcd
  have hne : x.toNat ≠ 0 := fun h => hx (UInt8.toNat_inj.mp h)
  have hzero' : (0 : UInt8).toNat = 0 := rfl
  omega

theorem year_split {year : UInt16} (h : year.toNat ≤ 9999) :
    (year % 100).toUInt8.toNat = year.toNat % 100 ∧ (year / 100).toUInt8.toNat = year.toNat / 100 ∧
      (year % 100).toUInt8.toUInt16 + (year / 100).toUInt8.toUInt16 * 100 = year := by
  have hmod : (year % 100).toUInt8.toNat = year.toNat % 100 := by
    change year.toNat % 100 % 256 = _
    omega
  have hdiv : (year / 100).toUInt8.toNat = year.toNat / 100 := by
    change year.toNat / 100 % 256 = _
    omega
  refine ⟨hmod, hdiv, UInt16.toNat_inj.mp ?_⟩
  rw [UInt16.toNat_add, UInt16.toNat_mul, UInt8.toNat_toUInt16, UInt8.toNat_toUInt16, hmod, hdiv]
  change (year.toNat % 100 + year.toNat / 100 * 100 % 65536) % 65536 = _
  omega

theorem readDate_writeDate (data : InterruptData) : readDate (writeDate registers data) = data :=
  rfl

/-- The numbers that the registers hold, of two decimal digits each. -/
structure TwoDigits (data : InterruptData) : Prop where
  seconds : data.seconds.toNat < 100
  minutes : data.minutes.toNat < 100
  hours : data.hours.toNat < 24
  dayOfMonth : data.dayOfMonth.toNat < 100
  month : data.month.toNat < 100
  year : data.year.toNat < 100
  century : data.century.toNat < 100
  century_ne : data.century ≠ 0

def toBcd (data : InterruptData) : InterruptData where
  seconds := binaryToBcd data.seconds
  minutes := binaryToBcd data.minutes
  hours := binaryToBcd data.hours
  dayOfMonth := binaryToBcd data.dayOfMonth
  month := binaryToBcd data.month
  year := binaryToBcd data.year
  century := binaryToBcd data.century

/-- What is written for a date, in binary. -/
def numbers (useTwelveHours : Bool) (date : Date) : InterruptData where
  seconds := date.seconds
  minutes := date.minutes
  hours := if useTwelveHours then date.hours % 12 else date.hours
  dayOfMonth := date.dayOfMonth
  month := date.month
  year := (date.year % 100).toUInt8
  century := (date.year / 100).toUInt8

theorem encode_eq (h : 100 ≤ date.year.toNat) (useBcd useTwelveHours : Bool) :
    encode useBcd useTwelveHours date =
      if useBcd then toBcd (numbers useTwelveHours date) else numbers useTwelveHours date := by
  have hnot : ¬date.year < 100 := by
    exact not_lt.mpr h
  cases useBcd <;> cases useTwelveHours <;> simp [encode, hnot, toBcd, numbers]

theorem twoDigits_numbers (h : date.IsValid) (useTwelveHours : Bool) :
    TwoDigits (numbers useTwelveHours date) := by
  obtain ⟨hyear, hcentury, -⟩ := year_split h.year.2
  have hlast := h.year.2
  constructor
  · exact h.seconds.trans (by decide)
  · exact h.minutes.trans (by decide)
  · change (if useTwelveHours then date.hours % 12 else date.hours).toNat < 24
    split_ifs
    · exact (UInt8.toNat_mod date.hours 12).trans_lt ((Nat.mod_le _ _).trans_lt h.hours)
    · exact h.hours
  · exact (h.dayOfMonth.2.trans (Date.daysIn_le _ _)).trans_lt (by decide)
  · exact h.month.2.trans_lt (by decide)
  · exact hyear.trans_lt (Nat.mod_lt _ (by decide))
  · exact hcentury.trans_lt (by omega)
  · intro hzero
    have hfirst := h.year.1
    have hcentury' : 0 = date.year.toNat / 100 := (congrArg UInt8.toNat hzero).symm.trans hcentury
    omega

theorem dateOf_binary (h : TwoDigits data) (useTwelveHours : Bool) :
    dateOf false useTwelveHours data = ⟨data.seconds, data.minutes, data.hours,
      data.dayOfMonth, data.month, data.year.toUInt16 + data.century.toUInt16 * 100⟩ := by
  have hbit : data.hours &&& 0x80 = 0 := and_afternoon (h.hours.trans (by decide))
  simp [dateOf, h.century_ne, hbit]

theorem dateOf_toBcd (h : TwoDigits data) (useTwelveHours : Bool) :
    dateOf true useTwelveHours (toBcd data) = dateOf false useTwelveHours data := by
  have hhours := h.hours.trans (by decide : 24 < 100)
  have hbit : binaryToBcd data.hours &&& 0x80 = 0 := by
    apply and_afternoon
    have := h.hours
    rw [toNat_binaryToBcd hhours]
    omega
  have hcentury := binaryToBcd_ne_zero h.century h.century_ne
  simp only [dateOf, toBcd, if_true, Bool.false_eq_true, if_false, UInt8.toUInt8_toUInt16, hcentury,
    h.century_ne,
    bcdToBinary_binaryToBcd h.seconds, bcdToBinary_binaryToBcd h.minutes,
      bcdToBinary_binaryToBcd hhours,
    bcdToBinary_binaryToBcd h.dayOfMonth, bcdToBinary_binaryToBcd h.month,
      bcdToBinary_binaryToBcd h.year,
    bcdToBinary_binaryToBcd h.century, hbit, UInt8.or_zero]

theorem dateOf_encode (h : date.IsValid) (useBcd useTwelveHours : Bool) :
    dateOf useBcd useTwelveHours (encode useBcd useTwelveHours date) =
      { date with hours := if useTwelveHours then date.hours % 12 else date.hours } := by
  have hdigits := twoDigits_numbers h useTwelveHours
  have hbinary : dateOf false useTwelveHours (numbers useTwelveHours date) =
      { date with hours := if useTwelveHours then date.hours % 12 else date.hours } := by
    rw [dateOf_binary hdigits]
    exact congrArg (Date.mk _ _ _ _ _) (year_split h.year.2).2.2
  rw [encode_eq (le_trans (by decide) h.year.1)]
  cases useBcd with
  | false => exact hbinary
  | true => exact (dateOf_toBcd hdigits useTwelveHours).trans hbinary

theorem iterate_parseInterruptData (rtc : Rtc)
    (h : rtc.interruptDataBuffer.Holds (pending ++ [data])) :
    (parseInterruptData^[pending.length + 1] rtc).currentDate =
      dateOf rtc.useBcd rtc.useTwelveHours data := by
  induction pending generalizing rtc with
  | nil =>
    obtain ⟨hdata, -⟩ := h.pop
    exact congrArg (dateOf rtc.useBcd rtc.useTwelveHours) hdata
  | cons first pending ih =>
    exact ih rtc.parseInterruptData h.pop.2

/-- A date that is set is the date that the next update interrupt finds, whatever other
interrupts wait, exactly if no hour of the afternoon is written in twelve hours. -/
theorem currentDate_setHardwareDate (rtc : Rtc) (registers : Registers) {date : Date}
    (hvalid : date.IsValid) (hpending : rtc.interruptDataBuffer.Holds pending)
    (hroom : pending.length < rtc.interruptDataBuffer.capacity)
    (hupdate : Cmos.readRegister registers statusRegisterC &&& 0x10 = 0x10) :
    (parseInterruptData^[pending.length + 1]
      (rtc.trigger (rtc.setHardwareDate registers date))).currentDate = date ↔
      (rtc.useTwelveHours = true → date.hours.toNat < 12) := by
  have hstatus : Cmos.readRegister (rtc.setHardwareDate registers date) statusRegisterC &&& 0x10 =
      0x10 := hupdate
  have hpushed :=
    hpending.push (hpending.size_eq.trans_lt hroom) (readDate (rtc.setHardwareDate registers date))
  rw [trigger, if_neg (not_not.mpr hstatus), iterate_parseInterruptData _ hpushed, setHardwareDate,
    readDate_writeDate, dateOf_encode hvalid, Date.ext_iff]
  simp only [true_and, and_true]
  cases rtc.useTwelveHours with
  | false => simp
  | true =>
    rw [if_pos rfl, ← UInt8.toNat_inj, forall_prop_of_true rfl]
    change date.hours.toNat % 12 = date.hours.toNat ↔ _
    omega

/-- A clock without interrupts that wait. -/
def idle (useBcd useTwelveHours : Bool) : Rtc where
  currentDate := ⟨0, 0, 0, 0, 0, 0⟩
  interruptDataBuffer := ⟨fun _ => default, 1024, 0, 0, 0, by decide, by decide⟩
  useBcd := useBcd
  useTwelveHours := useTwelveHours

def updated : Registers := fun regNumber => if regNumber = statusRegisterC then 0x10 else 0

def newYearsEve : Date := ⟨59, 59, 23, 31, 12, 1999⟩

theorem isValid_newYearsEve : newYearsEve.IsValid := by constructor <;> decide

theorem currentDate_setHardwareDate_newYearsEve :
    newYearsEve.IsValid ∧
      ((idle true false).trigger ((idle true false).setHardwareDate updated newYearsEve)
      |>.parseInterruptData).currentDate = newYearsEve := by
  have hholds : (idle true false).interruptDataBuffer.Holds [] := by
    refine ⟨by decide, rfl, by decide, rfl, ?_⟩
    exact fun i hi => absurd hi (Nat.not_lt_zero i)
  refine ⟨isValid_newYearsEve, ?_⟩
  exact (currentDate_setHardwareDate (idle true false) updated isValid_newYearsEve hholds
    (by decide) rfl).mpr
    fun h => absurd h Bool.false_ne_true

/-- The registers of a clock that counts in BCD and to twelve hours. Eleven at night
comes back as eleven in the morning. -/
theorem afternoon_lost : Rtc.new updated = .ok (idle true true) ∧ newYearsEve.IsValid ∧
    ((idle true true).trigger ((idle true true).setHardwareDate updated newYearsEve)
      |>.parseInterruptData).currentDate = { newYearsEve with hours := 11 } :=
  ⟨rfl, isValid_newYearsEve, by decide⟩

end Rtc

end HuyaOS.Device
