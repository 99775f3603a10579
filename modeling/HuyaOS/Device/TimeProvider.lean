import HuyaOS.Lib.Transition

/-!
Time: the clock of seconds and nanoseconds that the timer advances with every
interrupt.
-/

namespace HuyaOS.Device

open Lib List

structure Time where
  seconds : UInt32
  fraction : UInt32
  deriving DecidableEq

namespace Time

def addNanos (time : Time) (value : UInt32) : Time :=
  let fraction := time.fraction + value
  if fraction ≥ 1000000000 then ⟨time.seconds + 1, fraction - 1000000000⟩
    else ⟨time.seconds, fraction⟩

/-- The seconds are added to themselves, whatever the argument. -/
def addSeconds (time : Time) (_value : UInt32) : Time :=
  { time with seconds := time.seconds + time.seconds }

inductive Call where
  | addNanos (value : UInt32)
  | addSeconds (value : UInt32)

def step (time : Time) : Call → Time × Unit
  | .addNanos value => (time.addNanos value, ())
  | .addSeconds value => (time.addSeconds value, ())

def total (time : Time) : Nat := time.seconds.toNat * 1000000000 + time.fraction.toNat

def Call.nanos : Call → Nat
  | .addNanos value => value.toNat
  | .addSeconds value => value.toNat * 1000000000

/-- Less than two seconds come together in the fraction, and a number of seconds is
added to itself. -/
def Advances (time : Time) : Call → Prop
  | .addNanos value => time.fraction.toNat + value.toNat < 2000000000
  | .addSeconds value => value = time.seconds

def Shows (time : Time) (nanos : Nat) : Prop :=
  time.total = nanos ∧ time.fraction.toNat < 1000000000

section

variable {time : Time} (h : time.fraction.toNat < 1000000000) {value : UInt32}

include h

theorem addNanos_shows_iff (hbound : time.total + value.toNat < 2 ^ 32 * 1000000000) :
    (time.addNanos value).Shows (time.total + value.toNat) ↔
      time.fraction.toNat + value.toNat < 2000000000 := by
  have hsum := UInt32.toNat_add time.fraction value
  unfold total at hbound
  unfold Shows total addNanos
  by_cases hcarry : time.fraction + value ≥ 1000000000
  · have hle := UInt32.le_iff_toNat_le.mp hcarry
    have hsub := UInt32.toNat_sub_of_le _ _ hcarry
    have hsucc := UInt32.toNat_add time.seconds 1
    simp only [UInt32.reduceToNat] at hle hsub hsucc
    simp only [hcarry, if_true]
    omega
  · have hlt := UInt32.lt_iff_toNat_lt.mp (UInt32.not_le.mp hcarry)
    simp only [UInt32.reduceToNat] at hlt
    simp only [hcarry, if_false]
    omega

theorem addSeconds_shows_iff
    (hbound : time.total + value.toNat * 1000000000 < 2 ^ 32 * 1000000000) :
    (time.addSeconds value).Shows (time.total + value.toNat * 1000000000) ↔
      value = time.seconds := by
  unfold total at hbound
  simp only [Shows, total, addSeconds, UInt32.toNat_add, ← UInt32.toNat_inj]
  omega

theorem step_shows_iff {call : Call} (hbound : time.total + call.nanos < 2 ^ 32 * 1000000000) :
    (time.step call).1.Shows (time.total + call.nanos) ↔ time.Advances call := by
  cases call with
  | addNanos value => exact addNanos_shows_iff h hbound
  | addSeconds value => exact addSeconds_shows_iff h hbound

end

/-- The clock is exact after each call of a run if and only if every call finds a time
that it advances. -/
theorem run_shows_iff {time : Time} {calls : List Call} (h : time.fraction.toNat < 1000000000)
    (hbound : time.total + (calls.map Call.nanos).sum < 2 ^ 32 * 1000000000) :
    (∀ past, past <+: calls →
      (execute step time past).1.Shows (time.total + (past.map Call.nanos).sum)) ↔
      AllMet step Advances time calls := by
  induction calls generalizing time with
  | nil =>
    refine iff_of_true ?_ trivial
    intro past hpast
    rw [prefix_nil.mp hpast]
    exact ⟨by simp [execute], h⟩
  | cons call calls ih =>
    rw [map_cons, sum_cons, ← Nat.add_assoc] at hbound
    have hone := @step_shows_iff time h call (by omega)
    constructor
    · intro hall
      have hfirst : (time.step call).1.Shows (time.total + call.nanos) := hall [call] ⟨calls, rfl⟩
      refine ⟨hone.mp hfirst, (ih hfirst.2 (by rw [hfirst.1]; exact hbound)).mp ?_⟩
      intro past hpast
      rw [hfirst.1, Nat.add_assoc]
      exact hall (call :: past) (cons_prefix_cons.mpr ⟨rfl, hpast⟩)
    · rintro ⟨hcall, hcalls⟩ past hpast
      have hfirst := hone.mpr hcall
      cases past with
      | nil => exact ⟨by simp [execute], h⟩
      | cons first past =>
        obtain ⟨rfl, hrest⟩ := cons_prefix_cons.mp hpast
        rw [map_cons, sum_cons, ← Nat.add_assoc, ← hfirst.1]
        exact (ih hfirst.2 (by rw [hfirst.1]; exact hbound)).mpr hcalls past hrest

end Time

/-- Five nanoseconds, and the seconds of a clock that stands at seven. -/
theorem run_shows_iff_five :
    (execute Time.step ⟨7, 0⟩ [.addNanos 5, .addSeconds 7]).1.Shows 14000000005 :=
  (@Time.run_shows_iff ⟨7, 0⟩ [.addNanos 5, .addSeconds 7] (by decide) (by decide)).mpr
    ⟨show 0 + 5 < 2000000000 by decide, rfl, trivial⟩ _ (prefix_refl _)

/-- Two seconds of nanoseconds leave a whole second in the fraction. Five seconds are not added. -/
theorem run_not_shows : ¬(execute Time.step ⟨0, 0⟩ [.addNanos 2000000000]).1.Shows 2000000000 ∧
    ¬(execute Time.step ⟨0, 0⟩ [.addSeconds 5]).1.Shows 5000000000 :=
  ⟨fun h => absurd h.2 (by decide), fun h => absurd h.1 (by decide)⟩

end HuyaOS.Device
