import Mathlib.Data.List.Range
import Mathlib.Tactic

/-!
The buffer that a text is written into, with the index `n` at which the writer is. Every index
that is written to is recorded.
-/

namespace HuyaOS.Libc

open List

structure Out where
  strout : Int → UInt8
  n : Int
  touched : List Int

namespace Out

def start (before : Int → UInt8) : Out := ⟨before, 0, []⟩

def store (out : Out) (c : UInt8) : Out :=
  { out with strout := Function.update out.strout out.n c, touched := out.n :: out.touched }

def push (out : Out) (c : UInt8) : Out := { out.store c with n := out.n + 1 }

def chars (out : Out) (k : Nat) : List UInt8 := (List.range k).map fun i : Nat => out.strout i

variable {out out' : Out}

theorem strout_store_self (out : Out) (c : UInt8) : (out.store c).strout out.n = c :=
  Function.update_self ..

theorem strout_store_of_ne {i : Int} (h : i ≠ out.n) (c : UInt8) :
    (out.store c).strout i = out.strout i :=
  Function.update_of_ne h ..

theorem chars_succ (out : Out) (k : Nat) : out.chars (k + 1) = out.chars k ++ [out.strout k] := by
  rw [chars, range_succ, map_append]
  rfl

theorem chars_congr {k : Nat} (h : ∀ i : Nat, i < k → out'.strout i = out.strout i) :
    out'.chars k = out.chars k :=
  map_congr_left fun i hi => h i (mem_range.mp hi)

/-- The text has been written, with a zero behind it if it is closed, and nothing else. -/
structure Holds (before : Int → UInt8) (out : Out) (text : List UInt8) (closed : Bool) : Prop where
  n_eq : out.n = text.length
  chars_eq : out.chars text.length = text
  terminated : closed = true → out.strout text.length = 0
  beyond : ∀ j : Nat, text.length + closed.toNat ≤ j → out.strout j = before j
  touched : ∀ i ∈ out.touched, 0 ≤ i ∧ i < text.length + closed.toNat

namespace Holds

variable {before : Int → UInt8} {text : List UInt8} {closed : Bool}

theorem start (before : Int → UInt8) : Holds before (start before) [] false where
  n_eq := rfl
  chars_eq := rfl
  terminated := fun h => absurd h Bool.false_ne_true
  beyond := fun _ _ => rfl
  touched := fun _ h => absurd h not_mem_nil

section

variable (h : Holds before out text closed)

include h

theorem chars_store (c : UInt8) : (out.store c).chars text.length = text := by
  refine (chars_congr fun i hi => strout_store_of_ne ?_ c).trans h.chars_eq
  rw [h.n_eq]
  omega

theorem store_beyond (c : UInt8) {j : Nat} (hj : text.length + 1 ≤ j) :
    (out.store c).strout j = before j := by
  have hne : j ≠ out.n := by rw [h.n_eq]; omega
  have hle := Bool.toNat_le closed
  rw [strout_store_of_ne hne, h.beyond j (by omega)]

theorem store_touched (c : UInt8) : ∀ i ∈ (out.store c).touched, 0 ≤ i ∧ i < text.length + 1 := by
  intro i hi
  have hle := Bool.toNat_le closed
  rcases mem_cons.mp hi with rfl | hi
  · rw [h.n_eq]
    omega
  · have := h.touched i hi
    omega

theorem store_zero : Holds before (out.store 0) text true where
  n_eq := h.n_eq
  chars_eq := h.chars_store 0
  terminated := fun _ => by rw [← h.n_eq]; exact strout_store_self out 0
  beyond := fun _ hj => h.store_beyond 0 hj
  touched := h.store_touched 0

theorem push (c : UInt8) : Holds before (out.push c) (text ++ [c]) false := by
  have hlength : (text ++ [c]).length = text.length + 1 := length_append
  constructor
  · rw [hlength, Nat.cast_add, ← h.n_eq]
    rfl
  · have hlast : (out.store c).strout text.length = c := by
      rw [← h.n_eq]
      exact strout_store_self out c
    rw [hlength]
    exact (chars_succ (out.store c) text.length).trans (by rw [h.chars_store, hlast])
  · exact fun hclosed => absurd hclosed Bool.false_ne_true
  · intro j hj
    rw [hlength] at hj
    exact h.store_beyond c hj
  · rw [hlength]
    exact h.store_touched c

theorem pushAll {s : List UInt8} (hs : s ≠ []) :
    Holds before (s.foldl Out.push out) (text ++ s) false := by
  induction s generalizing out text closed with
  | nil => exact absurd rfl hs
  | cons c s ih =>
    rw [append_cons]
    cases s with
    | nil =>
      rw [append_nil]
      exact h.push c
    | cons d s => exact ih (h.push c) (cons_ne_nil d s)

end

end Holds

end Out

end HuyaOS.Libc
