import HuyaOS.Util.Bitmap

/-!
`findAndSet` and `unset` of `AtomicBitmap`, called by several threads at once. A step is one
`lock bts` or `lock btr`, so the steps of different calls come in any order.
-/

namespace HuyaOS.AtomicBitmap

open Function List

/-- The blocks that the threads in `findAndSet` have got to, and those that were returned and not
given back yet. -/
structure State (T : Type) where
  bitmap : Bitmap
  i : T → Option Nat
  live : List Nat

inductive Action
  | findAndSet
  | bts
  | unset (k : Nat)

variable {T : Type} [DecidableEq T]

/-- The carry flag after `bts` is the old bit. Only blocks that are live are given back. -/
def step (s : State T) : T × Action → State T
  | (t, .findAndSet) => if s.i t = none then { s with i := update s.i t (some 0) } else s
  | (t, .bts) =>
      match s.i t with
      | none => s
      | some i =>
          if i < s.bitmap.blocks then
            if s.bitmap.isSet i then
              { s with bitmap := s.bitmap.set i, i := update s.i t (some (i + 1)) }
            else ⟨s.bitmap.set i, update s.i t none, i :: s.live⟩
          else { s with i := update s.i t none }
  | (_, .unset k) =>
      match s.live[k]? with
      | none => s
      | some block => { s with bitmap := s.bitmap.unset block, live := s.live.erase block }

/-- The set bits are those of the blocks that `b` has reserved and those of the live ones. -/
structure Owned (b : Bitmap) (s : State T) : Prop where
  nodup : s.live.Nodup
  bits : ∀ j, s.bitmap.isSet j = true ↔ b.isSet j = true ∨ j ∈ s.live
  fresh : ∀ j ∈ s.live, b.isSet j = false

theorem Owned.step {b : Bitmap} {s : State T} (h : Owned b s) (action : T × Action) :
    Owned b (step s action) := by
  fun_cases AtomicBitmap.step s action with
  | case1 | case2 | case3 | case6 | case7 => exact ⟨h.nodup, h.bits, h.fresh⟩
  | case4 t i _ hlt hset =>
    refine ⟨h.nodup, fun j => ?_, h.fresh⟩
    rw [Bitmap.isSet_set hlt, ← h.bits j, Bool.or_eq_true, decide_eq_true_iff, or_iff_left_iff_imp]
    rintro rfl
    exact hset
  | case5 t i _ hlt hclear =>
    obtain ⟨hreserved, hfree⟩ := not_or.mp (mt (h.bits i).mpr hclear)
    refine ⟨h.nodup.cons hfree, fun j => ?_,
      forall_mem_cons.mpr ⟨Bool.eq_false_iff.mpr hreserved, h.fresh⟩⟩
    rw [Bitmap.isSet_set hlt, Bool.or_eq_true, h.bits, decide_eq_true_iff, mem_cons, or_assoc,
      or_comm (b := j = i)]
  | case8 t k block hblock =>
    have hlive := mem_of_getElem? hblock
    refine ⟨h.nodup.erase block, fun j => ?_, fun j hj => h.fresh j (mem_of_mem_erase hj)⟩
    rw [Bitmap.isSet_unset, Bool.and_eq_true, h.bits, decide_eq_true_iff, h.nodup.mem_erase_iff]
    have := h.fresh block hlive
    grind

/-- However the steps of the threads are interleaved, no block is handed out while it is live, or if
it has been reserved, and no bit is lost. -/
theorem exclusive (b : Bitmap) (actions : List (T × Action)) :
    Owned b (actions.foldl step ⟨b, fun _ => none, []⟩) := by
  have hstart : Owned b ⟨b, fun _ : T => none, []⟩ := ⟨nodup_nil, by simp, by simp⟩
  generalize (⟨b, fun _ => none, []⟩ : State T) = s at hstart ⊢
  induction actions generalizing s with
  | nil => exact hstart
  | cons action actions ih => exact ih _ (hstart.step action)

end HuyaOS.AtomicBitmap
