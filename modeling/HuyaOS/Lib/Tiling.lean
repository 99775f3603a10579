import Mathlib.Tactic

/-!
Tilings of an address range. `Tiles lo hi a bs e` says that the segments `bs`
follow one another without gap or overlap from `a` to `e`; the segment type is
arbitrary and only has to know its two ends.
-/

namespace HuyaOS.Lib

open List

variable {β : Type*} {lo hi : β → Nat} {a e : Nat}

/-- The segments `bs` cover the range from `a` to `e` exactly, in order. -/
def Tiles (lo hi : β → Nat) : Nat → List β → Nat → Prop
  | a, [], e => a = e
  | a, b :: bs, e => lo b = a ∧ lo b < hi b ∧ Tiles lo hi (hi b) bs e

@[simp] theorem tiles_nil : Tiles lo hi a [] e ↔ a = e := Iff.rfl

@[simp] theorem tiles_cons {b : β} {bs : List β} :
    Tiles lo hi a (b :: bs) e ↔ lo b = a ∧ lo b < hi b ∧ Tiles lo hi (hi b) bs e :=
  Iff.rfl

theorem tiles_append {xs ys : List β} :
    Tiles lo hi a (xs ++ ys) e ↔ ∃ c, Tiles lo hi a xs c ∧ Tiles lo hi c ys e := by
  induction xs generalizing a with
  | nil => simp
  | cons x xs ih =>
    simp only [cons_append, tiles_cons, ih]
    constructor
    · rintro ⟨hlo, hlt, c, hxs, hys⟩
      exact ⟨c, ⟨hlo, hlt, hxs⟩, hys⟩
    · rintro ⟨c, ⟨hlo, hlt, hxs⟩, hys⟩
      exact ⟨hlo, hlt, c, hxs, hys⟩

namespace Tiles

variable {a e : Nat} {bs : List β}

section

variable (h : Tiles lo hi a bs e)

include h

theorem le : a ≤ e := by
  induction bs generalizing a with
  | nil => exact Nat.le_of_eq h
  | cons b bs ih =>
    obtain ⟨hlo, hlt, hrest⟩ := h
    have := ih hrest
    omega

theorem bounds {b : β} (hb : b ∈ bs) : a ≤ lo b ∧ lo b < hi b ∧ hi b ≤ e := by
  induction bs generalizing a with
  | nil => cases hb
  | cons c cs ih =>
    obtain ⟨hlo, hlt, hrest⟩ := h
    have hle := hrest.le
    rcases mem_cons.mp hb with rfl | hmem
    · omega
    · have := ih hrest hmem
      omega

theorem pairwise : bs.Pairwise (fun x y => hi x ≤ lo y) := by
  induction bs generalizing a with
  | nil => exact Pairwise.nil
  | cons b bs ih =>
    obtain ⟨_, _, hrest⟩ := h
    exact pairwise_cons.mpr ⟨fun c hc => (hrest.bounds hc).1, ih hrest⟩

theorem separated {x y : β} (hx : x ∈ bs) (hy : y ∈ bs) (hne : x ≠ y) :
    hi x ≤ lo y ∨ hi y ≤ lo x := by
  induction bs generalizing a with
  | nil => cases hx
  | cons b bs ih =>
    obtain ⟨_, _, hrest⟩ := h
    rcases mem_cons.mp hx with rfl | hx'
    · rcases mem_cons.mp hy with rfl | hy'
      · exact absurd rfl hne
      · exact .inl (hrest.bounds hy').1
    · rcases mem_cons.mp hy with rfl | hy'
      · exact .inr (hrest.bounds hx').1
      · exact ih hrest hx' hy'

theorem eq_of_lo_eq {x y : β} (hx : x ∈ bs) (hy : y ∈ bs) (heq : lo x = lo y) : x = y := by
  by_contra hne
  have hsep := h.separated hx hy hne
  have hbx := h.bounds hx
  have hby := h.bounds hy
  omega

theorem length_mul_le {k : Nat} (hk : ∀ b ∈ bs, lo b + k ≤ hi b) : bs.length * k ≤ e - a := by
  induction bs generalizing a with
  | nil => simp
  | cons b bs ih =>
    obtain ⟨hlo, _, hrest⟩ := h
    have hb := hk b (by simp)
    have hrec := ih hrest (fun c hc => hk c (by simp [hc]))
    have hle := hrest.le
    rw [length_cons, Nat.succ_mul]
    omega

end

end Tiles

end HuyaOS.Lib
