import Mathlib.Tactic

/-!
Doubly linked sequences. `Links next prev before xs after` says that the nodes
`xs` are chained in this order, that the first one points back to `before` and
that the last one points on to `after`. A list of a program is the case where
both ends are the null value; keeping the ends as parameters makes an edit in
the middle a local statement about its two neighbours.
-/

namespace HuyaOS.Lib

open List

variable {α : Type*}

/-- The nodes `xs` are doubly linked between `before` and `after`. -/
def Links (next prev : α → α) : α → List α → α → Prop
  | _, [], _ => True
  | before, x :: xs, after =>
      prev x = before ∧ next x = xs.headD after ∧ Links next prev x xs after

section Append

variable {next prev : α → α} {before after : α} {xs : List α}

@[simp] theorem links_nil : Links next prev before [] after := trivial

@[simp] theorem links_cons {x : α} :
    Links next prev before (x :: xs) after ↔
      prev x = before ∧ next x = xs.headD after ∧ Links next prev x xs after :=
  Iff.rfl

theorem headD_append (xs ys : List α) : (xs ++ ys).headD after = xs.headD (ys.headD after) := by
  cases xs <;> simp

theorem getLastD_append (xs ys : List α) :
    (xs ++ ys).getLastD before = ys.getLastD (xs.getLastD before) := by
  induction xs generalizing before with
  | nil => simp
  | cons x xs ih => simp only [cons_append, getLastD_cons, ih]

theorem links_append {ys : List α} :
    Links next prev before (xs ++ ys) after ↔
      Links next prev before xs (ys.headD after) ∧
        Links next prev (xs.getLastD before) ys after := by
  induction xs generalizing before with
  | nil => simp
  | cons x xs ih =>
    simp only [cons_append, links_cons, headD_append, ih, getLastD_cons]
    tauto

theorem headD_mem_or_eq (after : α) (xs : List α) : xs.headD after ∈ xs ∨ xs = [] := by
  cases xs <;> simp

theorem getLastD_mem_or_eq (before : α) (xs : List α) : xs.getLastD before ∈ xs ∨ xs = [] := by
  induction xs generalizing before with
  | nil => simp
  | cons x xs ih =>
    left
    rw [getLastD_cons]
    rcases ih x with hmem | rfl
    · exact mem_cons_of_mem _ hmem
    · simp

theorem Links.next_getLastD (h : Links next prev before xs after) (hne : xs ≠ [])
    (d : α) : next (xs.getLastD d) = after := by
  induction xs generalizing before d with
  | nil => exact absurd rfl hne
  | cons x xs ih =>
    obtain ⟨_, hnext, hrest⟩ := h
    cases xs with
    | nil => exact hnext
    | cons y ys => exact ih hrest (by simp) x

/-- A node that a walk along the links reaches is on every list with the same
start, as long as the links up to the node agree. -/
theorem Links.mem_of_reached {next' prev' : α → α} {before' null : α} {zs ws : List α} {y : α}
    (h : Links next prev before (xs ++ y :: zs) null) (h' : Links next' prev' before' ws null)
    (hhead : ws.headD null = (xs ++ y :: zs).headD null)
    (hnext : ∀ x ∈ xs, next' x = next x) (hxs : ∀ x ∈ xs, x ≠ null) (hy : y ≠ null) :
    y ∈ ws := by
  induction xs generalizing before before' ws with
  | nil =>
    cases ws with
    | nil => exact absurd hhead.symm hy
    | cons w ws => exact mem_cons.mpr (Or.inl hhead.symm)
  | cons x xs ih =>
    cases ws with
    | nil => exact absurd hhead.symm (hxs x (by simp))
    | cons w ws =>
      obtain rfl : w = x := hhead
      obtain ⟨_, hn, hrest⟩ := h
      obtain ⟨_, hn', hrest'⟩ := h'
      refine mem_cons_of_mem _ (ih hrest hrest' ?_ (fun z hz => hnext z (by simp [hz]))
        (fun z hz => hxs z (by simp [hz])))
      exact hn'.symm.trans ((hnext w (by simp)).trans hn)

end Append

section Edit

variable {next prev next' prev' : α → α} {before after before' after' : α} {xs : List α}

theorem Links.congr (h : Links next prev before xs after)
    (hnext : ∀ x ∈ xs, next' x = next x) (hprev : ∀ x ∈ xs, prev' x = prev x) :
    Links next' prev' before xs after := by
  induction xs generalizing before with
  | nil => trivial
  | cons x xs ih =>
    obtain ⟨hp, hn, hrest⟩ := h
    refine ⟨(hprev x (by simp)).trans hp, (hnext x (by simp)).trans hn, ?_⟩
    exact ih hrest (fun y hy => hnext y (by simp [hy])) (fun y hy => hprev y (by simp [hy]))

theorem Links.retarget_after (h : Links next prev before xs after)
    (hnodup : xs.Nodup) (hprev : ∀ x ∈ xs, prev' x = prev x)
    (hnext : ∀ x ∈ xs, x ≠ xs.getLastD before → next' x = next x)
    (hlast : xs ≠ [] → next' (xs.getLastD before) = after') :
    Links next' prev' before xs after' := by
  induction xs generalizing before with
  | nil => trivial
  | cons x xs ih =>
    obtain ⟨hp, hn, hrest⟩ := h
    obtain ⟨hx, hnodup⟩ := nodup_cons.mp hnodup
    simp only [getLastD_cons] at hnext hlast
    refine ⟨(hprev x (by simp)).trans hp, ?_, ?_⟩
    · cases xs with
      | nil => exact hlast (by simp)
      | cons y ys =>
        have hne : x ≠ (y :: ys).getLastD x := by
          intro heq
          rcases getLastD_mem_or_eq x (y :: ys) with hmem | hnil
          · exact hx (heq ▸ hmem)
          · cases hnil
        exact (hnext x (by simp) hne).trans hn
    · refine ih hrest hnodup (fun y hy => hprev y (by simp [hy])) ?_ ?_
      · intro y hy hne
        exact hnext y (by simp [hy]) hne
      · intro _
        exact hlast (by simp)

theorem Links.retarget_before (h : Links next prev before xs after) (hnodup : xs.Nodup)
    (hnext : ∀ x ∈ xs, next' x = next x) (hprev : ∀ x ∈ xs, x ≠ xs.headD after → prev' x = prev x)
    (hhead : xs ≠ [] → prev' (xs.headD after) = before') :
    Links next' prev' before' xs after := by
  cases xs with
  | nil => trivial
  | cons x xs =>
    obtain ⟨_, hn, hrest⟩ := h
    obtain ⟨hx, _⟩ := nodup_cons.mp hnodup
    refine ⟨hhead (by simp), (hnext x (by simp)).trans hn, ?_⟩
    refine hrest.congr (fun y hy => hnext y (by simp [hy])) ?_
    intro y hy
    refine hprev y (by simp [hy]) ?_
    rintro rfl
    exact hx hy

/-- Replacing the middle of a linked sequence: the surroundings keep their
links except for the two nodes next to the edit. -/
theorem Links.splice {pre mid mid' post : List α}
    (h : Links next prev before (pre ++ mid ++ post) after) (hnodup : (pre ++ post).Nodup)
    (hmid : Links next' prev' (pre.getLastD before) mid' (post.headD after))
    (hpre_prev : ∀ x ∈ pre, prev' x = prev x)
    (hpre_next : ∀ x ∈ pre, x ≠ pre.getLastD before → next' x = next x)
    (hpre_last : pre ≠ [] → next' (pre.getLastD before) = mid'.headD (post.headD after))
    (hpost_next : ∀ x ∈ post, next' x = next x)
    (hpost_prev : ∀ x ∈ post, x ≠ post.headD after → prev' x = prev x)
    (hpost_head : post ≠ [] → prev' (post.headD after) = mid'.getLastD (pre.getLastD before)) :
    Links next' prev' before (pre ++ mid' ++ post) after := by
  obtain ⟨hleft, hpost⟩ := links_append.mp h
  obtain ⟨hpre, _⟩ := links_append.mp hleft
  have hnodup_pre : pre.Nodup := hnodup.of_append_left
  have hnodup_post : post.Nodup := hnodup.of_append_right
  refine links_append.mpr ⟨links_append.mpr ⟨?_, hmid⟩, ?_⟩
  · exact hpre.retarget_after hnodup_pre hpre_prev hpre_next hpre_last
  · rw [getLastD_append]
    exact hpost.retarget_before hnodup_post hpost_next hpost_prev hpost_head

end Edit

end HuyaOS.Lib
