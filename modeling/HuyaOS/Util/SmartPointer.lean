import HuyaOS.Lib.Transition

/-!
`SmartPointer`. Every pointer has a counter of its own, which it takes over from
the pointer it is made from and increments; nobody counts how many pointers
refer to a pointee. A pointer is made with the counter 1, so no counter gets to
zero unless it wraps around, and since a pointee is only deleted at zero, no
pointee is ever deleted. What the counters ought to achieve, that a pointee is
deleted when its last pointer goes, therefore holds as long as no last pointer
goes.
-/

namespace HuyaOS

open Function

/-- `pointer` and `counter`; a null pointer is `none`. -/
structure SmartPointer where
  pointer : Option Nat
  counter : Nat
  deriving DecidableEq, Repr

namespace SmartPointer

/-- `SmartPointer()` and `SmartPointer(T *)` -/
def create (pointer : Option Nat) : SmartPointer := ⟨pointer, 1⟩

/-- `SmartPointer(const SmartPointer &)`, which is also what an assignment leaves. -/
def copy (other : SmartPointer) : SmartPointer := ⟨other.pointer, (other.counter + 1) % 2 ^ 32⟩

/-- `if (counter-- == 0) delete pointer`, as the list of deleted pointees. Deleting
a null pointer does nothing. -/
def release (p : SmartPointer) : List Nat := if p.counter = 0 then p.pointer.toList else []

/-- The pointers that exist, the pointees that were handed over to one, and the
pointees that were deleted, the latest first. -/
structure State where
  pointers : Nat → Option SmartPointer
  given : List Nat
  deleted : List Nat

namespace State

def empty : State := ⟨fun _ => none, [], []⟩

/-- The pointer `x` gets the value `p` or ends. -/
def replace (s : State) (x : Nat) (p : Option SmartPointer) (deleted : List Nat) : State :=
  { s with pointers := update s.pointers x p, deleted := deleted ++ s.deleted }

/-- A pointer other than `x` refers to the pointee. -/
def RefersBut (s : State) (x a : Nat) : Prop :=
  ∃ y ≠ x, ∃ p, s.pointers y = some p ∧ p.pointer = some a

def Refers (s : State) (a : Nat) : Prop := ∃ y p, s.pointers y = some p ∧ p.pointer = some a

end State

open State

inductive Call
  | create (x : Nat) (pointer : Option Nat)
  | copy (x y : Nat)
  | assign (x y : Nat)
  | destroy (x : Nat)

/-- Every raw pointer is handed over once. An assignment of a pointer to itself
does nothing. -/
inductive Step (s : State) : Call → State → Prop
  | create {x : Nat} {pointer : Option Nat} (hx : s.pointers x = none) (hnew : ∀ a ∈ pointer,
    a ∉ s.given) :
      Step s (.create x pointer) { s.replace x (some (.create pointer))
        [] with given := pointer.toList ++ s.given }
  | copy {x y : Nat} {q : SmartPointer} (hx : s.pointers x = none) (hy : s.pointers y = some q) :
      Step s (.copy x y) (s.replace x (some q.copy) [])
  | assignSelf {x : Nat} {p : SmartPointer} (hx : s.pointers x = some p) : Step s (.assign x x) s
  | assign {x y : Nat} {p q : SmartPointer} (hx : s.pointers x = some p)
    (hy : s.pointers y = some q) (hne : x ≠ y) :
      Step s (.assign x y) (s.replace x (some q.copy) p.release)
  | destroy {x : Nat} {p : SmartPointer} (hx : s.pointers x = some p) :
      Step s (.destroy x) (s.replace x none p.release)

/-- A pointee has been deleted once if no pointer refers to it, and not at all as
long as one does. -/
def Owned (s : State) : Prop :=
  ∀ a ∈ s.given, (s.Refers a → a ∉ s.deleted) ∧ (¬s.Refers a → s.deleted.count a = 1)

/-- The call does not end or overwrite the last pointer that refers to a pointee. -/
def KeepsLast (s : State) : Call → Prop
  | .destroy x => ∀ p, s.pointers x = some p → ∀ a ∈ p.pointer, s.RefersBut x a
  | .assign x y => x ≠ y → ∀ p, s.pointers x = some p → ∀ a ∈ p.pointer, s.RefersBut x a
  | _ => True

/-- The call does not take a counter over its range. -/
def Counts (s : State) : Call → Prop
  | .copy _ y | .assign _ y => ∀ q, s.pointers y = some q → q.counter + 1 < 2 ^ 32
  | _ => True

/-- No counter is zero, and nothing has been deleted. -/
structure Undeleted (s : State) : Prop where
  counter_pos : ∀ x p, s.pointers x = some p → 0 < p.counter
  given_of_pointer : ∀ x p, s.pointers x = some p → ∀ a ∈ p.pointer, a ∈ s.given
  deleted_eq : s.deleted = []

theorem undeleted_empty : Undeleted empty := ⟨nofun, nofun, rfl⟩

section Undeleted

variable {s s' : State} {c : Call} {x : Nat} {p : SmartPointer} {deleted : List Nat} {a : Nat}

theorem Undeleted.release_eq (h : Undeleted s) (hx : s.pointers x = some p) : p.release = [] :=
  if_neg (h.counter_pos x p hx).ne'

theorem Undeleted.replace (h : Undeleted s) {p : Option SmartPointer}
    (hpos : ∀ q ∈ p, 0 < q.counter) (hgiven : ∀ q ∈ p, ∀ a ∈ q.pointer, a ∈ s.given) :
    Undeleted (s.replace x p []) := by
  have hcases : ∀ y q, (s.replace x p []).pointers y = some q → q ∈ p ∨ s.pointers y = some q := by
    intro y q hq
    change update s.pointers x p y = some q at hq
    rw [update_apply] at hq
    split at hq
    · exact .inl hq
    · exact .inr hq
  refine ⟨fun y q hq => ?_, fun y q hq => ?_, h.deleted_eq⟩
  · exact (hcases y q hq).elim (hpos q) (h.counter_pos y q)
  · exact (hcases y q hq).elim (hgiven q) (h.given_of_pointer y q)

theorem Undeleted.replace_copy (h : Undeleted s) {y : Nat} {q : SmartPointer}
    (hy : s.pointers y = some q) (hcount : q.counter + 1 < 2 ^ 32) :
    Undeleted (s.replace x (some q.copy) []) := by
  apply h.replace
  · rintro _ ⟨⟩
    change 0 < (q.counter + 1) % 2 ^ 32
    rw [Nat.mod_eq_of_lt hcount]
    exact Nat.succ_pos _
  · rintro _ ⟨⟩
    exact h.given_of_pointer y q hy

theorem Undeleted.step (h : Undeleted s) (hstep : Step s c s') (hcounts : Counts s c) :
    Undeleted s' := by
  cases hstep with
  | @create x pointer hx hnew =>
    have hmore : Undeleted { s with given := pointer.toList ++ s.given } :=
      ⟨h.counter_pos, fun y p hy a ha => List.mem_append_right _ (h.given_of_pointer y p hy a ha),
        h.deleted_eq⟩
    refine hmore.replace ?_ ?_
    · rintro _ ⟨⟩
      exact Nat.one_pos
    · rintro _ ⟨⟩ a ha
      exact List.mem_append_left _ (Option.mem_toList.mpr ha)
  | copy hx hy => exact h.replace_copy hy (hcounts _ hy)
  | assignSelf hx => exact h
  | assign hx hy hne =>
    rw [h.release_eq hx]
    exact h.replace_copy hy (hcounts _ hy)
  | destroy hx =>
    rw [h.release_eq hx]
    exact h.replace nofun nofun

/-- Since nothing is deleted, every pointee has to keep a pointer. -/
theorem Undeleted.owned_iff (h : Undeleted s) : Owned s ↔ ∀ a ∈ s.given, s.Refers a := by
  unfold Owned
  rw [h.deleted_eq]
  constructor
  · intro howned a ha
    by_contra hnot
    cases (howned a ha).2 hnot
  · intro hrefers a ha
    exact ⟨fun _ => List.not_mem_nil, fun hnot => absurd (hrefers a ha) hnot⟩

theorem refers_replace {p : Option SmartPointer} :
    (s.replace x p deleted).Refers a ↔ (∃ q ∈ p, q.pointer = some a) ∨ s.RefersBut x a := by
  constructor
  · rintro ⟨y, q, hy, hq⟩
    change update s.pointers x p y = some q at hy
    rcases eq_or_ne y x with rfl | hne
    · rw [update_self] at hy
      exact .inl ⟨q, hy, hq⟩
    · rw [update_of_ne hne] at hy
      exact .inr ⟨y, hne, q, hy, hq⟩
  · rintro (⟨q, hp, hq⟩ | ⟨y, hne, q, hy, hq⟩)
    · exact ⟨x, q, (update_self ..).trans hp, hq⟩
    · exact ⟨y, q, (update_of_ne hne ..).trans hy, hq⟩

theorem refers_iff :
    s.Refers a ↔ (∃ p, s.pointers x = some p ∧ p.pointer = some a) ∨ s.RefersBut x a := by
  constructor
  · rintro ⟨y, p, hy, hp⟩
    rcases eq_or_ne y x with rfl | hne
    · exact .inl ⟨p, hy, hp⟩
    · exact .inr ⟨y, hne, p, hy, hp⟩
  · rintro (⟨p, hx, hp⟩ | ⟨y, -, p, hy, hp⟩)
    · exact ⟨x, p, hx, hp⟩
    · exact ⟨y, p, hy, hp⟩

theorem refers_replace_iff (h : Undeleted s) (hall : ∀ a ∈ s.given, s.Refers a)
    (hx : s.pointers x = some p) {q : Option SmartPointer}
    (hq : ∀ r ∈ q, ∀ a, r.pointer = some a → s.RefersBut x a) :
    (∀ a ∈ s.given, (s.replace x q deleted).Refers a) ↔ ∀ a ∈ p.pointer, s.RefersBut x a := by
  have hother : ∀ a, (s.replace x q deleted).Refers a ↔ s.RefersBut x a := by
    intro a
    rw [refers_replace]
    constructor
    · rintro (⟨r, hr, ha⟩ | hbut)
      · exact hq r hr a ha
      · exact hbut
    · exact .inr
  constructor
  · intro hafter a ha
    exact (hother a).mp (hafter a (h.given_of_pointer x p hx a ha))
  · intro hbut a ha
    refine (hother a).mpr ?_
    rcases refers_iff.mp (hall a ha) with ⟨p', hx', hp'⟩ | hbut'
    · rw [hx, Option.some_inj] at hx'
      exact hbut a (hx' ▸ hp')
    · exact hbut'

theorem refers_replace_of_none (hall : ∀ a ∈ s.given, s.Refers a) (hx : s.pointers x = none)
    (q : Option SmartPointer) (deleted : List Nat) :
    ∀ a ∈ s.given, (s.replace x q deleted).Refers a := by
  intro a ha
  rcases refers_iff.mp (hall a ha) with ⟨p, hx', -⟩ | hbut
  · rw [hx] at hx'
    cases hx'
  · exact refers_replace.mpr (.inr hbut)

/-- After a step all pointees have a pointer exactly if no last pointer went. -/
theorem refers_step_iff (h : Undeleted s) (hall : ∀ a ∈ s.given, s.Refers a) (hstep : Step s c s') :
    (∀ a ∈ s'.given, s'.Refers a) ↔ KeepsLast s c := by
  cases hstep with
  | @create x pointer hx hnew =>
    refine iff_of_true ?_ trivial
    intro a ha
    change (s.replace x (some (.create pointer)) []).Refers a
    rcases List.mem_append.mp ha with ha | ha
    · exact refers_replace.mpr (.inl ⟨_, rfl, Option.mem_toList.mp ha⟩)
    · exact refers_replace_of_none hall hx _ _ a ha
  | copy hx hy => exact iff_of_true (refers_replace_of_none hall hx _ _) trivial
  | assignSelf hx => exact iff_of_true hall fun hne => absurd rfl hne
  | @assign x y p q hx hy hne =>
    refine (refers_replace_iff h hall hx ?_).trans ?_
    · rintro _ ⟨⟩ a ha
      exact ⟨y, hne.symm, q, hy, ha⟩
    · constructor
      · intro hbut _ p' hx'
        rw [hx, Option.some_inj] at hx'
        exact hx' ▸ hbut
      · intro hkeeps
        exact hkeeps hne p hx
  | @destroy x p hx =>
    refine (refers_replace_iff h hall hx (q := none) nofun).trans ?_
    constructor
    · intro hbut p' hx'
      rw [hx, Option.some_inj] at hx'
      exact hx' ▸ hbut
    · intro hkeeps
      exact hkeeps p hx

end Undeleted

/-- No last pointer goes, and no counter wraps around. -/
def SoundStep (s : State) (c : Call) (s' : State) : Prop := Step s c s' ∧ KeepsLast s c ∧ Counts s c

/-- In a run that keeps all last pointers the pointees are owned. From there every
call that takes no counter over its range keeps ownership exactly if it keeps the
last pointers. -/
theorem owned_of_sound_run {calls : List Call} {s : State}
    (hrun : Lib.Run SoundStep empty calls s) :
    Owned s ∧ ∀ c s', Step s c s' → Counts s c → (Owned s' ↔ KeepsLast s c) := by
  have hpreserved : ∀ s c s', (Undeleted s ∧ ∀ a ∈ s.given, s.Refers a) → SoundStep s c s' →
      Undeleted s' ∧ ∀ a ∈ s'.given, s'.Refers a := by
    rintro s c s' ⟨hund, hall⟩ ⟨hstep, hkeeps, hcounts⟩
    exact ⟨hund.step hstep hcounts, (refers_step_iff hund hall hstep).mpr hkeeps⟩
  obtain ⟨hund, hall⟩ := hrun.invariant hpreserved ⟨undeleted_empty, nofun⟩
  refine ⟨hund.owned_iff.mpr hall, ?_⟩
  intro c s' hstep hcounts
  exact ((hund.step hstep hcounts).owned_iff).trans (refers_step_iff hund hall hstep)

/-- Two pointers to one pointee, of which one is destroyed. -/
theorem owned_of_sound_run_two_pointers :
    ∃ s, Lib.Run SoundStep empty [.create 0 (some 7), .copy 1 0, .destroy 0] s ∧ s.given = [7] ∧
      Owned s := by
  have hrun : Lib.Run SoundStep empty [.create 0 (some 7), .copy 1 0, .destroy 0] _ :=
    .next ⟨.create rfl nofun, trivial, trivial⟩ <| .next ⟨.copy rfl rfl,
      trivial, by rintro _ ⟨⟩; decide⟩ <|
      .next ⟨.destroy rfl, by rintro _ ⟨⟩ _ ⟨⟩; exact ⟨1, by decide, _, rfl, rfl⟩, trivial⟩ <| .done
        _
  exact ⟨_, hrun, rfl, (owned_of_sound_run hrun).1⟩

/-- The only pointer goes, and the pointee is not deleted. -/
theorem owned_fails_for_one_pointer :
    ∃ s, Lib.Run Step empty [.create 0 (some 7), .destroy 0] s ∧ s.given = [7] ∧ ¬s.Refers 7 ∧
      s.deleted = [] ∧
      ¬Owned s := by
  have hrun : Lib.Run Step empty [.create 0 (some 7), .destroy 0] _ :=
    .next (.create rfl nofun) <| .next (.destroy rfl) <| .done _
  refine ⟨_, hrun, rfl, ?_⟩
  suffices hrefers : ¬State.Refers _ 7 from
    ⟨hrefers, rfl, fun howned => nomatch (howned 7 List.mem_cons_self).2 hrefers⟩
  rw [refers_replace]
  rintro (⟨_, ⟨⟩, _⟩ | ⟨y, hne, p, hy, -⟩)
  cases (update_of_ne hne _ _).symm.trans hy

end SmartPointer

end HuyaOS
