import Mathlib.Tactic

/-!
Singly linked cells in a memory. `Chain heap start nodes stop` says that the cells
at the addresses of `nodes` hold their elements and lead one after the other from
the pointer `start` to the pointer `stop`. The ends are parameters, so that a
change of one pointer is a change between two chains.
-/

namespace HuyaOS.Lib

/-- What is allocated at an address. A null pointer is `none` where an address is
`some`. -/
abbrev Heap (α : Type*) := Nat → Option α

structure Cell (α : Type*) where
  element : α
  next : Option Nat
  deriving DecidableEq, Repr

variable {α : Type*}

def Chain (heap : Heap (Cell α)) : Option Nat → List (Nat × α) → Option Nat → Prop
  | start, [], stop => start = stop
  | start, (a, x) :: rest, stop =>
      start = some a ∧ ∃ next, heap a = some ⟨x, next⟩ ∧ Chain heap next rest stop

section Chain

variable {heap : Heap (Cell α)} {start stop : Option Nat} {nodes rest : List (Nat × α)} {a : Nat}
  {x : α}

theorem chain_append :
    Chain heap start (nodes ++ rest) stop ↔
      ∃ middle, Chain heap start nodes middle ∧ Chain heap middle rest stop := by
  induction nodes generalizing start with
  | nil => exact ⟨fun h => ⟨start, rfl, h⟩, fun ⟨_, heq, h⟩ => heq ▸ h⟩
  | cons node nodes ih =>
    simp only [List.cons_append, Chain, ih]
    constructor
    · rintro ⟨hstart, next, hcell, middle, hnodes, hrest⟩
      exact ⟨middle, ⟨hstart, next, hcell, hnodes⟩, hrest⟩
    · rintro ⟨middle, ⟨hstart, next, hcell, hnodes⟩, hrest⟩
      exact ⟨hstart, next, hcell, middle, hnodes, hrest⟩

theorem chain_append_cons :
    Chain heap start (nodes ++ (a, x) :: rest) stop ↔
      Chain heap start nodes (some a) ∧ ∃ next, heap a = some ⟨x, next⟩ ∧
        Chain heap next rest stop := by
  rw [chain_append]
  constructor
  · rintro ⟨_, hnodes, rfl, hrest⟩
    exact ⟨hnodes, hrest⟩
  · rintro ⟨hnodes, hrest⟩
    exact ⟨some a, hnodes, rfl, hrest⟩

theorem Chain.ne_none (h : Chain heap start nodes stop) :
    ∀ a ∈ nodes.map Prod.fst, heap a ≠ none := by
  induction nodes generalizing start with
  | nil => exact List.forall_mem_nil _
  | cons node nodes ih =>
    obtain ⟨-, next, hcell, hrest⟩ := h
    refine List.forall_mem_cons.mpr ⟨?_, ih hrest⟩
    rw [hcell]
    exact Option.some_ne_none _

theorem Chain.isNone_start (h : Chain heap start nodes none) : start.isNone = nodes.isEmpty := by
  cases nodes with
  | nil => exact congrArg Option.isNone (show start = none from h)
  | cons node nodes => exact congrArg Option.isNone h.1

theorem Chain.update (h : Chain heap start nodes stop) (ha : a ∉ nodes.map Prod.fst)
    (cell : Option (Cell α)) :
    Chain (Function.update heap a cell) start nodes stop := by
  induction nodes generalizing start with
  | nil => exact h
  | cons node nodes ih =>
    obtain ⟨hstart, next, hcell, hrest⟩ := h
    rw [List.map_cons, List.mem_cons, not_or] at ha
    refine ⟨hstart, next, ?_, ih hrest ha.2⟩
    rw [Function.update_of_ne (Ne.symm ha.1), hcell]

theorem Chain.unique (h : Chain heap start nodes none) (h' : Chain heap start rest none) :
    nodes = rest := by
  induction nodes generalizing start rest with
  | nil =>
    cases rest with
    | nil => rfl
    | cons node rest =>
      obtain ⟨hstart, -⟩ := h'
      cases (show start = none from h).symm.trans hstart
  | cons node nodes ih =>
    obtain ⟨hstart, next, hcell, hnodes⟩ := h
    cases rest with
    | nil => cases hstart.symm.trans h'
    | cons node rest =>
      obtain ⟨b, y⟩ := node
      obtain ⟨hstart', next', hcell', hrest⟩ := h'
      cases hstart.symm.trans hstart'
      cases hcell.symm.trans hcell'
      rw [ih hnodes hrest]

theorem Chain.relink {stop' next : Option Nat} {rest' : List (Nat × α)}
    (h : Chain heap start (nodes ++ (a, x) :: rest) stop) (hnodes : a ∉ nodes.map Prod.fst)
    (h' : Chain heap next rest' stop') (hrest : a ∉ rest'.map Prod.fst) :
    Chain (Function.update heap a (some ⟨x, next⟩)) start (nodes ++ (a, x) :: rest') stop' := by
  rw [chain_append_cons] at h ⊢
  exact ⟨h.1.update hnodes _, next, Function.update_self _ _ _, h'.update hrest _⟩

end Chain

end HuyaOS.Lib
