import Mathlib.Data.List.Basic
import Mathlib.Tactic

/-!
Paths over an arbitrary alphabet. A path is cut at a separator into components,
the empty ones of which say nothing. Walking the components from the root gives a
stack of names: some components stay where they are, some go up, the others
enter the directory they name. The path that spells out the stack is the
canonical path to the same place.

With a separator behind every component, one path is a prefix of another exactly
if its components are.

A text may also be cut at a delimiter of several characters. Since its occurrences may
overlap, they are cut out from left to right.
-/

namespace HuyaOS.Lib

open List

section Cut

variable {α : Type*}

/-- The delimiter stands in the text at a place. -/
def OccursAt (delimiter text : List α) (i : Nat) : Prop := delimiter <+: text.drop i

/-- What is left of a text when the delimiter is cut out where it occurs first, and so on behind
it. -/
inductive Cut (delimiter : List α) : List α → List (List α) → Prop
  | last {text : List α} (hnone : ∀ i, ¬OccursAt delimiter text i) : Cut delimiter text [text]
  | cut {before behind : List α} {segments : List (List α)}
      (hfirst : ∀ i < before.length, ¬OccursAt delimiter (before ++ (delimiter ++ behind)) i)
      (hrest : Cut delimiter behind segments) :
      Cut delimiter (before ++ (delimiter ++ behind)) (before :: segments)

variable {delimiter text : List α} {segments : List (List α)}

theorem Cut.intercalate (h : Cut delimiter text segments) :
    delimiter.intercalate segments = text := by
  induction h with
  | last _ => exact intercalate_singleton
  | @cut before behind segments _ hrest ih =>
    cases hrest with
    | last _ => simp
    | cut _ _ => rw [intercalate_cons_cons, ih, append_assoc]

theorem Cut.not_infix (h : Cut delimiter text segments) (hne : delimiter ≠ []) :
    ∀ segment ∈ segments, ¬delimiter <:+: segment := by
  have hpos := length_pos_of_ne_nil hne
  induction h with
  | last hnone =>
    rw [forall_mem_singleton]
    rintro ⟨a, b, rfl⟩
    exact hnone a.length (by simp [OccursAt])
  | cut hfirst _ ih =>
    refine forall_mem_cons.mpr ⟨?_, ih⟩
    rintro ⟨a, b, rfl⟩
    exact hfirst a.length (by simp only [length_append]; omega) (by simp [OccursAt])

end Cut

variable {α : Type} [DecidableEq α] (sep : α)

/-- The components of a path. -/
def components (path : List α) : List (List α) := (path.splitOn sep).filter (· ≠ [])

def render : List (List α) → List α
  | [] => []
  | cs => sep :: [sep].intercalate cs

section Components

variable {sep} {x : α} {cs : List (List α)}

@[simp] theorem components_nil : components sep [] = [] := rfl

theorem components_append (a b : List α) :
    components sep (a ++ sep :: b) = components sep a ++ components sep b := by
  unfold components
  rw [splitOn_append_cons_self, filter_append]

variable {path c : List α}

theorem components_of_notMem (h : sep ∉ path) : components sep path = [path].filter (· ≠ []) := by
  unfold components
  rw [splitOn_eq_singleton h]

/-- The components are what is left if the separators are cut out one by one. -/
theorem Cut.components_eq {segments : List (List α)} (h : Cut [sep] path segments) :
    segments.filter (· ≠ []) = components sep path := by
  induction h with
  | @last text hnone =>
    rw [components_of_notMem]
    intro hmem
    obtain ⟨a, b, rfl⟩ := append_of_mem hmem
    exact hnone a.length (by simp [OccursAt])
  | @cut before behind segments hfirst _ ih =>
    rw [singleton_append, components_append, ← ih, components_of_notMem, ← filter_append]
    · rfl
    · intro hmem
      obtain ⟨a, b, rfl⟩ := append_of_mem hmem
      exact hfirst a.length (by simp) (by simp [OccursAt])

/-- Induction along the first separators of a path. -/
theorem cut_induction (sep : α) {motive : List α → Prop} (last : ∀ a, sep ∉ a → motive a)
    (cut : ∀ a b, sep ∉ a → motive b → motive (a ++ sep :: b)) (path : List α) : motive path := by
  induction hlen : path.length using Nat.strong_induction_on generalizing path with
  | _ n ih =>
    by_cases hmem : sep ∈ path
    · obtain ⟨a, b, rfl, ha⟩ := eq_append_cons_of_mem hmem
      apply cut a b ha
      apply ih b.length _ b rfl
      simp only [length_append, length_cons] at hlen
      omega
    · exact last path hmem

theorem mem_components_of_notMem (hpath : sep ∉ path) :
    c ∈ components sep path ↔ c = path ∧ c ≠ [] := by
  rw [components_of_notMem hpath]
  simp only [mem_filter, mem_singleton, decide_eq_true_eq]

theorem isName_of_mem_components (hc : c ∈ components sep path) : c ≠ [] ∧ sep ∉ c := by
  induction path using cut_induction sep with
  | last a ha =>
    obtain ⟨rfl, hne⟩ := (mem_components_of_notMem ha).mp hc
    exact ⟨hne, ha⟩
  | cut a b ha ih =>
    rw [components_append, mem_append, mem_components_of_notMem ha] at hc
    rcases hc with ⟨rfl, hne⟩ | hc
    · exact ⟨hne, ha⟩
    · exact ih hc

theorem mem_of_mem_components (hc : c ∈ components sep path) (hx : x ∈ c) : x ∈ path := by
  induction path using cut_induction sep with
  | last a ha =>
    obtain ⟨rfl, -⟩ := (mem_components_of_notMem ha).mp hc
    exact hx
  | cut a b ha ih =>
    rw [components_append, mem_append, mem_components_of_notMem ha] at hc
    rcases hc with ⟨rfl, -⟩ | hc
    · exact mem_append_left _ hx
    · exact mem_append_right _ (mem_cons_of_mem _ (ih hc))

theorem exists_mem_components (hx : x ∈ path) (hne : x ≠ sep) :
    ∃ c ∈ components sep path, x ∈ c := by
  induction path using cut_induction sep with
  | last a ha => exact ⟨a, (mem_components_of_notMem ha).mpr ⟨rfl, ne_nil_of_mem hx⟩, hx⟩
  | cut a b ha ih =>
    rw [components_append]
    rcases mem_append.mp hx with hxa | hxb
    · exact ⟨a, mem_append_left _ ((mem_components_of_notMem ha).mpr ⟨rfl, ne_nil_of_mem hxa⟩), hxa⟩
    · obtain ⟨c, hc, hxc⟩ := ih (mem_of_ne_of_mem hne hxb)
      exact ⟨c, mem_append_right _ hc, hxc⟩

theorem components_intercalate (hcs : ∀ c ∈ cs, c ≠ [] ∧ sep ∉ c) :
    components sep ([sep].intercalate cs) = cs := by
  cases cs with
  | nil => rfl
  | cons c cs =>
    unfold components
    rw [splitOn_intercalate sep (fun l hl => (hcs l hl).2) (cons_ne_nil _ _)]
    exact filter_eq_self.mpr fun l hl => decide_eq_true (hcs l hl).1

theorem components_render (hcs : ∀ c ∈ cs, c ≠ [] ∧ sep ∉ c) :
    components sep (render sep cs) = cs := by
  cases cs with
  | nil => rfl
  | cons c cs =>
    calc components sep (render sep (c :: cs))
        = components sep [] ++ components sep ([sep].intercalate (c :: cs)) :=
          components_append [] _
      _ = c :: cs := by rw [components_nil, nil_append, components_intercalate hcs]

end Components

variable (stays goesUp : List α → Bool)

/-- One component. The root is its own parent. -/
def walk (stack : List (List α)) (c : List α) : List (List α) :=
  if stays c then stack else if goesUp c then stack.dropLast else stack ++ [c]

def resolve (cs : List (List α)) : List (List α) := cs.foldl (walk stays goesUp) []

/-- The canonical path to the same place. -/
def canonical (path : List α) : List α := render sep (resolve stays goesUp (components sep path))

section Walking

variable {stays goesUp} {cs : List (List α)} {stack : List (List α)} {c d : List α}

omit [DecidableEq α] in
theorem resolve_append (xs ys : List (List α)) :
    resolve stays goesUp (xs ++ ys) = ys.foldl (walk stays goesUp) (resolve stays goesUp xs) :=
  foldl_append

omit [DecidableEq α] in
theorem foldl_walk_enters (stack : List (List α))
    (hcs : ∀ c ∈ cs, stays c = false ∧ goesUp c = false) :
    cs.foldl (walk stays goesUp) stack = stack ++ cs := by
  induction cs generalizing stack with
  | nil => exact (append_nil _).symm
  | cons c cs ih =>
    obtain ⟨hstays, hup⟩ := hcs c mem_cons_self
    rw [foldl_cons, ih _ fun c' hc' => hcs c' (mem_cons_of_mem _ hc')]
    simp [walk, hstays, hup]

omit [DecidableEq α] in
theorem foldl_walk_root (hcs : ∀ c ∈ cs, stays c = true ∨ goesUp c = true) :
    cs.foldl (walk stays goesUp) [] = [] := by
  induction cs with
  | nil => rfl
  | cons c cs ih =>
    have hroot : walk stays goesUp [] c = [] := by
      rcases hcs c mem_cons_self with h | h <;> simp [walk, h]
    rw [foldl_cons, hroot]
    exact ih fun c' hc' => hcs c' (mem_cons_of_mem _ hc')

omit [DecidableEq α] in
theorem mem_walk (hd : d ∈ walk stays goesUp stack c) :
    d ∈ stack ∨ (d = c ∧ stays c = false ∧ goesUp c = false) := by
  unfold walk at hd
  split at hd
  · exact .inl hd
  · rename_i hstays
    split at hd
    · exact .inl (dropLast_subset _ hd)
    · rename_i hup
      rcases mem_append.mp hd with hd | hd
      · exact .inl hd
      · exact .inr ⟨mem_singleton.mp hd, eq_false_of_ne_true hstays, eq_false_of_ne_true hup⟩

omit [DecidableEq α] in
theorem mem_foldl_walk (hd : d ∈ cs.foldl (walk stays goesUp) stack) :
    d ∈ stack ∨ (d ∈ cs ∧ stays d = false ∧ goesUp d = false) := by
  induction cs generalizing stack with
  | nil => exact .inl hd
  | cons c cs ih =>
    rcases ih hd with h | ⟨hmem, h⟩
    · rcases mem_walk h with h | ⟨rfl, h⟩
      · exact .inl h
      · exact .inr ⟨mem_cons_self, h⟩
    · exact .inr ⟨mem_cons_of_mem _ hmem, h⟩

variable {sep}

theorem isEntered_of_mem_resolve {path : List α}
    (hc : c ∈ resolve stays goesUp (components sep path)) :
    (c ≠ [] ∧ sep ∉ c) ∧ stays c = false ∧ goesUp c = false := by
  rcases mem_foldl_walk hc with h | ⟨hmem, h⟩
  · cases h
  · exact ⟨isName_of_mem_components hmem, h⟩

theorem components_canonical (path : List α) :
    components sep (canonical sep stays goesUp path) = resolve stays goesUp (components sep path) :=
  components_render fun _ hc => (isEntered_of_mem_resolve hc).1

/-- Walking a canonical path reaches the place that it is the canonical path to. -/
theorem resolve_canonical (path : List α) :
    resolve stays goesUp (components sep (canonical sep stays goesUp path)) =
      resolve stays goesUp (components sep path) := by
  rw [components_canonical]
  exact foldl_walk_enters [] fun _ hc => (isEntered_of_mem_resolve hc).2

theorem canonical_idempotent (path : List α) :
    canonical sep stays goesUp (canonical sep stays goesUp path) =
      canonical sep stays goesUp path :=
  congrArg (render sep) (resolve_canonical path)

theorem canonical_append (a b : List α) :
    canonical sep stays goesUp (canonical sep stays goesUp a ++ sep :: b) =
      canonical sep stays goesUp (a ++ sep :: b) := by
  unfold canonical
  rw [components_append, components_append, resolve_append, resolve_append]
  exact congrArg (fun stack => render sep ((components sep b).foldl (walk stays goesUp) stack))
    (resolve_canonical a)

theorem canonical_root {lead : List α}
    (hlead : ∀ c ∈ components sep lead, stays c = true ∨ goesUp c = true) :
    canonical sep stays goesUp lead = [] ∧
      ∀ path, canonical sep stays goesUp (lead ++ sep :: path) =
        canonical sep stays goesUp path := by
  have hroot : resolve stays goesUp (components sep lead) = [] := foldl_walk_root hlead
  constructor
  · exact congrArg (render sep) hroot
  · intro path
    unfold canonical
    rw [components_append, resolve_append, hroot]
    rfl

end Walking

section Directories

variable {β : Type} {sep : β}

/-- The components, each with a separator behind it. -/
def closed (sep : β) (cs : List (List β)) : List β := cs.flatMap (· ++ [sep])

@[simp] theorem closed_nil : closed sep [] = [] := rfl

@[simp] theorem closed_cons (c : List β) (cs : List (List β)) :
    closed sep (c :: cs) = c ++ sep :: closed sep cs := by
  simp [closed]

theorem closed_append (as bs : List (List β)) :
    closed sep (as ++ bs) = closed sep as ++ closed sep bs :=
  flatMap_append

theorem intercalate_append_sep (c : List β) (cs : List (List β)) :
    [sep].intercalate (c :: cs) ++ [sep] = closed sep (c :: cs) := by
  induction cs generalizing c with
  | nil => simp
  | cons d cs ih => rw [intercalate_cons_cons, append_assoc, ih, closed_cons c, append_assoc,
      singleton_append]

theorem render_append_sep (cs : List (List β)) : render sep cs ++ [sep] = sep :: closed sep cs := by
  cases cs with
  | nil => rfl
  | cons c cs => exact congrArg (sep :: ·) (intercalate_append_sep c cs)

theorem dropLast_closed (cs : List (List β)) : (closed sep cs).dropLast = [sep].intercalate cs := by
  cases cs with
  | nil => rfl
  | cons c cs => rw [← intercalate_append_sep, dropLast_concat]

variable {c : List β} {as bs : List (List β)}

theorem append_sep_prefix_iff {d : List β} (hc : sep ∉ c) (hd : sep ∉ d) (xs ys : List β) :
    c ++ sep :: xs <+: d ++ sep :: ys ↔ c = d ∧ xs <+: ys := by
  induction c generalizing d with
  | nil =>
    cases d with
    | nil => simp
    | cons b d =>
      have hne : sep ≠ b := fun h => hd (h ▸ mem_cons_self)
      simp [hne]
  | cons a c ih =>
    cases d with
    | nil =>
      have hne : a ≠ sep := fun h => hc (h ▸ mem_cons_self)
      simp [hne]
    | cons b d =>
      rw [cons_append, cons_append, cons_prefix_cons,
        ih (not_mem_of_not_mem_cons hc) (not_mem_of_not_mem_cons hd), cons.injEq, and_assoc]

theorem closed_prefix_iff (has : ∀ c ∈ as, sep ∉ c) (hbs : ∀ c ∈ bs, sep ∉ c) :
    closed sep as <+: closed sep bs ↔ as <+: bs := by
  induction as generalizing bs with
  | nil => simp
  | cons a as ih =>
    obtain ⟨ha, has⟩ := forall_mem_cons.mp has
    cases bs with
    | nil => simp
    | cons b bs =>
      obtain ⟨hb, hbs⟩ := forall_mem_cons.mp hbs
      rw [closed_cons, closed_cons, append_sep_prefix_iff ha hb, ih has hbs, cons_prefix_cons]

theorem prefix_append_sep_iff (hc : sep ∉ c) (d ys : List β) : c <+: d ++ sep :: ys ↔ c <+: d := by
  induction c generalizing d with
  | nil => simp
  | cons a c ih =>
    have hne : a ≠ sep := fun h => hc (h ▸ mem_cons_self)
    cases d with
    | nil => simp [hne]
    | cons b d =>
      rw [cons_append, cons_prefix_cons, cons_prefix_cons, ih (not_mem_of_not_mem_cons hc)]

/-- Where the last separator is missing, the next component only has to begin with the last
name. -/
theorem closed_append_prefix_iff (has : ∀ a ∈ as, sep ∉ a) (hbs : ∀ b ∈ bs, sep ∉ b) (hc : sep ∉ c)
    (hne : c ≠ []) :
    closed sep as ++ c <+: closed sep bs ↔ ∃ d rest, bs = as ++ d :: rest ∧ c <+: d := by
  induction as generalizing bs with
  | nil =>
    cases bs with
    | nil => simp [hne]
    | cons b bs =>
      rw [closed_nil, nil_append, closed_cons, prefix_append_sep_iff hc]
      simp
  | cons a as ih =>
    obtain ⟨ha, has⟩ := forall_mem_cons.mp has
    cases bs with
    | nil => simp
    | cons b bs =>
      obtain ⟨hb, hbs⟩ := forall_mem_cons.mp hbs
      rw [closed_cons, closed_cons, append_assoc, cons_append,
        append_sep_prefix_iff ha hb, ih has hbs]
      constructor
      · rintro ⟨rfl, d, rest, rfl, hpre⟩
        exact ⟨d, rest, rfl, hpre⟩
      · rintro ⟨d, rest, heq, hpre⟩
        obtain ⟨rfl, rfl⟩ := cons.inj heq
        exact ⟨rfl, d, rest, rfl, hpre⟩

theorem length_le_length_closed (cs : List (List β)) : cs.length ≤ (closed sep cs).length := by
  induction cs with
  | nil => exact le_rfl
  | cons c cs ih =>
    rw [closed_cons, length_append, length_cons, length_cons]
    omega

theorem length_le_of_closed_length_le {cs : List (List β)} (has : as <+: cs) (hbs : bs <+: cs)
    (h : (closed sep as).length ≤ (closed sep bs).length) : as.length ≤ bs.length := by
  by_contra hlt
  obtain ⟨rest, rfl⟩ := prefix_of_prefix_length_le hbs has (not_le.mp hlt).le
  have hrest : rest.length ≤ (closed sep rest).length := length_le_length_closed rest
  rw [closed_append, length_append] at h
  rw [length_append] at hlt
  omega

end Directories

end HuyaOS.Lib
