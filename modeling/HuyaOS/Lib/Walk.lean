import Mathlib.Tactic

/-!
Walks along stored links. At a place there is nothing, or an item and, unless the
item is the last one, the place where the walk goes on. The links may form a circle, so
`walkFrom` looks at a limited number of places, and `Ends` says that some number is
enough.

`Path` is a part of a walk: the items between two places. A change of the items at
one place is a change between two paths.
-/

namespace HuyaOS.Lib

open List Option

variable {σ α : Type*}

/-- The items from `s` on with their places, or nothing if `rounds` places are not
enough. -/
def walkFrom (node : σ → Option (α × Option σ)) : Nat → σ → Option (List (σ × α))
  | 0, _ => none
  | rounds + 1, s =>
      match node s with
      | none => some []
      | some (x, none) => some [(s, x)]
      | some (x, some next) => (walkFrom node rounds next).map ((s, x) :: ·)

def Ends (node : σ → Option (α × Option σ)) (s : σ) (items : List (σ × α)) : Prop :=
  ∃ rounds, walkFrom node rounds s = some items

/-- The walk from `s` passes `items` and comes to `t`. -/
def Path (node : σ → Option (α × Option σ)) : σ → List (σ × α) → σ → Prop
  | s, [], t => s = t
  | s, (p, x) :: items, t => s = p ∧ ∃ next, node p = some (x, some next) ∧ Path node next items t

def Visits (node : σ → Option (α × Option σ)) (s t : σ) : Prop := ∃ items, Path node s items t

section Walk

variable {node node' : σ → Option (α × Option σ)} {s t next : σ} {x : α} {items rest : List (σ × α)}
  {rounds more : Nat}

theorem walkFrom_of_none (h : node s = none) : walkFrom node (rounds + 1) s = some [] := by
  simp only [walkFrom, h]

theorem walkFrom_of_last (h : node s = some (x, none)) :
    walkFrom node (rounds + 1) s = some [(s, x)] := by
  simp only [walkFrom, h]

theorem walkFrom_of_next (h : node s = some (x, some next)) :
    walkFrom node (rounds + 1) s = (walkFrom node rounds next).map ((s, x) :: ·) := by
  simp only [walkFrom, h]

theorem walkFrom_mono (hle : rounds ≤ more) (h : walkFrom node rounds s = some items) :
    walkFrom node more s = some items := by
  induction rounds generalizing s more items with
  | zero => exact absurd h.symm (some_ne_none items)
  | succ rounds ih =>
    obtain ⟨more, rfl⟩ : ∃ k, more = k + 1 := ⟨more - 1, by omega⟩
    rcases hnode : node s with _ | ⟨x, _ | next⟩
    · rw [walkFrom_of_none hnode] at h ⊢
      exact h
    · rw [walkFrom_of_last hnode] at h ⊢
      exact h
    · rw [walkFrom_of_next hnode] at h ⊢
      obtain ⟨tail, htail, hitems⟩ := map_eq_some_iff.mp h
      rw [ih (Nat.le_of_succ_le_succ hle) htail]
      exact congrArg some hitems

theorem Ends.unique (h : Ends node s items) (h' : Ends node s rest) : items = rest := by
  obtain ⟨r, hr⟩ := h
  obtain ⟨r', hr'⟩ := h'
  have hmax := walkFrom_mono (le_max_left r r') hr
  rw [walkFrom_mono (le_max_right r r') hr'] at hmax
  exact (some.inj hmax).symm

theorem ends_of_none (h : node s = none) : Ends node s items ↔ items = [] := by
  have hends : Ends node s [] := ⟨1, walkFrom_of_none h⟩
  exact ⟨fun h' => h'.unique hends, fun heq => heq ▸ hends⟩

theorem ends_of_last (h : node s = some (x, none)) : Ends node s items ↔ items = [(s, x)] := by
  have hends : Ends node s [(s, x)] := ⟨1, walkFrom_of_last h⟩
  exact ⟨fun h' => h'.unique hends, fun heq => heq ▸ hends⟩

theorem ends_of_next (h : node s = some (x, some next)) :
    Ends node s items ↔ ∃ rest, items = (s, x) :: rest ∧ Ends node next rest := by
  constructor
  · rintro ⟨_ | rounds, hrounds⟩
    · exact absurd hrounds.symm (some_ne_none items)
    · rw [walkFrom_of_next h] at hrounds
      obtain ⟨rest, hrest, rfl⟩ := map_eq_some_iff.mp hrounds
      exact ⟨rest, rfl, rounds, hrest⟩
  · rintro ⟨rest, rfl, rounds, hrest⟩
    refine ⟨rounds + 1, ?_⟩
    rw [walkFrom_of_next h, hrest]
    rfl

theorem ends_nil_iff : Ends node s [] ↔ node s = none := by
  refine ⟨fun hends => ?_, fun hnone => (ends_of_none hnone).mpr rfl⟩
  rcases hnode : node s with _ | ⟨x, _ | next⟩
  · rfl
  · exact absurd ((ends_of_last hnode).mp hends).symm (cons_ne_nil _ _)
  · obtain ⟨rest, hnil, -⟩ := (ends_of_next hnode).mp hends
    exact absurd hnil.symm (cons_ne_nil _ _)

theorem walkFrom_congr (h : ∀ t, Visits node s t → node' t = node t) :
    walkFrom node' rounds s = walkFrom node rounds s := by
  induction rounds generalizing s with
  | zero => rfl
  | succ rounds ih =>
    have hs : node' s = node s := h s ⟨[], rfl⟩
    rcases hnode : node s with _ | ⟨x, _ | next⟩
    · rw [walkFrom_of_none hnode, walkFrom_of_none (hs.trans hnode)]
    · rw [walkFrom_of_last hnode, walkFrom_of_last (hs.trans hnode)]
    · rw [walkFrom_of_next hnode, walkFrom_of_next (hs.trans hnode)]
      refine congrArg _ (ih fun t ht => h t ?_)
      obtain ⟨items, hpath⟩ := ht
      exact ⟨(s, x) :: items, rfl, next, hnode, hpath⟩

theorem Visits.eq_of_last (h : Visits node s t) (hs : node s = some (x, none)) : t = s := by
  obtain ⟨_ | ⟨⟨p, y⟩, items⟩, hpath⟩ := h
  · exact hpath.symm
  · obtain ⟨rfl, next, hnode, -⟩ := hpath
    rw [hs, some.injEq, Prod.mk.injEq] at hnode
    exact absurd hnode.2.symm (some_ne_none next)

theorem path_append :
    Path node s (items ++ rest) t ↔
      ∃ middle, Path node s items middle ∧ Path node middle rest t := by
  induction items generalizing s with
  | nil => exact ⟨fun h => ⟨s, rfl, h⟩, fun ⟨_, heq, h⟩ => heq ▸ h⟩
  | cons item items ih =>
    simp only [cons_append, Path, ih]
    constructor
    · rintro ⟨hs, next, hnode, middle, hitems, hrest⟩
      exact ⟨middle, ⟨hs, next, hnode, hitems⟩, hrest⟩
    · rintro ⟨middle, ⟨hs, next, hnode, hitems⟩, hrest⟩
      exact ⟨hs, next, hnode, middle, hitems, hrest⟩

theorem Path.congr (h : Path node s items t) (heq : ∀ p ∈ items.map Prod.fst, node' p = node p) :
    Path node' s items t := by
  induction items generalizing s with
  | nil => exact h
  | cons item items ih =>
    obtain ⟨hs, next, hnode, hrest⟩ := h
    rw [map_cons, forall_mem_cons] at heq
    exact ⟨hs, next, heq.1.trans hnode, ih hrest heq.2⟩

/-- There is one way to go: a longer path goes on where the other one ends. -/
theorem Path.goes_on (h : Path node s items t) {u : σ} (h' : Path node s rest u)
    (hle : items.length ≤ rest.length) :
    ∃ more, Path node t more u ∧ rest.length = items.length + more.length := by
  induction items generalizing s rest with
  | nil =>
    obtain rfl : s = t := h
    exact ⟨rest, h', (Nat.zero_add _).symm⟩
  | cons item items ih =>
    cases rest with
    | nil => exact absurd hle (Nat.not_succ_le_zero _)
    | cons item' rest =>
      obtain ⟨rfl, next, hnode, hrest⟩ := h
      obtain ⟨heq, next', hnode', hrest'⟩ := h'
      rw [← heq, hnode, some.injEq, Prod.mk.injEq, some.injEq] at hnode'
      obtain ⟨-, rfl⟩ := hnode'
      obtain ⟨more, hmore, hlength⟩ := ih hrest hrest' (Nat.le_of_succ_le_succ hle)
      refine ⟨more, hmore, ?_⟩
      rw [length_cons, length_cons]
      omega

theorem Path.relink (h : Path node s items t)
    (hlinks : ∀ p x next, node p = some (x, some next) → ∃ x', node' p = some (x', some next)) :
    ∃ items', items'.length = items.length ∧ Path node' s items' t := by
  induction items generalizing s with
  | nil => exact ⟨[], rfl, h⟩
  | cons item items ih =>
    obtain ⟨rfl, next, hnode, hrest⟩ := h
    obtain ⟨x', hnode'⟩ := hlinks _ _ _ hnode
    obtain ⟨items', hlength, hpath⟩ := ih hrest
    exact ⟨(item.1, x') :: items', congrArg (· + 1) hlength, rfl, next, hnode', hpath⟩

theorem Path.ends_iff (h : Path node s items t) {all : List (σ × α)} :
    Ends node s all ↔ ∃ rest, all = items ++ rest ∧ Ends node t rest := by
  induction items generalizing s all with
  | nil =>
    obtain rfl : s = t := h
    simp only [nil_append, exists_eq_left']
  | cons item items ih =>
    obtain ⟨rfl, next, hnode, hrest⟩ := h
    rw [ends_of_next hnode]
    constructor
    · rintro ⟨tail, rfl, htail⟩
      obtain ⟨rest, rfl, hends⟩ := (ih hrest).mp htail
      exact ⟨rest, rfl, hends⟩
    · rintro ⟨rest, rfl, hends⟩
      exact ⟨items ++ rest, rfl, (ih hrest).mpr ⟨rest, rfl, hends⟩⟩

theorem Ends.exists_node (h : Ends node s items) :
    ∀ item ∈ items, ∃ next, node item.1 = some (item.2, next) := by
  obtain ⟨rounds, hrounds⟩ := h
  induction rounds generalizing s items with
  | zero => exact absurd hrounds.symm (some_ne_none items)
  | succ rounds ih =>
    rcases hnode : node s with _ | ⟨x, _ | next⟩
    · rw [walkFrom_of_none hnode] at hrounds
      obtain rfl := some.inj hrounds
      exact forall_mem_nil _
    · rw [walkFrom_of_last hnode] at hrounds
      obtain rfl := some.inj hrounds
      exact forall_mem_singleton.mpr ⟨none, hnode⟩
    · rw [walkFrom_of_next hnode] at hrounds
      obtain ⟨rest, hrest, rfl⟩ := map_eq_some_iff.mp hrounds
      exact forall_mem_cons.mpr ⟨⟨some next, hnode⟩, ih hrest⟩

end Walk

section Several

variable {ι β : Type*} {starts : List ι}

universe u

theorem mapM_eq_pure {β : Type u} {m : Type u → Type u} [Monad m] [LawfulMonad m] {f : ι → m β}
    {g : ι → β} (h : ∀ i ∈ starts, f i = pure (g i)) : starts.mapM f = pure (starts.map g) := by
  induction starts with
  | nil => rw [mapM_nil, map_nil]
  | cons i starts ih =>
    rw [forall_mem_cons] at h
    rw [mapM_cons, h.1, ih h.2, pure_bind, pure_bind, map_cons]

theorem eq_map_of_mapM [Inhabited β] {f : ι → Option β} {results : List β}
    (h : starts.mapM f = some results) :
    (∀ i ∈ starts, f i = some ((f i).getD default)) ∧ results = starts.map fun i =>
      (f i).getD default := by
  induction starts generalizing results with
  | nil => exact ⟨forall_mem_nil _, (some.inj h).symm⟩
  | cons i starts ih =>
    simp only [mapM_cons, Option.pure_def, Option.bind_eq_bind, Option.bind_eq_some_iff] at h
    obtain ⟨b, hb, rest, hrest, heq⟩ := h
    obtain ⟨hsome, rfl⟩ := ih hrest
    refine ⟨forall_mem_cons.mpr ⟨?_, hsome⟩, ?_⟩
    · rw [hb]
      rfl
    · rw [← some.inj heq, map_cons, hb]
      rfl

/-- The walks end under a common limit if each of them ends under some limit. -/
theorem exists_mapM_iff [Inhabited β] {f : Nat → ι → Option β}
    (hmono : ∀ {rounds more i b}, rounds ≤ more → f rounds i = some b → f more i = some b)
    (starts : List ι) (results : List β) :
    (∃ rounds, starts.mapM (f rounds) = some results) ↔
      ∃ g : ι → β, (∀ i ∈ starts, ∃ rounds, f rounds i = some (g i)) ∧ results = starts.map g := by
  constructor
  · rintro ⟨rounds, h⟩
    obtain ⟨hsome, hresults⟩ := eq_map_of_mapM h
    exact ⟨_, fun i hi => ⟨rounds, hsome i hi⟩, hresults⟩
  · rintro ⟨g, hends, rfl⟩
    have hlimit : ∃ rounds, ∀ i ∈ starts, f rounds i = some (g i) := by
      induction starts with
      | nil => exact ⟨0, forall_mem_nil _⟩
      | cons i starts ih =>
        rw [forall_mem_cons] at hends
        obtain ⟨r, hr⟩ := hends.1
        obtain ⟨r', hr'⟩ := ih hends.2
        refine ⟨max r r', forall_mem_cons.mpr ⟨hmono (le_max_left r r') hr, fun j hj => ?_⟩⟩
        exact hmono (le_max_right r r') (hr' j hj)
    obtain ⟨rounds, hrounds⟩ := hlimit
    exact ⟨rounds, mapM_eq_pure hrounds⟩

end Several

end HuyaOS.Lib
