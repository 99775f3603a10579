import Mathlib.Data.Fintype.Card
import Mathlib.Data.List.Nodup
import Mathlib.Order.Filter.AtTopBot.Basic
import Mathlib.Tactic

/-!
Nodes with entries, some of which lead to further nodes. A traversal visits the
entries of a node in order and goes down before it takes an entry.

If no entry leads to the root and no two entries lead to the same node, what can be
reached from the root is a tree. The traversal then ends, and takes every entry once.
-/

namespace HuyaOS.Lib

open List Relation.TransGen

/-- Every entry knows its node. -/
structure Entries (N E : Type*) where
  entries : N → List E
  child : E → Option N
  node : E → N
  node_eq : ∀ {n e}, e ∈ entries n → node e = n
  nodup : ∀ n, (entries n).Nodup

namespace Entries

variable {N E : Type*} (g : Entries N E) {e : E} {root n : N} {depth : Nat} {out : List E}

def Leads (n m : N) : Prop := ∃ e ∈ g.entries n, g.child e = some m

def Reaches : N → N → Prop := Relation.ReflTransGen g.Leads

structure IsTree (root : N) : Prop where
  root_free : ∀ {n e}, g.Reaches root n → e ∈ g.entries n → g.child e ≠ some root
  unique : ∀ {n n' e e' m}, g.Reaches root n → g.Reaches root n' → e ∈ g.entries n →
    e' ∈ g.entries n' →
    g.child e = some m → g.child e' = some m → e = e'

namespace IsTree

variable {g} {root : N} (h : g.IsTree root) {n m m' x : N}
include h

theorem parent_unique {n' : N} (hn : g.Reaches root n) (hn' : g.Reaches root n') (hm : g.Leads n m)
    (hm' : g.Leads n' m) : n = n' := by
  obtain ⟨e, he, hchild⟩ := hm
  obtain ⟨e', he', hchild'⟩ := hm'
  have heq := h.unique hn hn' he he' hchild hchild'
  rw [← g.node_eq he, heq, g.node_eq he']

theorem acyclic (hn : g.Reaches root n) : ¬Relation.TransGen g.Leads n n := by
  induction hn with
  | refl =>
    intro hcycle
    obtain ⟨q, hq, e, he, hchild⟩ := tail'_iff.mp hcycle
    exact h.root_free hq he hchild
  | @tail p n hp hlead ih =>
    intro hcycle
    -- the cycle comes back through the only parent
    obtain ⟨q, hq, hlead'⟩ := tail'_iff.mp hcycle
    have hqroot : g.Reaches root q := (hp.tail hlead).trans hq
    obtain rfl := h.parent_unique hp hqroot hlead hlead'
    exact ih (head' hlead hq)

theorem comparable (hm : g.Reaches root m) (hm' : g.Reaches root m') (hx : g.Reaches m x)
    (hx' : g.Reaches m' x) : g.Reaches m m' ∨ g.Reaches m' m := by
  induction hx with
  | refl => exact .inr hx'
  | @tail p x hp hlead ih =>
    rcases Relation.ReflTransGen.cases_tail hx' with rfl | ⟨p', hp', hlead'⟩
    · exact .inl (hp.tail hlead)
    · obtain rfl := h.parent_unique (hm.trans hp) (hm'.trans hp') hlead hlead'
      exact ih hp'

theorem not_reaches_parent (hn : g.Reaches root n) (hlead : g.Leads n m) : ¬g.Reaches m n :=
  fun hback =>
  h.acyclic hn (head' hlead hback)

theorem eq_of_reaches_sibling (hn : g.Reaches root n) (hm : g.Leads n m) (hm' : g.Leads n m')
    (hreach : g.Reaches m m') : m' = m := by
  rcases Relation.ReflTransGen.cases_tail hreach with heq | ⟨q, hq, hlead⟩
  · exact heq
  · obtain rfl := h.parent_unique ((hn.tail hm).trans hq) hn hlead hm'
    exact absurd hq (h.not_reaches_parent hn hm)

theorem disjoint {e e' : E} (hn : g.Reaches root n) (he : e ∈ g.entries n) (he' : e' ∈ g.entries n)
    (hm : g.child e = some m) (hm' : g.child e' = some m') (hx : g.Reaches m x)
    (hx' : g.Reaches m' x) : e = e' := by
  have hlead : g.Leads n m := ⟨e, he, hm⟩
  have hlead' : g.Leads n m' := ⟨e', he', hm'⟩
  have heq : m' = m := by
    rcases h.comparable (hn.tail hlead) (hn.tail hlead') hx hx' with hreach | hreach
    · exact h.eq_of_reaches_sibling hn hlead hlead' hreach
    · exact (h.eq_of_reaches_sibling hn hlead' hlead hreach).symm
  exact h.unique hn hn he he' hm (heq ▸ hm')

end IsTree

/-- What is taken below an entry. -/
def down (visit : N → Option (List E)) (e : E) : Option (List E) := (g.child e).elim (some []) visit

/-- The entries of one node, each after what lies below it. -/
def collect (visit : N → Option (List E)) : List E → Option (List E)
  | [] => some []
  | e :: es => do
      let below ← g.down visit e
      let rest ← collect visit es
      return below ++ e :: rest

/-- The traversal, `none` when it goes deeper than `depth`. -/
def traverse : Nat → N → Option (List E)
  | 0, _ => none
  | depth + 1, n => g.collect (traverse depth) (g.entries n)

variable {g} {visit : N → Option (List E)} {es out : List E}

theorem collect_cons : g.collect visit (e :: es) = some out ↔
    ∃ below rest, g.down visit e = some below ∧ g.collect visit es = some rest ∧
      below ++ e :: rest = out := by
  simp [collect, Option.bind_eq_some_iff]

theorem exists_collect (h : ∀ e ∈ es, ∃ below, g.down visit e = some below) :
    ∃ out, g.collect visit es = some out := by
  induction es with
  | nil => exact ⟨[], rfl⟩
  | cons e es ih =>
    obtain ⟨⟨below, hbelow⟩, hrest⟩ := forall_mem_cons.mp h
    obtain ⟨rest, hout⟩ := ih hrest
    exact ⟨_, collect_cons.mpr ⟨below, rest, hbelow, hout, rfl⟩⟩

theorem exists_down_of_collect (h : g.collect visit es = some out) :
    ∀ e ∈ es, ∃ below, g.down visit e = some below := by
  induction es generalizing out with
  | nil => exact fun e he => absurd he not_mem_nil
  | cons e es ih =>
    obtain ⟨below, rest, hbelow, hrest, -⟩ := collect_cons.mp h
    exact forall_mem_cons.mpr ⟨⟨below, hbelow⟩, ih hrest⟩

theorem mem_collect (h : g.collect visit es = some out) (x : E) :
    x ∈ out ↔ x ∈ es ∨ ∃ e ∈ es, ∃ below, g.down visit e = some below ∧ x ∈ below := by
  induction es generalizing out with
  | nil =>
    cases h
    simp
  | cons e es ih =>
    obtain ⟨below, rest, hbelow, hrest, rfl⟩ := collect_cons.mp h
    simp only [mem_append, mem_cons, ih hrest, exists_eq_or_imp, hbelow, Option.some.injEq,
      exists_eq_left']
    tauto

theorem nodup_collect (hes : es.Nodup)
    (hnodup : ∀ e ∈ es, ∀ below, g.down visit e = some below → below.Nodup ∧ ∀ x ∈ below, x ∉ es)
    (hdisjoint : ∀ e ∈ es, ∀ e' ∈ es, ∀ below below' x, g.down visit e = some below →
        g.down visit e' = some below' → x ∈ below → x ∈ below' → e = e')
    (h : g.collect visit es = some out) : out.Nodup := by
  induction es generalizing out with
  | nil =>
    cases h
    exact nodup_nil
  | cons e es ih =>
    obtain ⟨below, rest, hbelow, hrest, rfl⟩ := collect_cons.mp h
    obtain ⟨hfresh, hes⟩ := nodup_cons.mp hes
    have hrestNodup : rest.Nodup := by
      refine ih hes (fun e' he' sub hsub => ?_) (fun e₁ he₁ e₂ he₂ => ?_) hrest
      · obtain ⟨hsubNodup, hout⟩ := hnodup e' (mem_cons_of_mem e he') sub hsub
        exact ⟨hsubNodup, fun x hx hmem => hout x hx (mem_cons_of_mem e hmem)⟩
      · exact hdisjoint e₁ (mem_cons_of_mem e he₁) e₂ (mem_cons_of_mem e he₂)
    obtain ⟨hbelowNodup, hout⟩ := hnodup e mem_cons_self below hbelow
    -- an entry of the rest is an entry of the node or lies below another one
    have hrestMem : ∀ x ∈ rest, x ∉ below ∧ x ≠ e := by
      intro x hx
      rcases (mem_collect hrest x).mp hx with hmem | ⟨e', he', sub, hsub, hxsub⟩
      · exact ⟨fun hxbelow => hout x hxbelow (mem_cons_of_mem e hmem),
          fun heq => hfresh (heq ▸ hmem)⟩
      · have he'mem := mem_cons_of_mem e he'
        refine ⟨fun hxbelow => ?_, fun heq => ?_⟩
        · have heq := hdisjoint e mem_cons_self e' he'mem below sub x hbelow hsub hxbelow hxsub
          exact hfresh (heq ▸ he')
        · exact (hnodup e' he'mem sub hsub).2 x hxsub (heq ▸ mem_cons_self)
    refine Nodup.append hbelowNodup (nodup_cons.mpr ⟨fun he => (hrestMem e he).2 rfl, hrestNodup⟩)
      ?_
    intro x hxbelow hx
    rcases mem_cons.mp hx with rfl | hx
    · exact hout x hxbelow mem_cons_self
    · exact (hrestMem x hx).1 hxbelow

variable (g) in
/-- Every entry of a node that can be reached from `n`, once. -/
structure Enumerates (n : N) (out : List E) : Prop where
  nodup : out.Nodup
  mem_iff : ∀ e, e ∈ out ↔ g.Reaches n (g.node e) ∧ e ∈ g.entries (g.node e)

theorem down_eq {below : List E} (h : g.down visit e = some below) :
    (g.child e = none ∧ below = []) ∨ ∃ m, g.child e = some m ∧ visit m = some below := by
  unfold down at h
  cases hchild : g.child e with
  | none =>
    rw [hchild] at h
    exact .inl ⟨rfl, (Option.some.inj h).symm⟩
  | some m =>
    rw [hchild] at h
    exact .inr ⟨m, rfl, h⟩

theorem traverse_enumerates (htree : g.IsTree root) (hn : g.Reaches root n)
    (h : g.traverse depth n = some out) : g.Enumerates n out := by
  induction depth generalizing n out with
  | zero => cases h
  | succ depth ih =>
    -- what lies below an entry enumerates the node that it leads to
    have hbelow : ∀ e ∈ g.entries n, ∀ below, g.down (g.traverse depth) e = some below →
        below.Nodup ∧ ∀ x ∈ below, ∃ m, g.child e = some m ∧ g.Reaches m (g.node x) ∧
          x ∈ g.entries (g.node x) := by
      intro e he below hdown
      rcases down_eq hdown with ⟨-, rfl⟩ | ⟨m, hchild, hvisit⟩
      · exact ⟨nodup_nil, fun x hx => absurd hx not_mem_nil⟩
      · have henum := ih (hn.tail ⟨e, he, hchild⟩) hvisit
        exact ⟨henum.nodup, fun x hx => ⟨m, hchild, (henum.mem_iff x).mp hx⟩⟩
    constructor
    · refine nodup_collect (g.nodup n) (fun e he below hdown => ?_) ?_ h
      · refine ⟨(hbelow e he below hdown).1, fun x hx hmem => ?_⟩
        obtain ⟨m, hchild, hreach, -⟩ := (hbelow e he below hdown).2 x hx
        rw [g.node_eq hmem] at hreach
        exact htree.not_reaches_parent hn ⟨e, he, hchild⟩ hreach
      · intro e he e' he' below below' x hdown hdown' hx hx'
        obtain ⟨m, hchild, hreach, -⟩ := (hbelow e he below hdown).2 x hx
        obtain ⟨m', hchild', hreach', -⟩ := (hbelow e' he' below' hdown').2 x hx'
        exact htree.disjoint hn he he' hchild hchild' hreach hreach'
    · intro x
      rw [mem_collect h x]
      constructor
      · rintro (hmem | ⟨e, he, below, hdown, hx⟩)
        · rw [g.node_eq hmem]
          exact ⟨.refl, hmem⟩
        · obtain ⟨m, hchild, hreach, hmem⟩ := (hbelow e he below hdown).2 x hx
          exact ⟨.head ⟨e, he, hchild⟩ hreach, hmem⟩
      · rintro ⟨hreach, hmem⟩
        rcases Relation.ReflTransGen.cases_head hreach with heq | ⟨m, ⟨e, he, hchild⟩, hrest⟩
        · exact .inl (heq ▸ hmem)
        · obtain ⟨below, hdown⟩ := exists_down_of_collect h e he
          have hvisit : g.traverse depth m = some below := by
            rw [down, hchild] at hdown
            exact hdown
          exact .inr ⟨e, he, below, hdown,
            ((ih (hn.tail ⟨e, he, hchild⟩) hvisit).mem_iff x).mpr ⟨hrest, hmem⟩⟩

theorem mem_entries_of_traverse (h : g.traverse depth n = some out) :
    ∀ e ∈ out, e ∈ g.entries (g.node e) := by
  induction depth generalizing n out with
  | zero => cases h
  | succ depth ih =>
    intro x hx
    rcases (mem_collect h x).mp hx with hmem | ⟨e, he, below, hdown, hxbelow⟩
    · rwa [g.node_eq hmem]
    · rcases down_eq hdown with ⟨-, rfl⟩ | ⟨m, -, hvisit⟩
      · exact absurd hxbelow not_mem_nil
      · exact ih hvisit x hxbelow

/-- Below the root the traversal ends, at every depth from some depth on. -/
theorem exists_traverse [Finite N] (htree : g.IsTree root) :
    ∀ᶠ depth in Filter.atTop, ∃ out, g.traverse depth root = some out := by
  let below (n m : { n : N // g.Reaches root n }) : Prop := Relation.TransGen g.Leads m.1 n.1
  have : Std.Irrefl below := ⟨fun n => htree.acyclic n.2⟩
  have hwf : WellFounded below := Finite.wellFounded_of_trans_of_irrefl below
  have hall : ∀ n : { n : N // g.Reaches root n },
      ∀ᶠ depth in Filter.atTop, ∃ out, g.traverse depth n.1 = some out := by
    intro n
    induction n using hwf.induction with
    | _ n ih =>
      have hdown : ∀ e ∈ g.entries n.1, ∀ᶠ depth in Filter.atTop, ∃ out,
          g.down (g.traverse depth) e = some out := by
        intro e he
        unfold down
        cases hchild : g.child e with
        | none => exact .of_forall fun _ => ⟨[], rfl⟩
        | some m =>
          have hlead : g.Leads n.1 m := ⟨e, he, hchild⟩
          exact ih ⟨m, n.2.tail hlead⟩ (.single hlead)
      have hcollect := (Filter.eventually_all_finite (finite_toSet (g.entries n.1))).mpr hdown
      obtain ⟨depth₀, hdepth₀⟩ := Filter.eventually_atTop.mp hcollect
      refine Filter.eventually_atTop.mpr ⟨depth₀ + 1, fun depth hdepth => ?_⟩
      obtain ⟨depth, rfl⟩ := Nat.exists_eq_add_of_le' hdepth
      exact exists_collect (hdepth₀ (depth + depth₀) (Nat.le_add_left _ _))
  exact hall ⟨root, .refl⟩

end Entries

end HuyaOS.Lib
