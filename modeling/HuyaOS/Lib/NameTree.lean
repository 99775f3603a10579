import Mathlib.Logic.Relation
import Mathlib.Tactic

/-!
Trees of named nodes. `kids` lists the children of a node in the order in which
they are searched. In a tree no two siblings have the same name, every node has at
most one parent, and the root has none. Then a path of names leads to at most one
node and only one path leads to a node, so adding or removing a leaf changes what
one path leads to and nothing else.
-/

namespace HuyaOS.Lib

open Function List Option

variable {α ν : Type*} [DecidableEq ν]

def child (kids : α → List α) (name : α → ν) (a : α) (n : ν) : Option α :=
  (kids a).find? fun c => name c = n

def follow (child : α → ν → Option α) : α → List ν → Option α
  | a, [] => some a
  | a, n :: ns => (child a n).bind fun c => follow child c ns

structure IsTree (kids : α → List α) (name : α → ν) (root : α) : Prop where
  distinct : ∀ a, ((kids a).map name).Nodup
  parent_unique : ∀ {a b c}, c ∈ kids a → c ∈ kids b → a = b
  root_notMem : ∀ a, root ∉ kids a
  /-- There are no circles. -/
  ranked : ∃ height : α → Nat, ∀ a, ∀ c ∈ kids a, height c < height a

section Follow

variable {step step' : α → ν → Option α} {a : α}

omit [DecidableEq ν] in
theorem follow_append (ns ms : List ν) :
    follow step a (ns ++ ms) = (follow step a ns).bind fun b => follow step b ms := by
  induction ns generalizing a with
  | nil => rfl
  | cons n ns ih =>
    rw [cons_append, follow, follow, bind_assoc]
    congr 1
    funext c
    exact ih

omit [DecidableEq ν] in
theorem follow_concat (ns : List ν) (n : ν) :
    follow step a (ns ++ [n]) = (follow step a ns).bind fun b => step b n := by
  rw [follow_append]
  congr 1
  funext b
  exact bind_fun_some (step b n)

end Follow

namespace IsTree

variable {kids kids' : α → List α} {name : α → ν} {root a c d : α} {n : ν}

theorem child_eq_some_iff (h : IsTree kids name root) :
    child kids name a n = some c ↔ c ∈ kids a ∧ name c = n := by
  unfold child
  constructor
  · intro hc
    exact ⟨mem_of_find?_eq_some hc, by simpa using find?_some hc⟩
  · rintro ⟨hmem, rfl⟩
    obtain ⟨c', hc'⟩ : ∃ c', (kids a).find? (fun b => name b = name c) = some c' := by
      rw [← isSome_iff_exists, find?_isSome]
      exact ⟨c, hmem, by simp⟩
    have hname : name c' = name c := by simpa using find?_some hc'
    rw [hc', inj_on_of_nodup_map (h.distinct a) (mem_of_find?_eq_some hc') hmem hname]

theorem child_eq_none_iff : child kids name a n = none ↔ n ∉ (kids a).map name := by
  unfold child
  simp

section

variable (h : IsTree kids name root) {ns : List ν}

include h

/-- Only one path leads to a node. -/
theorem follow_injective {ms : List ν} (hns : follow (child kids name) root ns = some a)
    (hms : follow (child kids name) root ms = some a) : ns = ms := by
  -- along the last names of both paths
  induction ns using reverseRecOn generalizing a ms with
  | nil =>
    rcases eq_nil_or_concat' ms with rfl | ⟨ms, m, rfl⟩
    · rfl
    · rw [follow_concat, bind_eq_some_iff] at hms
      obtain ⟨b, -, hb⟩ := hms
      cases hns
      exact absurd (h.child_eq_some_iff.mp hb).1 (h.root_notMem b)
  | append_singleton ns n ih =>
    rw [follow_concat, bind_eq_some_iff] at hns
    obtain ⟨b, hb, hlast⟩ := hns
    obtain ⟨hmem, rfl⟩ := h.child_eq_some_iff.mp hlast
    rcases eq_nil_or_concat' ms with rfl | ⟨ms, m, rfl⟩
    · cases hms
      exact absurd hmem (h.root_notMem b)
    · rw [follow_concat, bind_eq_some_iff] at hms
      obtain ⟨b', hb', hlast'⟩ := hms
      obtain ⟨hmem', rfl⟩ := h.child_eq_some_iff.mp hlast'
      cases h.parent_unique hmem hmem'
      rw [ih hb hb']

/-- What a path leads to after the child of one node with one name was exchanged,
where the old and the new child are leaves. -/
theorem follow_exchange {step : α → ν → Option α}
    (hother : ∀ b m, ¬(b = d ∧ m = n) → step b m = child kids name b m)
    (hleaf : ∀ c, child kids name d n = some c → ∀ m, child kids name c m = none)
    (hleaf' : ∀ c, step d n = some c → ∀ m, step c m = none)
    (hd : follow (child kids name) root ns = some d) (ms : List ν) :
    follow step root ms = if ms = ns ++ [n] then step d n
      else follow (child kids name) root ms := by
  induction ms using reverseRecOn with
  | nil => exact (if_neg (by simp)).symm
  | append_singleton ms m ih =>
    rw [follow_concat, follow_concat, ih]
    by_cases hend : ms = ns ++ [n]
    · -- behind the exchanged leaf there is nothing
      have hlonger : ¬ms ++ [m] = ns ++ [n] := by
        intro heq
        have hlength := congrArg length heq
        rw [hend] at hlength
        simp at hlength
      rw [if_pos hend, if_neg hlonger, hend, follow_concat, hd]
      rw [bind_eq_none_iff.mpr fun c hc => hleaf' c hc m]
      exact (bind_eq_none_iff.mpr fun c hc => hleaf c hc m).symm
    · rw [if_neg hend]
      cases hms : follow (child kids name) root ms with
      | none =>
        rw [if_neg, bind_none, bind_none]
        intro heq
        rw [(append_inj' heq rfl).1, hd] at hms
        cases hms
      | some b =>
        rw [bind_some, bind_some]
        by_cases hat : b = d ∧ m = n
        · obtain ⟨rfl, rfl⟩ := hat
          rw [if_pos (by rw [h.follow_injective hms hd])]
        · rw [hother b m hat, if_neg]
          intro heq
          obtain ⟨rfl, hm⟩ := append_inj' heq rfl
          exact hat ⟨some.inj (hms.symm.trans hd), singleton_inj.mp hm⟩

theorem follow_mem (hns : follow (child kids name) root ns = some a) :
    a = root ∨ ∃ b, a ∈ kids b := by
  rcases eq_nil_or_concat' ns with rfl | ⟨ns, n, rfl⟩
  · exact .inl (some.inj hns).symm
  · rw [follow_concat, bind_eq_some_iff] at hns
    obtain ⟨b, -, hb⟩ := hns
    exact .inr ⟨b, (h.child_eq_some_iff.mp hb).1⟩

theorem congr_name {name' : α → ν} (hname : ∀ a, ∀ c ∈ kids a, name' c = name c) :
    IsTree kids name' root ∧ child kids name' = child kids name := by
  refine ⟨⟨fun a => ?_, h.parent_unique, h.root_notMem, h.ranked⟩, ?_⟩
  · rw [map_congr_left (hname a)]
    exact h.distinct a
  · funext a n
    apply find?_congr
    intro c hc
    rw [hname a c hc]

omit [DecidableEq ν] in
theorem mono (hsub : ∀ a, (kids' a).Sublist (kids a)) : IsTree kids' name root where
  distinct a := (h.distinct a).sublist ((hsub a).map name)
  parent_unique ha hb := h.parent_unique ((hsub _).subset ha) ((hsub _).subset hb)
  root_notMem a hmem := h.root_notMem a ((hsub a).subset hmem)
  ranked := by
    obtain ⟨height, hheight⟩ := h.ranked
    exact ⟨height, fun a c hc => hheight a c ((hsub a).subset hc)⟩

end

section Update

variable [DecidableEq α]

theorem mem_update_append {b x : α} :
    x ∈ update kids d (kids d ++ [c]) b ↔ x ∈ kids b ∨ b = d ∧ x = c := by
  rw [update_apply]
  split
  · rename_i heq
    rw [heq, mem_append, mem_singleton, and_iff_right rfl]
  · rename_i hne
    exact ⟨.inl, fun h => h.resolve_right fun h => hne h.1⟩

omit [DecidableEq ν] in
theorem insert (h : IsTree kids name root) (hne : d ≠ c) (hroot : c ≠ root)
    (horphan : ∀ a, c ∉ kids a) (hleaf : kids c = []) (hname : name c ∉ (kids d).map name) :
    IsTree (update kids d (kids d ++ [c])) name root where
  distinct a := by
    rw [update_apply]
    split
    · rw [map_append]
      refine Nodup.append (h.distinct d) (nodup_singleton _) ?_
      simpa using hname
    · exact h.distinct a
  parent_unique hx hx' := by
    rw [mem_update_append] at hx hx'
    rcases hx with hx | ⟨rfl, rfl⟩ <;> rcases hx' with hx' | ⟨rfl, hx'⟩
    · exact h.parent_unique hx hx'
    · exact absurd (hx' ▸ hx) (horphan _)
    · exact absurd hx' (horphan _)
    · rfl
  root_notMem a hmem := by
    rw [mem_update_append] at hmem
    exact hmem.elim (h.root_notMem a) fun hmem => hroot hmem.2.symm
  ranked := by
    obtain ⟨height, hheight⟩ := h.ranked
    refine ⟨fun x => if x = c then 0 else height x + 1, fun a x hx => ?_⟩
    rw [mem_update_append] at hx
    rcases hx with hx | ⟨rfl, rfl⟩
    · have hxc : x ≠ c := fun heq => horphan a (heq ▸ hx)
      have hac : a ≠ c := by
        rintro rfl
        rw [hleaf] at hx
        cases hx
      dsimp only
      rw [if_neg hxc, if_neg hac]
      exact Nat.succ_lt_succ (hheight a x hx)
    · dsimp only
      rw [if_pos rfl, if_neg hne]
      exact Nat.succ_pos _

theorem child_insert (hname : name c ∉ (kids d).map name) (b : α) (m : ν) :
    child (update kids d (kids d ++ [c])) name b m =
      if b = d ∧ m = name c then some c else child kids name b m := by
  unfold child
  rw [update_apply]
  by_cases hb : b = d
  · subst hb
    rw [if_pos rfl, find?_append]
    by_cases hm : m = name c
    · subst hm
      have hnone := child_eq_none_iff.mpr hname
      unfold child at hnone
      rw [hnone]
      simp
    · rw [if_neg fun h => hm h.2]
      simp [Ne.symm hm]
  · rw [if_neg hb, if_neg fun h => hb h.1]

omit [DecidableEq ν] in
theorem mem_update_erase (h : IsTree kids name root) (hc : c ∈ kids d) {b x : α} :
    x ∈ update kids d ((kids d).erase c) b ↔ x ∈ kids b ∧ x ≠ c := by
  rw [update_apply]
  split
  · rename_i heq
    rw [heq, ((h.distinct d).of_map name).mem_erase_iff, and_comm]
  · rename_i hne
    refine ⟨fun hx => ⟨hx, ?_⟩, And.left⟩
    rintro rfl
    exact hne (h.parent_unique hx hc)

omit [DecidableEq ν] in
theorem erase (h : IsTree kids name root) (d c : α) :
    IsTree (update kids d ((kids d).erase c)) name root := by
  apply h.mono
  intro a
  rw [update_apply]
  split
  · rename_i heq
    rw [heq]
    exact erase_sublist
  · exact Sublist.refl _

theorem child_erase (h : IsTree kids name root) (hc : c ∈ kids d) (b : α) (m : ν) :
    child (update kids d ((kids d).erase c)) name b m =
      if b = d ∧ m = name c then none else child kids name b m := by
  apply ext
  intro x
  rw [(h.erase d c).child_eq_some_iff, h.mem_update_erase hc]
  split
  · rename_i hat
    obtain ⟨rfl, rfl⟩ := hat
    refine iff_of_false ?_ nofun
    rintro ⟨⟨hmem, hne⟩, hname⟩
    exact hne (inj_on_of_nodup_map (h.distinct b) hmem hc hname)
  · rename_i hother
    rw [h.child_eq_some_iff]
    refine ⟨fun hx => ⟨hx.1.1, hx.2⟩, fun hx => ⟨⟨hx.1, ?_⟩, hx.2⟩⟩
    rintro rfl
    exact hother ⟨h.parent_unique hx.1 hc, hx.2.symm⟩

variable {ns : List ν} (hd : follow (child kids name) root ns = some d)

include hd

theorem follow_insert (h : IsTree kids name root) (hne : d ≠ c) (hleaf : kids c = [])
    (hname : name c ∉ (kids d).map name) (ms : List ν) :
    follow (child (update kids d (kids d ++ [c])) name) root ms =
      if ms = ns ++ [name c] then some c else follow (child kids name) root ms := by
  have hat : child (update kids d (kids d ++ [c])) name d (name c) = some c :=
    (child_insert hname _ _).trans (if_pos ⟨rfl, rfl⟩)
  rw [← hat]
  refine h.follow_exchange (fun b m hother => ?_) (fun b hb => ?_) (fun b hb m => ?_) hd ms
  · rw [child_insert hname, if_neg hother]
  · cases (child_eq_none_iff.mpr hname).symm.trans hb
  · cases hat.symm.trans hb
    rw [child_insert hname, if_neg fun hat => hne hat.1.symm, child_eq_none_iff, hleaf]
    exact not_mem_nil

theorem follow_erase (h : IsTree kids name root) (hc : c ∈ kids d) (hleaf : kids c = [])
    (ms : List ν) :
    follow (child (update kids d ((kids d).erase c)) name) root ms =
      if ms = ns ++ [name c] then none else follow (child kids name) root ms := by
  have hat : child (update kids d ((kids d).erase c)) name d (name c) = none :=
    (h.child_erase hc _ _).trans (if_pos ⟨rfl, rfl⟩)
  rw [← hat]
  refine h.follow_exchange (fun b m hother => ?_) (fun b hb m => ?_) (fun b hb => ?_) hd ms
  · rw [h.child_erase hc, if_neg hother]
  · cases (h.child_eq_some_iff.mpr ⟨hc, rfl⟩).symm.trans hb
    rw [child_eq_none_iff, hleaf]
    exact not_mem_nil
  · cases hat.symm.trans hb

end Update

/-- `x` is `a` or lies below it. -/
def Below (kids : α → List α) : α → α → Prop := Relation.ReflTransGen fun a c => c ∈ kids a

omit [DecidableEq ν] in
theorem not_below_of_sibling (h : IsTree kids name root) {c' x : α} (hc : c ∈ kids a)
    (hc' : c' ∈ kids a) (hne : c ≠ c') (hx : Below kids c x) : ¬Below kids c' x := by
  obtain ⟨height, hheight⟩ := h.ranked
  have hle : ∀ {b y}, Below kids b y → height y ≤ height b := by
    intro b y hy
    induction hy with
    | refl => exact le_rfl
    | tail _ hchild ih => exact (hheight _ _ hchild).le.trans ih
  -- otherwise one sibling would lie below the other, and so would their parent
  have hnot : ∀ {b b'}, b ∈ kids a → b' ∈ kids a → b ≠ b' → ¬Below kids b b' := by
    intro b b' hb hb' hne hbelow
    rcases Relation.ReflTransGen.cases_tail hbelow with heq | ⟨p, hp, hchild⟩
    · exact hne heq.symm
    · cases h.parent_unique hchild hb'
      exact absurd (hle hp) (not_le.mpr (hheight a b hb))
  intro hx'
  have hunique : Relator.RightUnique (swap fun a c => c ∈ kids a) := fun _ _ _ => h.parent_unique
  have hup := Relation.reflTransGen_swap.mpr hx
  have hup' := Relation.reflTransGen_swap.mpr hx'
  rcases Relation.ReflTransGen.total_of_right_unique hunique hup hup' with hbelow | hbelow
  · exact hnot hc' hc hne.symm (Relation.reflTransGen_swap.mp hbelow)
  · exact hnot hc hc' hne (Relation.reflTransGen_swap.mp hbelow)

end IsTree

end HuyaOS.Lib
