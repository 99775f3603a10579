import HuyaOS.Filesystem.RamFsRuns

/-!
Deletions that fail. A node with children is deleted with everything below it, and
then the call returns `false` as if nothing had happened: the directory of the node
still has it among its children. Only where no such node is deleted does a failed
call leave everything as it was.
-/

namespace HuyaOS.Filesystem.RamFsDriver

open Lib IsTree

section Destroy

variable {heap : Heap VirtualNode} {root : Nat} {height : Nat → Nat}
  (htree : IsTree (kids heap) (nameOf heap) root) {depth a : Nat} {current : Heap VirtualNode}

include htree

/-- The children are deleted one after the other; the subtrees of those to come are
still there. The memory `current` is that of the tree, of which other parts may
already be gone. -/
theorem foldlM_destroy (hdestroy : ∀ c ∈ kids heap a, ∀ current : Heap VirtualNode,
        (∀ x, Below (kids heap) c x → current x = heap x) →
        ∃ current', destroy depth current c = .ok current' ∧ current' c = none ∧ ∀ x,
        ¬Below (kids heap) c x → current' x = current x)
    {cs : List Nat} (hnodup : cs.Nodup) (hcs : ∀ c ∈ cs, c ∈ kids heap a)
    (hcurrent : ∀ c ∈ cs, ∀ x, Below (kids heap) c x → current x = heap x) :
    ∃ current', cs.foldlM (fun heap child => destroy depth heap child) current = .ok current' ∧
      ∀ x, (∀ c ∈ cs, ¬Below (kids heap) c x) → current' x = current x := by
  induction cs generalizing current with
  | nil => exact ⟨current, rfl, fun _ _ => rfl⟩
  | cons c cs ih =>
    obtain ⟨hc, hcs⟩ := List.forall_mem_cons.mp hcs
    obtain ⟨hfirst, hothers⟩ := List.forall_mem_cons.mp hcurrent
    obtain ⟨hnotMem, hnodup⟩ := List.nodup_cons.mp hnodup
    obtain ⟨next, hnext, -, hframe⟩ := hdestroy c hc current hfirst
    have hstill : ∀ c' ∈ cs, ∀ x, Below (kids heap) c' x → next x = heap x := by
      intro c' hc' x hx
      have hne : c' ≠ c := ne_of_mem_of_not_mem hc' hnotMem
      rw [hframe x (htree.not_below_of_sibling (hcs c' hc') hc hne hx)]
      exact hothers c' hc' x hx
    obtain ⟨last, hlast, hframe'⟩ := ih hnodup hcs hstill
    refine ⟨last, ?_, fun x hx => ?_⟩
    · rw [List.foldlM_cons, hnext]
      exact hlast
    · obtain ⟨hxc, hxcs⟩ := List.forall_mem_cons.mp hx
      rw [hframe' x hxcs, hframe x hxc]

/-- A destructor returns, deletes its node and touches nothing but what lies below
it. -/
theorem destroy_returns (hheight : ∀ a, ∀ c ∈ kids heap a, height c < height a)
    (hallocated : ∀ a, ∀ c ∈ kids heap a, heap c ≠ none) (hdepth : height a < depth)
    (ha : heap a ≠ none) (hcurrent : ∀ x, Below (kids heap) a x → current x = heap x) :
    ∃ current', destroy depth current a = .ok current' ∧ current' a = none ∧
      ∀ x, ¬Below (kids heap) a x → current' x = current x := by
  induction depth generalizing a current with
  | zero => exact absurd hdepth (Nat.not_lt_zero _)
  | succ depth ih =>
    obtain ⟨node, hnode⟩ := Option.ne_none_iff_exists'.mp ha
    obtain ⟨last, hlast, hframe⟩ := foldlM_destroy htree (fun c hc current hcurrent =>
        ih ((hheight a c hc).trans_le (Nat.le_of_lt_succ hdepth)) (hallocated a c hc) hcurrent)
      ((htree.distinct a).of_map _) (fun _ hc => hc) fun c hc x hx => hcurrent x (.head hc hx)
    refine ⟨Function.update last a none, ?_, Function.update_self _ _ _, fun x hx => ?_⟩
    · rw [kids_of_some hnode] at hlast
      rw [destroy, Cpu.deref_some ((hcurrent a .refl).trans hnode)]
      simp only [bind, Except.bind, hlast]
      rfl
    · have hne : x ≠ a := by
        rintro rfl
        exact hx .refl
      rw [Function.update_of_ne hne]
      exact hframe x fun c hc hbelow => hx (.head hc hbelow)

end Destroy

/-- Every path leads to the same node, and this node is allocated. -/
def Unchanged (fs fs' : RamFsDriver) : Prop :=
  ∀ fresh path, path.WellFormed → fs'.getNode fresh path = fs.getNode fresh path ∧
    ∀ a, fs.getNode fresh path = .ok (some a) → fs'.heap a ≠ none

section Tree

variable {fs : RamFsDriver} {root : Nat} (h : fs.Tree root) {path : String}

include h

theorem Tree.unchanged : fs.Unchanged fs := by
  intro fresh path hpath
  refine ⟨rfl, fun a ha => ?_⟩
  rw [h.getNode_eq fresh hpath, Except.ok.injEq] at ha
  exact h.ne_none_of_follow ha

theorem Tree.deleteNode_parent (hpath : path.WellFormed) {ns : List (List UInt8)} {n : List UInt8}
    (hparts : components slash path.chars = ns ++ [n]) {a : Nat}
    (ha : follow (childOf fs.heap) root (ns ++ [n]) = some a) (hkids : kids fs.heap a ≠ []) :
    ∃ bound, ∀ depth ≥ bound, ∀ fresh,
      ∃ fs', fs.deleteNode fresh depth path = .ok (false, fs') ∧ fs'.heap a = none := by
  obtain ⟨height, hheight⟩ := h.isTree.ranked
  refine ⟨height a + 1, fun depth hdepth fresh => ?_⟩
  rcases h.deleteNode_cases fresh hpath hparts depth with ⟨hnone, -⟩ | ⟨d, a', hd, ha', hcall⟩
  · cases hnone.symm.trans ha
  · rw [follow_concat, hd] at ha
    cases ha'.symm.trans ha
    obtain ⟨node, hnode⟩ := Option.ne_none_iff_exists'.mp (h.allocated d a (h.childOf_mem ha'))
    have hall : ∀ x, Below (kids fs.heap) a x → fs.heap x = fs.heap x := fun _ _ => rfl
    obtain ⟨heap', hdestroy, hgone, -⟩ :=
      destroy_returns h.isTree hheight h.allocated hdepth (h.allocated d a (h.childOf_mem ha')) hall
    have hempty : node.children.isEmpty = false := by
      rw [← Bool.not_eq_true, ArrayList.isEmpty_iff, ← kids_of_some hnode]
      exact hkids
    refine ⟨{ fs with heap := heap' }, ?_, hgone⟩
    rw [hcall, deleteFound, Cpu.deref_some hnode]
    simp only [bind, Except.bind, hempty, hdestroy]
    rfl

/-- A failed call leaves everything as it was exactly if the path does not lead to a
node with children. -/
theorem Tree.failed_deleteNode (hpath : path.WellFormed)
    (hparts : components slash path.chars ≠ []) :
    ∃ bound, ∀ depth ≥ bound, ∀ fresh, ∃ result fs',
      fs.deleteNode fresh depth path = .ok (result, fs') ∧
      ((result = false → fs.Unchanged fs') ↔ fs.Childless path) := by
  obtain ⟨ns, n, hparts⟩ := (List.eq_nil_or_concat' _).resolve_left hparts
  by_cases hleaf : fs.Childless path
  · refine ⟨1, fun depth hdepth fresh => ?_⟩
    have hkids := (h.childless_iff hpath).mp hleaf
    rw [hparts] at hkids
    obtain ⟨depth, rfl⟩ := Nat.exists_eq_succ_of_ne_zero (Nat.ne_of_gt hdepth)
    obtain ⟨result, fs', hcall, -, -, -, heffect⟩ := h.deleteNode fresh hpath hparts hkids depth
    refine ⟨result, fs', hcall, iff_of_true ?_ hleaf⟩
    rintro rfl
    cases show fs' = fs from heffect
    exact h.unchanged
  · have hnot := hleaf
    rw [h.childless_iff hpath, hparts] at hnot
    push Not at hnot
    obtain ⟨a, ha, hkids⟩ := hnot
    obtain ⟨bound, hbound⟩ := h.deleteNode_parent hpath hparts ha hkids
    refine ⟨bound, fun depth hdepth fresh => ?_⟩
    obtain ⟨fs', hcall, hgone⟩ := hbound depth hdepth fresh
    refine ⟨false, fs', hcall, iff_of_false ?_ hleaf⟩
    intro hunchanged
    have hget := h.getNode_eq fresh hpath
    rw [hparts, ha] at hget
    exact (hunchanged rfl fresh path hpath).2 a hget hgone

end Tree

/-- In a run that deletes no node with children, lookups and creations return and
lookups lead to allocated nodes. From there a failed deletion leaves everything as
it was exactly if its path does not lead to a node with children. -/
theorem failed_delete_of_sound_run {root : Nat} {calls : List Call} {fs : RamFsDriver}
    (hrun : Run Step (mount root) calls fs) :
    (∀ fresh path, path.WellFormed →
      ∃ target, fs.getNode fresh path = .ok target ∧ ∀ a, target = some a → fs.heap a ≠ none) ∧
    (∀ fresh c path fileType, path.WellFormed → components slash path.chars ≠ [] →
      fs.heap c = none →
      ∃ result, fs.createNode fresh c path fileType = .ok result) ∧
    ∀ path, path.WellFormed → components slash path.chars ≠ [] →
      ∃ bound, ∀ depth ≥ bound, ∀ fresh, ∃ result fs',
        fs.deleteNode fresh depth path = .ok (result, fs') ∧
        ((result = false → fs.Unchanged fs') ↔ fs.Childless path) := by
  have h := tree_of_run hrun
  refine ⟨fun fresh path hpath => ?_, fun fresh c path fileType hpath hparts hfree => ?_,
    fun path hpath hparts => h.failed_deleteNode hpath hparts⟩
  · exact ⟨_, h.getNode_eq fresh hpath, fun a ha => h.ne_none_of_follow ha⟩
  · obtain ⟨ns, n, hparts⟩ := (List.eq_nil_or_concat' _).resolve_left hparts
    obtain ⟨result, fs', hcall, -⟩ := h.createNode fresh hpath hparts hfree fileType
    exact ⟨(result, fs'), hcall⟩

/-- The file "d/a", which is not there, is to be deleted. -/
theorem failed_delete_of_sound_run_missing :
    ∃ fs, Run Step (mount 1) [.createNode (.ofChars [100]) DIRECTORY_FILE] fs ∧
      ∃ depth fs', fs.deleteNode (fun _ => 255) depth (.ofChars [100, 47, 97]) = .ok (false, fs') ∧
        fs.Unchanged fs' := by
  obtain ⟨hd, ha⟩ := wellFormed_sample
  obtain ⟨fs, hrun, hmissing, hcall⟩ : ∃ fs,
    Run Step (mount 1) [.createNode (.ofChars [100]) DIRECTORY_FILE] fs ∧
      follow (childOf fs.heap) 1 [[100], [97]] = none ∧
      ∀ depth, fs.deleteNode (fun _ => 255) depth (.ofChars [100, 47, 97]) = .ok (false, fs) :=
    ⟨_, .next (@Step.createNode (mount 1) _ _ 2 (fun _ => 255) true _ hd (by decide) rfl rfl) <|
      .done _, rfl, fun _ => rfl⟩
  have hleaf : fs.Childless (.ofChars [100, 47, 97]) := by
    refine ((tree_of_run hrun).childless_iff ha).mpr fun a hfollow => ?_
    cases hmissing.symm.trans hfollow
  obtain ⟨depth, hdepth⟩ := (failed_delete_of_sound_run hrun).2.2 _ ha (by decide)
  obtain ⟨result, fs', hcall', hunchanged⟩ := hdepth depth le_rfl fun _ => 255
  cases (hcall depth).symm.trans hcall'
  exact ⟨fs, hrun, depth, fs, hcall depth, hunchanged.mpr hleaf rfl⟩

/-- The directory "d" with the file "a" is deleted, but still looked at. -/
theorem deleteNode_leaves_deleted_directory :
    ∃ fs fs', Run Step (mount 1)
        [.createNode (.ofChars [100]) DIRECTORY_FILE, .createNode (.ofChars [100, 47, 97]) 1] fs ∧
      fs.getNode (fun _ => 255) (.ofChars [100]) = .ok (some 2) ∧
      fs.deleteNode (fun _ => 255) 2 (.ofChars [100]) = .ok (false, fs') ∧ fs'.heap 2 = none ∧
      fs'.getNode (fun _ => 255) (.ofChars [100]) = .error .danglingPointer := by
  obtain ⟨hd, ha⟩ := wellFormed_sample
  exact ⟨_, _,
    .next (@Step.createNode (mount 1) _ _ 2 (fun _ => 255) true _ hd (by decide) rfl rfl) <|
    .next (@Step.createNode _ _ _ 3 (fun _ => 255) true _ ha (by decide) rfl rfl) <| .done _, rfl,
      rfl, rfl, rfl⟩

end HuyaOS.Filesystem.RamFsDriver
