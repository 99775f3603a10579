import HuyaOS.Filesystem.RamFsCalls

/-!
Runs of calls on a RamFs that was just mounted. Nodes that are added are made
outside the tree first, by their constructors; paths and names are arbitrary C
strings. As long as no node with children is deleted, every call does what it does
on a tree of uniquely named nodes.
-/

namespace HuyaOS.Filesystem.RamFsDriver

open Lib

variable {root : Nat} {calls : List Call} {fs : RamFsDriver}

inductive Call
  | newNode (node : Nat) (name : String) (fileType : UInt8)
  | addNode (path : String) (node : Nat)
  | createNode (path : String) (fileType : UInt8)
  | deleteNode (path : String)

/-- The path does not lead to a node with children. -/
def Childless (fs : RamFsDriver) (path : String) : Prop :=
  ∀ fresh a node, fs.getNode fresh path = .ok (some a) → fs.heap a = some node →
    node.children.isEmpty = true

inductive Step (fs : RamFsDriver) : Call → RamFsDriver → Prop
  | newNode {node : Nat} {name : String} {fileType : UInt8} (hfree : fs.heap node = none)
    (hname : name.WellFormed) :
      Step fs (.newNode node name fileType) (fs.newNode node name fileType)
  | addNode {path : String} {node : Nat} {fresh : Nat → UInt8} {result : Bool} {fs' : RamFsDriver}
      (hpath : path.WellFormed) (hnode : fs.Detached node)
        (hcall : fs.addNode fresh path node = .ok (result, fs')) :
      Step fs (.addNode path node) fs'
  | createNode {path : String} {fileType : UInt8} {node : Nat} {fresh : Nat → UInt8} {result : Bool}
      {fs' : RamFsDriver} (hpath : path.WellFormed) (hparts : components slash path.chars ≠ [])
      (hfree : fs.heap node = none) (hcall : fs.createNode fresh node path fileType =
        .ok (result, fs')) :
      Step fs (.createNode path fileType) fs'
  | deleteNode {path : String} {fresh : Nat → UInt8} {depth : Nat} {result : Bool}
    {fs' : RamFsDriver}
      (hpath : path.WellFormed) (hparts : components slash path.chars ≠ [])
        (hleaf : fs.Childless path)
      (hcall : fs.deleteNode fresh (depth + 1) path = .ok (result, fs')) : Step fs
        (.deleteNode path) fs'

theorem tree_mount (root : Nat) : (mount root).Tree root := by
  have hnode : (mount root).heap root = some (.new SEPARATOR DIRECTORY_FILE) :=
    Function.update_self root _ (fun _ => none)
  have hkids : kids (mount root).heap = fun _ => [] := by
    refine (kids_update _ _ _).trans ?_
    exact Function.update_eq_self root (fun _ => [])
  refine ⟨rfl, isDirectory_of_some hnode, ?_, ?_, ?_, ?_⟩
  · rw [hkids]
    exact ⟨fun _ => List.nodup_nil, nofun, nofun, fun _ => 0, nofun⟩
  · rw [hkids]
    nofun
  · rw [hkids]
    nofun
  · intro a node ha
    change Function.update (fun _ => none) root (some (VirtualNode.new SEPARATOR DIRECTORY_FILE))
      a = some node at ha
    rw [Function.update_apply] at ha
    split at ha
    · cases ha
      exact String.wellFormed_ofChars.mpr (by decide)
    · cases ha

section Tree

variable {fs fs' : RamFsDriver} {root : Nat} (h : fs.Tree root)

include h

theorem Tree.childless_iff {path : String} (hpath : path.WellFormed) :
    fs.Childless path ↔
      ∀ a, follow (childOf fs.heap) root (components slash path.chars) = some a →
        kids fs.heap a = [] := by
  constructor
  · intro hleaf a ha
    cases hnode : fs.heap a with
    | none => exact kids_of_none hnode
    | some node =>
      have hget := h.getNode_eq (fun _ => 0) hpath
      rw [ha] at hget
      rw [kids_of_some hnode, ← ArrayList.isEmpty_iff]
      exact hleaf _ a node hget hnode
  · intro hleaf fresh a node hget hnode
    rw [h.getNode_eq fresh hpath, Except.ok.injEq] at hget
    rw [ArrayList.isEmpty_iff, ← kids_of_some hnode]
    exact hleaf a hget

theorem Tree.step {c : Call} (hstep : Step fs c fs') : fs'.Tree root := by
  cases hstep with
  | newNode hfree hname => exact (h.newNode hfree hname _).1
  | @addNode path node fresh result fs' hpath hnode hcall =>
    obtain ⟨_, _, hcall', htree, -⟩ := h.addNode fresh hpath hnode
    cases hcall.symm.trans hcall'
    exact htree
  | @createNode path fileType node fresh result fs' hpath hparts hfree hcall =>
    obtain ⟨ns, n, hparts⟩ := (List.eq_nil_or_concat' _).resolve_left hparts
    obtain ⟨_, _, hcall', htree, -⟩ := h.createNode fresh hpath hparts hfree fileType
    cases hcall.symm.trans hcall'
    exact htree
  | @deleteNode path fresh depth result fs' hpath hparts hleaf hcall =>
    obtain ⟨ns, n, hparts⟩ := (List.eq_nil_or_concat' _).resolve_left hparts
    rw [h.childless_iff hpath, hparts] at hleaf
    obtain ⟨_, _, hcall', htree, -⟩ := h.deleteNode fresh hpath hparts hleaf depth
    cases hcall.symm.trans hcall'
    exact htree

end Tree

theorem tree_of_run (hrun : Run Step (mount root) calls fs) :
    fs.Tree root := by
  have hstep : ∀ (fs : RamFsDriver) c fs', fs.Tree root → Step fs c fs' → fs'.Tree root :=
    fun _ _ _ h hstep => h.step hstep
  exact hrun.invariant hstep (tree_mount root)

def DirectoryAt (fs : RamFsDriver) (path : String) : Prop :=
  ∃ fresh a node, fs.getNode fresh path = .ok (some a) ∧ fs.heap a = some node ∧
    node.fileType = DIRECTORY_FILE

/-- The lookups of paths with the components `p` give `target`, all others give what
they gave before. -/
def Relinks (fs fs' : RamFsDriver) (p : List (List UInt8)) (target : Option Nat) : Prop :=
  ∀ fresh path, path.WellFormed →
    fs'.getNode fresh path = if components slash path.chars = p then .ok target
      else fs.getNode fresh path

/-- What the calls have to do on a tree of uniquely named nodes. -/
structure ActsAsTree (fs : RamFsDriver) : Prop where
  distinct : ∀ a node, fs.heap a = some node → (node.children.toArray.map (nameOf fs.heap)).Nodup
  createNode : ∀ fresh c path parent fileType, path.WellFormed → components slash path.chars ≠ [] →
    parent.WellFormed → components slash parent.chars = (components slash path.chars).dropLast →
      fs.heap c = none →
    ∃ result fs', fs.createNode fresh c path fileType = .ok (result, fs') ∧
      (result = true ↔ fs.DirectoryAt parent ∧ fs.getNode fresh path = .ok none) ∧
      if result then (∃ name, fs'.heap c = some (.new name fileType)) ∧
        fs.Relinks fs' (components slash path.chars) (some c)
      else fs' = fs
  addNode : ∀ fresh path file c, path.WellFormed → fs.Detached c → file.WellFormed →
    components slash file.chars = components slash path.chars ++ [nameOf fs.heap c] →
    ∃ result fs', fs.addNode fresh path c = .ok (result, fs') ∧
      (result = true ↔ fs.DirectoryAt path ∧ fs.getNode fresh file = .ok none) ∧
      if result then fs'.heap c = fs.heap c ∧
        fs.Relinks fs' (components slash path.chars ++ [nameOf fs.heap c]) (some c)
      else fs' = fs
  deleteNode : ∀ fresh depth path, path.WellFormed → components slash path.chars ≠ [] →
    fs.Childless path →
    ∃ result fs', fs.deleteNode fresh (depth + 1) path = .ok (result, fs') ∧
      (result = false ↔ fs.getNode fresh path = .ok none) ∧
      if result then fs.Relinks fs' (components slash path.chars) none else fs' = fs

section Tree

variable {fs fs' : RamFsDriver} {root : Nat} (h : fs.Tree root)

include h

theorem Tree.relinks (h' : fs'.Tree root) {p : List (List UInt8)} {target : Option Nat}
    (hfollow : fs.Redirects fs' root p target) : fs.Relinks fs' p target := by
  intro fresh path hpath
  rw [h'.getNode_eq fresh hpath, h.getNode_eq fresh hpath, hfollow]
  split <;> rfl

theorem Tree.directoryAt_iff {path : String} (hpath : path.WellFormed) :
    fs.DirectoryAt path ↔
      ∃ d, follow (childOf fs.heap) root (components slash path.chars) = some d ∧
        isDirectory fs.heap d = true := by
  constructor
  · rintro ⟨fresh, a, node, hget, hnode, htype⟩
    rw [h.getNode_eq fresh hpath, Except.ok.injEq] at hget
    exact ⟨a, hget, (isDirectory_of_some hnode).trans (beq_iff_eq.mpr htype)⟩
  · rintro ⟨d, hd, hdir⟩
    obtain ⟨node, hnode⟩ := Option.ne_none_iff_exists'.mp (ne_none_of_isDirectory hdir)
    refine ⟨fun _ => 0, d, node, ?_, hnode,
      beq_iff_eq.mp ((isDirectory_of_some hnode).symm.trans hdir)⟩
    rw [h.getNode_eq _ hpath, hd]

theorem Tree.actsAsTree : fs.ActsAsTree where
  distinct a node hnode := by
    rw [← kids_of_some hnode]
    exact h.isTree.distinct a
  createNode fresh c path parent fileType hpath hparts hparent hdirectory hfree := by
    obtain ⟨ns, n, hparts⟩ := (List.eq_nil_or_concat' _).resolve_left hparts
    rw [hparts, List.dropLast_concat] at hdirectory
    obtain ⟨result, fs', hcall, htree, hresult, heffect⟩ :=
      h.createNode fresh hpath hparts hfree fileType
    refine ⟨result, fs', hcall, ?_, ?_⟩
    · rw [hresult, h.directoryAt_iff hparent, h.getNode_eq fresh hpath, hdirectory, hparts,
        Except.ok.injEq]
      rfl
    · rw [hparts]
      cases result with
      | false => exact heffect
      | true => exact ⟨⟨_, heffect.1⟩, h.relinks htree heffect.2⟩
  addNode fresh path file c hpath hc hfile hparts := by
    obtain ⟨result, fs', hcall, htree, -, hresult, heffect⟩ := h.addNode fresh hpath hc
    refine ⟨result, fs', hcall, ?_, ?_⟩
    · rw [hresult, h.directoryAt_iff hpath, h.getNode_eq fresh hfile, hparts, Except.ok.injEq]
      rfl
    · cases result with
      | false => exact heffect
      | true => exact ⟨heffect.1, h.relinks htree heffect.2⟩
  deleteNode fresh depth path hpath hparts hleaf := by
    obtain ⟨ns, n, hparts⟩ := (List.eq_nil_or_concat' _).resolve_left hparts
    rw [h.childless_iff hpath, hparts] at hleaf
    obtain ⟨result, fs', hcall, htree, -, hresult, heffect⟩ :=
      h.deleteNode fresh hpath hparts hleaf depth
    refine ⟨result, fs', hcall, ?_, ?_⟩
    · rw [h.getNode_eq fresh hpath, hparts,
        Except.ok.injEq, ← Option.not_isSome_iff_eq_none, ← hresult]
      exact (Bool.not_eq_true result).symm.to_iff
    · rw [hparts]
      cases result with
      | false => exact heffect
      | true => exact h.relinks htree heffect

end Tree

/-- After every run of calls that delete no node with children, the RamFs acts as a
tree of uniquely named nodes. -/
theorem actsAsTree_of_run
    (hrun : Run Step (mount root) calls fs) : fs.ActsAsTree := (tree_of_run hrun).actsAsTree

theorem wellFormed_sample :
    (String.ofChars [100]).WellFormed ∧ (String.ofChars [100, 47, 97]).WellFormed :=
  ⟨String.wellFormed_ofChars.mpr (by decide), String.wellFormed_ofChars.mpr (by decide)⟩

/-- In the directory "d" the files "a" and "b" are made, and the first is deleted. -/
theorem actsAsTree_of_run_two_files :
    ∃ fs, Run Step (mount 1) [.createNode (.ofChars [100]) DIRECTORY_FILE,
      .createNode (.ofChars [100, 47, 97]) 1,
        .newNode 4 (.ofChars [98]) 2, .addNode (.ofChars [100]) 4,
          .deleteNode (.ofChars [100, 47, 97])] fs ∧
      fs.getNode (fun _ => 255) (.ofChars [47, 100, 47, 47, 98]) = .ok (some 4) ∧
        fs.ActsAsTree := by
  obtain ⟨hd, ha⟩ := wellFormed_sample
  have hb : (String.ofChars [98]).WellFormed := String.wellFormed_ofChars.mpr (by decide)
  obtain ⟨fs₁, fs₂, fs₃, fs₄, h₁, hfree₁, h₂, hfree₂, h₃, h₄, hfound, hkids,
    hget⟩ : ∃ fs₁ fs₂ fs₃ fs₄,
      (mount 1).createNode (fun _ => 255) 2 (.ofChars [100]) DIRECTORY_FILE = .ok (true, fs₁) ∧
        fs₁.heap 3 = none ∧
      fs₁.createNode (fun _ => 255) 3 (.ofChars [100, 47, 97]) 1 = .ok (true, fs₂) ∧
        fs₂.heap 4 = none ∧
      (fs₂.newNode 4 (.ofChars [98]) 2).addNode (fun _ => 255) (.ofChars [100]) 4 =
        .ok (true, fs₃) ∧
      fs₃.deleteNode (fun _ => 255) 1 (.ofChars [100, 47, 97]) = .ok (true, fs₄) ∧
      follow (childOf fs₃.heap) 1 [[100], [97]] = some 3 ∧ kids fs₃.heap 3 = [] ∧
      fs₄.getNode (fun _ => 255) (.ofChars [47, 100, 47, 47, 98]) = .ok (some 4) :=
    ⟨_, _, _, _, rfl, rfl, rfl, rfl, rfl, rfl, rfl, rfl, rfl⟩
  have hstep₁ : Step (mount 1) (.createNode (.ofChars [100]) DIRECTORY_FILE) fs₁ :=
    .createNode hd (by decide) rfl h₁
  have hstep₂ : Step fs₁ (.createNode (.ofChars [100, 47, 97]) 1) fs₂ :=
    .createNode ha (by decide) hfree₁ h₂
  obtain ⟨htree, -, hdetached⟩ := (((tree_mount 1).step hstep₁).step hstep₂).newNode hfree₂ hb 2
  have hstep₃ : Step (fs₂.newNode 4 (.ofChars [98]) 2) (.addNode (.ofChars [100]) 4) fs₃ :=
    .addNode hd hdetached h₃
  have hleaf : fs₃.Childless (.ofChars [100, 47, 97]) := by
    refine ((htree.step hstep₃).childless_iff ha).mpr fun a hfollow => ?_
    cases hfound.symm.trans hfollow
    exact hkids
  have hrun : Run Step (mount 1) _ fs₄ :=
    .next hstep₁ <| .next hstep₂ <| .next (.newNode hfree₂ hb) <|
    .next hstep₃ <| .next (.deleteNode ha (by decide) hleaf h₄) <| .done fs₄
  exact ⟨fs₄, hrun, hget, actsAsTree_of_run hrun⟩

end HuyaOS.Filesystem.RamFsDriver
