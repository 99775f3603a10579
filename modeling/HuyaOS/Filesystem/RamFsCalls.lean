import HuyaOS.Filesystem.RamFs

/-!
What the calls of `RamFsDriver` do to the tree: a new leaf, or one leaf less. In
each case a single path leads somewhere else than before.
-/

namespace HuyaOS.Filesystem.RamFsDriver

open Lib Function Option List VirtualNode

/-- A node outside the tree that can be added to it. -/
structure Detached (fs : RamFsDriver) (c : Nat) : Prop where
  allocated : fs.heap c ≠ none
  childless : kids fs.heap c = []
  orphan : ∀ a, c ∉ kids fs.heap a
  ne_root : fs.rootNode ≠ some c

/-- What is left of the directories are directories, and nothing else is one. -/
def KeepsDirectories (heap heap' : Heap VirtualNode) : Prop :=
  ∀ a, heap' a ≠ none → isDirectory heap' a = isDirectory heap a

section Changes

variable {fs : RamFsDriver} {root c d : Nat} (h : fs.Tree root)

include h

omit h in
theorem kids_of_none {heap : Heap VirtualNode} (hc : heap c = none) : kids heap c = [] := by
  unfold kids
  rw [hc]
  rfl

/-- The tree stays a tree when the children of the nodes change and when one node
outside the new tree does. -/
theorem Tree.change {heap' : Heap VirtualNode}
    (hlabel : ∀ a ≠ c, (heap' a).map label = (fs.heap a).map label) (hroot : root ≠ c)
    (hkids : ∀ a b, b ∈ kids heap' a → b ∈ kids fs.heap a ∧ a ≠ c ∧ b ≠ c)
    (htree : IsTree (kids heap') (nameOf fs.heap) root)
    (hname : ∀ node, heap' c = some node → node.name.WellFormed) :
    Tree { fs with heap := heap' } root ∧ childOf heap' = child (kids heap') (nameOf fs.heap) := by
  obtain ⟨htree', hchild⟩ :=
    htree.congr_name fun a b hb => nameOf_congr (hlabel b (hkids a b hb).2.2)
  refine ⟨⟨h.rootNode, ?_, htree', ?_, ?_, ?_⟩, hchild⟩
  · exact (isDirectory_congr (hlabel root hroot)).trans h.directory_root
  · intro a b hb
    obtain ⟨hb, -, hbc⟩ := hkids a b hb
    exact (eq_none_congr (hlabel b hbc)).not.mpr (h.allocated a b hb)
  · intro a b hb
    obtain ⟨hb, hac, -⟩ := hkids a b hb
    exact (isDirectory_congr (hlabel a hac)).trans (h.directory a b hb)
  · intro a node hnode
    by_cases hac : a = c
    · exact hname node (hac ▸ hnode)
    · obtain ⟨node', hnode', heq⟩ := name_congr (hlabel a hac) hnode
      exact heq ▸ h.wellFormed a node' hnode'

theorem Tree.newNode (hfree : fs.heap c = none) {name : String} (hname : name.WellFormed)
    (fileType : UInt8) :
    (fs.newNode c name fileType).Tree root ∧ childOf (fs.newNode c name fileType).heap =
      childOf fs.heap ∧
      (fs.newNode c name fileType).Detached c := by
  have hnode : (fs.newNode c name fileType).heap c = some (.new name fileType) := update_self _ _ _
  have hkids : kids (fs.newNode c name fileType).heap = kids fs.heap := by
    have hsame : update (kids fs.heap) c [] = kids fs.heap := by
      rw [← kids_of_none hfree, update_eq_self]
    exact (kids_update _ _ _).trans hsame
  have horphan : ∀ a, c ∉ kids fs.heap a := fun a hmem => h.allocated a c hmem hfree
  have hroot : root ≠ c := by
    rintro rfl
    exact ne_none_of_isDirectory h.directory_root hfree
  have hlabel : ∀ a ≠ c, ((fs.newNode c name fileType).heap a).map label =
      (fs.heap a).map label := fun a ha => congrArg _ (update_of_ne ha _ _)
  have hedge : ∀ a b, b ∈ kids (fs.newNode c name fileType).heap a →
      b ∈ kids fs.heap a ∧ a ≠ c ∧ b ≠ c := by
    intro a b hb
    rw [hkids] at hb
    refine ⟨hb, ?_, fun heq => horphan a (heq ▸ hb)⟩
    rintro rfl
    rw [kids_of_none hfree] at hb
    cases hb
  have hnamed : ∀ node, (fs.newNode c name fileType).heap c = some node → node.name.WellFormed := by
    intro node heq
    cases hnode.symm.trans heq
    exact hname.copy
  obtain ⟨htree, hchild⟩ := h.change hlabel hroot hedge (hkids.symm ▸ h.isTree) hnamed
  refine ⟨htree, hchild.trans (by rw [hkids]; rfl), ?_, ?_, ?_, ?_⟩
  · rw [hnode]
    exact some_ne_none _
  · rw [hkids]
    exact kids_of_none hfree
  · rw [hkids]
    exact horphan
  · change fs.rootNode ≠ some c
    rw [h.rootNode]
    exact fun heq => hroot (some.inj heq)

variable {ns : List (List UInt8)}

theorem Tree.ne_none_of_follow {a : Nat} (ha : follow (childOf fs.heap) root ns = some a) :
    fs.heap a ≠ none := by
  rcases h.isTree.follow_mem ha with rfl | ⟨b, hb⟩
  · exact ne_none_of_isDirectory h.directory_root
  · exact h.allocated b a hb

theorem Tree.ne_of_follow (hc : fs.Detached c) (hd : follow (childOf fs.heap) root ns = some d) :
    d ≠ c := by
  rintro rfl
  rcases h.isTree.follow_mem hd with rfl | ⟨b, hb⟩
  · exact hc.ne_root h.rootNode
  · exact hc.orphan b hb

theorem Tree.attach (hc : fs.Detached c) (hd : follow (childOf fs.heap) root ns = some d)
    (hdir : isDirectory fs.heap d = true) (hname : childOf fs.heap d (nameOf fs.heap c) = none) :
    ∃ fs', fs.addChild d c = .ok fs' ∧ fs'.Tree root ∧ KeepsDirectories fs.heap fs'.heap ∧
      fs'.heap c = fs.heap c ∧
      ∀ ms, follow (childOf fs'.heap) root ms =
        if ms = ns ++ [nameOf fs.heap c] then some c else follow (childOf fs.heap) root ms := by
  have hne := h.ne_of_follow hc hd
  have hroot : c ≠ root := fun heq => hc.ne_root (heq ▸ h.rootNode)
  obtain ⟨dir, hdirNode⟩ := ne_none_iff_exists'.mp (ne_none_of_isDirectory hdir)
  let heap' := setChildren fs.heap d dir (dir.children.add c)
  have hkids : kids heap' = update (kids fs.heap) d (kids fs.heap d ++ [c]) := by
    rw [kids_setChildren, ArrayList.toArray_add, kids_of_some hdirNode]
  have hlabel := label_setChildren hdirNode (dir.children.add c)
  have hnames : nameOf heap' = nameOf fs.heap := funext fun a => nameOf_congr (hlabel a)
  have hdirs : isDirectory heap' = isDirectory fs.heap :=
    funext fun a => isDirectory_congr (hlabel a)
  have hnew : nameOf fs.heap c ∉ (kids fs.heap d).map (nameOf fs.heap) :=
    IsTree.child_eq_none_iff.mp hname
  refine ⟨{ fs with heap := heap' }, ?_,
    ⟨h.rootNode, ?_, ?_, fun a b hb => ?_, fun a b hb => ?_, fun a node ha => ?_⟩,
    fun a _ => congrFun hdirs a, update_of_ne hne.symm _ _, fun ms => ?_⟩
  · unfold addChild
    rw [Cpu.deref_some hdirNode]
    rfl
  · rw [hdirs]
    exact h.directory_root
  · rw [hkids, hnames]
    exact h.isTree.insert hne hroot hc.orphan hc.childless hnew
  · rw [ne_eq, eq_none_congr (hlabel b)]
    rw [hkids, IsTree.mem_update_append] at hb
    rcases hb with hb | ⟨-, rfl⟩
    · exact h.allocated a b hb
    · exact hc.allocated
  · rw [hdirs]
    rw [hkids, IsTree.mem_update_append] at hb
    rcases hb with hb | ⟨rfl, -⟩
    · exact h.directory a b hb
    · exact hdir
  · obtain ⟨node', hnode', heq⟩ := name_congr (hlabel a) ha
    exact heq ▸ h.wellFormed a node' hnode'
  · rw [childOf, hkids, hnames]
    exact IsTree.follow_insert hd h.isTree hne hc.childless hnew ms

theorem Tree.detach {n : List UInt8} (hd : follow (childOf fs.heap) root ns = some d)
    (hc : childOf fs.heap d n = some c) (hleaf : kids fs.heap c = []) {dir : VirtualNode}
    (hdir : fs.heap d = some dir) {children : ArrayList Nat}
    (hchildren : children.toArray = dir.children.toArray.erase c) :
    let heap' := update (setChildren fs.heap d dir children) c none
    Tree { fs with heap := heap' } root ∧ KeepsDirectories fs.heap heap' ∧ ∀ ms,
      follow (childOf heap') root ms =
      if ms = ns ++ [n] then none else follow (childOf fs.heap) root ms := by
  intro heap'
  obtain ⟨hmem, rfl⟩ := h.isTree.child_eq_some_iff.mp hc
  have hne : c ≠ d := by
    rintro rfl
    rw [hleaf] at hmem
    cases hmem
  have hroot : root ≠ c := by
    rintro rfl
    exact h.isTree.root_notMem d hmem
  have hgone : heap' c = none := update_self _ _ _
  have hlabel : ∀ a ≠ c, (heap' a).map label = (fs.heap a).map label := by
    intro a ha
    rw [← label_setChildren hdir children a]
    exact congrArg _ (update_of_ne ha _ _)
  have hkids : kids heap' = update (kids fs.heap) d ((kids fs.heap d).erase c) := by
    have hsame : update (kids fs.heap) c [] = kids fs.heap := by
      rw [← hleaf, update_eq_self]
    refine (kids_update _ _ _).trans ?_
    rw [kids_setChildren, hchildren, ← kids_of_some hdir]
    exact (update_comm hne.symm _ _ _).trans (congrArg (update · d _) hsame)
  have hedge : ∀ a b, b ∈ kids heap' a → b ∈ kids fs.heap a ∧ a ≠ c ∧ b ≠ c := by
    intro a b hb
    rw [hkids, h.isTree.mem_update_erase hmem] at hb
    refine ⟨hb.1, ?_, hb.2⟩
    rintro rfl
    rw [hleaf] at hb
    cases hb.1
  have herase : IsTree (kids heap') (nameOf fs.heap) root := hkids ▸ h.isTree.erase d c
  obtain ⟨htree, hchild⟩ := h.change hlabel hroot hedge herase fun node hnode => by
    cases hgone.symm.trans hnode
  refine ⟨htree, fun a ha => isDirectory_congr (hlabel a fun heq => ha (heq ▸ hgone)), fun ms => ?_⟩
  rw [hchild, hkids]
  exact IsTree.follow_erase hd h.isTree hmem hleaf ms

end Changes

/-- What the paths lead to is the same, except for one path. -/
def Redirects (fs fs' : RamFsDriver) (root : Nat) (p : List (List UInt8)) (target : Option Nat) :
    Prop :=
  ∀ ms, follow (childOf fs'.heap) root ms = if ms = p then target
    else follow (childOf fs.heap) root ms

/-- A directory at `ns` that has no child with the name `n`. -/
def HasRoom (fs : RamFsDriver) (root : Nat) (ns : List (List UInt8)) (n : List UInt8) : Prop :=
  (∃ d, follow (childOf fs.heap) root ns = some d ∧ isDirectory fs.heap d = true) ∧
    follow (childOf fs.heap) root (ns ++ [n]) = none

theorem hasRoom_iff {fs : RamFsDriver} {root d : Nat} {ns : List (List UInt8)} {n : List UInt8}
    (hd : follow (childOf fs.heap) root ns = some d) (hdir : isDirectory fs.heap d = true) :
    fs.HasRoom root ns n ↔ childOf fs.heap d n = none := by
  unfold HasRoom
  rw [follow_concat, hd]
  exact and_iff_right ⟨d, rfl, hdir⟩

theorem filter_cases {α : Type} (o : Option α) (p : α → Bool) :
    (o.filter p = none ∧ ¬∃ a, o = some a ∧ p a = true) ∨ ∃ a, o.filter p = some a ∧ o = some a ∧
      p a = true := by
  cases hfilter : o.filter p with
  | none =>
    refine .inl ⟨rfl, ?_⟩
    rintro ⟨a, rfl, ha⟩
    rw [filter_some_pos ha] at hfilter
    cases hfilter
  | some a => exact .inr ⟨a, rfl, filter_eq_some_iff.mp hfilter⟩

section Calls

variable {fs : RamFsDriver} {root : Nat} (h : fs.Tree root) (fresh : Nat → UInt8) {path : String}
  (hpath : path.WellFormed)

include h hpath

theorem Tree.addNode {c : Nat} (hc : fs.Detached c) :
    ∃ result fs', fs.addNode fresh path c = .ok (result, fs') ∧ fs'.Tree root ∧
      KeepsDirectories fs.heap fs'.heap ∧
      (result = true ↔ fs.HasRoom root (components slash path.chars) (nameOf fs.heap c)) ∧
      if result then fs'.heap c = fs.heap c ∧
        fs.Redirects fs' root (components slash path.chars ++ [nameOf fs.heap c]) (some c)
      else fs' = fs := by
  have hdescend : descend fs.heap fs.rootNode ((components slash path.chars).map .ofChars) =
      .ok ((follow (childOf fs.heap) root (components slash path.chars)).filter
        (isDirectory fs.heap)) := by
    rw [h.rootNode]
    exact h.descend_eq h.directory_root (zero_notMem_of_mem_components hpath)
  obtain ⟨node, hnode⟩ := ne_none_iff_exists'.mp hc.allocated
  have hname : nameOf fs.heap c = node.getName.chars := nameOf_of_some hnode
  have hwell : node.getName.WellFormed := (h.wellFormed c node hnode).copy
  unfold RamFsDriver.addNode
  rw [SEPARATOR, String.split_char]
  simp only [bind, Except.bind, hdescend]
  rcases filter_cases (follow (childOf fs.heap) root (components slash path.chars))
    (isDirectory fs.heap) with
    ⟨hnone, hno⟩ | ⟨d, hsome, hd, hdir⟩
  · rw [hnone]
    exact ⟨false, fs, rfl, h, fun _ _ => rfl, iff_of_false Bool.false_ne_true fun hroom =>
      hno hroom.1, rfl⟩
  · simp only [hsome, Cpu.deref_some hnode,
      h.getChildByName_eq (ne_none_of_isDirectory hdir) hwell, ← hname]
    rw [hasRoom_iff hd hdir]
    cases hchild : childOf fs.heap d (nameOf fs.heap c) with
    | some b =>
      exact ⟨false, fs, rfl, h, fun _ _ => rfl, iff_of_false Bool.false_ne_true (some_ne_none b),
        rfl⟩
    | none =>
      obtain ⟨fs', hadd, htree, hkeeps, hheap, hfollow⟩ := h.attach hc hd hdir hchild
      refine ⟨true, fs', ?_, htree, hkeeps, iff_of_true rfl rfl, hheap, hfollow⟩
      rw [hadd]
      rfl

variable {ns : List (List UInt8)} {n : List UInt8}
  (hparts : components slash path.chars = ns ++ [n])

include hparts

theorem Tree.createNode {c : Nat} (hfree : fs.heap c = none) (fileType : UInt8) :
    ∃ result fs', fs.createNode fresh c path fileType = .ok (result, fs') ∧ fs'.Tree root ∧
      (result = true ↔ fs.HasRoom root ns n) ∧
      if result then fs'.heap c = some (.new (.ofChars n) fileType) ∧
        fs.Redirects fs' root (ns ++ [n]) (some c)
      else fs' = fs := by
  have hn := wellFormed_last hpath hparts
  unfold RamFsDriver.createNode
  rw [SEPARATOR, String.split_char, hparts]
  simp only [bind, Except.bind, map_append, map_cons, map_nil, getLast?_concat,
    dropLast_concat, h.descend_dropLast hpath hparts]
  rw [if_neg (by simp)]
  rcases filter_cases (follow (childOf fs.heap) root ns) (isDirectory fs.heap) with
    ⟨hnone, hno⟩ | ⟨d, hsome, hd, hdir⟩
  · rw [hnone]
    exact ⟨false, fs, rfl, h, iff_of_false Bool.false_ne_true fun hroom => hno hroom.1, rfl⟩
  · simp only [hsome, h.getChildByName_eq (ne_none_of_isDirectory hdir) hn, String.chars_ofChars]
    rw [hasRoom_iff hd hdir]
    cases hchild : childOf fs.heap d n with
    | some b => exact ⟨false, fs, rfl, h, iff_of_false Bool.false_ne_true (some_ne_none b), rfl⟩
    | none =>
      obtain ⟨htree, hsame, hdetached⟩ := h.newNode hfree hn fileType
      have hnode :
          (fs.newNode c (.ofChars n) fileType).heap c = some (.new (.ofChars n) fileType) :=
        update_self _ _ _
      have hname : nameOf (fs.newNode c (.ofChars n) fileType).heap c = n := nameOf_of_some hnode
      have hne : d ≠ c := by
        rintro rfl
        exact ne_none_of_isDirectory hdir hfree
      have hdir' : isDirectory (fs.newNode c (.ofChars n) fileType).heap d = true :=
        (isDirectory_congr (congrArg _ (update_of_ne hne _ _))).trans hdir
      obtain ⟨fs', hadd, htree', -, hheap, hfollow⟩ :=
        htree.attach hdetached (hsame ▸ hd) hdir' (by rw [hsame, hname, hchild])
      rw [hname, hsame] at hfollow
      refine ⟨true, fs', ?_, htree', iff_of_true rfl rfl, hheap.trans hnode, hfollow⟩
      rw [hadd]
      rfl

theorem Tree.deleteNode_cases (depth : Nat) :
    (follow (childOf fs.heap) root (ns ++ [n]) = none ∧ fs.deleteNode fresh depth path =
      .ok (false, fs)) ∨
      ∃ d a, follow (childOf fs.heap) root ns = some d ∧ childOf fs.heap d n = some a ∧
        fs.deleteNode fresh depth path = fs.deleteFound depth d a := by
  unfold RamFsDriver.deleteNode
  rw [SEPARATOR, String.split_char, hparts, follow_concat]
  simp only [bind, Except.bind, map_append, map_cons, map_nil, getLast?_concat,
    dropLast_concat, h.descend_dropLast hpath hparts]
  rw [if_neg (by simp)]
  cases hd : follow (childOf fs.heap) root ns with
  | none => exact .inl ⟨rfl, rfl⟩
  | some d =>
    rw [bind_some]
    cases hdir : isDirectory fs.heap d with
    | false =>
      rw [filter_some_neg hdir]
      exact .inl ⟨h.childOf_eq_none hdir n, rfl⟩
    | true =>
      simp only [filter_some_pos hdir, h.getChildByName_eq (ne_none_of_isDirectory hdir)
        (wellFormed_last hpath hparts), String.chars_ofChars]
      cases hchild : childOf fs.heap d n with
      | none => exact .inl ⟨rfl, rfl⟩
      | some a => exact .inr ⟨d, a, rfl, hchild, rfl⟩

theorem Tree.deleteNode
    (hleaf : ∀ a, follow (childOf fs.heap) root (ns ++ [n]) = some a → kids fs.heap a = [])
    (depth : Nat) :
    ∃ result fs', fs.deleteNode fresh (depth + 1) path = .ok (result, fs') ∧ fs'.Tree root ∧
      KeepsDirectories fs.heap fs'.heap ∧
      (result = true ↔ (follow (childOf fs.heap) root (ns ++ [n])).isSome = true) ∧
      if result then fs.Redirects fs' root (ns ++ [n]) none else fs' = fs := by
  rcases h.deleteNode_cases fresh hpath hparts (depth + 1) with
    ⟨hnone, hcall⟩ | ⟨d, a, hd, ha, hcall⟩
  · refine ⟨false, fs, hcall, h, fun _ _ => rfl, iff_of_false Bool.false_ne_true ?_, rfl⟩
    rw [hnone]
    exact Bool.false_ne_true
  · have hfound : follow (childOf fs.heap) root (ns ++ [n]) = some a := by
      rw [follow_concat, hd]
      exact ha
    have hkids := hleaf a hfound
    have hmem := h.childOf_mem ha
    have hne : a ≠ d := by
      rintro rfl
      rw [hkids] at hmem
      cases hmem
    obtain ⟨node, hnode⟩ := ne_none_iff_exists'.mp (h.allocated d a hmem)
    obtain ⟨dir, hdir⟩ := ne_none_iff_exists'.mp (ne_none_of_isDirectory (h.directory d a hmem))
    rw [kids_of_some hnode] at hkids
    rw [kids_of_some hdir] at hmem
    obtain ⟨children, hremove, hchildren⟩ := ArrayList.remove_eq (.inl hmem)
    obtain ⟨htree, hkeeps, hfollow⟩ := h.detach hd ha (hleaf a hfound) hdir hchildren
    refine ⟨true, _, ?_, htree, hkeeps, iff_of_true rfl (by rw [hfound]; rfl), hfollow⟩
    have hempty : node.children.isEmpty = true := (ArrayList.isEmpty_iff _).mpr hkids
    have hnode' : setChildren fs.heap d dir children a = some node :=
      (update_of_ne hne _ _).trans hnode
    rw [hcall, deleteFound, Cpu.deref_some hnode]
    simp only [bind, Except.bind, hempty, Cpu.deref_some hdir, hremove, destroy,
      Cpu.deref_some hnode', hkids]
    rfl

end Calls

end HuyaOS.Filesystem.RamFsDriver
