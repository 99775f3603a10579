import Mathlib.Algebra.BigOperators.Group.List.Basic
import HuyaOS.Lib.Transition
import HuyaOS.Util.HashMap

/-!
A hash map as a partial map. In the chain of an index there are only keys that
belong there, each of them once; equivalent keys belong into the same chain, so
looking into the one chain of a key answers for the whole table. Every operation
keeps this and changes the partial map by one key.

The keys that a program uses are a parameter, since a test may be an equivalence
on these only.
-/

namespace HuyaOS.HashMap

open Lib List Prod

variable {K V : Type} [BEq K]

/-- What the keys of the chain at an index have to satisfy. -/
structure Chained (used : K → Prop) (code : K → Nat) (tableSize index : Nat)
    (keys : List K) : Prop where
  used : ∀ k ∈ keys, used k
  index_eq : ∀ k ∈ keys, code k % tableSize = index
  distinct : keys.Pairwise fun a b => (a == b) = false

variable {used : K → Prop} {code : K → Nat} {tableSize index : Nat} {keys : List K}

theorem Chained.sublist {keys' : List K} (h : Chained used code tableSize index keys)
    (hsub : keys'.Sublist keys) :
    Chained used code tableSize index keys' where
  used k hk := h.used k (hsub.subset hk)
  index_eq k hk := h.index_eq k (hsub.subset hk)
  distinct := h.distinct.sublist hsub

theorem Chained.tail {k : K} (h : Chained used code tableSize index (k :: keys)) :
    Chained used code tableSize index keys :=
  h.sublist (sublist_cons_self k keys)

theorem Chained.concat {key : K} (h : Chained used code tableSize index keys) (hused : used key)
    (hindex : code key % tableSize = index) (hnew : ∀ k ∈ keys, (k == key) = false) :
    Chained used code tableSize index (keys ++ [key]) where
  used := forall_mem_append.mpr ⟨h.used, forall_mem_singleton.mpr hused⟩
  index_eq := forall_mem_append.mpr ⟨h.index_eq, forall_mem_singleton.mpr hindex⟩
  distinct := by
    refine pairwise_append.mpr ⟨h.distinct, pairwise_singleton _ _, ?_⟩
    intro k hk k' hk'
    rw [mem_singleton.mp hk']
    exact hnew k hk

section Chains

variable {key k : K}

theorem getNode_cons_of_pos (h : (k == key) = true) (v : V) (rest : List (K × V)) :
    getNode key ((k, v) :: rest) = some v := if_pos h

theorem getNode_cons_of_neg (h : ¬(k == key) = true) (v : V) (rest : List (K × V)) :
    getNode key ((k, v) :: rest) = getNode key rest := if_neg h

/-- The chain without the first node that has the key. -/
def dropKey (key : K) (nodes : List (K × V)) : List (K × V) :=
  nodes.eraseP fun node => node.1 == key

theorem dropKey_cons_of_pos (h : (k == key) = true) (v : V) (rest : List (K × V)) :
    dropKey key ((k, v) :: rest) = rest := eraseP_cons_of_pos h

theorem dropKey_cons_of_neg (h : ¬(k == key) = true) (v : V) (rest : List (K × V)) :
    dropKey key ((k, v) :: rest) = (k, v) :: dropKey key rest := eraseP_cons_of_neg h

end Chains

theorem getNode_eq_none_iff {key : K} {nodes : List (K × V)} :
    getNode key nodes = none ↔ ∀ k ∈ nodes.map fst, (k == key) = false := by
  induction nodes with
  | nil => simp [getNode]
  | cons node rest ih =>
    obtain ⟨k, v⟩ := node
    by_cases hkey : (k == key) = true
    · rw [getNode_cons_of_pos hkey]
      simp [hkey]
    · rw [getNode_cons_of_neg hkey, ih, map_cons, forall_mem_cons, Bool.eq_false_iff]
      exact (and_iff_right hkey).symm

theorem keys_putNode (key : K) (value : V) (nodes : List (K × V)) :
    (putNode key value nodes).map fst =
      if (getNode key nodes).isSome then nodes.map fst else nodes.map fst ++ [key] := by
  induction nodes with
  | nil => rfl
  | cons node rest ih =>
    unfold putNode getNode
    split
    · rfl
    · rw [map_cons, ih]
      split <;> rfl

theorem removeNode_eq (key : K) (nodes : List (K × V)) :
    removeNode key nodes = (getNode key nodes).map fun value => (value, dropKey key nodes) := by
  induction nodes with
  | nil => rfl
  | cons node rest ih =>
    obtain ⟨k, v⟩ := node
    unfold removeNode
    by_cases hkey : (k == key) = true
    · rw [if_pos hkey, getNode_cons_of_pos hkey, dropKey_cons_of_pos hkey]
      rfl
    · rw [if_neg hkey, getNode_cons_of_neg hkey, dropKey_cons_of_neg hkey, ih]
      cases getNode key rest <;> rfl

section Lookup

variable {used : K → Prop} {code : K → Nat} (test : KeyTest used code) {tableSize index : Nat}
  {nodes : List (K × V)} {key : K}

include test

theorem getNode_putNode (hnodes : ∀ k ∈ nodes.map fst, used k) {key' : K} (hkey : used key)
    (hkey' : used key') (value : V) :
    getNode key' (putNode key value nodes) = if key' == key then some value
      else getNode key' nodes := by
  induction nodes with
  | nil =>
    unfold putNode getNode
    rw [test.comm hkey hkey']
    rfl
  | cons node rest ih =>
    obtain ⟨k, v⟩ := node
    rw [map_cons, forall_mem_cons] at hnodes
    have hcongr : (key' == key) = true → (k == key') = (k == key) :=
      test.congr_right hkey' hkey hnodes.1
    unfold putNode
    by_cases hnode : (k == key) = true <;> by_cases hnode' : (k == key') = true
    · rw [if_pos hnode, getNode_cons_of_pos hnode',
        if_pos (test.trans hkey' hnodes.1 hkey (test.symm hnodes.1 hkey' hnode') hnode)]
    · rw [if_pos hnode, getNode_cons_of_neg hnode', getNode_cons_of_neg hnode',
        if_neg fun h => hnode' ((hcongr h).trans hnode)]
    · rw [if_neg hnode, getNode_cons_of_pos hnode', getNode_cons_of_pos hnode',
        if_neg fun h => hnode ((hcongr h).symm.trans hnode')]
    · rw [if_neg hnode, getNode_cons_of_neg hnode', getNode_cons_of_neg hnode', ih hnodes.2]

theorem getNode_tail_eq_none {first : K}
    (hchain : Chained used code tableSize index (first :: nodes.map fst)) (hkey : used key)
    (hfirst : (first == key) = true) : getNode key nodes = none := by
  obtain ⟨hused, -, hdistinct⟩ := hchain
  rw [forall_mem_cons] at hused
  rw [pairwise_cons] at hdistinct
  refine getNode_eq_none_iff.mpr fun k hk => Bool.eq_false_iff.mpr fun hkk => ?_
  have hsame := test.trans hused.1 hkey (hused.2 k hk) hfirst (test.symm (hused.2 k hk) hkey hkk)
  rw [hdistinct.1 k hk] at hsame
  cases hsame

section

variable (hchain : Chained used code tableSize index (nodes.map Prod.fst)) (hkey : used key)

include hchain hkey

theorem getNode_dropKey {key' : K} (hkey' : used key') :
    getNode key' (dropKey key nodes) = if key' == key then none else getNode key' nodes := by
  induction nodes with
  | nil => split <;> rfl
  | cons node rest ih =>
    obtain ⟨k, v⟩ := node
    have hused := hchain.used k mem_cons_self
    have hcongr : (key' == key) = true → (k == key') = (k == key) :=
      test.congr_right hkey' hkey hused
    by_cases hnode : (k == key) = true
    · rw [dropKey_cons_of_pos hnode]
      split
      · rename_i h
        exact getNode_tail_eq_none test hchain hkey' ((hcongr h).trans hnode)
      · rename_i h
        rw [getNode_cons_of_neg fun hnode' =>
          h (test.trans hkey' hused hkey (test.symm hused hkey' hnode') hnode)]
    · rw [dropKey_cons_of_neg hnode]
      by_cases hnode' : (k == key') = true
      · rw [getNode_cons_of_pos hnode', getNode_cons_of_pos hnode',
          if_neg fun h => hnode ((hcongr h).symm.trans hnode')]
      · rw [getNode_cons_of_neg hnode', getNode_cons_of_neg hnode', ih hchain.tail]

theorem countP_keys :
    (nodes.map fst).countP (· == key) = if (getNode key nodes).isSome then 1 else 0 := by
  induction nodes with
  | nil => rfl
  | cons node rest ih =>
    obtain ⟨k, v⟩ := node
    rw [map_cons, countP_cons, ih hchain.tail]
    by_cases hnode : (k == key) = true
    · rw [getNode_tail_eq_none test hchain hkey hnode, getNode_cons_of_pos hnode, if_pos hnode]
      rfl
    · rw [getNode_cons_of_neg hnode, if_neg hnode]
      rfl

end

end Lookup

/-- The table stands for a partial map on the keys that are used. -/
structure Represents (used : K → Prop) (code : K → Nat) (map : HashMap K V)
    (m : K → Option V) : Prop where
  size_pos : 0 < map.tableSize
  chained : ∀ i < map.tableSize,
    Chained used code map.tableSize i ((map.initialized.table i).map Prod.fst)
  lookup : ∀ k, used k → getNode k (map.initialized.chain code k) = m k

section Table

variable {used : K → Prop} {code : K → Nat} {map : HashMap K V} {m : K → Option V} {key : K}

theorem represents_ofSize (used : K → Prop) (code : K → Nat) (garbage : Nat → List (K × V))
    {tableSize : Nat} (hsize : 0 < tableSize) :
    Represents used code (ofSize garbage tableSize) fun _ => none where
  size_pos := hsize
  -- whatever the pointer of a new map leads to, no chain has a node
  chained _ _ := ⟨forall_mem_nil _, forall_mem_nil _, Pairwise.nil⟩
  lookup _ _ := rfl

section

variable (h : Represents used code map m)

include h

theorem Represents.initialized : Represents used code map.initialized m where
  size_pos := map.tableSize_initialized.symm ▸ h.size_pos
  chained i hi := by
    rw [tableSize_initialized] at hi ⊢
    rw [initialized_initialized]
    exact h.chained i hi
  lookup k hk := by
    rw [initialized_initialized]
    exact h.lookup k hk

theorem Represents.clear : Represents used code map.clear fun _ => none := by
  have hsize : map.clear.tableSize = map.tableSize := map.tableSize_initialized
  have hinit : map.clear.initialized = map.clear := by
    apply if_pos
    unfold HashMap.clear HashMap.initialized
    split
    · assumption
    · rfl
  have hempty : ∀ i < map.tableSize, map.clear.table i = [] := by
    intro i hi
    rw [← map.tableSize_initialized] at hi
    exact if_pos hi
  constructor
  · exact hsize.symm ▸ h.size_pos
  · intro i hi
    rw [hsize] at hi
    rw [hinit, hempty i hi]
    exact ⟨forall_mem_nil _, forall_mem_nil _, Pairwise.nil⟩
  · intro k _
    rw [hinit, chain, hsize, hempty _ (Nat.mod_lt _ h.size_pos)]
    rfl

theorem Represents.chain (key : K) :
    Chained used code map.tableSize (code key % map.tableSize)
      ((map.initialized.chain code key).map fst) := by
  unfold HashMap.chain
  rw [tableSize_initialized]
  exact h.chained _ (Nat.mod_lt _ h.size_pos)

/-- Replacing the chain of a key changes the map for the keys of this chain. -/
theorem Represents.setChain {nodes : List (K × V)} (count : Nat)
    (hnodes : Chained used code map.tableSize (code key % map.tableSize) (nodes.map fst))
    {m' : K → Option V}
    (hsame : ∀ k, used k → code k % map.tableSize = code key % map.tableSize →
        getNode k nodes = m' k)
    (hother : ∀ k, used k → code k % map.tableSize ≠ code key % map.tableSize → m k = m' k) :
    Represents used code (map.initialized.setChain code key nodes count) m' := by
  have hsize : (map.initialized.setChain code key nodes count).tableSize = map.tableSize :=
    map.tableSize_initialized
  have htable : (map.initialized.setChain code key nodes count).table =
      Function.update map.initialized.table (code key % map.tableSize) nodes := by
    rw [← map.tableSize_initialized]
    rfl
  constructor
  · exact hsize.symm ▸ h.size_pos
  · intro i hi
    rw [hsize] at hi ⊢
    rw [initialized_setChain, htable, Function.update_apply]
    split
    · rename_i heq
      exact heq ▸ hnodes
    · exact h.chained i hi
  · intro k hk
    rw [initialized_setChain, HashMap.chain, hsize, htable, Function.update_apply]
    split
    · rename_i heq
      exact hsame k hk heq
    · rename_i hne
      rw [← hother k hk hne, ← h.lookup k hk, HashMap.chain, tableSize_initialized]

end

variable (test : KeyTest used code)

include test

theorem Represents.other_chain (hkey : used key) {k : K} (hk : used k)
    (hne : code k % map.tableSize ≠ code key % map.tableSize) : ¬(k == key) = true := by
  intro h
  rw [test.code_eq hk hkey h] at hne
  exact hne rfl

section

variable (h : Represents used code map m) (hkey : used key)

include h hkey

theorem Represents.put (value : V) :
    Represents used code (map.put code key value) (PartialMap.insert m key value) := by
  have hchain := h.chain key
  apply h.setChain
  · rw [keys_putNode]
    split
    · exact hchain
    · rename_i hnone
      rw [Bool.not_eq_true, Option.isSome_eq_false_iff, Option.isNone_iff_eq_none,
        getNode_eq_none_iff] at hnone
      exact hchain.concat hkey rfl hnone
  · intro k hk heq
    have hsame : getNode k (map.initialized.chain code key) = m k := by
      rw [← h.lookup k hk, HashMap.chain, HashMap.chain, tableSize_initialized, heq]
    rw [getNode_putNode test hchain.used hkey hk, hsame]
    rfl
  · intro k hk hne
    exact (if_neg (Represents.other_chain test hkey hk hne)).symm

theorem Represents.remove_of_some {value : V} (hvalue : m key = some value) :
    ∃ map', map.remove code key = .ok (value, map') ∧
      Represents used code map' (PartialMap.erase m key) := by
  have hchain := h.chain key
  unfold HashMap.remove
  simp only [removeNode_eq, h.lookup key hkey, hvalue, Option.map_some]
  refine ⟨_, rfl, h.setChain _ ?_ ?_ ?_⟩
  · exact hchain.sublist (eraseP_sublist.map fst)
  · intro k hk heq
    have hsame : getNode k (map.initialized.chain code key) = m k := by
      rw [← h.lookup k hk, HashMap.chain, HashMap.chain, tableSize_initialized, heq]
    rw [getNode_dropKey test hchain hkey hk, hsame]
    rfl
  · intro k hk hne
    exact (if_neg (Represents.other_chain test hkey hk hne)).symm

omit test in
theorem Represents.remove_of_none (hnone : m key = none) :
    map.remove code key = .error (.throwException .KEY_NOT_FOUND) := by
  unfold HashMap.remove
  simp only [removeNode_eq, h.lookup key hkey, hnone, Option.map_none]

omit test in
theorem Represents.get :
    map.get code key = (m key).elim (.error (.throwException .KEY_NOT_FOUND)) .ok := by
  unfold HashMap.get
  rw [h.lookup key hkey]
  cases m key <;> rfl

omit test in
theorem Represents.containsKey : map.containsKey code key = (m key).isSome := by
  rw [← h.lookup key hkey]
  unfold HashMap.containsKey HashMap.initialized
  cases map.isInitialized <;> rfl

end

omit test in
omit [BEq K] in
theorem keySet_eq [Inhabited K] (map : HashMap K V) :
    map.keySet = (List.range map.tableSize).flatMap fun i => (map.initialized.table i).map fst := by
  have hchain : ∀ (nodes : List (K × V)) (keyList : ArrayList K),
      (nodes.foldl (fun keyList node => keyList.add node.1) keyList).toArray =
        keyList.toArray ++ nodes.map fst := by
    intro nodes
    induction nodes with
    | nil => exact fun keyList => (append_nil _).symm
    | cons node rest ih =>
      intro keyList
      rw [foldl_cons, ih, ArrayList.toArray_add, append_assoc]
      rfl
  have htable : ∀ (is : List Nat) (keyList : ArrayList K), (is.foldl (fun keyList i =>
        (map.initialized.table i).foldl (fun keyList node => keyList.add node.1) keyList)
          keyList).toArray =
        keyList.toArray ++ is.flatMap fun i => (map.initialized.table i).map fst := by
    intro is
    induction is with
    | nil => exact fun keyList => (append_nil _).symm
    | cons i is ih =>
      intro keyList
      rw [foldl_cons, ih, hchain, flatMap_cons, append_assoc]
  exact htable _ _

theorem Represents.countP_keySet [Inhabited K] (h : Represents used code map m) (hkey : used key) :
    map.keySet.countP (· == key) = if (m key).isSome then 1 else 0 := by
  have hindex : code key % map.tableSize < map.tableSize := Nat.mod_lt _ h.size_pos
  have hother : ∀ i ≠ code key % map.tableSize, i ∈ range map.tableSize →
      ((map.initialized.table i).map fst).countP (· == key) = 0 := by
    intro i hne hi
    rw [countP_eq_zero]
    intro k hk hkk
    have hchain := h.chained i (mem_range.mp hi)
    exact hne ((hchain.index_eq k hk).symm.trans
      (congrArg (· % map.tableSize) (test.code_eq (hchain.used k hk) hkey hkk)))
  rw [keySet_eq, countP_flatMap]
  refine (sum_map_eq_nsmul_single _ _ hother).trans ?_
  rw [count_range, if_pos hindex, one_nsmul]
  refine (countP_keys test (h.chained _ hindex) hkey).trans ?_
  rw [← h.lookup key hkey, HashMap.chain, tableSize_initialized]

theorem Represents.isSome_iff [Inhabited K] (h : Represents used code map m) (hkey : used key) :
    (m key).isSome = true ↔ ∃ k ∈ map.keySet, (k == key) = true := by
  have hcount := h.countP_keySet test hkey
  rw [← countP_pos_iff, hcount]
  split <;> simp_all

omit test in
theorem Represents.used_of_mem_keySet [Inhabited K] (h : Represents used code map m) {k : K}
    (hk : k ∈ map.keySet) :
    used k := by
  rw [keySet_eq, mem_flatMap] at hk
  obtain ⟨i, hi, hk⟩ := hk
  exact (h.chained i (mem_range.mp hi)).used k hk

end Table

/-- The calls of a run. -/
inductive Call (K V : Type)
  | put (key : K) (value : V)
  | get (key : K)
  | remove (key : K)
  | clear

/-- A call and what it answers. A call that ends in an exception leaves the table
that it has created. -/
def call (code : K → Nat) (map : HashMap K V) : Call K V → HashMap K V × Except Cpu.Stop (Option V)
  | .put key value => (map.put code key value, .ok none)
  | .get key => (map.initialized, (map.get code key).map some)
  | .remove key =>
      match map.remove code key with
      | .ok (value, map') => (map', .ok (some value))
      | .error stop => (map.initialized, .error stop)
  | .clear => (map.clear, .ok none)

/-- The answer for a key that has to be there. -/
def valueOrThrow (found : Option V) : Except Cpu.Stop V :=
  found.elim (.error (.throwException .KEY_NOT_FOUND)) .ok

def mapCall (m : K → Option V) : Call K V → (K → Option V) × Except Cpu.Stop (Option V)
  | .put key value => (PartialMap.insert m key value, .ok none)
  | .get key => (m, (valueOrThrow (m key)).map some)
  | .remove key =>
      match m key with
      | some value => (PartialMap.erase m key, .ok (some value))
      | none => (m, .error (.throwException .KEY_NOT_FOUND))
  | .clear => (fun _ => none, .ok none)

theorem call_refines (test : KeyTest used code) {map : HashMap K V} {m : K → Option V}
    (h : Represents used code map m) (hused : ∀ k, used k) (c : Call K V) :
    Represents used code (call code map c).1 (mapCall m c).1 ∧
      (call code map c).2 = (mapCall m c).2 := by
  cases c with
  | put key value => exact ⟨h.put test (hused key) value, rfl⟩
  | get key => exact ⟨h.initialized, congrArg (Except.map some) (h.get (hused key))⟩
  | remove key =>
    unfold call mapCall
    cases hm : m key with
    | none =>
      simp only [h.remove_of_none (hused key) hm, hm]
      exact ⟨h.initialized, trivial⟩
    | some value =>
      obtain ⟨map', hremove, hrest⟩ := h.remove_of_some test (hused key) hm
      simp only [hremove, hm]
      exact ⟨hrest, trivial⟩
  | clear => exact ⟨h.clear, rfl⟩

/-- A map of any size, over keys with any test that fits to the numbers that they
are cast to, answers every run of calls as a partial map does. What it tells about
each key afterwards agrees with the partial map, and each key that is present is
in the set of keys once. -/
theorem refines_partialMap [EquivBEq K] [Inhabited K] {code : K → Nat}
    (hcode : ∀ a b : K, (a == b) = true → code a = code b) {tableSize : Nat} (hsize : 0 < tableSize)
    (garbage : Nat → List (K × V)) (calls : List (Call K V)) :
    let run := execute (call code) (ofSize garbage tableSize) calls
    let spec := execute mapCall (fun _ => none) calls
    run.2 = spec.2 ∧ ∀ key,
      run.1.containsKey code key = (spec.1 key).isSome ∧
      run.1.get code key = valueOrThrow (spec.1 key) ∧
      run.1.keySet.countP (· == key) = if (spec.1 key).isSome then 1 else 0 := by
  have test := KeyTest.of_equivBEq hcode
  obtain ⟨hrep, hanswers⟩ := execute_simulates (R := Represents (fun _ => True) code)
    (fun _ _ c h _ => call_refines test h (fun _ => trivial) c)
    (represents_ofSize (fun _ => True) code garbage hsize) calls
      (allMet_iff_forall.mpr fun _ _ => trivial)
  refine ⟨hanswers, fun key => ⟨?_, ?_, ?_⟩⟩
  · exact hrep.containsKey trivial
  · exact hrep.get trivial
  · exact hrep.countP_keySet test trivial

/-- Two keys in one chain: one of them is overwritten and the other removed. -/
theorem refines_partialMap_collision :
    (execute (call id) (ofSize (fun _ => [(5, 5)]) 2)
        [.put 1 10, .put 3 30, .put 3 31, .remove 1, .get 1, .get (3 : Nat)]).2 =
      [.ok none, .ok none, .ok none, .ok (some 10), .error (.throwException .KEY_NOT_FOUND),
        .ok (some (31 : Nat))] :=
  (refines_partialMap (fun _ _ h => beq_iff_eq.mp h) Nat.two_pos (fun _ => [(5, 5)])
    [.put 1 10, .put 3 30, .put 3 31, .remove 1, .get 1, .get 3]).1

end HuyaOS.HashMap
