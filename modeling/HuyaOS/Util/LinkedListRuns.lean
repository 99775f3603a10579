import HuyaOS.Util.LinkedList

/-!
Runs of calls on a `LinkedList`, compared with the same calls on lists. The
condition under which a call is right depends on the elements only. For
`remove(element)` the element has to be the first one, or the second one of at
least three. `add(index, element)` inserts behind the position, so it is right if
the element at the position is the same and is not the last one.
-/

namespace HuyaOS.LinkedList

open Lib List Prod

variable {T : Type}

inductive Call (T : Type)
  | push (element : T)
  | pop
  | remove (element : T)
  | addAt (index : Nat) (element : T)
  | removeAt (index : Nat)

inductive Answer (T : Type)
  | none
  | flag (b : Bool)
  | element (t : T)
  deriving DecidableEq

variable [BEq T]

def call (list : LinkedList T) (pushed node : Nat) :
    Call T → Except Cpu.Stop (Answer T × LinkedList T)
  | .push element => do return (.none, ← list.push node element)
  | .pop => do
      let (element, list) ← list.pop
      return (.element element, list)
  | .remove element => do
      let (found, list) ← list.remove element
      return (.flag found, list)
  | .addAt index element => do return (.none, ← list.addAt pushed node index element)
  | .removeAt index => do
      let (element, list) ← list.removeAt index
      return (.element element, list)

/-- The calls on a list. There is no answer where a call has no element to return
or no place to insert at. -/
def listCall : List T → Call T → Option (Answer T × List T)
  | xs, .push element => some (.none, xs ++ [element])
  | [], .pop => none
  | x :: xs, .pop => some (.element x, xs)
  | xs, .remove element => some (.flag (xs.any (· == element)), xs.erase element)
  | xs, .addAt index element =>
      if index ≤ xs.length then some (.none, xs.insertIdx index element) else none
  | xs, .removeAt index => xs[index]?.map fun x => (.element x, xs.eraseIdx index)

/-- The elements that `remove(element)` deals with. -/
def removable (element : T) : List T → Bool
  | [] => true
  | [x] => x == element
  | [x, _] => x == element
  | x :: y :: _ => x == element || y == element

/-- When a call does what it does on lists. -/
def Meets (xs : List T) : Call T → Prop
  | .remove element => removable element xs = true
  | .addAt index element => index + 1 < xs.length ∧ xs[index]? = some element
  | _ => True

section Remove

variable {list : LinkedList T} {nodes : List (Nat × T)} {a b : Nat} {x y element : T}

theorem Linked.remove_of_ne (h : list.Linked ((a, x) :: nodes)) (hx : ¬(x == element) = true) :
    ∃ next, Chain list.heap next nodes none ∧
      list.remove element = list.removeNext element next := by
  obtain ⟨hhead, next, hcell, hrest⟩ := h.chain
  refine ⟨next, hrest, ?_⟩
  unfold LinkedList.remove
  rw [hhead, Cpu.deref_some hcell]
  exact if_neg hx

theorem Linked.remove_of_pop (h : list.Linked ((a, x) :: nodes)) (hx : (x == element) = true)
    {list' : LinkedList T} (hpop : list.pop = .ok (x, list')) :
    list.remove element = .ok (true, list') := by
  obtain ⟨hhead, _, hcell, -⟩ := h.chain
  unfold LinkedList.remove
  rw [hhead, Cpu.deref_some hcell]
  simp only [bind, Except.bind, if_pos hx, hpop]
  rfl

theorem Linked.remove_head (h : list.Linked ((a, x) :: nodes)) (hx : (x == element) = true) :
    ∃ list', list.remove element = .ok (true, list') ∧ list'.Linked nodes := by
  obtain ⟨list', hpop, hlinked⟩ := h.pop
  exact ⟨list', h.remove_of_pop hx hpop, hlinked⟩

/-- The loop looks behind the last node. -/
theorem Linked.remove_last (h : list.Linked [(a, x)]) (hx : ¬(x == element) = true) :
    list.remove element = .error .nullPointer := by
  obtain ⟨_, rfl, hremove⟩ := h.remove_of_ne hx
  rw [hremove]
  rfl

section

variable (h : list.Linked ((a, x) :: (b, y) :: nodes)) (hx : ¬(x == element) = true)

include h hx

theorem Linked.remove_second (hy : (y == element) = true) :
    ∃ list', list.remove element = .ok (true, list') ∧ list'.tail = list.tail ∧
      list'.Holds ((a, x) :: nodes) := by
  obtain ⟨_, ⟨rfl, -⟩, hremove⟩ := h.remove_of_ne hx
  have hhead : list.head = some a := h.chain.1
  have hholds : list.Holds ([] ++ (a, x) :: (b, y) :: nodes) := h.toHolds
  obtain ⟨_, list', hcell, -, hset, htail, hrest⟩ := hholds.detach
  refine ⟨(list'.delete (some b)).decrement, ?_, htail, hrest⟩
  rw [hremove, removeNext, Cpu.deref_some hcell]
  simp only [bind, Except.bind, if_pos hy, hhead, hset]
  rfl

/-- The loop does not get beyond the second node. -/
theorem Linked.remove_other (hy : ¬(y == element) = true) :
    list.remove element = .error .endlessLoop := by
  obtain ⟨_, ⟨rfl, _, hcell, -⟩, hremove⟩ := h.remove_of_ne hx
  rw [hremove, removeNext, Cpu.deref_some hcell]
  exact if_neg hy

/-- Without the second of two nodes `tail` leads to the deleted node. -/
theorem Linked.remove_second_iff (hy : (y == element) = true) :
    (∃ list', list.remove element = .ok (true, list') ∧ list'.Represents (x :: nodes.map snd)) ↔
      nodes ≠ [] := by
  obtain ⟨list', hremove, htail, hholds⟩ := h.remove_second hx hy
  have hlast := h.tail (cons_ne_nil _ _)
  match nodes with
  | [] =>
    refine iff_of_false ?_ (not_not.mpr rfl)
    rintro ⟨list'', hremove', hrepresents⟩
    cases hremove.symm.trans hremove'
    have htail' := (hrepresents.eq_of_chain hholds.chain).2.tail (cons_ne_nil _ _)
    rw [htail, hlast] at htail'
    cases htail'
    exact absurd h.nodup (by simp)
  | node :: nodes =>
    refine iff_of_true ⟨list', hremove, _, ⟨hholds, fun _ => ?_⟩, rfl⟩ (cons_ne_nil _ _)
    rw [htail, hlast]
    simp

end

theorem removable_of_head {xs : List T} (hx : (x == element) = true) :
    removable element (x :: xs) = true := by
  match xs with
  | [] => exact hx
  | [_] => exact hx
  | _ :: _ :: _ => exact (Bool.or_eq_true _ _).mpr (.inl hx)

theorem removable_of_ne {xs : List T} (hx : ¬(x == element) = true) :
    removable element (x :: y :: xs) = true ↔ (y == element) = true ∧ xs ≠ [] := by
  match xs with
  | [] => exact iff_of_false hx fun hlong => hlong.2 rfl
  | _ :: _ =>
    refine (Bool.or_eq_true _ _).to_iff.trans ?_
    rw [or_iff_right hx, and_iff_left (cons_ne_nil _ _)]

theorem Linked.remove_iff (h : list.Linked nodes) :
    (∃ list', list.remove element = .ok ((nodes.map snd).any (· == element), list') ∧
      list'.Represents ((nodes.map snd).erase element)) ↔
      removable element (nodes.map snd) = true := by
  match nodes with
  | [] =>
    have hremove : list.remove element = .ok (false, list) := if_pos h.chain.isNone_start
    exact iff_of_true ⟨list, hremove, [], h, rfl⟩ rfl
  | (a, x) :: nodes =>
    rw [map_cons, any_cons, erase_cons]
    by_cases hx : (x == element) = true
    · obtain ⟨list', hremove, hlinked⟩ := h.remove_head hx
      rw [hx, if_pos rfl]
      exact iff_of_true ⟨list', hremove, nodes, hlinked, rfl⟩ (removable_of_head hx)
    · rw [Bool.eq_false_iff.mpr hx]
      match nodes with
      | [] =>
        refine iff_of_false ?_ hx
        rintro ⟨_, hremove, -⟩
        cases (h.remove_last hx).symm.trans hremove
      | (b, y) :: nodes =>
        rw [map_cons, any_cons, erase_cons, removable_of_ne hx]
        by_cases hy : (y == element) = true
        · rw [hy, and_iff_right rfl, ne_eq, map_eq_nil_iff]
          exact h.remove_second_iff hx hy
        · refine iff_of_false ?_ fun hlong => hy hlong.1
          rintro ⟨_, hremove, -⟩
          cases (h.remove_other hx hy).symm.trans hremove

end Remove

section Add

omit [BEq T]

theorem insertIdx_length_append (xs ys : List T) (y : T) :
    (xs ++ ys).insertIdx xs.length y = xs ++ y :: ys := by
  induction xs with
  | nil => rfl
  | cons x xs ih => exact congrArg (x :: ·) ih

variable {list : LinkedList T} {nodes before after : List (Nat × T)} {pushed node a : Nat} {x y : T}

theorem exists_eq_append_cons {index : Nat} (h : index < nodes.length) :
    ∃ before node after, nodes = before ++ node :: after ∧ before.length = index := by
  refine ⟨nodes.take index, nodes[index], nodes.drop (index + 1), ?_, ?_⟩
  · rw [getElem_cons_drop, take_append_drop]
  · rw [length_take, min_eq_left h.le]

theorem Linked.addAt_of_lt_iff (h : list.Linked (before ++ (a, x) :: after))
    (hnode : list.Fresh node) :
    (∃ list', list.addAt pushed node before.length y = .ok list' ∧
      list'.Represents (((before ++ (a, x) :: after).map snd).insertIdx before.length y)) ↔
      after ≠ [] ∧ x = y := by
  obtain ⟨list', hadd, htail, hholds⟩ := h.toHolds.addAt hnode pushed y
  have hlast := h.tail (by simp)
  have hinsert : ((before ++ (a, x) :: after).map snd).insertIdx before.length y =
      before.map snd ++ y :: x :: after.map snd := by
    rw [map_append, ← List.length_map snd, insertIdx_length_append]
    rfl
  rw [hinsert]
  constructor
  · rintro ⟨_, hadd', hrepresents⟩
    cases hadd.symm.trans hadd'
    obtain ⟨heq, hlinked⟩ := hrepresents.eq_of_chain hholds.chain
    constructor
    · -- otherwise the new node is the last one
      rintro rfl
      have htail' := hlinked.tail (by simp)
      rw [htail, hlast] at htail'
      have hsame : a = node := by simpa using htail'
      exact absurd hlinked.nodup (by simp [hsame, nodup_append])
    · rw [map_append, append_cancel_left_eq] at heq
      exact (cons.inj heq).1.symm
  · rintro ⟨hafter, rfl⟩
    refine ⟨list', hadd, _, ⟨hholds, fun _ => ?_⟩, ?_⟩
    · obtain ⟨next, after, rfl⟩ := exists_cons_of_ne_nil hafter
      rw [htail, hlast]
      simp
    · simp

section

variable (h : list.Linked nodes) (hpushed : list.Fresh pushed) (hnode : list.Fresh node)
  (hne : pushed ≠ node)

include h hpushed hnode hne

theorem Linked.addAt_length_wrong : ¬∃ list', list.addAt pushed node nodes.length y = .ok list' ∧
      list'.Represents ((nodes.map snd).insertIdx nodes.length y) := by
  rintro ⟨list', hadd, hrepresents⟩
  cases nodes with
  | nil =>
    obtain ⟨list'', hadd', hholds⟩ := h.addAt_nil hpushed hnode hne y
    cases hadd.symm.trans hadd'
    obtain ⟨heq, -⟩ := hrepresents.eq_of_chain hholds.chain
    cases heq
  | cons first nodes =>
    obtain ⟨hadd', hchain⟩ := h.toHolds.addAt_length (cons_ne_nil _ _) hnode pushed y
    cases hadd.symm.trans hadd'
    obtain ⟨heq, -⟩ := hrepresents.eq_of_chain hchain
    have hlength := congrArg List.length heq
    rw [List.length_insertIdx_of_le_length (by simp)] at hlength
    omega

theorem Linked.addAt_iff {index : Nat} (hindex : index ≤ nodes.length) :
    (∃ list', list.addAt pushed node index y = .ok list' ∧
      list'.Represents ((nodes.map snd).insertIdx index y)) ↔
      index + 1 < nodes.length ∧ (nodes.map snd)[index]? = some y := by
  rcases hindex.eq_or_lt with rfl | hlt
  · exact iff_of_false (h.addAt_length_wrong hpushed hnode hne) (by omega)
  · obtain ⟨before, ⟨a, x⟩, after, rfl, rfl⟩ := exists_eq_append_cons hlt
    rw [h.addAt_of_lt_iff hnode]
    refine and_congr ?_ ?_
    · rw [← length_pos_iff, length_append, length_cons]
      omega
    · simp

end

end Add

variable {list list' : LinkedList T} {xs xs' : List T} {pushed node : Nat} {c : Call T}
  {answer : Answer T}

/-- Among the calls that have an answer on lists, exactly those that meet the
condition return with this answer and the right list. -/
theorem Represents.call_iff (h : list.Represents xs) (hpushed : list.Fresh pushed)
    (hnode : list.Fresh node) (hne : pushed ≠ node) (hcall : listCall xs c = some (answer, xs')) :
    (∃ list', list.call pushed node c = .ok (answer, list') ∧ list'.Represents xs') ↔
      Meets xs c := by
  obtain ⟨nodes, h, rfl⟩ := h
  cases c with
  | push element =>
    cases hcall
    obtain ⟨list', hpush, hlinked⟩ := h.push hnode element
    refine iff_of_true ⟨list', ?_, _, hlinked, ?_⟩ trivial
    · rw [call, hpush]
      rfl
    · rw [map_append]
      rfl
  | pop =>
    cases nodes with
    | nil => cases hcall
    | cons first nodes =>
      cases hcall
      obtain ⟨list', hpop, hlinked⟩ := h.pop
      refine iff_of_true ⟨list', ?_, nodes, hlinked, rfl⟩ trivial
      rw [call, hpop]
      rfl
  | remove element =>
    cases hcall
    refine Iff.trans ?_ h.remove_iff
    refine exists_congr fun list' => and_congr_left fun _ => ?_
    rw [call, bind_eq_ok]
    constructor
    · rintro ⟨⟨found, _⟩, hremove, heq⟩
      obtain ⟨hfound, rfl⟩ : Answer.flag found = _ ∧ _ = list' := Prod.mk.inj (Except.ok.inj heq)
      rw [hremove, Answer.flag.inj hfound]
    · intro hremove
      exact ⟨_, hremove, rfl⟩
  | addAt index element =>
    simp only [listCall, Option.ite_none_right_eq_some, Option.some.injEq, Prod.mk.injEq] at hcall
    obtain ⟨hindex, rfl, rfl⟩ := hcall
    rw [List.length_map] at hindex
    refine Iff.trans ?_ ((h.addAt_iff hpushed hnode hne hindex).trans
      (by rw [Meets, List.length_map]))
    refine exists_congr fun list' => and_congr_left fun _ => ?_
    rw [call, bind_eq_ok]
    constructor
    · rintro ⟨_, hadd, heq⟩
      cases heq
      exact hadd
    · intro hadd
      exact ⟨_, hadd, rfl⟩
  | removeAt index =>
    simp only [listCall, Option.map_eq_some_iff, Prod.mk.injEq] at hcall
    obtain ⟨y, hget, rfl, rfl⟩ := hcall
    obtain ⟨hlt, hy⟩ := List.getElem?_eq_some_iff.mp hget
    rw [List.length_map] at hlt
    obtain ⟨before, ⟨b, x⟩, after, rfl, rfl⟩ := exists_eq_append_cons hlt
    obtain ⟨list', hremove, hlinked⟩ := h.removeAt
    have hx : x = y := by simpa using hget
    refine iff_of_true ⟨list', ?_, _, hlinked, ?_⟩ trivial
    · rw [call, hremove, hx]
      rfl
    · simp [eraseIdx_append_of_length_le]

/-- A call that returns, with its answer. -/
def Step (list : LinkedList T) (event : Call T × Answer T) (list' : LinkedList T) : Prop :=
  ∃ pushed node, list.Fresh pushed ∧ list.Fresh node ∧ pushed ≠ node ∧
    list.call pushed node event.1 = .ok (event.2, list')

def ListStep (xs : List T) (event : Call T × Answer T) (xs' : List T) : Prop :=
  listCall xs event.1 = some (event.2, xs')

/-- A call that has an answer on lists and meets the condition. -/
def SoundStep (list : LinkedList T) (event : Call T × Answer T) (list' : LinkedList T) : Prop :=
  list.Step event list' ∧ ∃ xs, list.Represents xs ∧ (listCall xs event.1).isSome = true ∧
    Meets xs event.1

omit [BEq T] in
theorem Represents.unique (h : list.Represents xs) (h' : list.Represents xs') : xs = xs' := by
  obtain ⟨nodes, hlinked, rfl⟩ := h'
  exact (h.eq_of_chain hlinked.chain).1

theorem SoundStep.follow {event : Call T × Answer T} (hstep : list.SoundStep event list')
    (h : list.Represents xs) :
    ∃ xs', ListStep xs event xs' ∧ list'.Represents xs' := by
  obtain ⟨⟨pushed, node, hpushed, hnode, hne, hcall⟩, ys, hys, hsome, hmeets⟩ := hstep
  cases h.unique hys
  obtain ⟨⟨answer, xs'⟩, hlist⟩ := Option.isSome_iff_exists.mp hsome
  obtain ⟨list'', hcall', hrepresents⟩ := (h.call_iff hpushed hnode hne hlist).mpr hmeets
  cases hcall.symm.trans hcall'
  exact ⟨xs', hlist, hrepresents⟩

/-- In a run of calls that meet the condition every answer is that on lists, and
the nodes hold the elements of the list. From there a further call returns and is
right exactly if it meets the condition. -/
theorem refines_list_of_sound_run [Inhabited T] {events : List (Call T × Answer T)}
    (hrun : Run SoundStep (new T) events list) :
    ∃ xs, Run ListStep [] events xs ∧ list.Represents xs ∧ list.toArray = .ok xs ∧
      ∀ pushed node c answer xs', list.Fresh pushed → list.Fresh node → pushed ≠ node →
        listCall xs c = some (answer, xs') →
        ((∃ list', list.call pushed node c = .ok (answer, list') ∧ list'.Represents xs') ↔
          Meets xs c) := by
  have hfollow : ∀ (s : LinkedList T) event s' (t : List T), s.Represents t → s.SoundStep event s' →
      ∃ t', ListStep t event t' ∧ s'.Represents t' := fun _ _ _ _ h hstep => hstep.follow h
  obtain ⟨xs, hlists, hrepresents⟩ := hrun.follow hfollow ⟨[], linked_new, rfl⟩
  exact ⟨xs, hlists, hrepresents, hrepresents.toArray, fun _ _ _ _ _ hpushed hnode hne hcall =>
    hrepresents.call_iff hpushed hnode hne hcall⟩

/-- The second one of three elements is removed. -/
theorem refines_list_of_sound_run_three_elements :
    ∃ list : LinkedList Nat, Run SoundStep (new Nat)
        [(.push 5, .none), (.push 7, .none), (.push 9, .none), (.remove 7, .flag true)] list ∧
      list.Represents [5, 9] ∧ list.toArray = .ok [5, 9] := by
  obtain ⟨list, hrun⟩ : ∃ list : LinkedList Nat, Run SoundStep (new Nat)
      [(.push 5, .none), (.push 7, .none), (.push 9, .none), (.remove 7, .flag true)] list := by
    refine ⟨_,
      .next ⟨⟨9, 1, ⟨rfl, by decide⟩, ⟨rfl, by decide⟩, by decide, rfl⟩, [], ⟨[], linked_new, rfl⟩,
        rfl, trivial⟩ <|
      .next ⟨⟨9, 2, ⟨rfl, by decide⟩, ⟨rfl, by decide⟩, by decide, rfl⟩, [5], ⟨[(1, 5)], ?_, rfl⟩,
        rfl, trivial⟩ <|
      .next ⟨⟨9, 3, ⟨rfl, by decide⟩, ⟨rfl, by decide⟩, by decide, rfl⟩, [5, 7],
        ⟨[(1, 5), (2, 7)], ?_, rfl⟩, rfl, trivial⟩ <|
      .next ⟨⟨9, 4, ⟨rfl, by decide⟩, ⟨rfl, by decide⟩, by decide, rfl⟩, [5, 7, 9],
        ⟨[(1, 5), (2, 7), (3, 9)], ?_, rfl⟩, rfl, rfl⟩ <| .done _⟩
    · exact ⟨⟨⟨rfl, _, rfl, rfl⟩, by decide, rfl, by decide⟩, fun _ => rfl⟩
    · exact ⟨⟨⟨rfl, _, rfl, rfl, _, rfl, rfl⟩, by decide, rfl, by decide⟩, fun _ => rfl⟩
    · exact ⟨⟨⟨rfl, _, rfl, rfl, _, rfl, rfl, _, rfl, rfl⟩, by decide, rfl, by decide⟩,
        fun _ => rfl⟩
  obtain ⟨xs, hlists, hrepresents, harray, -⟩ := refines_list_of_sound_run hrun
  obtain rfl : xs = [5, 9] := by
    rcases hlists with _ | ⟨⟨⟩, _ | ⟨⟨⟩, _ | ⟨⟨⟩, _ | ⟨⟨⟩, ⟨⟩⟩⟩⟩⟩
    rfl
  exact ⟨list, hrun, hrepresents, harray⟩

/-- Removing the third element does not end. -/
theorem remove_third_never_returns :
    ∃ list : LinkedList Nat, Run Step (new Nat) [(.push 1, .none), (.push 2, .none),
      (.push 3, .none)] list ∧
      list.toArray = .ok [1, 2, 3] ∧ ∀ pushed node, list.call pushed node (.remove 3) =
        .error .endlessLoop := by
  refine ⟨_, .next ⟨9, 1, ⟨rfl, by decide⟩, ⟨rfl, by decide⟩, by decide, rfl⟩ <|
    .next ⟨9, 2, ⟨rfl, by decide⟩, ⟨rfl, by decide⟩, by decide, rfl⟩ <|
    .next ⟨9, 3, ⟨rfl, by decide⟩, ⟨rfl, by decide⟩, by decide, rfl⟩ <| .done _, rfl,
      fun _ _ => rfl⟩

end HuyaOS.LinkedList
