import HuyaOS.Kernel.EventBus

/-!
Which events the publishers get. Every call changes what waits in the buffer and in
the queues as it should; over a run this means that a publisher gets the events of its
type that `notify` takes out of the buffer after the subscription was made, in the
order in which they were published.
-/

namespace HuyaOS.Kernel.EventBus

open Lib Function List Option

variable {E : Type} {code : String → Nat} {pairCode : Nat × String → Nat} {getType : E → String}
  {bus : EventBus E}

/-- The key of a subscription and the events in the queue of its publisher. -/
abbrev Subscription (E : Type) := (Nat × String) × List E

/-- A publisher works for a subscription. -/
structure Serves (publisher : EventPublisher E) (subscription : Subscription E) : Prop where
  receiver : publisher.receiver = subscription.1.1
  wellFormed : subscription.1.2.WellFormed
  queue : publisher.eventQueue.Represents subscription.2

/-- The keys of the subscriptions. -/
def keysOf (subscriptions : Nat → Option (Subscription E)) (a : Nat) : Option (Nat × String) :=
  (subscriptions a).map Prod.fst

/-- The events that wait in the buffer, and the subscriptions with what waits in their queues. -/
structure Contents (code : String → Nat) (pairCode : Nat × String → Nat) (bus : EventBus E)
    (waiting : List E)
    (subscriptions : Nat → Option (Subscription E)) : Prop where
  initialized : bus.isInitialized = true
  buffer : bus.eventBuffer.Represents waiting
  serves : ∀ a, Option.Rel Serves (bus.heap a) (subscriptions a)
  indexed : Indexed code pairCode bus (keysOf subscriptions)

/-- The queues of all publishers for their types after events have been taken out of the buffer. -/
def deliver (getType : E → String) (events : List E) (subscriptions : Nat → Option (Subscription E))
    (a : Nat) :
    Option (Subscription E) :=
  (subscriptions a).map fun s => (s.1, s.2 ++ events.filter fun event => getType event == s.1.2)

def cancel (key : Nat × String) (subscriptions : Nat → Option (Subscription E)) (a : Nat) :
    Option (Subscription E) :=
  (subscriptions a).filter fun s => decide (s.1 ≠ key)

section Effects

variable {code : String → Nat} {pairCode : Nat × String → Nat} {getType : E → String}
  {bus bus' : EventBus E} {waiting : List E} {subscriptions : Nat → Option (Subscription E)}

theorem contents_new : Contents code pairCode (new E) [] fun _ => none where
  initialized := rfl
  buffer := ⟨[], LinkedList.linked_new, rfl⟩
  serves _ := .none
  indexed := indexed_new

theorem keysOf_update (a : Nat) (s : Option (Subscription E)) :
    keysOf (update subscriptions a s) = update (keysOf subscriptions) a (s.map Prod.fst) :=
  comp_update (Option.map Prod.fst) subscriptions a s

theorem keysOf_deliver (events : List E) :
    keysOf (deliver getType events subscriptions) = keysOf subscriptions := by
  funext a
  unfold keysOf deliver
  rw [Option.map_map]
  rfl

theorem cancel_of_ne {key : Nat × String} {a : Nat} (hne : keysOf subscriptions a ≠ some key) :
    cancel key subscriptions a = subscriptions a := by
  unfold keysOf at hne
  unfold cancel
  cases hs : subscriptions a with
  | none => rfl
  | some s =>
    rw [hs, map_some, ne_eq, some.injEq] at hne
    exact filter_some_pos (decide_eq_true hne)

section Serves

variable (hserves : ∀ a, Option.Rel Serves (bus.heap a) (subscriptions a)) {a : Nat}

include hserves

theorem eq_none_of_serves (ha : bus.heap a = none) : subscriptions a = none := by
  have hrel := hserves a
  rw [ha] at hrel
  generalize subscriptions a = s at hrel
  cases hrel
  rfl

theorem exists_of_serves {publisher : EventPublisher E} (ha : bus.heap a = some publisher) :
    ∃ s, subscriptions a = some s ∧ Serves publisher s := by
  have hrel := hserves a
  rw [ha] at hrel
  generalize subscriptions a = s at hrel
  cases hrel with
  | some hs => exact ⟨_, rfl, hs⟩

theorem wellFormed_of_serves {s : Subscription E} (hs : subscriptions a = some s) :
    s.1.2.WellFormed := by
  have hrel := hserves a
  rw [hs] at hrel
  generalize bus.heap a = publisher at hrel
  cases hrel with
  | some hserving => exact hserving.wellFormed

theorem serves_update {publisher : Option (EventPublisher E)} {s : Option (Subscription E)}
    (hs : Rel Serves publisher s) (b : Nat) :
    Rel Serves (update bus.heap a publisher b) (update subscriptions a s b) := by
  rw [update_apply, update_apply]
  split
  · exact hs
  · exact hserves b

end Serves

section Calls

variable (h : Contents code pairCode bus waiting subscriptions) {event : E} {a receiver : Nat}
  {type : String}

include h

theorem Contents.publish {node : Nat} (hcall : bus.publish node event = .ok bus') :
    Contents code pairCode bus' (waiting ++ [event]) subscriptions := by
  unfold EventBus.publish at hcall
  rw [if_pos h.initialized] at hcall
  obtain ⟨eventBuffer, hpush, hbus⟩ := bind_eq_ok.mp hcall
  cases hbus
  exact ⟨h.initialized, represents_pushNew h.buffer hpush, h.serves, h.indexed.receivers,
    h.indexed.lists⟩

theorem Contents.subscribe (htype : type.WellFormed)
    (hcall : bus.subscribe code pairCode a receiver type = .ok bus') :
    Contents code pairCode bus' waiting (update subscriptions a (some ((receiver, type), []))) := by
  obtain ⟨hfree, hcontains, list, hget, rfl⟩ := subscribe_cases hcall
  have hnone : keysOf subscriptions a = none :=
    map_eq_none_iff.mpr (eq_none_of_serves h.serves hfree)
  have hnew : ∀ b, keysOf subscriptions b ≠ some (receiver, type) := fun b hb =>
    hcontains ((h.indexed.containsKey_iff htype).mpr ⟨b, hb⟩)
  refine ⟨h.initialized, h.buffer,
    serves_update h.serves (.some ⟨rfl, htype, [], LinkedList.linked_new, rfl⟩), ?_⟩
  rw [keysOf_update]
  exact h.indexed.insert htype hnone hnew hget rfl rfl

theorem Contents.unsubscribe (htype : type.WellFormed)
    (hcall : bus.unsubscribe code pairCode receiver type = .ok bus') :
    Contents code pairCode bus' waiting (cancel (receiver, type) subscriptions) := by
  unfold EventBus.unsubscribe at hcall
  by_cases hcontains : bus.receiverMap.containsKey pairCode (receiver, type) = true
  · obtain ⟨a, ha⟩ := (h.indexed.containsKey_iff htype).mp hcontains
    obtain ⟨publishers, receiverMap, hget, hdrop, hremove, hindexed⟩ := h.indexed.erase htype ha
    have hcancel : cancel (receiver, type) subscriptions = update subscriptions a none := by
      funext b
      rw [update_apply]
      split
      · rename_i hb
        obtain ⟨s, hs, hkey⟩ := map_eq_some_iff.mp ha
        unfold cancel
        rw [hb, hs, filter_some_neg (by simpa using hkey)]
      · rename_i hb
        exact cancel_of_ne fun hkey => hb (h.indexed.unique htype hkey ha)
    rw [if_pos hcontains] at hcall
    simp only [bind, Except.bind, hget, hdrop, hremove] at hcall
    cases hcall
    refine ⟨h.initialized, h.buffer, ?_, ?_⟩
    · rw [hcancel]
      exact serves_update h.serves .none
    · rw [hcancel, keysOf_update]
      exact hindexed _ rfl rfl
  · have hcancel : cancel (receiver, type) subscriptions = subscriptions := by
      funext b
      exact cancel_of_ne fun hkey => hcontains ((h.indexed.containsKey_iff htype).mpr ⟨b, hkey⟩)
    rw [if_neg hcontains] at hcall
    cases hcall
    rw [hcancel]
    exact h

theorem Contents.forward (hcall : bus.forward a = .ok (event, bus')) :
    ∃ key q, subscriptions a = some (key, event :: q) ∧
      Contents code pairCode bus' waiting (update subscriptions a (some (key, q))) := by
  obtain ⟨publisher, hderef, hrest⟩ := bind_eq_ok.mp hcall
  obtain ⟨⟨event', eventQueue⟩, hpop, hbus⟩ := bind_eq_ok.mp hrest
  cases hbus
  obtain ⟨⟨key, queue⟩, hs, hserves⟩ := exists_of_serves h.serves (Cpu.deref_eq_ok.mp hderef)
  obtain ⟨q, rfl, hq⟩ := represents_pop hserves.queue hpop
  refine ⟨key, q, hs, h.initialized, h.buffer, ?_, ?_⟩
  · exact serves_update h.serves (.some ⟨hserves.receiver, hserves.wellFormed, hq⟩)
  · have hkeys : keysOf (update subscriptions a (some (key, q))) = keysOf subscriptions := by
      rw [keysOf_update, update_eq_self_iff]
      unfold keysOf
      rw [hs]
      rfl
    rw [hkeys]
    exact ⟨h.indexed.receivers, h.indexed.lists⟩

end Calls

section Notify

variable {node : Nat → LinkedList E → Nat} {event : E} {a : Nat} {as : List Nat}

theorem add_cases (hcall : add node event bus a = .ok bus') :
    ∃ publisher eventQueue, bus.heap a = some publisher ∧
      pushNew publisher.eventQueue (node a publisher.eventQueue) event = .ok eventQueue ∧
      bus' = { bus with heap := update bus.heap a (some { publisher with eventQueue }) } := by
  obtain ⟨publisher, hderef, hrest⟩ := bind_eq_ok.mp hcall
  obtain ⟨eventQueue, hpush, hbus⟩ := bind_eq_ok.mp hrest
  cases hbus
  exact ⟨publisher, eventQueue, Cpu.deref_eq_ok.mp hderef, hpush, rfl⟩

/-- The subscriptions after an event has been appended to some queues. -/
def append (event : E) (as : List Nat) (subscriptions : Nat → Option (Subscription E)) (a : Nat) :
    Option (Subscription E) :=
  if a ∈ as then (subscriptions a).map fun s => (s.1, s.2 ++ [event]) else subscriptions a

theorem append_cons (ha : a ∉ as) {s : Subscription E} (hs : subscriptions a = some s) :
    append event as (update subscriptions a (some (s.1, s.2 ++ [event]))) =
      append event (a :: as) subscriptions := by
  funext b
  unfold append
  by_cases hb : b = a
  · rw [hb, if_neg ha, if_pos mem_cons_self, update_self, hs]
    rfl
  · rw [update_of_ne hb]
    exact if_congr (by rw [mem_cons, or_iff_right hb]) rfl rfl

theorem foldlM_add (hnodup : as.Nodup) (hcall : as.foldlM (add node event) bus = .ok bus')
    (hserves : ∀ a, Rel Serves (bus.heap a) (subscriptions a)) :
    bus' = { bus with heap := bus'.heap } ∧ ∀ a,
      Rel Serves (bus'.heap a) (append event as subscriptions a) := by
  induction as generalizing bus subscriptions with
  | nil =>
    cases hcall
    exact ⟨rfl, hserves⟩
  | cons a as ih =>
    obtain ⟨hnot, hnodup⟩ := nodup_cons.mp hnodup
    obtain ⟨next, hadd, hrest⟩ := bind_eq_ok.mp hcall
    obtain ⟨publisher, eventQueue, ha, hpush, rfl⟩ := add_cases hadd
    obtain ⟨s, hs, hpublisher⟩ := exists_of_serves hserves ha
    have hserving : Serves { publisher with eventQueue } (s.1, s.2 ++ [event]) :=
      ⟨hpublisher.receiver, hpublisher.wellFormed, represents_pushNew hpublisher.queue hpush⟩
    have hnext := ih hnodup hrest (serves_update hserves (.some hserving))
    rwa [append_cons hnot hs] at hnext

theorem append_eq_deliver (hwell : ∀ event, (getType event).WellFormed)
    (has : ∀ a, a ∈ as ↔ ∃ receiver, keysOf subscriptions a = some (receiver, getType event))
    (hserves : ∀ a, Rel Serves (bus.heap a) (subscriptions a)) :
    append event as subscriptions = deliver getType [event] subscriptions := by
  funext a
  unfold append deliver
  cases hs : subscriptions a with
  | none => exact ite_self none
  | some s =>
    have hkey : a ∈ as ↔ (getType event == s.1.2) = true := by
      rw [has, wellFormed_beq (hwell event) (wellFormed_of_serves hserves hs), keysOf, hs]
      exact ⟨fun ⟨_, heq⟩ => (congrArg Prod.snd (some.inj heq)).symm,
        fun heq => ⟨s.1.1, by rw [heq]; rfl⟩⟩
    have hfilter : ([event].filter fun event => getType event == s.1.2) = if a ∈ as then [event]
        else [] := by
      rw [filter_singleton, cond_eq_ite]
      exact if_congr hkey.symm rfl rfl
    rw [map_some, map_some, hfilter]
    split
    · rfl
    · rw [append_nil]

theorem deliver_nil : deliver getType [] subscriptions = subscriptions := by
  unfold deliver
  simp only [filter_nil, append_nil, Prod.mk.eta, Option.map_id']

theorem deliver_cons (events : List E) :
    deliver getType (event :: events) subscriptions =
      deliver getType events (deliver getType [event] subscriptions) := by
  funext a
  unfold deliver
  rw [Option.map_map]
  congr 1
  funext s
  simp only [comp_apply, append_assoc, ← filter_append, singleton_append]

variable (hwell : ∀ event, (getType event).WellFormed)

include hwell

theorem Contents.process (h : Contents code pairCode bus waiting subscriptions)
    {list : ArrayList Nat} (hget : bus.publishers.get code (getType event) = .ok list)
    (hcall : list.toArray.foldlM (add node event) bus = .ok bus') :
    Contents code pairCode bus' waiting (deliver getType [event] subscriptions) := by
  obtain ⟨lists, hlists, hlisted⟩ := h.indexed.lists
  obtain ⟨hnodup, hmem⟩ := hlisted (getType event) (hwell event)
  have harray : listed lists (getType event) = list.toArray := by
    rw [hlists.get (hwell event)] at hget
    unfold listed
    cases hlist : lists (getType event) with
    | none =>
      rw [hlist] at hget
      cases hget
    | some other =>
      rw [hlist] at hget
      cases hget
      rfl
  rw [harray] at hnodup hmem
  obtain ⟨hbus, hserves⟩ := foldlM_add hnodup hcall h.serves
  rw [append_eq_deliver hwell hmem h.serves] at hserves
  rw [hbus]
  refine ⟨h.initialized, h.buffer, hserves, ?_⟩
  rw [keysOf_deliver]
  exact ⟨h.indexed.receivers, h.indexed.lists⟩

theorem Contents.deliver_eq (h : Contents code pairCode bus waiting subscriptions)
    (hcontains : ¬bus.publishers.containsKey code (getType event) = true) :
    deliver getType [event] subscriptions = subscriptions := by
  obtain ⟨lists, hlists, hlisted⟩ := h.indexed.lists
  obtain ⟨-, hmem⟩ := hlisted (getType event) (hwell event)
  rw [hlists.containsKey (hwell event), not_isSome_iff_eq_none] at hcontains
  have hnil : listed lists (getType event) = [] := by
    unfold listed
    rw [hcontains]
    rfl
  rw [hnil] at hmem
  rw [← append_eq_deliver hwell hmem h.serves]
  funext a
  exact if_neg not_mem_nil

/-- `notify` takes events from the front of the buffer and delivers them. -/
theorem Contents.notifyLoop {rounds : Nat} {processed : List E}
    (hcall : notifyLoop code getType node rounds bus = .ok (processed, bus'))
    (h : Contents code pairCode bus waiting subscriptions) :
    ∃ waiting', waiting = processed ++ waiting' ∧
      Contents code pairCode bus' waiting' (deliver getType processed subscriptions) := by
  induction rounds generalizing bus waiting subscriptions processed with
  | zero => cases hcall
  | succ rounds ih =>
    unfold EventBus.notifyLoop at hcall
    by_cases hempty : bus.eventBuffer.isEmpty = true
    · rw [if_pos hempty] at hcall
      cases hcall
      exact ⟨waiting, rfl, deliver_nil.symm ▸ h⟩
    · rw [if_neg hempty] at hcall
      obtain ⟨⟨event, eventBuffer⟩, hpop, hrest⟩ := bind_eq_ok.mp hcall
      obtain ⟨waiting, rfl, hbuffer⟩ := represents_pop h.buffer hpop
      have hnext : Contents code pairCode { bus with eventBuffer } waiting subscriptions :=
        ⟨h.initialized, hbuffer, h.serves, h.indexed.receivers, h.indexed.lists⟩
      dsimp only at hrest
      by_cases hcontains : bus.publishers.containsKey code (getType event) = true
      · rw [if_pos hcontains] at hrest
        obtain ⟨list, hget, hrest⟩ := bind_eq_ok.mp hrest
        obtain ⟨last, hfold, hrest⟩ := bind_eq_ok.mp hrest
        obtain ⟨⟨events, bus''⟩, hloop, hbus⟩ := bind_eq_ok.mp hrest
        cases hbus
        obtain ⟨waiting', rfl, hcontents⟩ := ih hloop (hnext.process hwell hget hfold)
        exact ⟨waiting', rfl, deliver_cons events ▸ hcontents⟩
      · rw [if_neg hcontains] at hrest
        cases hrest
        exact ⟨waiting, rfl, (hnext.deliver_eq hwell hcontains).symm ▸ hnext⟩

end Notify

end Effects

/-- The calls that return, `notify` with the events that it has taken out of the buffer, and the
events that the threads of the publishers take out of their queues. -/
inductive Label (E : Type)
  | publish (event : E)
  | subscribe (publisher receiver : Nat) (type : String)
  | unsubscribe (receiver : Nat) (type : String)
  | notify (events : List E)
  | forward (publisher : Nat) (event : E)

/-- The names of types are C strings. -/
inductive Step (code : String → Nat) (pairCode : Nat × String → Nat) (getType : E → String)
    (bus : EventBus E) :
    Label E → EventBus E → Prop
  | publish {node : Nat} {event : E} {bus' : EventBus E}
    (hcall : bus.publish node event = .ok bus') :
      Step code pairCode getType bus (.publish event) bus'
  | subscribe {publisher receiver : Nat} {type : String} {bus' : EventBus E}
    (htype : type.WellFormed)
      (hcall : bus.subscribe code pairCode publisher receiver type = .ok bus') :
      Step code pairCode getType bus (.subscribe publisher receiver type) bus'
  | unsubscribe {receiver : Nat} {type : String} {bus' : EventBus E} (htype : type.WellFormed)
      (hcall : bus.unsubscribe code pairCode receiver type = .ok bus') :
      Step code pairCode getType bus (.unsubscribe receiver type) bus'
  | notify {node : Nat → LinkedList E → Nat} {events : List E} {bus' : EventBus E}
      (hcall : bus.notify code getType node = .ok (events, bus')) : Step code pairCode getType bus
        (.notify events) bus'
  | forward {publisher : Nat} {event : E} {bus' : EventBus E}
    (hcall : bus.forward publisher = .ok (event, bus')) :
      Step code pairCode getType bus (.forward publisher event) bus'

def published (labels : List (Label E)) : List E :=
  labels.flatMap fun
    | .publish event => [event]
    | _ => []

def processed (labels : List (Label E)) : List E :=
  labels.flatMap fun
    | .notify events => events
    | _ => []

def forwarded (a : Nat) (labels : List (Label E)) : List E :=
  labels.flatMap fun
    | .forward publisher event => if publisher = a then [event] else []
    | _ => []

/-- The key of the subscription whose publisher is at the address `a`, and the labels since it
was made, after one label more. -/
def track (a : Nat) (subscription : Option ((Nat × String) × List (Label E))) (label : Label E) :
    Option ((Nat × String) × List (Label E)) :=
  let others := subscription.map fun s => (s.1, s.2 ++ [label])
  match label with
  | .subscribe publisher receiver type =>
      if publisher = a then some ((receiver, type), []) else others
  | .unsubscribe receiver type => others.filter fun s => decide (s.1 ≠ (receiver, type))
  | _ => others

def subscribed (a : Nat) (labels : List (Label E)) : Option ((Nat × String) × List (Label E)) :=
  labels.foldl (track a) none

/-- What was taken out of a queue and what is still in it are the events of the type that have
been processed since the subscription was made. -/
structure Gets (getType : E → String) (a : Nat) (subscription : Subscription E)
    (since : (Nat × String) × List (Label E)) : Prop where
  key : subscription.1 = since.1
  events : forwarded a since.2 ++ subscription.2 = (processed since.2).filter fun event =>
    getType event == since.1.2

section Labels

variable {getType : E → String} {a : Nat} {label : Label E} {subscription : Option (Subscription E)}
  {since : Option ((Nat × String) × List (Label E))}
  (h : Option.Rel (Gets getType a) subscription since)

include h

theorem gets_concat {queue : Subscription E → List E}
    (hqueue : ∀ s, subscription = some s →
        forwarded a [label] ++ queue s = s.2 ++ (processed [label]).filter fun event =>
        getType event == s.1.2) :
    Rel (Gets getType a) (subscription.map fun s => (s.1, queue s)) (since.map fun s =>
      (s.1, s.2 ++ [label])) := by
  cases h with
  | none => exact .none
  | @some s t hgets =>
    refine .some ⟨hgets.key, ?_⟩
    calc forwarded a (t.2 ++ [label]) ++ queue s =
      forwarded a t.2 ++ (forwarded a [label] ++ queue s) := by
          rw [forwarded, flatMap_append, append_assoc]
          rfl
      _ = (processed t.2).filter (fun event => getType event == t.1.2) ++
            (processed [label]).filter fun event => getType event == t.1.2 := by
          rw [hqueue s rfl, ← append_assoc, hgets.events, hgets.key]
      _ = (processed (t.2 ++ [label])).filter fun event => getType event == t.1.2 := by
          rw [← filter_append, processed, processed, processed, flatMap_append]

theorem gets_other (hforwarded : forwarded a [label] = []) (hprocessed : processed [label] = []) :
    Option.Rel (Gets getType a) subscription (since.map fun s => (s.1, s.2 ++ [label])) := by
  have hgets : Rel (Gets getType a) (subscription.map fun s => (s.1, s.2))
      (since.map fun s => (s.1, s.2 ++ [label])) := gets_concat h fun s _ => by
    rw [hforwarded, hprocessed, nil_append, filter_nil, append_nil]
  rwa [Option.map_id'] at hgets

theorem gets_filter (key : Nat × String) :
    Rel (Gets getType a) (subscription.filter fun s => decide (s.1 ≠ key))
      (since.filter fun s => decide (s.1 ≠ key)) := by
  cases h with
  | none => exact .none
  | @some s t hgets =>
    rw [filter_some, filter_some, hgets.key]
    split
    · exact .some hgets
    · exact .none

end Labels

/-- What waits in the buffer has been published and not been processed, and what waits in the queues
has been processed and not been forwarded. -/
def Delivered (code : String → Nat) (pairCode : Nat × String → Nat) (getType : E → String)
    (past : List (Label E)) (bus : EventBus E) : Prop :=
  ∃ waiting subscriptions, Contents code pairCode bus waiting subscriptions ∧
    processed past ++ waiting = published past ∧
    ∀ a, Option.Rel (Gets getType a) (subscriptions a) (subscribed a past)

theorem subscribed_concat (a : Nat) (past : List (Label E)) (label : Label E) :
    subscribed a (past ++ [label]) = track a (subscribed a past) label := foldl_concat ..

theorem Delivered.step (hwell : ∀ event, (getType event).WellFormed) {past : List (Label E)}
    {bus' : EventBus E} {label : Label E} (h : Delivered code pairCode getType past bus)
    (hstep : Step code pairCode getType bus label bus') :
    Delivered code pairCode getType (past ++ [label]) bus' := by
  obtain ⟨waiting, subscriptions, hcontents, hpublished, hgets⟩ := h
  have hprocessed : processed (past ++ [label]) = processed past ++ processed [label] :=
    flatMap_append
  have hpublished' :
      published (past ++ [label]) = processed past ++ waiting ++ published [label] := by
    rw [hpublished]
    exact flatMap_append
  unfold Delivered
  simp only [subscribed_concat, hprocessed, hpublished']
  cases hstep with
  | publish hcall =>
    exact ⟨_, _,
      hcontents.publish hcall, by
      simp [processed, published], fun a => gets_other (hgets a) rfl rfl⟩
  | @subscribe publisher receiver type _ htype hcall =>
    refine ⟨_, _, hcontents.subscribe htype hcall, by simp [processed, published], fun a => ?_⟩
    by_cases ha : publisher = a
    · subst ha
      rw [update_self, track, if_pos rfl]
      exact .some ⟨rfl, rfl⟩
    · rw [update_of_ne (Ne.symm ha), track, if_neg ha]
      exact gets_other (hgets a) rfl rfl
  | unsubscribe htype hcall =>
    refine ⟨_, _, hcontents.unsubscribe htype hcall, by simp [processed, published], fun a => ?_⟩
    exact gets_filter (gets_other (hgets a) rfl rfl) _
  | notify hcall =>
    obtain ⟨waiting', rfl, hcontents'⟩ := hcontents.notifyLoop hwell hcall
    refine ⟨_, _,
      hcontents', by simp [processed, published], fun a => gets_concat (hgets a) fun s _ => ?_⟩
    simp [forwarded, processed]
  | @forward publisher event _ hcall =>
    obtain ⟨key, q, hs, hcontents'⟩ := hcontents.forward hcall
    refine ⟨_, _, hcontents', by simp [processed, published], fun a => ?_⟩
    by_cases ha : publisher = a
    · subst ha
      have hqueue : some (key, q) = (subscriptions publisher).map fun s => (s.1, s.2.tail) := by
        rw [hs]; rfl
      rw [update_self, hqueue]
      refine gets_concat (hgets publisher) fun s hs' => ?_
      cases hs.symm.trans hs'
      simp [forwarded, processed]
    · rw [update_of_ne (Ne.symm ha)]
      exact gets_other (hgets a) (by simp [forwarded, ha]) rfl

/-- A publisher and what it gets. -/
structure GetsEvents (getType : E → String) (a : Nat) (publisher : EventPublisher E)
    (since : (Nat × String) × List (Label E)) : Prop where
  receiver : publisher.receiver = since.1.1
  events : ∃ queue, publisher.eventQueue.Represents queue ∧
    forwarded a since.2 ++ queue = (processed since.2).filter fun event =>
      getType event == since.1.2

/-- In every run, the processed events are the first of the published events, in their order. There
is a publisher for every subscription that has been made and not cancelled, and its queue has got
the events of its type that have been processed since then. -/
theorem delivered_of_run (hwell : ∀ event, (getType event).WellFormed) {labels : List (Label E)}
    (hrun : Run (Step code pairCode getType) (new E) labels bus) :
    (∃ waiting, bus.eventBuffer.Represents waiting ∧ processed labels ++ waiting =
      published labels) ∧
      ∀ a, Option.Rel (GetsEvents getType a) (bus.heap a) (subscribed a labels) := by
  have hinit : Delivered code pairCode getType [] (new E) :=
    ⟨[], fun _ => none, contents_new, rfl, fun _ => .none⟩
  have hstep : ∀ past (bus : EventBus E) label bus', Delivered code pairCode getType past bus →
      Step code pairCode getType bus label bus' →
        Delivered code pairCode getType (past ++ [label]) bus' :=
    fun _ _ _ _ h hone => h.step hwell hone
  obtain ⟨waiting, subscriptions, hcontents, hpublished, hgets⟩ := hrun.history hstep hinit
  rw [nil_append] at hgets
  refine ⟨⟨waiting, hcontents.buffer, hpublished⟩, fun a => ?_⟩
  have hserves := hcontents.serves a
  have hget := hgets a
  generalize bus.heap a = publisher, subscriptions a = subscription,
    subscribed a labels = since at hserves hget
  cases hserves with
  | none =>
    cases hget
    exact .none
  | some hserving =>
    cases hget with
    | some hgets =>
      exact .some ⟨hserving.receiver.trans (congrArg Prod.fst hgets.key), _, hserving.queue,
        hgets.events⟩

/-- Numbers below 10 are events of the type "A", others of the type "B". -/
def numberType (event : Nat) : String := .ofChars (if event < 10 then [65] else [66])

/-- Nobody subscribes to "B", so the first call of `notify` stops behind an event of this type. The
next one comes after a second subscription to "A". -/
theorem delivered_of_run_two_receivers :
    ∃ bus, Run (Step (fun _ => 0) (fun _ => 0) numberType) (new Nat)
        [.subscribe 100 1 (.ofChars [65]), .publish 1, .publish 20, .publish 2, .notify [1, 20],
          .subscribe 200 2 (.ofChars [65]), .notify [2], .forward 100 1] bus ∧
      ∃ publisher, bus.heap 200 = some publisher ∧ publisher.receiver = 2 ∧
        publisher.eventQueue.Represents [2] := by
  have htype : (String.ofChars [65]).WellFormed := String.wellFormed_ofChars.mpr (by decide)
  have hwell : ∀ event, (numberType event).WellFormed := by
    intro event
    rw [numberType, String.wellFormed_ofChars]
    split <;> decide
  obtain ⟨b₁, b₂, b₃, b₄, b₅, b₆, b₇, b₈, h₁, h₂, h₃, h₄, h₅, h₆, h₇,
    h₈⟩ : ∃ b₁ b₂ b₃ b₄ b₅ b₆ b₇ b₈ : EventBus Nat,
      (new Nat).subscribe (fun _ => 0) (fun _ => 0) 100 1 (.ofChars [65]) = .ok b₁ ∧
      b₁.publish 1 1 = .ok b₂ ∧ b₂.publish 2 20 = .ok b₃ ∧ b₃.publish 3 2 = .ok b₄ ∧
      b₄.notify (fun _ => 0) numberType (fun _ queue => queue.length + 1) = .ok ([1, 20], b₅) ∧
      b₅.subscribe (fun _ => 0) (fun _ => 0) 200 2 (.ofChars [65]) = .ok b₆ ∧
      b₆.notify (fun _ => 0) numberType (fun _ queue => queue.length + 1) = .ok ([2], b₇) ∧
      b₇.forward 100 = .ok (1, b₈) :=
    ⟨_, _, _, _, _, _, _, _, rfl, rfl, rfl, rfl, rfl, rfl, rfl, rfl⟩
  have hrun : Run (Step (fun _ => 0) (fun _ => 0) numberType) (new Nat) _ b₈ :=
    .next (.subscribe htype h₁) <| .next (.publish h₂) <| .next (.publish h₃) <| .next
      (.publish h₄) <|
    .next (.notify h₅) <| .next (.subscribe htype h₆) <| .next (.notify h₇) <| .next
      (.forward h₈) <| .done b₈
  obtain ⟨-, hgets⟩ := delivered_of_run hwell hrun
  have hget : Option.Rel (GetsEvents numberType 200) (b₈.heap 200)
      (some ((2, .ofChars [65]), [.notify [2], .forward 100 1])) := hgets 200
  refine ⟨b₈, hrun, ?_⟩
  generalize b₈.heap 200 = publisher at hget
  cases hget with
  | @some publisher _ hpublisher =>
    obtain ⟨queue, hqueue, hevents⟩ := hpublisher.events
    obtain rfl : queue = [2] := hevents
    exact ⟨publisher, rfl, hpublisher.receiver, hqueue⟩

end HuyaOS.Kernel.EventBus
