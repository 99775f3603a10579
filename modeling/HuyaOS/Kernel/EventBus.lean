import HuyaOS.Util.ArrayListRuns
import HuyaOS.Util.LinkedList
import HuyaOS.Util.StringKeys

/-!
`EventBus`. Published events wait in a buffer until `notify` appends them to the
queues of the publishers for their type. A subscription of a receiver to a type has
a publisher of its own, whose thread takes the events out of the queue.

Publishers are kept at their addresses. A list of publishers is only reached through
the map of lists, so the map holds the lists themselves. The calls that take the lock
are made one after the other. That the thread of a publisher is started and killed has
no effect on the queues. What strings and pairs are cast to is given by `code` and
`pairCode`.
-/

namespace HuyaOS.Kernel

open Lib Function Option List PartialMap

structure EventPublisher (E : Type) where
  receiver : Nat
  eventQueue : LinkedList E

structure EventBus (E : Type) where
  heap : Heap (EventPublisher E)
  publishers : HashMap String (ArrayList Nat)
  receiverMap : HashMap (Nat × String) Nat
  eventBuffer : LinkedList E
  registeredPublishers : Nat
  isInitialized : Bool

instance {T : Type} (list : LinkedList T) (node : Nat) : Decidable (list.Fresh node) :=
  inferInstanceAs (Decidable (_ ∧ _ ∧ _))

namespace EventBus

variable {E : Type} {a b : Nat} {queue queue' : LinkedList E} {q : List E} {event : E}
  {keys : Nat → Option (Nat × String)} {key : Nat × String}

def new (E : Type) : EventBus E :=
  ⟨fun _ => none, HashMap.new _ _, HashMap.new _ _, LinkedList.new E, 0, true⟩

/-- `push`, where `new Node` returns the address `node` if this can be an address -/
def pushNew (queue : LinkedList E) (node : Nat) (event : E) : Except Cpu.Stop (LinkedList E) :=
  if queue.Fresh node then queue.push node event else .error (.throwException .OUT_OF_MEMORY)

section Calls

variable (code : String → Nat) (pairCode : Nat × String → Nat) (getType : E → String)
  (bus : EventBus E)

def newPublisher (a receiver : Nat) : Except Cpu.Stop (EventBus E) :=
  if (bus.heap a).isSome then .error (.throwException .OUT_OF_MEMORY)
  else .ok { bus with heap := update bus.heap a (some ⟨receiver, LinkedList.new E⟩) }

def withList (type : String) : HashMap String (ArrayList Nat) :=
  if bus.publishers.containsKey code type then bus.publishers
  else bus.publishers.put code type (ArrayList.new (fun _ => 0) 0)

def subscribe (a receiver : Nat) (type : String) : Except Cpu.Stop (EventBus E) := do
  let bus ← bus.newPublisher a receiver
  if bus.receiverMap.containsKey pairCode (receiver, type) then
    throw (.throwException .ILLEGAL_STATE)
  else
    let list ← (bus.withList code type).get code type
    return { bus with
      receiverMap := bus.receiverMap.put pairCode (receiver, type) a
      publishers := (bus.withList code type).put code type (list.add a)
      registeredPublishers := (bus.registeredPublishers + 1) % 2 ^ 32 }

def dropPublisher (type : String) (publisher : Nat) :
    Except Cpu.Stop (HashMap String (ArrayList Nat)) := do
  let list ← bus.publishers.get code type
  let (_, list) ← list.remove publisher
  if list.isEmpty then
    let (_, publishers) ← (bus.publishers.put code type list).remove code type
    return publishers
  else return bus.publishers.put code type list

def unsubscribe (receiver : Nat) (type : String) : Except Cpu.Stop (EventBus E) := do
  if bus.receiverMap.containsKey pairCode (receiver, type) then
    let publisher ← bus.receiverMap.get pairCode (receiver, type)
    let publishers ← bus.dropPublisher code type publisher
    let (_, receiverMap) ← bus.receiverMap.remove pairCode (receiver, type)
    return { bus with
      heap := update bus.heap publisher none
      publishers
      receiverMap
      registeredPublishers := (bus.registeredPublishers + 2 ^ 32 - 1) % 2 ^ 32 }
  else return bus

def publish (node : Nat) (event : E) : Except Cpu.Stop (EventBus E) := do
  if bus.isInitialized then return { bus with eventBuffer := ← pushNew bus.eventBuffer node event }
  else return bus

section Notify

-- the addresses that `new Node` returns, by publisher and queue
variable (node : Nat → LinkedList E → Nat)

def add (event : E) (bus : EventBus E) (publisher : Nat) : Except Cpu.Stop (EventBus E) := do
  let object ← Cpu.deref bus.heap (some publisher)
  let eventQueue ← pushNew object.eventQueue (node publisher object.eventQueue) event
  return { bus with heap := update bus.heap publisher (some { object with eventQueue }) }

/-- The loop of `notify`, for at most `rounds` rounds, with the events that it takes out of
the buffer. -/
def notifyLoop : Nat → EventBus E → Except Cpu.Stop (List E × EventBus E)
  | 0, _ => .error .endlessLoop
  | rounds + 1, bus => do
      if bus.eventBuffer.isEmpty then return ([], bus)
      else
        let (event, eventBuffer) ← bus.eventBuffer.pop
        let bus := { bus with eventBuffer }
        if bus.publishers.containsKey code (getType event) then
          let publisherList ← bus.publishers.get code (getType event)
          let bus ← publisherList.toArray.foldlM (add node event) bus
          let (events, bus) ← notifyLoop rounds bus
          return (event :: events, bus)
        -- the events behind an event that nobody has subscribed to stay in the buffer
        else return ([event], bus)

/-- Every round takes an event out of the buffer. -/
def notify : Except Cpu.Stop (List E × EventBus E) :=
  notifyLoop code getType node (bus.eventBuffer.length + 1) bus

end Notify

/-- The thread of a publisher takes an event out of its queue for `onEvent`. -/
def forward (publisher : Nat) : Except Cpu.Stop (E × EventBus E) := do
  let object ← Cpu.deref bus.heap (some publisher)
  let (event, eventQueue) ← object.eventQueue.pop
  return (event, { bus with heap := update bus.heap publisher (some { object with eventQueue }) })

end Calls

theorem subscribe_cases {code : String → Nat} {pairCode : Nat × String → Nat}
    {bus bus' : EventBus E} {receiver : Nat} {type : String}
    (hcall : bus.subscribe code pairCode a receiver type = .ok bus') :
    bus.heap a = none ∧ ¬bus.receiverMap.containsKey pairCode (receiver, type) = true ∧
      ∃ list, (bus.withList code type).get code type = .ok list ∧
        bus' = { bus with
          heap := update bus.heap a (some ⟨receiver, LinkedList.new E⟩)
          receiverMap := bus.receiverMap.put pairCode (receiver, type) a
          publishers := (bus.withList code type).put code type (list.add a)
          registeredPublishers := (bus.registeredPublishers + 1) % 2 ^ 32 } := by
  obtain ⟨next, hnext, hrest⟩ := bind_eq_ok.mp hcall
  unfold newPublisher at hnext
  split at hnext
  · cases hnext
  · rename_i hfree
    cases hnext
    split at hrest
    · cases hrest
    · rename_i hnew
      obtain ⟨list, hget, hbus⟩ := bind_eq_ok.mp hrest
      cases hbus
      exact ⟨not_isSome_iff_eq_none.mp hfree, hnew, list, hget, rfl⟩

theorem represents_pushNew (h : queue.Represents q) {node : Nat}
    (hcall : pushNew queue node event = .ok queue') : queue'.Represents (q ++ [event]) := by
  obtain ⟨nodes, hlinked, rfl⟩ := h
  unfold pushNew at hcall
  split at hcall
  · rename_i hfresh
    obtain ⟨list, hpush, hlist⟩ := hlinked.push hfresh event
    cases hpush.symm.trans hcall
    exact ⟨_, hlist, by simp⟩
  · cases hcall

/-- `pop` does not return from an empty queue. -/
theorem represents_pop (h : queue.Represents q) (hcall : queue.pop = .ok (event, queue')) :
    ∃ rest, q = event :: rest ∧ queue'.Represents rest := by
  obtain ⟨nodes, hlinked, rfl⟩ := h
  cases nodes with
  | nil =>
    unfold LinkedList.pop LinkedList.isEmpty at hcall
    rw [hlinked.length] at hcall
    cases hcall
  | cons node nodes =>
    obtain ⟨queue'', hpop, hqueue⟩ := hlinked.pop
    cases hpop.symm.trans hcall
    exact ⟨_, rfl, nodes, hqueue, rfl⟩

/-- The publishers in the list of a type. -/
def listed (lists : String → Option (ArrayList Nat)) (type : String) : List Nat :=
  (lists type).elim [] ArrayList.toArray

/-- The publishers with their keys, as they are found through the maps. -/
structure Indexed (code : String → Nat) (pairCode : Nat × String → Nat) (bus : EventBus E)
    (keys : Nat → Option (Nat × String)) : Prop where
  receivers : ∃ m, HashMap.Represents (fun key : Nat × String => key.2.WellFormed) pairCode
    bus.receiverMap m ∧
    ∀ key : Nat × String, key.2.WellFormed → ∀ a, m key = some a ↔ keys a = some key
  lists : ∃ lists, HashMap.Represents String.WellFormed code bus.publishers lists ∧
    ∀ type : String, type.WellFormed → (listed lists type).Nodup ∧
      ∀ a, a ∈ listed lists type ↔ ∃ receiver, keys a = some (receiver, type)

section Listed

variable {lists : String → Option (ArrayList Nat)} {type type' : String}

theorem listed_of_some {list : ArrayList Nat} (h : lists type = some list) :
    listed lists type = list.toArray := by
  rw [listed, h]
  rfl

theorem listed_of_none (h : lists type = none) : listed lists type = [] := by
  rw [listed, h]
  rfl

variable (htype : type.WellFormed) (htype' : type'.WellFormed)

include htype htype'

theorem listed_insert (list : ArrayList Nat) :
    listed (insert lists type list) type' = if type' = type then list.toArray
      else listed lists type' := by
  by_cases heq : type' = type
  · rw [if_pos heq]
    exact listed_of_some (if_pos ((wellFormed_beq htype' htype).mpr heq))
  · rw [if_neg heq, listed, PartialMap.insert, if_neg fun hbeq =>
      heq ((wellFormed_beq htype' htype).mp hbeq)]
    rfl

theorem listed_erase :
    listed (erase lists type) type' = if type' = type then [] else listed lists type' := by
  by_cases heq : type' = type
  · rw [if_pos heq]
    exact listed_of_none (if_pos ((wellFormed_beq htype' htype).mpr heq))
  · rw [if_neg heq, listed, erase, if_neg fun hbeq => heq ((wellFormed_beq htype' htype).mp hbeq)]
    rfl

end Listed

theorem update_none_eq_some :
    update keys a none b = some key ↔ b ≠ a ∧ keys b = some key := by
  rw [update_apply]
  split
  · rename_i hb
    exact iff_of_false (some_ne_none key).symm fun h => h.1 hb
  · rename_i hb
    exact (and_iff_right hb).symm

theorem update_some_eq_some {key' : Nat × String}
    (ha : keys a = none) :
    update keys a (some key) b = some key' ↔ b = a ∧ key' = key ∨ keys b = some key' := by
  rw [update_apply]
  split
  · rename_i hb
    rw [hb, ha, some.injEq]
    exact ⟨fun h => .inl ⟨rfl, h.symm⟩, fun h => h.elim (fun h => h.2.symm) fun h =>
      absurd h.symm (some_ne_none _)⟩
  · rename_i hb
    exact (or_iff_right fun h => hb h.1).symm

section Maps

variable {code : String → Nat} {pairCode : Nat × String → Nat} {bus : EventBus E}
  {keys : Nat → Option (Nat × String)} (h : Indexed code pairCode bus keys) {key : Nat × String}
  {list : ArrayList Nat}

theorem indexed_new : Indexed code pairCode (new E) fun _ => none where
  receivers := by
    refine ⟨_, HashMap.represents_ofSize _ _ _ (by decide), fun key _ a => ?_⟩
    exact iff_of_false (some_ne_none a).symm (some_ne_none key).symm
  lists := by
    refine ⟨_, HashMap.represents_ofSize _ _ _ (by decide), fun type _ => ⟨nodup_nil, fun a => ?_⟩⟩
    exact iff_of_false not_mem_nil fun ⟨receiver, hkey⟩ => some_ne_none _ hkey.symm

include h

theorem Indexed.containsKey_iff (hkey : key.2.WellFormed) :
    bus.receiverMap.containsKey pairCode key = true ↔ ∃ a, keys a = some key := by
  obtain ⟨m, hm, hkeys⟩ := h.receivers
  rw [hm.containsKey hkey, isSome_iff_exists]
  exact exists_congr fun a => hkeys key hkey a

variable {a : Nat} {type : String} {receiver : Nat}

theorem Indexed.unique (hkey : key.2.WellFormed) {b : Nat} (ha : keys a = some key)
    (hb : keys b = some key) : a = b := by
  obtain ⟨m, hm, hkeys⟩ := h.receivers
  exact some.inj (((hkeys key hkey a).mpr ha).symm.trans ((hkeys key hkey b).mpr hb))

theorem Indexed.withList (htype : type.WellFormed) :
    ∃ list lists, (bus.withList code type).get code type = .ok list ∧
      HashMap.Represents String.WellFormed code (bus.withList code type) lists ∧
        list.toArray = listed lists type ∧
      ∀ type' : String, type'.WellFormed → (listed lists type').Nodup ∧
        ∀ a, a ∈ listed lists type' ↔ ∃ receiver, keys a = some (receiver, type') := by
  obtain ⟨lists, hlists, hlisted⟩ := h.lists
  unfold EventBus.withList
  rw [hlists.containsKey htype]
  cases hlist : lists type with
  | some list =>
    refine ⟨list, lists, ?_, hlists, ?_, hlisted⟩
    · rw [isSome_some, if_pos rfl, hlists.get htype, hlist]
      rfl
    · exact (listed_of_some hlist).symm
  | none =>
    have hput := hlists.put (stringTest code) htype (ArrayList.new (fun _ => 0) 0)
    have hself : (type == type) = true := (wellFormed_beq htype htype).mpr rfl
    -- the new list is as empty as none
    have hsame : ∀ type' : String, type'.WellFormed →
        listed (insert lists type (ArrayList.new (fun _ => 0) 0)) type' = listed lists type' := by
      intro type' htype'
      rw [listed_insert htype htype']
      split
      · rename_i heq
        rw [heq, listed_of_none hlist]
        rfl
      · rfl
    refine ⟨ArrayList.new (fun _ => 0) 0, _, ?_, hput, ?_, fun type' htype' => ?_⟩
    · rw [isSome_none, if_neg Bool.false_ne_true, hput.get htype]
      unfold PartialMap.insert
      rw [if_pos hself]
      rfl
    · rw [listed_insert htype htype, if_pos rfl]
    · rw [hsame type' htype']
      exact hlisted type' htype'

theorem Indexed.insert (htype : type.WellFormed) (ha : keys a = none)
    (hnew : ∀ b, keys b ≠ some (receiver, type))
    (hget : (bus.withList code type).get code type = .ok list) {bus' : EventBus E}
    (hreceivers : bus'.receiverMap = bus.receiverMap.put pairCode (receiver, type) a)
    (hpublishers : bus'.publishers = (bus.withList code type).put code type (list.add a)) :
    Indexed code pairCode bus' (update keys a (some (receiver, type))) where
  receivers := by
    obtain ⟨m, hm, hkeys⟩ := h.receivers
    refine ⟨_, hreceivers ▸ hm.put (pairTest pairCode) htype a, fun key hkey b => ?_⟩
    rw [update_some_eq_some ha, ← hkeys key hkey b]
    unfold PartialMap.insert
    split
    · rename_i heq
      obtain rfl : key = (receiver, type) := (wellFormed_pair_beq hkey htype).mp heq
      have hnone : m (receiver, type) ≠ some b := fun hb => hnew b ((hkeys _ htype b).mp hb)
      rw [or_iff_left hnone, some.injEq, eq_comm, and_iff_left rfl]
    · rename_i hne
      exact (or_iff_right fun heq => hne ((wellFormed_pair_beq hkey htype).mpr heq.2)).symm
  lists := by
    obtain ⟨list', lists, hget', hlists, harray, hlisted⟩ := h.withList htype
    cases hget.symm.trans hget'
    refine ⟨_, hpublishers ▸ hlists.put (stringTest code) htype (list.add a),
      fun type' htype' => ?_⟩
    obtain ⟨hnodup, hmem⟩ := hlisted type' htype'
    have hnot : a ∉ listed lists type' := by
      rw [hmem, ha]
      exact fun ⟨_, heq⟩ => some_ne_none _ heq.symm
    rw [listed_insert htype htype', ArrayList.toArray_add, harray]
    simp only [update_some_eq_some ha]
    by_cases heq : type' = type
    · subst heq
      rw [if_pos rfl]
      refine ⟨nodup_append'.mpr ⟨hnodup, nodup_singleton a, disjoint_singleton.mpr hnot⟩,
        fun b => ?_⟩
      rw [mem_append, mem_singleton, hmem, exists_or, or_comm]
      exact or_congr_left ⟨fun hb => ⟨receiver, hb, rfl⟩, fun ⟨_, hb, _⟩ => hb⟩
    · rw [if_neg heq]
      refine ⟨hnodup, fun b => ?_⟩
      rw [hmem]
      refine exists_congr fun r => (or_iff_right fun hkey => heq ?_).symm
      exact congrArg Prod.snd hkey.2

omit h in
/-- A list without publishers is dropped, so that its type has no publishers either. -/
theorem dropPublisher_eq {lists : String → Option (ArrayList Nat)} {list' : ArrayList Nat}
    {found : Bool} (hlists : HashMap.Represents String.WellFormed code bus.publishers lists)
    (htype : type.WellFormed) (hlist : lists type = some list)
    (hremove : list.remove a = .ok (found, list')) :
    ∃ publishers lists', bus.dropPublisher code type a = .ok publishers ∧
      HashMap.Represents String.WellFormed code publishers lists' ∧
      ∀ type' : String, type'.WellFormed →
        listed lists' type' = if type' = type then list'.toArray else listed lists type' := by
  have hget : bus.publishers.get code type = .ok list := by
    rw [hlists.get htype, hlist]
    rfl
  have hput := hlists.put (stringTest code) htype list'
  unfold EventBus.dropPublisher
  simp only [bind, Except.bind, hget, hremove]
  by_cases hempty : list'.isEmpty = true
  · have hsome : insert lists type list' type = some list' :=
      if_pos ((wellFormed_beq htype htype).mpr rfl)
    obtain ⟨publishers, hdrop, hrest⟩ := hput.remove_of_some (stringTest code) htype hsome
    refine ⟨publishers, _, ?_, hrest, fun type' htype' => ?_⟩
    · rw [if_pos hempty, hdrop]
      rfl
    · rw [listed_erase htype htype', listed_insert htype htype',
        (ArrayList.isEmpty_iff list').mp hempty]
      split
      · rfl
      · rfl
  · rw [if_neg hempty]
    exact ⟨_, _, rfl, hput, fun type' htype' => listed_insert htype htype' list'⟩

theorem Indexed.dropPublisher (htype : type.WellFormed) (ha : keys a = some (receiver, type)) :
    ∃ publishers lists, bus.dropPublisher code type a = .ok publishers ∧
      HashMap.Represents String.WellFormed code publishers lists ∧
      ∀ type' : String, type'.WellFormed → (listed lists type').Nodup ∧
        ∀ b, b ∈ listed lists type' ↔
          ∃ receiver, update keys a none b = some (receiver, type') := by
  obtain ⟨lists, hlists, hlisted⟩ := h.lists
  have hmem : a ∈ listed lists type := ((hlisted type htype).2 a).mpr ⟨receiver, ha⟩
  obtain ⟨list, hlist⟩ : ∃ list, lists type = some list := by
    rw [← ne_none_iff_exists']
    intro hnone
    exact ne_nil_of_mem hmem (listed_of_none hnone)
  have harray := listed_of_some hlist
  obtain ⟨list', hremove, hlist'⟩ := ArrayList.remove_eq (.inl (harray ▸ hmem))
  obtain ⟨publishers, lists', hcall, hpublishers, hlisted'⟩ :=
    dropPublisher_eq hlists htype hlist hremove
  refine ⟨publishers, lists', hcall, hpublishers, fun type' htype' => ?_⟩
  obtain ⟨hnodup, hmem'⟩ := hlisted type' htype'
  rw [hlisted' type' htype']
  simp only [update_none_eq_some]
  by_cases heq : type' = type
  · subst heq
    rw [if_pos rfl, hlist', ← harray]
    refine ⟨hnodup.erase a, fun b => ?_⟩
    rw [hnodup.mem_erase_iff, hmem', exists_and_left]
  · rw [if_neg heq]
    refine ⟨hnodup, fun b => ?_⟩
    rw [hmem']
    refine exists_congr fun r => (and_iff_right_of_imp fun hkey => ?_).symm
    rintro rfl
    exact heq (congrArg Prod.snd (some.inj (hkey.symm.trans ha)))

theorem Indexed.erase (htype : type.WellFormed) (ha : keys a = some (receiver, type)) :
    ∃ publishers receiverMap, bus.receiverMap.get pairCode (receiver, type) = .ok a ∧
      bus.dropPublisher code type a = .ok publishers ∧
      bus.receiverMap.remove pairCode (receiver, type) = .ok (a, receiverMap) ∧
      ∀ bus' : EventBus E, bus'.publishers = publishers → bus'.receiverMap = receiverMap →
        Indexed code pairCode bus' (update keys a none) := by
  obtain ⟨publishers, lists, hdrop, hlists, hlisted⟩ := h.dropPublisher htype ha
  obtain ⟨m, hm, hkeys⟩ := h.receivers
  have hsome : m (receiver, type) = some a := (hkeys _ htype a).mpr ha
  obtain ⟨receiverMap, hremove, hrest⟩ := hm.remove_of_some (pairTest pairCode) htype hsome
  refine ⟨publishers, receiverMap, ?_, hdrop, hremove, ?_⟩
  · rw [hm.get htype, hsome]
    rfl
  · rintro bus' rfl rfl
    refine ⟨⟨_, hrest, fun key hkey b => ?_⟩, lists, hlists, hlisted⟩
    rw [update_none_eq_some, ← hkeys key hkey b]
    unfold PartialMap.erase
    split
    · rename_i heq
      obtain rfl : key = (receiver, type) := (wellFormed_pair_beq hkey htype).mp heq
      exact iff_of_false (some_ne_none b).symm fun hb => hb.1 (some.inj (hb.2.symm.trans hsome))
    · rename_i hne
      refine (and_iff_right_of_imp fun hb => ?_).symm
      rintro rfl
      have hkey' := some.inj (((hkeys key hkey b).mp hb).symm.trans ha)
      exact hne ((wellFormed_pair_beq hkey htype).mpr hkey')

end Maps

end EventBus

end HuyaOS.Kernel
