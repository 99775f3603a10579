import HuyaOS.Storage.StorageService

/-!
Runs of `registerDevice` and `removeDevice`. Whatever is in the map has been
published before, and every call returns: the names that `removeDevice` visits are
still in the map when it gets to them.
-/

namespace HuyaOS.Storage.StorageService

open Lib Filesystem List

variable {name : String}

/-- The calls, with the byte behind the strings that `removeDevice` makes. -/
inductive Call
  | registerDevice (device : StorageDevice)
  | removeDevice (name : String) (fresh : UInt8)

def call (code : String → Nat) (service : StorageService) : Call → Except Cpu.Stop StorageService
  | .registerDevice device => .ok (service.registerDevice code device)
  | .removeDevice name fresh => service.removeDevice code fresh name

/-- Devices are given names that files can have. -/
def Call.Named : Call → Prop
  | .registerDevice device => IsFileName device.getName
  | .removeDevice name _ => name.WellFormed

/-- A device with the name has been added, and perhaps removed since. -/
def Added (events : List StorageEvent) (name : String) : Prop :=
  ∃ device, StorageEvent.add device ∈ events ∧ device.getName = name

theorem added_append {events events' : List StorageEvent} :
    Added (events ++ events') name ↔ Added events name ∨ Added events' name := by
  unfold Added
  simp only [mem_append, or_and_right, exists_or]

theorem added_add {device : StorageDevice} : Added [.add device] name ↔ name = device.getName := by
  unfold Added
  simp only [mem_singleton, StorageEvent.add.injEq, exists_eq_left]
  exact eq_comm

theorem not_added_remove {deviceName : String} : ¬Added [.remove deviceName] name := by
  rintro ⟨device, hmem, -⟩
  cases mem_singleton.mp hmem

/-- The devices have been published, under names that files can have. -/
structure Published (code : String → Nat) (service : StorageService) : Prop where
  represents : ∃ m, HashMap.Represents String.WellFormed code service.devices m
  isFileName : ∀ name, Added service.published name → IsFileName name
  added : ∀ name ∈ service.devices.keySet, Added service.published name

variable {code : String → Nat} {service : StorageService}

theorem published_new : new.Published code where
  represents := ⟨_, represents_new⟩
  isFileName _ h := by
    obtain ⟨device, hmem, -⟩ := h
    cases hmem
  added name hname := by
    have hm : HashMap.Represents String.WellFormed code new.devices fun _ => none := represents_new
    cases ((mem_keySet_iff hm).mp hname).2

theorem exists_remove {m : String → Option StorageDevice}
    (hm : HashMap.Represents String.WellFormed code service.devices m)
    (hname : name ∈ service.devices.keySet) :
    ∃ device devices, service.devices.remove code name = .ok (device, devices) ∧
      (∃ m', HashMap.Represents String.WellFormed code devices m') ∧
      (∀ other, other ∈ devices.keySet ↔ other ∈ service.devices.keySet ∧ other ≠ name) ∧
      ∀ other ∈ devices.keySet, devices.get code other = service.devices.get code other := by
  obtain ⟨hwell, hsome⟩ := (mem_keySet_iff hm).mp hname
  obtain ⟨device, hdevice⟩ := Option.isSome_iff_exists.mp hsome
  obtain ⟨devices, hremove, hrest⟩ := hm.remove_of_some (stringTest code) hwell hdevice
  have herase : ∀ {other : String}, other.WellFormed →
      PartialMap.erase m name other = if other = name then none
      else m other := by
    intro other hother
    unfold PartialMap.erase
    simp only [wellFormed_beq hother hwell]
  have hkeys : ∀ other, other ∈ devices.keySet ↔ other ∈ service.devices.keySet ∧ other ≠ name := by
    intro other
    rw [mem_keySet_iff hrest, mem_keySet_iff hm, and_assoc]
    refine and_congr_right fun hother => ?_
    rw [herase hother]
    split
    · rename_i heq
      exact iff_of_false Bool.false_ne_true fun h => h.2 heq
    · rename_i hne
      exact (and_iff_left hne).symm
  refine ⟨device, devices, hremove, ⟨_, hrest⟩, hkeys, fun other hother => ?_⟩
  have hused := hrest.used_of_mem_keySet hother
  rw [hrest.get hused, hm.get hused, herase hused, if_neg ((hkeys other).mp hother).2]

section Steps

variable (h : service.Published code) {device : StorageDevice} {name : String}

include h

theorem Published.enter (hname : IsFileName device.getName) :
    (service.enter code device).Published code := by
  obtain ⟨m, hm⟩ := h.represents
  have hput := represents_enter hm hname.wellFormed
  refine ⟨⟨_, hput⟩, fun name hadded => ?_, fun name hmem => ?_⟩
  · rcases added_append.mp hadded with hbefore | hadd
    · exact h.isFileName name hbefore
    · exact added_add.mp hadd ▸ hname
  · obtain ⟨hwell, hsome⟩ := (mem_keySet_iff hput).mp hmem
    apply added_append.mpr
    unfold PartialMap.insert at hsome
    split at hsome
    · rename_i heq
      exact .inr (added_add.mpr ((wellFormed_beq hwell hname.wellFormed).mp heq))
    · exact .inl (h.added name ((mem_keySet_iff hm).mpr ⟨hwell, hsome⟩))

theorem Published.foldl_enter {devices : List StorageDevice}
    (hnames : ∀ d ∈ devices, IsFileName d.getName) :
    (devices.foldl (StorageService.enter code) service).Published code := by
  induction devices generalizing service with
  | nil => exact h
  | cons d devices ih =>
    obtain ⟨hd, hdevices⟩ := forall_mem_cons.mp hnames
    exact ih (h.enter hd) hdevices

theorem Published.registerDevice (hname : IsFileName device.getName) :
    (service.registerDevice code device).Published code := by
  apply (h.enter hname).foldl_enter
  intro d hd
  obtain ⟨info, -, rfl⟩ := mem_map.mp hd
  exact hname.partitionName info.number

theorem Published.removeMatching (fresh : UInt8) {currentName : String} (hname : name.WellFormed)
    (hcurrent : currentName ∈ service.devices.keySet) :
    ∃ service', service.removeMatching code fresh name currentName = .ok service' ∧
      service'.Published code ∧
      ∀ other ∈ service.devices.keySet, other ≠ currentName → other ∈ service'.devices.keySet := by
  obtain ⟨m, hm⟩ := h.represents
  obtain ⟨device, devices, hremove, hrest, hkeys, -⟩ := exists_remove hm hcurrent
  unfold StorageService.removeMatching
  rw [beginsWith_eq (hm.used_of_mem_keySet hcurrent) _ hname]
  by_cases hbegins : name.chars <+: currentName.chars
  · refine ⟨⟨devices, service.published ++ [.remove currentName]⟩, ?_, ⟨hrest, ?_, ?_⟩, ?_⟩
    · simp only [bind, Except.bind, hbegins, decide_true, if_true, hremove]
      rfl
    · exact fun other hother => h.isFileName other
        ((added_append.mp hother).resolve_right not_added_remove)
    · exact fun other hother => added_append.mpr (.inl (h.added other ((hkeys other).mp hother).1))
    · exact fun other hother hne => (hkeys other).mpr ⟨hother, hne⟩
  · refine ⟨service, ?_, h, fun other hother _ => hother⟩
    simp only [bind, Except.bind, hbegins, decide_false]
    rfl

theorem Published.foldlM_removeMatching (fresh : UInt8) (hname : name.WellFormed)
    {names : List String} (hnodup : names.Nodup)
    (hnames : ∀ n ∈ names, n ∈ service.devices.keySet) :
    ∃ service', names.foldlM (StorageService.removeMatching code fresh name) service =
      .ok service' ∧
      service'.Published code := by
  induction names generalizing service with
  | nil => exact ⟨service, rfl, h⟩
  | cons currentName names ih =>
    obtain ⟨hnotMem, hnodup⟩ := nodup_cons.mp hnodup
    obtain ⟨hcurrent, hnames⟩ := forall_mem_cons.mp hnames
    obtain ⟨next, hnext, hpublished, hstay⟩ := h.removeMatching fresh hname hcurrent
    have hleft : ∀ n ∈ names, n ∈ next.devices.keySet := fun n hn =>
      hstay n (hnames n hn) (ne_of_mem_of_not_mem hn hnotMem)
    rw [foldlM_cons, hnext]
    exact ih hpublished hnodup hleft

theorem Published.call {c : Call} (hc : c.Named) :
    ∃ service', service.call code c = .ok service' ∧ service'.Published code := by
  cases c with
  | registerDevice device => exact ⟨_, rfl, h.registerDevice hc⟩
  | removeDevice name fresh =>
    obtain ⟨m, hm⟩ := h.represents
    exact h.foldlM_removeMatching fresh hc (nodup_keySet hm) fun _ hn => hn

theorem Published.run {calls : List Call} (hcalls : ∀ c ∈ calls, c.Named) :
    ∃ service', calls.foldlM (StorageService.call code) service = .ok service' ∧
      service'.Published code := by
  induction calls generalizing service with
  | nil => exact ⟨service, rfl, h⟩
  | cons c calls ih =>
    obtain ⟨hc, hcalls⟩ := forall_mem_cons.mp hcalls
    obtain ⟨next, hnext, hpublished⟩ := h.call hc
    rw [foldlM_cons, hnext]
    exact ih hpublished hcalls

end Steps

end HuyaOS.Storage.StorageService
