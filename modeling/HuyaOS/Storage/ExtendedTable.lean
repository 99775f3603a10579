import HuyaOS.Storage.LogicalList

/-!
Partition tables with at most one extended partition. What is read from them is
determined by the first boot record and the list of the extended partition.
-/

namespace HuyaOS.Storage

open Lib Disk List

def plainInfo (mbr : Sector) (i : Nat) : List PartitionInfo :=
  if (entry mbr i).systemId = EMPTY then [] else [primaryInfo i (entry mbr i)]

/-- The table if the entry `k` is extended and `logical` is read from its list. -/
def tableWith (mbr : Sector) (k : Nat) (logical : List PartitionInfo) : List PartitionInfo :=
  (List.range k).flatMap (plainInfo mbr) ++ extendedInfo (entry mbr k) :: logical ++
    (List.range' (k + 1) (3 - k)).flatMap (plainInfo mbr)

theorem tableWith_inj {mbr : Sector} {k : Nat} {logical logical' : List PartitionInfo}
    (h : tableWith mbr k logical = tableWith mbr k logical') : logical = logical' := by
  have hmiddle := append_cancel_left (append_cancel_right h)
  exact (cons.inj hmiddle).2

/-- The entry `k` is the only extended one. -/
structure OneExtended (disk : Disk) (k : Nat) : Prop where
  readable : disk.readable 0 = true
  signed : signature (disk.data 0) = 0xaa55
  mem : k ∈ slots
  extended : isExtended (entry (disk.data 0) k).systemId = true
  only : ∀ i ∈ slots, i ≠ k → isExtended (entry (disk.data 0) i).systemId = false

namespace OneExtended

variable {disk : Disk} {k : Nat} {table : List PartitionInfo} {sector : UInt32}

theorem slots_eq (h : k ∈ slots) : slots = List.range k ++ k :: List.range' (k + 1) (3 - k) := by
  rw [mem_slots_iff] at h
  interval_cases k <;> rfl

theorem slotReads_plain {i : Nat} {infos : List PartitionInfo}
    (h : isExtended (entry (disk.data 0) i).systemId = false) :
    disk.SlotReads i (entry (disk.data 0) i) infos ↔ infos = plainInfo (disk.data 0) i := by
  unfold plainInfo
  by_cases hempty : (entry (disk.data 0) i).systemId = EMPTY
  · rw [slotReads_of_empty hempty, if_pos hempty]
  · rw [slotReads_of_primary hempty h, if_neg hempty]

theorem flatMap_slots {mbr : Sector} {added : Nat → List PartitionInfo}
    {logical : List PartitionInfo} (hk : k ∈ slots)
    (hother : ∀ i ∈ slots, i ≠ k → added i = plainInfo mbr i)
    (hadded : added k = extendedInfo (entry mbr k) :: logical) :
    slots.flatMap added = tableWith mbr k logical := by
  have hfirst : (range k).flatMap added = (range k).flatMap (plainInfo mbr) := by
    refine flatMap_congr fun i hi => ?_
    have := mem_slots_iff.mp hk
    rw [mem_range] at hi
    exact hother i (mem_slots_iff.mpr (by omega)) (by omega)
  have hlast :
      (range' (k + 1) (3 - k)).flatMap added =
      (range' (k + 1) (3 - k)).flatMap (plainInfo mbr) := by
    refine flatMap_congr fun i hi => ?_
    rw [mem_range'_1] at hi
    exact hother i (mem_slots_iff.mpr (by omega)) (by omega)
  rw [slots_eq hk, flatMap_append, flatMap_cons, hfirst, hlast, hadded, ← append_assoc]
  rfl

theorem reads_iff (h : OneExtended disk k) :
    disk.Reads table ↔ ∃ items,
      Ends (disk.node (entry (disk.data 0) k).relativeSector)
        (entry (disk.data 0) k).relativeSector items ∧
        table = tableWith (disk.data 0) k (numbered 5 items) := by
  rw [Disk.reads_iff h.readable h.signed]
  constructor
  · rintro ⟨added, hadded, rfl⟩
    obtain ⟨items, hitems, hends⟩ := (slotReads_of_extended h.extended).mp (hadded k h.mem)
    have hother : ∀ i ∈ slots, i ≠ k → added i = plainInfo (disk.data 0) i :=
      fun i hi hne => (slotReads_plain (h.only i hi hne)).mp (hadded i hi)
    exact ⟨items, hends, flatMap_slots h.mem hother hitems⟩
  · rintro ⟨items, hends, rfl⟩
    let added :=
      Function.update (plainInfo (disk.data 0)) k
      (extendedInfo (entry (disk.data 0) k) :: numbered 5 items)
    have hother : ∀ i ∈ slots, i ≠ k → added i = plainInfo (disk.data 0) i :=
      fun i _ hne => Function.update_of_ne hne _ _
    have hk : added k = extendedInfo (entry (disk.data 0) k) :: numbered 5 items :=
      Function.update_self _ _ _
    refine ⟨added, fun i hi => ?_, (flatMap_slots h.mem hother hk).symm⟩
    by_cases hik : i = k
    · subst hik
      exact (slotReads_of_extended h.extended).mpr ⟨items, hk, hends⟩
    · exact (slotReads_plain (h.only i hi hik)).mpr (hother i hi hik)

theorem set (h : OneExtended disk k) (hsector : sector ≠ 0) (buff : Sector) :
    OneExtended (disk.set sector buff) k := by
  have hdata : (disk.set sector buff).data 0 = disk.data 0 := data_set_of_ne (Ne.symm hsector)
  refine ⟨h.readable, ?_, h.mem, ?_, ?_⟩ <;> rw [hdata]
  · exact h.signed
  · exact h.extended
  · exact h.only

theorem reads_set_iff (h : OneExtended disk k) (hsector : sector ≠ 0) (buff : Sector) :
    (disk.set sector buff).Reads table ↔ ∃ items,
      Ends ((disk.set sector buff).node (entry (disk.data 0) k).relativeSector)
        (entry (disk.data 0) k).relativeSector items ∧
        table = tableWith (disk.data 0) k (numbered 5 items) := by
  have hdata : (disk.set sector buff).data 0 = disk.data 0 := data_set_of_ne (Ne.symm hsector)
  rw [(h.set hsector buff).reads_iff, hdata]

theorem findExtended_eq (h : OneExtended disk k) :
    findExtended (disk.data 0) = some (entry (disk.data 0) k) := by
  have hfirst : ∀ i < k, isExtended (entry (disk.data 0) i).systemId = false := by
    intro i hi
    have := mem_slots_iff.mp h.mem
    exact h.only i (mem_slots_iff.mpr (by omega)) (by omega)
  have hnone :
      ((range k).map (entry (disk.data 0))).find? (fun e => isExtended e.systemId) = none := by
    rw [find?_eq_none]
    intro e he
    obtain ⟨i, hi, rfl⟩ := mem_map.mp he
    rw [hfirst i (mem_range.mp hi)]
    exact Bool.false_ne_true
  unfold findExtended
  rw [slots_eq h.mem, map_append, map_cons, find?_append, hnone, Option.none_or,
    find?_cons, h.extended]

end OneExtended

theorem findExtended_eq_none {mbr : Sector}
    (h : ∀ i ∈ slots, isExtended (entry mbr i).systemId = false) :
    findExtended mbr = none := by
  refine find?_eq_none.mpr fun e he => ?_
  obtain ⟨i, hi, rfl⟩ := mem_map.mp he
  rw [h i hi]
  exact Bool.false_ne_true

/-- A signed first boot record with one extended partition, and the list in it. -/
structure ExtendedTable (disk : Disk) where
  slot : Nat
  one : OneExtended disk slot
  list : LogicalList disk (entry (disk.data 0) slot)

namespace ExtendedTable

variable {disk : Disk} {buff : Sector}

def extPart (t : ExtendedTable disk) : PartitionTableEntry := entry (disk.data 0) t.slot

/-- The table with other logical partitions. -/
def tableWith (t : ExtendedTable disk) (logical : List PartitionInfo) : List PartitionInfo :=
  Storage.tableWith (disk.data 0) t.slot logical

variable {t : ExtendedTable disk} {sector : UInt32} {items : List (UInt32 × PartitionTableEntry)}

theorem tableWith_inj {logical logical' : List PartitionInfo} :
    t.tableWith logical = t.tableWith logical' ↔ logical = logical' :=
  ⟨Storage.tableWith_inj, congrArg _⟩

theorem reads : disk.Reads (t.tableWith (numbered 5 t.list.items)) :=
  t.one.reads_iff.mpr ⟨t.list.items, t.list.ends, rfl⟩

theorem reads_set (hsector : sector ≠ 0)
    (hends : Ends ((disk.set sector buff).node t.extPart.relativeSector)
        t.extPart.relativeSector items) :
    (disk.set sector buff).Reads (t.tableWith (numbered 5 items)) :=
  (t.one.reads_set_iff hsector buff).mpr ⟨items, hends, rfl⟩

/-- If the list still leads through the records of all partitions, the table is the same
unless it goes on behind them. -/
theorem reads_set_path_iff (hsector : sector ≠ 0) {next : UInt32}
    (hpath : Path ((disk.set sector buff).node t.extPart.relativeSector) t.extPart.relativeSector
        t.list.items next) :
    (disk.set sector buff).Reads (t.tableWith (numbered 5 t.list.items)) ↔
      (disk.set sector buff).node t.extPart.relativeSector next = none := by
  rw [← ends_nil_iff, t.one.reads_set_iff hsector]
  constructor
  · rintro ⟨all, hall, heq⟩
    obtain ⟨rest, rfl, hrest⟩ := hpath.ends_iff.mp hall
    have hlength := congrArg length (tableWith_inj.mp heq)
    rw [length_numbered, length_numbered, length_append] at hlength
    obtain rfl : rest = [] := length_eq_zero_iff.mp (by omega)
    exact hrest
  · intro hends
    exact ⟨t.list.items, hpath.ends_iff.mpr ⟨[], (append_nil _).symm, hends⟩, rfl⟩

end ExtendedTable

/-- A disk with a proper partition table. -/
inductive Layout (disk : Disk)
  | plain (readable : disk.readable 0 = true) (signed : signature (disk.data 0) = 0xaa55)
      (only : ∀ i ∈ slots, isExtended (entry (disk.data 0) i).systemId = false)
  | extended (t : ExtendedTable disk)

namespace Layout

variable {disk : Disk}

def table : Layout disk → List PartitionInfo
  | plain _ _ _ => slots.flatMap (plainInfo (disk.data 0))
  | extended t => t.tableWith (numbered 5 t.list.items)

/-- The logical partitions, each with the sector of its boot record. -/
def items : Layout disk → List (UInt32 × PartitionTableEntry)
  | plain _ _ _ => []
  | extended t => t.list.items

theorem reads_plain {table : List PartitionInfo} (hreadable : disk.readable 0 = true)
    (hsigned : signature (disk.data 0) = 0xaa55)
    (honly : ∀ i ∈ slots, isExtended (entry (disk.data 0) i).systemId = false) :
    disk.Reads table ↔ table = slots.flatMap (plainInfo (disk.data 0)) := by
  rw [reads_iff hreadable hsigned]
  constructor
  · rintro ⟨added, hadded, rfl⟩
    exact flatMap_congr fun i hi => (OneExtended.slotReads_plain (honly i hi)).mp (hadded i hi)
  · rintro rfl
    exact ⟨_, fun i hi => (OneExtended.slotReads_plain (honly i hi)).mpr rfl, rfl⟩

theorem readable (w : Layout disk) : disk.readable 0 = true := by
  cases w with
  | plain hreadable _ _ => exact hreadable
  | extended t => exact t.one.readable

theorem signed (w : Layout disk) : signature (disk.data 0) = 0xaa55 := by
  cases w with
  | plain _ hsigned _ => exact hsigned
  | extended t => exact t.one.signed

theorem reads (w : Layout disk) : disk.Reads w.table := by
  cases w with
  | plain hreadable hsigned honly => exact (reads_plain hreadable hsigned honly).mpr rfl
  | extended t => exact t.reads

end Layout

end HuyaOS.Storage
