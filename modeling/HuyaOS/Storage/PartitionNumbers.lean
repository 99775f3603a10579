import HuyaOS.Storage.PrimaryPartition
import HuyaOS.Storage.StorageService

/-!
The numbers of the partitions in a table. A primary partition has the number of its
entry. An extended partition has the number 5, and so has the first logical partition
in it. So the numbers are different only as long as there is at most one extended
partition, and its list is empty.
-/

namespace HuyaOS.Storage

open Lib Disk StorageService Filesystem PartitionInfo List

variable {disk : Disk} {i : Nat} {e : PartitionTableEntry} {infos table : List PartitionInfo}

/-- The first boot record, if there is one, has at most one extended entry, and the list of this
entry begins with a record that is not signed or not used. -/
def Disk.WithoutLogical (disk : Disk) : Prop :=
  disk.readable 0 = true ∧ signature (disk.data 0) = 0xaa55 →
    (∀ i ∈ slots, isExtended (entry (disk.data 0) i).systemId = true →
      let first := (disk.read (entry (disk.data 0) i).relativeSector).2
      signature first ≠ 0xaa55 ∨ (entry first 0).systemId = EMPTY) ∧
    slots.Pairwise fun i j => ¬(isExtended (entry (disk.data 0) i).systemId = true ∧
      isExtended (entry (disk.data 0) j).systemId = true)

section

variable (h : disk.SlotReads i e infos)

include h

/-- The numbers that one entry of the first boot record adds are different unless its list has
a partition. -/
theorem nodup_slot_iff : (infos.map number).Nodup ↔
    (isExtended e.systemId = true →
      let first := (disk.read e.relativeSector).2
      signature first ≠ 0xaa55 ∨ (entry first 0).systemId = EMPTY) := by
  by_cases hempty : e.systemId = EMPTY
  · rw [(slotReads_of_empty hempty).mp h]
    exact iff_of_true nodup_nil fun hextended => absurd hempty (ne_EMPTY_of_isExtended hextended)
  by_cases hextended : isExtended e.systemId = true
  · obtain ⟨items, rfl, hends⟩ := (slotReads_of_extended hextended).mp h
    have hnone : items = [] ↔ disk.node e.relativeSector e.relativeSector = none := by
      rw [← ends_nil_iff]
      exact ⟨fun hnil => hnil ▸ hends, fun hnil => hends.unique hnil⟩
    have hnodup : ((extendedInfo e :: numbered 5 items).map number).Nodup ↔ items = [] := by
      cases items with
      | nil => exact iff_of_true (nodup_singleton _) rfl
      | cons item items =>
        exact iff_of_false (fun hnodup => (nodup_cons.mp hnodup).1 mem_cons_self) (cons_ne_nil _ _)
    rw [hnodup, hnone, imp_iff_right hextended]
    exact bootNode_eq_none_iff
  · rw [(slotReads_of_primary hempty (Bool.eq_false_iff.mpr hextended)).mp h]
    exact iff_of_true (nodup_singleton _) fun h => absurd h hextended

theorem number_of_extended (hextended : isExtended e.systemId = true) :
    (5 : UInt8) ∈ infos.map number ∧
      ((infos.map number).Nodup → ∀ n ∈ infos.map number, n = UInt8.ofNat 5) := by
  obtain ⟨items, rfl, -⟩ := (slotReads_of_extended hextended).mp h
  refine ⟨mem_cons_self, fun hnodup => ?_⟩
  cases items with
  | nil => exact forall_mem_singleton.mpr rfl
  | cons item items => exact absurd mem_cons_self (nodup_cons.mp hnodup).1

theorem number_of_primary (hextended : ¬isExtended e.systemId = true) :
    ∀ n ∈ infos.map number, n = UInt8.ofNat (i + 1) := by
  by_cases hempty : e.systemId = EMPTY
  · rw [(slotReads_of_empty hempty).mp h]
    exact forall_mem_nil _
  · rw [(slotReads_of_primary hempty (Bool.eq_false_iff.mpr hextended)).mp h]
    exact forall_mem_singleton.mpr rfl

theorem disjoint_slots_iff {j : Nat} {e' : PartitionTableEntry} {infos' : List PartitionInfo}
    (h' : disk.SlotReads j e' infos') (hi : i < 4) (hj : j < 4) (hne : i ≠ j)
    (hnodup : (infos.map number).Nodup) (hnodup' : (infos'.map number).Nodup) :
    List.Disjoint (infos.map number) (infos'.map number) ↔
      ¬(isExtended e.systemId = true ∧ isExtended e'.systemId = true) := by
  constructor
  · rintro hdisjoint ⟨hextended, hextended'⟩
    exact hdisjoint (number_of_extended h hextended).1 (number_of_extended h' hextended').1
  · intro hnot n hn hn'
    have hinj : ∀ {a b : Nat}, a < 6 → b < 6 → n = UInt8.ofNat a → n = UInt8.ofNat b → a = b := by
      intro a b ha hb hna hnb
      have hnat := congrArg UInt8.toNat (hna.symm.trans hnb)
      rw [UInt8.toNat_ofNat', UInt8.toNat_ofNat', Nat.mod_eq_of_lt (by omega),
        Nat.mod_eq_of_lt (by omega)] at hnat
      exact hnat
    by_cases hextended : isExtended e.systemId = true
    · have hplain := fun hextended' => hnot ⟨hextended, hextended'⟩
      have := hinj (by omega) (by omega) ((number_of_extended h hextended).2 hnodup n hn)
        (number_of_primary h' hplain n hn')
      omega
    · have hnumber := number_of_primary h hextended n hn
      by_cases hextended' : isExtended e'.systemId = true
      · have := hinj (by omega) (by omega) hnumber
          ((number_of_extended h' hextended').2 hnodup' n hn')
        omega
      · have := hinj (by omega) (by omega) hnumber (number_of_primary h' hextended' n hn')
        omega

end

theorem nodup_numbers_iff (h : disk.Reads table) :
    (table.map number).Nodup ↔ disk.WithoutLogical := by
  by_cases hsigned : disk.readable 0 = true ∧ signature (disk.data 0) = 0xaa55
  · obtain ⟨added, hadded, rfl⟩ := (reads_iff hsigned.1 hsigned.2).mp h
    have hdistinct : slots.Pairwise (· ≠ ·) := by decide
    have hdisjoint : ∀ {i j}, i ∈ slots → j ∈ slots → i ≠ j → ((added i).map number).Nodup →
        ((added j).map number).Nodup → (Disjoint ((added i).map number) ((added j).map number) ↔
          ¬(isExtended (entry (disk.data 0) i).systemId = true ∧
            isExtended (entry (disk.data 0) j).systemId = true)) := fun {i j} hi hj hne =>
      disjoint_slots_iff (hadded i hi) (hadded j hj) (mem_slots_iff.mp hi) (mem_slots_iff.mp hj) hne
    have heach : (∀ i ∈ slots, ((added i).map number).Nodup) ↔ _ :=
      forall₂_congr fun i hi => nodup_slot_iff (hadded i hi)
    rw [WithoutLogical, imp_iff_right hsigned, ← heach, map_flatMap, nodup_flatMap]
    refine and_congr_right fun hnodup => ⟨fun hpairs => ?_, fun hpairs => ?_⟩
    · refine (hdistinct.and hpairs).imp_of_mem fun hi hj h => ?_
      exact (hdisjoint hi hj h.1 (hnodup _ hi) (hnodup _ hj)).mp h.2
    · refine (hdistinct.and hpairs).imp_of_mem fun hi hj h => ?_
      exact (hdisjoint hi hj h.1 (hnodup _ hi) (hnodup _ hj)).mpr h.2
  · obtain rfl : table = [] := h.eq_nil hsigned
    exact iff_of_true nodup_nil fun h => absurd h hsigned

/-- The numbers, and with them the names that the partitions are registered under, are different
exactly if the disk has no logical partition and at most one extended one. Then all partitions
are found after the drive has been registered. -/
theorem partition_numbers_iff {code : String → Nat} {service : StorageService}
    {m : String → Option StorageDevice}
    (hm : HashMap.Represents String.WellFormed code service.devices m) {name : String}
    (hname : name.WellFormed) (h : disk.Reads table) :
    ((table.map number).Nodup ↔ disk.WithoutLogical) ∧
    ((table.map fun info => partitionName name info.number).Nodup ↔ disk.WithoutLogical) ∧
    (disk.WithoutLogical → ∀ info ∈ table,
      (service.registerDevice code (.drive name table)).devices.get code
        (partitionName name info.number) = .ok (.ofInfo name info)) := by
  have hinjective : Function.Injective (partitionName name) := fun a b hab => by
    have hbeq := (wellFormed_beq (wellFormed_partitionName hname a)
      (wellFormed_partitionName hname b)).mpr hab
    exact (partitionName_beq hname).mp hbeq
  have hnumbers := nodup_numbers_iff h
  refine ⟨hnumbers, ?_, fun hwithout info hinfo => ?_⟩
  · rw [← hnumbers, ← nodup_map_iff hinjective, map_map]
    rfl
  · rw [get_partitionName hm hname]
    have hreported : reported table info.number = some info := by
      obtain ⟨before, after, rfl⟩ := append_of_mem hinfo
      have hnodup := hnumbers.mpr hwithout
      rw [map_append, map_cons, nodup_middle, nodup_cons] at hnodup
      refine reported_append rfl fun other hother heq => hnodup.1 (mem_append_right _ ?_)
      exact heq ▸ mem_map_of_mem hother
    rw [hreported]
    rfl

/-- Three primary partitions and an extended one without logical partitions. -/
def withFourEntries : Disk :=
  ofSectors [(0, bootRecord [partEntry true 0x83 1 5, partEntry false 0x07 6 4,
    partEntry false 0x05 10 20, partEntry false 0x83 30 5])]

theorem partition_numbers_iff_withFourEntries :
    let table : List PartitionInfo :=
      [⟨1, .primary, true, 0x83, 1, 5⟩, ⟨2, .primary, false, 0x07, 6, 4⟩,
      ⟨5, .extended, false, 0x05, 10, 20⟩, ⟨4, .primary, false, 0x83, 30, 5⟩]
    let name : String := .ofChars [104]
    withFourEntries.Reads table ∧ ∀ info ∈ table,
      (StorageService.new.registerDevice String.toUInt32 (.drive name table)).devices.get
        String.toUInt32
        (partitionName name info.number) = .ok (.ofInfo name info) := by
  intro table name
  have hreads : withFourEntries.Reads table := ⟨1, by rfl⟩
  have hwithout : withFourEntries.WithoutLogical := fun _ => by decide +kernel
  exact ⟨hreads, (partition_numbers_iff represents_new (String.wellFormed_ofChars.mpr (by decide))
    hreads).2.2 hwithout⟩

/-- An extended partition and the first logical partition in it have one number. The
device of the first is replaced by that of the second. -/
theorem extended_replaced :
    let table : List PartitionInfo :=
      [⟨5, .extended, false, 0x05, 10, 20⟩, ⟨5, .logical, true, 0x83, 11, 5⟩]
    let name : String := .ofChars [104]
    withLogical.Reads table ∧ ¬(table.map number).Nodup ∧
      (StorageService.new.registerDevice String.toUInt32 (.drive name table)).devices.get
        String.toUInt32
        (partitionName name 5) = .ok (.partition (partitionName name 5) 11 5 0x83) :=
  ⟨⟨2, by rfl⟩, by decide, by rfl⟩

end HuyaOS.Storage
