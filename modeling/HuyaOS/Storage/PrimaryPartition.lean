import HuyaOS.Storage.WritePartition

/-!
What `writePartition` of a primary partition does to the partition table. It writes
the first boot record only, so the other entries of this record and the lists of
boot records stay, unless a list comes back to the first record. A list can do so
although no extended partition begins there: its links are added modulo 2^32.
-/

namespace HuyaOS.Storage.Disk

open Lib Function

variable {disk : Disk} {writes : Nat → Bool} {n : UInt8} {active : Bool} {systemId : UInt8}
  {startSector sectorCount : UInt32} {table : List PartitionInfo} {k : Nat}

theorem mem_slots_iff : k ∈ slots ↔ k < 4 := by
  simp only [slots, List.mem_cons, List.not_mem_nil, or_false]
  omega

theorem writePartition_of_primary (hreadable : disk.readable 0 = true)
    (hsigned : signature (disk.data 0) = 0xaa55) (hfirst : 1 ≤ n) (hlast : n ≤ 4) :
    disk.writePartition writes n active systemId startSector sectorCount =
      disk.writePrimary writes (disk.data 0) n active systemId startSector sectorCount := by
  unfold writePartition
  rw [read_of_readable hreadable]
  simp only [UInt8.not_lt.mpr hfirst, if_false, Bool.true_eq_false, hsigned, ne_eq,
    not_true_eq_false, hlast, if_true]

theorem primaryInfo_partEntry (hfirst : 1 ≤ n) :
    primaryInfo (n.toNat - 1) (partEntry active systemId startSector sectorCount) =
      ⟨n, .primary, active, systemId, startSector, sectorCount⟩ := by
  have hnumber : UInt8.ofNat (n.toNat - 1 + 1) = n := by
    have : 1 ≤ n.toNat := UInt8.le_iff_toNat_le.mp hfirst
    rw [Nat.sub_add_cancel this, UInt8.ofNat_toNat]
  unfold primaryInfo
  rw [hnumber]
  cases active <;> rfl

/-- The other entries add the same to the table after the entry `k` of the first boot
record has been written. -/
theorem reads_set_zero {e : PartitionTableEntry} {infos : List PartitionInfo}
    {added : Nat → List PartitionInfo} (hreadable : disk.readable 0 = true)
    (hsigned : signature (disk.data 0) = 0xaa55) (hk : k ∈ slots)
    (hlists : ∀ i ∈ slots, i ≠ k → isExtended (entry (disk.data 0) i).systemId = true →
        ¬Visits (disk.node (entry (disk.data 0) i).relativeSector)
        (entry (disk.data 0) i).relativeSector 0)
    (hadded : ∀ i ∈ slots, disk.SlotReads i (entry (disk.data 0) i) (added i))
    (hnew : (disk.set 0 (setEntry (disk.data 0) k e)).SlotReads k e infos) :
    (disk.set 0 (setEntry (disk.data 0) k e)).Reads (slots.flatMap (update added k infos)) := by
  have hsigned' : signature ((disk.set 0 (setEntry (disk.data 0) k e)).data 0) = 0xaa55 := by
    rw [data_set_self, signature_setEntry (mem_slots_iff.mp hk), hsigned]
  have hreadable' : (disk.set 0 (setEntry (disk.data 0) k e)).readable 0 = true := hreadable
  refine (reads_iff hreadable' hsigned').mpr ⟨update added k infos, fun i hi => ?_, rfl⟩
  rw [data_set_self]
  by_cases hik : i = k
  · subst hik
    rw [entry_setEntry_self, update_self]
    exact hnew
  · rw [entry_setEntry_of_ne hik, update_of_ne hik, slotReads_set (hlists i hi hik)]
    exact hadded i hi

/-- A primary partition that is written takes the place of what its entry added to
the table before. No list of an extended partition may pass the first sector. -/
theorem writePartition_primary_round_trip (disk : Disk) (writes : Nat → Bool) (n : UInt8)
    (active : Bool) (systemId : UInt8) (startSector sectorCount : UInt32)
    (hreadable : disk.readable 0 = true) (hsigned : signature (disk.data 0) = 0xaa55)
    (hfirst : 1 ≤ n) (hlast : n ≤ 4) (hempty : systemId ≠ EMPTY)
    (hextended : isExtended systemId = false) (hwrites : ∀ k, writes k = true)
    (hlists : ∀ i ∈ slots, i ≠ n.toNat - 1 → isExtended (entry (disk.data 0) i).systemId = true →
        ¬Visits (disk.node (entry (disk.data 0) i).relativeSector)
        (entry (disk.data 0) i).relativeSector 0) :
    let outcome := disk.writePartition writes n active systemId startSector sectorCount
    outcome.code = .SUCCESS ∧ ∀ table, disk.Reads table → ∃ added : Nat → List PartitionInfo,
      (∀ i ∈ slots, disk.SlotReads i (entry (disk.data 0) i) (added i)) ∧
        table = slots.flatMap added ∧
        outcome.disk.Reads (slots.flatMap (update added (n.toNat - 1)
          [⟨n, .primary, active, systemId, startSector, sectorCount⟩])) := by
  have hid : ¬(systemId = 0x05 ∨ systemId = 0x0f) := by
    rw [← isExtended_iff, hextended]
    exact Bool.false_ne_true
  have hk : n.toNat - 1 ∈ slots := by
    have hle : n.toNat ≤ 4 := UInt8.le_iff_toNat_le.mp hlast
    rw [mem_slots_iff]
    omega
  intro outcome
  have houtcome : outcome = ⟨.SUCCESS, disk.set 0 (setEntry (disk.data 0) (n.toNat - 1)
      (partEntry active systemId startSector sectorCount)),
        some ⟨n, startSector, sectorCount, systemId⟩⟩ := by
    unfold outcome
    rw [writePartition_of_primary hreadable hsigned hfirst hlast]
    unfold writePrimary writeMbr
    simp only [if_neg hid, hwrites, if_true]
  rw [houtcome]
  refine ⟨rfl, fun table htable => ?_⟩
  obtain ⟨added, hadded, rfl⟩ := (reads_iff hreadable hsigned).mp htable
  refine ⟨added, hadded, rfl, reads_set_zero hreadable hsigned hk hlists hadded ?_⟩
  rw [slotReads_of_primary hempty hextended, primaryInfo_partEntry hfirst]

/-- An extended partition with one logical partition in it. -/
def withLogical : Disk :=
  ofSectors [(0, bootRecord [unusedEntry, partEntry false 0x05 10 20]),
    (10, bootRecord [partEntry true 0x83 1 5])]

/-- A partition is added before the extended one. -/
theorem writePartition_primary_round_trip_withLogical :
    (withLogical.writePartition (fun _ => true) 1 false 0x07 40 8).disk.Reads
      [⟨1, .primary, false, 0x07, 40, 8⟩, ⟨5, .extended, false, 0x05, 10, 20⟩,
        ⟨5, .logical, true, 0x83, 11, 5⟩] := by
  have htable :
      withLogical.Reads [⟨5, .extended, false, 0x05, 10, 20⟩, ⟨5, .logical, true, 0x83, 11, 5⟩] :=
    ⟨2, by rfl⟩
  have hlists : ∀ i ∈ slots, i ≠ 0 → isExtended (entry (withLogical.data 0) i).systemId = true →
      ¬Visits (withLogical.node (entry (withLogical.data 0) i).relativeSector)
        (entry (withLogical.data 0) i).relativeSector 0 := by
    have hnode : withLogical.node 10 10 = some (partEntry true 0x83 1 5, none) := by rfl
    have hvisits : ¬Visits (withLogical.node 10) 10 0 :=
      fun h => absurd (h.eq_of_last hnode) (by decide)
    intro i hi hne hextended
    rw [mem_slots_iff] at hi
    interval_cases i
    · exact absurd rfl hne
    · exact hvisits
    · exact absurd hextended Bool.false_ne_true
    · exact absurd hextended Bool.false_ne_true
  obtain ⟨-, hround⟩ :=
    writePartition_primary_round_trip withLogical (fun _ => true) 1 false 0x07 40 8 (by rfl)
    (by decide) (by decide) (by decide) (by decide) (by rfl) (fun _ => rfl) hlists
  obtain ⟨added, hadded, -, hreads⟩ := hround _ htable
  have hextended :
      added 1 = [⟨5, .extended, false, 0x05, 10, 20⟩, ⟨5, .logical, true, 0x83, 11, 5⟩] :=
    (hadded 1 (by decide)).unique ⟨2, by rfl⟩
  have hthird : added 2 = [] := (hadded 2 (by decide)).unique ⟨0, by rfl⟩
  have hfourth : added 3 = [] := (hadded 3 (by decide)).unique ⟨0, by rfl⟩
  simpa [slots, hextended, hthird, hfourth] using hreads

/-- An extended partition whose list goes on in the first sector of the disk. -/
def throughFirstSector : Disk :=
  ofSectors [(0, bootRecord [unusedEntry, unusedEntry, partEntry false 0x05 10 20]),
    (10, bootRecord [partEntry false 0x83 1 5, partEntry false 0x83 (0 - 10) 1])]

/-- The new primary partition becomes a logical partition as well. -/
theorem writePartition_primary_throughFirstSector :
    let outcome := throughFirstSector.writePartition (fun _ => true) 1 false 0x07 40 8
    (∀ i ∈ slots, isExtended (entry (throughFirstSector.data 0) i).systemId = true →
        (entry (throughFirstSector.data 0) i).relativeSector ≠ 0) ∧
      outcome.code = .SUCCESS ∧
      throughFirstSector.Reads [⟨5, .extended, false, 0x05, 10, 20⟩,
        ⟨5, .logical, false, 0x83, 11, 5⟩] ∧
      outcome.disk.Reads [⟨1, .primary, false, 0x07, 40, 8⟩, ⟨5, .extended, false, 0x05, 10, 20⟩,
        ⟨5, .logical, false, 0x83, 11, 5⟩, ⟨6, .logical, false, 0x07, 40, 8⟩] := by
  refine ⟨by decide, by rfl, ⟨3, by rfl⟩, ⟨4, by rfl⟩⟩

end HuyaOS.Storage.Disk
