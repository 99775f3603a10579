import HuyaOS.Storage.FailedEdits

/-!
The table after a logical partition has been deleted. A later one is left out of the
list. The record of the first one has to stay where it is, so it takes over the second
partition, but not its flag and its system id.
-/

namespace HuyaOS.Storage

open Lib Disk List

variable {disk : Disk} {writes : Nat → Bool} {n : UInt8} {extPart : PartitionTableEntry} {j : Nat}

theorem LogicalList.getElem?_items {l : LogicalList disk extPart} {r : UInt32}
    (hused : l.items ≠ []) (h : l.records[j]? = some r) :
    l.items[j]? = some (r, entry (disk.data r) 0) := by
  rw [← l.map_items hused, getElem?_map] at h
  obtain ⟨item, hitem, rfl⟩ := Option.map_eq_some_iff.mp h
  have hmem := mem_of_getElem? hitem
  obtain ⟨next, hnode⟩ := l.ends.exists_node item hmem
  rw [node_of_readable (l.readable_of_mem (l.mem_records_of_items (mem_map_of_mem hmem)))] at hnode
  rw [hitem, ← (fst_of_bootNode hnode).1]

theorem LogicalList.used_of_item {l : LogicalList disk extPart}
    {item : UInt32 × PartitionTableEntry} (h : l.items[j]? = some item) :
    item.2.systemId ≠ EMPTY := by
  obtain ⟨next, hnode⟩ := l.ends.exists_node item (mem_of_getElem? h)
  exact (fst_of_bootNode hnode).2

namespace ExtendedTable

variable (t : ExtendedTable disk)

theorem findExtended_eq : findExtended (disk.data 0) = some t.extPart := t.one.findExtended_eq

/-- The table after a record has got another partition and the link of the next one, whatever is
written there. -/
theorem reads_relinked {p r : UInt32} {j : Nat} (hp : t.list.records[j]? = some p)
    (hr : t.list.records[j + 1]? = some r) {buff : Sector} (hsigned : signature buff = 0xaa55)
    (hused : (entry buff 0).systemId ≠ EMPTY) (hlink : entry buff 1 = entry (disk.data r) 1)
    (emptied : Sector) :
    ((disk.set r emptied).set p buff).Reads
      (t.tableWith
        (numbered 5 (t.list.items.take j ++ (p, entry buff 0) :: t.list.items.drop (j + 2)))) := by
  have hmem := mem_of_getElem? hp
  have hzero := ne_zero_of_mem (mem_of_getElem? hr)
  have hdata : (disk.set r emptied).data 0 = disk.data 0 := data_set_of_ne hzero.symm
  have hreadable : (disk.set r emptied).readable p = true := t.list.readable_of_mem hmem
  rw [(t.one.set hzero emptied).reads_set_iff (ne_zero_of_mem hmem), hdata]
  refine ⟨_, t.list.ends_relink hp hr (Nat.le_succ j) (node_set_self hreadable) ?_ hsigned
    hused hlink, rfl⟩
  exact fun s hs hs' => (node_set_of_ne hs).trans (node_set_of_ne hs')

/-- The partitions from the second one on are deleted without a trace in the table. -/
theorem deletePartition_later (hwrites : ∀ k < 2, writes k = true) (hfirst : 6 ≤ n.toNat)
    (hlast : n.toNat ≤ 4 + t.list.items.length) :
    disk.Reads (t.tableWith (numbered 5 t.list.items)) ∧
      (disk.deletePartition writes n).code = .SUCCESS ∧
      (disk.deletePartition writes n).disk.Reads
        (t.tableWith (numbered 5 (t.list.items.eraseIdx (n.toNat - 5)))) := by
  have hlength := t.list.length_records
  have hlater : ¬n = 5 := by
    rintro rfl
    exact absurd hfirst (by decide)
  have hr := getElem?_eq_getElem (show n.toNat - 5 < t.list.records.length by omega)
  obtain ⟨p, hp, hseek⟩ :=
    Layout.seekDeleted_record t hfirst hr (disk.stack t.extPart.relativeSector) unusedEntry
  refine ⟨t.reads, ?_⟩
  rw [Layout.deletePartition_of_logical t.one.readable (by omega), t.findExtended_eq]
  dsimp only
  rw [if_neg hlater, deleteLogical, hseek]
  dsimp only
  rw [read_of_readable (t.list.readable_of_mem (mem_of_getElem? hp)),
    if_pos (hwrites 0 (by decide)), if_pos (hwrites 1 (by decide))]
  refine ⟨rfl, ?_⟩
  obtain ⟨j, hj⟩ : ∃ j, n.toNat = j + 6 := ⟨n.toNat - 6, by omega⟩
  simp only [hj, Nat.add_sub_cancel, show j + 6 - 5 = j + 1 by omega] at hp hr ⊢
  have hitem := t.list.getElem?_items (ne_nil_of_length_pos (by omega)) hp
  generalize hbuff : setEntry (disk.data p) 1 _ = buff
  have hentry : entry buff 0 = entry (disk.data p) 0 := by
    rw [← hbuff, entry_setEntry_of_ne (by decide)]
  rw [eraseIdx_eq_take_drop_succ, take_add_one, hitem, append_assoc, ← hentry]
  refine t.reads_relinked hp hr ?_ ?_ ?_ _
  · rw [← hbuff, signature_setEntry (by decide), t.list.signed_of_mem (mem_of_getElem? hp)]
  · rw [hentry]
    exact t.list.used_of_item hitem
  · rw [← hbuff, entry_setEntry_self]

/-- The second of two partitions. -/
theorem deletePartition_later_withTwoLogical :
    (Layout.withTwoLogical.deletePartition (fun _ => true) 6).disk.Reads
      [⟨5, .extended, false, 0x05, 10, 20⟩, ⟨5, .logical, true, 0x83, 11, 5⟩] :=
  (deletePartition_later Layout.ofWithTwoLogical (fun _ _ => rfl) (by decide) (by decide)).2.2

/-- The first two partitions, if there are two, have the same flag and the same system id. -/
def SameKind (items : List (UInt32 × PartitionTableEntry)) : Prop :=
  ∀ first ∈ items[0]?, ∀ second ∈ items[1]?,
    (first.2.activeFlag == 0x80) = (second.2.activeFlag == 0x80) ∧
      first.2.systemId = second.2.systemId

theorem records_zero : t.list.records[0]? = some t.extPart.relativeSector := by
  have hlength := t.list.length_records
  have hr := getElem?_eq_getElem (show 0 < t.list.records.length by omega)
  rw [hr]
  exact congrArg some (t.list.path_take hr).1.symm

theorem reads_taken_over {r : UInt32} (hr : t.list.records[1]? = some r)
    {moved : PartitionTableEntry} (hmoved : moved.systemId ≠ EMPTY) :
    (disk.set t.extPart.relativeSector
      (setEntry (setEntry (disk.data t.extPart.relativeSector) 0 moved) 1
      (entry (disk.data r) 1))).Reads
        (t.tableWith (numbered 5 ((t.extPart.relativeSector, moved) :: t.list.items.drop 2))) := by
  have hmem := mem_of_getElem? t.records_zero
  have hsame : disk.set r (disk.data r) = disk := by
    rw [Disk.set, Function.update_eq_self]
  generalize hbuff : setEntry (setEntry (disk.data t.extPart.relativeSector) 0 moved) 1
    (entry (disk.data r) 1) = buff
  have hentry : entry buff 0 = moved := by
    rw [← hbuff, entry_setEntry_of_ne (by decide), entry_setEntry_self]
  have hread := @reads_relinked _ t _ _ _ t.records_zero hr buff ?_ ?_ ?_ (disk.data r)
  · rwa [hsame, hentry] at hread
  · rw [← hbuff, signature_setEntry (by decide), signature_setEntry (by decide),
      t.list.signed_of_mem hmem]
  · rwa [hentry]
  · rw [← hbuff, entry_setEntry_self]

/-- The second partition replaces the first one, with the flag and system id of the first one. -/
theorem deletePartition_first_iff (hwrite : writes 0 = true) (hused : t.list.items ≠ []) :
    disk.Reads (t.tableWith (numbered 5 t.list.items)) ∧
      (disk.deletePartition writes 5).code = .SUCCESS ∧
      ((disk.deletePartition writes 5).disk.Reads (t.tableWith (numbered 5 t.list.items.tail)) ↔
        SameKind t.list.items) := by
  have hzero := t.records_zero
  have hmem := mem_of_getElem? hzero
  have hfirst := t.list.getElem?_items hused hzero
  refine ⟨t.reads, ?_⟩
  rw [Layout.deletePartition_of_logical t.one.readable (by decide), t.findExtended_eq]
  dsimp only
  rw [deleteFirstLogical, read_of_readable (t.list.readable_of_mem hmem)]
  obtain ⟨hunlinked, hdrop⟩ | ⟨hlinked, -⟩ := t.list.ends_drop hzero
  · rw [if_pos hunlinked, if_pos hwrite, ← drop_one, hdrop]
    refine ⟨rfl, iff_of_true ?_ ?_⟩
    · refine t.reads_set (ne_zero_of_mem hmem) (t.list.ends_set_empty hzero ?_)
      rfl
    · intro first _ second hsecond
      rw [getElem?_eq_none (drop_eq_nil_iff.mp hdrop)] at hsecond
      exact absurd hsecond (Option.not_mem_none second)
  · obtain ⟨r, hrecord⟩ : ∃ r, t.list.records[1]? = some r := by
      obtain ⟨before, e, after, hsplit, -⟩ | ⟨hlast, -⟩ := t.list.records_cases hzero
      · have hlength : t.list.records.length = before.length + (after.length + 1 + 1) := by
          simp [LogicalList.records, hsplit]
        exact ⟨_, getElem?_eq_getElem (show 1 < t.list.records.length by omega)⟩
      · rw [hlast] at hlinked
        exact absurd t.list.unlinked hlinked
    have hmem' := mem_of_getElem? hrecord
    have hsecond := t.list.getElem?_items hused hrecord
    have hlink :
        r = t.extPart.relativeSector +
        (entry (disk.data t.extPart.relativeSector) 1).relativeSector := by
      have hpath := (t.list.path_take hrecord).1
      rw [take_add_one, hfirst] at hpath
      obtain ⟨-, next, hnode, rfl⟩ := hpath
      rw [node_of_readable (t.list.readable_of_mem hmem), bootNode_eq_some_iff] at hnode
      exact hnode.2.2.2.2
    rw [if_neg hlinked, ← hlink, read_of_readable (t.list.readable_of_mem hmem')]
    dsimp only
    rw [if_pos hwrite]
    refine ⟨rfl, ?_⟩
    refine (t.reads_taken_over hrecord ?_).iff.trans ?_
    · exact t.list.used_of_item hfirst
    · rw [tableWith_inj, ← drop_one, drop_eq_getElem?_toList_append]
      simp only [SameKind, hfirst, hsecond, Option.mem_some_iff, forall_eq']
      have hstart := UInt32.add_assoc t.extPart.relativeSector
        (entry (disk.data t.extPart.relativeSector) 1).relativeSector
          (entry (disk.data r) 0).relativeSector
      rw [← hlink] at hstart
      change logicalInfo 5 _ :: _ = logicalInfo 5 _ :: _ ↔ _
      simp only [logicalInfo, cons.injEq, PartitionInfo.mk.injEq, hstart, and_true,
        true_and, eq_comm]
      exact and_iff_left rfl

/-- An extended partition with two logical partitions of one kind in it. -/
def withSameKind : Disk :=
  ofSectors [(0, bootRecord [unusedEntry, partEntry false 0x05 10 20]),
    (10, bootRecord [partEntry true 0x83 1 7, partEntry false 0x05 8 12]),
    (18, bootRecord [partEntry true 0x83 1 11])]

def ofWithSameKind : ExtendedTable withSameKind where
  slot := 1
  one := ⟨by rfl, by decide, by decide, by rfl, by decide⟩
  list :=
    { linked := [(10, partEntry true 0x83 1 7)]
      last := 18
      path := ⟨by rfl, 18, by rfl, rfl⟩
      signed := by decide
      unlinked := by rfl
      used := fun h => absurd h (by decide)
      nodup := by decide
      inside := by
        intro r hr
        obtain rfl | rfl : r = 10 ∨ r = 18 := mem_pair.mp hr
        · exact ⟨by decide, by decide⟩
        · exact ⟨by decide, by decide⟩
      readable := fun _ _ => rfl
      pos := by decide }

/-- The partition that stays is listed with its own flag and id. -/
theorem deletePartition_first_iff_withSameKind :
    (withSameKind.deletePartition (fun _ => true) 5).disk.Reads
      [⟨5, .extended, false, 0x05, 10, 20⟩, ⟨5, .logical, true, 0x83, 19, 11⟩] := by
  have hitems : ofWithSameKind.list.items =
      [(10, partEntry true 0x83 1 7), (18, partEntry true 0x83 1 11)] := by rfl
  have hkind : SameKind ofWithSameKind.list.items := by
    simp [SameKind, hitems, partEntry]
  exact (deletePartition_first_iff ofWithSameKind rfl (by decide)).2.2.mpr hkind

/-- The partition with the id 0x07 that stays gets the flag and the id of the deleted one. -/
theorem deletePartition_first_mixed :
    let outcome := Layout.withTwoLogical.deletePartition (fun _ => true) 5
    outcome.code = .SUCCESS ∧
      Layout.withTwoLogical.Reads [⟨5, .extended, false, 0x05, 10, 20⟩,
        ⟨5, .logical, true, 0x83, 11, 5⟩, ⟨6, .logical, false, 0x07, 21, 8⟩] ∧
      outcome.disk.Reads [⟨5, .extended, false, 0x05, 10, 20⟩, ⟨5, .logical, true, 0x83, 21, 8⟩] :=
  ⟨by rfl, ⟨3, by rfl⟩, 3, by rfl⟩

end ExtendedTable

end HuyaOS.Storage
