import HuyaOS.Storage.LogicalPartition

/-!
What is read after `writePartition` or `deletePartition` has failed. Calls that write
one sector leave the table as it is. Three calls write two sectors, and nothing undoes
the first write when the second one fails:

* a new extended partition is given an empty boot record before it is entered in the
  table, which may overwrite a record that is in use;
* a new logical partition is linked before its boot record is written, so the list
  goes on with what lies in the sector;
* the boot record of a deleted logical partition is emptied before its predecessor is
  linked to its successor, so the partitions behind it are lost.
-/

namespace HuyaOS.Storage

open Lib Disk List ExtendedTable

namespace Layout

variable {disk : Disk} {sector : UInt32}

/-- The sector holds a boot record with a partition in it. -/
def HasPartition (disk : Disk) (sector : UInt32) : Prop :=
  signature (disk.read sector).2 = 0xaa55 ∧ (entry (disk.read sector).2 0).systemId ≠ EMPTY

variable (w : Layout disk)

/-- The first write of `writePartition` is seen if the second one fails. -/
def WriteTorn (writes : Nat → Bool) (n systemId : UInt8) (startSector : UInt32) : Prop :=
  writes 0 = true ∧
    (1 ≤ n ∧ n ≤ 4 ∧ isExtended systemId = true ∧
        (startSector = 0 ∧ w.table ≠ [] ∨ startSector ∈ w.items.map Prod.fst) ∨
      w.items ≠ [] ∧ 5 + w.items.length ≤ n.toNat ∧ HasPartition disk startSector)

def DeleteTorn (writes : Nat → Bool) (n : UInt8) : Prop :=
  writes 0 = true ∧ 6 ≤ n.toNat ∧ n.toNat < 5 + w.items.length

theorem entry_sign_zeros {k : Nat} (hk : k < 4) : (entry (sign zeros) k).systemId = EMPTY := by
  rw [entry_sign hk]
  rfl

theorem reads_empty_zero (hreadable : disk.readable 0 = true) {table : List PartitionInfo} :
    (disk.set 0 (sign zeros)).Reads table ↔ table = [] := by
  have hreadable' : (disk.set 0 (sign zeros)).readable 0 = true := hreadable
  have hempty : ∀ i ∈ slots, (entry ((disk.set 0 (sign zeros)).data 0) i).systemId = EMPTY :=
    fun i hi => by
    exact entry_sign_zeros (mem_slots_iff.mp hi)
  rw [reads_plain hreadable' (by exact signature_sign) fun i hi => by
    rw [hempty i hi]
    exact isExtended_EMPTY]
  rw [show slots.flatMap (plainInfo ((disk.set 0 (sign zeros)).data 0)) = [] from
    flatMap_eq_nil_iff.mpr fun i hi => if_pos (hempty i hi)]

theorem zero_not_mem_items : 0 ∉ w.items.map Prod.fst := by
  cases w with
  | plain _ _ _ => exact not_mem_nil
  | extended t => exact fun hmem => ne_zero_of_mem (t.list.mem_records_of_items hmem) rfl

theorem reads_empty_extended (t : ExtendedTable disk) (hzero : sector ≠ 0) :
    (disk.set sector (sign zeros)).Reads (t.tableWith (numbered 5 t.list.items)) ↔
      sector ∉ t.list.items.map Prod.fst := by
  by_cases hmem : sector ∈ t.list.records
  · obtain ⟨j, hj⟩ := getElem?_of_mem hmem
    have hread := t.reads_set hzero (t.list.ends_set_empty hj (entry_sign_zeros (by decide)))
    rw [hread.iff, ExtendedTable.tableWith_inj, numbered_take, eq_comm, take_eq_self_iff,
      length_numbered]
    by_cases hunused : t.list.items = []
    · rw [hunused]
      exact iff_of_true (Nat.zero_le _) not_mem_nil
    · have hlt := (List.getElem?_eq_some_iff.mp hj).1
      rw [← t.list.map_items hunused] at hmem hlt
      rw [length_map] at hlt
      exact iff_of_false (Nat.not_le.mpr hlt) (not_not.mpr hmem)
  · refine iff_of_true (t.reads_set hzero (t.list.ends_congr fun r hr => ?_)) fun h =>
      hmem (t.list.mem_records_of_items h)
    exact node_set_of_ne (ne_of_mem_of_not_mem hr hmem)

/-- The empty record is seen if it takes the place of the first boot record or of a
record with a partition. -/
theorem reads_empty_iff (sector : UInt32) :
    (disk.set sector (sign zeros)).Reads w.table ↔
      ¬(sector = 0 ∧ w.table ≠ [] ∨ sector ∈ w.items.map Prod.fst) := by
  by_cases hzero : sector = 0
  · subst hzero
    rw [reads_empty_zero w.readable, or_iff_left w.zero_not_mem_items]
    exact ⟨fun hnil h => h.2 hnil, fun h => not_not.mp fun hne => h ⟨rfl, hne⟩⟩
  · rw [or_iff_right fun h => hzero h.1]
    cases w with
    | plain hreadable hsigned honly =>
      have hdata : (disk.set sector (sign zeros)).data 0 = disk.data 0 :=
        data_set_of_ne (Ne.symm hzero)
      have hreadable' : (disk.set sector (sign zeros)).readable 0 = true := hreadable
      refine iff_of_true ((reads_plain hreadable' (hdata ▸ hsigned) (hdata ▸ honly)).mpr ?_)
        not_mem_nil
      rw [hdata]
      rfl
    | extended t => exact reads_empty_extended t hzero

theorem hasPartition_iff (start : UInt32) :
    HasPartition disk sector ↔ disk.node start sector ≠ none := by
  unfold node bootNode
  split
  · rename_i hstop
    exact iff_of_false (fun h => hstop.elim (fun hsigned => hsigned h.1) h.2) (not_not.mpr rfl)
  · rename_i hgo
    rw [not_or, not_not] at hgo
    exact iff_of_true hgo (Option.some_ne_none _)

theorem reads_link_iff (t : ExtendedTable disk) (hused : t.list.items ≠ []) {active : Bool}
    {startSector sectorCount : UInt32} :
    (disk.set t.list.last (linkRecord (disk.data t.list.last) t.extPart.relativeSector
      active startSector
        sectorCount)).Reads (t.tableWith (numbered 5 t.list.items)) ↔
      ¬HasPartition disk startSector := by
  generalize hbuff : linkRecord (disk.data t.list.last) t.extPart.relativeSector active startSector
    sectorCount = buff
  have hmem := t.list.last_mem
  have hnodup := t.list.nodup
  rw [nodup_middle, nodup_cons, append_nil] at hnodup
  have hlast : (disk.set t.list.last buff).node t.extPart.relativeSector t.list.last =
      some (entry (disk.data t.list.last) 0, some startSector) := by
    rw [node_set_self (t.list.readable_of_mem hmem), ← hbuff]
    exact bootNode_linkRecord hused
  have hpath :
      Path ((disk.set t.list.last buff).node t.extPart.relativeSector) t.extPart.relativeSector
      t.list.items startSector :=
    t.list.path_of_link hused hlast fun r hr => node_set_of_ne (ne_of_mem_of_not_mem hr hnodup.1)
  rw [reads_set_path_iff (ne_zero_of_mem hmem) hpath,
    hasPartition_iff t.extPart.relativeSector, not_not]
  by_cases heq : startSector = t.list.last
  · -- the record is linked to itself
    subst heq
    rw [hlast, node_of_readable (t.list.readable_of_mem hmem),
      bootNode_of_last t.list.signed (mt t.list.items_eq_nil_iff.mpr hused) t.list.unlinked]
    exact iff_of_false (Option.some_ne_none _) (Option.some_ne_none _)
  · rw [node_set_of_ne heq]

section Write

variable {writes : Nat → Bool} {n : UInt8} {active : Bool} {systemId : UInt8}
  {startSector sectorCount : UInt32} {position : Position}

theorem items_of_torn {w : Layout disk} (h : w.WriteTorn writes n systemId startSector)
    (hn : 5 ≤ n.toNat) :
    w.items ≠ [] ∧ 5 + w.items.length ≤ n.toNat ∧ HasPartition disk startSector := by
  obtain ⟨-, ⟨-, hlast, -⟩ | h⟩ := h
  · have : n.toNat ≤ 4 := UInt8.le_iff_toNat_le.mp hlast
    omega
  · exact h

/-- A failed edit of a record has written nothing. -/
theorem editLogical_of_fail
    (h : (disk.editLogical writes position active systemId startSector sectorCount).code ≠
        .SUCCESS) :
    writes 0 = false ∧
      (disk.editLogical writes position active systemId startSector sectorCount).disk = disk := by
  unfold editLogical at h ⊢
  split at h
  · exact absurd rfl h
  · rename_i hwrite
    rw [if_neg hwrite]
    exact ⟨Bool.not_eq_true _ ▸ hwrite, rfl⟩

theorem reads_of_append (t : ExtendedTable disk) (hused : t.list.items ≠ [])
    (hn : 5 + t.list.items.length ≤ n.toNat) (hmbr : position.currentMbr = disk.data t.list.last)
    (hrecord : position.currentLogicalMbr = t.list.last)
    (hfail : (disk.appendLogical writes t.extPart.relativeSector position active systemId
        startSector sectorCount).code ≠ .SUCCESS) :
    (disk.appendLogical writes t.extPart.relativeSector position active systemId startSector
      sectorCount).disk.Reads (t.tableWith (numbered 5 t.list.items)) ↔
      ¬(extended t).WriteTorn writes n systemId startSector := by
  unfold appendLogical at hfail ⊢
  rw [hmbr, hrecord]
  by_cases hwrite : writes 0 = true
  · rw [if_pos hwrite] at hfail ⊢
    split at hfail
    · exact absurd rfl hfail
    · rename_i hsecond
      rw [if_neg hsecond]
      refine (reads_link_iff t hused).trans
        (not_congr ⟨fun h => ⟨hwrite, .inr ⟨hused, hn, h⟩⟩, fun h => ?_⟩)
      exact (items_of_torn h (by omega)).2.2
  · rw [if_neg hwrite]
    exact iff_of_true t.reads fun h => hwrite h.1

variable
  (hfail : (disk.writePartition writes n active systemId startSector sectorCount).code ≠ .SUCCESS)

include hfail

theorem reads_of_write_primary (hfirst : 1 ≤ n) (hlast : n ≤ 4) :
    (disk.writePartition writes n active systemId startSector sectorCount).disk.Reads w.table ↔
      ¬w.WriteTorn writes n systemId startSector := by
  have hle : n.toNat ≤ 4 := UInt8.le_iff_toNat_le.mp hlast
  have htorn : w.WriteTorn writes n systemId startSector ↔
      writes 0 = true ∧ isExtended systemId = true ∧
        (startSector = 0 ∧ w.table ≠ [] ∨ startSector ∈ w.items.map Prod.fst) := by
    unfold WriteTorn
    simp only [hfirst, hlast, true_and,
      show ¬5 + w.items.length ≤ n.toNat by omega, false_and, and_false, or_false]
  rw [htorn]
  rw [writePartition_of_primary w.readable w.signed hfirst hlast] at hfail ⊢
  unfold writePrimary writeMbr at hfail ⊢
  by_cases hid : systemId = 0x05 ∨ systemId = 0x0f
  · rw [if_pos hid] at hfail ⊢
    by_cases hwrite : writes 0 = true
    · rw [if_pos hwrite] at hfail ⊢
      split at hfail
      · exact absurd rfl hfail
      · rename_i hsecond
        rw [if_neg hsecond, and_iff_right hwrite, and_iff_right (isExtended_iff.mpr hid)]
        exact w.reads_empty_iff startSector
    · rw [if_neg hwrite]
      exact iff_of_true w.reads fun h => hwrite h.1
  · rw [if_neg hid] at hfail ⊢
    split at hfail
    · exact absurd rfl hfail
    · rename_i hwrite
      rw [if_neg hwrite]
      exact iff_of_true w.reads fun h => hwrite h.1

theorem reads_of_write_logical (hn : 5 ≤ n.toNat) :
    (disk.writePartition writes n active systemId startSector sectorCount).disk.Reads w.table ↔
      ¬w.WriteTorn writes n systemId startSector := by
  cases w with
  | plain hreadable hsigned honly =>
    rw [writePartition_of_none hreadable hsigned honly hn]
    exact iff_of_true (reads _) fun h => (items_of_torn h hn).1 rfl
  | extended t =>
    have hedit : ∀ {position : Position},
        disk.writePartition writes n active systemId startSector sectorCount =
        disk.editLogical writes position active systemId startSector sectorCount →
        ((disk.writePartition writes n active systemId startSector sectorCount).disk.Reads
          (extended t).table ↔
          ¬(extended t).WriteTorn writes n systemId startSector) := by
      intro position heq
      rw [heq] at hfail ⊢
      obtain ⟨hwrite, hdisk⟩ := editLogical_of_fail hfail
      rw [hdisk]
      exact iff_of_true (reads _) fun h => Bool.false_ne_true (hwrite.symm.trans h.1)
    rcases hrecord : t.list.records[n.toNat - 5]? with _ | r
    · have hlength : t.list.records.length + 5 ≤ n.toNat := by
        have := getElem?_eq_none_iff.mp hrecord
        omega
      by_cases hunused : t.list.items = []
      · exact hedit (t.writePartition_fill hlength hunused)
      · rw [t.writePartition_append hlength hunused] at hfail ⊢
        rw [t.list.length_records] at hlength
        exact reads_of_append t hunused (by omega) rfl rfl hfail
    · exact hedit (t.writePartition_edit hn hrecord)

theorem reads_of_write_failed :
    (disk.writePartition writes n active systemId startSector sectorCount).disk.Reads w.table ↔
      ¬w.WriteTorn writes n systemId startSector := by
  by_cases hfirst : n < 1
  · have hzero : n.toNat < 1 := UInt8.lt_iff_toNat_lt.mp hfirst
    have hnone : disk.writePartition writes n active systemId startSector sectorCount =
        .fail .NON_EXISTENT_PARITION disk := if_pos hfirst
    rw [hnone]
    refine iff_of_true w.reads ?_
    rintro ⟨-, ⟨hle, -⟩ | ⟨-, hle, -⟩⟩
    · exact UInt8.not_lt.mpr hle hfirst
    · omega
  · by_cases hlast : n ≤ 4
    · exact w.reads_of_write_primary hfail (UInt8.not_lt.mp hfirst) hlast
    · have : ¬n.toNat ≤ 4 := fun hle => hlast (UInt8.le_iff_toNat_le.mpr hle)
      exact w.reads_of_write_logical hfail (by omega)

end Write

section Delete

variable {writes : Nat → Bool} {n i : UInt8} {start r : UInt32} {code : ReturnCode} {c : Prop}

theorem seekDeleted_path {before : List (UInt32 × PartitionTableEntry)} {place : Place}
    (hpath : Path (disk.node start) place.currentLogicalMbr before r)
    (hreadable : ∀ p ∈ before.map Prod.fst, disk.readable p = true)
    (hle : i.toNat + before.length ≤ n.toNat) (rounds : Nat) :
    ∃ place', disk.seekDeleted start n (rounds + before.length) i place =
        disk.seekDeleted start n rounds (i + UInt8.ofNat before.length) place' ∧
      place'.currentLogicalMbr = r ∧
        place'.lastLogicalMbr = (before.map Prod.fst).getLastD place.lastLogicalMbr := by
  induction before generalizing i place with
  | nil =>
    obtain rfl : place.currentLogicalMbr = r := hpath
    exact ⟨place, by simp, rfl, rfl⟩
  | cons item before ih =>
    obtain ⟨hplace, next, hnode, hrest⟩ := hpath
    rw [map_cons, forall_mem_cons] at hreadable
    rw [node_of_readable hreadable.1, bootNode_eq_some_iff] at hnode
    obtain ⟨hsigned, hused, -, hlink, rfl⟩ := hnode
    obtain ⟨hne, hle', hnumber⟩ := number_step hle
    obtain ⟨place', hseek, hfound⟩ :=
      @ih (i + 1) ⟨item.1, start + (entry (disk.data item.1) 1).relativeSector,
      disk.data item.1, entry (disk.data item.1) 1⟩ hrest hreadable.2 hle'
    rw [map_cons, getLastD_cons]
    refine ⟨place', ?_, hfound⟩
    rw [length_cons, ← Nat.add_assoc, seekDeleted, hplace, read_of_readable hreadable.1]
    simp only [Bool.true_eq_false, if_false, hsigned, ne_eq, not_true_eq_false, hused, hne,
      or_self, hlink]
    rw [hseek, hnumber]

variable (t : ExtendedTable disk)

theorem seekDeleted_record (hn : 6 ≤ n.toNat) (h : t.list.records[n.toNat - 5]? = some r)
    (buff : Sector) (e : PartitionTableEntry) :
    ∃ lastLogicalMbr, t.list.records[n.toNat - 6]? = some lastLogicalMbr ∧
      disk.seekDeleted t.extPart.relativeSector n (n.toNat - 4) 5
        ⟨0, t.extPart.relativeSector, buff, e⟩ =
        .ok ⟨lastLogicalMbr, r, disk.data r, entry (disk.data r) 1⟩ := by
  have hmem := mem_of_getElem? h
  have hlength := t.list.length_take h
  have hused := t.list.used_of_pos h (by omega)
  obtain ⟨place, hseek, hplace, hlast⟩ := @seekDeleted_path disk n 5 t.extPart.relativeSector _ _
    ⟨0, t.extPart.relativeSector, buff, e⟩ (t.list.path_take h).1 (fun _ => t.list.readable_of_take)
    (show 5 + _ ≤ n.toNat by omega) 1
  have hlt := (List.getElem?_eq_some_iff.mp h).1
  refine ⟨place.lastLogicalMbr, ?_, ?_⟩
  · have hlength := t.list.length_records
    rw [map_take, t.list.map_items (ne_nil_of_length_pos (by omega)), getLastD_eq_getLast?,
      getLast?_take, if_neg (by omega), show n.toNat - 5 - 1 = n.toNat - 6 by omega] at hlast
    rw [hlast, getElem?_eq_getElem (show n.toNat - 6 < t.list.records.length by omega)]
    rfl
  rw [hlength, five_add_ofNat (by omega), show 1 + (n.toNat - 5) = n.toNat - 4 by omega] at hseek
  rw [hseek, seekDeleted, hplace, read_of_readable (t.list.readable_of_mem hmem)]
  simp only [Bool.true_eq_false, if_false, t.list.signed_of_mem hmem, ne_eq, not_true_eq_false,
    hused, or_true, if_true, UInt8.lt_irrefl]

theorem seekDeleted_behind (h : t.list.records.length + 5 ≤ n.toNat) (buff : Sector)
    (e : PartitionTableEntry) :
    ∃ code, disk.seekDeleted t.extPart.relativeSector n (n.toNat - 4) 5
      ⟨0, t.extPart.relativeSector, buff, e⟩ =
      .error code := by
  have hlength : t.list.records.length = t.list.linked.length + 1 := by simp [LogicalList.records]
  obtain ⟨place, hseek, hplace, -⟩ := @seekDeleted_path disk n 5 t.extPart.relativeSector _ _
    ⟨0, t.extPart.relativeSector, buff, e⟩ t.list.path (fun _ hp =>
      t.list.readable_of_mem (mem_append_left _ hp))
    (show 5 + t.list.linked.length ≤ n.toNat by omega) (n.toNat - 5 - t.list.linked.length + 1)
  have hnumber : 5 + UInt8.ofNat t.list.linked.length = UInt8.ofNat (5 + t.list.linked.length) := by
    rw [UInt8.ofNat_add]
    rfl
  have hlt : UInt8.ofNat (5 + t.list.linked.length) < n := ofNat_lt_of_lt (by omega)
  rw [hnumber, show n.toNat - 5 - t.list.linked.length + 1 + t.list.linked.length =
    n.toNat - 4 by omega] at hseek
  rw [hseek, seekDeleted, hplace, read_of_readable (t.list.readable_of_mem t.list.last_mem)]
  simp only [Bool.true_eq_false, if_false, t.list.signed, ne_eq, not_true_eq_false, t.list.unlinked,
    true_or, if_true, hlt]
  split
  · exact ⟨_, rfl⟩
  · exact ⟨_, rfl⟩

/-- A failure leaves the disk as it is. -/
def Spares (disk : Disk) (outcome : Outcome Removal) : Prop :=
  outcome.code ≠ .SUCCESS → outcome.disk = disk

theorem spares_fail : Spares disk (.fail code disk) := fun _ => rfl

theorem Spares.ite [Decidable c] {yes no : Outcome Removal} (hyes : Spares disk yes)
    (hno : Spares disk no) :
    Spares disk (if c then yes else no) := by
  split
  · exact hyes
  · exact hno

theorem spares_write [Decidable c] {disk' : Disk} {device : Option Removal} :
    Spares disk (if c then ⟨.SUCCESS, disk', device⟩ else .fail code disk) :=
  Spares.ite (fun h => absurd rfl h) spares_fail

theorem spares_deleteFirstLogical : Spares disk (disk.deleteFirstLogical writes start) := by
  apply Spares.ite spares_fail
  apply Spares.ite spares_write
  apply Spares.ite spares_fail
  exact spares_write

theorem not_reads_emptied {j : Nat} (h : t.list.records[j]? = some r) (hj : 0 < j) :
    ¬(disk.set r (setEntry (setEntry (disk.data r) 0 unusedEntry) 1 unusedEntry)).Reads
      (t.tableWith (numbered 5 t.list.items)) := by
  have hempty : (entry (setEntry (setEntry (disk.data r) 0 unusedEntry) 1 unusedEntry) 0).systemId =
      EMPTY := by
    rfl
  have hread := t.reads_set (ne_zero_of_mem (mem_of_getElem? h)) (t.list.ends_set_empty h hempty)
  have hlt := (List.getElem?_eq_some_iff.mp h).1
  rw [t.list.length_records] at hlt
  rw [hread.iff, ExtendedTable.tableWith_inj, numbered_take, eq_comm, take_eq_self_iff,
    length_numbered]
  omega

theorem reads_of_deleteLogical (hn : 6 ≤ n.toNat)
    (hfail : (disk.deleteLogical writes n t.extPart.relativeSector).code ≠ .SUCCESS) :
    (disk.deleteLogical writes n t.extPart.relativeSector).disk.Reads (extended t).table ↔
      ¬(extended t).DeleteTorn writes n := by
  rcases hrecord : t.list.records[n.toNat - 5]? with _ | r
  · have hlength := getElem?_eq_none_iff.mp hrecord
    obtain ⟨code, hseek⟩ :=
      seekDeleted_behind (n := n) t (by omega) (disk.stack t.extPart.relativeSector) unusedEntry
    have hdisk : disk.deleteLogical writes n t.extPart.relativeSector = .fail code disk := by
      unfold deleteLogical
      rw [hseek]
    rw [hdisk]
    refine iff_of_true (reads _) fun h => ?_
    have hlt : n.toNat < 5 + t.list.items.length := h.2.2
    rw [t.list.length_records] at hlength
    omega
  · obtain ⟨last, hlast, hseek⟩ :=
      seekDeleted_record t hn hrecord (disk.stack t.extPart.relativeSector) unusedEntry
    unfold deleteLogical at hfail ⊢
    rw [hseek] at hfail ⊢
    dsimp only at hfail ⊢
    rw [read_of_readable (t.list.readable_of_mem (mem_of_getElem? hlast))] at hfail ⊢
    rw [if_neg Bool.false_ne_true.symm] at hfail
    by_cases hwrite : writes 0 = true
    · rw [if_pos hwrite] at hfail ⊢
      split at hfail
      · exact absurd rfl hfail
      · rename_i hsecond
        rw [if_neg hsecond]
        refine iff_of_false (not_reads_emptied t hrecord (by omega)) (not_not.mpr ⟨hwrite, hn, ?_⟩)
        have hlt := (List.getElem?_eq_some_iff.mp hrecord).1
        rw [t.list.length_records] at hlt
        change n.toNat < 5 + t.list.items.length
        omega
    · rw [if_neg hwrite]
      exact iff_of_true (reads _) fun h => hwrite h.1

theorem deletePartition_of_logical (hreadable : disk.readable 0 = true) (hn : 5 ≤ n.toNat) :
    disk.deletePartition writes n = match findExtended (disk.data 0) with
      | none => .fail .EXTENDED_PARTITION_NOT_FOUND disk
      | some extPart =>
          if n = 5 then disk.deleteFirstLogical writes extPart.relativeSector
          else disk.deleteLogical writes n extPart.relativeSector := by
  obtain ⟨hfirst, hprimary⟩ := not_primary_of_le hn
  unfold deletePartition
  rw [if_neg hfirst, read_of_readable hreadable]
  exact (if_neg Bool.false_ne_true.symm).trans (if_neg hprimary)

theorem spares_deletePartition (hreadable : disk.readable 0 = true) (hn : ¬5 ≤ n.toNat) :
    Spares disk (disk.deletePartition writes n) := by
  have hprimary : n ≤ 4 := UInt8.le_iff_toNat_le.mpr (show n.toNat ≤ 4 by omega)
  unfold deletePartition
  rw [read_of_readable hreadable]
  simp only [Bool.true_eq_false, if_false, hprimary, if_true]
  exact Spares.ite spares_fail spares_write

theorem reads_of_delete_failed (hfail : (disk.deletePartition writes n).code ≠ .SUCCESS) :
    (disk.deletePartition writes n).disk.Reads w.table ↔ ¬w.DeleteTorn writes n := by
  by_cases hn : 5 ≤ n.toNat
  · rw [deletePartition_of_logical w.readable hn] at hfail ⊢
    cases w with
    | plain hreadable hsigned honly =>
      rw [findExtended_eq_none honly]
      refine iff_of_true (reads _) fun h => ?_
      have hlt : n.toNat < 5 + 0 := h.2.2
      omega
    | extended t =>
      rw [t.one.findExtended_eq] at hfail ⊢
      dsimp only at hfail ⊢
      split at hfail
      · rename_i hfive
        rw [if_pos hfive, spares_deleteFirstLogical hfail]
        exact iff_of_true t.reads fun h => absurd h.2.1 (by rw [hfive]; decide)
      · rename_i hfive
        rw [if_neg hfive]
        have hne : n.toNat ≠ 5 := fun heq => hfive (UInt8.toNat_inj.mp heq)
        exact reads_of_deleteLogical t (by omega) hfail
  · rw [spares_deletePartition w.readable hn hfail]
    exact iff_of_true w.reads fun h => hn ((Nat.le_succ 5).trans h.2.1)

end Delete

/-- Calls that fail leave the table as it was, except for the torn ones, and those
never do. -/
theorem failed_edit_iff :
    disk.Reads w.table ∧
    (∀ writes n active systemId startSector sectorCount,
      (disk.writePartition writes n active systemId startSector sectorCount).code ≠ .SUCCESS →
      ((disk.writePartition writes n active systemId startSector sectorCount).disk.Reads w.table ↔
        ¬w.WriteTorn writes n systemId startSector)) ∧
    ∀ writes n, (disk.deletePartition writes n).code ≠ .SUCCESS →
      ((disk.deletePartition writes n).disk.Reads w.table ↔ ¬w.DeleteTorn writes n) :=
  ⟨w.reads, fun _ _ _ _ _ _ hfail => w.reads_of_write_failed hfail,
    fun _ _ hfail => w.reads_of_delete_failed hfail⟩

/-- A new extended partition whose boot record has been written, but which is not in
the table. -/
theorem failed_edit_iff_withLogical :
    let outcome := withLogical.writePartition (fun k => k == 0) 1 false 0x05 40 8
    outcome.code = .WRITE_SECTOR_FAILED ∧
      outcome.disk.Reads [⟨5, .extended, false, 0x05, 10, 20⟩,
        ⟨5, .logical, true, 0x83, 11, 5⟩] := by
  refine ⟨by rfl, ((failed_edit_iff (extended ExtendedTable.ofWithLogical)).2.1 (fun k => k == 0) 1
    false 0x05 40 8 (by decide)).mpr ?_⟩
  rintro ⟨-, ⟨-, -, -, ⟨hzero, -⟩ | hmem⟩ | ⟨-, hle, -⟩⟩
  · exact absurd hzero (by decide)
  · exact absurd hmem (by decide)
  · exact absurd hle (by decide)

/-- An extended partition with two logical partitions in it. -/
def withTwoLogical : Disk :=
  ofSectors [(0, bootRecord [unusedEntry, partEntry false 0x05 10 20]),
    (10, bootRecord [partEntry true 0x83 1 5, partEntry false 0x05 10 8]),
      (20, bootRecord [partEntry false 0x07 1 8])]

def ofWithTwoLogical : ExtendedTable withTwoLogical where
  slot := 1
  one := ⟨by rfl, by decide, by decide, by rfl, by decide⟩
  list :=
    { linked := [(10, partEntry true 0x83 1 5)]
      last := 20
      path := ⟨by rfl, 20, by rfl, rfl⟩
      signed := by decide
      unlinked := by rfl
      used := fun h => absurd h (by decide)
      nodup := by decide
      inside := by
        intro r hr
        obtain rfl | rfl : r = 10 ∨ r = 20 := mem_pair.mp hr
        · exact ⟨by decide, by decide⟩
        · exact ⟨by decide, by decide⟩
      readable := fun _ _ => rfl
      pos := by decide }

/-- The second logical partition cannot be deleted, but is lost. -/
theorem deletePartition_torn :
    let outcome := withTwoLogical.deletePartition (fun k => k == 0) 6
    outcome.code = .WRITE_SECTOR_FAILED ∧
      (extended ofWithTwoLogical).table =
        [⟨5, .extended, false, 0x05, 10, 20⟩, ⟨5, .logical, true, 0x83, 11, 5⟩,
        ⟨6, .logical, false, 0x07, 21, 8⟩] ∧
      withTwoLogical.Reads (extended ofWithTwoLogical).table ∧
      outcome.disk.Reads [⟨5, .extended, false, 0x05, 10, 20⟩, ⟨5, .logical, true, 0x83, 11, 5⟩] :=
  ⟨by rfl, by rfl, reads _, 3, by rfl⟩

end Layout

end HuyaOS.Storage
