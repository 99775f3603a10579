import HuyaOS.Storage.LogicalPartition
import HuyaOS.Storage.StorageService

/-!
The device that `writePartition` registers, compared with the one that is registered
under the same name when the table is read again, as after a reboot. They are the same
for a primary partition and for a logical partition that is edited without being
moved. In the other cases

* an extended partition is registered with its number, but read with the number 5,
* an unused entry is registered, but not read,
* a logical partition is registered where it was asked for, but read from its place
  in the list,
* a logical partition that is appended is registered with the number of the last one.

Nothing is assumed about the disk. A number may be read twice: the partitions of a
second extended entry have the numbers from 5 on again, and behind 255 comes zero.
-/

namespace HuyaOS.Storage

open Lib Disk StorageService List Option UInt8

variable {disk : Disk} {table : List PartitionInfo} {info : PartitionInfo} {n : UInt8}
  {items passed : List (UInt32 × PartitionTableEntry)} {r start : UInt32} {mbr buff : Sector}
  {extPart : PartitionTableEntry}

theorem mem_numbered {p : UInt8} (h : info ∈ numbered p items) :
    ∃ k item, items[k]? = some item ∧ info = logicalInfo (p + UInt8.ofNat k) item := by
  induction items generalizing p with
  | nil => exact absurd h not_mem_nil
  | cons item items ih =>
    obtain rfl | h := mem_cons.mp h
    · exact ⟨0, item, rfl, by rw [show UInt8.ofNat 0 = 0 from rfl, UInt8.add_zero]⟩
    · obtain ⟨k, item', hk, rfl⟩ := ih h
      refine ⟨k + 1, item', hk, ?_⟩
      rw [UInt8.ofNat_add, UInt8.add_assoc, UInt8.add_comm 1]
      rfl

theorem Disk.Reads.mem_cases (h : disk.Reads table) (hinfo : info ∈ table) :
    (∃ i ∈ slots, (entry (disk.data 0) i).systemId ≠ EMPTY ∧
        isExtended (entry (disk.data 0) i).systemId = false ∧
        info = primaryInfo i (entry (disk.data 0) i)) ∨
      info.systemId ≠ EMPTY ∧ (info.number = 5 ∨ info.type = .logical) := by
  by_cases hsigned : disk.readable 0 = true ∧ signature (disk.data 0) = 0xaa55
  · obtain ⟨added, hadded, rfl⟩ := (reads_iff hsigned.1 hsigned.2).mp h
    obtain ⟨i, hi, hinfo⟩ := mem_flatMap.mp hinfo
    have hslot := hadded i hi
    by_cases hempty : (entry (disk.data 0) i).systemId = EMPTY
    · rw [(slotReads_of_empty hempty).mp hslot] at hinfo
      exact absurd hinfo not_mem_nil
    by_cases hextended : isExtended (entry (disk.data 0) i).systemId = true
    · right
      obtain ⟨items, hitems, hends⟩ := (slotReads_of_extended hextended).mp hslot
      rw [hitems, mem_cons] at hinfo
      obtain rfl | hlogical := hinfo
      · exact ⟨hempty, .inl rfl⟩
      · obtain ⟨k, item, hk, rfl⟩ := mem_numbered hlogical
        obtain ⟨next, hnode⟩ := hends.exists_node item (List.mem_of_getElem? hk)
        exact ⟨(fst_of_bootNode hnode).2, .inr rfl⟩
    · left
      rw [Bool.not_eq_true] at hextended
      rw [(slotReads_of_primary hempty hextended).mp hslot, mem_singleton] at hinfo
      exact ⟨i, hi, hempty, hextended, hinfo⟩
  · rw [h.eq_nil hsigned] at hinfo
    exact absurd hinfo not_mem_nil

theorem systemId_ne_of_mem (h : disk.Reads table) (hinfo : info ∈ table) :
    info.systemId ≠ EMPTY := by
  obtain ⟨i, -, hused, -, rfl⟩ | ⟨hused, -⟩ := h.mem_cases hinfo
  · exact hused
  · exact hused

/-- What the number `n` stands for is not replaced: a number up to 4 is none of a logical
partition, and another one is given to one partition beside the extended one before it. -/
def Unambiguous (table : List PartitionInfo) (n : UInt8) : Prop :=
  (n.toNat ≤ 4 → ∀ info ∈ table, info.number = n → info.type ≠ .logical) ∧
    (5 ≤ n.toNat →
      table.Pairwise fun a b => a.number = n → b.number = n → a.type = .extended)

theorem reported_of_unambiguous (h : Unambiguous table n) (hn : 5 ≤ n.toNat) (hinfo : info ∈ table)
    (hnumber : info.number = n) (htype : info.type ≠ .extended) :
    reported table n = some info := by
  obtain ⟨before, after, rfl⟩ := append_of_mem hinfo
  have hafter := (pairwise_cons.mp (pairwise_append.mp (h.2 hn)).2.1).1
  exact reported_append hnumber fun other hother heq => htype (hafter other hother hnumber heq)

theorem reported_primary (h : disk.Reads table) (hunambiguous : Unambiguous table n)
    (hreadable : disk.readable 0 = true) (hsigned : signature (disk.data 0) = 0xaa55)
    (hfirst : 1 ≤ n.toNat) (hlast : n.toNat ≤ 4) :
    reported table n =
      if (entry (disk.data 0) (n.toNat - 1)).systemId ≠ EMPTY ∧
          isExtended (entry (disk.data 0) (n.toNat - 1)).systemId = false then
        some (primaryInfo (n.toNat - 1) (entry (disk.data 0) (n.toNat - 1)))
      else none := by
  have hsome : ∀ {info}, reported table n = some info →
      info = primaryInfo (n.toNat - 1) (entry (disk.data 0) (n.toNat - 1)) ∧
        (entry (disk.data 0) (n.toNat - 1)).systemId ≠ EMPTY ∧
        isExtended (entry (disk.data 0) (n.toNat - 1)).systemId = false := by
    intro info hinfo
    obtain ⟨hmem, rfl⟩ := reported_eq_some hinfo
    obtain ⟨i, hi, hused, hextended, hprimary⟩ | ⟨-, hfive | hlogical⟩ := h.mem_cases hmem
    · have hnumber : info.number.toNat = i + 1 := by
        have := mem_slots_iff.mp hi
        rw [hprimary]
        change (UInt8.ofNat (i + 1)).toNat = i + 1
        rw [toNat_ofNat', Nat.mod_eq_of_lt (by omega)]
      rw [hnumber]
      exact ⟨hprimary, hused, hextended⟩
    · rw [hfive] at hlast
      exact absurd hlast (by decide)
    · exact absurd hlogical (hunambiguous.1 hlast info hmem rfl)
  split
  · rename_i hlisted
    obtain ⟨added, hadded, rfl⟩ := (reads_iff hreadable hsigned).mp h
    have hk : n.toNat - 1 ∈ slots := mem_slots_iff.mpr (by omega)
    have hslot := (slotReads_of_primary hlisted.1 hlisted.2).mp (hadded _ hk)
    have hmem : primaryInfo (n.toNat - 1) (entry (disk.data 0) (n.toNat - 1)) ∈
        slots.flatMap added := mem_flatMap.mpr ⟨_, hk, hslot ▸ mem_singleton_self _⟩
    have hnumber : (primaryInfo (n.toNat - 1) (entry (disk.data 0) (n.toNat - 1))).number = n := by
      change UInt8.ofNat (n.toNat - 1 + 1) = n
      rw [Nat.sub_add_cancel hfirst, UInt8.ofNat_toNat]
    obtain ⟨info, hinfo⟩ := exists_reported hmem
    rw [hnumber] at hinfo
    rw [hinfo, (hsome hinfo).1]
  · rename_i hnot
    rcases hreported : reported table n with _ | info
    · rfl
    · exact absurd (hsome hreported).2 hnot

def Registration.device (name : String) (r : Registration) : StorageDevice :=
  .partition (partitionName name r.number) r.startSector r.sectorCount r.systemId

/-- The call has registered the device that has the number `n` when the table is read
again. -/
def SameDevice (code : String → Nat) (name : String) (n : UInt8) (registered : Option Registration)
    (table : List PartitionInfo) : Prop :=
  ∃ r, registered = some r ∧ r.number = n ∧
    (StorageService.new.registerDevice code (.drive name table)).devices.get code
      (partitionName name n) =
      .ok (r.device name)

theorem sameDevice_iff {code : String → Nat} {name : String} (hname : name.WellFormed)
    {r : Registration} :
    SameDevice code name n (some r) table ↔
      r.number = n ∧ ∃ info, reported table n = some info ∧ info.startSector = r.startSector ∧
        info.sectorCount = r.sectorCount ∧ info.systemId = r.systemId := by
  unfold SameDevice
  simp only [some.injEq, exists_eq_left']
  refine and_congr_right fun hnumber => ?_
  rw [get_partitionName represents_new hname]
  rcases hreported : reported table n with _ | info
  · refine iff_of_false (fun hget => ?_) fun ⟨info, hnone, _⟩ => some_ne_none info hnone.symm
    exact Bool.false_ne_true (congrArg Except.isOk hget)
  · simp only [map_some, some_or, elim_some, Except.ok.injEq, some.injEq, exists_eq_left']
    unfold StorageDevice.ofInfo Registration.device
    rw [StorageDevice.partition.injEq, (reported_eq_some hreported).2, hnumber]
    exact and_iff_right rfl

/-- The list of the first extended entry leads to the sector `r` behind `j` records. -/
def Disk.LeadsTo (disk : Disk) (j : Nat) (r : UInt32) : Prop :=
  ∃ extPart passed, findExtended (disk.data 0) = some extPart ∧ passed.length = j ∧
    Path (disk.node extPart.relativeSector) extPart.relativeSector passed r

theorem Disk.LeadsTo.eq_iff {j : Nat} {r' : UInt32} (h : disk.LeadsTo j r) :
    disk.LeadsTo j r' ↔ r' = r := by
  constructor
  · rintro ⟨extPart', passed', hfind', hlength', hpath'⟩
    obtain ⟨extPart, passed, hfind, hlength, hpath⟩ := h
    obtain rfl := some.inj (hfind.symm.trans hfind')
    obtain ⟨more, hmore, hmoreLength⟩ := hpath.goes_on hpath' (by omega)
    obtain rfl : more = [] := eq_nil_of_length_eq_zero (by omega)
    exact hmore.symm
  · rintro rfl
    exact h

/-- The call writes a partition that is read as it is registered: a primary one, or a
logical one that has a place in the list and stays there. -/
def Disk.Keeps (disk : Disk) (n systemId : UInt8) (startSector : UInt32) : Prop :=
  systemId ≠ EMPTY ∧
    (n.toNat ≤ 4 ∧ isExtended systemId = false ∨
      5 ≤ n.toNat ∧ ∃ r, disk.LeadsTo (n.toNat - 5) r ∧
        startSector = r + if (entry (disk.data r) 0).relativeSector = 0 then 1
          else (entry (disk.data r) 0).relativeSector)

variable {code : String → Nat} {name : String} {writes : Nat → Bool} {active : Bool}
  {systemId : UInt8} {startSector sectorCount : UInt32}

theorem writePartition_of_success
    (h : (disk.writePartition writes n active systemId startSector sectorCount).code = .SUCCESS) :
    1 ≤ n ∧ disk.readable 0 = true ∧ signature (disk.data 0) = 0xaa55 := by
  unfold writePartition at h
  split at h
  · exact absurd h (show ReturnCode.NON_EXISTENT_PARITION ≠ .SUCCESS by decide)
  rename_i hfirst
  by_cases hreadable : disk.readable 0 = true
  · rw [read_of_readable hreadable] at h
    by_cases hsigned : signature (disk.data 0) = 0xaa55
    · exact ⟨UInt8.not_lt.mp hfirst, hreadable, hsigned⟩
    · simp only [Bool.true_eq_false, if_false, ne_eq, hsigned, not_false_eq_true, if_true] at h
      exact absurd h (show ReturnCode.INVALID_MBR_SIGNATURE ≠ .SUCCESS by decide)
  · unfold Disk.read at h
    rw [if_neg hreadable] at h
    exact absurd h (show ReturnCode.READ_SECTOR_FAILED ≠ .SUCCESS by decide)

theorem writePrimary_of_success
    (h : (disk.writePrimary writes mbr n active systemId startSector sectorCount).code = .SUCCESS) :
    ∃ disk', disk'.readable = disk.readable ∧ (isExtended systemId = false → disk' = disk) ∧
      disk.writePrimary writes mbr n active systemId startSector sectorCount =
        ⟨.SUCCESS, disk'.set 0
          (setEntry mbr (n.toNat - 1) (partEntry active systemId startSector sectorCount)),
          some ⟨n, startSector, sectorCount, systemId⟩⟩ := by
  unfold writePrimary writeMbr at h ⊢
  by_cases hid : systemId = 0x05 ∨ systemId = 0x0f
  · rw [if_pos hid] at h ⊢
    refine ⟨disk.set startSector (sign zeros), rfl, fun hextended => ?_, ?_⟩
    · exact absurd ((isExtended_iff.mpr hid).symm.trans hextended) Bool.false_ne_true.symm
    · split at h
      · rename_i hfirst
        rw [if_pos hfirst]
        split at h
        · rename_i hsecond
          rw [if_pos hsecond]
        · exact absurd h Outcome.write_ne_success
      · exact absurd h Outcome.write_ne_success
  · rw [if_neg hid] at h ⊢
    refine ⟨disk, rfl, fun _ => rfl, ?_⟩
    split at h
    · rename_i hwrite
      rw [if_pos hwrite]
    · exact absurd h Outcome.write_ne_success

theorem exists_slot_of_findExtended (h : findExtended mbr = some extPart) :
    ∃ k ∈ slots, entry mbr k = extPart ∧ isExtended extPart.systemId = true := by
  have hextended := find?_some h
  obtain ⟨k, hk, heq⟩ := mem_map.mp (mem_of_find?_eq_some h)
  exact ⟨k, hk, heq, hextended⟩

/-- A record that keeps its link has its place in the list after it has been written. -/
theorem ends_edited (hreadable : disk.readable r = true)
    (hsigned : signature buff = 0xaa55) (hused : (entry buff 0).systemId ≠ EMPTY)
    (hlink : entry buff 1 = entry (disk.data r) 1) (hpath : Path (disk.node start) start passed r)
    (hends : Ends ((disk.set r buff).node start) start items) :
    ∃ before after, before.length = passed.length ∧
      items = before ++ (r, entry buff 0) :: after := by
  have hself : (disk.set r buff).node start r = bootNode start buff := node_set_self hreadable
  have hlinks : ∀ p x next, disk.node start p = some (x, some next) →
      ∃ x', (disk.set r buff).node start p = some (x', some next) := by
    intro p x next hnode
    by_cases hp : p = r
    · subst hp
      rw [node_of_readable hreadable, bootNode_eq_some_iff] at hnode
      obtain ⟨-, -, -, hnext, rfl⟩ := hnode
      rw [← hlink] at hnext ⊢
      exact ⟨entry buff 0, hself.trans (bootNode_of_link hsigned hused hnext)⟩
    · exact ⟨x, (node_set_of_ne hp).trans hnode⟩
  obtain ⟨before, hlength, hbefore⟩ := hpath.relink hlinks
  obtain ⟨rest, rfl, hrest⟩ := hbefore.ends_iff.mp hends
  by_cases hlast : (entry buff 1).systemId = EMPTY
  · rw [ends_of_last (hself.trans (bootNode_of_last hsigned hused hlast))] at hrest
    exact ⟨before, [], hlength, by rw [hrest]⟩
  · obtain ⟨after, rfl, -⟩ :=
      (ends_of_next (hself.trans (bootNode_of_link hsigned hused hlast))).mp hrest
    exact ⟨before, after, hlength, rfl⟩

theorem seek_error {s : UInt32} {rounds : Nat} {i : UInt8}
    {failure : ReturnCode} (h : disk.seek start n rounds i buff s = .error failure) :
    failure ≠ .SUCCESS := by
  induction rounds generalizing i buff s with
  | zero => cases h
  | succ rounds ih =>
    unfold seek at h
    simp only at h
    split at h
    · cases h
      decide
    split at h
    · cases h
      decide
    split at h
    · cases h
    split at h
    · cases h
    · exact ih h

theorem writeLogical_of_success
    (h : (disk.writeLogical writes mbr n active systemId startSector sectorCount).code = .SUCCESS) :
    ∃ extPart position, findExtended mbr = some extPart ∧
      disk.seek extPart.relativeSector n (n.toNat - 4) 5 (disk.stack extPart.relativeSector)
        extPart.relativeSector = .ok position ∧
      (disk.writeLogical writes mbr n active systemId startSector sectorCount).device =
        some ⟨position.i, startSector, sectorCount, systemId⟩ ∧
      (position.appendToList = false →
        (disk.writeLogical writes mbr n active systemId startSector sectorCount).disk =
          disk.set position.currentLogicalMbr (setEntry position.currentMbr 0
            (edited (entry position.currentMbr 0) active systemId sectorCount))) := by
  unfold writeLogical at h ⊢
  rcases hfind : findExtended mbr with _ | extPart
  · rw [hfind] at h
    exact absurd h (show ReturnCode.EXTENDED_PARTITION_NOT_FOUND ≠ .SUCCESS by decide)
  rw [hfind] at h
  rcases hseek : disk.seek extPart.relativeSector n (n.toNat - 4) 5
    (disk.stack extPart.relativeSector) extPart.relativeSector with failure | position
  · simp only [hseek] at h
    exact absurd h (seek_error hseek)
  simp only [hseek] at h
  refine ⟨extPart, position, rfl, hseek, ?_⟩
  simp only [hseek]
  split at h
  · rename_i happend
    rw [if_pos happend, appendLogical_of_success h]
    exact ⟨rfl, fun hedit => absurd (happend.symm.trans hedit) Bool.false_ne_true.symm⟩
  · rename_i hedit
    rw [if_neg hedit, editLogical_of_success h]
    exact ⟨rfl, fun _ => rfl⟩

theorem mem_table_edited {k : Nat} (hmbr : disk.readable 0 = true)
    (hmbrSigned : signature (disk.data 0) = 0xaa55) (hk : k ∈ slots)
    (hentry : entry (disk.data 0) k = extPart) (hextended : isExtended extPart.systemId = true)
    (hzero : r = 0 → k ≠ 0) (hreadable : disk.readable r = true)
    (hsigned : signature buff = 0xaa55) (hused : (entry buff 0).systemId ≠ EMPTY)
    (hlinks : ∀ k, k ≠ 0 → entry buff k = entry (disk.data r) k)
    (hpath : Path (disk.node extPart.relativeSector) extPart.relativeSector passed r)
    (hreads : (disk.set r buff).Reads table) :
    logicalInfo (5 + UInt8.ofNat passed.length) (r, entry buff 0) ∈ table := by
  have hsame : signature ((disk.set r buff).data 0) = 0xaa55 ∧
      entry ((disk.set r buff).data 0) k = extPart := by
    by_cases hr : r = 0
    · subst hr
      rw [data_set_self, hlinks k (hzero rfl)]
      exact ⟨hsigned, hentry⟩
    · rw [data_set_of_ne (Ne.symm hr)]
      exact ⟨hmbrSigned, hentry⟩
  obtain ⟨added, hadded, rfl⟩ := (reads_iff (show (disk.set r buff).readable 0 = true from hmbr)
    hsame.1).mp hreads
  have hslot := hadded k hk
  rw [hsame.2] at hslot
  obtain ⟨items, hitems, hends⟩ := (slotReads_of_extended hextended).mp hslot
  obtain ⟨before, after, hlength, rfl⟩ :=
    ends_edited hreadable hsigned hused (hlinks 1 (by decide)) hpath hends
  refine mem_flatMap.mpr ⟨k, hk, ?_⟩
  rw [hitems, numbered_append, hlength]
  exact mem_cons_of_mem _ (mem_append_right _ mem_cons_self)

section Success

variable (hname : name.WellFormed)
  (hsuccess : (disk.writePartition writes n active systemId startSector sectorCount).code =
      .SUCCESS)
  (hreads : (disk.writePartition writes n active systemId startSector sectorCount).disk.Reads table)
  (hunambiguous : Unambiguous table n)

include hname hsuccess hreads hunambiguous

theorem sameDevice_primary (hlast : n ≤ 4) :
    SameDevice code name n
        (disk.writePartition writes n active systemId startSector sectorCount).device table ↔
      systemId ≠ EMPTY ∧ isExtended systemId = false := by
  obtain ⟨hfirst, hreadable, hsigned⟩ := writePartition_of_success hsuccess
  rw [writePartition_of_primary hreadable hsigned hfirst hlast] at hsuccess hreads ⊢
  obtain ⟨disk', hsame, -, heq⟩ := writePrimary_of_success hsuccess
  rw [heq] at hreads ⊢
  have hone : 1 ≤ n.toNat := le_iff_toNat_le.mp hfirst
  have hfour : n.toNat ≤ 4 := le_iff_toNat_le.mp hlast
  have hreadable' : (disk'.set 0 (setEntry (disk.data 0) (n.toNat - 1)
      (partEntry active systemId startSector sectorCount))).readable 0 = true :=
    (congrFun hsame 0).trans hreadable
  have hreported := reported_primary hreads hunambiguous hreadable'
    (by rw [data_set_self, signature_setEntry (by omega)]; exact hsigned) hone hfour
  rw [data_set_self, entry_setEntry_self] at hreported
  change reported table n = if systemId ≠ EMPTY ∧ isExtended systemId = false then _ else none
    at hreported
  rw [sameDevice_iff hname, hreported]
  by_cases hlisted : systemId ≠ EMPTY ∧ isExtended systemId = false
  · rw [if_pos hlisted]
    exact iff_of_true ⟨rfl, _, rfl, rfl, rfl, rfl⟩ hlisted
  · rw [if_neg hlisted]
    exact iff_of_false (fun ⟨_, info, hnone, _⟩ => some_ne_none info hnone.symm) hlisted

theorem sameDevice_logical (hn : 5 ≤ n.toNat)
    (hmbr : disk.LeadsTo (n.toNat - 5) 0 → isExtended (entry (disk.data 0) 0).systemId = false) :
    SameDevice code name n
        (disk.writePartition writes n active systemId startSector sectorCount).device table ↔
      systemId ≠ EMPTY ∧ ∃ r, disk.LeadsTo (n.toNat - 5) r ∧
        startSector = r + if (entry (disk.data r) 0).relativeSector = 0 then 1
          else (entry (disk.data r) 0).relativeSector := by
  obtain ⟨-, hreadable, hsigned⟩ := writePartition_of_success hsuccess
  rw [writePartition_of_logical hreadable hsigned hn] at hsuccess hreads ⊢
  obtain ⟨extPart, position, hfind, hseek, hdevice, hdisk⟩ := writeLogical_of_success hsuccess
  obtain ⟨hrecord, hdata, hrecordSigned, passed, hpath, hnumber, hcases⟩ :=
    seek_ok hseek hn (show 5 + (n.toNat - 4) = n.toNat + 1 by omega)
  change position.i.toNat = 5 + passed.length at hnumber
  rw [hdevice, sameDevice_iff hname]
  obtain ⟨hi, happend⟩ | ⟨hlt, hstop⟩ := hcases
  · have hlength : passed.length = n.toNat - 5 := by
      rw [hi] at hnumber
      omega
    have hleads : disk.LeadsTo (n.toNat - 5) position.currentLogicalMbr :=
      ⟨extPart, passed, hfind, hlength, hpath⟩
    simp only [hleads.eq_iff, exists_eq_left]
    rw [hdisk happend, hdata] at hreads
    rw [hdata] at hrecordSigned
    generalize position.currentLogicalMbr = r at *
    by_cases hid : systemId = EMPTY
    · refine iff_of_false (fun ⟨_, info, hinfo, _, _, heq⟩ => ?_) fun h => h.1 hid
      exact systemId_ne_of_mem hreads (reported_eq_some hinfo).1 (heq.trans hid)
    obtain ⟨k, hk, hentry, hextended⟩ := exists_slot_of_findExtended hfind
    have hzero : r = 0 → k ≠ 0 := by
      rintro rfl rfl
      rw [hentry, hextended] at hmbr
      exact absurd (hmbr hleads) Bool.false_ne_true.symm
    have hfirst : entry (setEntry (disk.data r) 0
        (edited (entry (disk.data r) 0) active systemId sectorCount)) 0 =
          edited (entry (disk.data r) 0) active systemId sectorCount := entry_setEntry_self
    have hmem := mem_table_edited hreadable hsigned hk hentry hextended hzero hrecord
      ((signature_setEntry (by decide)).trans hrecordSigned) (by rw [hfirst]; exact hid)
      (fun k hk => entry_setEntry_of_ne hk) hpath hreads
    rw [hfirst, hlength, five_add_ofNat hn, ExtendedTable.logicalInfo_edited] at hmem
    rw [reported_of_unambiguous hunambiguous hn hmem rfl
      (show PartitionType.logical ≠ .extended by decide)]
    simp only [hi, true_and, some.injEq, exists_eq_left', and_true, ne_eq, hid, not_false_eq_true]
    exact eq_comm
  · -- the device gets another number, and the list does not go on
    refine iff_of_false (fun h => ?_) ?_
    · have hsame : position.i = n := h.1
      rw [hsame] at hlt
      exact absurd hlt (Nat.lt_irrefl _)
    · rintro ⟨-, r, ⟨extPart', passed', hfind', hlength, hpath'⟩, -⟩
      obtain rfl := some.inj (hfind.symm.trans hfind')
      obtain ⟨more, hmore, hmoreLength⟩ := hpath.goes_on hpath' (by omega)
      cases more with
      | nil =>
        rw [length_nil] at hmoreLength
        omega
      | cons item more =>
        obtain ⟨heq, next, hnode, -⟩ := hmore
        rw [← heq, node_of_readable hrecord, ← hdata, bootNode_eq_some_iff] at hnode
        exact hstop.elim hnode.2.1 hnode.2.2.2.1

end Success

/-- Two extended partitions, each with a logical one. -/
def withTwoExtended : Disk :=
  ofSectors [(0, bootRecord [unusedEntry, partEntry false 0x05 10 20, partEntry false 0x05 40 20]),
    (10, bootRecord [partEntry true 0x83 1 5]), (40, bootRecord [partEntry true 0x83 1 5])]

end HuyaOS.Storage
