import HuyaOS.Lib.Walk
import HuyaOS.Storage.BootRecord

/-!
`StorageDevice::readPartitionTable`. The first sector of a disk describes up to four
partitions. One that is extended holds a linked list of further boot records, each
with a logical partition and a link to the next record.

The loop along the list stops at a record without signature or without partition
and follows whatever links it finds, so it need not end. The functions here look at
a limited number of records; `Reads` says that the table is read completely.
-/

namespace HuyaOS.Storage

open Lib Option

/-- A disk with sectors of 512 bytes. A buffer that could not be read into keeps the
bytes that lay on the stack. -/
structure Disk where
  data : UInt32 → Sector
  readable : UInt32 → Bool
  stack : UInt32 → Sector

/-- A disk that can be read everywhere and holds zeros except in the given sectors. -/
def Disk.ofSectors (sectors : List (UInt32 × Sector)) : Disk where
  data s := (sectors.lookup s).getD zeros
  readable _ := true
  stack _ := zeros

inductive PartitionType
  | primary
  | extended
  | logical
  deriving DecidableEq, Repr

structure PartitionInfo where
  number : UInt8
  type : PartitionType
  active : Bool
  systemId : UInt8
  startSector : UInt32
  sectorCount : UInt32
  deriving DecidableEq, Repr

namespace Disk

/-- `read` of one sector: whether it succeeded, and the buffer afterwards. -/
def read (disk : Disk) (sector : UInt32) : Bool × Sector :=
  if disk.readable sector then (true, disk.data sector) else (false, disk.stack sector)

def set (disk : Disk) (sector : UInt32) (buff : Sector) : Disk :=
  { disk with data := Function.update disk.data sector buff }

/-- The partitions of an extended partition that begins at `start`, from the boot
record `nextLogicalMbr` on. The result of `read` is not checked. -/
def readLogical (disk : Disk) (start : UInt32) : Nat → UInt8 → UInt32 → Option (List PartitionInfo)
  | 0, _, _ => none
  | rounds + 1, partNumber, nextLogicalMbr =>
      let logicalMbr := (disk.read nextLogicalMbr).2
      if signature logicalMbr ≠ 0xaa55 then some []
      else
        let currentLogicalPartition := entry logicalMbr 0
        let nextLogicalPartition := entry logicalMbr 1
        if currentLogicalPartition.systemId = EMPTY then some []
        else
          let currentPart : PartitionInfo :=
            ⟨partNumber, .logical, currentLogicalPartition.activeFlag == 0x80,
              currentLogicalPartition.systemId,
              nextLogicalMbr + currentLogicalPartition.relativeSector,
                currentLogicalPartition.sectorCount⟩
          if nextLogicalPartition.systemId = EMPTY then some [currentPart]
          else
            (readLogical disk start rounds (partNumber + 1)
              (start + nextLogicalPartition.relativeSector)).map
              (currentPart :: ·)

/-- What the entry `i` of the first boot record adds to the partition list. -/
def readSlot (disk : Disk) (rounds : Nat) (i : Nat) (currentPartition : PartitionTableEntry) :
    Option (List PartitionInfo) :=
  if currentPartition.systemId = EMPTY then some []
  else if isExtended currentPartition.systemId then
    let currentPart : PartitionInfo :=
      ⟨5, .extended, currentPartition.activeFlag == 0x80, currentPartition.systemId,
        currentPartition.relativeSector, currentPartition.sectorCount⟩
    (disk.readLogical currentPartition.relativeSector rounds 5 currentPartition.relativeSector).map
      (currentPart :: ·)
  else
    some [⟨UInt8.ofNat (i + 1), .primary, currentPartition.activeFlag == 0x80,
      currentPartition.systemId, currentPartition.relativeSector, currentPartition.sectorCount⟩]

def readPartitionTable (disk : Disk) (rounds : Nat) : Option (List PartitionInfo) :=
  let mbr := disk.read 0
  if mbr.1 = false then some []
  else if signature mbr.2 ≠ 0xaa55 then some []
  else (slots.mapM fun i => disk.readSlot rounds i (entry mbr.2 i)).map List.flatten

def Reads (disk : Disk) (table : List PartitionInfo) : Prop :=
  ∃ rounds, disk.readPartitionTable rounds = some table

/-- The logical partition in a boot record, and the place of the next record. -/
def bootNode (start : UInt32) (logicalMbr : Sector) :
    Option (PartitionTableEntry × Option UInt32) :=
  if signature logicalMbr ≠ 0xaa55 ∨ (entry logicalMbr 0).systemId = EMPTY then none
  else some (entry logicalMbr 0,
    if (entry logicalMbr 1).systemId = EMPTY then none
      else some (start + (entry logicalMbr 1).relativeSector))

def node (disk : Disk) (start sector : UInt32) : Option (PartitionTableEntry × Option UInt32) :=
  bootNode start (disk.read sector).2

section BootNode

variable {start : UInt32} {b : Sector} {e : PartitionTableEntry}

theorem bootNode_of_empty (h : (entry b 0).systemId = EMPTY) : bootNode start b = none :=
  if_pos (.inr h)

theorem bootNode_eq_none_iff :
    bootNode start b = none ↔ signature b ≠ 0xaa55 ∨ (entry b 0).systemId = EMPTY := by
  unfold bootNode
  split
  · rename_i hends
    exact iff_of_true rfl hends
  · rename_i hgoes
    exact iff_of_false (some_ne_none _) hgoes

theorem bootNode_of_last (hsigned : signature b = 0xaa55) (hused : (entry b 0).systemId ≠ EMPTY)
    (hlink : (entry b 1).systemId = EMPTY) : bootNode start b = some (entry b 0, none) := by
  unfold bootNode
  rw [if_neg (not_or.mpr ⟨not_not.mpr hsigned, hused⟩), if_pos hlink]

theorem bootNode_of_link (hsigned : signature b = 0xaa55) (hused : (entry b 0).systemId ≠ EMPTY)
    (hlink : (entry b 1).systemId ≠ EMPTY) :
    bootNode start b = some (entry b 0, some (start + (entry b 1).relativeSector)) := by
  unfold bootNode
  rw [if_neg (not_or.mpr ⟨not_not.mpr hsigned, hused⟩), if_neg hlink]

theorem fst_of_bootNode {next : Option UInt32} (h : bootNode start b = some (e, next)) :
    e = entry b 0 ∧ e.systemId ≠ EMPTY := by
  unfold bootNode at h
  split at h
  · exact absurd h.symm (some_ne_none _)
  · rename_i hgo
    rw [some.injEq, Prod.mk.injEq] at h
    rw [← h.1]
    exact ⟨rfl, fun hempty => hgo (.inr hempty)⟩

theorem bootNode_eq_some_iff {next : UInt32} :
    bootNode start b = some (e, some next) ↔
      signature b = 0xaa55 ∧ (entry b 0).systemId ≠ EMPTY ∧ e = entry b 0 ∧
        (entry b 1).systemId ≠ EMPTY ∧ next = start + (entry b 1).relativeSector := by
  constructor
  · intro h
    by_cases hsigned : signature b = 0xaa55
    · by_cases hused : (entry b 0).systemId = EMPTY
      · rw [bootNode_of_empty hused] at h
        exact absurd h.symm (some_ne_none _)
      by_cases hlink : (entry b 1).systemId = EMPTY
      · rw [bootNode_of_last hsigned hused hlink, some.injEq, Prod.mk.injEq] at h
        exact absurd h.2.symm (some_ne_none _)
      · rw [bootNode_of_link hsigned hused hlink, some.injEq, Prod.mk.injEq, some.injEq] at h
        exact ⟨hsigned, hused, h.1.symm, hlink, h.2.symm⟩
    · rw [show bootNode start b = none from if_pos (.inl hsigned)] at h
      exact absurd h.symm (some_ne_none _)
  · rintro ⟨hsigned, hused, rfl, hlink, rfl⟩
    exact bootNode_of_link hsigned hused hlink

end BootNode

def logicalInfo (partNumber : UInt8) (item : UInt32 × PartitionTableEntry) : PartitionInfo :=
  ⟨partNumber, .logical, item.2.activeFlag == 0x80, item.2.systemId, item.1 + item.2.relativeSector,
    item.2.sectorCount⟩

def numbered : UInt8 → List (UInt32 × PartitionTableEntry) → List PartitionInfo
  | _, [] => []
  | partNumber, item :: items => logicalInfo partNumber item :: numbered (partNumber + 1) items

def extendedInfo (e : PartitionTableEntry) : PartitionInfo :=
  ⟨5, .extended, e.activeFlag == 0x80, e.systemId, e.relativeSector, e.sectorCount⟩

def primaryInfo (i : Nat) (e : PartitionTableEntry) : PartitionInfo :=
  ⟨UInt8.ofNat (i + 1), .primary, e.activeFlag == 0x80, e.systemId, e.relativeSector, e.sectorCount⟩

section Reading

variable {disk : Disk} {start sector : UInt32} {rounds more i : Nat} {e : PartitionTableEntry}
  {table infos : List PartitionInfo} {table' : List PartitionInfo}

/-- The loop is a walk along the boot records that numbers what it finds. -/
theorem readLogical_eq (partNumber : UInt8) :
    disk.readLogical start rounds partNumber sector =
      (walkFrom (disk.node start) rounds sector).map (numbered partNumber) := by
  induction rounds generalizing partNumber sector with
  | zero => rfl
  | succ rounds ih =>
    unfold readLogical walkFrom node bootNode
    by_cases hsignature : signature (disk.read sector).2 ≠ 0xaa55
    · rw [if_pos hsignature, if_pos (.inl hsignature)]
      rfl
    rw [if_neg hsignature]
    by_cases hcurrent : (entry (disk.read sector).2 0).systemId = EMPTY
    · rw [if_pos hcurrent, if_pos (.inr hcurrent)]
      rfl
    rw [if_neg hcurrent, if_neg (not_or.mpr ⟨hsignature, hcurrent⟩)]
    by_cases hnext : (entry (disk.read sector).2 1).systemId = EMPTY
    · rw [if_pos hnext, if_pos hnext]
      rfl
    rw [if_neg hnext, if_neg hnext, ih, map_map]
    rw [map_map]
    rfl

/-- The entry `i` adds `infos` to the partition list. -/
def SlotReads (disk : Disk) (i : Nat) (e : PartitionTableEntry) (infos : List PartitionInfo) :
    Prop :=
  ∃ rounds, disk.readSlot rounds i e = some infos

theorem readSlot_of_empty (h : e.systemId = EMPTY) : disk.readSlot rounds i e = some [] := if_pos h

theorem readSlot_of_primary (hempty : e.systemId ≠ EMPTY)
    (hextended : isExtended e.systemId = false) :
    disk.readSlot rounds i e = some [primaryInfo i e] := by
  unfold readSlot
  rw [if_neg hempty, hextended]
  rfl

theorem ne_EMPTY_of_isExtended {systemId : UInt8} (h : isExtended systemId = true) :
    systemId ≠ EMPTY := by
  rintro rfl
  exact Bool.false_ne_true (isExtended_EMPTY.symm.trans h)

theorem readSlot_of_extended (h : isExtended e.systemId = true) :
    disk.readSlot rounds i e = (walkFrom (disk.node e.relativeSector) rounds e.relativeSector).map
      fun items =>
      extendedInfo e :: numbered 5 items := by
  unfold readSlot
  rw [if_neg (ne_EMPTY_of_isExtended h), if_pos h]
  rw [readLogical_eq, map_map]
  rfl

theorem slotReads_of_empty (h : e.systemId = EMPTY) : disk.SlotReads i e infos ↔ infos = [] := by
  simp only [SlotReads, readSlot_of_empty h, exists_const, some.injEq, eq_comm]

theorem slotReads_of_primary (hempty : e.systemId ≠ EMPTY)
    (hextended : isExtended e.systemId = false) :
    disk.SlotReads i e infos ↔ infos = [primaryInfo i e] := by
  simp only [SlotReads, readSlot_of_primary hempty hextended, exists_const, some.injEq, eq_comm]

theorem slotReads_of_extended (h : isExtended e.systemId = true) :
    disk.SlotReads i e infos ↔ ∃ items, infos = extendedInfo e :: numbered 5 items ∧
      Ends (disk.node e.relativeSector) e.relativeSector items := by
  unfold SlotReads
  simp only [readSlot_of_extended h, map_eq_some_iff]
  constructor
  · rintro ⟨rounds, items, hwalk, rfl⟩
    exact ⟨items, rfl, rounds, hwalk⟩
  · rintro ⟨items, rfl, rounds, hwalk⟩
    exact ⟨rounds, items, hwalk, rfl⟩

theorem readSlot_mono (hle : rounds ≤ more) (h : disk.readSlot rounds i e = some infos) :
    disk.readSlot more i e = some infos := by
  by_cases hextended : isExtended e.systemId = true
  · rw [readSlot_of_extended hextended] at h ⊢
    obtain ⟨items, hwalk, rfl⟩ := map_eq_some_iff.mp h
    rw [walkFrom_mono hle hwalk]
    rfl
  · unfold readSlot at h ⊢
    rw [if_neg hextended] at h ⊢
    exact h

/-- On a disk with a signed first boot record, the table consists of what the four
entries add. -/
theorem reads_iff (hreadable : disk.readable 0 = true)
    (hsigned : signature (disk.data 0) = 0xaa55) :
    disk.Reads table ↔
      ∃ added : Nat → List PartitionInfo,
        (∀ i ∈ slots, disk.SlotReads i (entry (disk.data 0) i) (added i)) ∧
        table = slots.flatMap added := by
  have hslots :=
    exists_mapM_iff (f := fun rounds i => disk.readSlot rounds i (entry (disk.data 0) i))
    readSlot_mono slots
  unfold Reads readPartitionTable read
  simp only [hreadable, if_true, hsigned, Bool.true_eq_false, if_false, ne_eq, not_true_eq_false,
    map_eq_some_iff]
  constructor
  · rintro ⟨rounds, lists, hlists, rfl⟩
    obtain ⟨added, hadded, rfl⟩ := (hslots lists).mp ⟨rounds, hlists⟩
    exact ⟨added, hadded, rfl⟩
  · rintro ⟨added, hadded, rfl⟩
    obtain ⟨rounds, hrounds⟩ := (hslots _).mpr ⟨added, hadded, rfl⟩
    exact ⟨rounds, _, hrounds, rfl⟩

theorem SlotReads.unique {infos' : List PartitionInfo} (h : disk.SlotReads i e infos)
    (h' : disk.SlotReads i e infos') :
    infos = infos' := by
  obtain ⟨r, hr⟩ := h
  obtain ⟨r', hr'⟩ := h'
  have hmax := readSlot_mono (le_max_left r r') hr
  rw [readSlot_mono (le_max_right r r') hr'] at hmax
  exact (some.inj hmax).symm

theorem readPartitionTable_mono (hle : rounds ≤ more)
    (h : disk.readPartitionTable rounds = some table) :
    disk.readPartitionTable more = some table := by
  unfold readPartitionTable at h ⊢
  by_cases hread : (disk.read 0).1 = false
  · rw [if_pos hread] at h ⊢
    exact h
  rw [if_neg hread] at h ⊢
  by_cases hsigned : signature (disk.read 0).2 ≠ 0xaa55
  · rw [if_pos hsigned] at h ⊢
    exact h
  rw [if_neg hsigned] at h ⊢
  obtain ⟨lists, hlists, rfl⟩ := map_eq_some_iff.mp h
  obtain ⟨hsome, rfl⟩ := eq_map_of_mapM hlists
  rw [mapM_eq_pure fun i hi => readSlot_mono hle (hsome i hi)]
  rfl

theorem Reads.unique (h : disk.Reads table) (h' : disk.Reads table') :
    table = table' := by
  obtain ⟨r, hr⟩ := h
  obtain ⟨r', hr'⟩ := h'
  have hmax := readPartitionTable_mono (le_max_left r r') hr
  rw [readPartitionTable_mono (le_max_right r r') hr'] at hmax
  exact (some.inj hmax).symm

theorem Reads.iff (h : disk.Reads table) : disk.Reads table' ↔ table' = table :=
  ⟨fun h' => h'.unique h, fun heq => heq ▸ h⟩

theorem Reads.eq_nil (h : disk.Reads table)
    (hnone : ¬(disk.readable 0 = true ∧ signature (disk.data 0) = 0xaa55)) : table = [] := by
  obtain ⟨rounds, hrounds⟩ := h
  unfold readPartitionTable read at hrounds
  by_cases hreadable : disk.readable 0 = true
  · have hsigned : ¬signature (disk.data 0) = 0xaa55 := fun hsigned => hnone ⟨hreadable, hsigned⟩
    simp only [hreadable, if_true, Bool.true_eq_false, if_false, ne_eq, hsigned, not_false_eq_true,
      some.injEq] at hrounds
    exact hrounds.symm
  · simp only [hreadable, Bool.false_eq_true, if_false, if_true, some.injEq] at hrounds
    exact hrounds.symm

end Reading

section Numbers

variable {p : UInt8} {items rest : List (UInt32 × PartitionTableEntry)} {j : Nat}

@[simp] theorem length_numbered : (numbered p items).length = items.length := by
  induction items generalizing p with
  | nil => rfl
  | cons item items ih => exact congrArg (· + 1) ih

theorem numbered_append :
    numbered p (items ++ rest) = numbered p items ++
      numbered (p + UInt8.ofNat items.length) rest := by
  induction items generalizing p with
  | nil => simp [numbered]
  | cons item items ih =>
    rw [List.cons_append, numbered, ih, numbered, List.length_cons, UInt8.ofNat_add,
      UInt8.add_assoc, UInt8.add_comm 1]
    rfl

theorem numbered_take : numbered p (items.take j) = (numbered p items).take j := by
  induction items generalizing p j with
  | nil => simp [numbered]
  | cons item items ih =>
    cases j with
    | zero => rfl
    | succ j => exact congrArg (logicalInfo p item :: ·) ih

theorem numbered_drop :
    numbered (p + UInt8.ofNat j) (items.drop j) = (numbered p items).drop j := by
  induction items generalizing p j with
  | nil => simp [numbered]
  | cons item items ih =>
    cases j with
    | zero => exact congrArg (numbered · (item :: items)) (UInt8.add_zero p)
    | succ j =>
      rw [UInt8.ofNat_add, UInt8.add_comm (UInt8.ofNat j), ← UInt8.add_assoc]
      exact ih

end Numbers

section Set

variable {disk : Disk} {start sector t : UInt32} {buff : Sector} {i : Nat} {e : PartitionTableEntry}
  {infos : List PartitionInfo}

theorem read_of_readable (h : disk.readable sector = true) :
    disk.read sector = (true, disk.data sector) := if_pos h

theorem node_of_readable (h : disk.readable sector = true) :
    disk.node start sector = bootNode start (disk.data sector) := by
  unfold node
  rw [read_of_readable h]

theorem data_set_self : (disk.set sector buff).data sector = buff := Function.update_self _ _ _

theorem data_set_of_ne (h : t ≠ sector) : (disk.set sector buff).data t = disk.data t :=
  Function.update_of_ne h _ _

theorem node_set_self (h : disk.readable sector = true) :
    (disk.set sector buff).node start sector = bootNode start buff := by
  have hreadable : (disk.set sector buff).readable sector = true := h
  rw [node_of_readable hreadable, data_set_self]

theorem node_set_of_ne (h : t ≠ sector) :
    (disk.set sector buff).node start t = disk.node start t := by
  unfold node read
  rw [data_set_of_ne h]
  rfl

theorem slotReads_set (h : isExtended e.systemId = true →
        ¬Visits (disk.node e.relativeSector) e.relativeSector sector) :
    (disk.set sector buff).SlotReads i e infos ↔ disk.SlotReads i e infos := by
  by_cases hextended : isExtended e.systemId = true
  · have hwalk :
        ∀ rounds, walkFrom ((disk.set sector buff).node e.relativeSector) rounds e.relativeSector =
        walkFrom (disk.node e.relativeSector) rounds e.relativeSector := by
      refine fun rounds => walkFrom_congr fun t ht => node_set_of_ne ?_
      rintro rfl
      exact h hextended ht
    unfold SlotReads
    simp only [readSlot_of_extended hextended, hwalk]
  · unfold SlotReads readSlot
    simp only [hextended, Bool.false_eq_true, if_false]

end Set

end Disk

end HuyaOS.Storage
