import HuyaOS.Storage.PartitionTable

/-!
`StorageDevice::writePartition` and `StorageDevice::deletePartition`. Some calls
write two sectors; `writes k` says whether the write number `k` of a call succeeds. A
write that fails leaves the sector as it is.
-/

namespace HuyaOS.Storage

open Lib

inductive ReturnCode
  | SUCCESS
  | READ_SECTOR_FAILED
  | WRITE_SECTOR_FAILED
  | INVALID_MBR_SIGNATURE
  | EXTENDED_PARTITION_NOT_FOUND
  | UNUSED_PARTITION
  | NON_EXISTENT_PARITION
  deriving DecidableEq, Repr

/-- What a call returns, the disk after it, and what it tells the storage service. -/
structure Outcome (ε : Type) where
  code : ReturnCode
  disk : Disk
  device : Option ε

def Outcome.fail {ε : Type} (code : ReturnCode) (disk : Disk) : Outcome ε := ⟨code, disk, none⟩

theorem Outcome.write_ne_success {ε : Type} {disk : Disk} :
    (Outcome.fail .WRITE_SECTOR_FAILED disk : Outcome ε).code ≠ .SUCCESS :=
  show ReturnCode.WRITE_SECTOR_FAILED ≠ .SUCCESS by decide

/-- The partition that is registered: the number at the end of its name, and what it
is constructed with. -/
structure Registration where
  number : UInt8
  startSector : UInt32
  sectorCount : UInt32
  systemId : UInt8
  deriving DecidableEq, Repr

/-- The partition whose device is removed, and whether all the logical ones are
removed with it. -/
structure Removal where
  number : UInt8
  extendedPartition : Bool
  deriving DecidableEq, Repr

/-- The entry that `writePartition` is asked for. -/
def partEntry (active : Bool) (systemId : UInt8) (startSector sectorCount : UInt32) :
    PartitionTableEntry :=
  ⟨if active then 0x80 else 0x00, 0, 0, systemId, 0, 0, startSector, sectorCount⟩

/-- The last record of a list with a link to `startSector`. The link counts from the
start of the extended partition. -/
def linkRecord (currentMbr : Sector) (start : UInt32) (active : Bool)
    (startSector sectorCount : UInt32) : Sector :=
  setEntry currentMbr 1 (partEntry active EXTENDED_PARTITION_LBA (startSector - start) sectorCount)

/-- The record of a partition that is appended. It takes the first of the sectors. -/
def newRecord (active : Bool) (systemId : UInt8) (sectorCount : UInt32) : Sector :=
  sign (setEntry zeros 0 (partEntry active systemId 1 (sectorCount - 1)))

def edited (e : PartitionTableEntry) (active : Bool) (systemId : UInt8) (sectorCount : UInt32) :
    PartitionTableEntry :=
  { e with
    relativeSector := if e.relativeSector = 0 then 1 else e.relativeSector
    sectorCount := sectorCount
    systemId := systemId
    activeFlag := if active then 0x80 else 0x00 }

def unusedEntry : PartitionTableEntry := ⟨0, 0, 0, 0, 0, 0, 0, 0⟩

def findExtended (mbr : Sector) : Option PartitionTableEntry :=
  (slots.map (entry mbr)).find? fun e => isExtended e.systemId

/-- Where the search for a logical partition stops. -/
structure Position where
  currentMbr : Sector
  currentLogicalMbr : UInt32
  appendToList : Bool
  i : UInt8

namespace Disk

variable (disk : Disk) (writes : Nat → Bool) {startSector sectorCount : UInt32}
  {position : Position} {active : Bool} {systemId : UInt8}

/-- The loop from `i` to `partNumber` has `rounds` rounds left. -/
def seek (start : UInt32) (partNumber : UInt8) :
    Nat → UInt8 → Sector → UInt32 → Except ReturnCode Position
  | 0, i, currentMbr, currentLogicalMbr => .ok ⟨currentMbr, currentLogicalMbr, false, i⟩
  | rounds + 1, i, _, currentLogicalMbr =>
      let currentMbr := disk.read currentLogicalMbr
      if currentMbr.1 = false then .error .READ_SECTOR_FAILED
      else if signature currentMbr.2 ≠ 0xaa55 then .error .INVALID_MBR_SIGNATURE
      else if (entry currentMbr.2 0).systemId = EMPTY ∨ i = partNumber then
        .ok ⟨currentMbr.2, currentLogicalMbr, false, i⟩
      else if (entry currentMbr.2 1).systemId = EMPTY then
        .ok ⟨currentMbr.2, currentLogicalMbr, true, i⟩
      else seek start partNumber rounds (i + 1) currentMbr.2
        (start + (entry currentMbr.2 1).relativeSector)

def writeMbr (succeeds : Bool) (mbr : Sector) (registered : Registration) : Outcome Registration :=
  if succeeds then ⟨.SUCCESS, disk.set 0 mbr, some registered⟩ else .fail .WRITE_SECTOR_FAILED disk

def writePrimary (mbr : Sector) (partNumber : UInt8) (active : Bool) (systemId : UInt8)
    (startSector sectorCount : UInt32) : Outcome Registration :=
  let newMbr :=
    setEntry mbr (partNumber.toNat - 1) (partEntry active systemId startSector sectorCount)
  let registered : Registration := ⟨partNumber, startSector, sectorCount, systemId⟩
  if systemId = 0x05 ∨ systemId = 0x0f then
    -- the list of the new extended partition begins with a record without partitions
    if writes 0 then (disk.set startSector (sign zeros)).writeMbr (writes 1) newMbr registered
    else .fail .WRITE_SECTOR_FAILED disk
  else disk.writeMbr (writes 0) newMbr registered

def appendLogical (start : UInt32) (position : Position) (active : Bool) (systemId : UInt8)
    (startSector sectorCount : UInt32) : Outcome Registration :=
  let currentMbr := linkRecord position.currentMbr start active startSector sectorCount
  if writes 0 then
    if writes 1 then
      ⟨.SUCCESS,
        (disk.set position.currentLogicalMbr currentMbr).set startSector
          (newRecord active systemId sectorCount),
        some ⟨position.i, startSector, sectorCount, systemId⟩⟩
    else .fail .WRITE_SECTOR_FAILED (disk.set position.currentLogicalMbr currentMbr)
  else .fail .WRITE_SECTOR_FAILED disk

/-- An entry of the list keeps its place: `startSector` is only registered. -/
def editLogical (position : Position) (active : Bool) (systemId : UInt8)
    (startSector sectorCount : UInt32) :
    Outcome Registration :=
  let e := edited (entry position.currentMbr 0) active systemId sectorCount
  if writes 0 then
    ⟨.SUCCESS, disk.set position.currentLogicalMbr (setEntry position.currentMbr 0 e),
      some ⟨position.i, startSector, sectorCount, systemId⟩⟩
  else .fail .WRITE_SECTOR_FAILED disk

variable {disk writes} in
theorem appendLogical_of_success {start : UInt32}
    (h : (disk.appendLogical writes start position active systemId startSector sectorCount).code =
        .SUCCESS) :
    disk.appendLogical writes start position active systemId startSector sectorCount =
      ⟨.SUCCESS, (disk.set position.currentLogicalMbr
        (linkRecord position.currentMbr start active startSector
        sectorCount)).set startSector (newRecord active systemId sectorCount),
        some ⟨position.i, startSector, sectorCount, systemId⟩⟩ := by
  unfold appendLogical at h ⊢
  split at h
  · rename_i hfirst
    rw [if_pos hfirst]
    split at h
    · rename_i hsecond
      rw [if_pos hsecond]
    · exact absurd h Outcome.write_ne_success
  · exact absurd h Outcome.write_ne_success

variable {disk writes} in
theorem editLogical_of_success
    (h : (disk.editLogical writes position active systemId startSector sectorCount).code =
        .SUCCESS) :
    disk.editLogical writes position active systemId startSector sectorCount =
      ⟨.SUCCESS, disk.set position.currentLogicalMbr (setEntry position.currentMbr 0
        (edited (entry position.currentMbr 0) active systemId sectorCount)),
        some ⟨position.i, startSector, sectorCount, systemId⟩⟩ := by
  unfold editLogical at h ⊢
  split at h
  · rename_i hwrite
    rw [if_pos hwrite]
  · exact absurd h Outcome.write_ne_success

def writeLogical (mbr : Sector) (partNumber : UInt8) (active : Bool) (systemId : UInt8)
    (startSector sectorCount : UInt32) : Outcome Registration :=
  match findExtended mbr with
  | none => .fail .EXTENDED_PARTITION_NOT_FOUND disk
  | some extPart =>
      match disk.seek extPart.relativeSector partNumber (partNumber.toNat - 4) 5
        (disk.stack extPart.relativeSector)
          extPart.relativeSector with
      | .error code => .fail code disk
      | .ok position =>
          if position.appendToList then
            disk.appendLogical writes extPart.relativeSector position active systemId
              startSector sectorCount
          else disk.editLogical writes position active systemId startSector sectorCount

def writePartition (partNumber : UInt8) (active : Bool) (systemId : UInt8)
    (startSector sectorCount : UInt32) :
    Outcome Registration :=
  if partNumber < 1 then .fail .NON_EXISTENT_PARITION disk
  else
    let mbr := disk.read 0
    if mbr.1 = false then .fail .READ_SECTOR_FAILED disk
    else if signature mbr.2 ≠ 0xaa55 then .fail .INVALID_MBR_SIGNATURE disk
    else if partNumber ≤ 4 then
      disk.writePrimary writes mbr.2 partNumber active systemId startSector sectorCount
    else disk.writeLogical writes mbr.2 partNumber active systemId startSector sectorCount

/-- The boot record of the partition to be deleted, and the one before it. -/
structure Place where
  lastLogicalMbr : UInt32
  currentLogicalMbr : UInt32
  currentMbr : Sector
  nextLogicalPartition : PartitionTableEntry

def seekDeleted (start : UInt32) (partNumber : UInt8) :
    Nat → UInt8 → Place → Except ReturnCode Place
  | 0, _, place => .ok place
  | rounds + 1, i, place =>
      let currentMbr := disk.read place.currentLogicalMbr
      if currentMbr.1 = false then .error .READ_SECTOR_FAILED
      else if signature currentMbr.2 ≠ 0xaa55 then .error .INVALID_MBR_SIGNATURE
      else
        let nextLogicalPartition := entry currentMbr.2 1
        if (entry currentMbr.2 0).systemId = EMPTY then .error .UNUSED_PARTITION
        else if nextLogicalPartition.systemId = EMPTY ∨ i = partNumber then
          if i < partNumber then .error .NON_EXISTENT_PARITION
          else .ok ⟨place.lastLogicalMbr, place.currentLogicalMbr, currentMbr.2,
            nextLogicalPartition⟩
        else
          seekDeleted start partNumber rounds (i + 1) ⟨place.currentLogicalMbr,
            start + nextLogicalPartition.relativeSector, currentMbr.2, nextLogicalPartition⟩

def deletePrimary (mbr : Sector) (partNumber : UInt8) : Outcome Removal :=
  let extendedPartition := isExtended (entry mbr (partNumber.toNat - 1)).systemId
  if writes 0 then
    ⟨.SUCCESS, disk.set 0 (setEntry mbr (partNumber.toNat - 1) unusedEntry),
      some ⟨partNumber, extendedPartition⟩⟩
  else .fail .WRITE_SECTOR_FAILED disk

/-- The first record of the list stays where it is. It takes over the partition and
the link of the second one. -/
def deleteFirstLogical (start : UInt32) : Outcome Removal :=
  let firstLogicalMbr := disk.read start
  if firstLogicalMbr.1 = false then .fail .READ_SECTOR_FAILED disk
  else
    let first := entry firstLogicalMbr.2 0
    let second := entry firstLogicalMbr.2 1
    if second.systemId = EMPTY then
      if writes 0 then
        ⟨.SUCCESS, disk.set start (setEntry firstLogicalMbr.2 0 unusedEntry), some ⟨5, false⟩⟩
      else .fail .WRITE_SECTOR_FAILED disk
    else
      let secondLogicalMbr := disk.read (start + second.relativeSector)
      if secondLogicalMbr.1 = false then .fail .READ_SECTOR_FAILED disk
      else
        let moved := { first with
          relativeSector := second.relativeSector + (entry secondLogicalMbr.2 0).relativeSector
          sectorCount := (entry secondLogicalMbr.2 0).sectorCount }
        if writes 0 then
          ⟨.SUCCESS, disk.set start (setEntry (setEntry firstLogicalMbr.2 0 moved) 1
            (entry secondLogicalMbr.2 1)), some ⟨5, false⟩⟩
        else .fail .WRITE_SECTOR_FAILED disk

def deleteLogical (partNumber : UInt8) (start : UInt32) : Outcome Removal :=
  match disk.seekDeleted start partNumber (partNumber.toNat - 4) 5
    ⟨0, start, disk.stack start, unusedEntry⟩ with
  | .error code => .fail code disk
  | .ok place =>
      let lastMbr := disk.read place.lastLogicalMbr
      if lastMbr.1 = false then .fail .READ_SECTOR_FAILED disk
      else
        let currentMbr := setEntry (setEntry place.currentMbr 0 unusedEntry) 1 unusedEntry
        if writes 0 then
          let disk := disk.set place.currentLogicalMbr currentMbr
          -- the predecessor points to the successor
          if writes 1 then
            ⟨.SUCCESS, disk.set place.lastLogicalMbr
              (setEntry lastMbr.2 1 place.nextLogicalPartition), some ⟨partNumber, false⟩⟩
          else .fail .WRITE_SECTOR_FAILED disk
        else .fail .WRITE_SECTOR_FAILED disk

/-- The signature of the first boot record is not checked, and its failed read is
reported as a failed write. -/
def deletePartition (partNumber : UInt8) : Outcome Removal :=
  if partNumber < 1 then .fail .NON_EXISTENT_PARITION disk
  else
    let mbr := disk.read 0
    if mbr.1 = false then .fail .WRITE_SECTOR_FAILED disk
    else if partNumber ≤ 4 then disk.deletePrimary writes mbr.2 partNumber
    else
      match findExtended mbr.2 with
      | none => .fail .EXTENDED_PARTITION_NOT_FOUND disk
      | some extPart =>
          if partNumber = 5 then disk.deleteFirstLogical writes extPart.relativeSector
          else disk.deleteLogical writes partNumber extPart.relativeSector

end Disk

end HuyaOS.Storage
