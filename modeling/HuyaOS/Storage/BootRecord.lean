import HuyaOS.Lib.Bytes

/-!
Boot records: sectors that hold a partition table. The table has four entries of 16
bytes from `PARTITON_TABLE_START` on, and the sector ends with a signature. The
lemmas say what is left of the entries and of the signature when one of them is
written.
-/

namespace HuyaOS.Storage

open Lib Function

/-- The bytes of a sector, which are those at the addresses below 512. -/
abbrev Sector := Mem

@[ext]
structure PartitionTableEntry where
  activeFlag : UInt8
  startHead : UInt8
  startSectorCylinder : UInt16
  systemId : UInt8
  endHead : UInt8
  endSectorCylinder : UInt16
  relativeSector : UInt32
  sectorCount : UInt32
  deriving DecidableEq, Repr

def EMPTY : UInt8 := 0x00
def EXTENDED_PARTITION : UInt8 := 0x05
def EXTENDED_PARTITION_LBA : UInt8 := 0x0f

def isExtended (systemId : UInt8) : Bool :=
  systemId == EXTENDED_PARTITION || systemId == EXTENDED_PARTITION_LBA

theorem isExtended_iff {systemId : UInt8} :
    isExtended systemId = true ↔ systemId = 0x05 ∨ systemId = 0x0f := by
  simp only [isExtended, Bool.or_eq_true, beq_iff_eq]
  rfl

theorem isExtended_EMPTY : isExtended EMPTY = false := rfl

def slots : List Nat := [0, 1, 2, 3]

def PARTITON_TABLE_START : Nat := 0x1be

def entryStart (k : Nat) : Nat := PARTITON_TABLE_START + 0x10 * k

def entry (s : Sector) (k : Nat) : PartitionTableEntry where
  activeFlag := s (entryStart k)
  startHead := s (entryStart k + 1)
  startSectorCylinder := UInt16.ofNat (load16 s (entryStart k + 2))
  systemId := s (entryStart k + 4)
  endHead := s (entryStart k + 5)
  endSectorCylinder := UInt16.ofNat (load16 s (entryStart k + 6))
  relativeSector := UInt32.ofNat (load32 s (entryStart k + 8))
  sectorCount := UInt32.ofNat (load32 s (entryStart k + 12))

def setEntry (s : Sector) (k : Nat) (e : PartitionTableEntry) : Sector :=
  let s := update s (entryStart k) e.activeFlag
  let s := update s (entryStart k + 1) e.startHead
  let s := store16 s (entryStart k + 2) e.startSectorCylinder.toNat
  let s := update s (entryStart k + 4) e.systemId
  let s := update s (entryStart k + 5) e.endHead
  let s := store16 s (entryStart k + 6) e.endSectorCylinder.toNat
  let s := store32 s (entryStart k + 8) e.relativeSector.toNat
  store32 s (entryStart k + 12) e.sectorCount.toNat

def signature (s : Sector) : Nat := load16 s 510

def zeros : Sector := fun _ => 0

def sign (s : Sector) : Sector := store16 s 510 0xaa55

def bootRecord (entries : List PartitionTableEntry) : Sector :=
  sign ((entries.zip slots).foldl (fun s e => setEntry s e.2 e.1) zeros)

section Entries

variable {s s' : Sector} {j k : Nat} {e : PartitionTableEntry}

theorem setEntry_of_outside {x : Nat} (h : x < entryStart k ∨ entryStart k + 16 ≤ x) :
    setEntry s k e x = s x := by
  unfold setEntry
  simp (disch := omega) only [store32_of_outside, store16_of_outside, update_of_ne]

theorem entry_setEntry_self : entry (setEntry s k e) k = e := by
  ext1 <;> dsimp only [entry, setEntry]
  case activeFlag | startHead | systemId | endHead =>
    simp (disch := omega) only [store32_of_outside, store16_of_outside, update_of_ne, update_self]
  case startSectorCylinder | endSectorCylinder =>
    simp (disch := omega) only [load16_store32_of_disjoint, load16_store16_of_disjoint,
      load16_update_of_outside, load16_store16_self, UInt16.ofNat_mod_size, UInt16.ofNat_toNat]
  case relativeSector | sectorCount =>
    simp (disch := omega) only [load32_store32_of_disjoint, load32_store32_self,
      UInt32.ofNat_mod_size, UInt32.ofNat_toNat]

theorem entry_congr (h : ∀ x, entryStart k ≤ x → x < entryStart k + 16 → s' x = s x) :
    entry s' k = entry s k := by
  unfold entry
  rw [h _ (by omega) (by omega), h _ (by omega) (by omega),
    h (entryStart k + 4) (by omega) (by omega),
    h (entryStart k + 5) (by omega) (by omega), load16_congr fun x hlo hhi =>
      h x (by omega) (by omega),
    load16_congr fun x hlo hhi => h x (by omega) (by omega), load32_congr fun x hlo hhi =>
      h x (by omega) (by omega),
    load32_congr fun x hlo hhi => h x (by omega) (by omega)]

theorem entry_setEntry_of_ne (h : j ≠ k) : entry (setEntry s k e) j = entry s j :=
  entry_congr fun x hlo hhi => setEntry_of_outside (by unfold entryStart at *; omega)

theorem signature_setEntry (hk : k < 4) : signature (setEntry s k e) = signature s :=
  load16_congr fun x hlo hhi => setEntry_of_outside
    (by unfold entryStart PARTITON_TABLE_START; omega)

theorem entry_sign (hk : k < 4) : entry (sign s) k = entry s k :=
  entry_congr fun x hlo hhi => store16_of_outside
    (by unfold entryStart PARTITON_TABLE_START at *; omega)

theorem signature_sign : signature (sign s) = 0xaa55 := load16_store16_self s 510 0xaa55

end Entries

end HuyaOS.Storage
