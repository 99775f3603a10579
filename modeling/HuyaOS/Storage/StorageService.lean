import HuyaOS.Filesystem.MountPoints
import HuyaOS.Libc.CStrings
import HuyaOS.Storage.PartitionTable

/-!
`StorageService`, which keeps the storage devices under their names. With a drive,
the partitions in its table are registered. Their names are made of the name of the
drive and their number, so partitions with one number have one name, and the last of
them stays.
-/

namespace HuyaOS.Storage

open Lib Filesystem List HuyaOS.String HashMap

def partitionName (name : String) (number : UInt8) : String :=
  (name.plus (.ofChars [112])).plus (.ofChars (Libc.convert number.toNat 10 0))

theorem convert_eq_numeral (number : UInt8) :
    Libc.convert number.toNat 10 0 = (numeral 10 number.toNat).map Libc.hex :=
  Libc.convert_zero (by decide) (lt_trans number.toNat_lt (by decide))

theorem convert_injective {a b : UInt8}
    (h : Libc.convert a.toNat 10 0 = Libc.convert b.toNat 10 0) : a = b := by
  rw [convert_eq_numeral, convert_eq_numeral] at h
  have hvalue := Libc.strtoint_numeral a.toNat
  rw [h, Libc.strtoint_numeral, ← UInt32.toNat_inj, UInt32.toNat_ofNat',
    UInt32.toNat_ofNat'] at hvalue
  have ha := a.toNat_lt
  have hb := b.toNat_lt
  rw [← UInt8.toNat_inj]
  omega

/-- The digits come from `0` on in the table of characters, behind the separator and the
terminating zero. -/
theorem notMem_convert {c : UInt8} (hc : c.toNat < 48) (number : UInt8) :
    c ∉ Libc.convert number.toNat 10 0 := by
  have hdigits : ∀ d : Fin 10, 48 ≤ (Libc.hex d).toNat := by decide
  rw [convert_eq_numeral]
  intro hmem
  obtain ⟨d, hd, rfl⟩ := mem_map.mp hmem
  exact absurd (hdigits ⟨d, lt_of_mem_numeral (by decide) hd⟩) (Nat.not_le.mpr hc)

section Names

variable {name : String} (hname : name.WellFormed)

include hname

theorem wellFormed_partitionName (number : UInt8) : (partitionName name number).WellFormed :=
  (hname.plus (wellFormed_ofChars.mpr (by decide))).plus
    (wellFormed_ofChars.mpr (notMem_convert (by decide) _))

theorem partitionName_beq {a b : UInt8} :
    (partitionName name a == partitionName name b) = true ↔ a = b := by
  rw [wellFormed_beq (wellFormed_partitionName hname a) (wellFormed_partitionName hname b)]
  constructor
  · intro h
    have hchars := congrArg chars h
    exact convert_injective (append_cancel_left hchars)
  · rintro rfl
    rfl

theorem partitionName_ne {number : UInt8} : (partitionName name number == name) = false := by
  rw [Bool.eq_false_iff, ne_eq, wellFormed_beq (wellFormed_partitionName hname number) hname]
  intro h
  have hlength := congrArg (length ∘ chars) h
  simp only [Function.comp_apply, partitionName, chars_plus, chars_ofChars, length_append,
    length_singleton] at hlength
  omega

end Names

/-- The strings that a file can have as its name. -/
def IsFileName (s : String) : Prop := ∃ name : Name, s = .ofChars name.chars

theorem IsFileName.wellFormed {s : String} (h : IsFileName s) : s.WellFormed := by
  obtain ⟨name, rfl⟩ := h
  exact wellFormed_ofChars.mpr name.zero_notMem

theorem IsFileName.partitionName {s : String} (h : IsFileName s) (number : UInt8) :
    IsFileName (partitionName s number) := by
  obtain ⟨name, rfl⟩ := h
  have hp : 112 ∈ name.chars ++ [112] ++ Libc.convert number.toNat 10 0 := by simp
  have hslash : slash ∉ name.chars ++ [112] ++ Libc.convert number.toNat 10 0 := by
    simp only [mem_append, mem_singleton, not_or]
    exact ⟨⟨name.slash_notMem, by decide⟩, notMem_convert (by decide) _⟩
  have hzero : 0 ∉ name.chars ++ [112] ++ Libc.convert number.toNat 10 0 := by
    simp only [mem_append, mem_singleton, not_or]
    exact ⟨⟨name.zero_notMem, by decide⟩, notMem_convert (by decide) _⟩
  refine ⟨⟨_, ne_nil_of_mem hp, hslash, hzero, fun hdot => ?_, fun hdots => ?_⟩, rfl⟩
  · rw [hdot] at hp
    exact absurd hp (by decide)
  · rw [hdots] at hp
    exact absurd hp (by decide)

/-- A drive with the table that is read from it, or a partition of a drive. -/
inductive StorageDevice
  | drive (name : String) (table : List PartitionInfo)
  | partition (name : String) (startSector sectorCount : UInt32) (systemId : UInt8)

namespace StorageDevice

def getName : StorageDevice → String
  | drive name _ => name
  | partition name _ _ _ => name

/-- A partition returns its own list, which is empty. -/
def readPartitionTable : StorageDevice → List PartitionInfo
  | drive _ table => table
  | partition _ _ _ _ => []

def ofInfo (name : String) (info : PartitionInfo) : StorageDevice :=
  partition (partitionName name info.number) info.startSector info.sectorCount info.systemId

end StorageDevice

inductive StorageEvent
  | add (device : StorageDevice)
  | remove (deviceName : String)

/-- The devices, and the events that have been published. -/
structure StorageService where
  devices : HashMap String StorageDevice
  published : List StorageEvent

namespace StorageService

variable (code : String → Nat) {n : UInt8} {table : List PartitionInfo}

def new : StorageService := ⟨HashMap.new String StorageDevice, []⟩

/-- The entry of one device and its event. -/
def enter (service : StorageService) (device : StorageDevice) : StorageService :=
  ⟨service.devices.put code device.getName device, service.published ++ [.add device]⟩

/-- The call registers the partitions by itself. These calls end with their own
entries, for the table of a partition is empty. -/
def registerDevice (service : StorageService) (device : StorageDevice) : StorageService :=
  (device.readPartitionTable.map (StorageDevice.ofInfo device.getName)).foldl (enter code)
    (service.enter code device)

/-- What is done for one of the names. -/
def removeMatching (fresh : UInt8) (name : String) (service : StorageService)
    (currentName : String) :
    Except Cpu.Stop StorageService := do
  if ← currentName.beginsWith name fresh then
    let (_, devices) ← service.devices.remove code currentName
    return ⟨devices, service.published ++ [.remove currentName]⟩
  else return service

def removeDevice (fresh : UInt8) (service : StorageService) (name : String) :
    Except Cpu.Stop StorageService :=
  service.devices.keySet.foldlM (removeMatching code fresh name) service

variable {code} {service : StorageService} {m : String → Option StorageDevice}

theorem represents_new : Represents String.WellFormed code new.devices fun _ => none :=
  represents_ofSize _ _ _ (by decide)

theorem represents_enter (h : Represents String.WellFormed code service.devices m)
    {device : StorageDevice} (hname : device.getName.WellFormed) :
    Represents String.WellFormed code (service.enter code device).devices
      (PartialMap.insert m device.getName device) :=
  h.put (stringTest code) hname device

theorem represents_foldl_enter (h : Represents String.WellFormed code service.devices m)
    {devices : List StorageDevice} (hnames : ∀ d ∈ devices, d.getName.WellFormed) :
    Represents String.WellFormed code (devices.foldl (enter code) service).devices
      (devices.foldl (fun m d => PartialMap.insert m d.getName d) m) := by
  induction devices generalizing service m with
  | nil => exact h
  | cons d devices ih =>
    rw [forall_mem_cons] at hnames
    exact ih (represents_enter h hnames.1) hnames.2

/-- The entry of the table that a number stands for after all have been registered. -/
def reported (table : List PartitionInfo) (n : UInt8) : Option PartitionInfo :=
  table.reverse.find? fun info => n == info.number

variable {info : PartitionInfo}

theorem reported_append {before after : List PartitionInfo} (hinfo : info.number = n)
    (hafter : ∀ other ∈ after, other.number ≠ n) :
    reported (before ++ info :: after) n = some info := by
  have hnone : after.reverse.find? (fun info => n == info.number) = none := by
    rw [find?_eq_none]
    intro other hother
    rw [beq_iff_eq]
    exact fun heq => hafter other (mem_reverse.mp hother) heq.symm
  unfold reported
  rw [reverse_append, reverse_cons, find?_append, find?_append, hnone, find?_singleton, hinfo,
    beq_self_eq_true]
  rfl

theorem reported_eq_some (h : reported table n = some info) :
    info ∈ table ∧ info.number = n := by
  have hnumber := find?_some h
  exact ⟨mem_reverse.mp (mem_of_find?_eq_some h), (beq_iff_eq.mp hnumber).symm⟩

theorem exists_reported (h : info ∈ table) :
    ∃ info', reported table info.number = some info' := by
  have hsome : (reported table info.number).isSome = true :=
    find?_isSome.mpr ⟨info, mem_reverse.mpr h, beq_self_eq_true _⟩
  exact Option.isSome_iff_exists.mp hsome

/-- The partition with a number is the last one in the table with this number. -/
theorem get_partitionName (h : Represents String.WellFormed code service.devices m) {name : String}
    (hname : name.WellFormed) (table : List PartitionInfo) (n : UInt8) :
    (service.registerDevice code (.drive name table)).devices.get code (partitionName name n) =
      (((reported table n).map (StorageDevice.ofInfo name)).or (m (partitionName name n))).elim
        (.error (.throwException .KEY_NOT_FOUND)) .ok := by
  have hnames : ∀ d ∈ table.map (StorageDevice.ofInfo name), d.getName.WellFormed := by
    intro d hd
    obtain ⟨info, -, rfl⟩ := mem_map.mp hd
    exact wellFormed_partitionName hname info.number
  have hdrive : Represents WellFormed code (service.enter code (.drive name table)).devices
      (PartialMap.insert m name (.drive name table)) := represents_enter h hname
  have hrepresents := represents_foldl_enter hdrive hnames
  have hfind :
      ((table.map (StorageDevice.ofInfo name)).reverse.find? fun d =>
        partitionName name n == d.getName) =
      (reported table n).map (StorageDevice.ofInfo name) := by
    rw [← map_reverse, find?_map]
    congr 2
    funext info
    rw [Bool.eq_iff_iff]
    exact (partitionName_beq hname).trans beq_iff_eq.symm
  refine (hrepresents.get (wellFormed_partitionName hname n)).trans ?_
  rw [PartialMap.foldl_insert_apply]
  congr 2
  exact if_neg (Bool.eq_false_iff.mp (partitionName_ne hname))

end StorageService

end HuyaOS.Storage
