import HuyaOS.Lib.Traversal

/-!
The enumeration of the PCI functions. `Pci::scan` goes over the devices of a bus and the
functions of a device, and scans the bus behind a PCI-to-PCI bridge before it adds the
bridge.
-/

namespace HuyaOS.Pci

open Lib List Nat

variable {machine : List (Address × Header)}

/-- What the data port returns for an address in the address port. -/
abbrev ConfigSpace := UInt32 → UInt32

/-- The number of a function, as the loops over devices and functions have it. -/
@[ext]
structure Address where
  bus : UInt8
  device : Fin 32
  function : Fin 8
  deriving DecidableEq

def prepareRegister (a : Address) (offset : UInt8) : UInt32 :=
  (a.bus.toUInt32 <<< 16) ||| (UInt32.ofNat a.device <<< 11) ||| (UInt32.ofNat a.function <<< 8) |||
    (offset &&& 0xFC).toUInt32 ||| 0x80000000

section Registers

variable (config : ConfigSpace) (a : Address)

def readDoubleWord (offset : UInt8) : UInt32 := config (prepareRegister a offset)

def readWord (offset : UInt8) : UInt16 :=
  ((readDoubleWord config a offset >>> ((offset &&& 0x02).toUInt32 * 8)) &&& 0xFFFF).toUInt16

def readByte (offset : UInt8) : UInt8 :=
  ((readDoubleWord config a offset >>> ((offset &&& 0x03).toUInt32 * 8)) &&& 0xFF).toUInt8

def getVendorId : UInt16 := readWord config a 0x00
def getDeviceId : UInt16 := readWord config a 0x02
def getRevision : UInt8 := readByte config a 0x08
def getProgrammingInterface : UInt8 := readByte config a 0x09
def getSubclassId : UInt8 := readByte config a 0x0A
def getClassId : UInt8 := readByte config a 0x0B
def getHeaderType : UInt8 := readByte config a 0x0E
def getSecondaryBus : UInt8 := readByte config a 0x19
def getSubsysVendorId : UInt16 := readWord config a 0x2C
def getSubsysId : UInt16 := readWord config a 0x2D
def getCapabilityPointer : UInt8 := readByte config a 0x34
def getInterruptLine : UInt8 := readByte config a 0x3C

end Registers

def multifunctionBit : UInt8 := 0x80
def invalidVendor : UInt16 := 0xFFFF
def classBridgeDevice : UInt8 := 0x06
def subclassPciToPci : UInt8 := 0x04

structure Device where
  address : Address
  vendorId : UInt16
  deviceId : UInt16
  revision : UInt8
  pi : UInt8
  baseClass : UInt8
  subClass : UInt8
  ssid : UInt8
  ssvid : UInt8
  cap : UInt8
  intr : UInt8
  deriving DecidableEq

/-- The subsystem numbers lose their upper bytes. -/
def readDevice (config : ConfigSpace) (a : Address) : Device where
  address := a
  vendorId := getVendorId config a
  deviceId := getDeviceId config a
  revision := getRevision config a
  ssid := (getSubsysId config a).toUInt8
  ssvid := (getSubsysVendorId config a).toUInt8
  pi := getProgrammingInterface config a
  baseClass := getClassId config a
  subClass := getSubclassId config a
  cap := getCapabilityPointer config a
  intr := getInterruptLine config a

section Scan

variable (config : ConfigSpace)

def isBridge (a : Address) : Bool :=
  getClassId config a = classBridgeDevice ∧ getSubclassId config a = subclassPciToPci

/-- `visit` scans the bus behind a bridge. -/
def checkFunction (visit : UInt8 → List Device → Option (List Device)) (devices : List Device)
    (a : Address) :
    Option (List Device) := do
  let devices ← if isBridge config a then visit (getSecondaryBus config a) devices else some devices
  return devices ++ [readDevice config a]

def checkDevice (visit : UInt8 → List Device → Option (List Device)) (bus : UInt8)
    (devices : List Device) (device : Fin 32) : Option (List Device) :=
  if getVendorId config ⟨bus, device, 0⟩ = invalidVendor then some devices
  else do
    let devices ← checkFunction config visit devices ⟨bus, device, 0⟩
    if getHeaderType config ⟨bus, device, 0⟩ &&& multifunctionBit ≠ 0 then
      (List.finRange 8).tail.foldlM (fun devices function =>
        if getVendorId config ⟨bus, device, function⟩ ≠ invalidVendor then
          checkFunction config visit devices ⟨bus, device, function⟩
        else some devices) devices
    else some devices

/-- `none` when bridges lead deeper than `depth`. -/
def scanBus : Nat → UInt8 → List Device → Option (List Device)
  | 0, _, _ => none
  | depth + 1, bus, devices =>
      (List.finRange 32).foldlM (checkDevice config (scanBus depth) bus) devices

/-- The loop over the functions of a host controller with several of them. It ends at
the first one that is there. -/
def scanHosts (depth : Nat) : List (Fin 8) → List Device → Option (List Device)
  | [], devices => some devices
  | function :: functions, devices =>
      if getVendorId config ⟨0, 0, function⟩ ≠ invalidVendor then some devices
      else do
        let devices ← scanBus config depth (UInt8.ofNat function) devices
        scanHosts depth functions devices

def scan (depth : Nat) : Option (List Device) :=
  if getHeaderType config ⟨0, 0, 0⟩ &&& multifunctionBit = 0 then scanBus config depth 0 []
  else scanHosts config depth (List.finRange 8) []

end Scan

section Buses

variable (config : ConfigSpace)

def isPresent (a : Address) : Bool := getVendorId config a ≠ invalidVendor

def Leads (bus bus' : UInt8) : Prop :=
  ∃ a : Address, a.bus = bus ∧ isPresent config a = true ∧ isBridge config a = true ∧
    getSecondaryBus config a = bus'

def Reachable (bus : UInt8) : Prop := Relation.ReflTransGen (Leads config) 0 bus

def Attached (a : Address) : Prop := isPresent config a = true ∧ Reachable config a.bus

/-- No bridge leads back to bus 0, and no two lead to the same bus. -/
structure BridgeTree : Prop where
  root_free : ∀ a, Attached config a → isBridge config a = true → getSecondaryBus config a ≠ 0
  unique : ∀ a a', Attached config a → Attached config a' → isBridge config a = true →
    isBridge config a' = true →
    getSecondaryBus config a = getSecondaryBus config a' → a = a'

/-- The function is there, and so is the mark that makes the scan look for it. -/
def isAnnounced (a : Address) : Bool :=
  isPresent config a ∧ (a.function ≠ 0 → isPresent config { a with function := 0 } ∧
    getHeaderType config { a with function := 0 } &&& multifunctionBit ≠ 0)

def announcedBy (bus : UInt8) (device : Fin 32) : List Address :=
  ((List.finRange 8).map (⟨bus, device, ·⟩)).filter (isAnnounced config)

theorem isAnnounced_zero (bus : UInt8) (device : Fin 32) :
    isAnnounced config ⟨bus, device, 0⟩ = isPresent config ⟨bus, device, 0⟩ := by
  simp [isAnnounced]

variable {bus : UInt8} {device : Fin 32} {a : Address}

theorem isAnnounced_of_ne {function : Fin 8} (h : function ≠ 0) :
    isAnnounced config ⟨bus, device, function⟩ = (isPresent config ⟨bus, device, function⟩ &&
      isPresent config ⟨bus, device, 0⟩ && getHeaderType config ⟨bus, device, 0⟩ &&&
        multifunctionBit ≠ 0) := by
  simp [isAnnounced, h, Bool.and_assoc]

theorem ne_zero_of_mem_tail : ∀ function ∈ (List.finRange 8).tail, function ≠ 0 := by decide

theorem announcedBy_absent (h : isPresent config ⟨bus, device, 0⟩ = false) :
    announcedBy config bus device = [] := by
  apply filter_eq_nil_iff.mpr
  intro a ha
  obtain ⟨function, -, rfl⟩ := mem_map.mp ha
  by_cases hzero : function = 0
  · rw [hzero, isAnnounced_zero, h]
    exact Bool.false_ne_true
  · rw [isAnnounced_of_ne config hzero, h, Bool.and_false]
    exact Bool.false_ne_true

theorem announcedBy_present (h : isPresent config ⟨bus, device, 0⟩ = true) :
    announcedBy config bus device =
      ⟨bus, device, 0⟩ :: ((List.finRange 8).tail.map (⟨bus, device, ·⟩)).filter fun a =>
      isPresent config a && getHeaderType config ⟨bus, device, 0⟩ &&& multifunctionBit ≠ 0 := by
  have hrange : finRange 8 = 0 :: (finRange 8).tail := rfl
  rw [announcedBy, hrange, map_cons, filter_cons_of_pos (by rw [isAnnounced_zero, h])]
  congr 1
  apply filter_congr
  intro a ha
  obtain ⟨function, hfunction, rfl⟩ := mem_map.mp ha
  rw [isAnnounced_of_ne config (ne_zero_of_mem_tail function hfunction), h, Bool.and_true]

def announced (bus : UInt8) : List Address := (List.finRange 32).flatMap (announcedBy config bus)

theorem mem_announced : a ∈ announced config bus ↔ isAnnounced config a = true ∧ a.bus = bus := by
  obtain ⟨bus', device, function⟩ := a
  simp only [announced, announcedBy, mem_flatMap, mem_filter, mem_map, mem_finRange, true_and,
    Address.mk.injEq]
  constructor
  · rintro ⟨_, ⟨_, rfl, rfl, rfl⟩, h⟩
    exact ⟨h, rfl⟩
  · rintro ⟨h, rfl⟩
    exact ⟨device, ⟨function, rfl, rfl, rfl⟩, h⟩

theorem nodup_announced (bus : UInt8) : (announced config bus).Nodup := by
  apply nodup_flatMap.mpr
  constructor
  · intro device _
    apply Nodup.filter
    apply Nodup.map _ (nodup_finRange 8)
    intro function function' heq
    exact (Address.mk.inj heq).2.2
  · apply Nodup.pairwise_of_forall_ne (nodup_finRange 32)
    intro device _ device' _ hne a ha ha'
    obtain ⟨function, -, rfl⟩ := mem_map.mp (mem_filter.mp ha).1
    obtain ⟨function', -, heq⟩ := mem_map.mp (mem_filter.mp ha').1
    exact hne (Address.mk.inj heq).2.1.symm

def entries : Entries UInt8 Address where
  entries := announced config
  child a := if isBridge config a then some (getSecondaryBus config a) else none
  node := Address.bus
  node_eq h := ((mem_announced config).mp h).2
  nodup := nodup_announced config

theorem checkDevice_eq (visit : UInt8 → List Device → Option (List Device)) (bus : UInt8)
    (devices : List Device) (device : Fin 32) : checkDevice config visit bus devices device =
      (announcedBy config bus device).foldlM (checkFunction config visit) devices := by
  unfold checkDevice
  split
  · rename_i habsent
    rw [announcedBy_absent config (decide_eq_false (not_not.mpr habsent))]
    rfl
  · rename_i hpresent
    rw [announcedBy_present config (decide_eq_true hpresent)]
    congr 1
    funext devices
    split
    · rename_i hmulti
      simp only [decide_eq_true hmulti, Bool.and_true]
      rw [foldlM_filter, foldlM_map]
      apply congrArg (fun check => foldlM check devices (finRange 8).tail)
      funext devices function
      exact if_congr decide_eq_true_iff.symm rfl rfl
    · rename_i hsingle
      simp only [decide_eq_false hsingle, Bool.and_false, filter_false]
      rfl

section Visit

variable {config} {visit : UInt8 → List Device → Option (List Device)}
  {below : UInt8 → Option (List Address)}
  (hvisit : ∀ bus devices, visit bus devices = (below bus).map fun out =>
      devices ++ out.map (readDevice config))
include hvisit

theorem checkFunction_eq (devices : List Device) (a : Address) :
    checkFunction config visit devices a =
    ((entries config).down below a).map fun out =>
      devices ++ (out ++ [a]).map (readDevice config) := by
  unfold checkFunction Entries.down
  by_cases hbridge : isBridge config a = true
  · have hchild : (entries config).child a = some (getSecondaryBus config a) := if_pos hbridge
    rw [if_pos hbridge, hvisit, hchild]
    cases hbelow : below (getSecondaryBus config a) with
    | none => simp [hbelow]
    | some out => simp [hbelow]
  · have hchild : (entries config).child a = none := if_neg hbridge
    rw [if_neg hbridge, hchild]
    rfl

theorem foldlM_checkFunction (as : List Address) (devices : List Device) :
    as.foldlM (checkFunction config visit) devices =
      ((entries config).collect below as).map fun out =>
        devices ++ out.map (readDevice config) := by
  induction as generalizing devices with
  | nil => simp [Entries.collect]
  | cons a as ih =>
    rw [foldlM_cons, checkFunction_eq hvisit, Entries.collect]
    cases (entries config).down below a with
    | none => rfl
    | some out =>
      simp only [Option.map_some, Option.bind_eq_bind, Option.bind_some, ih]
      cases (entries config).collect below as with
      | none => rfl
      | some rest => simp

end Visit

theorem scanBus_eq (depth : Nat) (bus : UInt8) (devices : List Device) :
    scanBus config depth bus devices =
    ((entries config).traverse depth bus).map fun out =>
      devices ++ out.map (readDevice config) := by
  induction depth generalizing bus devices with
  | zero => rfl
  | succ depth ih =>
    have hdevices : ∀ (range : List (Fin 32)) (devices : List Device),
        range.foldlM (checkDevice config (scanBus config depth) bus) devices =
          (range.flatMap (announcedBy config bus)).foldlM
            (checkFunction config (scanBus config depth)) devices := by
      intro range
      induction range with
      | nil => intro devices; rfl
      | cons device range ih' =>
        intro devices
        rw [flatMap_cons, foldlM_append, foldlM_cons, checkDevice_eq]
        simp only [ih']
    rw [scanBus, hdevices, foldlM_checkFunction ih]
    rfl

/-- Behind the first function of a device there are functions only if the first one is
there and says so. -/
def AllAnnounced : Prop :=
  ∀ a, Attached config a → a.function ≠ 0 → isPresent config { a with function := 0 } = true ∧
    getHeaderType config { a with function := 0 } &&& multifunctionBit ≠ 0

theorem readDevice_injective : Function.Injective (readDevice config) :=
  fun _ _ h => congrArg Device.address h

theorem isAnnounced_iff : isAnnounced config a = true ↔ isPresent config a = true ∧
    (a.function ≠ 0 → isPresent config { a with function := 0 } = true ∧
      getHeaderType config { a with function := 0 } &&& multifunctionBit ≠ 0) :=
  decide_eq_true_iff

theorem child_eq_some :
    (entries config).child a = some bus ↔
      isBridge config a = true ∧ getSecondaryBus config a = bus := by
  change (if isBridge config a then some (getSecondaryBus config a) else none) = some bus ↔ _
  split
  · simp [*]
  · simp [*]

variable {config}

theorem reachable_of_reaches (h : (entries config).Reaches 0 bus) : Reachable config bus := by
  induction h with
  | refl => exact .refl
  | tail _ hlead ih =>
    obtain ⟨a, ha, hchild⟩ := hlead
    obtain ⟨hannounced, hbus⟩ := (mem_announced config).mp ha
    obtain ⟨hbridge, hsecondary⟩ := (child_eq_some config).mp hchild
    exact ih.tail ⟨a, hbus, ((isAnnounced_iff config).mp hannounced).1, hbridge, hsecondary⟩

theorem AllAnnounced.mem (hall : AllAnnounced config) (ha : Attached config a) :
    a ∈ announced config a.bus :=
  (mem_announced config).mpr ⟨(isAnnounced_iff config).mpr ⟨ha.1, hall a ha⟩, rfl⟩

theorem AllAnnounced.reaches (hall : AllAnnounced config) (h : Reachable config bus) :
    (entries config).Reaches 0 bus := by
  induction h with
  | refl => exact .refl
  | tail hbus hlead ih =>
    obtain ⟨a, rfl, hpresent, hbridge, hsecondary⟩ := hlead
    exact ih.tail ⟨a, hall.mem ⟨hpresent, hbus⟩, (child_eq_some config).mpr ⟨hbridge, hsecondary⟩⟩

theorem BridgeTree.isTree (htree : BridgeTree config) : (entries config).IsTree 0 := by
  have hattached : ∀ {bus a}, (entries config).Reaches 0 bus → a ∈ announced config bus →
      Attached config a := by
    intro bus a hreach ha
    obtain ⟨hannounced, rfl⟩ := (mem_announced config).mp ha
    exact ⟨((isAnnounced_iff config).mp hannounced).1, reachable_of_reaches hreach⟩
  constructor
  · intro bus a hreach ha hchild
    obtain ⟨hbridge, hsecondary⟩ := (child_eq_some config).mp hchild
    exact htree.root_free a (hattached hreach ha) hbridge hsecondary
  · intro bus bus' a a' target hreach hreach' ha ha' hchild hchild'
    obtain ⟨hbridge, hsecondary⟩ := (child_eq_some config).mp hchild
    obtain ⟨hbridge', hsecondary'⟩ := (child_eq_some config).mp hchild'
    exact htree.unique a a' (hattached hreach ha) (hattached hreach' ha') hbridge hbridge'
      (hsecondary.trans hsecondary'.symm)

instance finite_uint8 : Finite UInt8 :=
  Finite.of_injective UInt8.toFin fun _ _ => UInt8.toFin_inj.mp

/-- Where the bridges form a tree below bus 0, the scan ends and finds every function
once exactly if the host controller has a single function and every other function is
announced by its device. -/
theorem scan_complete_iff (hhost : isPresent config ⟨0, 0, 0⟩ = true) (htree : BridgeTree config) :
    (∃ depth devices, scan config depth = some devices ∧
      ∀ a, Attached config a → devices.count (readDevice config a) = 1) ↔
      getHeaderType config ⟨0, 0, 0⟩ &&& multifunctionBit = 0 ∧ AllAnnounced config := by
  constructor
  · rintro ⟨depth, devices, hscan, hcount⟩
    have hroot : Attached config ⟨0, 0, 0⟩ := ⟨hhost, .refl⟩
    have hsingle : getHeaderType config ⟨0, 0, 0⟩ &&& multifunctionBit = 0 := by
      by_contra hmulti
      -- the loop ends at the first function of the host controller
      rw [scan, if_neg hmulti, show finRange 8 = 0 :: (finRange 8).tail from rfl, scanHosts,
        if_pos (of_decide_eq_true hhost)] at hscan
      cases hscan
      exact absurd (hcount _ hroot) (zero_ne_one)
    rw [scan, if_pos hsingle, scanBus_eq] at hscan
    obtain ⟨out, htraverse, rfl⟩ := Option.map_eq_some_iff.mp hscan
    refine ⟨hsingle, fun a ha => ?_⟩
    have hmem : readDevice config a ∈ [] ++ out.map (readDevice config) :=
      count_pos_iff.mp (lt_of_lt_of_eq one_pos (hcount a ha).symm)
    obtain ⟨a', ha', heq⟩ := mem_map.mp hmem
    obtain rfl := readDevice_injective config heq
    have hentry := Entries.mem_entries_of_traverse htraverse a' ha'
    exact ((isAnnounced_iff config).mp ((mem_announced config).mp hentry).1).2
  · rintro ⟨hsingle, hall⟩
    obtain ⟨depth, out, htraverse⟩ := (Entries.exists_traverse htree.isTree).exists
    have henum := Entries.traverse_enumerates htree.isTree .refl htraverse
    refine ⟨depth, out.map (readDevice config), ?_, fun a ha => ?_⟩
    · rw [scan, if_pos hsingle, scanBus_eq, htraverse]
      rfl
    · apply count_eq_one_of_mem (henum.nodup.map (readDevice_injective config))
      exact mem_map_of_mem ((henum.mem_iff a).mpr ⟨hall.reaches ha.2, hall.mem ha⟩)

end Buses

/-- The words of a header that the scan looks at. -/
structure Header where
  id : UInt32
  classes : UInt32
  header : UInt32
  buses : UInt32

def Header.word (h : Header) (offset : UInt8) : UInt32 :=
  if offset = 0x00 then h.id
  else if offset = 0x08 then h.classes
  else if offset = 0x0C then h.header
  else if offset = 0x18 then h.buses
  else 0

/-- The function in an address. -/
def located (address : UInt32) : Address :=
  ⟨(address >>> 16).toUInt8, Fin.ofNat 32 (address >>> 11).toNat, Fin.ofNat 8 (address >>> 8).toNat⟩

def configOf (machine : List (Address × Header)) : ConfigSpace := fun address =>
  (machine.lookup (located address)).elim 0xFFFFFFFF (·.word (address.toUInt8 &&& 0xFC))

theorem or_fields {bus device function offset : Nat} (hbus : bus < 256) (hdevice : device < 32)
    (hfunction : function < 8) (hoffset : offset < 256) :
    bus <<< 16 ||| device <<< 11 ||| function <<< 8 ||| offset ||| 2 ^ 31 =
      2 ^ 31 + ((bus * 32 + device) * 8 + function) * 256 + offset := by
  have hjoin : ∀ {x y : Nat} (i : Nat), y < 2 ^ i → x <<< i ||| y = x * 2 ^ i + y := by
    intro x y i hy
    rw [← shiftLeft_add_eq_or_of_lt hy, shiftLeft_eq]
  have hdevice' : bus <<< 16 ||| device <<< 11 = (bus * 32 + device) <<< 11 := by
    rw [hjoin 16 (by omega), shiftLeft_eq]
    omega
  have hfunction' : (bus * 32 + device) <<< 11 ||| function <<< 8 =
      ((bus * 32 + device) * 8 + function) <<< 8 := by
    rw [hjoin 11 (by omega), shiftLeft_eq]
    omega
  rw [hdevice', hfunction', hjoin 8 hoffset, Nat.or_comm, ← Nat.one_shiftLeft, hjoin 31 (by omega)]
  omega

theorem toNat_prepareRegister (a : Address) (offset : UInt8) : (prepareRegister a offset).toNat =
    2 ^ 31 + ((a.bus.toNat * 32 + a.device) * 8 + a.function) * 256 + (offset &&& 0xFC).toNat := by
  have hbus := a.bus.toNat_lt
  have hdevice := a.device.isLt
  have hfunction := a.function.isLt
  rw [← or_fields hbus hdevice hfunction (offset &&& 0xFC).toNat_lt]
  unfold prepareRegister
  simp only [UInt32.toNat_or, UInt32.toNat_shiftLeft, UInt8.toNat_toUInt32, UInt32.toNat_ofNat',
    shiftLeft_eq]
  change a.bus.toNat * 2 ^ 16 % 2 ^ 32 ||| a.device % 2 ^ 32 * 2 ^ 11 % 2 ^ 32 |||
    a.function % 2 ^ 32 * 2 ^ 8 % 2 ^ 32 ||| (offset &&& 0xFC).toNat ||| 2 ^ 31 = _
  congr <;> omega

theorem located_prepareRegister (a : Address) (offset : UInt8) :
    located (prepareRegister a offset) = a ∧ (prepareRegister a offset).toUInt8 &&& 0xFC =
      offset &&& 0xFC := by
  have hbus := a.bus.toNat_lt
  have hoffset := (offset &&& 0xFC).toNat_lt
  have hnat := toNat_prepareRegister a offset
  constructor
  · apply Address.ext
    · apply UInt8.toNat_inj.mp
      change (prepareRegister a offset >>> 16).toUInt8.toNat = a.bus.toNat
      rw [UInt32.toNat_toUInt8, UInt32.toNat_shiftRight, shiftRight_eq_div_pow]
      change _ / 2 ^ 16 % 2 ^ 8 = _
      omega
    · apply Fin.ext
      change (prepareRegister a offset >>> 11).toNat % 32 = a.device
      rw [UInt32.toNat_shiftRight, shiftRight_eq_div_pow]
      change _ / 2 ^ 11 % 32 = _
      omega
    · apply Fin.ext
      change (prepareRegister a offset >>> 8).toNat % 8 = a.function
      rw [UInt32.toNat_shiftRight, shiftRight_eq_div_pow]
      change _ / 2 ^ 8 % 8 = _
      omega
  · have hlow : (prepareRegister a offset).toUInt8 = offset &&& 0xFC := by
      apply UInt8.toNat_inj.mp
      rw [UInt32.toNat_toUInt8]
      omega
    rw [hlow, UInt8.and_assoc, UInt8.and_self]

theorem readDoubleWord_configOf (machine : List (Address × Header)) (a : Address) (offset : UInt8) :
    readDoubleWord (configOf machine) a offset =
      (machine.lookup a).elim 0xFFFFFFFF (·.word (offset &&& 0xFC)) := by
  obtain ⟨hlocated, hoffset⟩ := located_prepareRegister a offset
  unfold readDoubleWord configOf
  rw [hlocated, hoffset]

theorem mem_of_isPresent {a : Address} (h : isPresent (configOf machine) a = true) :
    a ∈ machine.map Prod.fst := by
  by_contra hmem
  have hnone : machine.lookup a = none := by
    apply lookup_eq_none_iff.mpr
    intro p hp
    exact bne_iff_ne.mpr fun heq => hmem (mem_map.mpr ⟨p, hp, heq.symm⟩)
  have hvendor : getVendorId (configOf machine) a = invalidVendor := by
    rw [getVendorId, readWord, readDoubleWord_configOf, hnone]
    rfl
  exact of_decide_eq_true h hvendor

theorem bridgeTree_configOf
    (hroot : ∀ a ∈ machine.map Prod.fst, isBridge (configOf machine) a = true →
        getSecondaryBus (configOf machine) a ≠ 0)
    (hunique : ∀ a ∈ machine.map Prod.fst, ∀ a' ∈ machine.map Prod.fst,
        isBridge (configOf machine) a = true → isBridge (configOf machine) a' = true →
        getSecondaryBus (configOf machine) a = getSecondaryBus (configOf machine) a' → a = a') :
    BridgeTree (configOf machine) :=
  ⟨fun a ha => hroot a (mem_of_isPresent ha.1), fun a a' ha ha' =>
    hunique a (mem_of_isPresent ha.1) a' (mem_of_isPresent ha'.1)⟩

/-- A host controller, a bridge to bus 1 and a device with two functions behind it. -/
def bridged : List (Address × Header) :=
  [(⟨0, 0, 0⟩, ⟨0x00011234, 0x06000000, 0, 0⟩),
    (⟨0, 1, 0⟩, ⟨0x00021234, 0x06040000, 0x00010000, 0x00010100⟩),
    (⟨1, 0, 0⟩, ⟨0x00031234, 0x02000000, 0x00800000, 0⟩),
      (⟨1, 0, 3⟩, ⟨0x00031234, 0x02000000, 0x00800000, 0⟩)]

theorem scan_complete_iff_bridged :
    isPresent (configOf bridged) ⟨0, 0, 0⟩ = true ∧ BridgeTree (configOf bridged) ∧
    ∃ depth devices, scan (configOf bridged) depth = some devices ∧
      ∀ a, Attached (configOf bridged) a → devices.count (readDevice (configOf bridged) a) = 1 := by
  have hhost : isPresent (configOf bridged) ⟨0, 0, 0⟩ = true := by decide
  have htree : BridgeTree (configOf bridged) := bridgeTree_configOf (by decide) (by decide)
  have hall : ∀ a ∈ bridged.map Prod.fst, a.function ≠ 0 →
      isPresent (configOf bridged) { a with function := 0 } = true ∧
        getHeaderType (configOf bridged) { a with function := 0 } &&& multifunctionBit ≠ 0 := by
          decide
  exact ⟨hhost, htree,
    (scan_complete_iff hhost htree).mpr ⟨by decide, fun a ha => hall a (mem_of_isPresent ha.1)⟩⟩

def twoHosts : List (Address × Header) :=
  [(⟨0, 0, 0⟩, ⟨0x00011234, 0x06000000, 0x00800000, 0⟩),
    (⟨0, 0, 1⟩, ⟨0x00011234, 0x06000000, 0x00800000, 0⟩)]

/-- The scan ends before it has begun. -/
theorem scan_twoHosts :
    isPresent (configOf twoHosts) ⟨0, 0, 0⟩ = true ∧ BridgeTree (configOf twoHosts) ∧
    Attached (configOf twoHosts) ⟨0, 0, 0⟩ ∧ ∀ depth, scan (configOf twoHosts) depth = some [] := by
  have hhost : isPresent (configOf twoHosts) ⟨0, 0, 0⟩ = true := by decide
  refine ⟨hhost, bridgeTree_configOf (by decide) (by decide), ⟨hhost, .refl⟩, fun depth => ?_⟩
  rw [scan, if_neg (by decide)]
  exact if_pos (of_decide_eq_true hhost)

end HuyaOS.Pci
