import HuyaOS.Kernel.UnmapRange
import Mathlib.Data.List.Basic

/-!
`AhciController`, from `readConfig` over `scan` to `rebaseAll`: which memory the ports of
the adapter are given for their commands, and where the driver writes the commands for a
device.

The adapter reads physical memory. The driver knows its own virtual addresses of that
memory from two arrays. Both have an element for every device and are filled for every
port; an element that has not been filled is `none`, and so is the result of a write
behind the last element.
-/

namespace HuyaOS.Ahci

open Function List Nat Option

open Management (PAGESIZE)

def MAX_DEVICES : Nat := 8

def MAX_CMD_SLOTS : Nat := 32

/-- The registers that the driver reads. -/
structure Hba where
  cap : Nat
  pi : Nat
  sig : Nat → Nat

namespace Hba

def numPorts (hba : Hba) : Nat := (hba.cap &&& (1 <<< 5 - 1)) + 1

def numCmdSlots (hba : Hba) : Nat := ((hba.cap >>> 8) &&& (1 <<< 5 - 1)) + 1

/-- The mask of the port has 16 bits. -/
def isPortImplemented (hba : Hba) (portNumber : Nat) : Bool :=
  let port := (1 <<< portNumber) % 2 ^ 16
  hba.pi &&& port = port

inductive DeviceType
  | null
  | sata
  | satapi
  | semb
  | pm
  deriving DecidableEq

def checkType (hba : Hba) (port : Nat) : DeviceType :=
  if hba.sig port = 0xEB140101 then .satapi
  else if hba.sig port = 0xC33C0101 then .semb
  else if hba.sig port = 0x96690101 then .pm
  else if hba.sig port = 0x00000101 then .sata
  else .null

def sata (hba : Hba) (port : Nat) : Bool := hba.isPortImplemented port && hba.checkType port = .sata

/-- The body of the loop in `scan`. `sataDevices` holds the ports. -/
def scanPort (hba : Hba) (sataDevices : List Nat) (i : Nat) : List Nat :=
  if !hba.isPortImplemented i then sataDevices
  else
    match hba.checkType i with
    | .sata => if sataDevices.length ≥ MAX_DEVICES then sataDevices else sataDevices ++ [i]
    | _ => sataDevices

def scan (hba : Hba) : List Nat := (List.range hba.numPorts).foldl hba.scanPort []

end Hba

def findCmdSlot (numCmdSlots slots : Nat) : Option Nat :=
  (List.range numCmdSlots).find? fun i => slots &&& (1 <<< i) = 0

/-- What `mapIO` returns for the command list and for the command tables of a port, and the
frames behind the pages. -/
structure Areas where
  commandList : Nat → Nat
  commandTables : Nat → Nat
  frame : Nat → Nat

namespace Areas

/-- The address of the frame. -/
def getPhysicalAddress (io : Areas) (virtAddress : Nat) : Nat := io.frame (virtAddress / PAGESIZE)

def physical (io : Areas) (virtAddress : Nat) : Nat :=
  io.getPhysicalAddress virtAddress + virtAddress % PAGESIZE

/-- The pages of a port: its command list, and the two pages of its command tables. -/
def page (io : Areas) (port : Nat) : Fin 3 → Nat
  | 0 => io.commandList port / PAGESIZE
  | 1 => io.commandTables port / PAGESIZE
  | 2 => io.commandTables port / PAGESIZE + 1

/-- The areas begin with a page, and no two of their pages have the same frame. -/
structure Separate (io : Areas) : Prop where
  commandList : ∀ port < 32, io.commandList port % PAGESIZE = 0
  commandTables : ∀ port < 32, io.commandTables port % PAGESIZE = 0
  aligned : ∀ page, io.frame page % PAGESIZE = 0
  bounded : ∀ page, io.frame page < 2 ^ 32
  distinct : ∀ port < 32, ∀ port' < 32, ∀ k k' : Fin 3,
    io.frame (io.page port k) = io.frame (io.page port' k') → port = port' ∧ k = k'

end Areas

/-- Physical memory in double words. -/
abbrev Mem := Nat → Nat

def zeroFrame (mem : Mem) (frame : Nat) : Mem :=
  fun address => if frame ≤ address ∧ address < frame + PAGESIZE then 0 else mem address

structure HbaPortVirt where
  clb : Nat
  fb : Nat

structure Controller where
  sataDevices : List Nat
  sataDevicesVirt : Nat → Option HbaPortVirt
  virtCtbas : Nat → Nat → Option Nat
  clb : Nat → Nat
  fb : Nat → Nat
  mem : Mem

section Rebase

variable (io : Areas)

/-- The body of the loop over the command headers. -/
def rebaseSlot (portno virtAddress clb : Nat) (c : Controller) (i : Nat) : Controller :=
  let physAddr := io.getPhysicalAddress (if i < 16 then virtAddress else virtAddress + PAGESIZE)
  let ctba := (physAddr + i * 256) % 2 ^ 32
  let cmdheader := clb + 32 * i
  let mem := update c.mem (io.physical (cmdheader + 8)) ctba
  let mem := update mem (io.physical (cmdheader + 12)) 0
  let mem := update mem (io.physical cmdheader) (mem (io.physical cmdheader) % 2 ^ 16 + 16 * 2 ^ 16)
  { c with
    virtCtbas :=
      update c.virtCtbas portno (update (c.virtCtbas portno) i (some (virtAddress + i * 256)))
    mem }

def rebaseLists (c : Controller) (portno : Nat) : Controller :=
  let virtAddress := io.commandList portno
  let clb := io.getPhysicalAddress virtAddress
  let tables := io.commandTables portno
  { c with
    sataDevicesVirt := update c.sataDevicesVirt portno (some ⟨virtAddress, virtAddress + 1024⟩)
    clb := update c.clb portno clb
    fb := update c.fb portno (clb + 1024)
    mem := zeroFrame (zeroFrame (zeroFrame c.mem clb) (io.getPhysicalAddress tables))
      (io.getPhysicalAddress (tables + PAGESIZE)) }

def rebasePort (c : Controller) (portno : Nat) : Option Controller :=
  if portno < MAX_DEVICES then
    some ((List.range MAX_CMD_SLOTS).foldl
      (rebaseSlot io portno (io.commandTables portno) (io.commandList portno))
        (rebaseLists io c portno))
  else none

def rebaseAll (hba : Hba) (c : Controller) : Option Controller :=
  (List.range hba.numPorts).foldlM (fun c i => if hba.isPortImplemented i then rebasePort io c i
    else some c) c

/-- The controller with the disks that `scan` has found. The arrays of addresses have not
been filled yet. -/
def scanned (hba : Hba) (clb fb : Nat → Nat) (mem : Mem) : Controller where
  sataDevices := hba.scan
  sataDevicesVirt := fun _ => none
  virtCtbas := fun _ _ => none
  clb := clb
  fb := fb
  mem := mem

end Rebase

namespace Controller

variable (c : Controller)

def cmdheader (device slot : Nat) : Option Nat :=
  (c.sataDevicesVirt device).map fun virtPort => virtPort.clb + 32 * slot

def cmdtbl (device slot : Nat) : Option Nat := c.virtCtbas device slot

/-- The header and the table of a command are those that the adapter reads: every byte of
the header is in its place behind the base of the port's list, and every byte of the table
in its place behind the address in the header. -/
def BuiltWhereRead (io : Areas) (device slot : Nat) : Prop :=
  ∃ port header table, c.sataDevices[device]? = some port ∧
    c.cmdheader device slot = some header ∧ c.cmdtbl device slot = some table ∧
    (∀ k < 32, io.physical (header + k) = c.clb port + 32 * slot + k) ∧
    ∀ k < 256, io.physical (table + k) = c.mem (c.clb port + 32 * slot + 8) + k

end Controller

/-- `rebaseAll` returns, and the commands for all detected devices are built where the
adapter reads them, whichever slots are in use. -/
def AllBuiltWhereRead (io : Areas) (hba : Hba) (c : Controller) : Prop :=
  ∃ c', rebaseAll io hba c = some c' ∧ ∀ device < c'.sataDevices.length, ∀ slots slot,
    findCmdSlot hba.numCmdSlots slots = some slot → c'.BuiltWhereRead io device slot

section Ports

variable {io : Areas} {hba : Hba} {c : Controller} {port portno slot : Nat} {n : Nat}

def ctba (io : Areas) (port slot : Nat) : Nat :=
  (io.getPhysicalAddress (if slot < 16 then io.commandTables port
    else io.commandTables port + PAGESIZE) +
    slot * 256) % 2 ^ 32

/-- The port has its lists. -/
structure Rebased (io : Areas) (c : Controller) (port : Nat) : Prop where
  virt : c.sataDevicesVirt port = some ⟨io.commandList port, io.commandList port + 1024⟩
  clb : c.clb port = io.getPhysicalAddress (io.commandList port)
  table : ∀ slot < MAX_CMD_SLOTS, c.virtCtbas port slot = some (io.commandTables port + slot * 256)
  header : ∀ slot < MAX_CMD_SLOTS,
    c.mem (io.getPhysicalAddress (io.commandList port) + 32 * slot + 8) = ctba io port slot

theorem physical_add {v k : Nat} (hv : v % PAGESIZE = 0) (hk : k < PAGESIZE) :
    io.physical (v + k) = io.getPhysicalAddress v + k := by
  have hdiv : (v + k) / PAGESIZE = v / PAGESIZE := by simp only [PAGESIZE] at *; omega
  have hmod : (v + k) % PAGESIZE = k := by simp only [PAGESIZE] at *; omega
  rw [Areas.physical, Areas.getPhysicalAddress, hdiv, hmod, Areas.getPhysicalAddress]

theorem foldl_rebaseSlot (tables : Nat) {clb : Nat} (hclb : clb % PAGESIZE = 0) (c : Controller)
    (hn : n ≤ MAX_CMD_SLOTS) :
    ∃ virtCtbas mem, (range n).foldl (rebaseSlot io portno tables clb) c =
      { c with virtCtbas, mem } ∧
      (∀ slot < n, virtCtbas portno slot = some (tables + slot * 256) ∧
        mem (io.getPhysicalAddress clb + 32 * slot + 8) =
          (io.getPhysicalAddress (if slot < 16 then tables else tables + PAGESIZE) + slot * 256) %
            2 ^ 32) ∧
      (∀ other, other ≠ portno → virtCtbas other = c.virtCtbas other) ∧
      ∀ address, ¬(io.getPhysicalAddress clb ≤ address ∧
        address < io.getPhysicalAddress clb + PAGESIZE) →
        mem address = c.mem address := by
  induction n with
  | zero =>
    exact ⟨c.virtCtbas, c.mem, rfl, fun _ h => absurd h (not_lt_zero _), fun _ _ => rfl,
      fun _ _ => rfl⟩
  | succ n ih =>
    obtain ⟨virtCtbas, mem, hloop, hslots, hothers, hoff⟩ := ih (le_of_succ_le hn)
    have hpage : 32 * n + 12 < PAGESIZE := by simp only [MAX_CMD_SLOTS, PAGESIZE] at *; omega
    rw [range_succ, foldl_append, hloop, foldl_cons]
    simp only [rebaseSlot, add_assoc clb]
    rw [physical_add hclb (by omega), physical_add hclb hpage, physical_add hclb (by omega)]
    refine ⟨_, _, rfl, ?_, ?_, ?_⟩
    · intro slot hslot
      rcases Nat.lt_succ_iff_lt_or_eq.mp hslot with hlt | rfl
      · obtain ⟨htable, hheader⟩ := hslots slot hlt
        rw [update_self, update_of_ne hlt.ne, update_of_ne (by omega), update_of_ne (by omega),
          update_of_ne (by omega)]
        exact ⟨htable, hheader⟩
      · rw [update_self, update_self, update_of_ne (by omega), update_of_ne (by omega),
          add_assoc, update_self]
        exact ⟨rfl, rfl⟩
    · intro other hne
      rw [update_of_ne hne, hothers other hne]
    · intro address houtside
      rw [update_of_ne (by omega), update_of_ne (by omega), update_of_ne (by omega),
        hoff address houtside]

theorem zeroFrame_of_outside {mem : Mem} {frame address : Nat}
    (h : ¬(frame ≤ address ∧ address < frame + PAGESIZE)) :
    zeroFrame mem frame address = mem address :=
  if_neg h

/-- `rebasePort` gives the port its lists and leaves those of the others as they are. -/
theorem rebasePort_spec (hio : io.Separate) (hportno : portno < MAX_DEVICES) (c : Controller) :
    ∃ c', rebasePort io c portno = some c' ∧ Rebased io c' portno ∧ c'.sataDevices = c.sataDevices ∧
      ∀ port < 32, port ≠ portno → c'.sataDevicesVirt port = c.sataDevicesVirt port ∧
        (Rebased io c port → Rebased io c' port) := by
  have hlow : portno < 32 := lt_trans hportno (by decide)
  obtain ⟨virtCtbas, mem, hloop, hslots, hothers, hoff⟩ :=
    foldl_rebaseSlot (io.commandTables portno) (hio.commandList portno hlow)
      (rebaseLists io c portno)
      (le_refl MAX_CMD_SLOTS)
  refine ⟨_, (if_pos hportno).trans (congrArg some hloop), ?_, rfl, ?_⟩
  · exact ⟨update_self .., update_self .., fun slot h => (hslots slot h).1,
      fun slot h => (hslots slot h).2⟩
  · intro port hport hne
    refine ⟨update_of_ne hne .., fun h => ?_⟩
    refine ⟨(update_of_ne hne ..).trans h.virt, (update_of_ne hne ..).trans h.clb,
      fun slot hslot => (congrFun (hothers port hne) slot).trans (h.table slot hslot),
        fun slot hslot => ?_⟩
    -- the list of the other port is in a frame of its own
    have houtside : ∀ k : Fin 3, ¬(io.frame (io.page portno k) ≤
          io.getPhysicalAddress (io.commandList port) + 32 * slot + 8 ∧
        io.getPhysicalAddress (io.commandList port) + 32 * slot + 8 < io.frame (io.page portno k) +
          PAGESIZE) := by
      intro k hinside
      have hframe : io.getPhysicalAddress (io.commandList port) ≠ io.frame (io.page portno k) :=
        fun heq =>
        hne (hio.distinct port hport portno hlow 0 k heq).1
      have ha := hio.aligned (io.commandList port / PAGESIZE)
      have hb := hio.aligned (io.page portno k)
      simp only [Areas.getPhysicalAddress, MAX_CMD_SLOTS, PAGESIZE] at *
      omega
    have hsecond : io.getPhysicalAddress (io.commandTables portno + PAGESIZE) =
        io.frame (io.page portno 2) := by
      rw [Areas.getPhysicalAddress, add_div_right _ (by decide)]
      rfl
    have hkept := hoff _ (houtside 0)
    refine hkept.trans (Eq.trans ?_ (h.header slot hslot))
    exact (zeroFrame_of_outside (hsecond ▸ houtside 2)).trans
      ((zeroFrame_of_outside (houtside 1)).trans (zeroFrame_of_outside (houtside 0)))

theorem foldlM_rebasePort (hio : io.Separate) (c : Controller) (hn : n ≤ 32)
    (harrays : ∀ i < n, hba.isPortImplemented i = true → i < MAX_DEVICES) :
    ∃ c', (range n).foldlM
        (fun c i => if hba.isPortImplemented i then rebasePort io c i else some c) c = some c' ∧
      c'.sataDevices = c.sataDevices ∧
      ∀ port < 32, (port < n ∧ hba.isPortImplemented port = true → Rebased io c' port) ∧
        (¬(port < n ∧ hba.isPortImplemented port = true) →
          c'.sataDevicesVirt port = c.sataDevicesVirt port) := by
  induction n with
  | zero =>
    exact ⟨c, rfl, rfl, fun port _ => ⟨fun h => absurd h.1 (not_lt_zero port), fun _ => rfl⟩⟩
  | succ n ih =>
    obtain ⟨c', hloop, hdevices, hports⟩ :=
      ih (le_of_succ_le hn) fun i hi => harrays i (lt_succ_of_lt hi)
    simp only [range_succ, foldlM_append, hloop, Option.bind_eq_bind, Option.bind_some,
      foldlM_cons, foldlM_nil, Option.pure_def, Option.bind_fun_some]
    by_cases himplemented : hba.isPortImplemented n = true
    · obtain ⟨c'', hrebase, hrebased, hdevices', hothers⟩ :=
        rebasePort_spec hio (harrays n (Nat.lt_succ_self n) himplemented) c'
      refine ⟨c'', (if_pos himplemented).trans hrebase, hdevices'.trans hdevices,
        fun port hport => ?_⟩
      rcases eq_or_ne port n with rfl | hne
      · exact ⟨fun _ => hrebased, fun h => absurd ⟨Nat.lt_succ_self port, himplemented⟩ h⟩
      · obtain ⟨hvirt, hkept⟩ := hothers port hport hne
        refine ⟨fun h => hkept ((hports port hport).1 ⟨by omega, h.2⟩), fun h => hvirt.trans ?_⟩
        exact (hports port hport).2 fun h' => h ⟨lt_succ_of_lt h'.1, h'.2⟩
    · refine ⟨c', if_neg himplemented, hdevices, fun port hport => ?_⟩
      have hsame : (port < n + 1 ∧ hba.isPortImplemented port = true) ↔
          (port < n ∧ hba.isPortImplemented port = true) := by
        refine ⟨fun h => ⟨?_, h.2⟩, fun h => ⟨lt_succ_of_lt h.1, h.2⟩⟩
        have hne : port ≠ n := by rintro rfl; exact himplemented h.2
        omega
      rw [hsame]
      exact hports port hport

theorem lt_of_foldlM_rebasePort {c c' : Controller}
    (h : (range n).foldlM (fun c i => if hba.isPortImplemented i then rebasePort io c i
        else some c) c = some c') :
    ∀ i < n, hba.isPortImplemented i = true → i < MAX_DEVICES := by
  induction n generalizing c' with
  | zero => exact fun i hi => absurd hi (not_lt_zero i)
  | succ n ih =>
    rw [range_succ, foldlM_append] at h
    obtain ⟨c₁, hloop, hlast⟩ := bind_eq_some_iff.mp h
    intro i hi himplemented
    rcases Nat.lt_succ_iff_lt_or_eq.mp hi with hlt | rfl
    · exact ih hloop i hlt himplemented
    · by_contra hbehind
      simp [himplemented, rebasePort, hbehind] at hlast

end Ports

section Devices

variable {hba : Hba}

theorem scanPort_of_sata {n : Nat} (h : hba.sata n = true) (found : List Nat) :
    hba.scanPort found n = if found.length ≥ MAX_DEVICES then found else found ++ [n] := by
  obtain ⟨himplemented, htype⟩ := (Bool.and_eq_true ..).mp h
  simp [Hba.scanPort, himplemented, of_decide_eq_true htype]

theorem scanPort_of_not_sata {n : Nat} (h : ¬hba.sata n = true) (found : List Nat) :
    hba.scanPort found n = found := by
  simp only [Hba.sata, Bool.and_eq_true, decide_eq_true_eq, not_and] at h
  simp only [Hba.scanPort]
  by_cases himplemented : hba.isPortImplemented n = true
  · split_ifs <;> cases hcase : hba.checkType n <;> simp_all
  · simp [himplemented]

theorem foldl_scanPort (n : Nat) :
    (range n).foldl hba.scanPort [] = ((range n).filter hba.sata).take MAX_DEVICES := by
  induction n with
  | zero => rfl
  | succ n ih =>
    rw [range_succ, foldl_append, ih, filter_append, foldl_cons, foldl_nil]
    by_cases hsata : hba.sata n = true
    · rw [scanPort_of_sata hsata, length_take, filter_cons_of_pos hsata, filter_nil]
      split_ifs with hfull
      · rw [take_append_of_le_length (by omega)]
      · rw [take_of_length_le (by omega), take_of_length_le (by simp; omega)]
    · rw [scanPort_of_not_sata hsata, filter_cons_of_neg hsata, filter_nil, append_nil]

theorem exists_filter_range_eq {p : Nat → Bool} (n : Nat)
    (hbelow : ∀ i < n, p i = true → ∀ j < i, p j = true) : ∃ k, (range n).filter p = range k := by
  induction n with
  | zero => exact ⟨0, rfl⟩
  | succ n ih =>
    by_cases hn : p n = true
    · refine ⟨n + 1, filter_eq_self.mpr fun i hi => ?_⟩
      rcases Nat.lt_succ_iff_lt_or_eq.mp (mem_range.mp hi) with hlt | rfl
      · exact hbelow n (Nat.lt_succ_self n) hn i hlt
      · exact hn
    · obtain ⟨k, hk⟩ := ih fun i hi => hbelow i (lt_succ_of_lt hi)
      exact ⟨k, by rw [range_succ, filter_append, hk]; simp [hn]⟩

/-- The disks are at the first ports, without a gap. -/
def Hba.Consecutive (hba : Hba) : Prop :=
  ∀ i < hba.numPorts, hba.sata i = true → ∀ j < i, hba.sata j = true

theorem numPorts_le (hba : Hba) : hba.numPorts ≤ 32 := by
  have h : hba.cap &&& (1 <<< 5 - 1) ≤ 1 <<< 5 - 1 := and_le_right
  simp only [Hba.numPorts]
  omega

theorem numCmdSlots_le (hba : Hba) : hba.numCmdSlots ≤ 32 := by
  have h : (hba.cap >>> 8) &&& (1 <<< 5 - 1) ≤ 1 <<< 5 - 1 := and_le_right
  simp only [Hba.numCmdSlots]
  omega

theorem mem_scan {port : Nat} (h : port ∈ hba.scan) :
    port < hba.numPorts ∧ hba.sata port = true := by
  rw [Hba.scan, foldl_scanPort] at h
  obtain ⟨hrange, hsata⟩ := mem_filter.mp (mem_of_mem_take h)
  exact ⟨mem_range.mp hrange, hsata⟩

theorem length_scan_le (hba : Hba) : hba.scan.length ≤ MAX_DEVICES := by
  rw [Hba.scan, foldl_scanPort]
  exact length_take_le ..

section

variable (harrays : ∀ i < hba.numPorts, hba.isPortImplemented i = true → i < MAX_DEVICES)

include harrays

/-- With the disks at ports that have elements in the arrays, `scan` finds them all. -/
theorem scan_eq_filter : hba.scan = (range hba.numPorts).filter hba.sata := by
  have hsub : (range hba.numPorts).filter hba.sata ⊆ range MAX_DEVICES := by
    intro i hi
    obtain ⟨hrange, hsata⟩ := mem_filter.mp hi
    exact mem_range.mpr (harrays i (mem_range.mp hrange) ((Bool.and_eq_true ..).mp hsata).1)
  have hfew : ((range hba.numPorts).filter hba.sata).length ≤ MAX_DEVICES := by
    simpa using ((nodup_range.filter _).subperm hsub).length_le
  exact (foldl_scanPort _).trans (take_of_length_le hfew)

theorem scan_consecutive_iff :
    (∀ d port : Nat, hba.scan[d]? = some port → port = d) ↔ hba.Consecutive := by
  rw [scan_eq_filter harrays]
  constructor
  · intro h i hi hsata j hj
    obtain ⟨d, hd⟩ := mem_iff_getElem?.mp (mem_filter.mpr ⟨mem_range.mpr hi, hsata⟩)
    obtain rfl := h d i hd
    have hlt : j < ((List.range hba.numPorts).filter hba.sata).length :=
      lt_trans hj (List.getElem?_eq_some_iff.mp hd).1
    have hj' := getElem?_eq_getElem hlt
    have hmem := getElem_mem hlt
    rw [h j _ hj'] at hmem
    exact (mem_filter.mp hmem).2
  · intro h d port hd
    obtain ⟨k, hk⟩ := exists_filter_range_eq hba.numPorts h
    rw [hk] at hd
    obtain ⟨hlt, heq⟩ := List.getElem?_eq_some_iff.mp hd
    rw [← heq, getElem_range]

end

end Devices

section Commands

variable {io : Areas} {hba : Hba} {c : Controller} {device port slot : Nat}

/-- The second page of the tables is added twice for the upper half of the slots. -/
theorem ctba_upper_ne (hio : io.Separate) (hport : port < 32) :
    io.physical (io.commandTables port + 16 * 256) ≠ ctba io port 16 := by
  have htables := hio.commandTables port hport
  have hsecond : (io.commandTables port + PAGESIZE) % PAGESIZE = 0 := by rwa [add_mod_right]
  have hupper : io.commandTables port + 16 * 256 = io.commandTables port + PAGESIZE + 0 := by
    simp only [PAGESIZE]
  rw [hupper, physical_add hsecond (by decide), ctba, if_neg (by decide)]
  omega

theorem Rebased.built (h : Rebased io c device) (hio : io.Separate) (hdevice : device < 32)
    (hport : c.sataDevices[device]? = some device) (hslot : slot < 16) :
    c.BuiltWhereRead io device slot := by
  have hslot' : slot < MAX_CMD_SLOTS := lt_trans hslot (by decide)
  refine ⟨device, _, _,
    hport, by rw [Controller.cmdheader, h.virt]; rfl, h.table slot hslot', ?_, ?_⟩
  · intro k hk
    rw [add_assoc, physical_add (hio.commandList device hdevice) (by simp only [PAGESIZE]; omega),
      h.clb, add_assoc]
  · intro k hk
    have haligned := hio.aligned (io.commandTables device / PAGESIZE)
    have hbounded := hio.bounded (io.commandTables device / PAGESIZE)
    rw [add_assoc, physical_add (hio.commandTables device hdevice) (by simp only [PAGESIZE]; omega),
      h.clb, h.header slot hslot', ctba, if_pos hslot]
    simp only [Areas.getPhysicalAddress, PAGESIZE] at *
    omega

/-- Commands for a device at another port go into the lists of the wrong port. -/
theorem Rebased.port_eq (h : Rebased io c device) (hport : Rebased io c port) (hio : io.Separate)
    (hdevice : device < 32) (hlt : port < 32) (hentry : c.sataDevices[device]? = some port)
    (hbuilt : c.BuiltWhereRead io device 0) : port = device := by
  obtain ⟨port', header, table, hentry', hheader, _, hsame, _⟩ := hbuilt
  obtain rfl : port' = port := some.inj (hentry'.symm.trans hentry)
  rw [Controller.cmdheader, h.virt] at hheader
  obtain rfl := (some.inj hheader).symm
  have hfirst := hsame 0 (by decide)
  rw [add_assoc, physical_add (hio.commandList device hdevice) (by decide), hport.clb] at hfirst
  exact ((hio.distinct device hdevice port' hlt 0 0) hfirst).1.symm

theorem Rebased.not_built_upper (h : Rebased io c device) (hio : io.Separate)
    (hdevice : device < 32) (hport : c.sataDevices[device]? = some device) :
    ¬c.BuiltWhereRead io device 16 := by
  rintro ⟨port, header, table, hentry, _, htable, _, hsame⟩
  obtain rfl : port = device := some.inj (hentry.symm.trans hport)
  have hfirst := hsame 0 (by decide)
  rw [Controller.cmdtbl, h.table 16 (by decide)] at htable
  rw [← some.inj htable, h.clb, h.header 16 (by decide)] at hfirst
  simp only [add_zero] at hfirst
  exact ctba_upper_ne hio hdevice hfirst

theorem findCmdSlot_upper : ∀ n ≤ 32, 16 < n → findCmdSlot n 0xFFFF = some 16 := by
  decide

theorem findCmdSlot_empty (hba : Hba) : findCmdSlot hba.numCmdSlots 0 = some 0 := by
  have hpos : hba.numCmdSlots = ((hba.cap >>> 8) &&& (1 <<< 5 - 1)) + 1 := rfl
  rw [findCmdSlot, hpos]
  simp

/-- The controller after `scan` and `rebaseAll`. -/
structure Prepared (io : Areas) (hba : Hba) (c : Controller) : Prop where
  devices : c.sataDevices = hba.scan
  rebased : ∀ port < hba.numPorts, hba.isPortImplemented port = true → Rebased io c port
  unfilled : ∀ port < 32, ¬(port < hba.numPorts ∧ hba.isPortImplemented port = true) →
    c.sataDevicesVirt port = none

theorem exists_prepared (hio : io.Separate) (clb fb : Nat → Nat) (mem : Mem)
    (harrays : ∀ i < hba.numPorts, hba.isPortImplemented i = true → i < MAX_DEVICES) :
    ∃ c, rebaseAll io hba (scanned hba clb fb mem) = some c ∧ Prepared io hba c := by
  obtain ⟨c, hc, hdevices, hports⟩ :=
    foldlM_rebasePort hio (scanned hba clb fb mem) (numPorts_le hba) harrays
  refine ⟨c, hc, hdevices, fun port hlt himplemented => ?_, fun port hlt => (hports port hlt).2⟩
  exact (hports port (lt_of_lt_of_le hlt (numPorts_le hba))).1 ⟨hlt, himplemented⟩

theorem Prepared.found (h : Prepared io hba c) (hentry : c.sataDevices[device]? = some port) :
    device < 32 ∧ port < 32 ∧ port < hba.numPorts ∧ hba.sata port = true ∧ Rebased io c port := by
  rw [h.devices] at hentry
  obtain ⟨hport, hdisk⟩ := mem_scan (mem_of_getElem? hentry)
  have hfew : device < MAX_DEVICES :=
    lt_of_lt_of_le (List.getElem?_eq_some_iff.mp hentry).1 (length_scan_le hba)
  exact ⟨lt_trans hfew (by decide), lt_of_lt_of_le hport (numPorts_le hba), hport, hdisk,
    h.rebased port hport ((Bool.and_eq_true ..).mp hdisk).1⟩

theorem Prepared.port_eq (h : Prepared io hba c) (hio : io.Separate)
    (hentry : c.sataDevices[device]? = some port) (hbuilt : c.BuiltWhereRead io device 0) :
    port = device := by
  obtain ⟨hdevice, hlt, -, -, hport⟩ := h.found hentry
  by_cases hown : device < hba.numPorts ∧ hba.isPortImplemented device = true
  · exact (h.rebased device hown.1 hown.2).port_eq hport hio hdevice hlt hentry hbuilt
  · -- the element of the device has never been filled
    obtain ⟨_, _, _, _, hheader, _⟩ := hbuilt
    rw [Controller.cmdheader, h.unfilled device hdevice hown] at hheader
    exact absurd hheader.symm (some_ne_none _)

/-- After `scan` and `rebaseAll` every command is built where the adapter reads it if and
only if all implemented ports have elements in the arrays, the disks are at the first ports
without a gap, and with a disk there are no more than 16 command slots. -/
theorem built_where_read_iff (hba : Hba) (hio : io.Separate) (clb fb : Nat → Nat) (mem : Mem) :
    AllBuiltWhereRead io hba (scanned hba clb fb mem) ↔
    (∀ i < hba.numPorts, hba.isPortImplemented i = true → i < MAX_DEVICES) ∧ hba.Consecutive ∧
      ∀ i < hba.numPorts, hba.sata i = true → hba.numCmdSlots ≤ 16 := by
  constructor
  · rintro ⟨c, hc, hbuilt⟩
    have harrays := lt_of_foldlM_rebasePort hc
    obtain ⟨c', hc', hprepared⟩ := exists_prepared hio clb fb mem harrays
    obtain rfl : c' = c := some.inj (hc'.symm.trans hc)
    have hscan : ∀ d port : Nat, hba.scan[d]? = some port → port = d := by
      intro d port hd
      rw [← hprepared.devices] at hd
      apply hprepared.port_eq hio hd
      exact hbuilt d (List.getElem?_eq_some_iff.mp hd).1 0 0 (findCmdSlot_empty hba)
    refine ⟨harrays, (scan_consecutive_iff harrays).mp hscan, fun i hi hdisk => ?_⟩
    by_contra hmany
    obtain ⟨d, hd⟩ : ∃ d : Nat, hba.scan[d]? = some i := by
      apply mem_iff_getElem?.mp
      rw [scan_eq_filter harrays]
      exact mem_filter.mpr ⟨mem_range.mpr hi, hdisk⟩
    obtain rfl := hscan d i hd
    rw [← hprepared.devices] at hd
    obtain ⟨hdevice, -, -, -, hrebased⟩ := hprepared.found hd
    apply hrebased.not_built_upper hio hdevice hd
    exact hbuilt i (List.getElem?_eq_some_iff.mp hd).1 0xFFFF 16
      (findCmdSlot_upper _ (numCmdSlots_le hba) (not_le.mp hmany))
  · rintro ⟨harrays, hconsecutive, hslots⟩
    obtain ⟨c, hc, hprepared⟩ := exists_prepared hio clb fb mem harrays
    refine ⟨c, hc, fun device hdevice slots slot hslot => ?_⟩
    have hentry : c.sataDevices[device]? = some c.sataDevices[device] :=
      List.getElem?_eq_getElem hdevice
    have heq : c.sataDevices[device] = device :=
      (scan_consecutive_iff harrays).mpr hconsecutive device _ (hprepared.devices ▸ hentry)
    rw [heq] at hentry
    obtain ⟨hlow, -, hport, hdisk, hrebased⟩ := hprepared.found hentry
    have hslot' : slot < hba.numCmdSlots := mem_range.mp (mem_of_find?_eq_some hslot)
    exact hrebased.built hio hlow hentry (lt_of_lt_of_le hslot' (hslots device hport hdisk))

/-- Three pages for every port, one port after the other. -/
def exampleAreas : Areas where
  commandList port := 3 * port * PAGESIZE
  commandTables port := (3 * port + 1) * PAGESIZE
  frame page := page % 2 ^ 20 * PAGESIZE

theorem exampleAreas_page (port : Nat) (k : Fin 3) : exampleAreas.page port k = 3 * port + k := by
  match k with
  | 0 => exact Nat.mul_div_cancel _ (by decide)
  | 1 => exact Nat.mul_div_cancel _ (by decide)
  | 2 => exact congrArg (· + 1) (Nat.mul_div_cancel _ (by decide))

theorem exampleAreas_separate : exampleAreas.Separate where
  commandList port _ := mul_mod_left ..
  commandTables port _ := mul_mod_left ..
  aligned page := mul_mod_left ..
  bounded page := by simp only [exampleAreas, PAGESIZE]; omega
  distinct port hport port' hport' k k' h := by
    rw [exampleAreas_page, exampleAreas_page] at h
    have hk := k.isLt
    have hk' := k'.isLt
    simp only [exampleAreas, PAGESIZE] at h
    rw [mod_eq_of_lt (by omega), mod_eq_of_lt (by omega)] at h
    constructor
    · omega
    · apply Fin.ext
      omega

def twoPorts (disk : Nat) : Hba := ⟨0xF01, 3, fun port => if port = disk then 0x101 else 0⟩

theorem built_where_read_iff_firstPort :
    AllBuiltWhereRead exampleAreas (twoPorts 0)
      (scanned (twoPorts 0) (fun _ => 0) (fun _ => 0) fun _ => 0) := by
  apply (built_where_read_iff (twoPorts 0) exampleAreas_separate _ _ _).mpr
  unfold Hba.Consecutive
  decide

/-- With the only disk at the second port, its commands are built in the lists of the first. -/
theorem secondPort_not_built :
    ¬AllBuiltWhereRead exampleAreas (twoPorts 1)
      (scanned (twoPorts 1) (fun _ => 0) (fun _ => 0) fun _ => 0) := by
  rintro ⟨c, hc, hbuilt⟩
  obtain ⟨c', hc', hprepared⟩ :=
    exists_prepared exampleAreas_separate (fun _ => 0) (fun _ => 0) (fun _ => 0)
    (lt_of_foldlM_rebasePort hc)
  obtain rfl : c' = c := some.inj (hc'.symm.trans hc)
  have hentry : c'.sataDevices[0]? = some 1 := by
    rw [hprepared.devices]
    decide
  have hfirst :=
    hbuilt 0 (List.getElem?_eq_some_iff.mp hentry).1 0 0 (findCmdSlot_empty (twoPorts 1))
  exact absurd (hprepared.port_eq exampleAreas_separate hentry hfirst) (by decide)

end Commands

end HuyaOS.Ahci
