import HuyaOS.Elf.CString
import HuyaOS.Paging.PageDirectory
import HuyaOS.Util.StringKeys

/-!
The boot modules of `Multiboot::Structure`. The boot loader leaves an array of entries with
physical addresses. `parseModules` moves the addresses of each entry into kernel space and
then enters a module into a map, but always the first one of the array.

The other parts of the structure and the change of `info.moduleAddress` are left out.
-/

namespace HuyaOS.Multiboot

open Lib Paging Elf List Nat

abbrev MULTIBOOT_INFO_MODS : Nat := 0x8

/-- The parts of the structure that describe the modules. -/
structure Info where
  flags : Nat
  moduleCount : Nat
  moduleAddress : Nat

/-- `stop` is the field `end`. -/
structure ModuleInfo where
  start : Nat
  stop : Nat
  string : Nat
  reserved : Nat
  deriving DecidableEq

namespace ModuleInfo

/-- `sizeof(ModuleInfo)` -/
def size : Nat := 16

def ofMem (m : Mem) (a : Nat) : ModuleInfo where
  start := load32 m a
  stop := load32 m (a + 4)
  string := load32 m (a + 8)
  reserved := load32 m (a + 12)

def relocated (info : ModuleInfo) : ModuleInfo where
  start := add32 info.start KERNEL_START
  stop := add32 info.stop KERNEL_START
  string := add32 info.string KERNEL_START
  reserved := info.reserved

end ModuleInfo

def relocateWord (m : Mem) (a : Nat) : Mem := store32 m a (add32 (load32 m a) KERNEL_START)

def relocateEntry (m : Mem) (a : Nat) : Mem :=
  relocateWord (relocateWord (relocateWord m (a + 8)) a) (a + 4)

/-- The body of the loop in `parseModules`. -/
def parseModule (modInfo : Nat) (s : Mem × HashMap String ModuleInfo) (i : Nat) :
    Mem × HashMap String ModuleInfo :=
  let m := relocateEntry s.1 (add32 modInfo (ModuleInfo.size * i))
  let first := ModuleInfo.ofMem m modInfo
  (m, s.2.put String.toUInt32 (.ofChars (cString m first.string)) first)

def parseModules (m : Mem) (info : Info) (modules : HashMap String ModuleInfo) :
    Mem × HashMap String ModuleInfo :=
  if info.flags &&& MULTIBOOT_INFO_MODS ≠ 0 then
    (List.range info.moduleCount).foldl (parseModule (add32 info.moduleAddress KERNEL_START)) (m,
      modules)
  else (m, modules)

def isModuleLoaded (modules : HashMap String ModuleInfo) (module : String) : Bool :=
  modules.containsKey String.toUInt32 module

/-- `unknown` is the address of the literal of this name. -/
def getModule (modules : HashMap String ModuleInfo) (unknown : Nat) (module : String) :
    Except Cpu.Stop ModuleInfo :=
  if isModuleLoaded modules module then modules.get String.toUInt32 module
    else .ok ⟨0, 0, unknown, 0⟩

/-- A module as the boot loader describes it. -/
structure Module where
  start : Nat
  stop : Nat
  name : List UInt8

/-- Where the array of entries is in kernel space. -/
def Info.array (info : Info) : Nat := add32 info.moduleAddress KERNEL_START

def Info.nameAt (info : Info) (m : Mem) (i : Nat) : Nat :=
  add32 (ModuleInfo.ofMem m (info.array + ModuleInfo.size * i)).string KERNEL_START

/-- The structure describes the modules of a list. The array is not cut off by the end of the
address space, and each name, up to a zero byte behind it, is apart from the array. -/
structure Describes (m : Mem) (info : Info) (list : List Module) : Prop where
  flag : info.flags &&& MULTIBOOT_INFO_MODS ≠ 0
  count : info.moduleCount = list.length
  fits : info.array + ModuleInfo.size * list.length ≤ 2 ^ 32
  entry : ∀ i (h : i < list.length),
    (ModuleInfo.ofMem m (info.array + ModuleInfo.size * i)).start = list[i].start ∧
    (ModuleInfo.ofMem m (info.array + ModuleInfo.size * i)).stop = list[i].stop ∧
    cString m (info.nameAt m i) = list[i].name
  apart : ∀ i < list.length, ∃ k, info.nameAt m i + k < 2 ^ 32 ∧ m (info.nameAt m i + k) = 0 ∧
    (info.nameAt m i + k < info.array ∨
      info.array + ModuleInfo.size * list.length ≤ info.nameAt m i)

/-- Every module is found under its name with its own addresses, and no other name is. -/
structure Retrievable (modules : HashMap String ModuleInfo) (unknown : Nat)
    (list : List Module) : Prop where
  found : ∀ module ∈ list, ∃ info, getModule modules unknown (.ofChars module.name) = .ok info ∧
    info.start = add32 module.start KERNEL_START ∧ info.stop = add32 module.stop KERNEL_START
  loaded : ∀ name : String, name.WellFormed →
    (isModuleLoaded modules name = true ↔ ∃ module ∈ list, module.name = name.chars)

section Entries

variable {m m' : Mem} {a b : Nat}

theorem ModuleInfo.ofMem_congr (h : ∀ x, a ≤ x → x < a + ModuleInfo.size → m' x = m x) :
    ModuleInfo.ofMem m' a = ModuleInfo.ofMem m a := by
  have h0 : load32 m' a = load32 m a := load32_within (d := 0) h (by decide)
  have h4 := load32_within (d := 4) h (by decide)
  have h8 := load32_within (d := 8) h (by decide)
  have h12 := load32_within (d := 12) h (by decide)
  simp only [ModuleInfo.ofMem, h0, h4, h8, h12]

theorem load32_relocateWord_self (m : Mem) (a : Nat) :
    load32 (relocateWord m a) a = add32 (load32 m a) KERNEL_START := by
  rw [relocateWord, load32_store32_self]
  exact mod_eq_of_lt (add32_lt ..)

theorem load32_relocateWord_of_disjoint (h : a + 4 ≤ b ∨ b + 4 ≤ a) :
    load32 (relocateWord m a) b = load32 m b :=
  load32_store32_of_disjoint h

theorem relocateEntry_of_outside {x : Nat} (h : x < a ∨ a + ModuleInfo.size ≤ x) :
    relocateEntry m a x = m x := by
  simp only [ModuleInfo.size] at h
  unfold relocateEntry relocateWord
  rw [store32_of_outside (by omega), store32_of_outside (by omega), store32_of_outside (by omega)]

theorem ofMem_relocateEntry (m : Mem) (a : Nat) :
    ModuleInfo.ofMem (relocateEntry m a) a = (ModuleInfo.ofMem m a).relocated := by
  have h0 : load32 (relocateEntry m a) a = add32 (load32 m a) KERNEL_START := by
    unfold relocateEntry
    rw [load32_relocateWord_of_disjoint (by omega), load32_relocateWord_self,
      load32_relocateWord_of_disjoint (by omega)]
  have h4 : load32 (relocateEntry m a) (a + 4) = add32 (load32 m (a + 4)) KERNEL_START := by
    unfold relocateEntry
    rw [load32_relocateWord_self, load32_relocateWord_of_disjoint (by omega),
      load32_relocateWord_of_disjoint (by omega)]
  have h8 : load32 (relocateEntry m a) (a + 8) = add32 (load32 m (a + 8)) KERNEL_START := by
    unfold relocateEntry
    rw [load32_relocateWord_of_disjoint (by omega), load32_relocateWord_of_disjoint (by omega),
      load32_relocateWord_self]
  have h12 : load32 (relocateEntry m a) (a + 12) = load32 m (a + 12) := by
    unfold relocateEntry
    rw [load32_relocateWord_of_disjoint (by omega), load32_relocateWord_of_disjoint (by omega),
      load32_relocateWord_of_disjoint (by omega)]
  simp only [ModuleInfo.ofMem, ModuleInfo.relocated, h0, h4, h8, h12]

end Entries

section Loop

variable {m : Mem} {info : Info} {list : List Module} {i : Nat} {name : String} {first : Module}
  {rest : List Module}

/-- The map that knows the first module only. -/
def onlyFirst (name : List UInt8) (first : ModuleInfo) (chars : List UInt8) : Option ModuleInfo :=
  if chars = name then some first else none

/-- What holds after at least one round: the memory has changed in the array only, the first
entry is relocated, and the map knows the first module and no other. -/
structure FirstEntered (m : Mem) (info : Info) (list : List Module)
    (s : Mem × HashMap String ModuleInfo) : Prop where
  outside : ∀ x, x < info.array ∨ info.array + ModuleInfo.size * list.length ≤ x → s.1 x = m x
  first : ModuleInfo.ofMem s.1 info.array = (ModuleInfo.ofMem m info.array).relocated
  map : HashMap.Represents String.WellFormed String.toUInt32 s.2 fun name =>
    onlyFirst (cString m (info.nameAt m 0)) (ModuleInfo.ofMem m info.array).relocated name.chars

theorem Describes.address_eq (h : Describes m info list) (hi : i < list.length) :
    add32 info.array (ModuleInfo.size * i) = info.array + ModuleInfo.size * i := by
  have hfits := h.fits
  apply add32_eq
  simp only [ModuleInfo.size] at hfits ⊢
  omega

theorem Describes.cString_first (h : Describes m info list) (hne : 0 < list.length) {m' : Mem}
    (houtside : ∀ x, x < info.array ∨ info.array + ModuleInfo.size * list.length ≤ x → m' x = m x) :
    cString m' (info.nameAt m 0) = cString m (info.nameAt m 0) := by
  obtain ⟨k, hend, hzero, hapart⟩ := h.apart 0 hne
  exact cString_congr hend hzero fun x hlo hhi => houtside x (by omega)

theorem insert_onlyFirst (name : List UInt8) (first : ModuleInfo) :
    PartialMap.insert (onlyFirst name first) name first = onlyFirst name first := by
  funext chars
  unfold PartialMap.insert onlyFirst
  by_cases heq : chars = name
  · simp [heq]
  · simp [heq]

theorem Describes.parseModule (h : Describes m info list) (hne : 0 < list.length)
    {s : Mem × HashMap String ModuleInfo} (known : List UInt8 → Option ModuleInfo)
    (hknown : HashMap.Represents String.WellFormed String.toUInt32 s.2 fun name => known name.chars)
    (houtside : ∀ x, x < info.array ∨ info.array + ModuleInfo.size * list.length ≤ x →
        relocateEntry s.1 (add32 info.array (ModuleInfo.size * i)) x = m x)
    (hfirst : ModuleInfo.ofMem (relocateEntry s.1 (add32 info.array (ModuleInfo.size * i)))
        info.array = (ModuleInfo.ofMem m info.array).relocated)
    (hinsert : PartialMap.insert known (cString m (info.nameAt m 0))
        (ModuleInfo.ofMem m info.array).relocated = onlyFirst (cString m (info.nameAt m 0))
        (ModuleInfo.ofMem m info.array).relocated) :
    FirstEntered m info list (Multiboot.parseModule info.array s i) := by
  refine ⟨houtside, hfirst, ?_⟩
  have hname : (ModuleInfo.ofMem m info.array).relocated.string = info.nameAt m 0 := by
    unfold Info.nameAt
    rw [mul_zero, add_zero]
    rfl
  simp only [Multiboot.parseModule, hfirst, hname, h.cString_first hne houtside]
  have hput := represents_put_chars hknown (zero_not_mem_cString (m := m) (info.nameAt m 0))
    (ModuleInfo.ofMem m info.array).relocated
  rw [hinsert] at hput
  exact hput

/-- After the first round nothing is added. -/
theorem Describes.rounds (h : Describes m info list) {n : Nat} (hn : n < list.length) :
    FirstEntered m info list
      ((List.range (n + 1)).foldl (Multiboot.parseModule info.array) (m,
        HashMap.new String ModuleInfo)) := by
  have hne : 0 < list.length := by omega
  induction n with
  | zero =>
    have haddress : add32 info.array (ModuleInfo.size * 0) = info.array := by
      rw [h.address_eq hne, mul_zero, add_zero]
    apply h.parseModule hne fun _ => none
    · exact HashMap.represents_ofSize _ _ _ (by decide)
    · intro x hx
      rw [haddress]
      apply relocateEntry_of_outside
      simp only [ModuleInfo.size] at hx ⊢
      omega
    · rw [haddress]
      exact ofMem_relocateEntry ..
    · unfold PartialMap.insert onlyFirst
      simp only [beq_iff_eq]
  | succ n ih =>
    have hbefore := ih (by omega)
    have haddress := h.address_eq hn
    rw [range_succ, foldl_concat]
    apply h.parseModule hne _ hbefore.map
    · intro x hx
      rw [← hbefore.outside x hx, haddress]
      apply relocateEntry_of_outside
      simp only [ModuleInfo.size] at hx ⊢
      omega
    · rw [← hbefore.first, haddress]
      apply ModuleInfo.ofMem_congr
      intro x hlo hhi
      apply relocateEntry_of_outside
      simp only [ModuleInfo.size] at hhi ⊢
      omega
    · exact insert_onlyFirst ..

theorem Describes.parseModules (h : Describes m info list) (hne : 0 < list.length) :
    FirstEntered m info list (Multiboot.parseModules m info (HashMap.new String ModuleInfo)) := by
  have hrounds := h.rounds (n := list.length - 1) (by omega)
  rw [Nat.sub_add_cancel hne, ← h.count] at hrounds
  unfold Multiboot.parseModules
  rw [if_pos h.flag]
  exact hrounds

theorem lookups_of_represents {modules : HashMap String ModuleInfo}
    {known : List UInt8 → Option ModuleInfo}
    (h : HashMap.Represents String.WellFormed String.toUInt32 modules fun name => known name.chars)
    (unknown : Nat) (hname : name.WellFormed) :
    isModuleLoaded modules name = (known name.chars).isSome ∧
      getModule modules unknown name = .ok ((known name.chars).getD ⟨0, 0, unknown, 0⟩) := by
  have hloaded : isModuleLoaded modules name = (known name.chars).isSome := h.containsKey hname
  refine ⟨hloaded, ?_⟩
  unfold getModule
  rw [hloaded, h.get hname]
  cases known name.chars with
  | none => rfl
  | some first => rfl

theorem Describes.wellFormed (h : Describes m info list) {module : Module}
    (hmodule : module ∈ list) :
    (String.ofChars module.name).WellFormed := by
  obtain ⟨i, hi, rfl⟩ := getElem_of_mem hmodule
  rw [← (h.entry i hi).2.2, String.wellFormed_ofChars]
  exact zero_not_mem_cString _

theorem Describes.retrievable_nil (h : Describes m info []) (unknown : Nat) :
    Retrievable (Multiboot.parseModules m info (HashMap.new String ModuleInfo)).2 unknown [] := by
  refine ⟨fun module hmodule => absurd hmodule not_mem_nil, ?_⟩
  intro name hname
  have hloaded : isModuleLoaded (HashMap.new String ModuleInfo) name = false :=
    (HashMap.represents_ofSize String.WellFormed String.toUInt32 _ (by decide)).containsKey hname
  unfold Multiboot.parseModules
  rw [if_pos h.flag, h.count, length_nil, range_zero, foldl_nil, hloaded]
  simp

theorem Describes.lookups (h : Describes m info (first :: rest)) (unknown : Nat)
    (hname : name.WellFormed) :
    let modules := (Multiboot.parseModules m info (HashMap.new String ModuleInfo)).2
    (isModuleLoaded modules name = true ↔ name.chars = first.name) ∧
      (name.chars = first.name →
        getModule modules unknown name = .ok (ModuleInfo.ofMem m info.array).relocated) := by
  have hfirst : cString m (info.nameAt m 0) = first.name := (h.entry 0 (succ_pos _)).2.2
  have hmap := (h.parseModules (succ_pos _)).map
  rw [hfirst] at hmap
  obtain ⟨hloaded, hget⟩ := lookups_of_represents hmap unknown hname
  unfold onlyFirst at hloaded hget
  refine ⟨?_, ?_⟩
  · rw [hloaded]
    by_cases heq : name.chars = first.name
    · simp [heq]
    · simp [heq]
  · intro heq
    rw [hget, if_pos heq]
    rfl

theorem Describes.retrievable_singleton (h : Describes m info [first]) (unknown : Nat) :
    Retrievable (Multiboot.parseModules m info (HashMap.new String ModuleInfo)).2 unknown
      [first] := by
  obtain ⟨hstart, hstop, -⟩ := h.entry 0 (succ_pos _)
  rw [mul_zero, add_zero] at hstart hstop
  constructor
  · intro module hmodule
    obtain rfl := mem_singleton.mp hmodule
    refine ⟨_, (h.lookups unknown (h.wellFormed hmodule)).2 rfl, ?_, ?_⟩
    · exact congrArg (add32 · KERNEL_START) hstart
    · exact congrArg (add32 · KERNEL_START) hstop
  · intro name hname
    rw [(h.lookups unknown hname).1]
    simp [eq_comm]

theorem Describes.not_retrievable {second : Module} (h : Describes m info (first :: second :: rest))
    (hne : first.name ≠ second.name) (unknown : Nat) :
    ¬Retrievable (Multiboot.parseModules m info (HashMap.new String ModuleInfo)).2 unknown
      (first :: second :: rest) := by
  intro hall
  have hmem : second ∈ first :: second :: rest := mem_cons_of_mem _ mem_cons_self
  have hsecond := h.wellFormed hmem
  have hloaded := (hall.loaded _ hsecond).mpr ⟨second, hmem, rfl⟩
  exact hne ((h.lookups unknown hsecond).1.mp hloaded).symm

/-- The modules of a list with distinct names can all be retrieved exactly if there is at most
one. -/
theorem modules_retrievable_iff (h : Describes m info list)
    (hdistinct : list.Pairwise fun a b => a.name ≠ b.name) (unknown : Nat) :
    Retrievable (Multiboot.parseModules m info (HashMap.new String ModuleInfo)).2 unknown list ↔
      list.length ≤ 1 := by
  rcases list with _ | ⟨first, _ | ⟨second, rest⟩⟩
  · exact iff_of_true (h.retrievable_nil unknown) (zero_le 1)
  · exact iff_of_true (h.retrievable_singleton unknown) (le_refl 1)
  · have hne := (pairwise_cons.mp hdistinct).1 second mem_cons_self
    refine iff_of_false (h.not_retrievable hne unknown) ?_
    rw [length_cons, length_cons]
    omega

end Loop

/-- The array of two entries and, behind it, the names `a` and `b`. -/
def twoModules : Mem := fun x =>
  if 0xC0000100 ≤ x ∧ x < 0xC0000124 then
    [0, 0, 0x10, 0, 0, 0, 0x11, 0, 0x20, 1, 0, 0, 0, 0, 0, 0, 0, 0, 0x20, 0, 0, 0, 0x22, 0, 0x22, 1,
      0, 0, 0, 0, 0, 0, 0x61, 0, 0x62, 0].getD (x - 0xC0000100) 0
  else 0

def moduleA : Module := ⟨0x100000, 0x110000, [0x61]⟩

def moduleB : Module := ⟨0x200000, 0x220000, [0x62]⟩

def infoOf (n : Nat) : Info := ⟨MULTIBOOT_INFO_MODS, n, 0x100⟩

theorem describes_one : Describes twoModules (infoOf 1) [moduleA] where
  flag := by decide
  count := rfl
  fits := by decide +kernel
  entry i hi := by
    obtain rfl : i = 0 := lt_one_iff.mp hi
    change _ = moduleA.start ∧ _ = moduleA.stop ∧ _ = moduleA.name
    decide +kernel
  apart i hi := by
    obtain rfl : i = 0 := lt_one_iff.mp hi
    exact ⟨1, by decide +kernel⟩

theorem modules_retrievable_iff_one :
    Retrievable (parseModules twoModules (infoOf 1) (HashMap.new String ModuleInfo)).2 0
      [moduleA] :=
  (modules_retrievable_iff describes_one (pairwise_singleton _ _) 0).mpr le_rfl

theorem describes_two : Describes twoModules (infoOf 2) [moduleA, moduleB] where
  flag := by decide
  count := rfl
  fits := by decide +kernel
  entry i hi := by
    obtain rfl | rfl : i = 0 ∨ i = 1 := by
      simp only [length_cons, length_nil] at hi
      omega
    · change _ = moduleA.start ∧ _ = moduleA.stop ∧ _ = moduleA.name
      decide +kernel
    · change _ = moduleB.start ∧ _ = moduleB.stop ∧ _ = moduleB.name
      decide +kernel
  apart i hi := by
    obtain rfl | rfl : i = 0 ∨ i = 1 := by
      simp only [length_cons, length_nil] at hi
      omega
    · exact ⟨1, by decide +kernel⟩
    · exact ⟨1, by decide +kernel⟩

/-- Of the modules `a` and `b` only the first is loaded. -/
theorem second_module_lost :
    Describes twoModules (infoOf 2) [moduleA, moduleB] ∧ moduleA.name ≠ moduleB.name ∧
      isModuleLoaded (parseModules twoModules (infoOf 2) (HashMap.new String ModuleInfo)).2
        (.ofChars [0x61]) = true ∧
      isModuleLoaded (parseModules twoModules (infoOf 2) (HashMap.new String ModuleInfo)).2
        (.ofChars [0x62]) = false ∧
      getModule (parseModules twoModules (infoOf 2) (HashMap.new String ModuleInfo)).2 0
        (.ofChars [0x62]) =
        .ok ⟨0, 0, 0, 0⟩ := by
  refine ⟨describes_two, ?_⟩
  decide +kernel

end HuyaOS.Multiboot
