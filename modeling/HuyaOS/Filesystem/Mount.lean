import HuyaOS.Filesystem.MountPoints

/-!
`mount` and `unmount`. Both look up their target through the table that they
change. What drivers and devices answer is given by `Outcomes`, separately for
every call. Path strings are arbitrary C strings.
-/

namespace HuyaOS.Filesystem

open Lib HuyaOS.String

/-- The return codes of `mount` and `unmount`. -/
inductive ReturnCode
  | SUCCESS
  | FILE_NOT_FOUND
  | DEVICE_NOT_FOUND
  | MOUNT_TARGET_ALREADY_USED
  | MOUNTING_FAILED
  | SUBDIRECTORY_CONTAINS_MOUNT_POINT
  | NOTHING_MOUNTED_AT_PATH
  deriving DecidableEq, Repr

/-- What the other parts of the system answer during a call. A node is given by
its name, a null pointer is `none`. -/
structure Outcomes (D : Type) where
  getNode : D → String → Option String
  getDevice : String → Option Nat
  /-- `FsDriver::createInstance`; no driver for a type that is not registered. -/
  createInstance : String → Option D
  mount : D → Option Nat → Bool

/-- `"RamFsDriver"` -/
def TYPE_RAM_FS : String := .ofChars [82, 97, 109, 70, 115, 68, 114, 105, 118, 101, 114]

section Calls

variable {D : Type} (code : String → Nat) (outcomes : Outcomes D) (fresh : Nat → UInt8)
  (mountPoints : HashMap String D)

def getNode (path : String) : Except Cpu.Stop (Option String) := do
  let parsedPath ← parsePath fresh path
  let (driver, path) ← getMountedDriver code fresh mountPoints parsedPath
  match driver with
  | none => return none
  | some driver => return outcomes.getNode driver path

/-- The first part of `mount`: the device, which a RamFs does not need. There is no
result if the device is not found. -/
def findDevice (devicePath fsType : String) : Except Cpu.Stop (Option (Option Nat)) := do
  let parsedDevicePath ← parsePath fresh devicePath
  if ← fsType.equals TYPE_RAM_FS then return some none
  else
    let name := match ← getNode code outcomes fresh mountPoints parsedDevicePath with
      | none => devicePath
      | some name => name
    match outcomes.getDevice name with
    | none => return none
    | some disk => return some (some disk)

def mount (devicePath targetPath fsType : String) :
    Except Cpu.Stop (ReturnCode × HashMap String D) := do
  match ← findDevice code outcomes fresh mountPoints devicePath fsType with
  | none => return (.DEVICE_NOT_FOUND, mountPoints)
  | some disk =>
      let parsedPath := (← parsePath fresh targetPath).plus SEPARATOR
      let targetNode ← getNode code outcomes fresh mountPoints parsedPath
      if targetNode.isNone && mountPoints.size != 0 then return (.FILE_NOT_FOUND, mountPoints)
      else if mountPoints.containsKey code parsedPath then
        return (.MOUNT_TARGET_ALREADY_USED, mountPoints)
      else match outcomes.createInstance fsType with
        | none => throw (.throwException .UNKNOWN_TYPE)
        | some driver =>
            if outcomes.mount driver disk then
              return (.SUCCESS, mountPoints.put code parsedPath driver)
            else return (.MOUNTING_FAILED, mountPoints)

def isBelow (parsedPath key : String) : Except Cpu.Stop Bool := do
  if ← key.beginsWith parsedPath (fresh 0) then return !(← key.equals parsedPath) else return false

def unmount (path : String) : Except Cpu.Stop (ReturnCode × HashMap String D) := do
  let parsedPath := (← parsePath fresh path).plus SEPARATOR
  let targetNode ← getNode code outcomes fresh mountPoints parsedPath
  if targetNode.isNone && !(← path.equals SEPARATOR) then return (.FILE_NOT_FOUND, mountPoints)
  else if ← mountPoints.keySet.anyM (isBelow fresh parsedPath) then
    return (.SUBDIRECTORY_CONTAINS_MOUNT_POINT, mountPoints)
  else if mountPoints.containsKey code parsedPath then
    -- the driver is deleted
    let _ ← mountPoints.get code parsedPath
    let (_, mountPoints) ← mountPoints.remove code parsedPath
    return (.SUCCESS, mountPoints)
  else return (.NOTHING_MOUNTED_AT_PATH, mountPoints)

end Calls

theorem exists_parsePath {path : String} (hpath : path.WellFormed) :
    ∃ p, ∀ fresh, parsePath fresh path = .ok (pathString p) := by
  have hnames : ∀ c ∈ resolve isDot isDotDot (components slash path.chars), ∃ name : Name,
      name.chars = c := by
    intro c hc
    obtain ⟨⟨hne, hslash⟩, hdot, hdotDot⟩ := isEntered_of_mem_resolve hc
    have hzero : 0 ∉ c := by
      rcases mem_foldl_walk hc with h | ⟨hmem, -⟩
      · cases h
      · exact fun h => hpath.not_mem (mem_of_mem_components hmem h)
    rw [isDot, cString_of_not_mem hzero, beq_eq_false_iff_ne] at hdot
    rw [isDotDot, cString_of_not_mem hzero, beq_eq_false_iff_ne] at hdotDot
    exact ⟨⟨c, hne, hslash, hzero, hdot, hdotDot⟩, rfl⟩
  obtain ⟨p, hp⟩ : ∃ p : List Name,
    p.map Name.chars = resolve isDot isDotDot (components slash path.chars) := by
    rw [← Set.mem_range, Set.range_list_map]
    exact hnames
  refine ⟨p, fun fresh => ?_⟩
  rw [parsePath_eq, canonical, ← hp]
  rfl

theorem plus_separator (p : List Name) : (pathString p).plus SEPARATOR = mountString p :=
  pathString_append_separator p

section Effects

variable {D : Type} {code : String → Nat} {mountPoints : HashMap String D}
  (h : MountTable code mountPoints) (outcomes : Outcomes D) (fresh : Nat → UInt8)
  {devicePath fsType : String} {p : List Name}

include h

theorem getNode_returns {path : String} (hpath : path.WellFormed) :
    ∃ node, getNode code outcomes fresh mountPoints path = .ok node := by
  obtain ⟨p, hp⟩ := exists_parsePath hpath
  unfold getNode
  rw [hp fresh]
  rcases h.getMountedDriver_cases fresh p with ⟨hcall, -⟩ | ⟨_, rest, driver, -, -, -, -, hcall⟩
  · simp only [bind, Except.bind, hcall]
    exact ⟨none, rfl⟩
  · simp only [bind, Except.bind, hcall]
    exact ⟨_, rfl⟩

theorem findDevice_returns (hdevice : devicePath.WellFormed) (htype : fsType.WellFormed) :
    ∃ device, findDevice code outcomes fresh mountPoints devicePath fsType = .ok device := by
  obtain ⟨p, hp⟩ := exists_parsePath hdevice
  obtain ⟨node, hnode⟩ := getNode_returns h outcomes fresh (wellFormed_pathString p)
  have hram : TYPE_RAM_FS.WellFormed := wellFormed_ofChars.mpr (by decide)
  unfold findDevice
  rw [hp fresh, htype.equals hram]
  simp only [bind, Except.bind, hnode]
  split
  · exact ⟨_, rfl⟩
  · split
    · exact ⟨_, rfl⟩
    · exact ⟨_, rfl⟩

omit h in
/-- A call that fails changes nothing. A mount point is added where there was none. -/
def MountEffect (code : String → Nat) (mountPoints : HashMap String D) (p : List Name)
    (result : ReturnCode) (mountPoints' : HashMap String D) : Prop :=
  if result = .SUCCESS then
    ¬Mounted code mountPoints p ∧
      ∃ driver, driverAt code mountPoints' = Function.update (driverAt code mountPoints) p
        (some driver)
  else mountPoints' = mountPoints

omit h in
/-- A call that fails changes nothing. A mount point is removed that has no other
mount point below it. -/
def UnmountEffect (code : String → Nat) (mountPoints : HashMap String D) (p : List Name)
    (result : ReturnCode) (mountPoints' : HashMap String D) : Prop :=
  if result = .SUCCESS then
    Mounted code mountPoints p ∧ (∀ q, p <+: q → Mounted code mountPoints q → q = p) ∧
      driverAt code mountPoints' = Function.update (driverAt code mountPoints) p none
  else mountPoints' = mountPoints

theorem mount_effect {targetPath : String} (hdevice : devicePath.WellFormed)
    (htype : fsType.WellFormed) (hp : ∀ fresh, parsePath fresh targetPath = .ok (pathString p)) :
    mount code outcomes fresh mountPoints devicePath targetPath fsType =
      .error (.throwException .UNKNOWN_TYPE) ∨
      ∃ result mountPoints', mount code outcomes fresh mountPoints devicePath targetPath fsType =
          .ok (result, mountPoints') ∧ MountTable code mountPoints' ∧
        MountEffect code mountPoints p result mountPoints' := by
  obtain ⟨device, hfind⟩ := findDevice_returns h outcomes fresh hdevice htype
  obtain ⟨node, hnode⟩ := getNode_returns h outcomes fresh (wellFormed_mountString p)
  unfold mount
  rw [hfind]
  simp only [bind, Except.bind]
  cases device with
  | none => exact .inr ⟨_, _, rfl, h, rfl⟩
  | some disk =>
    simp only [hp fresh, plus_separator, hnode]
    split
    · exact .inr ⟨_, _, rfl, h, rfl⟩
    · split
      · exact .inr ⟨_, _, rfl, h, rfl⟩
      · rename_i hfree
        split
        · exact .inl rfl
        · rename_i driver _
          split
          · obtain ⟨htable, hdrivers⟩ := h.put p driver
            exact .inr ⟨_, _, rfl, htable, hfree, driver, hdrivers⟩
          · exact .inr ⟨_, _, rfl, h, rfl⟩

omit h in
theorem isBelow_eq (p : List Name) {key : String} (hkey : key.WellFormed) :
    isBelow fresh (mountString p) key =
      .ok (decide ((mountString p).chars <+: key.chars) &&
        !(key.chars == (mountString p).chars)) := by
  unfold isBelow
  rw [beginsWith_eq hkey _ (wellFormed_mountString p), hkey.equals (wellFormed_mountString p)]
  by_cases hpre : (mountString p).chars <+: key.chars <;> simp [hpre] <;> rfl

omit h in
theorem anyM_eq_ok {α : Type} {f : α → Except Cpu.Stop Bool} {g : α → Bool} {l : List α}
    (hf : ∀ a ∈ l, f a = .ok (g a)) : l.anyM f = .ok (l.any g) := by
  induction l with
  | nil => rfl
  | cons a l ih =>
    obtain ⟨ha, hl⟩ := List.forall_mem_cons.mp hf
    rw [List.anyM, ha, List.any_cons]
    cases hg : g a with
    | true => rfl
    | false => exact ih hl

theorem anyM_isBelow (p : List Name) :
    ∃ found, mountPoints.keySet.anyM (isBelow fresh (mountString p)) = .ok found ∧
      (found = true ↔ ∃ q, p <+: q ∧ q ≠ p ∧ Mounted code mountPoints q) := by
  obtain ⟨m, hm⟩ := h.represents
  refine ⟨_, anyM_eq_ok fun key hkey => isBelow_eq fresh p (hm.used_of_mem_keySet hkey), ?_⟩
  simp only [List.any_eq_true, Bool.and_eq_true, decide_eq_true_eq, Bool.not_eq_true',
    beq_eq_false_iff_ne]
  constructor
  · rintro ⟨key, hkey, hpre, hne⟩
    obtain ⟨q, rfl⟩ := h.canonical key hkey
    exact ⟨q, mountString_prefix_iff.mp hpre, fun heq => hne (heq ▸ rfl),
      (h.mounted_iff q).mpr hkey⟩
  · rintro ⟨q, hpre, hne, hmounted⟩
    refine ⟨mountString q, (h.mounted_iff q).mp hmounted, mountString_prefix_iff.mpr hpre,
      fun heq => hne ?_⟩
    apply mountString_injective
    rw [(wellFormed_mountString q).eq_ofChars, heq]
    rfl

theorem unmount_effect {path : String} (hpath : path.WellFormed)
    (hp : ∀ fresh, parsePath fresh path = .ok (pathString p)) :
    ∃ result mountPoints', unmount code outcomes fresh mountPoints path =
      .ok (result, mountPoints') ∧
      MountTable code mountPoints' ∧ UnmountEffect code mountPoints p result mountPoints' := by
  obtain ⟨node, hnode⟩ := getNode_returns h outcomes fresh (wellFormed_mountString p)
  obtain ⟨found, hany, hfound⟩ := anyM_isBelow h fresh p
  have hroot : SEPARATOR.WellFormed := wellFormed_ofChars.mpr (by decide)
  unfold unmount
  rw [hp fresh]
  simp only [bind, Except.bind, plus_separator, hnode, hany, hpath.equals hroot]
  split
  · exact ⟨_, _, rfl, h, rfl⟩
  · split
    · exact ⟨_, _, rfl, h, rfl⟩
    · rename_i hnone
      split
      · rename_i hmounted
        obtain ⟨driver, hget⟩ := h.get_of_mounted hmounted
        obtain ⟨_, mountPoints', hremove, htable, hdrivers⟩ := h.remove hmounted
        rw [hget]
        simp only [hremove]
        refine ⟨_, _, rfl, htable, hmounted, fun q hpre hq => ?_, hdrivers⟩
        by_contra hne
        exact hnone (hfound.mpr ⟨q, hpre, hne, hq⟩)
      · exact ⟨_, _, rfl, h, rfl⟩

end Effects

inductive Call
  | mount (devicePath targetPath fsType : String)
  | unmount (path : String)

def Call.WellFormed : Call → Prop
  | .mount devicePath targetPath fsType =>
      devicePath.WellFormed ∧ targetPath.WellFormed ∧ fsType.WellFormed
  | .unmount path => path.WellFormed

variable {D : Type}

def call (code : String → Nat) (outcomes : Outcomes D) (fresh : Nat → UInt8)
    (mountPoints : HashMap String D) :
    Call → Except Cpu.Stop (ReturnCode × HashMap String D)
  | .mount devicePath targetPath fsType =>
      mount code outcomes fresh mountPoints devicePath targetPath fsType
  | .unmount path => unmount code outcomes fresh mountPoints path

def Effect (code : String → Nat) (mountPoints : HashMap String D) (result : ReturnCode)
    (mountPoints' : HashMap String D) : Call → Prop
  | .mount _ targetPath _ => ∃ p, (∀ fresh, parsePath fresh targetPath = .ok (pathString p)) ∧
      MountEffect code mountPoints p result mountPoints'
  | .unmount path => ∃ p, (∀ fresh, parsePath fresh path = .ok (pathString p)) ∧
      UnmountEffect code mountPoints p result mountPoints'

def Step (code : String → Nat) (mountPoints : HashMap String D) (c : Call)
    (mountPoints' : HashMap String D) : Prop :=
  c.WellFormed ∧ ∃ outcomes fresh result, call code outcomes fresh mountPoints c =
    .ok (result, mountPoints')

/-- Every call returns, or stops because there is no driver of the type. -/
theorem call_effect {code : String → Nat} {mountPoints : HashMap String D}
    (h : MountTable code mountPoints) (outcomes : Outcomes D) (fresh : Nat → UInt8) {c : Call}
    (hc : c.WellFormed) :
    call code outcomes fresh mountPoints c = .error (.throwException .UNKNOWN_TYPE) ∨
      ∃ result mountPoints', call code outcomes fresh mountPoints c = .ok (result, mountPoints') ∧
        MountTable code mountPoints' ∧ Effect code mountPoints result mountPoints' c := by
  cases c with
  | mount devicePath targetPath fsType =>
    obtain ⟨hdevice, htarget, htype⟩ := hc
    obtain ⟨p, hp⟩ := exists_parsePath htarget
    rcases mount_effect h outcomes fresh hdevice htype hp with
      hstop | ⟨result, mountPoints', hcall, htable, heffect⟩
    · exact .inl hstop
    · exact .inr ⟨result, mountPoints', hcall, htable, p, hp, heffect⟩
  | unmount path =>
    obtain ⟨p, hp⟩ := exists_parsePath hc
    obtain ⟨result, mountPoints', hcall, htable, heffect⟩ := unmount_effect h outcomes fresh hc hp
    exact .inr ⟨result, mountPoints', hcall, htable, p, hp, heffect⟩

/-- After every run of calls the keys are canonical, and the next call changes the
table as it has to. -/
theorem mountTable_of_run {code : String → Nat} {calls : List Call} {mountPoints : HashMap String D}
    (hrun : Run (Step code) (HashMap.new String D) calls mountPoints) :
    (∀ key ∈ mountPoints.keySet, ∃ p, key = mountString p) ∧
      ∀ (outcomes : Outcomes D) (fresh : Nat → UInt8) (c : Call), c.WellFormed →
        call code outcomes fresh mountPoints c = .error (.throwException .UNKNOWN_TYPE) ∨
          ∃ result mountPoints', call code outcomes fresh mountPoints c =
            .ok (result, mountPoints') ∧
            Effect code mountPoints result mountPoints' c := by
  have hstep : ∀ (s : HashMap String D) c s', MountTable code s → Step code s c s' →
      MountTable code s' := by
    rintro s c s' h ⟨hc, outcomes, fresh, result, hcall⟩
    rcases call_effect h outcomes fresh hc with hstop | ⟨_, _, hcall', htable, -⟩
    · rw [hcall] at hstop
      cases hstop
    · rw [hcall, Except.ok.injEq, Prod.mk.injEq] at hcall'
      exact hcall'.2 ▸ htable
  have h := hrun.invariant hstep (mountTable_new code D)
  refine ⟨h.canonical, fun outcomes fresh c hc => ?_⟩
  rcases call_effect h outcomes fresh hc with hstop | ⟨result, mountPoints', hcall, -, heffect⟩
  · exact .inl hstop
  · exact .inr ⟨result, mountPoints', hcall, heffect⟩

/-- Another RamFs is mounted below that at "/", which cannot be unmounted then. -/
theorem mountTable_of_run_nested :
    ∃ mountPoints, Run (Step fun _ => 0) (HashMap.new String Nat)
        [.mount (.ofChars []) SEPARATOR TYPE_RAM_FS,
          .mount (.ofChars []) (.ofChars [47, 100, 101, 118, 47, 46, 46, 47, 100]) TYPE_RAM_FS]
            mountPoints ∧
      mountPoints.keySet = [.ofChars [47], .ofChars [47, 100, 47]] ∧
      (∀ key ∈ mountPoints.keySet, ∃ p, key = mountString p) ∧
      unmount (fun _ => 0) ⟨fun _ _ => none, fun _ => none, fun _ => none, fun _ _ => true⟩
        (fun _ => 255) mountPoints
        SEPARATOR = .ok (.SUBDIRECTORY_CONTAINS_MOUNT_POINT, mountPoints) := by
  have hempty : (ofChars []).WellFormed := wellFormed_ofChars.mpr (by decide)
  have hroot : SEPARATOR.WellFormed := wellFormed_ofChars.mpr (by decide)
  have hpath : (ofChars [47, 100, 101, 118, 47, 46, 46, 47, 100]).WellFormed :=
    wellFormed_ofChars.mpr (by decide)
  have hram : TYPE_RAM_FS.WellFormed := wellFormed_ofChars.mpr (by decide)
  have hrun : Run (Step fun _ => 0) (HashMap.new String Nat)
      [.mount (.ofChars []) SEPARATOR TYPE_RAM_FS,
        .mount (.ofChars []) (.ofChars [47, 100, 101, 118, 47, 46, 46, 47, 100]) TYPE_RAM_FS]
      (((HashMap.new String Nat).put (fun _ => 0) (.ofChars [47]) 7).put (fun _ => 0)
        (.ofChars [47, 100, 47]) 7) :=
    .next ⟨⟨hempty, hroot, hram⟩,
      ⟨fun _ _ => none, fun _ => none, fun _ => some 7, fun _ _ => true⟩, fun _ => 255,
        .SUCCESS, rfl⟩ <|
    .next ⟨⟨hempty, hpath, hram⟩,
      ⟨fun _ _ => some (.ofChars []), fun _ => none, fun _ => some 7, fun _ _ => true⟩,
        fun _ => 255, .SUCCESS, rfl⟩ <|
    .done _
  exact ⟨_, hrun, rfl, (mountTable_of_run hrun).1, rfl⟩

end HuyaOS.Filesystem
