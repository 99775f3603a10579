import HuyaOS.Filesystem.FileCalls
import HuyaOS.Filesystem.RamFsRuns
import HuyaOS.Storage.DeviceEvents

/-!
The nodes of the storage devices in "/dev/storage", which `Filesystem::onEvent` keeps up
to date. For a device that is added, an old node with its name is deleted and a new
node is made. The branch for a device that is removed tests for the type of the event
of an added device once more, so it is never taken: the nodes are those of all devices
that have ever been added.
-/

namespace HuyaOS.Filesystem

open Lib Storage RamFsDriver Storage.StorageService Function List HuyaOS.String

def DEV_STORAGE : String := .ofChars [47, 100, 101, 118, 47, 115, 116, 111, 114, 97, 103, 101, 47]

def BLOCK_FILE : UInt8 := 2

/-- A driver whose `getTypeName` is "RamFsDriver", or one of another type. -/
inductive FsDriver (O : Type)
  | ramFs (driver : RamFsDriver)
  | other (driver : O)

/-- The mount points, with the drivers that the pointers in the table lead to. -/
structure State (D O : Type) where
  mountPoints : HashMap String D
  drivers : D → FsDriver O

section Calls

-- how drivers of other types delete nodes, and the levels that the destructors of nodes may need
variable {D O : Type} [DecidableEq D] (code : String → Nat) (otherDelete : O → String → Bool × O)
  (fresh : Nat → UInt8) (depth : Nat)

def FsDriver.deleteNode (driver : FsDriver O) (path : String) :
    Except Cpu.Stop (Bool × FsDriver O) :=
  match driver with
  | .ramFs driver => do
      let (ret, driver) ← driver.deleteNode fresh depth path
      return (ret, .ramFs driver)
  | .other driver => .ok ((otherDelete driver path).1, .other (otherDelete driver path).2)

/-- `deleteNode` of the driver that the pointer leads to -/
def deleteNodeOf (d : D) (path : String) (drivers : D → FsDriver O) :
    Except Cpu.Stop (Bool × (D → FsDriver O)) := do
  let (ret, driver) ← (drivers d).deleteNode otherDelete fresh depth path
  return (ret, update drivers d driver)

namespace State

variable (s : State D O)

def setDriver (d : D) (driver : FsDriver O) : State D O :=
  { s with drivers := update s.drivers d driver }

def deleteFile (path : String) : Except Cpu.Stop (FileCode × State D O) := do
  let (result, drivers) ← Filesystem.deleteFile (deleteNodeOf otherDelete fresh depth) code fresh
    s.mountPoints path s.drivers
  return (result, { s with drivers })

/-- `addVirtualNode` with a node that was just made: its address, its name and its type -/
def addVirtualNode (path : String) (node : Nat) (name : String) (fileType : UInt8) :
    Except Cpu.Stop (FileCode × State D O) := do
  let parsedPath ← parsePath fresh path
  let (driver, parsedPath) ← getMountedDriver code fresh s.mountPoints parsedPath
  match driver with
  | none => throw .nullPointer
  | some d =>
      match s.drivers d with
      | .other _ => return (.ADDING_VIRTUAL_NODE_FAILED, s)
      | .ramFs driver =>
          let (ret, driver) ← (driver.newNode node name fileType).addNode fresh parsedPath node
          return (if ret then .SUCCESS else .ADDING_VIRTUAL_NODE_FAILED,
            s.setDriver d (.ramFs driver))

/-- `onEvent`, with the address of the `StorageNode` that it makes -/
def onEvent (node : Nat) : StorageEvent → Except Cpu.Stop (State D O)
  | .add device => do
      let (_, s) ← s.deleteFile code otherDelete fresh depth (DEV_STORAGE.plus device.getName)
      let (_, s) ← s.addVirtualNode code fresh DEV_STORAGE node device.getName BLOCK_FILE
      return s
  -- both tests are for the type of `StorageAddEvent`
  | .remove _ => .ok s

end State

def RamFsDriver.getChildren (fs : RamFsDriver) (a : Nat) : Except Cpu.Stop (List String) := do
  let node ← Cpu.deref fs.heap (some a)
  node.children.toArray.mapM fun child => do
    let child ← Cpu.deref fs.heap (some child)
    return child.getName

/-- The children of the node that `Filesystem::getNode` finds. Nodes of other drivers have
the children `otherChildren`. -/
def State.getChildren (otherChildren : O → String → Option (List String)) (s : State D O)
    (path : String) :
    Except Cpu.Stop (Option (List String)) := do
  let parsedPath ← parsePath fresh path
  let (driver, parsedPath) ← getMountedDriver code fresh s.mountPoints parsedPath
  match driver with
  | none => return none
  | some d =>
      match s.drivers d with
      | .other driver => return otherChildren driver parsedPath
      | .ramFs driver =>
          match ← driver.getNode fresh parsedPath with
          | none => return none
          | some a => return some (← driver.getChildren a)

end Calls

def DEV : Name := nameDev
def STORAGE : Name :=
  ⟨[115, 116, 111, 114, 97, 103, 101], by decide, by decide, by decide, by decide, by decide⟩

/-- A path with other names than "." and ".." is entered name by name. -/
theorem parsePath_of_components (fresh : Nat → UInt8) {path : String} {p : List Name}
    (hpath : components slash path.chars = p.map Name.chars) :
    parsePath fresh path = .ok (pathString p) := by
  have hentered : ∀ c ∈ p.map Name.chars, isDot c = false ∧ isDotDot c = false := by
    intro c hc
    obtain ⟨name, -, rfl⟩ := mem_map.mp hc
    rw [isDot, isDotDot, cString_of_not_mem name.zero_notMem, beq_eq_false_iff_ne,
      beq_eq_false_iff_ne]
    exact ⟨name.ne_dot, name.ne_dotDot⟩
  rw [parsePath_eq, canonical, hpath, resolve, foldl_walk_enters [] hentered]
  rfl

theorem components_name (name : Name) : components slash name.chars = [name.chars] := by
  rw [components_of_notMem name.slash_notMem]
  exact filter_cons_of_pos (decide_eq_true name.ne_nil)

theorem parsePath_device (fresh : Nat → UInt8) (name : Name) :
    parsePath fresh (DEV_STORAGE.plus (.ofChars name.chars)) =
      .ok (pathString [DEV, STORAGE, name]) := by
  apply parsePath_of_components
  change components slash ([47, 100, 101, 118, 47, 115, 116, 111, 114, 97, 103, 101] ++
    slash :: name.chars) = _
  rw [components_append, components_name]
  rfl

theorem parsePath_storage (fresh : Nat → UInt8) :
    parsePath fresh DEV_STORAGE = .ok (pathString [DEV, STORAGE]) :=
  parsePath_of_components fresh rfl

/-- The directory "storage" has children with the given names, which have no children. -/
structure Listing (fs : RamFsDriver) (root : Nat) (names : Set (List UInt8)) : Prop where
  tree : fs.Tree root
  directory : ∃ dir, follow (childOf fs.heap) root [STORAGE.chars] = some dir ∧
    isDirectory fs.heap dir = true
  childless : ∀ n m, follow (childOf fs.heap) root [STORAGE.chars, n, m] = none
  names : ∀ n, (follow (childOf fs.heap) root [STORAGE.chars, n]).isSome = true ↔ n ∈ names

namespace Listing

variable {fs : RamFsDriver} {root : Nat} {names : Set (List UInt8)} (h : Listing fs root names)
  (fresh : Nat → UInt8) (name : Name) {n : List UInt8} {node : Nat}

include h

theorem redirects {fs' : RamFsDriver} {target : Option Nat} (htree : fs'.Tree root)
    (hkeeps : KeepsDirectories fs.heap fs'.heap)
    (hredirects : fs.Redirects fs' root [STORAGE.chars, n] target) {names' : Set (List UInt8)}
    (hself : n ∈ names' ↔ target.isSome = true) (hothers : ∀ m ≠ n, m ∈ names' ↔ m ∈ names) :
    Listing fs' root names' where
  tree := htree
  directory := by
    obtain ⟨dir, hdir, hdirectory⟩ := h.directory
    have hdir' : follow (childOf fs'.heap) root [STORAGE.chars] = some dir := by
      rw [hredirects, if_neg (by simp)]
      exact hdir
    exact ⟨dir, hdir', (hkeeps dir (htree.ne_none_of_follow hdir')).trans hdirectory⟩
  childless m k := by
    rw [hredirects, if_neg (by simp)]
    exact h.childless m k
  names m := by
    by_cases hm : m = n
    · rw [hredirects, if_pos (by rw [hm]), hm, hself]
    · rw [hredirects, if_neg (by simpa using hm), hothers m hm]
      exact h.names m

theorem kids_eq_nil {a : Nat} (ha : follow (childOf fs.heap) root [STORAGE.chars, n] = some a) :
    kids fs.heap a = [] := by
  by_contra hne
  obtain ⟨c, hc⟩ := exists_mem_of_ne_nil _ hne
  have hchild : childOf fs.heap a (nameOf fs.heap c) = some c :=
    h.tree.isTree.child_eq_some_iff.mpr ⟨hc, rfl⟩
  have hfollow := h.childless n (nameOf fs.heap c)
  rw [show [STORAGE.chars, n, nameOf fs.heap c] = [STORAGE.chars, n] ++ [nameOf fs.heap c] from rfl,
    follow_concat, ha, Option.bind_some, hchild] at hfollow
  cases hfollow

theorem deleteNode (depth : Nat) :
    ∃ result fs', fs.deleteNode fresh (depth + 1) (driverPath [STORAGE, name]) =
        .ok (result, fs') ∧ Listing fs' root (names \ {name.chars}) := by
  have hparts : components slash (driverPath [STORAGE, name]).chars =
      [STORAGE.chars] ++ [name.chars] := components_driverPath [STORAGE, name]
  obtain ⟨result, fs', hcall, htree, hkeeps, hresult, heffect⟩ :=
    h.tree.deleteNode fresh (wellFormed_driverPath [STORAGE, name]) hparts (fun _ ha =>
      h.kids_eq_nil ha) depth
  refine ⟨result, fs', hcall, ?_⟩
  cases result with
  | true =>
    apply h.redirects htree hkeeps heffect
    · simp
    · exact fun m hm => and_iff_left hm
  | false =>
    have hnone : name.chars ∉ names :=
      fun hmem => Bool.false_ne_true (hresult.mpr ((h.names _).mpr hmem))
    rw [Set.sdiff_singleton_eq_self hnone, heffect]
    exact h

theorem newNode (hfree : fs.heap node = none) {string : String} (hname : string.WellFormed)
    (fileType : UInt8) : Listing (fs.newNode node string fileType) root names := by
  obtain ⟨htree, hsame, -⟩ := h.tree.newNode hfree hname fileType
  obtain ⟨dir, hdir, hdirectory⟩ := h.directory
  have hne : dir ≠ node := by
    rintro rfl
    exact ne_none_of_isDirectory hdirectory hfree
  have hdirectory' : isDirectory (fs.newNode node string fileType).heap dir = true :=
    (isDirectory_congr (congrArg _ (update_of_ne hne _ _))).trans hdirectory
  refine ⟨htree, ⟨dir, ?_, hdirectory'⟩, ?_, ?_⟩
  · rw [hsame]
    exact hdir
  · rw [hsame]
    exact h.childless
  · rw [hsame]
    exact h.names

theorem addNode (hfree : fs.heap node = none) (fileType : UInt8) (hnew : name.chars ∉ names) :
    ∃ fs', (fs.newNode node (.ofChars name.chars) fileType).addNode fresh
        (driverPath [STORAGE]) node = .ok (true, fs') ∧
      Listing fs' root (insert name.chars names) := by
  have hname : (ofChars name.chars).WellFormed := wellFormed_ofChars.mpr name.zero_notMem
  have hlisting := h.newNode hfree hname fileType
  obtain ⟨htree, -, hdetached⟩ := h.tree.newNode hfree hname fileType
  have hnameOf : nameOf (fs.newNode node (.ofChars name.chars) fileType).heap node = name.chars :=
    nameOf_of_some (update_self _ _ _)
  obtain ⟨result, fs', hcall, htree', hkeeps, hresult, heffect⟩ :=
    htree.addNode fresh (wellFormed_driverPath [STORAGE]) hdetached
  have hroom :
      HasRoom (fs.newNode node (.ofChars name.chars) fileType) root [STORAGE.chars] name.chars :=
    ⟨hlisting.directory, Option.not_isSome_iff_eq_none.mp fun hsome =>
      hnew ((hlisting.names _).mp hsome)⟩
  rw [hnameOf] at hresult heffect
  obtain rfl : result = true := hresult.mpr hroom
  refine ⟨fs', hcall, ?_⟩
  apply hlisting.redirects htree' hkeeps heffect.2
  · exact iff_of_true (Set.mem_insert _ _) rfl
  · exact fun m hm => Set.mem_insert_iff.trans (or_iff_right hm)

theorem getChildren :
    ∃ dir list, fs.getNode fresh (driverPath [STORAGE]) = .ok (some dir) ∧
      fs.getChildren dir = .ok list ∧ list.Nodup ∧ ∀ string, string ∈ list ↔
        ∃ n ∈ names, string = .ofChars n := by
  obtain ⟨dir, hdir, hdirectory⟩ := h.directory
  obtain ⟨node, hnode⟩ := Option.ne_none_iff_exists'.mp (ne_none_of_isDirectory hdirectory)
  refine ⟨dir, (kids fs.heap dir).map fun c => .ofChars (nameOf fs.heap c), ?_, ?_, ?_,
    fun string => ?_⟩
  · rw [h.tree.getNode_eq fresh (wellFormed_driverPath [STORAGE])]
    exact congrArg Except.ok hdir
  · unfold RamFsDriver.getChildren
    rw [Cpu.deref_some hnode]
    refine (congrArg (mapM _) (kids_of_some hnode).symm).trans (mapM_eq_pure fun c hc => ?_)
    obtain ⟨child, hchild⟩ := Option.ne_none_iff_exists'.mp (h.tree.allocated dir c hc)
    rw [Cpu.deref_some hchild, nameOf_of_some hchild]
    rfl
  · have hinj : Injective ofChars := fun a b hab => congrArg chars hab
    have hdistinct : ((kids fs.heap dir).map (nameOf fs.heap)).Nodup := h.tree.isTree.distinct dir
    have hmap := hdistinct.map hinj
    rwa [map_map] at hmap
  · have hchild : ∀ n, n ∈ names ↔ ∃ c ∈ kids fs.heap dir, nameOf fs.heap c = n := by
      intro n
      rw [← h.names n, show [STORAGE.chars, n] = [STORAGE.chars] ++ [n] from rfl,
        follow_concat, hdir, Option.isSome_iff_exists]
      exact exists_congr fun c => h.tree.isTree.child_eq_some_iff
    simp only [mem_map, hchild]
    constructor
    · rintro ⟨c, hc, rfl⟩
      exact ⟨_, ⟨c, hc, rfl⟩, rfl⟩
    · rintro ⟨_, ⟨c, hc, rfl⟩, rfl⟩
      exact ⟨c, hc, rfl⟩

end Listing

/-- A RamFs is mounted at "/dev" and nothing below it, and its directory "storage" has the
given names. -/
structure DeviceTree {D O : Type} (code : String → Nat) (dev : D) (root : Nat) (s : State D O)
    (names : Set (List UInt8)) : Prop where
  table : MountTable code s.mountPoints
  mounted : driverAt code s.mountPoints [DEV] = some dev
  last : ∀ q, [DEV] <+: q → Mounted code s.mountPoints q → q = [DEV]
  listing : ∃ fs, s.drivers dev = .ramFs fs ∧ Listing fs root names

/-- The address is not in use. -/
def State.Free {D O : Type} (s : State D O) (node : Nat) : Prop :=
  ∀ d fs, s.drivers d = .ramFs fs → fs.heap node = none

/-- An event is delivered. The new node gets an address that is free then. -/
def Delivers {D O : Type} [DecidableEq D] (code : String → Nat)
    (otherDelete : O → String → Bool × O) (s : State D O) (event : StorageEvent) (s' : State D O) :
    Prop :=
  ∃ fresh depth node, s.onEvent code otherDelete fresh (depth + 1) node event = .ok s' ∧
    ∀ device result next, event = .add device →
      s.deleteFile code otherDelete fresh (depth + 1) (DEV_STORAGE.plus device.getName) =
        .ok (result, next) →
      next.Free node

namespace DeviceTree

variable {D O : Type} {code : String → Nat} {dev : D} {root : Nat} {s : State D O}
  {names : Set (List UInt8)} (h : DeviceTree code dev root s names) (fresh : Nat → UInt8)
  {otherDelete : O → String → Bool × O} {s' : State D O}

include h

theorem getMountedDriver (rest : List Name) :
    Filesystem.getMountedDriver code fresh s.mountPoints (pathString (DEV :: rest)) =
      .ok (some dev, driverPath rest) := by
  have hmounted : Mounted code s.mountPoints [DEV] := by
    rw [h.table.mounted_iff_driverAt, h.mounted]
    rfl
  have hlongest : ∀ b, b <+: DEV :: rest → Mounted code s.mountPoints b →
      b.length ≤ [DEV].length := by
    intro b hb hbMounted
    by_contra hlong
    have hpre : [DEV] <+: b :=
      prefix_of_prefix_length_le (prefix_append [DEV] rest) hb (not_le.mp hlong).le
    exact hlong (h.last b hpre hbMounted ▸ le_rfl)
  obtain ⟨driver, path, hcall, -, hfound⟩ := getMountedDriver_longest h.table fresh (DEV :: rest)
  obtain ⟨⟨d, rfl, hget⟩, rfl⟩ := hfound [DEV] rest rfl hmounted hlongest
  obtain rfl : dev = d := by
    have heq := h.mounted
    unfold driverAt at heq
    rw [hget] at heq
    exact (Option.some.inj heq).symm
  exact hcall

theorem not_mounted_device (name : Name) :
    ¬(MountedBelow code s.mountPoints [DEV, STORAGE, name] ∨
      MountedBeside code s.mountPoints [DEV, STORAGE, name]) := by
  rintro (⟨q, hmounted, hpre⟩ | ⟨dirs, last, longer, rest, heq, hmounted, -, -⟩)
  · obtain rfl := h.last q ((prefix_append [DEV] [STORAGE, name]).trans hpre) hmounted
    exact absurd hpre.length_le (by simp)
  · obtain ⟨rfl, -⟩ := append_inj' (show [DEV, STORAGE] ++ [name] = dirs ++ [last] from heq) rfl
    have hlast := h.last _ (prefix_append [DEV] (STORAGE :: longer :: rest)) hmounted
    exact absurd hlast (by simp)

variable [DecidableEq D]

theorem setDriver {fs : RamFsDriver} {names' : Set (List UInt8)}
    (hlisting : Listing fs root names') :
    DeviceTree code dev root (s.setDriver dev (.ramFs fs)) names' where
  table := h.table
  mounted := h.mounted
  last := h.last
  listing := ⟨fs, update_self _ _ _, hlisting⟩

theorem deleteFile (otherDelete : O → String → Bool × O) (depth : Nat) (name : Name) :
    ∃ result s', s.deleteFile code otherDelete fresh (depth + 1)
      (DEV_STORAGE.plus (.ofChars name.chars)) =
        .ok (result, s') ∧ DeviceTree code dev root s' (names \ {name.chars}) := by
  obtain ⟨fs, hfs, hlisting⟩ := h.listing
  obtain ⟨result, fs', hcall, hlisting'⟩ := hlisting.deleteNode fresh name depth
  refine ⟨if result then .SUCCESS else .DELETING_FILE_FAILED, _, ?_, h.setDriver hlisting'⟩
  unfold State.deleteFile
  rw [((deleteFile_cases _ h.table fresh (parsePath_device · name) s.drivers).resolve_left
    fun hguard => h.not_mounted_device name hguard.1).2]
  unfold deleteByDriver
  simp only [bind, Except.bind, h.getMountedDriver, deleteNodeOf, hfs, FsDriver.deleteNode, hcall]
  rfl

theorem addVirtualNode {node : Nat} (name : Name)
    (hfree : ∀ fs, s.drivers dev = .ramFs fs → fs.heap node = none) (hnew : name.chars ∉ names)
    (fileType : UInt8) :
    ∃ s', s.addVirtualNode code fresh DEV_STORAGE node (.ofChars name.chars) fileType =
      .ok (.SUCCESS, s') ∧
      DeviceTree code dev root s' (insert name.chars names) := by
  obtain ⟨fs, hfs, hlisting⟩ := h.listing
  obtain ⟨fs', hcall, hlisting'⟩ := hlisting.addNode fresh name (hfree fs hfs) fileType hnew
  refine ⟨_, ?_, h.setDriver hlisting'⟩
  unfold State.addVirtualNode
  rw [parsePath_storage]
  simp only [bind, Except.bind, h.getMountedDriver, hfs, hcall]
  rfl

theorem delivers {event : StorageEvent} (hdelivers : Delivers code otherDelete s event s')
    (hnames : ∀ name, Added [event] name → IsFileName name) :
    DeviceTree code dev root s' (names ∪ {n | Added [event] (.ofChars n)}) := by
  obtain ⟨fresh, depth, node, hcall, hfree⟩ := hdelivers
  cases event with
  | add device =>
    obtain ⟨name, hname⟩ := hnames device.getName (added_add.mpr rfl)
    obtain ⟨result, next, hdelete, hnext⟩ := h.deleteFile fresh otherDelete depth name
    rw [← hname] at hdelete
    have hnode := hfree device result next rfl hdelete dev
    have hnew : name.chars ∉ names \ {name.chars} := fun hmem => hmem.2 rfl
    obtain ⟨last, hadd, hlast⟩ := hnext.addVirtualNode fresh name hnode hnew BLOCK_FILE
    rw [← hname] at hadd
    unfold State.onEvent at hcall
    simp only [bind, Except.bind, hdelete, hadd] at hcall
    cases hcall
    have hset : insert name.chars (names \ {name.chars}) =
        names ∪ {n | Added [.add device] (.ofChars n)} := by
      ext n
      rw [Set.insert_sdiff_singleton, Set.mem_insert_iff, or_comm]
      refine or_congr_right (Iff.trans ?_ added_add.symm)
      rw [hname]
      exact ⟨congrArg ofChars, congrArg chars⟩
    exact hset ▸ hlast
  | remove deviceName =>
    cases hcall
    have hset : names ∪ {n | Added [.remove deviceName] (.ofChars n)} = names :=
      Set.union_eq_self_of_subset_right fun n hn => absurd hn not_added_remove
    exact hset.symm ▸ h

/-- After a run of events there are nodes for all devices that have been added. -/
theorem run {events : List StorageEvent} (hrun : Run (Delivers code otherDelete) s events s')
    (hnames : ∀ name, Added events name → IsFileName name) :
    DeviceTree code dev root s' (names ∪ {n | Added events (.ofChars n)}) := by
  induction hrun generalizing names with
  | done s =>
    have hset : names ∪ {n | Added [] (.ofChars n)} = names :=
      Set.union_eq_self_of_subset_right fun n hn => by
        obtain ⟨device, hmem, -⟩ := hn
        cases hmem
    exact hset.symm ▸ h
  | @next s _ _ event events hone _ ih =>
    have hcons : ∀ name, Added ([event] ++ events) name ↔ Added [event] name ∨ Added events name :=
      fun _ =>
      added_append
    have hlast := ih (h.delivers hone fun name hadd => hnames name ((hcons name).mpr (.inl hadd)))
      fun name hadd => hnames name ((hcons name).mpr (.inr hadd))
    have hset : names ∪ {n | Added [event] (.ofChars n)} ∪ {n | Added events (.ofChars n)} =
        names ∪ {n | Added (event :: events) (.ofChars n)} := by
      ext n
      rw [Set.union_assoc]
      exact or_congr_right (hcons _).symm
    exact hset ▸ hlast

omit [DecidableEq D] in
theorem getChildren (otherChildren : O → String → Option (List String)) :
    ∃ list, s.getChildren code fresh otherChildren DEV_STORAGE = .ok (some list) ∧ list.Nodup ∧
      ∀ name, name ∈ list ↔ ∃ n ∈ names, name = .ofChars n := by
  obtain ⟨fs, hfs, hlisting⟩ := h.listing
  obtain ⟨dir, list, hnode, hlist, hnodup, hmem⟩ := hlisting.getChildren fresh
  refine ⟨list, ?_, hnodup, hmem⟩
  unfold State.getChildren
  rw [parsePath_storage]
  simp only [bind, Except.bind, h.getMountedDriver, hfs, hnode, hlist]
  rfl

end DeviceTree

/-- The children of "/dev/storage" are the devices in the map. -/
def Mirrors {D O : Type} (code : String → Nat) (s : State D O) (service : StorageService) : Prop :=
  ∀ fresh otherChildren, ∃ list, s.getChildren code fresh otherChildren DEV_STORAGE =
    .ok (some list) ∧ list.Nodup ∧
    ∀ name, name ∈ list ↔ name ∈ service.devices.keySet

/-- After any calls whose events have been delivered, the children of "/dev/storage" are the
devices in the map exactly if no device is missing there that has ever been added. -/
theorem mirrors_iff {D O : Type} [DecidableEq D] {code : String → Nat} {dev : D} {root : Nat}
    {s : State D O} (h : DeviceTree code dev root s ∅) (otherDelete : O → String → Bool × O)
    {calls : List StorageService.Call} (hcalls : ∀ c ∈ calls, c.Named) :
    ∃ service, calls.foldlM (StorageService.call code) .new = .ok service ∧
      ∀ s', Run (Delivers code otherDelete) s service.published s' →
        (Mirrors code s' service ↔
          ∀ device, StorageEvent.add device ∈ service.published →
            service.devices.containsKey code device.getName = true) := by
  obtain ⟨service, hservice, hpublished⟩ := published_new.run hcalls
  refine ⟨service, hservice, fun s' hrun => ?_⟩
  have htree := h.run hrun hpublished.isFileName
  rw [Set.empty_union] at htree
  obtain ⟨m, hm⟩ := hpublished.represents
  have hadded : ∀ name, (∃ n ∈ {n | Added service.published (.ofChars n)}, name = .ofChars n) ↔
      Added service.published name := by
    intro name
    constructor
    · rintro ⟨n, hn, rfl⟩
      exact hn
    · intro hname
      obtain ⟨n, rfl⟩ := hpublished.isFileName name hname
      exact ⟨n.chars, hname, rfl⟩
  have hkeys : ∀ name, Added service.published name →
      (name ∈ service.devices.keySet ↔ service.devices.containsKey code name = true) := by
    intro name hname
    have hwell := (hpublished.isFileName name hname).wellFormed
    rw [mem_keySet_iff hm, hm.containsKey hwell]
    exact and_iff_right hwell
  constructor
  · intro hmirrors device hdevice
    obtain ⟨list, hlist, -, hmem⟩ := hmirrors (fun _ => 0) fun _ _ => none
    obtain ⟨list', hlist', -, hmem'⟩ := htree.getChildren (fun _ => 0) fun _ _ => none
    cases hlist.symm.trans hlist'
    have hname : Added service.published device.getName := ⟨device, hdevice, rfl⟩
    exact (hkeys _ hname).mp ((hmem _).mp ((hmem' _).mpr ((hadded _).mpr hname)))
  · intro hstill fresh otherChildren
    obtain ⟨list, hlist, hnodup, hmem⟩ := htree.getChildren fresh otherChildren
    refine ⟨list, hlist, hnodup, fun name => ?_⟩
    rw [hmem, hadded]
    constructor
    · rintro ⟨device, hdevice, rfl⟩
      exact (hkeys _ ⟨device, hdevice, rfl⟩).mpr (hstill device hdevice)
    · exact hpublished.added name

/-- What `createDirectory` leaves of the RamFs at "/dev". -/
def storageDirectory : RamFsDriver :=
  match (RamFsDriver.mount 1).createNode (fun _ => 255) 2 (.ofChars STORAGE.chars)
    DIRECTORY_FILE with
  | .ok (_, fs) => fs
  | .error _ => RamFsDriver.mount 1

def withoutDevices : State Nat Unit where
  mountPoints :=
    ((HashMap.new String Nat).put (fun _ => 0) (mountString []) 0).put (fun _ => 0)
    (mountString [DEV]) 1
  drivers d := .ramFs (if d = 1 then storageDirectory else RamFsDriver.mount 1)

theorem deviceTree_withoutDevices : DeviceTree (fun _ => 0) 1 1 withoutDevices ∅ := by
  obtain ⟨h0, h0'⟩ := (mountTable_new (fun _ => 0) Nat).put [] 0
  obtain ⟨h1, h1'⟩ := h0.put [DEV] 1
  have hname : (ofChars STORAGE.chars).WellFormed := wellFormed_ofChars.mpr STORAGE.zero_notMem
  have hparts : components slash (ofChars STORAGE.chars).chars = [] ++ [STORAGE.chars] :=
    components_name STORAGE
  obtain ⟨_, fs, hcall, htree, -, -⟩ :=
    (tree_mount 1).createNode (fun _ => 255) hname hparts (c := 2) rfl DIRECTORY_FILE
  have hdirectory :
      (RamFsDriver.mount 1).createNode (fun _ => 255) 2 (.ofChars STORAGE.chars) DIRECTORY_FILE =
      .ok (true, storageDirectory) := rfl
  cases hdirectory.symm.trans hcall
  refine ⟨h1, ?_, fun q hpre hmounted => ?_, storageDirectory, rfl, htree, ⟨2, rfl, rfl⟩,
    fun _ _ => rfl, fun n => ?_⟩
  · exact (congrFun h1' [DEV]).trans (update_self _ _ _)
  · have hkeys : mountString q ∈ [mountString [], mountString [DEV]] :=
      (h1.mounted_iff q).mp hmounted
    rw [mem_cons, mem_singleton, mountString_injective.eq_iff,
      mountString_injective.eq_iff] at hkeys
    refine hkeys.resolve_left ?_
    rintro rfl
    cases prefix_nil.mp hpre
  · exact iff_of_false Bool.false_ne_true (Set.notMem_empty n)

def hdd1 : StorageDevice := .drive (.ofChars [104, 100, 100, 49]) []

theorem isFileName_hdd1 : IsFileName hdd1.getName :=
  ⟨⟨[104, 100, 100, 49], by decide, by decide, by decide, by decide, by decide⟩, rfl⟩

theorem delivers_hdd1 :
    ∃ s, Delivers (fun _ => 0) (fun _ _ => (false, ())) withoutDevices (.add hdd1) s ∧
      s.getChildren (fun _ => 0) (fun _ => 255) (fun _ _ => none) DEV_STORAGE =
        .ok (some [hdd1.getName]) := by
  obtain ⟨s, hcall, hchildren⟩ : ∃ s,
      withoutDevices.onEvent (fun _ => 0) (fun _ _ => (false, ())) (fun _ => 255) 1 3 (.add hdd1) =
        .ok s ∧
        s.getChildren (fun _ => 0) (fun _ => 255) (fun _ _ => none) DEV_STORAGE =
          .ok (some [.ofChars [104, 100, 100, 49]]) := ⟨_, rfl, rfl⟩
  have hdelete : withoutDevices.deleteFile (fun _ => 0) (fun _ _ => (false, ())) (fun _ => 255) 1
      (DEV_STORAGE.plus hdd1.getName) =
        .ok (.DELETING_FILE_FAILED, withoutDevices.setDriver 1 (.ramFs storageDirectory)) := rfl
  refine ⟨s, ⟨fun _ => 255, 0, 3, hcall, ?_⟩, hchildren⟩
  intro device result next hdevice hresult d fs hfs
  cases hdevice
  cases hdelete.symm.trans hresult
  by_cases hd : d = 1
  · subst hd
    cases hfs
    rfl
  · have hother : withoutDevices.drivers d = .ramFs (RamFsDriver.mount 1) :=
      congrArg FsDriver.ramFs (if_neg hd)
    cases hother.symm.trans ((update_of_ne hd _ _).symm.trans hfs)
    rfl

/-- "hdd1" is registered. -/
theorem mirrors_iff_hdd1 :
    ∃ service s, [StorageService.Call.registerDevice hdd1].foldlM (StorageService.call fun _ =>
      0) .new = .ok service ∧
      Run (Delivers (fun _ => 0) fun _ _ => (false, ())) withoutDevices service.published s ∧
      Mirrors (fun _ => 0) s service := by
  obtain ⟨s, hdelivers, -⟩ := delivers_hdd1
  have hnamed : ∀ c ∈ [StorageService.Call.registerDevice hdd1], c.Named :=
    forall_mem_singleton.mpr isFileName_hdd1
  obtain ⟨service, hservice, hmirrors⟩ :=
    mirrors_iff deviceTree_withoutDevices (fun _ _ => (false, ())) hnamed
  have hcalls :
      [StorageService.Call.registerDevice hdd1].foldlM (StorageService.call fun _ => 0) .new =
      .ok (StorageService.enter (fun _ => 0) .new hdd1) := rfl
  cases hcalls.symm.trans hservice
  have hrun : Run (Delivers (fun _ => 0) fun _ _ => (false, ())) withoutDevices [.add hdd1] s :=
    .next hdelivers (.done s)
  refine ⟨_, s, hservice, hrun, (hmirrors s hrun).mpr fun device hdevice => ?_⟩
  cases mem_singleton.mp hdevice
  rfl

/-- "hdd1" is registered and removed again, but its node stays. -/
theorem removed_device_stays :
    ∃ service s, [StorageService.Call.registerDevice hdd1, .removeDevice hdd1.getName 255].foldlM
        (StorageService.call fun _ => 0) .new = .ok service ∧
      Run (Delivers (fun _ => 0) fun _ _ => (false, ())) withoutDevices service.published s ∧
      service.devices.keySet = [] ∧
      s.getChildren (fun _ => 0) (fun _ => 255) (fun _ _ => none) DEV_STORAGE =
        .ok (some [hdd1.getName]) ∧
      ¬Mirrors (fun _ => 0) s service := by
  obtain ⟨s, hdelivers, hchildren⟩ := delivers_hdd1
  obtain ⟨service, hservice, hpublished, hkeys⟩ : ∃ service,
      [StorageService.Call.registerDevice hdd1, .removeDevice hdd1.getName 255].foldlM
        (StorageService.call fun _ => 0) .new = .ok service ∧
      service.published = [.add hdd1, .remove hdd1.getName] ∧ service.devices.keySet = [] :=
        ⟨_, rfl, rfl, rfl⟩
  have hremove : Delivers (fun _ => 0) (fun _ _ => (false, ())) s (.remove hdd1.getName) s :=
    ⟨fun _ => 255, 0, 3, rfl, fun _ _ _ heq => by cases heq⟩
  refine ⟨service, s, hservice, ?_, hkeys, hchildren, fun hmirrors => ?_⟩
  · rw [hpublished]
    exact .next hdelivers (.next hremove (.done s))
  · obtain ⟨list, hlist, -, hmem⟩ := hmirrors (fun _ => 255) fun _ _ => none
    cases hchildren.symm.trans hlist
    have hmember := (hmem hdd1.getName).mp (mem_singleton_self _)
    rw [hkeys] at hmember
    cases hmember

end HuyaOS.Filesystem
