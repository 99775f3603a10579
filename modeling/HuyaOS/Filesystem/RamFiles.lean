import HuyaOS.Filesystem.FileCalls
import HuyaOS.Filesystem.NodeData
import HuyaOS.Filesystem.RamFsDelete

/-!
A filesystem all of whose mounted drivers are `RamFsDriver`s. The driver gets the part of the
path behind its mount point. For a path that is a mount point this part is empty, and so are
its tokens: creating a node then looks for the last of no tokens. Deleting a node does not get
that far, since the mount points are looked at before.
-/

namespace HuyaOS.Filesystem

open Lib RamFsDriver List

/-- A driver with the contents of its nodes. -/
structure RamFiles where
  tree : RamFsDriver
  contents : Nat → NodeData

/-- `createNode` of the driver `d`. A new node gets the address `node`. -/
def ramCreate (fresh : Nat → UInt8) (node d : Nat) (path : String) (fileType : UInt8)
    (s : Nat → RamFiles) : Except Cpu.Stop (Bool × (Nat → RamFiles)) := do
  let (ret, tree) ← (s d).tree.createNode fresh node path fileType
  let contents := if ret then Function.update (s d).contents node .new else (s d).contents
  return (ret, Function.update s d ⟨tree, contents⟩)

/-- `deleteNode` of the driver `d`. A destructor goes down at most `depth` levels. -/
def ramDelete (fresh : Nat → UInt8) (depth d : Nat) (path : String) (s : Nat → RamFiles) :
    Except Cpu.Stop (Bool × (Nat → RamFiles)) := do
  let (ret, tree) ← (s d).tree.deleteNode fresh depth path
  return (ret, Function.update s d { s d with tree })

/-- The drivers that are mounted on a path have their trees. -/
structure RamBacked (code : String → Nat) (mountPoints : HashMap String Nat) (s : Nat → RamFiles)
    (p : List Name) :
    Prop where
  table : MountTable code mountPoints
  tree : ∀ a d, a <+: p → mountPoints.get code (mountString a) = .ok d →
    ∃ root, (s d).tree.Tree root

theorem mounted_iff_rest_nil {code : String → Nat} {D : Type} {mountPoints : HashMap String D}
    {a rest : List Name} (hmounted : Mounted code mountPoints a)
    (hmax : ∀ b, b <+: a ++ rest → Mounted code mountPoints b → b.length ≤ a.length) :
    Mounted code mountPoints (a ++ rest) ↔ rest = [] := by
  constructor
  · intro hpath
    have hle := hmax _ prefix_rfl hpath
    rw [length_append] at hle
    exact eq_nil_of_length_eq_zero (by omega)
  · rintro rfl
    rwa [append_nil]

section Calls

variable {code : String → Nat} {mountPoints : HashMap String Nat} {s : Nat → RamFiles}
  (fresh : Nat → UInt8) {path : String} {p : List Name} (h : RamBacked code mountPoints s p)
  (hp : ∀ fresh, parsePath fresh path = .ok (pathString p))

include h hp

theorem createAt_returns_iff {node : Nat} (hfree : ∀ d, (s d).tree.heap node = none)
    (fileType : UInt8) (failed : FileCode) :
    (∃ result, createAt (ramCreate fresh node) code fresh mountPoints fileType failed path s =
      .ok result) ↔
      ¬Mounted code mountPoints p := by
  unfold createAt
  rw [hp fresh]
  simp only [bind, Except.bind]
  rcases h.table.getMountedDriver_cases fresh p with
    ⟨hcall, hnone⟩ | ⟨a, rest, d, rfl, hmounted, hmax, hdriver, hcall⟩
  · rw [hcall]
    exact iff_of_true ⟨_, rfl⟩ (hnone p prefix_rfl)
  · rw [hcall, mounted_iff_rest_nil hmounted hmax]
    obtain ⟨root, htree⟩ := h.tree a d (prefix_append a rest) hdriver
    rcases eq_nil_or_concat' rest with rfl | ⟨dirs, name, rfl⟩
    · refine iff_of_false ?_ (not_not_intro rfl)
      rintro ⟨result, hresult⟩
      cases hresult
    · have hparts := (components_driverPath (dirs ++ [name])).trans map_append
      obtain ⟨ret, tree, hcreate, -⟩ :=
        htree.createNode fresh (wellFormed_driverPath (dirs ++ [name])) hparts (hfree d) fileType
      have hne : dirs ++ [name] ≠ [] := append_ne_nil_of_right_ne_nil _ (cons_ne_nil _ _)
      refine iff_of_true ?_ hne
      change ∃ result, ramCreate fresh node d (driverPath (dirs ++ [name])) fileType s >>=
        _ = .ok result
      unfold ramCreate
      simp only [bind, Except.bind, hcreate]
      exact ⟨_, rfl⟩

theorem deleteFile_returns :
    ∃ bound, ∀ depth ≥ bound, ∃ result,
      deleteFile (ramDelete fresh depth) code fresh mountPoints path s = .ok result := by
  by_cases hguard : MountedBelow code mountPoints p ∨ MountedBeside code mountPoints p
  · refine ⟨0, fun depth _ => ?_⟩
    rcases deleteFile_cases (ramDelete fresh depth) h.table fresh hp s with ⟨-, hcall⟩ | ⟨hnone, -⟩
    · exact ⟨_, hcall⟩
    · exact absurd hguard hnone
  · have hdelete : ∀ depth, deleteFile (ramDelete fresh depth) code fresh mountPoints path s =
        deleteByDriver (ramDelete fresh depth) code fresh mountPoints (pathString p) s := by
      intro depth
      rcases deleteFile_cases (ramDelete fresh depth) h.table fresh hp s with
        ⟨hsome, -⟩ | ⟨-, hcall⟩
      · exact absurd hsome hguard
      · exact hcall
    simp only [hdelete]
    unfold deleteByDriver
    rcases h.table.getMountedDriver_cases fresh p with
      ⟨hcall, -⟩ | ⟨a, rest, d, rfl, hmounted, -, hdriver, hcall⟩
    · refine ⟨0, fun depth _ => ?_⟩
      rw [hcall]
      exact ⟨_, rfl⟩
    · obtain ⟨root, htree⟩ := h.tree a d (prefix_append a rest) hdriver
      have hrest : rest ≠ [] := by
        rintro rfl
        exact hguard (.inl ⟨a, hmounted, by rw [append_nil]⟩)
      have hparts : components slash (driverPath rest).chars ≠ [] := by
        rw [components_driverPath]
        exact fun hnil => hrest (map_eq_nil_iff.mp hnil)
      obtain ⟨bound, hbound⟩ := htree.failed_deleteNode (wellFormed_driverPath rest) hparts
      refine ⟨bound, fun depth hdepth => ?_⟩
      obtain ⟨ret, tree, hcall', -⟩ := hbound depth hdepth fresh
      rw [hcall]
      change ∃ result, ramDelete fresh depth d (driverPath rest) s >>= _ = .ok result
      unfold ramDelete
      simp only [bind, Except.bind, hcall']
      exact ⟨_, rfl⟩

end Calls

/-- On paths that are not mount points, all three calls return with a code; deleting does so for
mount points as well. -/
theorem node_calls_return_iff {code : String → Nat} {mountPoints : HashMap String Nat}
    {s : Nat → RamFiles} (h : ∀ p, RamBacked code mountPoints s p) {path : String}
    (hpath : path.WellFormed) {node : Nat} (hfree : ∀ d, (s d).tree.heap node = none) :
    ∃ p, (∀ fresh, parsePath fresh path = .ok (pathString p)) ∧ ∀ fresh,
      ((∃ result, createFile (ramCreate fresh node) code fresh mountPoints path s = .ok result) ↔
        ¬Mounted code mountPoints p) ∧
      ((∃ result, createDirectory (ramCreate fresh node) code fresh mountPoints path s =
        .ok result) ↔
        ¬Mounted code mountPoints p) ∧
      ∃ bound, ∀ depth ≥ bound, ∃ result,
        deleteFile (ramDelete fresh depth) code fresh mountPoints path s = .ok result := by
  obtain ⟨p, hp⟩ := exists_parsePath hpath
  refine ⟨p, hp, fun fresh => ⟨?_, ?_, ?_⟩⟩
  · exact createAt_returns_iff fresh (h p) hp hfree REGULAR_FILE .CREATING_FILE_FAILED
  · exact createAt_returns_iff fresh (h p) hp hfree DIRECTORY_FILE .CREATING_DIRECTORY_FAILED
  · exact deleteFile_returns fresh (h p) hp

section Root

/-- A RamFs mounted at "/" that holds nothing but its root. -/
def rootMounted : HashMap String Nat :=
  (HashMap.new String Nat).put String.toUInt32 (mountString []) 0

def emptyFiles : Nat → RamFiles := fun _ => ⟨RamFsDriver.mount 1, fun _ => .new⟩

theorem ramBacked_root (p : List Name) : RamBacked String.toUInt32 rootMounted emptyFiles p where
  table := ((mountTable_new String.toUInt32 Nat).put [] 0).1
  tree _ _ _ _ := ⟨1, tree_mount 1⟩

theorem mounted_rootMounted (p : List Name) : Mounted String.toUInt32 rootMounted p ↔ p = [] := by
  obtain ⟨h0, h0'⟩ := (mountTable_new String.toUInt32 Nat).put [] 0
  rw [rootMounted, h0.mounted_iff_driverAt, h0', Function.update_apply]
  by_cases hroot : p = []
  · exact iff_of_true (by rw [if_pos hroot]; rfl) hroot
  · rw [if_neg hroot]
    exact iff_of_false nofun hroot

end Root

/-- The file "/a" below the root. -/
theorem node_calls_return_iff_a :
    ∃ result, createFile (ramCreate (fun _ => 255) 2) String.toUInt32 (fun _ => 255) rootMounted
      (.ofChars [47, 97]) emptyFiles = .ok result := by
  have hpath : (String.ofChars [47, 97]).WellFormed := String.wellFormed_ofChars.mpr (by decide)
  have hfree : ∀ d, (emptyFiles d).tree.heap 2 = none := fun _ => rfl
  obtain ⟨p, hp, hcalls⟩ := node_calls_return_iff ramBacked_root hpath hfree
  have hparsed : pathString [nameA] = pathString p := Except.ok.inj (hp fun _ => 255)
  obtain rfl : [nameA] = p := pathString_injective hparsed
  exact (hcalls _).1.mpr fun hmounted => cons_ne_nil _ _ ((mounted_rootMounted _).mp hmounted)

/-- The root itself cannot be created, as a file or as a directory. -/
theorem create_root_stops :
    createFile (ramCreate (fun _ => 255) 2) String.toUInt32 (fun _ => 255) rootMounted
      (.ofChars [47]) emptyFiles =
        .error (.throwException .OUT_OF_BOUNDS) ∧
      createDirectory (ramCreate (fun _ => 255) 2) String.toUInt32 (fun _ => 255) rootMounted
        (.ofChars []) emptyFiles =
        .error (.throwException .OUT_OF_BOUNDS) := by
  constructor <;> rfl

end HuyaOS.Filesystem
