import HuyaOS.Filesystem.Mount
import HuyaOS.Filesystem.RamFs

/-!
The calls of `Filesystem` that reach a node through the mounted drivers: `createFile`,
`createDirectory` and `deleteFile`. What the drivers do is a parameter; the state that they
change is that of all of them.

Before it asks a driver, `deleteFile` looks for mount points below the path. The keys of the
table end with a separator and the path does not, so the test also finds mount points in
directories whose names only begin like the path.
-/

namespace HuyaOS.Filesystem

open Lib List HuyaOS.String

/-- The return codes of the calls. -/
inductive FileCode
  | SUCCESS
  | FILE_NOT_FOUND
  | SUBDIRECTORY_CONTAINS_MOUNT_POINT
  | CREATING_FILE_FAILED
  | CREATING_DIRECTORY_FAILED
  | DELETING_FILE_FAILED
  | ADDING_VIRTUAL_NODE_FAILED
  deriving DecidableEq, Repr

/-- `REGULAR_FILE` of `FsNode` -/
def REGULAR_FILE : UInt8 := 1

section Calls

-- the calls of the drivers `D`
variable {D σ : Type} (createNode : D → String → UInt8 → σ → Except Cpu.Stop (Bool × σ))
  (deleteNode : D → String → σ → Except Cpu.Stop (Bool × σ)) (code : String → Nat)
  (fresh : Nat → UInt8) (mountPoints : HashMap String D)

def createAt (fileType : UInt8) (failed : FileCode) (path : String) (s : σ) :
    Except Cpu.Stop (FileCode × σ) := do
  let parsedPath ← parsePath fresh path
  match ← getMountedDriver code fresh mountPoints parsedPath with
  | (none, _) => return (.FILE_NOT_FOUND, s)
  | (some mounted, parsedPath) =>
      let (ret, s) ← createNode mounted parsedPath fileType s
      return (if ret then .SUCCESS else failed, s)

def createFile : String → σ → Except Cpu.Stop (FileCode × σ) :=
  createAt createNode code fresh mountPoints REGULAR_FILE .CREATING_FILE_FAILED

def createDirectory : String → σ → Except Cpu.Stop (FileCode × σ) :=
  createAt createNode code fresh mountPoints DIRECTORY_FILE .CREATING_DIRECTORY_FAILED

/-- The second part of `deleteFile`: the driver decides. -/
def deleteByDriver (parsedPath : String) (s : σ) : Except Cpu.Stop (FileCode × σ) := do
  match ← getMountedDriver code fresh mountPoints parsedPath with
  | (none, _) => return (.FILE_NOT_FOUND, s)
  | (some mounted, parsedPath) =>
      let (ret, s) ← deleteNode mounted parsedPath s
      return (if ret then .SUCCESS else .DELETING_FILE_FAILED, s)

def deleteFile (path : String) (s : σ) : Except Cpu.Stop (FileCode × σ) := do
  let parsedPath ← parsePath fresh path
  if ← mountPoints.keySet.anyM fun key => key.beginsWith parsedPath (fresh 0) then
    return (.SUBDIRECTORY_CONTAINS_MOUNT_POINT, s)
  else deleteByDriver deleteNode code fresh mountPoints parsedPath s

end Calls

def MountedBelow {D : Type} (code : String → Nat) (mountPoints : HashMap String D) (p : List Name) :
    Prop :=
  ∃ q, Mounted code mountPoints q ∧ p <+: q

/-- A mount point lies at or below a neighbour of the path whose name is longer but begins in the
same way. -/
def MountedBeside {D : Type} (code : String → Nat) (mountPoints : HashMap String D)
    (p : List Name) : Prop :=
  ∃ dirs name longer rest, p = dirs ++ [name] ∧ Mounted code mountPoints (dirs ++ longer :: rest) ∧
    name.chars <+: longer.chars ∧ name ≠ longer

/-- The bytes of a path begin the key of a mount point at or below the path, or beside it. -/
theorem pathString_prefix_iff {p q : List Name} :
    (pathString p).chars <+: (mountString q).chars ↔
      p <+: q ∨ ∃ dirs name longer rest, p = dirs ++ [name] ∧ q = dirs ++ longer :: rest ∧
        name.chars <+: longer.chars ∧ name ≠ longer := by
  rcases eq_nil_or_concat' p with rfl | ⟨dirs, name, rfl⟩
  · exact iff_of_true nil_prefix (.inl nil_prefix)
  · rw [chars_pathString_concat, mountString, chars_ofChars, cons_append, prefix_cons_inj,
      closed_append_prefix_iff slash_notMem_of_mem slash_notMem_of_mem
        name.slash_notMem name.ne_nil]
    constructor
    · rintro ⟨d, rest, hq, hpre⟩
      obtain ⟨before, behind, rfl, hbefore, hbehind⟩ := map_eq_append_iff.mp hq
      obtain ⟨longer, rest, rfl, rfl, -⟩ := map_eq_cons_iff.mp hbehind
      have hdirs : before = dirs := map_injective_iff.mpr Name.chars_injective hbefore
      subst hdirs
      by_cases heq : name = longer
      · exact .inl ⟨rest, by rw [heq, append_assoc, singleton_append]⟩
      · exact .inr ⟨before, name, longer, rest, rfl, rfl, hpre, heq⟩
    · rintro (⟨rest, rfl⟩ | ⟨dirs', name', longer, rest, heq, rfl, hpre, -⟩)
      · refine ⟨name.chars, rest.map Name.chars, ?_, prefix_rfl⟩
        rw [append_assoc, map_append, singleton_append, map_cons]
      · obtain ⟨rfl, hname⟩ := append_inj' heq rfl
        obtain rfl := singleton_inj.mp hname
        exact ⟨longer.chars, rest.map Name.chars, by rw [map_append, map_cons], hpre⟩

section Delete

variable {D σ : Type} (deleteNode : D → String → σ → Except Cpu.Stop (Bool × σ))
  {code : String → Nat} {mountPoints : HashMap String D} (h : MountTable code mountPoints)
  (fresh : Nat → UInt8) {path : String} {p : List Name}

include h

theorem anyM_beginsWith (p : List Name) :
    ∃ found, (mountPoints.keySet.anyM fun key => key.beginsWith (pathString p) (fresh 0)) =
      .ok found ∧
      (found = true ↔ MountedBelow code mountPoints p ∨ MountedBeside code mountPoints p) := by
  obtain ⟨m, hm⟩ := h.represents
  refine ⟨_, anyM_eq_ok fun key hkey =>
    beginsWith_eq (hm.used_of_mem_keySet hkey) _ (wellFormed_pathString p), ?_⟩
  simp only [any_eq_true, decide_eq_true_eq]
  constructor
  · rintro ⟨key, hkey, hpre⟩
    obtain ⟨q, rfl⟩ := h.canonical key hkey
    have hmounted := (h.mounted_iff q).mpr hkey
    rcases pathString_prefix_iff.mp hpre with
      hbelow | ⟨dirs, name, longer, rest, hp, rfl, hname, hne⟩
    · exact .inl ⟨q, hmounted, hbelow⟩
    · exact .inr ⟨dirs, name, longer, rest, hp, hmounted, hname, hne⟩
  · rintro (⟨q, hmounted, hbelow⟩ | ⟨dirs, name, longer, rest, hp, hmounted, hname, hne⟩)
    · exact ⟨mountString q, (h.mounted_iff q).mp hmounted, pathString_prefix_iff.mpr (.inl hbelow)⟩
    · exact ⟨mountString _, (h.mounted_iff _).mp hmounted,
        pathString_prefix_iff.mpr (.inr ⟨dirs, name, longer, rest, hp, rfl, hname, hne⟩)⟩

theorem deleteFile_cases (hp : ∀ fresh, parsePath fresh path = .ok (pathString p))
    (s : σ) :
    ((MountedBelow code mountPoints p ∨ MountedBeside code mountPoints p) ∧
        deleteFile deleteNode code fresh mountPoints path s =
          .ok (.SUBDIRECTORY_CONTAINS_MOUNT_POINT, s)) ∨
      (¬(MountedBelow code mountPoints p ∨ MountedBeside code mountPoints p) ∧
        deleteFile deleteNode code fresh mountPoints path s =
          deleteByDriver deleteNode code fresh mountPoints (pathString p) s) := by
  obtain ⟨found, hany, hfound⟩ := anyM_beginsWith h fresh p
  unfold deleteFile
  rw [hp fresh]
  simp only [bind, Except.bind, hany]
  cases found with
  | true => exact .inl ⟨hfound.mp rfl, rfl⟩
  | false => exact .inr ⟨fun hsome => Bool.false_ne_true (hfound.mpr hsome), rfl⟩

omit h in
theorem deleteByDriver_ne (path : String) (s s' : σ) :
    deleteByDriver deleteNode code fresh mountPoints path s ≠
      .ok (.SUBDIRECTORY_CONTAINS_MOUNT_POINT, s') := by
  intro hcall
  obtain ⟨⟨mounted, rest⟩, -, hrest⟩ := bind_eq_ok.mp hcall
  cases mounted with
  | none => cases hrest
  | some mounted =>
    obtain ⟨⟨ret, s''⟩, -, hresult⟩ := bind_eq_ok.mp hrest
    cases ret <;> cases hresult

/-- The call returns the code for mount points exactly if there is one at or below the path, and
leaves everything else to the driver. -/
def Guards (deleteNode : D → String → σ → Except Cpu.Stop (Bool × σ)) (code : String → Nat)
    (mountPoints : HashMap String D) (fresh : Nat → UInt8) (path : String) (p : List Name) (s : σ) :
    Prop :=
  ((∃ s', deleteFile deleteNode code fresh mountPoints path s =
    .ok (.SUBDIRECTORY_CONTAINS_MOUNT_POINT, s')) ↔
      MountedBelow code mountPoints p) ∧
    (¬MountedBelow code mountPoints p → deleteFile deleteNode code fresh mountPoints path s =
      deleteByDriver deleteNode code fresh mountPoints (pathString p) s)

theorem guards_iff (hp : ∀ fresh, parsePath fresh path = .ok (pathString p)) (s : σ) :
    Guards deleteNode code mountPoints fresh path p s ↔
      (MountedBeside code mountPoints p → MountedBelow code mountPoints p) := by
  unfold Guards
  rcases deleteFile_cases deleteNode h fresh hp s with ⟨hsome, hcall⟩ | ⟨hnone, hcall⟩
  · rw [hcall]
    constructor
    · exact fun hguard _ => hguard.1.mp ⟨s, rfl⟩
    · intro hbeside
      have hbelow : MountedBelow code mountPoints p := hsome.elim id hbeside
      exact ⟨iff_of_true ⟨s, rfl⟩ hbelow, fun hnot => absurd hbelow hnot⟩
  · rw [hcall]
    obtain ⟨hnotBelow, hnotBeside⟩ := not_or.mp hnone
    refine iff_of_true ⟨iff_of_false ?_ hnotBelow, fun _ => rfl⟩ fun hbeside =>
      absurd hbeside hnotBeside
    rintro ⟨s', hresult⟩
    exact deleteByDriver_ne deleteNode fresh _ s s' hresult

end Delete

/-- Every path has a canonical path, and mount points guard exactly what lies at and above them
unless one lies beside the path and none below it. -/
theorem deleteFile_guards_iff {D σ : Type}
    (deleteNode : D → String → σ → Except Cpu.Stop (Bool × σ)) {code : String → Nat}
    {mountPoints : HashMap String D} (h : MountTable code mountPoints) {path : String}
    (hpath : path.WellFormed) :
    ∃ p, (∀ fresh, parsePath fresh path = .ok (pathString p)) ∧ ∀ fresh s,
      (Guards deleteNode code mountPoints fresh path p s ↔
        (MountedBeside code mountPoints p → MountedBelow code mountPoints p)) := by
  obtain ⟨p, hp⟩ := exists_parsePath hpath
  exact ⟨p, hp, fun fresh s => guards_iff deleteNode h fresh hp s⟩

section Dev

/-- Drivers mounted at "/" and "/dev". -/
def devMounted : HashMap String Nat :=
  ((HashMap.new String Nat).put String.toUInt32 (mountString []) 0).put String.toUInt32
    (mountString [nameDev]) 1

/-- Drivers that delete whatever they are asked for. -/
def obedient (_ : Nat) (_ : String) (_ : Unit) : Except Cpu.Stop (Bool × Unit) := .ok (true, ())

theorem mountTable_devMounted : MountTable String.toUInt32 devMounted :=
  (((mountTable_new toUInt32 Nat).put [] 0).1.put [nameDev] 1).1

theorem mounted_devMounted (p : List Name) :
    Mounted String.toUInt32 devMounted p ↔ p = [] ∨ p = [nameDev] := by
  obtain ⟨h0, h0'⟩ := (mountTable_new toUInt32 Nat).put [] 0
  obtain ⟨h1, h1'⟩ := h0.put [nameDev] 1
  rw [devMounted, h1.mounted_iff_driverAt, h1', Function.update_apply, h0', Function.update_apply]
  by_cases hdev : p = [nameDev]
  · exact iff_of_true (by rw [if_pos hdev]; rfl) (.inr hdev)
  · by_cases hroot : p = []
    · exact iff_of_true (by rw [if_neg hdev, if_pos hroot]; rfl) (.inl hroot)
    · rw [if_neg hdev, if_neg hroot]
      exact iff_of_false nofun (not_or.mpr ⟨hroot, hdev⟩)

theorem not_mountedBelow_devMounted {name : Name} (hne : name ≠ nameDev) :
    ¬MountedBelow String.toUInt32 devMounted [name] := by
  rintro ⟨q, hq, hpre⟩
  rcases (mounted_devMounted q).mp hq with rfl | rfl
  · exact cons_ne_nil _ _ (prefix_nil.mp hpre)
  · exact hne (cons_prefix_cons.mp hpre).1

end Dev

/-- The path "/a" is left to the driver. -/
theorem deleteFile_guards_iff_a :
    Guards obedient String.toUInt32 devMounted (fun _ => 255) (.ofChars [47, 97]) [nameA] () := by
  have hpath : (ofChars [47, 97]).WellFormed := wellFormed_ofChars.mpr (by decide)
  obtain ⟨p, hp, hguards⟩ := deleteFile_guards_iff obedient mountTable_devMounted hpath
  have hparsed : pathString [nameA] = pathString p := Except.ok.inj (hp fun _ => 255)
  obtain rfl : [nameA] = p := pathString_injective hparsed
  apply (hguards _ ()).mpr
  rintro ⟨dirs, name, longer, rest, heq, hmounted, hpre, -⟩
  obtain ⟨rfl, hname⟩ := append_inj' (show [] ++ [nameA] = dirs ++ [name] from heq) rfl
  obtain rfl := singleton_inj.mp hname
  rcases (mounted_devMounted _).mp hmounted with hroot | hdev
  · cases hroot
  · obtain ⟨rfl, -⟩ := cons.inj hdev
    exact absurd hpre (by decide)

/-- The path "/de" cannot be deleted because something is mounted at "/dev". -/
theorem deleteFile_stopped_by_dev :
    (∀ fresh, parsePath fresh (.ofChars [47, 100, 101]) = .ok (pathString [nameDe])) ∧
      ¬MountedBelow String.toUInt32 devMounted [nameDe] ∧
      deleteFile obedient String.toUInt32 (fun _ => 255) devMounted (.ofChars [47, 100, 101]) () =
        .ok (.SUBDIRECTORY_CONTAINS_MOUNT_POINT, ()) := by
  have hp : ∀ fresh, parsePath fresh (.ofChars [47, 100, 101]) = .ok (pathString [nameDe]) :=
    fun _ => rfl
  refine ⟨hp, not_mountedBelow_devMounted (by decide), ?_⟩
  have hbeside : MountedBeside toUInt32 devMounted [nameDe] :=
    ⟨[], nameDe, nameDev, [], rfl, (mounted_devMounted _).mpr (.inr rfl), by decide, by decide⟩
  rcases deleteFile_cases obedient mountTable_devMounted (fun _ => 255) hp () with
    ⟨-, hcall⟩ | ⟨hnone, -⟩
  · exact hcall
  · exact absurd (.inr hbeside) hnone

end HuyaOS.Filesystem
