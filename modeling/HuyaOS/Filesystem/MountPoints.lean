import HuyaOS.Filesystem.Path
import HuyaOS.Util.StringKeys

/-!
The mount points of the filesystem, and `getMountedDriver`, which finds the one
that a path leads through. The keys of the table are canonical paths with a
separator behind them. The function puts a separator behind the path as well, so
that a key that is a prefix of the bytes is a prefix of the components, and the
longest key has the most components.

The order in which the keys are visited depends on the numbers that strings are
cast to; `code` stands for any such numbers.
-/

namespace HuyaOS.Filesystem

open Lib Function List HuyaOS.String

/-- A name that a canonical path may consist of. -/
structure Name where
  chars : List UInt8
  ne_nil : chars ≠ []
  slash_notMem : slash ∉ chars
  zero_notMem : 0 ∉ chars
  ne_dot : chars ≠ dot
  ne_dotDot : chars ≠ dotDot
  deriving DecidableEq

variable (p : List Name)

/-- The canonical path that enters the directories one after the other. -/
def pathString : String := .ofChars (render slash (p.map Name.chars))

def mountString : String := .ofChars (slash :: closed slash (p.map Name.chars))

def driverPath (rest : List Name) : String := .ofChars ([slash].intercalate (rest.map Name.chars))

section Driver

variable {D : Type} (code : String → Nat) (fresh : Nat → UInt8) (mountPoints : HashMap String D)

/-- One round of the loop of `getMountedDriver`. -/
def longerMount (path ret currentString : String) : Except Cpu.Stop String := do
  if ← path.beginsWith currentString (fresh currentString.len) then
    if currentString.len > ret.len then return currentString else return ret
  else return ret

/-- `getMountedDriver`, with the path that it leaves behind. -/
def getMountedDriver (path : String) : Except Cpu.Stop (Option D × String) := do
  let path := if ← path.endsWith SEPARATOR (fresh 0) then path else path.append SEPARATOR
  let ret ← mountPoints.keySet.foldlM (longerMount fresh path) (.ofChars [])
  if ret.isEmpty then return (none, path)
  else
    let driver ← mountPoints.get code ret
    return (some driver, path.substring (fresh 0) ret.len (path.len - 1))

end Driver

theorem Name.chars_injective : Injective Name.chars := by
  rintro ⟨_, _⟩ ⟨_, _⟩ rfl
  rfl

theorem map_chars_prefix_iff {a p : List Name} :
    a.map Name.chars <+: p.map Name.chars ↔ a <+: p := by
  constructor
  · intro h
    rw [prefix_iff_eq_take, ← map_take] at h
    rw [prefix_iff_eq_take]
    simpa using map_injective_iff.mpr Name.chars_injective h
  · exact fun h => h.map Name.chars

theorem slash_notMem_of_mem {p : List Name} : ∀ c ∈ p.map Name.chars, slash ∉ c := by
  simp only [mem_map, forall_exists_index, and_imp]
  rintro _ name - rfl
  exact name.slash_notMem

theorem zero_notMem_closed : 0 ∉ closed slash (p.map Name.chars) := by
  unfold closed
  simp only [mem_flatMap, mem_map, mem_append, mem_singleton]
  rintro ⟨_, ⟨name, -, rfl⟩, h | h⟩
  · exact name.zero_notMem h
  · cases h

theorem wellFormed_mountString : (mountString p).WellFormed := by
  rw [mountString, wellFormed_ofChars]
  exact not_mem_cons_of_ne_of_not_mem (by decide) (zero_notMem_closed p)

theorem pathString_append_separator : (pathString p).append SEPARATOR = mountString p := by
  exact congrArg ofChars (render_append_sep _)

theorem wellFormed_pathString : (pathString p).WellFormed := by
  rw [pathString, wellFormed_ofChars]
  intro hmem
  have h := (wellFormed_mountString p).not_mem
  rw [← pathString_append_separator] at h
  exact h (mem_append_left _ hmem)

theorem mountString_prefix_iff {a p : List Name} :
    (mountString a).chars <+: (mountString p).chars ↔ a <+: p := by
  unfold mountString
  rw [chars_ofChars, chars_ofChars, prefix_cons_inj,
    closed_prefix_iff slash_notMem_of_mem slash_notMem_of_mem, map_chars_prefix_iff]

theorem mountString_injective : Injective mountString := by
  intro a b h
  have hab : a <+: b := mountString_prefix_iff.mp (h ▸ prefix_refl _)
  have hba : b <+: a := mountString_prefix_iff.mp (h ▸ prefix_refl _)
  exact hab.eq_of_length (le_antisymm hab.length_le hba.length_le)

theorem pathString_injective : Injective pathString := by
  intro a b h
  apply mountString_injective
  rw [← pathString_append_separator, ← pathString_append_separator, h]

theorem components_driverPath (rest : List Name) :
    components slash (driverPath rest).chars = rest.map Name.chars := by
  apply components_intercalate
  intro c hc
  obtain ⟨name, -, rfl⟩ := mem_map.mp hc
  exact ⟨name.ne_nil, name.slash_notMem⟩

theorem wellFormed_driverPath (rest : List Name) : (driverPath rest).WellFormed := by
  apply wellFormed_ofChars.mpr
  intro hzero
  rw [← dropLast_closed] at hzero
  exact zero_notMem_closed rest (dropLast_subset _ hzero)

section Compare

variable {path key : String} (hpath : path.WellFormed) (fresh : UInt8)

include hpath

theorem beginsWith_eq (hkey : key.WellFormed) :
    path.beginsWith key fresh = .ok (decide (key.chars <+: path.chars)) := by
  unfold beginsWith
  rw [(hpath.substring _ _ _).equals hkey, substring_eq, Except.ok.injEq, Bool.eq_iff_iff,
    beq_iff_eq, decide_eq_true_iff, prefix_iff_eq_take]
  exact eq_comm

theorem endsWith_separator :
    path.endsWith SEPARATOR fresh = .ok (path.chars.getLast? == some slash) := by
  have hsep : SEPARATOR.WellFormed := wellFormed_ofChars.mpr (by decide)
  unfold endsWith
  rw [(hpath.substring _ _ _).equals hsep, substring_eq]
  obtain ⟨chars, last⟩ := path
  rcases eq_nil_or_concat' chars with rfl | ⟨rest, c, rfl⟩
  · rw [drop_nil, take_nil]
    rfl
  · have hlen : SEPARATOR.len ≤ (mk (rest ++ [c]) last).len := by simp [SEPARATOR, len]
    have hbegin : (mk (rest ++ [c]) last).len - SEPARATOR.len = rest.length := by
      simp [SEPARATOR, len]
    have hlength : (mk (rest ++ [c]) last).len - rest.length = 1 := by simp [len]
    rw [if_pos hlen, hbegin, hlength]
    simp [SEPARATOR]

end Compare

theorem chars_pathString_concat (name : Name) :
    (pathString (p ++ [name])).chars = slash :: closed slash (p.map Name.chars) ++ name.chars := by
  have h : (pathString (p ++ [name])).chars ++ [slash] = (mountString (p ++ [name])).chars :=
    congrArg chars (pathString_append_separator _)
  refine append_cancel_right (h.trans ?_)
  rw [mountString, map_append, closed_append]
  simp

theorem endsWith_pathString (fresh : UInt8) :
    (pathString p).endsWith SEPARATOR fresh = .ok false := by
  rw [endsWith_separator (wellFormed_pathString p), Except.ok.injEq, beq_eq_false_iff_ne]
  intro hlast
  rcases eq_nil_or_concat' p with rfl | ⟨q, name, rfl⟩
  · cases hlast
  · rw [chars_pathString_concat, getLast?_append_of_ne_nil _ name.ne_nil] at hlast
    exact name.slash_notMem (mem_of_getLast? hlast)

def pick (path ret key : String) : String :=
  if key.chars <+: path.chars ∧ ret.len < key.len then key else ret

theorem longerMount_eq (fresh : Nat → UInt8) {path ret key : String} (hpath : path.WellFormed)
    (hkey : key.WellFormed) : longerMount fresh path ret key = .ok (pick path ret key) := by
  unfold longerMount pick
  rw [beginsWith_eq hpath _ hkey]
  by_cases hpre : key.chars <+: path.chars <;> by_cases hlen : ret.len < key.len <;>
    simp [hpre, hlen] <;> rfl

theorem foldlM_longerMount (fresh : Nat → UInt8) {path : String} (hpath : path.WellFormed)
    {keys : List String} (hkeys : ∀ k ∈ keys, k.WellFormed) (ret : String) :
    keys.foldlM (longerMount fresh path) ret = .ok (keys.foldl (pick path) ret) := by
  induction keys generalizing ret with
  | nil => rfl
  | cons key keys ih =>
    obtain ⟨hkey, hkeys⟩ := forall_mem_cons.mp hkeys
    rw [foldlM_cons, longerMount_eq fresh hpath hkey]
    exact ih hkeys _

/-- The loop ends with one of the longest keys that are a prefix, if there is one. -/
theorem foldl_pick (path : String) (keys : List String) (ret : String) :
    (keys.foldl (pick path) ret = ret ∨
      keys.foldl (pick path) ret ∈ keys ∧ (keys.foldl (pick path) ret).chars <+: path.chars) ∧
    ret.len ≤ (keys.foldl (pick path) ret).len ∧
    ∀ k ∈ keys, k.chars <+: path.chars → k.len ≤ (keys.foldl (pick path) ret).len := by
  induction keys generalizing ret with
  | nil => exact ⟨.inl rfl, le_rfl, forall_mem_nil _⟩
  | cons key keys ih =>
    obtain ⟨hfrom, hle, hmax⟩ := ih (pick path ret key)
    rw [foldl_cons]
    by_cases hpick : key.chars <+: path.chars ∧ ret.len < key.len
    · rw [pick, if_pos hpick] at hfrom hle hmax ⊢
      refine ⟨.inr ?_, hpick.2.le.trans hle, forall_mem_cons.mpr ⟨fun _ => hle, hmax⟩⟩
      rcases hfrom with heq | ⟨hmem, hpre⟩
      · rw [heq]
        exact ⟨mem_cons_self, hpick.1⟩
      · exact ⟨mem_cons_of_mem _ hmem, hpre⟩
    · rw [pick, if_neg hpick] at hfrom hle hmax ⊢
      refine ⟨hfrom.imp_right fun h => ⟨mem_cons_of_mem _ h.1, h.2⟩, hle,
        forall_mem_cons.mpr ⟨?_, hmax⟩⟩
      intro hpre
      exact (not_lt.mp fun hlt => hpick ⟨hpre, hlt⟩).trans hle

section Table

variable {D : Type} {code : String → Nat} {mountPoints : HashMap String D} {m : String → Option D}

/-- The table stands for a partial map, and its keys are canonical paths with a
separator behind them. -/
structure MountTable (code : String → Nat) (mountPoints : HashMap String D) : Prop where
  represents : ∃ m, HashMap.Represents String.WellFormed code mountPoints m
  canonical : ∀ key ∈ mountPoints.keySet, ∃ p, key = mountString p

/-- Something is mounted at a path. -/
def Mounted (code : String → Nat) (mountPoints : HashMap String D) (p : List Name) : Prop :=
  mountPoints.containsKey code (mountString p) = true

theorem MountTable.mounted_iff (h : MountTable code mountPoints) (p : List Name) :
    Mounted code mountPoints p ↔ mountString p ∈ mountPoints.keySet := by
  obtain ⟨m, hm⟩ := h.represents
  unfold Mounted
  rw [hm.containsKey (wellFormed_mountString p), mem_keySet_iff hm]
  exact (and_iff_right (wellFormed_mountString p)).symm

theorem MountTable.get_of_mounted (h : MountTable code mountPoints) {p : List Name}
    (hp : Mounted code mountPoints p) :
    ∃ driver, mountPoints.get code (mountString p) = .ok driver := by
  obtain ⟨m, hm⟩ := h.represents
  unfold Mounted at hp
  rw [hm.containsKey (wellFormed_mountString p)] at hp
  obtain ⟨driver, hdriver⟩ := Option.isSome_iff_exists.mp hp
  refine ⟨driver, ?_⟩
  rw [hm.get (wellFormed_mountString p), hdriver]
  rfl

def driverAt (code : String → Nat) (mountPoints : HashMap String D) (p : List Name) : Option D :=
  (mountPoints.get code (mountString p)).toOption

theorem mountTable_of (hm : HashMap.Represents String.WellFormed code mountPoints m)
    (hcanonical : ∀ key, key.WellFormed → (m key).isSome = true → ∃ p, key = mountString p) :
    MountTable code mountPoints := by
  refine ⟨⟨m, hm⟩, fun key hkey => ?_⟩
  rw [mem_keySet_iff hm] at hkey
  exact hcanonical key hkey.1 hkey.2

theorem driverAt_eq (hm : HashMap.Represents String.WellFormed code mountPoints m)
    (p : List Name) : driverAt code mountPoints p = m (mountString p) := by
  unfold driverAt
  rw [hm.get (wellFormed_mountString p)]
  cases m (mountString p) <;> rfl

theorem mountTable_new (code : String → Nat) (D : Type) : MountTable code (HashMap.new String D) :=
  mountTable_of (HashMap.represents_ofSize _ code _ (by decide)) nofun

theorem MountTable.mounted_iff_driverAt (h : MountTable code mountPoints) (p : List Name) :
    Mounted code mountPoints p ↔ (driverAt code mountPoints p).isSome = true := by
  obtain ⟨m, hm⟩ := h.represents
  unfold Mounted
  rw [driverAt_eq hm, hm.containsKey (wellFormed_mountString p)]

theorem mountString_beq {p q : List Name} : (mountString q == mountString p) = true ↔ q = p := by
  rw [wellFormed_beq (wellFormed_mountString q) (wellFormed_mountString p),
    mountString_injective.eq_iff]

theorem MountTable.put (h : MountTable code mountPoints) (p : List Name) (driver : D) :
    MountTable code (mountPoints.put code (mountString p) driver) ∧
      driverAt code (mountPoints.put code (mountString p) driver) =
        update (driverAt code mountPoints) p (some driver) := by
  obtain ⟨m, hm⟩ := h.represents
  have hput := hm.put (stringTest code) (wellFormed_mountString p) driver
  constructor
  · refine mountTable_of hput fun key hkey hsome => ?_
    unfold PartialMap.insert at hsome
    split at hsome
    · rename_i heq
      exact ⟨p, (wellFormed_beq hkey (wellFormed_mountString p)).mp heq⟩
    · exact h.canonical key ((mem_keySet_iff hm).mpr ⟨hkey, hsome⟩)
  · funext q
    rw [driverAt_eq hput, update_apply, driverAt_eq hm]
    exact if_congr mountString_beq rfl rfl

theorem MountTable.remove (h : MountTable code mountPoints) {p : List Name}
    (hp : Mounted code mountPoints p) :
    ∃ driver mountPoints', mountPoints.remove code (mountString p) = .ok (driver, mountPoints') ∧
      MountTable code mountPoints' ∧
      driverAt code mountPoints' = update (driverAt code mountPoints) p none := by
  obtain ⟨m, hm⟩ := h.represents
  rw [h.mounted_iff_driverAt, driverAt_eq hm] at hp
  obtain ⟨driver, hdriver⟩ := Option.isSome_iff_exists.mp hp
  obtain ⟨mountPoints', hremove, hrest⟩ :=
    hm.remove_of_some (stringTest code) (wellFormed_mountString p) hdriver
  refine ⟨driver, mountPoints', hremove, ?_, ?_⟩
  · refine mountTable_of hrest fun key hkey hsome => ?_
    unfold PartialMap.erase at hsome
    split at hsome
    · cases hsome
    · exact h.canonical key ((mem_keySet_iff hm).mpr ⟨hkey, hsome⟩)
  · funext q
    rw [driverAt_eq hrest, update_apply, driverAt_eq hm]
    exact if_congr mountString_beq rfl rfl

theorem MountTable.longest (h : MountTable code mountPoints) (p : List Name) :
    (mountPoints.keySet.foldl (pick (mountString p)) (.ofChars []) = .ofChars [] ∧
        ∀ a, a <+: p → ¬Mounted code mountPoints a) ∨
      ∃ a, mountPoints.keySet.foldl (pick (mountString p)) (.ofChars []) = mountString a ∧ a <+: p ∧
        Mounted code mountPoints a ∧ ∀ b, b <+: p → Mounted code mountPoints b →
          b.length ≤ a.length := by
  obtain ⟨hfrom, -, hmax⟩ := foldl_pick (mountString p) mountPoints.keySet (.ofChars [])
  rcases hfrom with hempty | ⟨hmem, hpre⟩
  · refine .inl ⟨hempty, fun a ha hmounted => ?_⟩
    have hle := hmax _ ((h.mounted_iff a).mp hmounted) (mountString_prefix_iff.mpr ha)
    rw [hempty] at hle
    exact absurd hle (Nat.not_succ_le_zero _)
  · obtain ⟨a, ha⟩ := h.canonical _ hmem
    rw [ha] at hmem hpre hmax
    have hap := mountString_prefix_iff.mp hpre
    refine .inr ⟨a, ha, hap, (h.mounted_iff a).mpr hmem, fun b hb hmounted => ?_⟩
    have hle := hmax _ ((h.mounted_iff b).mp hmounted) (mountString_prefix_iff.mpr hb)
    have hlength :=
      length_le_of_closed_length_le (hb.map Name.chars) (hap.map Name.chars)
      (Nat.le_of_succ_le_succ hle)
    rwa [length_map, length_map] at hlength

theorem substring_mountString (a rest : List Name) (fresh : UInt8) :
    (mountString (a ++ rest)).substring fresh (mountString a).len
      ((mountString (a ++ rest)).len - 1) =
      .ofChars ([slash].intercalate (rest.map Name.chars)) := by
  have hchars :
      (mountString (a ++ rest)).chars =
      (mountString a).chars ++ closed slash (rest.map Name.chars) := by
    unfold mountString
    rw [map_append, closed_append]
    rfl
  have hlength : (mountString (a ++ rest)).len - 1 - (mountString a).len =
      (closed slash (rest.map Name.chars)).length - 1 := by
    rw [len, hchars, length_append, len]
    omega
  rw [substring_eq, hlength, hchars, len, drop_left, ← dropLast_eq_take, dropLast_closed]

theorem MountTable.getMountedDriver_eq (h : MountTable code mountPoints) (fresh : Nat → UInt8)
    (p : List Name) :
    getMountedDriver code fresh mountPoints (pathString p) =
      (let ret := mountPoints.keySet.foldl (pick (mountString p)) (.ofChars [])
      if ret.isEmpty then .ok (none, mountString p)
      else do
        let driver ← mountPoints.get code ret
        return (some driver, (mountString p).substring (fresh 0) ret.len
          ((mountString p).len - 1))) := by
  obtain ⟨m, hm⟩ := h.represents
  have hkeys : ∀ k ∈ mountPoints.keySet, k.WellFormed := fun _ hk => hm.used_of_mem_keySet hk
  unfold getMountedDriver
  rw [endsWith_pathString]
  simp only [bind, Except.bind, Bool.false_eq_true, if_false, pathString_append_separator,
    foldlM_longerMount fresh (wellFormed_mountString p) hkeys]
  rfl

theorem MountTable.getMountedDriver_cases (h : MountTable code mountPoints) (fresh : Nat → UInt8)
    (p : List Name) :
    (getMountedDriver code fresh mountPoints (pathString p) = .ok (none, mountString p) ∧
        ∀ a, a <+: p → ¬Mounted code mountPoints a) ∨
      ∃ a rest driver, p = a ++ rest ∧ Mounted code mountPoints a ∧
        (∀ b, b <+: p → Mounted code mountPoints b → b.length ≤ a.length) ∧
        mountPoints.get code (mountString a) = .ok driver ∧
        getMountedDriver code fresh mountPoints (pathString p) =
          .ok (some driver, .ofChars ([slash].intercalate (rest.map Name.chars))) := by
  rcases h.longest p with ⟨hempty, hnone⟩ | ⟨a, ha, ⟨rest, rfl⟩, hmounted, hmax⟩
  · refine .inl ⟨?_, hnone⟩
    rw [h.getMountedDriver_eq, hempty]
    rfl
  · obtain ⟨driver, hdriver⟩ := h.get_of_mounted hmounted
    refine .inr ⟨a, rest, driver, rfl, hmounted, hmax, hdriver, ?_⟩
    have hne : (mountString a).isEmpty = false := rfl
    rw [h.getMountedDriver_eq, ha]
    simp only [hne, hdriver, substring_mountString]
    rfl

end Table

/-- The mount point with the most components is found, and the rest of the path
is left for its driver. There is no driver exactly if there is no mount point on
the path. -/
theorem getMountedDriver_longest {D : Type} {code : String → Nat} {mountPoints : HashMap String D}
    (h : MountTable code mountPoints) (fresh : Nat → UInt8) (p : List Name) :
    ∃ driver path, getMountedDriver code fresh mountPoints (pathString p) = .ok (driver, path) ∧
      (driver = none ↔ ∀ a, a <+: p → ¬Mounted code mountPoints a) ∧
      ∀ a rest, p = a ++ rest → Mounted code mountPoints a →
        (∀ b, b <+: p → Mounted code mountPoints b → b.length ≤ a.length) →
        (∃ d, driver = some d ∧ mountPoints.get code (mountString a) = .ok d) ∧
          path = .ofChars ([slash].intercalate (rest.map Name.chars)) := by
  rcases h.getMountedDriver_cases fresh p with
    ⟨hcall, hnone⟩ | ⟨a, rest, driver, rfl, hmounted, hmax, hdriver, hcall⟩
  · refine ⟨none, mountString p, hcall, iff_of_true rfl hnone, ?_⟩
    rintro a rest rfl hmounted
    exact absurd hmounted (hnone a (prefix_append a rest))
  · refine ⟨some driver, _, hcall, iff_of_false nofun fun hnone =>
      hnone a (prefix_append a rest) hmounted, ?_⟩
    intro b rest' heq hmounted' hmax'
    -- both are prefixes of the path with as many components
    have hlen : a.length = b.length :=
      le_antisymm (hmax' a (prefix_append a rest) hmounted)
        (hmax b (heq ▸ prefix_append b rest') hmounted')
    obtain ⟨rfl, rfl⟩ := append_inj heq hlen
    exact ⟨⟨driver, rfl, hdriver⟩, rfl⟩

/-- The names "de", "dev" and "a". -/
def nameDe : Name := ⟨[100, 101], by decide, by decide, by decide, by decide, by decide⟩
def nameDev : Name := ⟨[100, 101, 118], by decide, by decide, by decide, by decide, by decide⟩
def nameA : Name := ⟨[97], by decide, by decide, by decide, by decide, by decide⟩

/-- "/dev/a" with mount points at "/", "/de" and "/dev". -/
theorem getMountedDriver_longest_dev :
    let mountPoints := (((HashMap.new String Nat).put toUInt32 (mountString []) 0).put toUInt32
      (mountString [nameDe]) 1).put toUInt32 (mountString [nameDev]) 2
    ∃ driver path, getMountedDriver toUInt32 (fun _ => 255) mountPoints
      (pathString [nameDev, nameA]) =
      .ok (driver, path) ∧ driver = some 2 ∧ path = .ofChars [97] := by
  intro mountPoints
  obtain ⟨h0, h0'⟩ := (mountTable_new toUInt32 Nat).put [] 0
  obtain ⟨h1, h1'⟩ := h0.put [nameDe] 1
  obtain ⟨h2, h2'⟩ := h1.put [nameDev] 2
  obtain ⟨driver, path, hcall, -, hlongest⟩ :=
    getMountedDriver_longest h2 (fun _ => 255) [nameDev, nameA]
  have hdev : Mounted toUInt32 mountPoints [nameDev] := by
    rw [h2.mounted_iff_driverAt, h2']
    rfl
  have hmax : ∀ b, b <+: [nameDev, nameA] → Mounted toUInt32 mountPoints b →
      b.length ≤ [nameDev].length := by
    intro b hb hmounted
    by_contra hlong
    rw [hb.eq_of_length_le (not_le.mp hlong), h2.mounted_iff_driverAt, h2', h1', h0',
      update_of_ne (by decide)] at hmounted
    cases hmounted
  obtain ⟨⟨d, hd, hget⟩, hpath⟩ := hlongest [nameDev] [nameA] rfl hdev hmax
  have hdriver : driverAt toUInt32 mountPoints [nameDev] = some d := congrArg Except.toOption hget
  rw [h2'] at hdriver
  exact ⟨driver, path, hcall, hd.trans hdriver.symm, hpath⟩

end HuyaOS.Filesystem
