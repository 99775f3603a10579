import HuyaOS.Paging.Boot

/-!
Many directories over one memory. Every process directory is copied from the
base directory and shares the tables of kernel space with it; these tables all
exist before the first copy is made and are never replaced. The user tables of
a directory belong to it alone. Both facts are one invariant about the pages in
use, which creating a directory and every call through a directory preserve.
-/

namespace HuyaOS.PageDirectory

open Lib Management Paging List

/-- The base directory and the process directories made from it. -/
structure System where
  mem : Mem
  base : PageDirectory
  processes : List PageDirectory

/-- A page that paging uses. -/
inductive Area
  | directory (dir : PageDirectory)
  | addresses (dir : PageDirectory)
  | userTable (dir : PageDirectory) (idx : Nat)
  | kernelTable (idx : Nat)

namespace System

def all (s : System) : List PageDirectory := s.base :: s.processes

/-- The pages that paging uses at the moment. -/
def InUse (s : System) : Area → Prop
  | .directory dir => dir ∈ s.all
  | .addresses dir => dir ∈ s.all
  | .userTable dir idx => dir ∈ s.all ∧ idx < kernelIndex ∧ HasTable s.mem dir idx
  | .kernelTable idx => kernelIndex ≤ idx ∧ idx < 1024

def location (s : System) : Area → Nat
  | .directory dir => dir.pageDirectory
  | .addresses dir => dir.virtTableAddresses
  | .userTable dir idx => tableAddress s.mem dir idx
  | .kernelTable idx => tableAddress s.mem s.base idx

def Free (s : System) (page : Nat) : Prop := ∀ a, s.InUse a → Apart 1024 page (s.location a)

end System

/-- Pages in use do not overlap, the tables of kernel space exist, and every
directory refers to them as the base directory does. -/
structure Shared (s : System) : Prop where
  apart : ∀ a b, s.InUse a → s.InUse b → a ≠ b → Apart 1024 (s.location a) (s.location b)
  kernel : ∀ idx, kernelIndex ≤ idx → idx < 1024 → HasTable s.mem s.base idx
  agree : ∀ dir ∈ s.all, ∀ idx, kernelIndex ≤ idx → idx < 1024 →
    dirEntry s.mem dir idx = dirEntry s.mem s.base idx ∧
      tableAddress s.mem dir idx = tableAddress s.mem s.base idx

/-- The page that `map` would turn into a table. -/
def Call.newTable : Call → Option NewTable
  | .map _ _ _ table => some table
  | _ => none

section Calls

variable {m : Mem} {dir : PageDirectory} {v : Nat}

theorem GET_PD_IDX_aligned (hv : v < 2 ^ 32) : GET_PD_IDX (v &&& 0xFFFFF000) = GET_PD_IDX v := by
  rw [GET_PD_IDX_eq, GET_PD_IDX_eq, pageOf_aligned hv]

theorem setTableEntry_aligned (hv : v < 2 ^ 32) (value : Nat) :
    setTableEntry m dir (v &&& 0xFFFFF000) value = setTableEntry m dir v value := by
  unfold setTableEntry
  rw [GET_PD_IDX_aligned hv, GET_PT_IDX_eq, GET_PT_IDX_eq, pageOf_aligned hv]

theorem updateEntry_cases (hv : v < 2 ^ 32) (update : Nat → Nat) :
    updateEntry m dir v update = m ∨ (HasTable m dir (GET_PD_IDX v) ∧
      ∃ value, updateEntry m dir v update = setTableEntry m dir v value) := by
  unfold updateEntry
  simp only [GET_PD_IDX_aligned hv, setTableEntry_aligned hv]
  split
  · exact .inl rfl
  · rename_i htable
    split
    · exact .inl rfl
    · exact .inr ⟨htable, _, rfl⟩

theorem unmap_cases (m : Mem) (dir : PageDirectory) (v : Nat) :
    unmap m dir v = (0, m) ∨ (HasTable m dir (GET_PD_IDX v) ∧
      tableEntry m dir v &&& PAGE_PRESENT ≠ 0 ∧
      unmap m dir v = (tableEntry m dir v &&& 0xFFFFF000, setTableEntry m dir v 0)) := by
  unfold unmap
  split
  · exact .inl rfl
  · rename_i htable
    split
    · exact .inl rfl
    · rename_i hpresent
      split
      · exact .inl rfl
      · exact .inr ⟨htable, hpresent, rfl⟩

theorem exec_map_snd (physAddress virtAddress flags : Nat) (table : NewTable) :
    (exec m dir (.map physAddress virtAddress flags table)).2 =
      (map m dir table physAddress virtAddress flags).2 := by
  simp only [exec]
  rcases map m dir table physAddress virtAddress flags with ⟨_ | _, m'⟩ <;> rfl

/-- A call writes nothing, or the entry of its page, for which `map` may have
created the table. -/
theorem exec_cases (m : Mem) (dir : PageDirectory) {call : Call} (hv : call.virtAddress < 2 ^ 32) :
    (exec m dir call).2 = m ∨
      (HasTable m dir (GET_PD_IDX call.virtAddress) ∧
        ∃ value, (exec m dir call).2 = setTableEntry m dir call.virtAddress value) ∨
      (¬HasTable m dir (GET_PD_IDX call.virtAddress) ∧ ∃ table, call.newTable = some table ∧
        ((exec m dir call).2 = createPageTable m dir (GET_PD_IDX call.virtAddress) table ∨
          ∃ value, (exec m dir call).2 = setTableEntry
            (createPageTable m dir (GET_PD_IDX call.virtAddress) table) dir call.virtAddress
            value)) := by
  cases call with
  | map physAddress virtAddress flags table =>
    simp only [exec_map_snd, Call.virtAddress, Call.newTable]
    by_cases htable : HasTable m dir (GET_PD_IDX virtAddress)
    · rw [map_of_hasTable table physAddress flags htable]
      split
      · exact .inl rfl
      · exact .inr (.inl ⟨htable, _, rfl⟩)
    · refine .inr (.inr ⟨htable, table, rfl, ?_⟩)
      simp only [map]
      rw [if_pos (not_not.mp htable)]
      split
      · exact .inl rfl
      · exact .inr ⟨_, rfl⟩
  | unmap virtAddress =>
    simp only [exec, Call.virtAddress]
    rcases unmap_cases m dir virtAddress with heq | ⟨htable, _, heq⟩
    · exact .inl (by rw [heq])
    · exact .inr (.inl ⟨htable, 0, by rw [heq]⟩)
  | protectPage virtAddress =>
    exact (updateEntry_cases hv (· ||| PAGE_WRITE_PROTECTED)).imp_right .inl
  | unprotectPage virtAddress =>
    exact (updateEntry_cases hv (· &&& (0xFFFFFFFF - PAGE_WRITE_PROTECTED))).imp_right .inl

end Calls

section Invariant

variable {s : System} {m' : Mem} {dir : PageDirectory} {idx : Nat}

/-- The page that holds table `idx` of a directory. -/
def tableArea (dir : PageDirectory) (idx : Nat) : Area :=
  if idx < kernelIndex then .userTable dir idx else .kernelTable idx

theorem Shared.tableArea_spec (hs : Shared s) (hdir : dir ∈ s.all) (hidx : idx < 1024)
    (htable : HasTable s.mem dir idx) :
    s.InUse (tableArea dir idx) ∧ s.location (tableArea dir idx) = tableAddress s.mem dir idx := by
  unfold tableArea
  split
  · rename_i huser
    exact ⟨⟨hdir, huser, htable⟩, rfl⟩
  · exact ⟨⟨by omega, hidx⟩, (hs.agree dir hdir idx (by omega) hidx).2.symm⟩

theorem Shared.hasTable_of_kernel (hs : Shared s) (hdir : dir ∈ s.all) (hlo : kernelIndex ≤ idx)
    (hhi : idx < 1024) : HasTable s.mem dir idx := by
  unfold HasTable
  rw [(hs.agree dir hdir idx hlo hhi).1]
  exact hs.kernel idx hlo hhi

variable {other : PageDirectory} {table : NewTable}

section

variable (hs : Shared s) (hdir : dir ∈ s.all)

include hs hdir

theorem Shared.table_apart (hidx : idx < 1024) (htable : HasTable s.mem dir idx)
    (hother : other ∈ s.all) :
    Apart 1024 (tableAddress s.mem dir idx) other.pageDirectory ∧
      Apart 1024 (tableAddress s.mem dir idx) other.virtTableAddresses := by
  obtain ⟨huse, hloc⟩ := hs.tableArea_spec hdir hidx htable
  rw [← hloc]
  constructor
  · refine hs.apart (tableArea dir idx) (.directory other) huse hother ?_
    unfold tableArea
    split <;> simp
  · refine hs.apart (tableArea dir idx) (.addresses other) huse hother ?_
    unfold tableArea
    split <;> simp

theorem Shared.separated : Separated s.mem dir where
  arrays := hs.apart (.directory dir) (.addresses dir) hdir hdir (by simp)
  directory idx hidx htable := (hs.table_apart hdir hidx htable hdir).1
  addresses idx hidx htable := (hs.table_apart hdir hidx htable hdir).2
  tables i hi j hj hne htable htable' := by
    obtain ⟨huse, hloc⟩ := hs.tableArea_spec hdir hi htable
    obtain ⟨huse', hloc'⟩ := hs.tableArea_spec hdir hj htable'
    rw [← hloc, ← hloc']
    refine hs.apart _ _ huse huse' ?_
    unfold tableArea
    split <;> split <;> simp [hne]

theorem Shared.unused {page : Nat} (hfree : s.Free page) : Unused s.mem dir page where
  directory := hfree (.directory dir) hdir
  addresses := hfree (.addresses dir) hdir
  tables idx hidx htable := by
    obtain ⟨huse, hloc⟩ := hs.tableArea_spec hdir hidx htable
    rw [← hloc]
    exact hfree _ huse

end

/-- The invariant carries over to a system in which every page in use was in
use before, at the same place, or is new and overlaps none of those, and in
which every directory has the kernel entries of the base directory. -/
theorem Shared.of_pages (hs : Shared s) {s' : System} (hbase : s'.base ∈ s'.all) (new : Area → Prop)
    (hpages : ∀ a, s'.InUse a → (s.InUse a ∧ s'.location a = s.location a) ∨
        (new a ∧ s.Free (s'.location a)))
    (hnew : ∀ a b, new a → new b → a ≠ b → Apart 1024 (s'.location a) (s'.location b))
    (hkernel : ∀ d ∈ s'.all, ∀ i, kernelIndex ≤ i → i < 1024 →
        dirEntry s'.mem d i = dirEntry s.mem s.base i ∧
        tableAddress s'.mem d i = tableAddress s.mem s.base i) : Shared s' where
  apart a b ha hb hne := by
    rcases hpages a ha with ⟨ha', hloc⟩ | ⟨hnewa, hfree⟩
    · rcases hpages b hb with ⟨hb', hloc'⟩ | ⟨_, hfree⟩
      · rw [hloc, hloc']
        exact hs.apart a b ha' hb' hne
      · rw [hloc]
        exact (hfree a ha').symm
    · rcases hpages b hb with ⟨hb', hloc'⟩ | ⟨hnewb, _⟩
      · rw [hloc']
        exact hfree b hb'
      · exact hnew a b hnewa hnewb hne
  kernel i hlo hhi := by
    unfold HasTable
    rw [(hkernel s'.base hbase i hlo hhi).1]
    exact hs.kernel i hlo hhi
  agree d hd i hlo hhi := by
    obtain ⟨hentry, htable⟩ := hkernel d hd i hlo hhi
    obtain ⟨hentry', htable'⟩ := hkernel s'.base hbase i hlo hhi
    exact ⟨hentry.trans hentry'.symm, htable.trans htable'.symm⟩

/-- The arrays of the directories are the same in another memory. -/
def System.KeepsArrays (s : System) (m' : Mem) : Prop :=
  ∀ dir ∈ s.all, ∀ i < 1024, dirEntry m' dir i = dirEntry s.mem dir i ∧
    tableAddress m' dir i = tableAddress s.mem dir i

theorem System.pages_of_arrays (hkeep : s.KeepsArrays m') {a : Area}
    (huse : System.InUse { s with mem := m' } a) :
    s.InUse a ∧ System.location { s with mem := m' } a = s.location a := by
  cases a with
  | directory dir => exact ⟨huse, rfl⟩
  | addresses dir => exact ⟨huse, rfl⟩
  | userTable dir idx =>
    obtain ⟨hdir, hidx, htable⟩ := huse
    obtain ⟨hentry, haddress⟩ := hkeep dir hdir idx (lt_of_lt_kernelIndex hidx)
    unfold HasTable at htable
    rw [hentry] at htable
    exact ⟨⟨hdir, hidx, htable⟩, haddress⟩
  | kernelTable idx => exact ⟨huse, (hkeep s.base mem_cons_self idx huse.2).2⟩

theorem Shared.of_arrays (hs : Shared s) (hkeep : s.KeepsArrays m') :
    Shared { s with mem := m' } := by
  have hbase : s.base ∈ s.all := mem_cons_self
  refine hs.of_pages hbase (fun _ => False)
    (fun a huse => .inl (System.pages_of_arrays hkeep huse)) (fun _ _ hfalse => hfalse.elim) ?_
  intro dir hdir idx hlo hhi
  obtain ⟨hentry, haddress⟩ := hkeep dir hdir idx hhi
  obtain ⟨hentry', haddress'⟩ := hs.agree dir hdir idx hlo hhi
  exact ⟨hentry.trans hentry', haddress.trans haddress'⟩

theorem Shared.erase (hs : Shared s) (dir : PageDirectory) :
    Shared { s with processes := s.processes.erase dir } := by
  have hall : ∀ d, d ∈ s.base :: s.processes.erase dir → d ∈ s.all := by
    intro d hd
    rcases List.mem_cons.mp hd with rfl | hd
    · exact List.mem_cons_self
    · exact List.mem_cons_of_mem _ (List.mem_of_mem_erase hd)
  have huse : ∀ a, System.InUse { s with processes := s.processes.erase dir } a → s.InUse a := by
    intro a ha
    cases a with
    | directory d => exact hall d ha
    | addresses d => exact hall d ha
    | userTable d idx => exact ⟨hall d ha.1, ha.2⟩
    | kernelTable idx => exact ha
  -- the pages of the others lie where they were
  have hsame : System.location { s with processes := s.processes.erase dir } = s.location := by
    funext a
    cases a <;> rfl
  refine ⟨fun a b ha hb hne => ?_, hs.kernel, fun d hd => hs.agree d (hall d hd)⟩
  rw [hsame]
  exact hs.apart a b (huse a ha) (huse b hb) hne

section

variable (hs : Shared s) (hdir : dir ∈ s.all)

include hs hdir

theorem Shared.setTableEntry_arrays {v : Nat} (hv : v < 2 ^ 32)
    (htable : HasTable s.mem dir (GET_PD_IDX v)) (value : Nat) :
    s.KeepsArrays (setTableEntry s.mem dir v value) := by
  intro other hother i hi
  obtain ⟨hpd, hvta⟩ := hs.table_apart hdir (pd_lt hv) htable hother
  exact ⟨getWord_setWord_apart hpd (pt_lt v) hi, getWord_setWord_apart hvta (pt_lt v) hi⟩

theorem Shared.after_setTableEntry {v : Nat} (hv : v < 2 ^ 32)
    (htable : HasTable s.mem dir (GET_PD_IDX v)) (value : Nat) :
    Shared { s with mem := setTableEntry s.mem dir v value } :=
  hs.of_arrays (hs.setTableEntry_arrays hdir hv htable value)

theorem Shared.createPageTable_arrays (hidx : idx < 1024) (hlt : table.virtAddress < 2 ^ 32)
    (hfree : s.Free table.virtAddress) (hother : other ∈ s.all) {i : Nat} (hi : i < 1024)
    (hne : other ≠ dir ∨ i ≠ idx) :
    dirEntry (createPageTable s.mem dir idx table) other i = dirEntry s.mem other i ∧
      tableAddress (createPageTable s.mem dir idx table) other i = tableAddress s.mem other i := by
  by_cases hsame : other = dir
  · have hi' := hne.resolve_left (not_not.mpr hsame)
    have hsep := hs.separated hdir
    have hunused := hs.unused hdir hfree
    rw [hsame, dirEntry_createPageTable hsep.arrays hunused hidx hi,
      tableAddress_createPageTable hsep.arrays hunused hlt hidx hi, if_neg hi', if_neg hi']
    exact ⟨rfl, rfl⟩
  · constructor
    · refine getWord_createPageTable hidx hi (hfree (.directory other) hother) ?_ ?_
      · exact hs.apart (.directory dir) (.directory other) hdir hother (by simp [Ne.symm hsame])
      · exact hs.apart (.addresses dir) (.directory other) hdir hother (by simp)
    · refine getWord_createPageTable hidx hi (hfree (.addresses other) hother) ?_ ?_
      · exact hs.apart (.directory dir) (.addresses other) hdir hother (by simp)
      · exact hs.apart (.addresses dir) (.addresses other) hdir hother (by simp [Ne.symm hsame])

section

variable (hidx : idx < kernelIndex) (hlt : table.virtAddress < 2 ^ 32)
  (hfree : s.Free table.virtAddress)

include hidx hlt hfree

theorem Shared.createPageTable_pages {s' : System}
    (hs' : s' = { s with mem := createPageTable s.mem dir idx table }) {a : Area}
    (huse : s'.InUse a) : (s.InUse a ∧ s'.location a = s.location a) ∨
      (a = .userTable dir idx ∧ s.Free (s'.location a)) := by
  subst hs'
  have hidx' := lt_of_lt_kernelIndex hidx
  have hkeep := fun {other : PageDirectory} (hother : other ∈ s.all) {i : Nat} (hi : i < 1024) =>
    hs.createPageTable_arrays hdir hidx' hlt hfree hother hi
  cases a with
  | directory other => exact .inl ⟨huse, rfl⟩
  | addresses other => exact .inl ⟨huse, rfl⟩
  | userTable other i =>
    obtain ⟨hother, hi, htable⟩ := huse
    by_cases hne : other ≠ dir ∨ i ≠ idx
    · obtain ⟨hentry, haddress⟩ := hkeep hother (lt_of_lt_kernelIndex hi) hne
      unfold HasTable at htable
      rw [hentry] at htable
      exact .inl ⟨⟨hother, hi, htable⟩, haddress⟩
    · obtain ⟨rfl, rfl⟩ : other = dir ∧ i = idx := by
        rw [not_or, not_not, not_not] at hne
        exact hne
      have hloc := (tableAddress_createPageTable (hs.separated hdir).arrays
        (hs.unused hdir hfree) hlt hidx' hidx').trans (if_pos rfl)
      refine .inr ⟨rfl, ?_⟩
      simp only [System.location, hloc]
      exact hfree
  | kernelTable i =>
    have hne : i ≠ idx := fun heq => absurd huse.1 (by omega)
    exact .inl ⟨huse, (hkeep mem_cons_self huse.2 (.inr hne)).2⟩

theorem Shared.after_createPageTable :
    Shared { s with mem := createPageTable s.mem dir idx table } := by
  refine hs.of_pages mem_cons_self (· = .userTable dir idx)
    (fun a huse => hs.createPageTable_pages hdir hidx hlt hfree rfl huse) ?_ ?_
  · rintro a b rfl rfl hne
    exact absurd rfl hne
  · intro other hother i hlo hhi
    obtain ⟨hentry, haddress⟩ :=
      hs.createPageTable_arrays hdir (lt_of_lt_kernelIndex hidx) hlt hfree
      hother hhi (.inr (by omega))
    obtain ⟨hentry', haddress'⟩ := hs.agree other hother i hlo hhi
    exact ⟨hentry.trans hentry', haddress.trans haddress'⟩

end

end

end Invariant

/-- What happens in the system: a directory is created in two given pages, or a
call is made through a directory. -/
inductive Action
  | create (pageDirectory virtTableAddresses : Nat)
  | call (dir : PageDirectory) (call : Call)

/-- New arrays and tables are placed in pages that are not in use. -/
inductive SystemStep : System → Action → System → Prop
  | create {s : System} {current dir : PageDirectory} {pageDirectory virtTableAddresses : Nat}
      {mem' : Mem} (hcurrent : current ∈ s.all) (hdirectory : s.Free pageDirectory)
      (haddresses : s.Free virtTableAddresses)
        (hapart : Apart 1024 pageDirectory virtTableAddresses)
      (hcall : process s.mem s.base current pageDirectory virtTableAddresses = some (dir, mem')) :
      SystemStep s (.create pageDirectory virtTableAddresses) ⟨mem', s.base, dir :: s.processes⟩
  | call {s : System} {dir : PageDirectory} {call : Call} (hdir : dir ∈ s.all)
      (hv : call.virtAddress < 2 ^ 32)
      (hnew : ∀ table, call.newTable = some table →
        ¬HasTable s.mem dir (GET_PD_IDX call.virtAddress) →
          table.virtAddress < 2 ^ 32 ∧ s.Free table.virtAddress) :
      SystemStep s (.call dir call) { s with mem := (exec s.mem dir call).2 }

section Steps

variable {s s' : System} {dir : PageDirectory}

theorem mem_all_create {m : Mem} {d : PageDirectory}
    (hd : d ∈ System.all ⟨m, s.base, dir :: s.processes⟩) : d = dir ∨ d ∈ s.all := by
  simp only [System.all, mem_cons] at hd ⊢
  tauto

theorem Shared.after_exec (hs : Shared s) (hdir : dir ∈ s.all) {call : Call}
    (hv : call.virtAddress < 2 ^ 32)
    (hnew : ∀ table, call.newTable = some table →
        ¬HasTable s.mem dir (GET_PD_IDX call.virtAddress) →
        table.virtAddress < 2 ^ 32 ∧ s.Free table.virtAddress) :
    Shared { s with mem := (exec s.mem dir call).2 } := by
  rcases exec_cases s.mem dir hv with
    hsame | ⟨htable, value, hwrite⟩ | ⟨hnone, table, htable, hcreate⟩
  · rw [hsame]
    exact hs
  · rw [hwrite]
    exact hs.after_setTableEntry hdir hv htable value
  · obtain ⟨hlt, hfree⟩ := hnew table htable hnone
    have huser : GET_PD_IDX call.virtAddress < kernelIndex := by
      by_contra hkernel
      exact hnone (hs.hasTable_of_kernel hdir (by omega) (pd_lt hv))
    have hs' := hs.after_createPageTable hdir huser hlt hfree
    rcases hcreate with hcreate | ⟨value, hwrite⟩
    · rw [hcreate]
      exact hs'
    · rw [hwrite]
      refine hs'.after_setTableEntry hdir hv ?_ value
      exact (hasTable_createPageTable (hs.separated hdir).arrays (hs.unused hdir hfree) (pd_lt hv)
        (pd_lt hv)).mpr (.inl rfl)

section Process

variable {current : PageDirectory} {pageDirectory virtTableAddresses : Nat} {mem' : Mem}

section

variable (hdirectory : s.Free pageDirectory) (haddresses : s.Free virtTableAddresses)
  (hapart : Apart 1024 pageDirectory virtTableAddresses)

include hdirectory haddresses hapart

theorem System.Free.fresh : Fresh s.base pageDirectory virtTableAddresses :=
  have hbase : s.base ∈ s.all := mem_cons_self
  ⟨hapart, hdirectory (.directory s.base) hbase, hdirectory (.addresses s.base) hbase,
    haddresses (.directory s.base) hbase, haddresses (.addresses s.base) hbase⟩

section

variable (hcall : process s.mem s.base current pageDirectory virtTableAddresses = some (dir, mem'))

include hcall

theorem process_arrays {d : PageDirectory} (hd : d ∈ s.all) {i : Nat} (hi : i < 1024) :
    dirEntry mem' d i = dirEntry s.mem d i ∧ tableAddress mem' d i = tableAddress s.mem d i := by
  obtain ⟨_, hother, _⟩ := process_spec hcall (hdirectory.fresh haddresses hapart)
  exact ⟨hother _ (hdirectory (.directory d) hd) (haddresses (.directory d) hd) i hi,
    hother _ (hdirectory (.addresses d) hd) (haddresses (.addresses d) hd) i hi⟩

theorem process_pages {s' : System} (hs' : s' = ⟨mem', s.base, dir :: s.processes⟩) {a : Area}
    (huse : s'.InUse a) :
    (s.InUse a ∧ s'.location a = s.location a) ∨
      ((a = .directory dir ∨ a = .addresses dir) ∧ s.Free (s'.location a)) := by
  subst hs'
  have hkeep := fun {d : PageDirectory} (hd : d ∈ s.all) {i : Nat} (hi : i < 1024) =>
    process_arrays hdirectory haddresses hapart hcall hd hi
  obtain ⟨⟨rfl, rfl⟩, _, hentries, _⟩ := process_spec hcall (hdirectory.fresh haddresses hapart)
  cases a with
  | directory d =>
    rcases mem_all_create huse with rfl | hd
    · exact .inr ⟨.inl rfl, hdirectory⟩
    · exact .inl ⟨hd, rfl⟩
  | addresses d =>
    rcases mem_all_create huse with rfl | hd
    · exact .inr ⟨.inr rfl, haddresses⟩
    · exact .inl ⟨hd, rfl⟩
  | userTable d i =>
    obtain ⟨hd, hi, htable⟩ := huse
    have hi' := lt_of_lt_kernelIndex hi
    unfold HasTable at htable
    rcases mem_all_create hd with rfl | hd
    · -- a new directory has no user tables
      rw [hentries i hi', if_neg (by omega)] at htable
      exact absurd rfl htable
    · rw [(hkeep hd hi').1] at htable
      exact .inl ⟨⟨hd, hi, htable⟩, (hkeep hd hi').2⟩
  | kernelTable i => exact .inl ⟨huse, (hkeep mem_cons_self huse.2).2⟩

end

end

theorem Shared.after_process (hs : Shared s) (hdirectory : s.Free pageDirectory)
    (haddresses : s.Free virtTableAddresses) (hapart : Apart 1024 pageDirectory virtTableAddresses)
    (hcall : process s.mem s.base current pageDirectory virtTableAddresses = some (dir, mem')) :
    Shared ⟨mem', s.base, dir :: s.processes⟩ := by
  obtain ⟨⟨hpd, hvta⟩, _, hentries, htables⟩ :=
    process_spec hcall (hdirectory.fresh haddresses hapart)
  refine hs.of_pages mem_cons_self (fun a => a = .directory dir ∨ a = .addresses dir)
    (fun a huse => process_pages hdirectory haddresses hapart hcall rfl huse) ?_ ?_
  · rintro a b (rfl | rfl) (rfl | rfl) hne
    · exact absurd rfl hne
    · simpa only [System.location, hpd, hvta] using hapart
    · simpa only [System.location, hpd, hvta] using hapart.symm
    · exact absurd rfl hne
  · intro d hd i hlo hhi
    rcases mem_all_create hd with rfl | hd
    · exact ⟨(hentries i hhi).trans (if_pos hlo), (htables i hhi).trans (if_pos hlo)⟩
    · obtain ⟨hentry, haddress⟩ := process_arrays hdirectory haddresses hapart hcall hd hhi
      obtain ⟨hentry', haddress'⟩ := hs.agree d hd i hlo hhi
      exact ⟨hentry.trans hentry', haddress.trans haddress'⟩

end Process

theorem shared_step {action : Action} (hs : Shared s) (hstep : SystemStep s action s') :
    Shared s' := by
  cases hstep with
  | create hcurrent hdirectory haddresses hapart hcall =>
    exact hs.after_process hdirectory haddresses hapart hcall
  | call hdir hv hnew => exact hs.after_exec hdir hv hnew

/-- Every directory sees kernel space as the base directory does. -/
theorem Shared.view_kernel (hs : Shared s) (hdir : dir ∈ s.all) {v : Nat} (hlo : KERNEL_START ≤ v)
    (hhi : v < 2 ^ 32) : view s.mem dir (pageOf v) = view s.mem s.base (pageOf v) := by
  have hkernel : kernelIndex ≤ GET_PD_IDX v := by
    rw [GET_PD_IDX_eq, kernelIndex_eq, pageOf, PAGESIZE]
    simp only [KERNEL_START] at hlo
    omega
  obtain ⟨_, haddress⟩ := hs.agree dir hdir (GET_PD_IDX v) hkernel (pd_lt hhi)
  rw [view_pageOf hhi, view_pageOf hhi,
    if_pos (hs.hasTable_of_kernel hdir hkernel (pd_lt hhi)),
      if_pos (hs.kernel _ hkernel (pd_lt hhi)),
    tableEntry, tableEntry, haddress]

variable {other : PageDirectory}

section

variable (hs : Shared s) (hdir : dir ∈ s.all)

include hs hdir

theorem Shared.view_setTableEntry {v : Nat} (hv : v < 2 ^ 32) (huser : GET_PD_IDX v < kernelIndex)
    (htable : HasTable s.mem dir (GET_PD_IDX v)) (value : Nat) (hother : other ∈ s.all)
    (hne : other ≠ dir) (page : Nat) :
    view (setTableEntry s.mem dir v value) other page = view s.mem other page := by
  have harrays := hs.setTableEntry_arrays hdir hv htable value other hother
  refine view_congr (fun hpage => (harrays _ (by omega)).1) ?_
  intro hpage htable'
  rw [(harrays _ (by omega)).2]
  refine getWord_setWord_apart ?_ (pt_lt v) (by omega)
  obtain ⟨huse, hloc⟩ := hs.tableArea_spec hother (by omega) htable'
  rw [← hloc]
  refine hs.apart (.userTable dir (GET_PD_IDX v)) _ ⟨hdir, huser, htable⟩ huse ?_
  unfold tableArea
  split <;> simp [Ne.symm hne]

theorem Shared.view_createPageTable {idx : Nat} (hidx : idx < 1024) {table : NewTable}
    (hlt : table.virtAddress < 2 ^ 32) (hfree : s.Free table.virtAddress) (hother : other ∈ s.all)
    (hne : other ≠ dir) (page : Nat) :
    view (createPageTable s.mem dir idx table) other page = view s.mem other page := by
  have harrays := fun {i : Nat} (hi : i < 1024) =>
    hs.createPageTable_arrays hdir hidx hlt hfree hother hi (.inl hne)
  refine view_congr (fun hpage => (harrays (by omega)).1) ?_
  intro hpage htable
  rw [(harrays (by omega)).2]
  obtain ⟨hpd, hvta⟩ := hs.table_apart hother (by omega) htable hdir
  exact getWord_createPageTable hidx (by omega)
    ((hs.unused hother hfree).tables _ (by omega) htable) hpd.symm hvta.symm

theorem Shared.view_exec {call : Call} (hv : call.virtAddress < KERNEL_START)
    (hnew : ∀ table, call.newTable = some table →
        ¬HasTable s.mem dir (GET_PD_IDX call.virtAddress) →
        table.virtAddress < 2 ^ 32 ∧ s.Free table.virtAddress)
    (hother : other ∈ s.all) (hne : other ≠ dir) (page : Nat) :
    view (exec s.mem dir call).2 other page = view s.mem other page := by
  have hv' : call.virtAddress < 2 ^ 32 := by
    simp only [KERNEL_START] at hv
    omega
  have huser : GET_PD_IDX call.virtAddress < kernelIndex := by
    rw [GET_PD_IDX_eq, kernelIndex_eq, pageOf, PAGESIZE]
    simp only [KERNEL_START] at hv
    omega
  rcases exec_cases s.mem dir hv' with
    hsame | ⟨htable, value, hwrite⟩ | ⟨hnone, table, htable, hcreate⟩
  · rw [hsame]
  · rw [hwrite]
    exact hs.view_setTableEntry hdir hv' huser htable value hother hne page
  · obtain ⟨hlt, hfree⟩ := hnew table htable hnone
    have hs' := hs.after_createPageTable hdir huser hlt hfree
    have hview := hs.view_createPageTable hdir (pd_lt hv') hlt hfree hother hne page
    rcases hcreate with hcreate | ⟨value, hwrite⟩
    · rw [hcreate]
      exact hview
    · rw [hwrite, ← hview]
      refine hs'.view_setTableEntry hdir hv' huser ?_ value hother hne page
      exact (hasTable_createPageTable (hs.separated hdir).arrays (hs.unused hdir hfree)
        (pd_lt hv') (pd_lt hv')).mpr (.inl rfl)

end

end Steps

section Runs

variable {m m₀ : Mem} {reservedMemoryEnd : Nat}

theorem boot_areas (hboot : bootstrap m reservedMemoryEnd = some m₀) {a : Area}
    (huse : System.InUse ⟨m₀, baseDirectory reservedMemoryEnd, []⟩ a) :
    a = .directory (baseDirectory reservedMemoryEnd) ∨
      a = .addresses (baseDirectory reservedMemoryEnd) ∨
      ∃ idx, a = .kernelTable idx ∧ kernelIndex ≤ idx ∧ idx < 1024 := by
  have hentered := bootstrap_spec hboot
  have hall : ∀ d, d ∈ System.all ⟨m₀, baseDirectory reservedMemoryEnd, []⟩ →
      d = baseDirectory reservedMemoryEnd := fun d hd => mem_singleton.mp hd
  cases a with
  | directory d => exact .inl (by rw [hall d huse])
  | addresses d => exact .inr (.inl (by rw [hall d huse]))
  | userTable d idx =>
    obtain ⟨hd, hidx, htable⟩ := huse
    rw [hall d hd] at htable
    have := (hentered.hasTable_iff (lt_of_lt_kernelIndex hidx)).mp htable
    omega
  | kernelTable idx => exact .inr (.inr ⟨idx, rfl, huse.1, huse.2⟩)

/-- They lie side by side in the first 258 pages of the paging area. -/
def bootSlot : Area → Nat
  | .directory _ => 256
  | .addresses _ => 257
  | .userTable _ _ => 0
  | .kernelTable idx => idx - kernelIndex

theorem boot_location (hboot : bootstrap m reservedMemoryEnd = some m₀) {a : Area}
    (huse : System.InUse ⟨m₀, baseDirectory reservedMemoryEnd, []⟩ a) :
    System.location ⟨m₀, baseDirectory reservedMemoryEnd, []⟩ a =
      VIRT_PAGE_MEM_START + bootSlot a * PAGESIZE ∧ bootSlot a < 258 := by
  rcases boot_areas hboot huse with rfl | rfl | ⟨idx, rfl, hlo, hhi⟩
  · exact ⟨(baseDirectory_location reservedMemoryEnd).1, by simp [bootSlot]⟩
  · exact ⟨(baseDirectory_location reservedMemoryEnd).2, by simp [bootSlot]⟩
  · refine ⟨(bootstrap_spec hboot).tableAddress_of_kernel hlo hhi, ?_⟩
    simp only [bootSlot, kernelIndex_eq]
    omega

theorem apart_of_slots {i j : Nat} (hne : i ≠ j) :
    Apart 1024 (VIRT_PAGE_MEM_START + i * PAGESIZE) (VIRT_PAGE_MEM_START + j * PAGESIZE) := by
  unfold Apart PAGESIZE
  omega

theorem shared_boot (hboot : bootstrap m reservedMemoryEnd = some m₀) :
    Shared ⟨m₀, baseDirectory reservedMemoryEnd, []⟩ := by
  have hentered := bootstrap_spec hboot
  refine ⟨?_, ?_, ?_⟩
  · intro a b ha hb hne
    rw [(boot_location hboot ha).1, (boot_location hboot hb).1]
    refine apart_of_slots ?_
    intro hslot
    refine hne ?_
    rcases boot_areas hboot ha with rfl | rfl | ⟨i, rfl, hlo, hhi⟩ <;>
      rcases boot_areas hboot hb with rfl | rfl | ⟨j, rfl, hlo', hhi'⟩ <;>
      simp only [bootSlot, kernelIndex_eq, Area.kernelTable.injEq, reduceCtorEq] at * <;> omega
  · intro idx hlo hhi
    exact (hentered.hasTable_iff hhi).mpr hlo
  · intro d hd idx _ _
    rw [mem_singleton.mp hd]
    exact ⟨rfl, rfl⟩

/-- After booting, and after any sequence of steps, every process directory
agrees with the base directory on kernel space, and a call on a user address
changes no user page of another directory. -/
theorem run_shares_kernel {actions : List Action} {s : System}
    (hboot : bootstrap m reservedMemoryEnd = some m₀)
    (hrun : Run SystemStep ⟨m₀, baseDirectory reservedMemoryEnd, []⟩ actions s) :
    (∀ dir ∈ s.processes, ∀ v, KERNEL_START ≤ v → v < 2 ^ 32 →
      getPhysicalAddress s.mem dir v = getPhysicalAddress s.mem s.base v ∧
        view s.mem dir (pageOf v) = view s.mem s.base (pageOf v)) ∧
    ∀ dir call s', SystemStep s (.call dir call) s' → call.virtAddress < KERNEL_START →
      ∀ other ∈ s.all, other ≠ dir → ∀ v < KERNEL_START,
        getPhysicalAddress s'.mem other v = getPhysicalAddress s.mem other v ∧
          view s'.mem other (pageOf v) = view s.mem other (pageOf v) := by
  have hs : Shared s :=
    hrun.invariant (fun _ _ _ hs hstep => shared_step hs hstep) (shared_boot hboot)
  constructor
  · intro dir hdir v hlo hhi
    have hview := hs.view_kernel (mem_cons_of_mem _ hdir) hlo hhi
    refine ⟨?_, hview⟩
    rw [getPhysicalAddress_eq hhi, getPhysicalAddress_eq hhi, PageMap.frameAt,
      PageMap.frameAt, hview]
  · intro dir call s' hstep huser other hother hne v hv
    have hhi : v < 2 ^ 32 := by
      simp only [KERNEL_START] at hv
      omega
    cases hstep with
    | call hdir _ hnew =>
      have hview := hs.view_exec hdir huser hnew hother hne (pageOf v)
      refine ⟨?_, hview⟩
      rw [getPhysicalAddress_eq hhi, getPhysicalAddress_eq hhi, PageMap.frameAt,
        PageMap.frameAt, hview]

/-- A kernel with 4 MiB of reserved memory creates one process. -/
theorem run_shares_kernel_one_process :
    ∃ m₀ s dir, bootstrap (fun _ => 0) 0x400000 = some m₀ ∧
      Run SystemStep ⟨m₀, baseDirectory 0x400000, []⟩
        [.create (VIRT_PAGE_MEM_START + 258 * PAGESIZE) (VIRT_PAGE_MEM_START + 259 * PAGESIZE)] s ∧
      dir ∈ s.processes ∧ ∀ v, KERNEL_START ≤ v → v < 2 ^ 32 →
        getPhysicalAddress s.mem dir v = getPhysicalAddress s.mem s.base v := by
  obtain ⟨m₀, hboot⟩ := bootstrap_returns (fun _ => 0) 0x400000 (by decide)
  have hfree : ∀ k, 258 ≤ k →
      System.Free ⟨m₀, baseDirectory 0x400000, []⟩ (VIRT_PAGE_MEM_START + k * PAGESIZE) := by
    intro k hk a huse
    obtain ⟨hloc, hslot⟩ := boot_location hboot huse
    rw [hloc]
    exact apart_of_slots (by omega)
  have hrun := Run.next (SystemStep.create
    mem_cons_self (hfree 258 (by omega)) (hfree 259 (by omega)) (apart_of_slots (by omega))
    (if_neg (by simp [PAGESIZE]))) (Run.done _)
  exact ⟨m₀, _, _, hboot, hrun, mem_cons_self, fun v hlo hhi =>
    ((run_shares_kernel hboot hrun).1 _ mem_cons_self v hlo hhi).1⟩

end Runs

end HuyaOS.PageDirectory
