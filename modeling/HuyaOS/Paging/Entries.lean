import HuyaOS.Paging.Sharing

/-!
The page-table entries of a whole system. A user page has an entry in every
directory; a kernel page has a single one, in a table that all directories
share. What the system maps is a partial map on these entries, and each kind of
write to the memory of paging changes it in one way.
-/

namespace HuyaOS.PageDirectory

open Lib Management Paging Function PageDirectory.System

def kernelPage : Nat := KERNEL_START / PAGESIZE

inductive Entry
  | user (dir : PageDirectory) (page : Nat)
  | kernel (page : Nat)
  deriving DecidableEq

def entryOf (dir : PageDirectory) (page : Nat) : Entry :=
  if page < kernelPage then .user dir page else .kernel page

/-- The entry lies in table `idx` of a directory. -/
def Entry.InTable (dir : PageDirectory) (idx : Nat) : Entry → Prop
  | .user d page => d = dir ∧ page / 1024 = idx
  | .kernel _ => False

instance (dir : PageDirectory) (idx : Nat) : DecidablePred (Entry.InTable dir idx)
  | .user d page => inferInstanceAs (Decidable (d = dir ∧ page / 1024 = idx))
  | .kernel _ => inferInstanceAs (Decidable False)

def System.lookup (s : System) : Entry → Option Mapping
  | .user dir page => if dir ∈ s.all ∧ page < kernelPage then view s.mem dir page else none
  | .kernel page => if kernelPage ≤ page then view s.mem s.base page else none

section Entries

variable {s : System} {dir other : PageDirectory} {m' : Mem} {page v idx : Nat}

theorem kernelPage_eq : kernelPage = 786432 := rfl

theorem entryOf_user (hpage : page < kernelPage) : entryOf dir page = .user dir page := if_pos hpage

theorem entryOf_kernel (hpage : kernelPage ≤ page) : entryOf dir page = .kernel page :=
  if_neg (not_lt.mpr hpage)

theorem entryOf_ne {page' : Nat} (hne : page ≠ page') : entryOf dir page ≠ entryOf other page' := by
  unfold entryOf
  split <;> split <;> simp [hne]

theorem kernelIndex_le_iff : kernelIndex ≤ GET_PD_IDX v ↔ kernelPage ≤ pageOf v := by
  rw [GET_PD_IDX_eq, kernelIndex_eq, kernelPage_eq]
  omega

theorem view_of_le (m : Mem) (dir : PageDirectory) (hpage : 2 ^ 20 ≤ page) :
    view m dir page = none := if_neg fun h => absurd h.1 (by omega)

theorem Shared.view_eq_lookup (hs : Shared s) (hdir : dir ∈ s.all) (page : Nat) :
    view s.mem dir page = s.lookup (entryOf dir page) := by
  by_cases huser : page < kernelPage
  · rw [entryOf_user huser, lookup, if_pos ⟨hdir, huser⟩]
  · have hkernel : kernelPage ≤ page := by omega
    rw [entryOf_kernel hkernel, lookup, if_pos hkernel]
    by_cases hlt : page < 2 ^ 20
    · have hpage : pageOf (page * PAGESIZE) = page := Nat.mul_div_cancel _ (by decide)
      rw [← hpage]
      apply hs.view_kernel hdir
      · rw [kernelPage_eq] at hkernel
        simp only [KERNEL_START, PAGESIZE]
        omega
      · simp only [PAGESIZE]
        omega
    · rw [view_of_le _ _ (by omega), view_of_le _ _ (by omega)]

theorem System.lookup_of_none (s : System) {e : Entry}
    (hnone : ¬∃ dir ∈ s.all, ∃ page, e = entryOf dir page) : s.lookup e = none := by
  cases e with
  | user dir page =>
    exact if_neg fun hin => hnone ⟨dir, hin.1, page, (entryOf_user hin.2).symm⟩
  | kernel page =>
    exact if_neg fun hin => hnone ⟨s.base, List.mem_cons_self, page, (entryOf_kernel hin).symm⟩

theorem lookup_congr (hs' : Shared { s with mem := m' }) {entries : Entry → Option Mapping}
    (hview : ∀ d ∈ s.all, ∀ page, view m' d page = entries (entryOf d page))
    (hsame : ∀ e, (¬∃ d ∈ s.all, ∃ page, e = entryOf d page) → entries e = s.lookup e) :
    lookup { s with mem := m' } = entries := by
  funext e
  by_cases hexists : ∃ d ∈ s.all, ∃ page, e = entryOf d page
  · obtain ⟨d, hd, page, rfl⟩ := hexists
    exact (hs'.view_eq_lookup hd page).symm.trans (hview d hd page)
  · rw [hsame e hexists, s.lookup_of_none hexists]
    exact lookup_of_none _ hexists

section

variable (hs : Shared s) (hdir : dir ∈ s.all) (hother : other ∈ s.all) (hv : v < 2 ^ 32)

include hs hdir hother hv

/-- Through whichever directory an entry of kernel space is written, it is the
same word. -/
theorem Shared.setTableEntry_kernel (hkernel : kernelPage ≤ pageOf v) (value : Nat) :
    setTableEntry s.mem dir v value = setTableEntry s.mem other v value := by
  have hidx := kernelIndex_le_iff.mpr hkernel
  unfold setTableEntry
  rw [(hs.agree dir hdir _ hidx (pd_lt hv)).2, (hs.agree other hother _ hidx (pd_lt hv)).2]

theorem Shared.view_after_setTableEntry (htable : HasTable s.mem dir (GET_PD_IDX v))
    (value page : Nat) :
    view (setTableEntry s.mem dir v value) other page =
      if entryOf other page = entryOf dir (pageOf v) then decode (value % 2 ^ 32)
      else view s.mem other page := by
  by_cases hkernel : kernelPage ≤ pageOf v
  · -- the write is one through `other`
    have hidx := kernelIndex_le_iff.mpr hkernel
    rw [hs.setTableEntry_kernel hdir hother hv hkernel value,
      (setTableEntry_spec (hs.separated hother) hv
        (hs.hasTable_of_kernel hother hidx (pd_lt hv)) value).1]
    by_cases hpage : page = pageOf v
    · rw [hpage, update_self, entryOf_kernel hkernel, entryOf_kernel hkernel, if_pos rfl]
    · rw [update_of_ne hpage, if_neg (entryOf_ne hpage)]
  · have huser : pageOf v < kernelPage := by omega
    by_cases hsame : other = dir
    · rw [hsame, (setTableEntry_spec (hs.separated hdir) hv htable value).1]
      by_cases hpage : page = pageOf v
      · rw [hpage, update_self, if_pos rfl]
      · rw [update_of_ne hpage, if_neg (entryOf_ne hpage)]
    · have hidx : GET_PD_IDX v < kernelIndex := by
        have := kernelIndex_le_iff.not.mpr hkernel
        omega
      rw [hs.view_setTableEntry hdir hv hidx htable value hother hsame]
      unfold entryOf
      split <;> simp [hsame]

end

theorem Shared.lookup_setTableEntry (hs : Shared s) (hdir : dir ∈ s.all) (hv : v < 2 ^ 32)
    (htable : HasTable s.mem dir (GET_PD_IDX v)) (value : Nat) :
    lookup { s with mem := setTableEntry s.mem dir v value } =
      update s.lookup (entryOf dir (pageOf v)) (decode (value % 2 ^ 32)) := by
  apply lookup_congr (hs.after_setTableEntry hdir hv htable value)
  · intro d hd page
    rw [hs.view_after_setTableEntry hdir hd hv htable value, update_apply, hs.view_eq_lookup hd]
  · intro e hnone
    apply update_of_ne
    rintro rfl
    exact hnone ⟨dir, hdir, pageOf v, rfl⟩

/-- The words of the pages in use are the same in another memory. -/
def System.Keeps (s : System) (m' : Mem) : Prop :=
  ∀ a, s.InUse a → ∀ j < 1024, getWord m' (s.location a) j = getWord s.mem (s.location a) j

theorem System.Keeps.arrays (hkeep : s.Keeps m') : s.KeepsArrays m' := fun dir hdir i hi =>
  ⟨hkeep (.directory dir) hdir i hi, hkeep (.addresses dir) hdir i hi⟩

theorem Shared.view_of_keeps (hs : Shared s) (hkeep : s.Keeps m') (hdir : dir ∈ s.all)
    (page : Nat) :
    view m' dir page = view s.mem dir page := by
  apply view_congr
  · intro hpage
    exact (hkeep.arrays dir hdir _ (by omega)).1
  · intro hpage htable
    obtain ⟨huse, hloc⟩ := hs.tableArea_spec hdir (by omega) htable
    rw [(hkeep.arrays dir hdir _ (by omega)).2, ← hloc]
    exact hkeep _ huse _ (by omega)

theorem Shared.after_keeps (hs : Shared s) (hkeep : s.Keeps m') : Shared { s with mem := m' } :=
  hs.of_arrays hkeep.arrays

theorem Shared.lookup_of_keeps (hs : Shared s) (hkeep : s.Keeps m') :
    lookup { s with mem := m' } = s.lookup := by
  apply lookup_congr (hs.after_keeps hkeep)
  · intro d hd page
    rw [hs.view_of_keeps hkeep hd page, hs.view_eq_lookup hd]
  · intro e _
    rfl

theorem System.Free.keeps_clear (hfree : s.Free page) : s.Keeps (clear s.mem page PAGESIZE) :=
  fun a huse _ hj => getWord_clear_apart (hfree a huse) hj le_rfl

theorem entryOf_inTable (hidx : idx < kernelIndex) :
    (entryOf other page).InTable dir idx ↔ other = dir ∧ page / 1024 = idx := by
  by_cases huser : page < kernelPage
  · rw [entryOf_user huser]
    rfl
  · rw [entryOf_kernel (by omega)]
    refine iff_of_false id fun h => huser ?_
    rw [kernelIndex_eq] at hidx
    rw [kernelPage_eq]
    omega

theorem Shared.lookup_createPageTable (hs : Shared s) (hdir : dir ∈ s.all)
    (hidx : idx < kernelIndex) {table : NewTable} (hlt : table.virtAddress < 2 ^ 32)
    (hfree : s.Free table.virtAddress) :
    lookup { s with mem := createPageTable s.mem dir idx table } = fun e =>
      if e.InTable dir idx then none else s.lookup e := by
  have hidx' := lt_of_lt_kernelIndex hidx
  have hsep := hs.separated hdir
  have hunused := hs.unused hdir hfree
  apply lookup_congr (hs.after_createPageTable hdir hidx hlt hfree)
  · intro d hd page
    simp only [entryOf_inTable hidx]
    by_cases hnew : d = dir ∧ page / 1024 = idx
    · obtain ⟨rfl, hpage⟩ := hnew
      rw [if_pos ⟨rfl, hpage⟩]
      exact view_createPageTable_new hsep hidx' hunused hlt hpage
    · rw [if_neg hnew, ← hs.view_eq_lookup hd]
      by_cases hd' : d = dir
      · rw [hd']
        exact view_createPageTable_of_ne hsep hidx' hunused hlt fun hpage => hnew ⟨hd', hpage⟩
      · exact hs.view_createPageTable hdir hidx' hlt hfree hd hd' page
  · intro e hnone
    rw [s.lookup_of_none hnone, ite_self]

section Process

variable {current : PageDirectory} {pageDirectory virtTableAddresses : Nat}

section

variable (hdirectory : s.Free pageDirectory) (haddresses : s.Free virtTableAddresses)
  (hapart : Apart 1024 pageDirectory virtTableAddresses)
  (hcall : process s.mem s.base current pageDirectory virtTableAddresses = some (dir, m'))

include hdirectory haddresses hapart hcall

theorem process_keeps : s.Keeps m' :=
  fun a huse j hj => (process_spec hcall (hdirectory.fresh haddresses hapart)).2.1 _
    (hdirectory a huse) (haddresses a huse) j hj

theorem process_notMem : dir ∉ s.all := by
  intro hdir
  obtain ⟨⟨hpd, _⟩, _⟩ := process_spec hcall (hdirectory.fresh haddresses hapart)
  have hself := hdirectory (.directory dir) hdir
  simp only [location, hpd, Apart] at hself
  omega

end

theorem Shared.lookup_process (hs : Shared s) (hdirectory : s.Free pageDirectory)
    (haddresses : s.Free virtTableAddresses) (hapart : Apart 1024 pageDirectory virtTableAddresses)
    (hcall : process s.mem s.base current pageDirectory virtTableAddresses = some (dir, m')) :
    lookup ⟨m', s.base, dir :: s.processes⟩ = s.lookup := by
  have hkeep := process_keeps hdirectory haddresses hapart hcall
  obtain ⟨_, _, hentries, _⟩ := process_spec hcall (hdirectory.fresh haddresses hapart)
  funext e
  cases e with
  | user d page =>
    by_cases hpage : page < kernelPage
    · by_cases hd : d = dir
      · subst hd
        have hempty : view m' d page = none := by
          apply if_neg
          rintro ⟨_, htable⟩
          unfold HasTable at htable
          rw [kernelPage_eq] at hpage
          rw [hentries _ (by omega), if_neg (by rw [kernelIndex_eq]; omega)] at htable
          exact htable rfl
        have hnew := process_notMem hdirectory haddresses hapart hcall
        simp only [lookup, hempty, ite_self, if_neg fun h : d ∈ s.all ∧ _ => hnew h.1]
      · have hall : d ∈ all ⟨m', s.base, dir :: s.processes⟩ ↔ d ∈ s.all := by
          simp only [all, List.mem_cons, hd, false_or]
        simp only [lookup, hall]
        by_cases hmem : d ∈ s.all
        · simp only [hmem, true_and, hs.view_of_keeps hkeep hmem]
        · simp only [hmem, false_and, if_false]
    · simp only [lookup, hpage, and_false, if_false]
  | kernel page =>
    simp only [lookup, hs.view_of_keeps hkeep List.mem_cons_self]

end Process

/-- What a step does to the entries of all directories together. -/
def Entry.Step (entries : Entry → Option Mapping) : Action → (Entry → Option Mapping) → Prop
  | .create _ _, entries' => entries' = entries
  | .call dir call, entries' => entries' = update entries (entryOf dir (pageOf call.virtAddress))
      ((PageMap.exec (fun page => entries (entryOf dir page)) call).2 (pageOf call.virtAddress))

def Action.Valid (s : System) : Action → Prop
  | .create _ _ => True
  | .call dir c => c.Valid s.mem dir

/-- A call changes at most the entry of its page. -/
theorem Shared.lookup_call (hs : Shared s) {call : Call} {s' : System}
    (hstep : SystemStep s (.call dir call) s') :
    ∃ entry, s'.lookup = update s.lookup (entryOf dir (pageOf call.virtAddress)) entry := by
  rcases hstep with _ | ⟨hdir, hv, hnew⟩
  rcases exec_cases s.mem dir hv with
    hsame | ⟨htable, value, hwrite⟩ | ⟨hnone, table, htable, hcreate⟩
  · exact ⟨_, by rw [hsame, update_eq_self]⟩
  · exact ⟨_, hwrite ▸ hs.lookup_setTableEntry hdir hv htable value⟩
  · obtain ⟨hlt, hfree⟩ := hnew table htable hnone
    have hunused := hs.unused hdir hfree
    have huser : GET_PD_IDX call.virtAddress < kernelIndex :=
      not_le.mp fun hlo => hnone (hs.hasTable_of_kernel hdir hlo (pd_lt hv))
    have hs' := hs.after_createPageTable hdir huser hlt hfree
    -- the new table is empty
    have hsame :
        lookup { s with mem := createPageTable s.mem dir (GET_PD_IDX call.virtAddress) table } =
        s.lookup := by
      refine lookup_congr hs' (fun d hd page => ?_) fun _ _ => rfl
      rw [← hs.view_eq_lookup hd]
      by_cases hd' : d = dir
      · rw [hd', PageDirectory.view_createPageTable (hs.separated hdir)
          (pd_lt hv) hnone hunused hlt]
      · exact hs.view_createPageTable hdir (pd_lt hv) hlt hfree hd hd' page
    rcases hcreate with hcreate | ⟨value, hwrite⟩
    · exact ⟨_, by rw [hcreate, hsame, update_eq_self]⟩
    · have htable' :=
        (hasTable_createPageTable (hs.separated hdir).arrays hunused (pd_lt hv) (pd_lt hv)).mpr
        (.inl rfl)
      exact ⟨_, hwrite ▸ hsame ▸ hs'.lookup_setTableEntry hdir hv htable' value⟩

theorem Shared.pages_eq (hs : Shared s) (hdir : dir ∈ s.all) :
    (fun page => s.lookup (entryOf dir page)) = view s.mem dir :=
  funext fun page => (hs.view_eq_lookup hdir page).symm

theorem Shared.step_entries {action : Action} {s' : System} (hs : Shared s)
    (hstep : SystemStep s action s') (hvalid : action.Valid s) :
    Entry.Step s.lookup action s'.lookup := by
  have hs' := shared_step hs hstep
  cases hstep with
  | create hcurrent hdirectory haddresses hapart hcall =>
    exact hs.lookup_process hdirectory haddresses hapart hcall
  | @call dir call hdir hv hnew =>
    obtain ⟨entry, hentry⟩ := hs.lookup_call (.call hdir hv hnew)
    have hpage := congrFun hentry (entryOf dir (pageOf call.virtAddress))
    rw [update_self, ← hs'.view_eq_lookup hdir] at hpage
    rw [Entry.Step, hs.pages_eq hdir, (exec_agrees (hs.separated hdir) hvalid).1, hentry, ← hpage]

/-- Whatever the order of the calls, all directories together act as one map, in which each of them
has its own user pages and the pages of kernel space are there once. -/
theorem run_refines_entries {m m₀ : Mem} {reservedMemoryEnd : Nat} {actions : List Action}
    (hboot : bootstrap m reservedMemoryEnd = some m₀)
    (hrun : Run (fun s action s' => SystemStep s action s' ∧ action.Valid s)
      ⟨m₀, baseDirectory reservedMemoryEnd, []⟩ actions s) :
    Run Entry.Step (lookup ⟨m₀, baseDirectory reservedMemoryEnd, []⟩) actions s.lookup ∧
    ∀ dir ∈ s.all, (∀ page, view s.mem dir page = s.lookup (entryOf dir page)) ∧
      ∀ call : Call, call.Valid s.mem dir →
        (exec s.mem dir call).1 =
          (PageMap.exec (fun page => s.lookup (entryOf dir page)) call).1 := by
  have hstep : ∀ s action s', Shared s → SystemStep s action s' ∧ action.Valid s →
      Entry.Step s.lookup action s'.lookup ∧ Shared s' := fun s action s' hs h =>
    ⟨hs.step_entries h.1 h.2, shared_step hs h.1⟩
  obtain ⟨hentries, hs⟩ := hrun.simulate hstep (shared_boot hboot)
  refine ⟨hentries, fun dir hdir => ⟨hs.view_eq_lookup hdir, fun call hvalid => ?_⟩⟩
  rw [hs.pages_eq hdir, (exec_agrees (hs.separated hdir) hvalid).1]

/-- The call finds the page protected. -/
theorem run_refines_entries_unmap : ∃ m₀ s, bootstrap (fun _ => 0) 0x400000 = some m₀ ∧
    Run Entry.Step (lookup ⟨m₀, baseDirectory 0x400000, []⟩)
      [.call (baseDirectory 0x400000) (.unmap KERNEL_START)] (lookup s) := by
  obtain ⟨m₀, hboot⟩ := bootstrap_returns (fun _ => 0) 0x400000 (by decide)
  have hv : (Call.unmap KERNEL_START).virtAddress < 2 ^ 32 := by decide
  exact ⟨m₀, _, hboot,
    (run_refines_entries hboot (.next ⟨.call List.mem_cons_self hv nofun, hv⟩ (.done _))).1⟩

end Entries

end HuyaOS.PageDirectory
