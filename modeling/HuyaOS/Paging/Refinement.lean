import HuyaOS.Lib.Transition
import HuyaOS.Paging.PageMap

/-!
The code of a page directory refines the partial map. The map that a directory
stands for is read off its memory; as long as the arrays and tables of the
directory do not overlap, every call changes it as the abstract call does.
-/

namespace HuyaOS.PageDirectory

open Lib Management Paging Nat

def decode (entry : Nat) : Option Mapping :=
  if entry &&& PAGE_PRESENT = 0 then none else some ⟨entry &&& 0xFFFFF000, entry &&& 0xFFF⟩

def HasTable (m : Mem) (dir : PageDirectory) (idx : Nat) : Prop :=
  dirEntry m dir idx &&& PAGE_PRESENT ≠ 0

instance (m : Mem) (dir : PageDirectory) (idx : Nat) : Decidable (HasTable m dir idx) :=
  inferInstanceAs (Decidable (_ ≠ _))

def view (m : Mem) (dir : PageDirectory) : PageMap := fun page =>
  if page < 2 ^ 20 ∧ HasTable m dir (page / 1024) then
    decode (getWord m (tableAddress m dir (page / 1024)) (page % 1024))
  else none

/-- The page at `page` overlaps neither an array nor a table of the directory. -/
structure Unused (m : Mem) (dir : PageDirectory) (page : Nat) : Prop where
  directory : Apart 1024 page dir.pageDirectory
  addresses : Apart 1024 page dir.virtTableAddresses
  tables : ∀ idx < 1024, HasTable m dir idx → Apart 1024 page (tableAddress m dir idx)

/-- The arrays and tables of the directory do not overlap. -/
structure Separated (m : Mem) (dir : PageDirectory) : Prop where
  arrays : Apart 1024 dir.pageDirectory dir.virtTableAddresses
  directory : ∀ idx < 1024, HasTable m dir idx →
    Apart 1024 (tableAddress m dir idx) dir.pageDirectory
  addresses : ∀ idx < 1024, HasTable m dir idx →
    Apart 1024 (tableAddress m dir idx) dir.virtTableAddresses
  tables : ∀ i < 1024, ∀ j < 1024, i ≠ j → HasTable m dir i → HasTable m dir j →
    Apart 1024 (tableAddress m dir i) (tableAddress m dir j)

theorem GET_PD_IDX_eq (x : Nat) : GET_PD_IDX x = pageOf x / 1024 := by
  unfold GET_PD_IDX pageOf
  rw [Nat.shiftRight_eq_div_pow, Nat.div_div_eq_div_mul]
  rfl

theorem GET_PT_IDX_eq (x : Nat) : GET_PT_IDX x = pageOf x % 1024 := by
  unfold GET_PT_IDX pageOf
  rw [Nat.shiftRight_eq_div_pow, show 0x3FF = 2 ^ 10 - 1 from rfl, and_two_pow_sub_one_eq_mod]

theorem pageOf_lt {x : Nat} (hx : x < 2 ^ 32) : pageOf x < 2 ^ 20 := by
  unfold pageOf PAGESIZE
  omega

theorem pageOf_aligned {x : Nat} (hx : x < 2 ^ 32) : pageOf (x &&& 0xFFFFF000) = pageOf x := by
  unfold pageOf PAGESIZE
  rw [and_pageMask hx]
  omega

section Bits

variable {entry : Nat}

theorem or_present (x : Nat) {flags : Nat} (hflags : flags % 2 = 1) :
    (x ||| flags) % 2 ^ 32 &&& PAGE_PRESENT ≠ 0 := by
  have hbit : (x ||| flags) % 2 = 1 := by
    have htest : (x ||| flags).testBit 0 = true := by
      rw [testBit_or, testBit_zero flags, hflags]
      simp
    simpa [testBit_zero] using htest
  have hmod : (x ||| flags) % 2 ^ 32 &&& PAGE_PRESENT = (x ||| flags) % 2 ^ 32 % 2 :=
    and_two_pow_sub_one_eq_mod _ 1
  omega

theorem decode_zero : decode 0 = none := rfl

theorem decode_of_present (h : entry &&& PAGE_PRESENT ≠ 0) :
    decode entry = some ⟨entry &&& 0xFFFFF000, entry &&& 0xFFF⟩ := if_neg h

theorem decode_of_absent (h : entry &&& PAGE_PRESENT = 0) : decode entry = none := if_pos h

theorem decode_or {physAddress flags : Nat} (hphys : physAddress < 2 ^ 32)
    (haligned : physAddress % PAGESIZE = 0) (hflags : flags < 2 ^ 12)
    (hpresent : flags &&& PAGE_PRESENT ≠ 0) :
    decode (physAddress ||| flags) = some ⟨physAddress, flags⟩ := by
  have haligned' : physAddress % 4096 = 0 := haligned
  have hlow : ∀ x : Nat, x &&& 0xFFF = x % 4096 := fun x => and_two_pow_sub_one_eq_mod x 12
  have hbit : ∀ x : Nat, x &&& PAGE_PRESENT = x % 2 := fun x => and_two_pow_sub_one_eq_mod x 1
  have hframe : (physAddress ||| flags) &&& 0xFFFFF000 = physAddress := by
    rw [and_or_distrib_right, and_pageMask hphys, and_pageMask (by omega)]
    rw [show flags / 4096 * 4096 = 0 by omega, or_zero]
    omega
  have hflag : (physAddress ||| flags) &&& 0xFFF = flags := by
    rw [and_or_distrib_right, hlow, hlow, haligned', zero_or]
    omega
  have hpresent' : (physAddress ||| flags) &&& PAGE_PRESENT ≠ 0 := by
    rw [and_or_distrib_right, hbit, show physAddress % 2 = 0 by omega, zero_or]
    exact hpresent
  rw [decode_of_present hpresent', hframe, hflag]

theorem decode_protect (h : entry &&& PAGE_PRESENT ≠ 0) :
    decode (entry ||| PAGE_WRITE_PROTECTED) =
      some ⟨entry &&& 0xFFFFF000, (entry &&& 0xFFF) ||| PAGE_WRITE_PROTECTED⟩ := by
  have hpresent : (entry ||| PAGE_WRITE_PROTECTED) &&& PAGE_PRESENT ≠ 0 := by
    simpa using h
  rw [decode_of_present hpresent, and_or_distrib_right, and_or_distrib_right]
  simp

theorem decode_unprotect (h : entry &&& PAGE_PRESENT ≠ 0) :
    decode (entry &&& (0xFFFFFFFF - PAGE_WRITE_PROTECTED)) =
      some ⟨entry &&& 0xFFFFF000, (entry &&& 0xFFF) &&& (0xFFF - PAGE_WRITE_PROTECTED)⟩ := by
  have hpresent : entry &&& (0xFFFFFFFF - PAGE_WRITE_PROTECTED) &&& PAGE_PRESENT ≠ 0 := by
    rw [Nat.and_assoc]
    exact h
  rw [decode_of_present hpresent, Nat.and_assoc, Nat.and_assoc, Nat.and_assoc]
  rfl

end Bits

section Writes

variable {m : Mem} {dir : PageDirectory} {idx k v : Nat}

theorem view_congr {m' : Mem} {page : Nat}
    (hdir : page < 2 ^ 20 → dirEntry m' dir (page / 1024) = dirEntry m dir (page / 1024))
    (hentry : page < 2 ^ 20 → HasTable m dir (page / 1024) →
      getWord m' (tableAddress m' dir (page / 1024)) (page % 1024) =
        getWord m (tableAddress m dir (page / 1024)) (page % 1024)) :
    view m' dir page = view m dir page := by
  unfold view
  by_cases hpage : page < 2 ^ 20
  · have hsame : HasTable m' dir (page / 1024) ↔ HasTable m dir (page / 1024) := by
      unfold HasTable
      rw [hdir hpage]
    by_cases htable : HasTable m dir (page / 1024)
    · rw [if_pos ⟨hpage, hsame.mpr htable⟩, if_pos ⟨hpage, htable⟩, hentry hpage htable]
    · rw [if_neg fun h => htable (hsame.mp h.2), if_neg fun h => htable h.2]
  · rw [if_neg fun h => hpage h.1, if_neg fun h => hpage h.1]

theorem Separated.setWord_arrays (hsep : Separated m dir) (hidx : idx < 1024) (hk : k < 1024)
    (htable : HasTable m dir idx) {i : Nat} (hi : i < 1024) :
    dirEntry (setWord m (tableAddress m dir idx) k v) dir i = dirEntry m dir i ∧
      tableAddress (setWord m (tableAddress m dir idx) k v) dir i = tableAddress m dir i :=
  ⟨getWord_setWord_apart (hsep.directory idx hidx htable) hk hi,
    getWord_setWord_apart (hsep.addresses idx hidx htable) hk hi⟩

theorem Separated.congr {m' : Mem} (hsep : Separated m dir)
    (hkeep : ∀ i < 1024, dirEntry m' dir i = dirEntry m dir i ∧
      tableAddress m' dir i = tableAddress m dir i) : Separated m' dir := by
  have htable : ∀ i < 1024, HasTable m' dir i → HasTable m dir i := by
    intro i hi h
    unfold HasTable at h
    rwa [(hkeep i hi).1] at h
  refine ⟨hsep.arrays, ?_, ?_, ?_⟩
  · intro i hi h
    rw [(hkeep i hi).2]
    exact hsep.directory i hi (htable i hi h)
  · intro i hi h
    rw [(hkeep i hi).2]
    exact hsep.addresses i hi (htable i hi h)
  · intro i hi j hj hne h h'
    rw [(hkeep i hi).2, (hkeep j hj).2]
    exact hsep.tables i hi j hj hne (htable i hi h) (htable j hj h')

/-- Writing an entry of a table that exists changes this one page of the map. -/
theorem view_setWord (hsep : Separated m dir) (hidx : idx < 1024) (hk : k < 1024)
    (htable : HasTable m dir idx) :
    view (setWord m (tableAddress m dir idx) k v) dir =
      Function.update (view m dir) (idx * 1024 + k) (decode (v % 2 ^ 32)) := by
  have harrays := fun {i : Nat} => hsep.setWord_arrays (v := v) hidx hk htable (i := i)
  funext page
  by_cases hpage : page = idx * 1024 + k
  · have hdiv : (idx * 1024 + k) / 1024 = idx := by omega
    have hmod : (idx * 1024 + k) % 1024 = k := by omega
    have htable' : HasTable (setWord m (tableAddress m dir idx) k v) dir idx := by
      unfold HasTable
      rw [(harrays hidx).1]
      exact htable
    rw [hpage, Function.update_self, view, hdiv, hmod, if_pos ⟨by omega, htable'⟩,
      (harrays hidx).2, getWord_setWord_self]
  · rw [Function.update_of_ne hpage]
    refine view_congr (fun hlt => (harrays (by omega)).1) ?_
    intro hlt hother
    rw [(harrays (by omega)).2]
    by_cases hsame : page / 1024 = idx
    · rw [hsame]
      exact getWord_setWord_ne (by omega)
    · exact getWord_setWord_apart (hsep.tables idx hidx _ (by omega) (Ne.symm hsame) htable hother)
        hk (by omega)

section NewTable

variable {table : NewTable}

theorem getWord_createPageTable {a j : Nat} (hidx : idx < 1024) (hj : j < 1024)
    (hnew : Apart 1024 table.virtAddress a) (hdir : Apart 1024 dir.pageDirectory a)
    (haddr : Apart 1024 dir.virtTableAddresses a) :
    getWord (createPageTable m dir idx table) a j = getWord m a j := by
  unfold createPageTable createTable
  rw [getWord_setWord_apart haddr hidx hj, getWord_setWord_apart hdir hidx hj]
  exact getWord_clear_apart hnew hj le_rfl

theorem getWord_createPageTable_new {j : Nat} (hidx : idx < 1024) (hj : j < 1024)
    (hfresh : Unused m dir table.virtAddress) :
    getWord (createPageTable m dir idx table) table.virtAddress j = 0 := by
  unfold createPageTable createTable
  rw [getWord_setWord_apart hfresh.addresses.symm hidx hj,
    getWord_setWord_apart hfresh.directory.symm hidx hj]
  exact getWord_clear_inside (by omega) (by unfold PAGESIZE; omega)

section

variable (harrays : Apart 1024 dir.pageDirectory dir.virtTableAddresses)
  (hfresh : Unused m dir table.virtAddress) {i : Nat}

include harrays hfresh

theorem dirEntry_createPageTable (hidx : idx < 1024) (hi : i < 1024) :
    dirEntry (createPageTable m dir idx table) dir i =
      if i = idx then (table.physAddress ||| PAGE_PRESENT ||| PAGE_READ_WRITE) % 2 ^ 32
      else dirEntry m dir i := by
  unfold dirEntry createPageTable createTable
  rw [getWord_setWord_apart harrays.symm hidx hi]
  split
  · rename_i heq
    rw [heq, getWord_setWord_self]
  · rename_i hne
    rw [getWord_setWord_ne (Ne.symm hne)]
    exact getWord_clear_apart hfresh.directory hi le_rfl

theorem tableAddress_createPageTable (hlt : table.virtAddress < 2 ^ 32) (hidx : idx < 1024)
    (hi : i < 1024) :
    tableAddress (createPageTable m dir idx table) dir i =
      if i = idx then table.virtAddress else tableAddress m dir i := by
  unfold tableAddress createPageTable createTable
  split
  · rename_i heq
    rw [heq, getWord_setWord_self, mod_eq_of_lt hlt]
  · rename_i hne
    rw [getWord_setWord_ne (Ne.symm hne), getWord_setWord_apart harrays hidx hi]
    exact getWord_clear_apart hfresh.addresses hi le_rfl

theorem hasTable_createPageTable (hidx : idx < 1024) (hi : i < 1024) :
    HasTable (createPageTable m dir idx table) dir i ↔ i = idx ∨ HasTable m dir i := by
  have hpresent :
      (table.physAddress ||| PAGE_PRESENT ||| PAGE_READ_WRITE) % 2 ^ 32 &&& PAGE_PRESENT ≠ 0 := by
    rw [Nat.or_assoc]
    exact or_present table.physAddress rfl
  unfold HasTable
  rw [dirEntry_createPageTable harrays hfresh hidx hi]
  by_cases heq : i = idx
  · simp only [heq, if_true, true_or, iff_true]
    exact hpresent
  · simp only [heq, if_false, false_or]

end

section

variable (hsep : Separated m dir) (hidx : idx < 1024)

include hsep hidx

section

variable (hfresh : Unused m dir table.virtAddress) (hlt : table.virtAddress < 2 ^ 32)

include hfresh hlt

theorem view_createPageTable_new {page : Nat} (hpage : page / 1024 = idx) :
    view (createPageTable m dir idx table) dir page = none := by
  unfold view
  rw [tableAddress_createPageTable hsep.arrays hfresh hlt hidx (by omega), if_pos hpage,
    getWord_createPageTable_new hidx (by omega) hfresh, decode_zero, ite_self]

theorem view_createPageTable_of_ne {page : Nat} (hpage : page / 1024 ≠ idx) :
    view (createPageTable m dir idx table) dir page = view m dir page := by
  refine view_congr (fun _ => ?_) (fun _ hother => ?_)
  · rw [dirEntry_createPageTable hsep.arrays hfresh hidx (by omega), if_neg hpage]
  · rw [tableAddress_createPageTable hsep.arrays hfresh hlt hidx (by omega), if_neg hpage]
    exact getWord_createPageTable hidx (by omega) (hfresh.tables _ (by omega) hother)
      (hsep.directory _ (by omega) hother).symm (hsep.addresses _ (by omega) hother).symm

end

theorem view_createPageTable (hnone : ¬HasTable m dir idx) (hfresh : Unused m dir table.virtAddress)
    (hlt : table.virtAddress < 2 ^ 32) :
    view (createPageTable m dir idx table) dir = view m dir := by
  funext page
  by_cases hsame : page / 1024 = idx
  · have hold : view m dir page = none := by
      unfold view
      rw [if_neg fun h => hnone (hsame ▸ h.2)]
    rw [view_createPageTable_new hsep hidx hfresh hlt hsame, hold]
  · exact view_createPageTable_of_ne hsep hidx hfresh hlt hsame

theorem separated_createPageTable (hfresh : Unused m dir table.virtAddress)
    (hlt : table.virtAddress < 2 ^ 32) :
    Separated (createPageTable m dir idx table) dir := by
  have haddress := fun {i : Nat} =>
    tableAddress_createPageTable hsep.arrays hfresh hlt hidx (i := i)
  have htable := fun {i : Nat} => hasTable_createPageTable hsep.arrays hfresh hidx (i := i)
  refine ⟨hsep.arrays, ?_, ?_, ?_⟩
  · intro i hi h
    rw [haddress hi]
    split
    · exact hfresh.directory
    · rename_i hne
      exact hsep.directory i hi (((htable hi).mp h).resolve_left hne)
  · intro i hi h
    rw [haddress hi]
    split
    · exact hfresh.addresses
    · rename_i hne
      exact hsep.addresses i hi (((htable hi).mp h).resolve_left hne)
  · intro i hi j hj hne h h'
    rw [haddress hi, haddress hj]
    by_cases hi' : i = idx
    · have hj' : j ≠ idx := fun hj' => hne (hi'.trans hj'.symm)
      rw [if_pos hi', if_neg hj']
      exact hfresh.tables j hj (((htable hj).mp h').resolve_left hj')
    · rw [if_neg hi']
      split
      · exact (hfresh.tables i hi (((htable hi).mp h).resolve_left hi')).symm
      · rename_i hj'
        exact hsep.tables i hi j hj hne (((htable hi).mp h).resolve_left hi')
          (((htable hj).mp h').resolve_left hj')

end

end NewTable

end Writes

section Calls

variable {m : Mem} {dir : PageDirectory} {virtAddress : Nat}

theorem pd_lt (hv : virtAddress < 2 ^ 32) : GET_PD_IDX virtAddress < 1024 := by
  rw [GET_PD_IDX_eq]
  have := pageOf_lt hv
  omega

theorem pt_lt (virtAddress : Nat) : GET_PT_IDX virtAddress < 1024 := by
  rw [GET_PT_IDX_eq]
  exact mod_lt _ (by norm_num)

theorem tableEntry_lt : tableEntry m dir virtAddress < 2 ^ 32 := getWord_lt

theorem view_pageOf (hv : virtAddress < 2 ^ 32) :
    view m dir (pageOf virtAddress) =
      if HasTable m dir (GET_PD_IDX virtAddress) then decode (tableEntry m dir virtAddress)
      else none := by
  unfold view tableEntry
  rw [GET_PD_IDX_eq, GET_PT_IDX_eq]
  simp only [pageOf_lt hv, true_and]

theorem getPhysicalAddress_eq (hv : virtAddress < 2 ^ 32) :
    getPhysicalAddress m dir virtAddress = (view m dir).frameAt (pageOf virtAddress) := by
  unfold getPhysicalAddress PageMap.frameAt
  rw [view_pageOf hv]
  by_cases htable : HasTable m dir (GET_PD_IDX virtAddress)
  · rw [if_neg htable, if_pos htable]
    by_cases hpresent : tableEntry m dir virtAddress &&& PAGE_PRESENT = 0
    · rw [if_pos hpresent, decode_of_absent hpresent]
      rfl
    · rw [if_neg hpresent, decode_of_present hpresent]
      rfl
  · rw [if_pos (not_not.mp htable), if_neg htable]
    rfl

theorem setTableEntry_spec (hsep : Separated m dir) (hv : virtAddress < 2 ^ 32)
    (htable : HasTable m dir (GET_PD_IDX virtAddress)) (value : Nat) :
    view (setTableEntry m dir virtAddress value) dir =
        Function.update (view m dir) (pageOf virtAddress) (decode (value % 2 ^ 32)) ∧
      Separated (setTableEntry m dir virtAddress value) dir := by
  have hpage : GET_PD_IDX virtAddress * 1024 + GET_PT_IDX virtAddress = pageOf virtAddress := by
    rw [GET_PD_IDX_eq, GET_PT_IDX_eq]
    omega
  have hview := view_setWord (v := value) hsep (pd_lt hv) (pt_lt virtAddress) htable
  rw [hpage] at hview
  exact ⟨hview, hsep.congr fun i hi => hsep.setWord_arrays (pd_lt hv) (pt_lt virtAddress) htable hi⟩

/-- What the caller of the directory has to respect: addresses are words, `map`
gets an aligned frame and flags with the present bit, and a table that has to
be created lies in an unused page. -/
def Call.Valid (m : Mem) (dir : PageDirectory) : Call → Prop
  | .map physAddress virtAddress flags table =>
      (physAddress < 2 ^ 32 ∧ physAddress % PAGESIZE = 0) ∧ virtAddress < 2 ^ 32 ∧
        (flags < 2 ^ 12 ∧ flags &&& PAGE_PRESENT ≠ 0) ∧
        (¬HasTable m dir (GET_PD_IDX virtAddress) →
          table.virtAddress < 2 ^ 32 ∧ Unused m dir table.virtAddress)
  | .unmap virtAddress => virtAddress < 2 ^ 32
  | .protectPage virtAddress => virtAddress < 2 ^ 32
  | .unprotectPage virtAddress => virtAddress < 2 ^ 32

/-- The code and the map agree on the outcome of a call. -/
def Agrees (m : Mem) (dir : PageDirectory) (call : Call) : Prop :=
  (view m dir).exec call = ((exec m dir call).1, view (exec m dir call).2 dir) ∧
    Separated (exec m dir call).2 dir

theorem map_of_hasTable (table : NewTable) (physAddress flags : Nat)
    (htable : HasTable m dir (GET_PD_IDX virtAddress)) :
    map m dir table physAddress virtAddress flags =
      if tableEntry m dir virtAddress &&& PAGE_PRESENT ≠ 0 then (.error .PAGING_ERROR, m)
      else (.ok (), setTableEntry m dir virtAddress (physAddress ||| flags)) := by
  simp only [map]
  rw [if_neg htable]

section

variable {physAddress flags : Nat} (hsep : Separated m dir) (hphys : physAddress < 2 ^ 32)
  (haligned : physAddress % PAGESIZE = 0) (hv : virtAddress < 2 ^ 32) (hflags : flags < 2 ^ 12)
  (hpresent : flags &&& PAGE_PRESENT ≠ 0)

include hsep hphys haligned hv hflags hpresent

theorem agrees_map_of_hasTable (htable : HasTable m dir (GET_PD_IDX virtAddress))
    (table : NewTable) :
    Agrees m dir (.map physAddress virtAddress flags table) := by
  have hpage : view m dir (pageOf virtAddress) = decode (tableEntry m dir virtAddress) := by
    rw [view_pageOf hv, if_pos htable]
  have hmap := map_of_hasTable table physAddress flags htable
  by_cases hentry : tableEntry m dir virtAddress &&& PAGE_PRESENT = 0
  · rw [if_neg (not_not.mpr hentry)] at hmap
    rw [decode_of_absent hentry] at hpage
    obtain ⟨hview, hsep'⟩ := setTableEntry_spec hsep hv htable (physAddress ||| flags)
    rw [mod_eq_of_lt (or_lt_two_pow hphys (by omega)),
      decode_or hphys haligned hflags hpresent] at hview
    unfold Agrees
    simp only [exec, hmap, PageMap.exec, PageMap.map, hpage, hview]
    exact ⟨trivial, hsep'⟩
  · rw [if_pos hentry] at hmap
    rw [decode_of_present hentry] at hpage
    unfold Agrees
    simp only [exec, hmap, PageMap.exec, PageMap.map, hpage]
    exact ⟨trivial, hsep⟩

theorem agrees_map_of_no_table {table : NewTable} (hnone : ¬HasTable m dir (GET_PD_IDX virtAddress))
    (hlt : table.virtAddress < 2 ^ 32) (hfresh : Unused m dir table.virtAddress) :
    Agrees m dir (.map physAddress virtAddress flags table) := by
  have hsep' := separated_createPageTable hsep (pd_lt hv) hfresh hlt
  have htable' := (hasTable_createPageTable hsep.arrays hfresh (pd_lt hv) (pd_lt hv)).mpr (.inl rfl)
  have hsame : map m dir table physAddress virtAddress flags =
      map (createPageTable m dir (GET_PD_IDX virtAddress) table) dir table physAddress
        virtAddress flags := by
    rw [map_of_hasTable table physAddress flags htable']
    simp only [map]
    rw [if_pos (not_not.mp hnone)]
  have hagrees := agrees_map_of_hasTable hsep' hphys haligned hv hflags hpresent htable' table
  unfold Agrees at hagrees ⊢
  rw [view_createPageTable hsep (pd_lt hv) hnone hfresh hlt] at hagrees
  simp only [exec, hsame]
  exact hagrees

end

theorem agrees_unmap (hsep : Separated m dir) (hv : virtAddress < 2 ^ 32) :
    Agrees m dir (.unmap virtAddress) := by
  have hpage : view m dir (pageOf virtAddress) = if HasTable m dir (GET_PD_IDX virtAddress) then
      decode (tableEntry m dir virtAddress) else none := view_pageOf hv
  -- both sides make the same three tests
  by_cases htable : HasTable m dir (GET_PD_IDX virtAddress)
  · rw [if_pos htable] at hpage
    by_cases hentry : tableEntry m dir virtAddress &&& PAGE_PRESENT = 0
    · have hunmap : unmap m dir virtAddress = (0, m) := by
        rw [unmap, if_neg htable, if_pos hentry]
      rw [decode_of_absent hentry] at hpage
      unfold Agrees
      simp only [exec, hunmap, PageMap.exec, PageMap.unmap, hpage]
      exact ⟨trivial, hsep⟩
    · rw [decode_of_present hentry] at hpage
      have hflag : PageMap.IsProtected ⟨tableEntry m dir virtAddress &&& 0xFFFFF000,
          tableEntry m dir virtAddress &&& 0xFFF⟩ ↔
          tableEntry m dir virtAddress &&& PAGE_WRITE_PROTECTED ≠ 0 := by
        unfold PageMap.IsProtected
        rw [Nat.and_assoc]
        exact Iff.rfl
      by_cases hprotected : tableEntry m dir virtAddress &&& PAGE_WRITE_PROTECTED ≠ 0
      · have hunmap : unmap m dir virtAddress = (0, m) := by
          rw [unmap, if_neg htable, if_neg hentry, if_pos hprotected]
        unfold Agrees
        simp only [exec, hunmap, PageMap.exec, PageMap.unmap, hpage, hflag.mpr hprotected, if_true]
        exact ⟨trivial, hsep⟩
      · have hunmap : unmap m dir virtAddress = (tableEntry m dir virtAddress &&& 0xFFFFF000,
            setTableEntry m dir virtAddress 0) := by
          rw [unmap, if_neg htable, if_neg hentry, if_neg hprotected]
        have hfree : ¬PageMap.IsProtected ⟨tableEntry m dir virtAddress &&& 0xFFFFF000,
            tableEntry m dir virtAddress &&& 0xFFF⟩ := mt hflag.mp hprotected
        obtain ⟨hview, hsep'⟩ := setTableEntry_spec hsep hv htable 0
        rw [zero_mod, decode_zero] at hview
        unfold Agrees
        simp only [exec, hunmap, PageMap.exec, PageMap.unmap, hpage, hfree, if_false, hview]
        exact ⟨trivial, hsep'⟩
  · have hunmap : unmap m dir virtAddress = (0, m) := by
      rw [unmap, if_pos (not_not.mp htable)]
    rw [if_neg htable] at hpage
    unfold Agrees
    simp only [exec, hunmap, PageMap.exec, PageMap.unmap, hpage]
    exact ⟨trivial, hsep⟩

theorem updateEntry_spec (hsep : Separated m dir) (hv : virtAddress < 2 ^ 32)
    (update update' : Nat → Nat)
    (hupdate : ∀ entry < 2 ^ 32, entry &&& PAGE_PRESENT ≠ 0 →
        decode (update entry % 2 ^ 32) = some ⟨entry &&& 0xFFFFF000, update' (entry &&& 0xFFF)⟩) :
    view (updateEntry m dir virtAddress update) dir =
        (view m dir).setFlags (pageOf virtAddress) update' ∧
      Separated (updateEntry m dir virtAddress update) dir := by
  have hlt : virtAddress &&& 0xFFFFF000 < 2 ^ 32 := lt_of_le_of_lt and_le_left hv
  have hpage : view m dir (pageOf virtAddress) =
      if HasTable m dir (GET_PD_IDX (virtAddress &&& 0xFFFFF000)) then
        decode (tableEntry m dir (virtAddress &&& 0xFFFFF000)) else none := by
    rw [← pageOf_aligned hv]
    exact view_pageOf hlt
  simp only [updateEntry, PageMap.setFlags, hpage]
  by_cases htable : HasTable m dir (GET_PD_IDX (virtAddress &&& 0xFFFFF000))
  · rw [if_neg htable, if_pos htable]
    by_cases hentry : tableEntry m dir (virtAddress &&& 0xFFFFF000) &&& PAGE_PRESENT = 0
    · rw [if_pos hentry, decode_of_absent hentry]
      exact ⟨rfl, hsep⟩
    · rw [if_neg hentry, decode_of_present hentry]
      obtain ⟨hview, hsep'⟩ := setTableEntry_spec hsep hlt htable
        (update (tableEntry m dir (virtAddress &&& 0xFFFFF000)))
      rw [pageOf_aligned hv, hupdate _ tableEntry_lt hentry] at hview
      exact ⟨hview, hsep'⟩
  · rw [if_pos (not_not.mp htable), if_neg htable]
    exact ⟨rfl, hsep⟩

theorem exec_agrees (hsep : Separated m dir) {call : Call} (hvalid : call.Valid m dir) :
    Agrees m dir call := by
  cases call with
  | map physAddress virtAddress flags table =>
    obtain ⟨⟨hphys, haligned⟩, hv, ⟨hflags, hpresent⟩, hnew⟩ := hvalid
    by_cases htable : HasTable m dir (GET_PD_IDX virtAddress)
    · exact agrees_map_of_hasTable hsep hphys haligned hv hflags hpresent htable table
    · obtain ⟨hlt, hfresh⟩ := hnew htable
      exact agrees_map_of_no_table hsep hphys haligned hv hflags hpresent htable hlt hfresh
  | unmap virtAddress => exact agrees_unmap hsep hvalid
  | protectPage virtAddress =>
    obtain ⟨hview, hsep'⟩ := updateEntry_spec hsep hvalid (· ||| PAGE_WRITE_PROTECTED)
      (· ||| PAGE_WRITE_PROTECTED) fun entry hlt hentry => by
        rw [mod_eq_of_lt (or_lt_two_pow hlt (by norm_num))]
        exact decode_protect hentry
    unfold Agrees
    simp only [exec, PageMap.exec, protectPage, hview]
    exact ⟨trivial, hsep'⟩
  | unprotectPage virtAddress =>
    obtain ⟨hview, hsep'⟩ := updateEntry_spec hsep hvalid
      (· &&& (0xFFFFFFFF - PAGE_WRITE_PROTECTED)) (· &&& (0xFFF - PAGE_WRITE_PROTECTED))
      fun entry hlt hentry => by
        rw [mod_eq_of_lt (lt_of_le_of_lt and_le_left hlt)]
        exact decode_unprotect hentry
    unfold Agrees
    simp only [exec, PageMap.exec, unprotectPage, hview]
    exact ⟨trivial, hsep'⟩

end Calls

section Runs

variable {m m' : Mem} {dir : PageDirectory} {trace : List (Call × Answer)}

/-- A valid call and the answer of the code to it. -/
inductive Step (dir : PageDirectory) : Mem → Call × Answer → Mem → Prop
  | call {m : Mem} {call : Call} (hvalid : call.Valid m dir) :
      Step dir m (call, (exec m dir call).1) (exec m dir call).2

theorem step_refines {label : Call × Answer} (hsep : Separated m dir)
    (hstep : Step dir m label m') :
    PageMap.Step (view m dir) label (view m' dir) ∧ Separated m' dir := by
  cases hstep with
  | call hvalid => exact exec_agrees hsep hvalid

/-- Over every run of valid calls the directory behaves as the partial map does:
it gives the same answers and stands for the resulting map, in which
`getPhysicalAddress` looks pages up, and the next call changes no page but its
own. -/
theorem run_refines (hsep : Separated m dir) (hrun : Run (Step dir) m trace m') :
    Run PageMap.Step (view m dir) trace (view m' dir) ∧
      (∀ virtAddress < 2 ^ 32, getPhysicalAddress m' dir virtAddress =
        (view m' dir).frameAt (pageOf virtAddress)) ∧
      ∀ call answer m'', Step dir m' (call, answer) m'' →
        ∀ page, page ≠ pageOf call.virtAddress → view m'' dir page = view m' dir page := by
  have hstep : ∀ s label s', Separated s dir → Step dir s label s' →
      PageMap.Step (view s dir) label (view s' dir) ∧ Separated s' dir :=
    fun s label s' => step_refines
  obtain ⟨himage, hsep'⟩ := hrun.simulate hstep hsep
  refine ⟨himage, fun virtAddress hv => getPhysicalAddress_eq hv, ?_⟩
  intro call answer m'' hstep page hne
  have hcall : PageMap.Step (view m' dir) (call, answer) (view m'' dir) :=
    (step_refines hsep' hstep).1
  have hframe := (view m' dir).exec_of_ne call hne
  rwa [hcall] at hframe

theorem run_refines_one_page :
    ∃ answer m', Run (Step ⟨0x10000, 0, 0x11000⟩) (fun _ => 0)
        [(.map 0x5000 0x08048123 3 ⟨0x12000, 0x7000⟩, answer)] m' ∧ answer = .returned ∧
      getPhysicalAddress m' ⟨0x10000, 0, 0x11000⟩ 0x08048ABC = 0x5000 := by
  have hempty : ∀ idx, ¬HasTable (fun _ => 0) ⟨0x10000, 0, 0x11000⟩ idx := by
    simp [HasTable, dirEntry, getWord, load32]
  have hview : view (fun _ => 0) ⟨0x10000, 0, 0x11000⟩ = fun _ => none := by
    funext page
    exact if_neg fun h => hempty _ h.2
  have hsep : Separated (fun _ => 0) ⟨0x10000, 0, 0x11000⟩ :=
    ⟨.inl (by decide), fun idx _ h => absurd h (hempty idx), fun idx _ h => absurd h (hempty idx),
      fun i _ _ _ _ h => absurd h (hempty i)⟩
  have hvalid :
      Call.Valid (fun _ => 0) ⟨0x10000, 0, 0x11000⟩ (.map 0x5000 0x08048123 3 ⟨0x12000, 0x7000⟩) :=
    ⟨by decide, by decide, by decide, fun _ => ⟨by decide, .inr (by decide), .inr (by decide),
      fun idx _ h => absurd h (hempty idx)⟩⟩
  have hrun := Run.next (Step.call hvalid) (Run.done _)
  refine ⟨_, _, hrun, ?_⟩
  obtain ⟨himage, hlookup, _⟩ := run_refines hsep hrun
  cases himage with
  | next hone hrest =>
    cases hrest
    obtain ⟨hanswer, hpages⟩ := Prod.mk.inj hone
    refine ⟨hanswer.symm, ?_⟩
    rfl

end Runs

end HuyaOS.PageDirectory
