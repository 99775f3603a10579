import HuyaOS.Paging.Entries

/-!
The pages that are mapped after booting. The 256 tables of kernel space lie
side by side, so together they are one array of words, in which word `j` is the
entry of kernel page `j`. The constructor of the base directory fills the words
of the reserved memory and the initial heap, and those of the pages that it
uses itself; all others stay zero.
-/

namespace HuyaOS.PageDirectory

open Lib Management Paging Nat

def kernelEntries : Nat := 256 * 1024

def areaEntry : Nat := (VIRT_PAGE_MEM_START - KERNEL_START) / PAGESIZE

def bootEntry (reservedMemoryEnd j : Nat) : Nat :=
  j * PAGESIZE ||| if j < reservedMemoryEnd / PAGESIZE then
    PAGE_READ_WRITE ||| PAGE_PRESENT ||| PAGE_ACCESS_ALL ||| PAGE_WRITE_PROTECTED
  else PAGE_READ_WRITE ||| PAGE_PRESENT ||| PAGE_ACCESS_ALL

def areaPageEntry (reservedMemoryEnd i : Nat) : Nat :=
  bootFrame reservedMemoryEnd i ||| (PAGE_PRESENT ||| PAGE_READ_WRITE ||| PAGE_WRITE_PROTECTED)

/-- The words of kernel space after `n` boot pages and `p` pages of the paging
area have been entered. -/
def Filled (reservedMemoryEnd n p : Nat) (m : Mem) : Prop :=
  ∀ j < kernelEntries, getWord m VIRT_PAGE_MEM_START j =
    if j < n then bootEntry reservedMemoryEnd j
    else if areaEntry ≤ j ∧ j < areaEntry + p then areaPageEntry reservedMemoryEnd (j - areaEntry)
    else 0

section Boot

variable {m m' : Mem} {R n p i : Nat} {pageCount fuel j : Nat}

theorem areaEntry_eq : areaEntry = 128000 := rfl

theorem kernelEntries_eq : kernelEntries = 262144 := rfl

theorem bootEntry_lt (hi : i < 2 ^ 16) : bootEntry R i < 2 ^ 32 := by
  apply or_lt_two_pow
  · simp only [PAGESIZE]
    omega
  · split <;> decide

theorem areaPageEntry_lt : areaPageEntry R i < 2 ^ 32 :=
  or_lt_two_pow (mod_lt _ (by norm_num)) (by decide)

theorem filled_clear (m : Mem) (R : Nat) :
    Filled R 0 0 (clear m VIRT_PAGE_MEM_START (PAGESIZE * 1024)) := by
  intro j hj
  rw [kernelEntries_eq] at hj
  rw [if_neg (by omega), if_neg (by omega)]
  apply getWord_clear_inside (le_add_right _ _)
  simp only [PAGESIZE]
  omega

theorem Filled.after_setWord (h : Filled R n p m) {a k v : Nat}
    (habove : VIRT_PAGE_MEM_START + 4 * kernelEntries ≤ a) : Filled R n p (setWord m a k v) := by
  intro j hj
  rw [← h j hj]
  apply load32_store32_of_disjoint
  omega

theorem Filled.after_enterKernelTable (h : Filled R n p m) (i : Nat) :
    Filled R n p (enterKernelTable (baseDirectory R) R m i) := by
  apply after_setWord
  · apply after_setWord h
    rw [(baseDirectory_location R).1, kernelEntries_eq]
    simp only [PAGESIZE]
    omega
  · rw [(baseDirectory_location R).2, kernelEntries_eq]
    simp only [PAGESIZE]
    omega

theorem Filled.after_enterKernelTables (h : Filled R n p m) (count : Nat) :
    Filled R n p ((List.range count).foldl (enterKernelTable (baseDirectory R) R) m) := by
  induction count with
  | zero => exact h
  | succ count ih =>
    rw [List.range_succ, List.foldl_concat]
    exact ih.after_enterKernelTable count

theorem Entered.tableAddress_first (h : Entered R 256 m) :
    tableAddress m (baseDirectory R) kernelIndex = VIRT_PAGE_MEM_START := by
  rw [h.tableAddress_of_kernel (Nat.le_refl _) (by decide), Nat.sub_self, Nat.zero_mul]

/-- One boot page is entered in two writes, which amount to a single one. -/
theorem mapBootPage_eq (h : Entered R 256 m) (hi : i < 2 ^ 16) (j : Nat) :
    getWord (mapBootPage (baseDirectory R) R m i) VIRT_PAGE_MEM_START j =
      if j = i then bootEntry R i else getWord m VIRT_PAGE_MEM_START j := by
  have hfirst : tableAddress (setWord m VIRT_PAGE_MEM_START i
      (i * PAGESIZE ||| PAGE_READ_WRITE ||| PAGE_PRESENT ||| PAGE_ACCESS_ALL)) (baseDirectory R)
      kernelIndex = VIRT_PAGE_MEM_START :=
    (h.after_setWord (by omega)).tableAddress_first
  have hsmall :
      (i * PAGESIZE ||| PAGE_READ_WRITE ||| PAGE_PRESENT ||| PAGE_ACCESS_ALL) < 2 ^ 32 := by
    rw [Nat.or_assoc, Nat.or_assoc]
    exact or_lt_two_pow (by simp only [PAGESIZE]; omega) (by decide)
  have hentry := bootEntry_lt (R := R) hi
  unfold bootEntry at hentry ⊢
  unfold mapBootPage
  simp only [h.tableAddress_first, hfirst]
  by_cases hprotected : i < R / PAGESIZE
  · simp only [hprotected, if_true] at hentry ⊢
    by_cases hj : j = i
    · rw [hj, if_pos rfl, getWord_setWord_self, getWord_setWord_self, mod_eq_of_lt hsmall,
        Nat.or_assoc, Nat.or_assoc, Nat.or_assoc, ← Nat.or_assoc PAGE_READ_WRITE]
      exact mod_eq_of_lt hentry
    · rw [if_neg hj, getWord_setWord_ne (Ne.symm hj), getWord_setWord_ne (Ne.symm hj)]
  · simp only [hprotected, if_false]
    by_cases hj : j = i
    · rw [hj, if_pos rfl, getWord_setWord_self, Nat.mod_eq_of_lt hsmall, Nat.or_assoc, Nat.or_assoc,
        Nat.or_assoc]
    · rw [if_neg hj, getWord_setWord_ne (Ne.symm hj)]

theorem Filled.after_mapBootPage (h : Filled R i 0 m) (hentered : Entered R 256 m)
    (hi : i < 2 ^ 16) :
    Filled R (i + 1) 0 (mapBootPage (baseDirectory R) R m i) := by
  intro j hj
  rw [mapBootPage_eq hentered hi, h j hj]
  by_cases heq : j = i
  · rw [if_pos heq, if_pos (by omega), heq]
  · rw [if_neg heq]
    by_cases hlt : j < i
    · rw [if_pos hlt, if_pos (by omega)]
    · rw [if_neg hlt, if_neg (by omega), if_neg (by omega)]

theorem mapBootPages_count {dir : PageDirectory} (hi : i < 2 ^ 16)
    (hcall : mapBootPages dir R pageCount fuel i m = some m') : pageCount < 2 ^ 16 := by
  induction fuel generalizing i m with
  | zero => cases hcall
  | succ fuel ih =>
    unfold mapBootPages at hcall
    split at hcall
    · exact ih (mod_lt _ (by norm_num)) hcall
    · omega

theorem Filled.after_mapBootPages (hcount : pageCount < 2 ^ 16)
    (hi : i ≤ pageCount) (h : Filled R i 0 m) (hentered : Entered R 256 m)
    (hcall : mapBootPages (baseDirectory R) R pageCount fuel i m = some m') :
    Filled R pageCount 0 m' := by
  induction fuel generalizing i m with
  | zero => cases hcall
  | succ fuel ih =>
    unfold mapBootPages at hcall
    split at hcall
    · rename_i hlt
      rw [mod_eq_of_lt (by omega)] at hcall
      exact ih hlt (h.after_mapBootPage hentered (by omega))
        (hentered.after_mapBootPage (by omega)) hcall
    · cases hcall
      obtain rfl : i = pageCount := by omega
      exact h

theorem Filled.after_mapPagingPage (h : Filled R n p m) (hentered : Entered R 256 m)
    (hn : n < 2 ^ 16) (hp : p < 258) :
    Filled R n (p + 1) (mapPagingPage (baseDirectory R) R m p) := by
  have haddress : tableAddress m (baseDirectory R) (VIRT_PAGE_MEM_START / (PAGESIZE * 1024)) =
      VIRT_PAGE_MEM_START + 125 * PAGESIZE :=
    hentered.tableAddress_of_kernel (by decide) (by decide)
  have hword : mapPagingPage (baseDirectory R) R m p =
      setWord m VIRT_PAGE_MEM_START (areaEntry + p) (areaPageEntry R p) := by
    unfold mapPagingPage setWord
    rw [haddress, areaEntry_eq, Nat.or_assoc, Nat.or_assoc]
    congr 1
    simp only [PAGESIZE]
    omega
  intro j hj
  rw [hword]
  by_cases heq : j = areaEntry + p
  · rw [heq, getWord_setWord_self, if_neg (by rw [areaEntry_eq]; omega), if_pos (by omega),
      Nat.add_sub_cancel_left]
    exact mod_eq_of_lt areaPageEntry_lt
  · rw [getWord_setWord_ne (Ne.symm heq), h j hj]
    by_cases hlt : j < n
    · rw [if_pos hlt, if_pos hlt]
    · rw [if_neg hlt, if_neg hlt]
      by_cases hin : areaEntry ≤ j ∧ j < areaEntry + p
      · rw [if_pos hin, if_pos (by omega)]
      · rw [if_neg hin, if_neg (by omega)]

theorem Filled.after_mapPagingPages (h : Filled R n 0 m) (hentered : Entered R 256 m)
    (hn : n < 2 ^ 16) (hp : p ≤ 258) :
    Filled R n p ((List.range p).foldl (mapPagingPage (baseDirectory R) R) m) := by
  induction p with
  | zero => exact h
  | succ p ih =>
    rw [List.range_succ, List.foldl_concat]
    exact (ih (by omega)).after_mapPagingPage (hentered.after_mapPagingPages (by omega))
      hn (by omega)

theorem bootstrap_filled (hboot : bootstrap m R = some m') :
    R / PAGESIZE + 1024 < 2 ^ 16 ∧ Filled R (R / PAGESIZE + 1024) 258 m' := by
  unfold bootstrap at hboot
  obtain ⟨m₁, hpages, hm'⟩ := Option.bind_eq_some_iff.mp hboot
  cases hm'
  have hcount := mapBootPages_count (by norm_num) hpages
  have hentered := entered_loop (entered_clear m R) (le_refl 256)
  have hfilled := (filled_clear m R).after_enterKernelTables 256
  exact ⟨hcount,
    (hfilled.after_mapBootPages hcount (zero_le _) hentered hpages).after_mapPagingPages
    (hentered.after_mapBootPages _ (by norm_num) hpages) hcount (le_refl 258)⟩

theorem Entered.view_eq (h : Entered R 256 m) (hj : j < kernelEntries) :
    view m (baseDirectory R) (kernelPage + j) = decode (getWord m VIRT_PAGE_MEM_START j) := by
  have hidx : (kernelPage + j) / 1024 = kernelIndex + j / 1024 := by
    rw [kernelPage_eq, kernelIndex_eq]
    omega
  have hmod : (kernelPage + j) % 1024 = j % 1024 := by
    rw [kernelPage_eq]
    omega
  have hlt : kernelIndex + j / 1024 < 1024 := by
    rw [kernelIndex_eq]
    rw [kernelEntries_eq] at hj
    omega
  have hpage : kernelPage + j < 2 ^ 20 := by
    omega
  unfold view
  rw [hidx, if_pos ⟨hpage, (h.hasTable_iff hlt).mpr (le_add_right _ _)⟩,
    h.tableAddress_of_kernel (Nat.le_add_right _ _) hlt, Nat.add_sub_cancel_left]
  unfold getWord
  congr 2
  simp only [PAGESIZE]
  omega

theorem Entered.view_user (h : Entered R 256 m) {page : Nat} (hpage : page < kernelPage) :
    view m (baseDirectory R) page = none := by
  apply if_neg
  rintro ⟨hlt, htable⟩
  rw [h.hasTable_iff (by omega), kernelIndex_eq] at htable
  rw [kernelPage_eq] at hpage
  omega

theorem decode_bootEntry (hj : j < 2 ^ 16) :
    decode (bootEntry R j) = some ⟨j * PAGESIZE, if j < R / PAGESIZE then
      PAGE_READ_WRITE ||| PAGE_PRESENT ||| PAGE_ACCESS_ALL ||| PAGE_WRITE_PROTECTED
      else PAGE_READ_WRITE ||| PAGE_PRESENT ||| PAGE_ACCESS_ALL⟩ := by
  apply decode_or
  · simp only [PAGESIZE]
    omega
  · exact mul_mod_left _ _
  · split <;> decide
  · split <;> decide

theorem decode_areaPageEntry (haligned : R % PAGESIZE = 0)
    (hframe : R + (1024 + i) * PAGESIZE < 2 ^ 32) :
    decode (areaPageEntry R i) =
      some ⟨R + (1024 + i) * PAGESIZE,
        PAGE_PRESENT ||| PAGE_READ_WRITE ||| PAGE_WRITE_PROTECTED⟩ := by
  have hword : bootFrame R i = R + (1024 + i) * PAGESIZE := by
    unfold bootFrame
    simp only [PAGESIZE] at hframe ⊢
    omega
  unfold areaPageEntry
  rw [hword]
  apply decode_or hframe
  · simp only [PAGESIZE] at haligned ⊢
    omega
  · decide
  · decide

/-- The kernel pages after booting: the reserved memory, which is protected, the initial heap
and the pages of the paging area with the tables and arrays of the base directory. -/
def bootMapping (reservedMemoryEnd j : Nat) : Option Mapping :=
  if j < reservedMemoryEnd / PAGESIZE then
    some ⟨j * PAGESIZE, PAGE_READ_WRITE ||| PAGE_PRESENT ||| PAGE_ACCESS_ALL |||
      PAGE_WRITE_PROTECTED⟩
  else if j < reservedMemoryEnd / PAGESIZE + 1024 then
    some ⟨j * PAGESIZE, PAGE_READ_WRITE ||| PAGE_PRESENT ||| PAGE_ACCESS_ALL⟩
  else if areaEntry ≤ j ∧ j < areaEntry + 258 then
    some ⟨reservedMemoryEnd + (1024 + (j - areaEntry)) * PAGESIZE,
      PAGE_PRESENT ||| PAGE_READ_WRITE ||| PAGE_WRITE_PROTECTED⟩
  else none

section

variable {j : Nat} (hboot : bootstrap m R = some m') (haligned : R % PAGESIZE = 0)
  (hj : j < kernelEntries)

include hboot haligned hj

theorem view_boot_eq : view m' (baseDirectory R) (kernelPage + j) = bootMapping R j := by
  obtain ⟨hcount, hfilled⟩ := bootstrap_filled hboot
  rw [(bootstrap_spec hboot).view_eq hj, hfilled j hj]
  unfold bootMapping
  by_cases hboot : j < R / PAGESIZE + 1024
  · rw [if_pos hboot, decode_bootEntry (hboot.trans hcount)]
    by_cases hreserved : j < R / PAGESIZE
    · rw [if_pos hreserved, if_pos hreserved]
    · rw [if_neg hreserved, if_neg hreserved, if_pos hboot]
  · have hreserved : ¬j < R / PAGESIZE := fun hlt => hboot (Nat.lt_add_right 1024 hlt)
    rw [if_neg hboot, if_neg hreserved, if_neg hboot]
    by_cases harea : areaEntry ≤ j ∧ j < areaEntry + 258
    · rw [if_pos harea, if_pos harea]
      apply decode_areaPageEntry haligned
      simp only [PAGESIZE] at hcount ⊢
      omega
    · rw [if_neg harea, if_neg harea]
      exact decode_zero

theorem view_boot {mapping : Mapping}
    (hview : view m' (baseDirectory R) (kernelPage + j) = some mapping) :
    (j < R / PAGESIZE + 1024 ∧ mapping.frame = j * PAGESIZE) ∨
      (∃ i < 258, j = areaEntry + i ∧
        mapping.frame = (R / PAGESIZE + 1024 + i) * PAGESIZE) := by
  rw [view_boot_eq hboot haligned hj] at hview
  unfold bootMapping at hview
  split at hview
  · cases hview
    exact .inl ⟨by omega, rfl⟩
  · split at hview
    · rename_i hlt
      cases hview
      exact .inl ⟨hlt, rfl⟩
    · split at hview
      · refine .inr ⟨j - areaEntry, by omega, by omega, ?_⟩
        rw [← Option.some.inj hview, add_assoc, add_mul (R / PAGESIZE),
          Nat.div_mul_cancel (Nat.dvd_of_mod_eq_zero haligned)]
      · cases hview

end

theorem view_boot_area (hboot : bootstrap m R = some m') {i : Nat} (hi : i < 258) :
    (view m' (baseDirectory R) (kernelPage + (areaEntry + i))).isSome := by
  obtain ⟨hcount, hfilled⟩ := bootstrap_filled hboot
  have hj : areaEntry + i < kernelEntries := by
    rw [areaEntry_eq, kernelEntries_eq]
    omega
  have hpresent : areaPageEntry R i &&& PAGE_PRESENT ≠ 0 := by
    have hbit := or_present (bootFrame R i)
      (show (PAGE_PRESENT ||| PAGE_READ_WRITE ||| PAGE_WRITE_PROTECTED) % 2 = 1 from rfl)
    have hlt := areaPageEntry_lt (R := R) (i := i)
    unfold areaPageEntry at hlt
    rwa [mod_eq_of_lt hlt] at hbit
  rw [(bootstrap_spec hboot).view_eq hj, hfilled _ hj, if_neg (by rw [areaEntry_eq]; omega),
    if_pos (by omega), Nat.add_sub_cancel_left, decode_of_present hpresent]
  rfl

/-- The constructor returns with the pages mapped exactly if its counter, which has 16 bits, can
reach the number of boot pages: the reserved memory has to end below 252 MiB. Below the paging
area there would be room for 496 MiB. -/
theorem bootstrap_maps_iff (m : Mem) {R : Nat} (haligned : R % (PAGESIZE * 1024) = 0) :
    (∃ m', bootstrap m R = some m' ∧
      ∀ j < kernelEntries, view m' (baseDirectory R) (kernelPage + j) = bootMapping R j) ↔
    R < 252 * 2 ^ 20 := by
  constructor
  · rintro ⟨m', hboot, -⟩
    have hcount := (bootstrap_filled hboot).1
    simp only [PAGESIZE] at hcount
    omega
  · intro hsmall
    obtain ⟨m', hboot⟩ := bootstrap_returns m R (by simp only [PAGESIZE]; omega)
    refine ⟨m', hboot, ?_⟩
    intro j hj
    apply view_boot_eq hboot ?_ hj
    simp only [PAGESIZE] at haligned ⊢
    omega

/-- Sixteen MiB of reserved memory. -/
theorem bootstrap_maps_iff_small :
    ∃ m', bootstrap (fun _ => 0) 0x1000000 = some m' ∧ ∀ j < kernelEntries,
      view m' (baseDirectory 0x1000000) (kernelPage + j) = bootMapping 0x1000000 j :=
  (bootstrap_maps_iff (fun _ => 0) (by decide)).mpr (by decide)

/-- 252 MiB of reserved memory fit below the paging area, but the loop never ends. -/
theorem bootstrap_endless :
    0xFC00000 % (PAGESIZE * 1024) = 0 ∧
      0xFC00000 + PAGESIZE * 1024 ≤ VIRT_PAGE_MEM_START - KERNEL_START ∧
      (∀ m fuel, mapBootPages (baseDirectory 0xFC00000) 0xFC00000
        (0xFC00000 / PAGESIZE + 1024) fuel 0 m =
        none) ∧
      ∀ m, bootstrap m 0xFC00000 = none := by
  refine ⟨by decide, by decide, ?_, ?_⟩
  · intro m fuel
    rw [Option.eq_none_iff_forall_ne_some]
    intro m' hcall
    exact absurd (mapBootPages_count (by norm_num) hcall) (by decide)
  · intro m
    rw [Option.eq_none_iff_forall_ne_some]
    intro m' hboot
    exact absurd (bootstrap_filled hboot).1 (by decide)

end Boot

end HuyaOS.PageDirectory
