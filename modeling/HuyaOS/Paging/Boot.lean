import HuyaOS.Paging.Refinement

/-!
What the two constructors leave in memory. The base directory gets all 256
tables of kernel space at fixed places; a process directory copies the entries
that refer to them and has no table of its own yet.
-/

namespace HuyaOS.PageDirectory

open Lib Management Paging List

theorem kernelIndex_eq : kernelIndex = 768 := rfl

theorem lt_of_lt_kernelIndex {idx : Nat} (hidx : idx < kernelIndex) : idx < 1024 := by
  rw [kernelIndex_eq] at hidx
  omega

/-- The arrays of the base directory after the tables below `n` have been
entered, and no other table. -/
structure Entered (reservedMemoryEnd n : Nat) (m : Mem) : Prop where
  dirEntry_eq : ∀ idx < 1024, dirEntry m (baseDirectory reservedMemoryEnd) idx =
    if kernelIndex ≤ idx ∧ idx < kernelIndex + n then
      (bootFrame reservedMemoryEnd (idx - kernelIndex) ||| PAGE_PRESENT ||| PAGE_READ_WRITE |||
        PAGE_ACCESS_ALL) % 2 ^ 32
    else 0
  tableAddress_eq : ∀ idx < 1024, tableAddress m (baseDirectory reservedMemoryEnd) idx =
    if kernelIndex ≤ idx ∧ idx < kernelIndex + n then
      VIRT_PAGE_MEM_START + (idx - kernelIndex) * PAGESIZE
    else 0

section Boot

variable {m m' : Mem} {reservedMemoryEnd : Nat} {idx pageCount : Nat}

theorem baseDirectory_arrays : Apart 1024 (baseDirectory reservedMemoryEnd).pageDirectory
    (baseDirectory reservedMemoryEnd).virtTableAddresses := by
  unfold Apart baseDirectory
  simp only
  omega

theorem baseDirectory_location (reservedMemoryEnd : Nat) :
    (baseDirectory reservedMemoryEnd).pageDirectory = VIRT_PAGE_MEM_START + 256 * PAGESIZE ∧
      (baseDirectory reservedMemoryEnd).virtTableAddresses =
        VIRT_PAGE_MEM_START + 257 * PAGESIZE := by
  unfold baseDirectory
  norm_num

theorem entered_clear (m : Mem) (reservedMemoryEnd : Nat) :
    Entered reservedMemoryEnd 0 (clear m VIRT_PAGE_MEM_START (PAGESIZE * 1024)) := by
  constructor
  · intro idx hidx
    rw [if_neg (by omega)]
    exact getWord_clear_inside (by simp only [baseDirectory]; omega)
      (by simp only [baseDirectory, PAGESIZE]; omega)
  · intro idx hidx
    rw [if_neg (by omega)]
    exact getWord_clear_inside (by simp only [baseDirectory]; omega)
      (by simp only [baseDirectory, PAGESIZE]; omega)

variable {n i : Nat}

theorem Entered.next (h : Entered reservedMemoryEnd n m) (hn : n < 256) :
    Entered reservedMemoryEnd (n + 1)
      (enterKernelTable (baseDirectory reservedMemoryEnd) reservedMemoryEnd m n) := by
  have hlt : kernelIndex + n < 1024 := by
    rw [kernelIndex_eq]
    omega
  constructor
  · intro idx hidx
    unfold enterKernelTable dirEntry
    rw [getWord_setWord_apart baseDirectory_arrays.symm hlt hidx]
    by_cases heq : idx = kernelIndex + n
    · rw [heq, getWord_setWord_self, if_pos (by omega), Nat.add_sub_cancel_left]
    · rw [getWord_setWord_ne (Ne.symm heq)]
      refine (h.dirEntry_eq idx hidx).trans ?_
      by_cases hin : kernelIndex ≤ idx ∧ idx < kernelIndex + n
      · rw [if_pos hin, if_pos (by omega)]
      · rw [if_neg hin, if_neg (by omega)]
  · intro idx hidx
    unfold enterKernelTable tableAddress
    by_cases heq : idx = kernelIndex + n
    · rw [heq, getWord_setWord_self, if_pos (by omega), Nat.add_sub_cancel_left,
        Nat.mod_eq_of_lt (by simp only [VIRT_PAGE_MEM_START, KERNEL_START, PAGESIZE]; omega)]
    · rw [getWord_setWord_ne (Ne.symm heq), getWord_setWord_apart baseDirectory_arrays hlt hidx]
      refine (h.tableAddress_eq idx hidx).trans ?_
      by_cases hin : kernelIndex ≤ idx ∧ idx < kernelIndex + n
      · rw [if_pos hin, if_pos (by omega)]
      · rw [if_neg hin, if_neg (by omega)]

theorem entered_loop (h : Entered reservedMemoryEnd 0 m) (hn : n ≤ 256) :
    Entered reservedMemoryEnd n ((List.range n).foldl
      (enterKernelTable (baseDirectory reservedMemoryEnd) reservedMemoryEnd) m) := by
  induction n with
  | zero => exact h
  | succ n ih =>
    rw [range_succ, foldl_concat]
    exact (ih (by omega)).next (by omega)

theorem Entered.after_setWord (h : Entered reservedMemoryEnd n m) {a v : Nat}
    (hbelow : a + 4 * i + 4 ≤ VIRT_PAGE_MEM_START + 0x100000) :
    Entered reservedMemoryEnd n (setWord m a i v) := by
  constructor
  · intro idx hidx
    rw [← h.dirEntry_eq idx hidx]
    refine load32_store32_of_disjoint (.inl ?_)
    simp only [baseDirectory]
    omega
  · intro idx hidx
    rw [← h.tableAddress_eq idx hidx]
    refine load32_store32_of_disjoint (.inl ?_)
    simp only [baseDirectory]
    omega

theorem Entered.tableAddress_of_kernel (h : Entered reservedMemoryEnd 256 m)
    (hlo : kernelIndex ≤ idx) (hhi : idx < 1024) :
    tableAddress m (baseDirectory reservedMemoryEnd) idx =
      VIRT_PAGE_MEM_START + (idx - kernelIndex) * PAGESIZE := by
  rw [h.tableAddress_eq idx hhi, if_pos ⟨hlo, by rw [kernelIndex_eq]; omega⟩]

theorem Entered.hasTable_iff (h : Entered reservedMemoryEnd 256 m) (hhi : idx < 1024) :
    HasTable m (baseDirectory reservedMemoryEnd) idx ↔ kernelIndex ≤ idx := by
  unfold HasTable
  rw [h.dirEntry_eq idx hhi]
  by_cases hlo : kernelIndex ≤ idx
  · rw [if_pos ⟨hlo, by rw [kernelIndex_eq]; omega⟩, Nat.or_assoc, Nat.or_assoc]
    exact iff_of_true (or_present _ rfl) hlo
  · rw [if_neg fun hin => hlo hin.1]
    exact iff_of_false (fun hzero => hzero rfl) hlo

theorem Entered.after_mapBootPage (h : Entered reservedMemoryEnd 256 m) (hi : i < 2 ^ 16) :
    Entered reservedMemoryEnd 256
      (mapBootPage (baseDirectory reservedMemoryEnd) reservedMemoryEnd m i) := by
  have haddress : ∀ m, Entered reservedMemoryEnd 256 m →
      tableAddress m (baseDirectory reservedMemoryEnd) kernelIndex = VIRT_PAGE_MEM_START := by
    intro m h
    rw [h.tableAddress_of_kernel (Nat.le_refl _) (by decide), Nat.sub_self, Nat.zero_mul]
  have hfirst : Entered reservedMemoryEnd 256 (setWord m
      (tableAddress m (baseDirectory reservedMemoryEnd) kernelIndex) i
      (i * PAGESIZE ||| PAGE_READ_WRITE ||| PAGE_PRESENT ||| PAGE_ACCESS_ALL)) := by
    refine h.after_setWord ?_
    rw [haddress m h]
    omega
  unfold mapBootPage
  split
  · refine hfirst.after_setWord ?_
    rw [haddress _ hfirst]
    omega
  · exact hfirst

theorem Entered.after_mapBootPages (fuel : Nat) (h : Entered reservedMemoryEnd 256 m)
    (hi : i < 2 ^ 16)
    (hcall : mapBootPages (baseDirectory reservedMemoryEnd) reservedMemoryEnd pageCount fuel i m =
        some m') :
    Entered reservedMemoryEnd 256 m' := by
  induction fuel generalizing i m with
  | zero => cases hcall
  | succ fuel ih =>
    unfold mapBootPages at hcall
    split at hcall
    · exact ih (h.after_mapBootPage hi) (Nat.mod_lt _ (by norm_num)) hcall
    · cases hcall
      exact h

theorem Entered.after_mapPagingPage (h : Entered reservedMemoryEnd 256 m) (hi : i < 258) :
    Entered reservedMemoryEnd 256
      (mapPagingPage (baseDirectory reservedMemoryEnd) reservedMemoryEnd m i) := by
  refine h.after_setWord ?_
  rw [h.tableAddress_of_kernel (by decide) (by decide),
    show VIRT_PAGE_MEM_START / (PAGESIZE * 1024) - kernelIndex = 125 from rfl]
  simp only [PAGESIZE]
  omega

theorem Entered.after_mapPagingPages (h : Entered reservedMemoryEnd 256 m) (hn : n ≤ 258) :
    Entered reservedMemoryEnd 256 ((List.range n).foldl
      (mapPagingPage (baseDirectory reservedMemoryEnd) reservedMemoryEnd) m) := by
  induction n with
  | zero => exact h
  | succ n ih =>
    rw [range_succ, foldl_concat]
    exact (ih (by omega)).after_mapPagingPage (by omega)

theorem bootstrap_spec (hboot : bootstrap m reservedMemoryEnd = some m') :
    Entered reservedMemoryEnd 256 m' := by
  unfold bootstrap at hboot
  obtain ⟨m₁, hpages, hm'⟩ := Option.bind_eq_some_iff.mp hboot
  cases hm'
  have hentered := entered_loop (entered_clear m reservedMemoryEnd) (Nat.le_refl 256)
  exact (hentered.after_mapBootPages _ (by norm_num) hpages).after_mapPagingPages (Nat.le_refl 258)

/-- The loop over the boot pages ends when its counter can reach their number. -/
theorem mapBootPages_returns (hcount : pageCount < 2 ^ 16) (dir : PageDirectory)
    (reservedMemoryEnd fuel : Nat) (m : Mem) (hi : i ≤ pageCount) (hfuel : pageCount - i < fuel) :
    ∃ m', mapBootPages dir reservedMemoryEnd pageCount fuel i m = some m' := by
  induction fuel generalizing i m with
  | zero => omega
  | succ fuel ih =>
    unfold mapBootPages
    split
    · exact ih _ (by omega) (by omega)
    · exact ⟨m, rfl⟩

theorem bootstrap_returns (m : Mem) (reservedMemoryEnd : Nat)
    (hcount : reservedMemoryEnd / PAGESIZE + 1024 < 2 ^ 16) :
    ∃ m', bootstrap m reservedMemoryEnd = some m' := by
  obtain ⟨m₁, hpages⟩ :=
    mapBootPages_returns hcount (baseDirectory reservedMemoryEnd) reservedMemoryEnd (2 ^ 16 + 1)
    ((range 256).foldl (enterKernelTable (baseDirectory reservedMemoryEnd) reservedMemoryEnd)
      (clear m VIRT_PAGE_MEM_START (PAGESIZE * 1024))) (Nat.zero_le _) (by omega)
  refine ⟨(range 258).foldl (mapPagingPage (baseDirectory reservedMemoryEnd) reservedMemoryEnd) m₁,
    ?_⟩
  unfold bootstrap
  simp only [hpages]
  rfl

end Boot

section Process

variable {m m' : Mem} {base current dir : PageDirectory} {n : Nat}

/-- Two pages for the arrays of a new directory that overlap neither each other
nor the arrays of the base directory. -/
structure Fresh (base : PageDirectory) (pageDirectory virtTableAddresses : Nat) : Prop where
  arrays : Apart 1024 pageDirectory virtTableAddresses
  base_directory : Apart 1024 pageDirectory base.pageDirectory
  base_addresses : Apart 1024 pageDirectory base.virtTableAddresses
  directory_base : Apart 1024 virtTableAddresses base.pageDirectory
  addresses_base : Apart 1024 virtTableAddresses base.virtTableAddresses

theorem getWord_copyKernelEntry {a i j : Nat} (hi : kernelIndex + i < 1024) (hj : j < 1024)
    (hdir : Apart 1024 dir.pageDirectory a) (haddr : Apart 1024 dir.virtTableAddresses a) :
    getWord (copyKernelEntry dir base m i) a j = getWord m a j := by
  unfold copyKernelEntry
  rw [getWord_setWord_apart haddr hi hj, getWord_setWord_apart hdir hi hj]

/-- The arrays of the new directory while the entries are copied: those below
`n` have arrived, the others still are as in `m`. -/
structure Copied (base dir : PageDirectory) (m : Mem) (n : Nat) (m' : Mem) : Prop where
  other : ∀ a, Apart 1024 dir.pageDirectory a → Apart 1024 dir.virtTableAddresses a →
    ∀ j < 1024, getWord m' a j = getWord m a j
  dirEntry_eq : ∀ idx < 1024, dirEntry m' dir idx =
    if kernelIndex ≤ idx ∧ idx < kernelIndex + n then dirEntry m base idx else dirEntry m dir idx
  tableAddress_eq : ∀ idx < 1024, tableAddress m' dir idx =
    if kernelIndex ≤ idx ∧ idx < kernelIndex + n then tableAddress m base idx
    else tableAddress m dir idx

theorem Copied.next (hfresh : Fresh base dir.pageDirectory dir.virtTableAddresses)
    (h : Copied base dir m n m') (hn : kernelIndex + n < 1024) :
    Copied base dir m (n + 1) (copyKernelEntry dir base m' n) := by
  have hbase : dirEntry m' base (kernelIndex + n) = dirEntry m base (kernelIndex + n) :=
    h.other _ hfresh.base_directory hfresh.directory_base _ hn
  have hbase' : tableAddress m' base (kernelIndex + n) = tableAddress m base (kernelIndex + n) :=
    h.other _ hfresh.base_addresses hfresh.addresses_base _ hn
  constructor
  · intro a hdir haddr j hj
    rw [getWord_copyKernelEntry hn hj hdir haddr]
    exact h.other a hdir haddr j hj
  · intro idx hidx
    have hstep : dirEntry (copyKernelEntry dir base m' n) dir idx =
        if idx = kernelIndex + n then dirEntry m base (kernelIndex + n)
          else dirEntry m' dir idx := by
      unfold copyKernelEntry
      rw [hbase, dirEntry, getWord_setWord_apart hfresh.arrays.symm hn hidx]
      split
      · rename_i heq
        rw [heq, getWord_setWord_self]
        exact Nat.mod_eq_of_lt getWord_lt
      · rename_i hne
        exact getWord_setWord_ne (Ne.symm hne)
    rw [hstep, h.dirEntry_eq idx hidx]
    grind
  · intro idx hidx
    have hstep : tableAddress (copyKernelEntry dir base m' n) dir idx =
        if idx = kernelIndex + n then tableAddress m base (kernelIndex + n)
        else tableAddress m' dir idx := by
      simp only [copyKernelEntry, tableAddress]
      rw [getWord_setWord_apart hfresh.base_addresses hn hn]
      split
      · rename_i heq
        rw [heq, getWord_setWord_self, Nat.mod_eq_of_lt getWord_lt]
        exact hbase'
      · rename_i hne
        rw [getWord_setWord_ne (Ne.symm hne), getWord_setWord_apart hfresh.arrays hn hidx]
    rw [hstep, h.tableAddress_eq idx hidx]
    grind

theorem copied_loop (hfresh : Fresh base dir.pageDirectory dir.virtTableAddresses) (m : Mem)
    (hn : kernelIndex + n ≤ 1024) :
    Copied base dir m n ((List.range n).foldl (copyKernelEntry dir base) m) := by
  induction n with
  | zero =>
    refine ⟨fun _ _ _ _ _ => rfl, fun idx _ => ?_, fun idx _ => ?_⟩
    · rw [if_neg (by omega)]
      rfl
    · rw [if_neg (by omega)]
      rfl
  | succ n ih =>
    rw [range_succ, foldl_concat]
    exact (ih (by omega)).next hfresh (by omega)

/-- The constructor of a process directory copies kernel space and nothing else. -/
theorem process_spec {pageDirectory virtTableAddresses : Nat}
    (hcall : process m base current pageDirectory virtTableAddresses = some (dir, m'))
    (hfresh : Fresh base pageDirectory virtTableAddresses) :
    (dir.pageDirectory = pageDirectory ∧ dir.virtTableAddresses = virtTableAddresses) ∧
      (∀ a, Apart 1024 pageDirectory a → Apart 1024 virtTableAddresses a →
        ∀ j < 1024, getWord m' a j = getWord m a j) ∧
      (∀ idx < 1024, dirEntry m' dir idx =
        if kernelIndex ≤ idx then dirEntry m base idx else 0) ∧
      ∀ idx < 1024, tableAddress m' dir idx =
        if kernelIndex ≤ idx then tableAddress m base idx else 0 := by
  unfold process at hcall
  split at hcall
  · cases hcall
  · cases hcall
    let dir : PageDirectory := ⟨pageDirectory, getPhysicalAddress
      (clear (clear m pageDirectory PAGESIZE) virtTableAddresses PAGESIZE) current pageDirectory,
      virtTableAddresses⟩
    have hfresh' : Fresh base dir.pageDirectory dir.virtTableAddresses := hfresh
    have hcopied :=
      copied_loop hfresh' (clear (clear m pageDirectory PAGESIZE) virtTableAddresses PAGESIZE)
      (n := 1024 - kernelIndex) (by decide)
    have hclear : ∀ a, Apart 1024 pageDirectory a → Apart 1024 virtTableAddresses a → ∀ j < 1024,
        getWord (clear (clear m pageDirectory PAGESIZE) virtTableAddresses PAGESIZE) a j =
          getWord m a j := fun a hdir haddr j hj =>
      (getWord_clear_apart haddr hj le_rfl).trans (getWord_clear_apart hdir hj le_rfl)
    refine ⟨⟨rfl, rfl⟩, ?_, ?_, ?_⟩
    · intro a hdir haddr j hj
      exact (hcopied.other a hdir haddr j hj).trans (hclear a hdir haddr j hj)
    · intro idx hidx
      refine (hcopied.dirEntry_eq idx hidx).trans ?_
      by_cases hkernel : kernelIndex ≤ idx
      · rw [if_pos (by omega), if_pos hkernel]
        exact hclear _ hfresh.base_directory hfresh.directory_base idx hidx
      · rw [if_neg fun h => hkernel h.1, if_neg hkernel]
        refine (getWord_clear_apart hfresh.arrays.symm hidx le_rfl).trans ?_
        exact getWord_clear_inside (by omega) (by simp only [PAGESIZE]; omega)
    · intro idx hidx
      refine (hcopied.tableAddress_eq idx hidx).trans ?_
      by_cases hkernel : kernelIndex ≤ idx
      · rw [if_pos (by omega), if_pos hkernel]
        exact hclear _ hfresh.base_addresses hfresh.addresses_base idx hidx
      · rw [if_neg fun h => hkernel h.1, if_neg hkernel]
        exact getWord_clear_inside (Nat.le_add_right _ _)
          (show virtTableAddresses + 4 * idx + 4 ≤ _ by simp only [PAGESIZE]; omega)

end Process

end HuyaOS.PageDirectory
