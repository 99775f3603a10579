import HuyaOS.Kernel.Management
import HuyaOS.Lib.Exclusive

/-!
Who refers to a frame. The entries of the page tables are the holders of
frames, and the bitmap says which frames are free. The invariant ties the
bitmap of frames, the bitmap of the paging area and the entries together.
-/

namespace HuyaOS.Management

open Lib Paging PageDirectory Function BitmapMemoryManager Bitmap Nat System

def entryAddress (m : Mem) (dir : PageDirectory) (page : Nat) : Nat :=
  tableAddress m dir (page / 1024) + 4 * (page % 1024)

namespace State

/-- No frame that is considered free is referenced by a present entry, and no
frame is referenced by two. -/
structure FrameOwnership (s : State) : Prop where
  not_free : ∀ dir ∈ s.all, ∀ page mapping, view s.mem dir page = some mapping →
    mapping.frame ∉ s.pageFrameAllocator.freeAddresses
  unique : ∀ dir ∈ s.all, ∀ dir' ∈ s.all, ∀ page page' mapping mapping',
    view s.mem dir page = some mapping → view s.mem dir' page' = some mapping' →
      mapping.frame = mapping'.frame → entryAddress s.mem dir page = entryAddress s.mem dir' page'

/-- The frame that an entry refers to. -/
def frameOf (s : State) (e : Entry) : Option Nat := (s.lookup e).map Mapping.frame

end State

/-- A manager of pages from `start` on, which throws when it is out of pages. -/
structure Region (mgr : BitmapMemoryManager) (start : Nat) : Prop where
  valid : mgr.Valid
  type_ne : mgr.managerType ≠ .MISC
  start_eq : mgr.memoryStartAddress = start
  blockSize_eq : mgr.blockSize = PAGESIZE

section Region

variable {mgr mgr' : BitmapMemoryManager} {start k ptr : Nat}

section

variable (h : Region mgr start)

include h

theorem Region.address_eq (k : Nat) : mgr.address k = start + k * PAGESIZE := by
  rw [address, h.start_eq, h.blockSize_eq]

theorem Region.lt (hk : k < mgr.bitmap.blocks) : k < 2 ^ 20 := by
  have hlt := h.valid.address_lt hk
  have hend := h.valid.end_lt
  rw [h.address_eq] at hlt
  simp only [PAGESIZE] at hlt
  omega

theorem Region.claim (k : Nat) : Region (mgr.claim k 1) start :=
  ⟨h.valid.claim k 1, h.type_ne, h.start_eq, h.blockSize_eq⟩

theorem Region.release (k : Nat) : Region (mgr.release k) start :=
  ⟨h.valid.release k, h.type_ne, h.start_eq, h.blockSize_eq⟩

theorem Region.alloc (hcall : mgr.alloc PAGESIZE = .ok (ptr, mgr')) :
    ∃ k ∈ mgr.bitmap.clear, ptr = start + k * PAGESIZE ∧ mgr' = mgr.claim k 1 := by
  have hcount : mgr.blockCount PAGESIZE = 1 := by
    simpa using PageFrameAllocator.blockCount_pages h.blockSize_eq 1
  rcases alloc_cases h.valid (show 0 < PAGESIZE by decide) with
    ⟨k, hrun, _, heq⟩ | ⟨_, hfail⟩
  · rw [hcount] at hrun heq
    rw [hcall] at heq
    obtain ⟨rfl, rfl⟩ : ptr = mgr.address k ∧ mgr' = mgr.claim k 1 := by simpa using heq
    exact ⟨k, hrun.subset_clear (by simp), h.address_eq k, rfl⟩
  · exact absurd (hfail ptr mgr' hcall).1 h.type_ne

theorem Region.free {k : Nat} (hlt : start + k * PAGESIZE < 2 ^ 32) :
    Region (mgr.free (start + k * PAGESIZE)) start ∧
      (mgr.free (start + k * PAGESIZE)).bitmap.blocks = mgr.bitmap.blocks ∧
      (mgr.free (start + k * PAGESIZE)).freeAddresses ⊆
        insert (start + k * PAGESIZE) mgr.freeAddresses := by
  have hoffset : sub32 (start + k * PAGESIZE) mgr.memoryStartAddress / mgr.blockSize = k := by
    rw [h.start_eq, h.blockSize_eq, sub32_eq (by omega) hlt, Nat.add_sub_cancel_left,
      Nat.mul_div_cancel _ (by decide)]
  rcases mgr.free_cases (start + k * PAGESIZE) with hfree | hfree
  · rw [hfree]
    exact ⟨h, rfl, Set.subset_insert _ _⟩
  · rw [hfree, hoffset, ← h.address_eq]
    exact ⟨h.release k, blocks_unset, mgr.freeAddresses_release_subset k⟩

end

theorem isSet_claim_of_isSet {j : Nat} (hj : mgr.bitmap.isSet j = true) :
    (mgr.claim k 1).bitmap.isSet j = true := by
  simp [claim, isSet_setRange, hj]

theorem clear_subset_claim (mgr : BitmapMemoryManager) (k : Nat) :
    mgr.bitmap.clear ⊆ insert k (mgr.claim k 1).bitmap.clear := by
  intro j hj
  rw [Finset.mem_insert, claim, clear_setRange, Finset.mem_sdiff, Ico_succ_singleton,
    Finset.mem_singleton]
  tauto

theorem Region.alloc_returns (h : Region mgr start) (hk : k ∈ mgr.bitmap.clear) :
    ∃ ptr mgr', mgr.alloc PAGESIZE = .ok (ptr, mgr') := by
  have hcount : mgr.blockCount PAGESIZE = 1 := by
    simpa using PageFrameAllocator.blockCount_pages h.blockSize_eq 1
  obtain ⟨hlt, hclear⟩ := mem_clear.mp hk
  rcases alloc_cases h.valid (show 0 < PAGESIZE by decide) with
    ⟨j, _, _, heq⟩ | ⟨hnone, _⟩
  · exact ⟨_, _, heq⟩
  · rw [hcount] at hnone
    refine absurd ⟨hlt, fun j hlo hhi => ?_⟩ (hnone k)
    obtain rfl : j = k := by omega
    exact hclear

theorem isSet_claim_self (hk : k ∈ mgr.bitmap.clear) : (mgr.claim k 1).bitmap.isSet k = true := by
  simp [claim, isSet_setRange, (mem_clear.mp hk).1]

end Region

/-- Page `k` of the paging area. -/
def areaPage (k : Nat) : Nat := VIRT_PAGE_MEM_START + k * PAGESIZE

def bootPages : Nat := 258

namespace State

/-- Every page that paging uses lies in the paging area and its bit is set. -/
structure Placed (s : State) : Prop where
  shared : Shared s.toSystem
  current : s.current ∈ s.all
  area : Region s.pagingAreaManager VIRT_PAGE_MEM_START
  reserved : ∀ k < bootPages, s.pagingAreaManager.bitmap.isSet k = true
  pages : ∀ a, s.InUse a → ∃ k, s.location a = areaPage k ∧
    s.pagingAreaManager.bitmap.isSet k = true
  absent : ∀ dir ∈ s.all, ∀ idx < kernelIndex, ¬HasTable s.mem dir idx →
    tableAddress s.mem dir idx = 0

/-- Entries that are empty after booting. -/
def LateEntry : Entry → Prop
  | .user _ _ => True
  | .kernel page => pageOf (areaPage bootPages) ≤ page

/-- The entries hold their frames exclusively, and the pages that paging uses
have frames. The entries with property `P` refer to frames of the allocator;
`P` has to hold for those that are filled after booting. -/
structure Kept (P : Entry → Prop) (s : State) : Prop extends Placed s where
  frames : Region s.pageFrameAllocator 0
  zero : 0 ∉ s.pageFrameAllocator.freeAddresses
  exclusive : Exclusive s.frameOf s.pageFrameAllocator.freeAddresses
  allocated : ∀ e, P e → ∀ frame, s.frameOf e = some frame →
    ∃ k < s.pageFrameAllocator.bitmap.blocks, frame = k * PAGESIZE
  positive : ∀ e, LateEntry e → s.frameOf e ≠ some 0
  backed : ∀ a, s.InUse a → (s.frameOf (.kernel (pageOf (s.location a)))).isSome

section Area

variable {s : State} {k v : Nat}

theorem areaPage_lt (h : Placed s) (hk : k < s.pagingAreaManager.bitmap.blocks) :
    areaPage k < 2 ^ 32 := by
  have hlt := h.area.valid.address_lt hk
  have hend := h.area.valid.end_lt
  rw [h.area.address_eq] at hlt
  exact lt_trans hlt hend

theorem pageOf_areaPage (k : Nat) : pageOf (areaPage k) = 914432 + k := by
  simp only [pageOf, areaPage, VIRT_PAGE_MEM_START, KERNEL_START, PAGESIZE]
  omega

theorem kernelPage_le_areaPage (k : Nat) : kernelPage ≤ pageOf (areaPage k) := by
  rw [pageOf_areaPage, kernelPage_eq]
  omega

theorem apart_areaPage {i j : Nat} (hne : i ≠ j) : Apart 1024 (areaPage i) (areaPage j) :=
  apart_of_slots hne

theorem Placed.free_of_clear (h : Placed s) (hk : k ∈ s.pagingAreaManager.bitmap.clear) :
    s.Free (areaPage k) := by
  intro a huse
  obtain ⟨j, hloc, hset⟩ := h.pages a huse
  rw [hloc]
  apply apart_areaPage
  rintro rfl
  rw [(mem_clear.mp hk).2] at hset
  cases hset

theorem Placed.le_of_clear (h : Placed s) (hk : k ∈ s.pagingAreaManager.bitmap.clear) :
    bootPages ≤ k := by
  by_contra hlow
  have hset := h.reserved k (by omega)
  rw [(mem_clear.mp hk).2] at hset
  cases hset

theorem Placed.hasTable (h : Placed s) (hv : v < 2 ^ 32) (hkernel : kernelPage ≤ pageOf v) :
    HasTable s.mem s.current (GET_PD_IDX v) :=
  h.shared.hasTable_of_kernel h.current (kernelIndex_le_iff.mpr hkernel) (pd_lt hv)

end Area

section Effects

variable {P : Entry → Prop} {s : State} {dir : PageDirectory} {m' : Mem} {k v page flags : Nat}
  {e : Entry} {frame : Nat}

theorem Placed.claimArea (h : Placed s) (k : Nat) :
    Placed { s with pagingAreaManager := s.pagingAreaManager.claim k 1 } where
  shared := h.shared
  current := h.current
  area := h.area.claim k
  reserved j hj := isSet_claim_of_isSet (h.reserved j hj)
  pages a huse := by
    obtain ⟨j, hloc, hset⟩ := h.pages a huse
    exact ⟨j, hloc, isSet_claim_of_isSet hset⟩
  absent := h.absent

theorem Kept.claimArea (h : Kept P s) (k : Nat) :
    Kept P { s with pagingAreaManager := s.pagingAreaManager.claim k 1 } :=
  ⟨h.toPlaced.claimArea k, h.frames, h.zero, h.exclusive, h.allocated, h.positive, h.backed⟩

theorem Kept.claimFrame (h : Kept P s) (hk : k ∈ s.pageFrameAllocator.bitmap.clear) :
    Kept P { s with pageFrameAllocator := s.pageFrameAllocator.claim k 1 } ∧ 0 < k ∧
      k < (s.pageFrameAllocator.claim k 1).bitmap.blocks ∧
      Loose s.frameOf (s.pageFrameAllocator.claim k 1).freeAddresses (k * PAGESIZE) := by
  have hfree : (s.pageFrameAllocator.claim k 1).freeAddresses =
      s.pageFrameAllocator.freeAddresses \ {k * PAGESIZE} := by
    rw [freeAddresses_claim h.frames.valid, h.frames.address_eq, zero_add]
  have hmem : k * PAGESIZE ∈ s.pageFrameAllocator.freeAddresses :=
    ⟨k, hk, by rw [h.frames.address_eq, zero_add]⟩
  have hsub : (s.pageFrameAllocator.claim k 1).freeAddresses ⊆
      s.pageFrameAllocator.freeAddresses := by
    rw [hfree]
    exact Set.sdiff_subset
  refine ⟨⟨⟨h.shared, h.current, h.area, h.reserved, h.pages, h.absent⟩,
    h.frames.claim k, fun hzero => h.zero (hsub hzero), h.exclusive.mono (fun _ _ he => he) hsub,
      ?_,
    h.positive, h.backed⟩, ?_, ?_, ?_⟩
  · intro e hP frame hframe
    obtain ⟨j, hlt, heq⟩ := h.allocated e hP frame hframe
    exact ⟨j, by rw [claim, blocks_setRange]; exact hlt, heq⟩
  · apply pos_of_ne_zero
    rintro rfl
    exact h.zero hmem
  · rw [claim, blocks_setRange]
    exact (mem_clear.mp hk).1
  · rw [hfree]
    exact h.exclusive.loose hmem

theorem Placed.of_arrays (h : Placed s) (hkeep : s.KeepsArrays m') :
    Placed { s with mem := m' } where
  shared := h.shared.of_arrays hkeep
  current := h.current
  area := h.area
  reserved := h.reserved
  pages a huse := by
    obtain ⟨huse', hloc⟩ := pages_of_arrays hkeep huse
    obtain ⟨j, hj, hset⟩ := h.pages a huse'
    exact ⟨j, hloc.trans hj, hset⟩
  absent d hd idx hidx htable := by
    obtain ⟨hentry, haddress⟩ := hkeep d hd idx (lt_of_lt_kernelIndex hidx)
    unfold HasTable at htable
    rw [hentry] at htable
    exact haddress.trans (h.absent d hd idx hidx htable)

theorem backed_of_arrays (hkeep : s.KeepsArrays m') {frame : Entry → Option Nat}
    (hbacked : ∀ a, s.InUse a → (frame (.kernel (pageOf (s.location a)))).isSome) {a : Area}
    (huse : InUse { s.toSystem with mem := m' } a) :
    (frame (.kernel (pageOf (location { s.toSystem with mem := m' } a)))).isSome := by
  obtain ⟨huse', hloc⟩ := pages_of_arrays hkeep huse
  rw [hloc]
  exact hbacked a huse'

theorem frameOf_setTableEntry (h : Placed s) (hdir : dir ∈ s.all) (hv : v < 2 ^ 32)
    (htable : HasTable s.mem dir (GET_PD_IDX v)) (value : Nat) :
    frameOf { s with mem := setTableEntry s.mem dir v value } =
      update s.frameOf (entryOf dir (pageOf v))
        ((decode (value % 2 ^ 32)).map Mapping.frame) := by
  have hlookup := h.shared.lookup_setTableEntry hdir hv htable value
  funext e
  unfold frameOf
  rw [hlookup, update_apply, update_apply]
  split <;> rfl

theorem frame_decode_or (hk : k < 2 ^ 20) (hflags : flags < 2 ^ 12) :
    (decode ((k * PAGESIZE ||| flags) % 2 ^ 32)).map Mapping.frame =
      if flags &&& PAGE_PRESENT = 0 then none else some (k * PAGESIZE) := by
  have hlt : k * PAGESIZE < 2 ^ 32 := by
    simp only [PAGESIZE]
    omega
  have hbit : ∀ x : Nat, x &&& PAGE_PRESENT = x % 2 := fun x => and_two_pow_sub_one_eq_mod x 1
  rw [mod_eq_of_lt (or_lt_two_pow hlt (by omega))]
  split
  · rename_i habsent
    rw [decode_of_absent]
    · rfl
    · rw [and_or_distrib_right, hbit, habsent, or_zero]
      simp only [PAGESIZE]
      omega
  · rename_i hpresent
    rw [decode_or hlt (mul_mod_left _ _) hflags hpresent]
    rfl

/-- An empty entry is filled with a frame that nobody refers to. -/
theorem Kept.hold (h : Kept P s) (hdir : dir ∈ s.all) (hv : v < 2 ^ 32)
    (htable : HasTable s.mem dir (GET_PD_IDX v))
    (hempty : s.frameOf (entryOf dir (pageOf v)) = none) (hflags : flags < 2 ^ 12) (hpos : 0 < k)
    (hk : k < s.pageFrameAllocator.bitmap.blocks)
    (hloose : Loose s.frameOf s.pageFrameAllocator.freeAddresses (k * PAGESIZE)) :
    Kept P { s with mem := setTableEntry s.mem dir v (k * PAGESIZE ||| flags) } := by
  have harrays := h.shared.setTableEntry_arrays hdir hv htable (k * PAGESIZE ||| flags)
  have hbound := h.frames.lt hk
  have hframe := frameOf_setTableEntry h.toPlaced hdir hv htable (k * PAGESIZE ||| flags)
  rw [frame_decode_or hbound hflags] at hframe
  refine ⟨h.toPlaced.of_arrays harrays, h.frames, h.zero, ?_, ?_, ?_, ?_⟩
  · rw [hframe]
    split
    · exact h.exclusive.mono (fun e r he => (update_none_eq_some he).2) (subset_refl _)
    · exact h.exclusive.hold hloose _
  · intro e hP frame he
    rw [hframe, update_apply] at he
    split at he
    · split at he
      · cases he
      · exact ⟨k, hk, (Option.some.inj he).symm⟩
    · exact h.allocated e hP frame he
  · intro e hlate he
    rw [hframe, update_apply] at he
    split at he
    · split at he
      · cases he
      · have hzero := Option.some.inj he
        simp only [PAGESIZE] at hzero
        omega
    · exact h.positive e hlate he
  · rw [hframe]
    apply backed_of_arrays harrays
    intro a huse
    have hbacked := h.backed a huse
    rw [update_of_ne]
    · exact hbacked
    · intro heq
      rw [heq, hempty] at hbacked
      cases hbacked

theorem frameOf_aligned (s : State) (he : s.frameOf e = some frame) :
    ∃ k < 2 ^ 20, frame = k * PAGESIZE := by
  have hdecode : ∀ (m : Mem) (d : PageDirectory) (page : Nat),
      (view m d page).map Mapping.frame = some frame → ∃ k < 2 ^ 20, frame = k * PAGESIZE := by
    intro m d page hview
    unfold view at hview
    split at hview
    · unfold decode at hview
      split at hview
      · cases hview
      · have hmask := and_pageMask (@getWord_lt m (tableAddress m d (page / 1024)) (page % 1024))
        have hlt := @getWord_lt m (tableAddress m d (page / 1024)) (page % 1024)
        refine ⟨getWord m (tableAddress m d (page / 1024)) (page % 1024) / 4096, by omega, ?_⟩
        rw [← Option.some.inj hview]
        exact hmask
    · cases hview
  unfold frameOf at he
  cases e with
  | user d page =>
    simp only [lookup] at he
    split at he
    · exact hdecode _ _ _ he
    · cases he
  | kernel page =>
    simp only [lookup] at he
    split at he
    · exact hdecode _ _ _ he
    · cases he

theorem Kept.frames_forget (h : Kept P s) (hentry : s.frameOf e = some frame)
    {frames : BitmapMemoryManager}
    (hframes : frames = if frame = 0 then s.pageFrameAllocator
        else s.pageFrameAllocator.free frame) :
    Region frames 0 ∧ frames.bitmap.blocks = s.pageFrameAllocator.bitmap.blocks ∧
      0 ∉ frames.freeAddresses ∧
      frames.freeAddresses ⊆ insert frame s.pageFrameAllocator.freeAddresses := by
  obtain ⟨k, hk, hframe_eq⟩ := s.frameOf_aligned hentry
  have hfree := h.frames.free (k := k) (by simp only [PAGESIZE]; omega)
  rw [zero_add, ← hframe_eq] at hfree
  rw [hframes]
  split
  · exact ⟨h.frames, rfl, h.zero, Set.subset_insert _ _⟩
  · rename_i hne
    refine ⟨hfree.1, hfree.2.1, fun hzero => ?_, hfree.2.2⟩
    rcases hfree.2.2 hzero with heq | hmem
    · exact hne heq.symm
    · exact h.zero hmem

/-- The entry of a page that paging does not use is emptied, and its frame is
given back. -/
theorem Kept.forget (h : Kept P s) (hdir : dir ∈ s.all) (hv : v < 2 ^ 32)
    (htable : HasTable s.mem dir (GET_PD_IDX v))
    (hentry : s.frameOf (entryOf dir (pageOf v)) = some frame)
    (hunused : ∀ a, s.InUse a → pageOf (s.location a) ≠ pageOf v) :
    Kept P { s with
      mem := setTableEntry s.mem dir v 0
      pageFrameAllocator := if frame = 0 then s.pageFrameAllocator
        else s.pageFrameAllocator.free frame } := by
  have harrays := h.shared.setTableEntry_arrays hdir hv htable 0
  have hframe := frameOf_setTableEntry h.toPlaced hdir hv htable 0
  have hplaced := h.toPlaced.of_arrays harrays
  have hexclusive := h.exclusive.release hentry
  -- the allocator after the step
  obtain ⟨frames, hframes⟩ : ∃ frames, frames =
    if frame = 0 then s.pageFrameAllocator else s.pageFrameAllocator.free frame := ⟨_, rfl⟩
  have hafter := h.frames_forget hentry hframes
  rw [← hframes]
  refine ⟨⟨hplaced.shared, hplaced.current, hplaced.area, hplaced.reserved,
    hplaced.pages, hplaced.absent⟩, hafter.1, hafter.2.2.1, ?_, ?_, ?_, ?_⟩
  · change Exclusive (frameOf { s with mem := setTableEntry s.mem dir v 0 }) frames.freeAddresses
    rw [hframe]
    exact hexclusive.mono (fun _ _ he => he) hafter.2.2.2
  · intro e hP frame' he
    change frameOf { s with mem := setTableEntry s.mem dir v 0 } e = some frame' at he
    rw [hframe] at he
    obtain ⟨j, hlt, heq⟩ := h.allocated e hP frame' (update_none_eq_some he).2
    exact ⟨j, by rw [hafter.2.1]; exact hlt, heq⟩
  · intro e hlate he
    change frameOf { s with mem := setTableEntry s.mem dir v 0 } e = some 0 at he
    rw [hframe] at he
    exact h.positive e hlate (update_none_eq_some he).2
  · change ∀ a, _ → (frameOf { s with mem := setTableEntry s.mem dir v 0 } _).isSome
    rw [hframe]
    apply backed_of_arrays harrays
    intro a huse
    rw [update_of_ne]
    · exact h.backed a huse
    · intro heq
      apply hunused a huse
      unfold entryOf at heq
      split at heq
      · cases heq
      · exact Entry.kernel.inj heq

theorem Kept.of_keeps (h : Kept P s) (hkeep : s.Keeps m') :
    Kept P { s with mem := m' } ∧ frameOf { s with mem := m' } = s.frameOf := by
  have hframe : frameOf { s with mem := m' } = s.frameOf := by
    unfold frameOf
    rw [h.shared.lookup_of_keeps hkeep]
  refine ⟨⟨h.toPlaced.of_arrays hkeep.arrays, h.frames, h.zero, ?_, ?_, ?_, ?_⟩, hframe⟩
  · rw [hframe]
    exact h.exclusive
  · rw [hframe]
    exact h.allocated
  · rw [hframe]
    exact h.positive
  · rw [hframe]
    apply backed_of_arrays hkeep.arrays
    exact h.backed

/-- The three facts about a page of the paging area that has been taken but is
not in use yet. -/
structure Taken (s : State) (k : Nat) : Prop where
  late : bootPages ≤ k
  isSet : s.pagingAreaManager.bitmap.isSet k = true
  free : s.Free (areaPage k)
  backed : (s.frameOf (.kernel (pageOf (areaPage k)))).isSome

section

variable {idx : Nat} (h : Kept P s) (hdir : dir ∈ s.all) (hidx : idx < kernelIndex)
  (htaken : s.Taken k)

include h hdir hidx htaken

theorem Kept.frameOf_newTable (physAddress : Nat) :
    frameOf { s with mem := PageDirectory.createPageTable s.mem dir idx ⟨areaPage k,
      physAddress⟩ } =
      fun e => if e.InTable dir idx then none else s.frameOf e := by
  have hlt : (NewTable.mk (areaPage k) physAddress).virtAddress < 2 ^ 32 :=
    areaPage_lt h.toPlaced (lt_of_isSet htaken.isSet)
  funext e
  unfold frameOf
  rw [h.shared.lookup_createPageTable hdir hidx hlt htaken.free]
  exact apply_ite (Option.map Mapping.frame) _ _ _

theorem Kept.newTable (physAddress : Nat) :
    Kept P { s with mem := PageDirectory.createPageTable s.mem dir idx ⟨areaPage k, physAddress⟩ } ∧
      frameOf { s with mem := PageDirectory.createPageTable s.mem dir idx ⟨areaPage k,
        physAddress⟩ } =
        fun e => if e.InTable dir idx then none else s.frameOf e := by
  have hidx' := lt_of_lt_kernelIndex hidx
  have hlt : (NewTable.mk (areaPage k) physAddress).virtAddress < 2 ^ 32 :=
    areaPage_lt h.toPlaced (lt_of_isSet htaken.isSet)
  have hfree : s.Free (NewTable.mk (areaPage k) physAddress).virtAddress := htaken.free
  have hframe := h.frameOf_newTable hdir hidx htaken physAddress
  have hsub : ∀ e frame, (if e.InTable dir idx then none else s.frameOf e) = some frame →
      s.frameOf e = some frame := by
    intro e frame he
    split at he
    · cases he
    · exact he
  have hkernel : ∀ page, (if (Entry.kernel page).InTable dir idx then none
      else s.frameOf (.kernel page)) = s.frameOf (.kernel page) := fun page => if_neg id
  have hpages := fun {a : Area} => h.shared.createPageTable_pages hdir hidx hlt hfree rfl (a := a)
  have haddress : tableAddress (PageDirectory.createPageTable s.mem dir idx
      ⟨areaPage k, physAddress⟩) dir idx = areaPage k :=
    (tableAddress_createPageTable (h.shared.separated hdir).arrays (h.shared.unused hdir hfree) hlt
      hidx' hidx').trans (if_pos rfl)
  refine ⟨⟨⟨h.shared.after_createPageTable hdir hidx hlt hfree, h.current, h.area,
    h.reserved, ?_, ?_⟩, h.frames, h.zero, ?_, ?_, ?_, ?_⟩, hframe⟩
  · intro a huse
    rcases hpages huse with ⟨huse', hloc⟩ | ⟨rfl, _⟩
    · obtain ⟨j, hj, hset⟩ := h.pages a huse'
      exact ⟨j, hloc.trans hj, hset⟩
    · exact ⟨k, haddress, htaken.isSet⟩
  · intro d hd i hi htable
    have hne : d ≠ dir ∨ i ≠ idx := by
      by_contra hsame
      rw [not_or, not_not, not_not] at hsame
      obtain ⟨rfl, rfl⟩ := hsame
      exact htable ((hasTable_createPageTable (h.shared.separated hdir).arrays
        (h.shared.unused hdir hfree) hidx' hidx').mpr (Or.inl rfl))
    obtain ⟨hentry, haddr⟩ :=
      h.shared.createPageTable_arrays hdir hidx' hlt hfree hd (lt_of_lt_kernelIndex hi) hne
    unfold HasTable at htable
    rw [hentry] at htable
    exact haddr.trans (h.absent d hd i hi htable)
  · rw [hframe]
    exact h.exclusive.mono hsub (subset_refl _)
  · rw [hframe]
    exact fun e hP frame he => h.allocated e hP frame (hsub e frame he)
  · rw [hframe]
    exact fun e hlate he => h.positive e hlate (hsub e 0 he)
  · intro a huse
    rw [hframe]
    rcases hpages huse with ⟨huse', hloc⟩ | ⟨rfl, _⟩
    · have hsame : pageOf (location _ a) = pageOf (s.location a) := congrArg pageOf hloc
      rw [hsame]
      exact h.backed a huse'
    · simp only [hkernel, location, haddress]
      exact htaken.backed

end

theorem Kept.process (h : Kept P s) {k' : Nat} (htaken : s.Taken k) (htaken' : s.Taken k')
    (hne : k ≠ k')
    (hcall : process s.mem s.base s.current (areaPage k) (areaPage k') = some (dir, m')) :
    Kept P { s with mem := m', processes := dir :: s.processes } := by
  have hapart := apart_areaPage hne
  obtain ⟨⟨hpd, hvta⟩, _, _, htables⟩ := process_spec hcall (htaken.free.fresh htaken'.free hapart)
  have hpages := fun {a : Area} =>
    process_pages htaken.free htaken'.free hapart hcall rfl (a := a)
  have hkeep := process_keeps htaken.free htaken'.free hapart hcall
  have hframe : frameOf { s with mem := m', processes := dir :: s.processes } = s.frameOf := by
    unfold frameOf
    rw [h.shared.lookup_process htaken.free htaken'.free hapart hcall]
  refine ⟨⟨h.shared.after_process htaken.free htaken'.free hapart hcall, ?_, h.area, h.reserved,
    ?_, ?_⟩, h.frames, h.zero, ?_, ?_, ?_, ?_⟩
  · have hcurrent := h.current
    simp only [System.all, List.mem_cons] at hcurrent ⊢
    tauto
  · intro a huse
    rcases hpages huse with ⟨huse', hloc⟩ | ⟨rfl | rfl, _⟩
    · obtain ⟨j, hj, hset⟩ := h.pages a huse'
      exact ⟨j, hloc.trans hj, hset⟩
    · exact ⟨k, hpd, htaken.isSet⟩
    · exact ⟨k', hvta, htaken'.isSet⟩
  · intro d hd idx hidx htable
    have hidx' := lt_of_lt_kernelIndex hidx
    rcases mem_all_create hd with rfl | hd
    · rw [htables idx hidx', if_neg (by omega)]
    · obtain ⟨hentry, haddress⟩ := hkeep.arrays d hd idx hidx'
      unfold HasTable at htable
      rw [hentry] at htable
      exact haddress.trans (h.absent d hd idx hidx htable)
  · rw [hframe]
    exact h.exclusive
  · rw [hframe]
    exact h.allocated
  · rw [hframe]
    exact h.positive
  · intro a huse
    rw [hframe]
    rcases hpages huse with ⟨huse', hloc⟩ | ⟨rfl | rfl, _⟩
    · have hsame : pageOf (location _ a) = pageOf (s.location a) := congrArg pageOf hloc
      rw [hsame]
      exact h.backed a huse'
    · simp only [location, hpd]
      exact htaken.backed
    · simp only [location, hvta]
      exact htaken'.backed

end Effects

end State

end HuyaOS.Management
