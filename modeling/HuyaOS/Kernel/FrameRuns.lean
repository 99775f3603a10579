import HuyaOS.Kernel.Calls
import HuyaOS.Paging.BootMap

/-!
Runs of `Management`. After booting every entry has a frame of its own, and the
calls keep it so, with one exception: `freePageTable` gives the frame of a page
back but leaves the page mapped.
-/

namespace HuyaOS.Management

open Lib Paging PageDirectory State PageFrameAllocator

section Boot

variable {m m₀ : Mem} {R total : Nat}

theorem region_area : Region PagingAreaManager.new VIRT_PAGE_MEM_START where
  valid := by
    refine ⟨show 0 < PAGESIZE by decide, by decide, by decide, ?_⟩
    simp only [PagingAreaManager.new, Bitmap.blocks_setRange]
    exact (BitmapMemoryManager.init_valid (by decide) (by decide) (by decide)).blocks_le
  type_ne := by decide
  start_eq := rfl
  blockSize_eq := rfl

theorem blocks_area : PagingAreaManager.new.bitmap.blocks = 63936 := by
  simp only [PagingAreaManager.new, Bitmap.blocks_setRange]
  rfl

theorem isSet_area (k : Nat) : PagingAreaManager.new.bitmap.isSet k = decide (k < bootPages) := by
  simp only [PagingAreaManager.new, Bitmap.isSet_setRange, BitmapMemoryManager.init,
    Bitmap.isSet_new,
    Bool.false_or, Nat.zero_le, decide_true, Bool.true_and, Nat.zero_add, bootPages]
  by_cases hk : k < 258
  · have hblocks :
        k < (Bitmap.new (sub32 VIRT_PAGE_MEM_END VIRT_PAGE_MEM_START / PAGESIZE)).blocks :=
      lt_of_lt_of_le hk (by decide)
    rw [decide_eq_true hblocks, Bool.and_true]
    rfl
  · rw [decide_eq_false hk]
    exact (decide_eq_false hk).symm

theorem region_frames (htotal : total < 2 ^ 32) : Region (PageFrameAllocator.init R 0 total) 0 :=
  ⟨init_valid htotal, by simp [init, BitmapMemoryManager.init], rfl, rfl⟩

theorem le_of_free (haligned : R % 0x400000 = 0) (htotal : total < 2 ^ 32) {k : Nat}
    (hfree : k * PAGESIZE ∈ (PageFrameAllocator.init R 0 total).freeAddresses) :
    R / PAGESIZE + 1282 ≤ k := by
  have hregion := region_frames (R := R) htotal
  have haddress : (init R 0 total).address k = k * PAGESIZE := by
    rw [hregion.address_eq, Nat.zero_add]
  rw [← haddress, BitmapMemoryManager.mem_freeAddresses hregion.valid, Bitmap.mem_clear,
    isSet_init, reservedFrames_eq haligned] at hfree
  by_contra hlow
  obtain ⟨hlt, hclear⟩ := hfree
  rw [decide_eq_true (by omega), decide_eq_true hlt] at hclear
  cases hclear

section

variable (hboot : bootstrap m R = some m₀)

include hboot

theorem frameOf_boot (haligned : R % PAGESIZE = 0) {e : Entry} {frame : Nat}
    (he : (boot m₀ R total).frameOf e = some frame) :
    ∃ j < kernelEntries, e = .kernel (kernelPage + j) ∧
      ((j < R / PAGESIZE + 1024 ∧ frame = j * PAGESIZE) ∨
        ∃ i < 258, j = areaEntry + i ∧ frame = (R / PAGESIZE + 1024 + i) * PAGESIZE) := by
  obtain ⟨mapping, hlookup, rfl⟩ := Option.map_eq_some_iff.mp he
  cases e with
  | user dir page =>
    simp only [System.lookup] at hlookup
    split at hlookup
    · rename_i hin
      rw [List.mem_singleton.mp hin.1] at hlookup
      have hnone := (bootstrap_spec hboot).view_user hin.2
      exact absurd (hlookup.symm.trans hnone) (by simp)
    · cases hlookup
  | kernel page =>
    simp only [System.lookup] at hlookup
    split at hlookup
    · rename_i hkernel
      have hpage : page < 2 ^ 20 := by
        by_contra hle
        rw [view_of_le _ _ (by omega)] at hlookup
        cases hlookup
      obtain ⟨j, rfl⟩ := Nat.exists_eq_add_of_le hkernel
      have hj : j < kernelEntries := by
        rw [kernelPage_eq] at hpage
        rw [kernelEntries_eq]
        omega
      exact ⟨j, hj, rfl, view_boot hboot haligned hj hlookup⟩
    · cases hlookup

theorem frameOf_late (haligned : R % PAGESIZE = 0) {e : Entry} (hlate : LateEntry e) :
    (boot m₀ R total).frameOf e = none := by
  by_contra hsome
  obtain ⟨frame, he⟩ := Option.ne_none_iff_exists'.mp hsome
  obtain ⟨j, _, rfl, hj⟩ := frameOf_boot hboot haligned he
  have hcount := (bootstrap_filled hboot).1
  simp only [LateEntry, pageOf_areaPage, bootPages, kernelPage_eq] at hlate
  simp only [PAGESIZE, areaEntry_eq] at hj hcount
  rcases hj with ⟨hlt, _⟩ | ⟨i, hi, heq, _⟩
  · omega
  · omega

theorem boot_placed : Placed (boot m₀ R total) where
  shared := shared_boot hboot
  current := List.mem_cons_self
  area := region_area
  reserved k hk := by
    rw [show (boot m₀ R total).pagingAreaManager = PagingAreaManager.new from rfl, isSet_area,
      decide_eq_true hk]
  pages a huse := by
    obtain ⟨hloc, hslot⟩ := boot_location hboot huse
    refine ⟨bootSlot a, hloc, ?_⟩
    rw [show (boot m₀ R total).pagingAreaManager = PagingAreaManager.new from rfl, isSet_area]
    exact decide_eq_true hslot
  absent dir hdir idx hidx _ := by
    rw [List.mem_singleton.mp hdir]
    refine ((bootstrap_spec hboot).tableAddress_eq idx (lt_of_lt_kernelIndex hidx)).trans ?_
    rw [if_neg (by omega)]

/-- The frames of the boot pages come before those of the paging area, and these
before the free ones. -/
theorem boot_exclusive (haligned : R % 0x400000 = 0) (haligned' : R % PAGESIZE = 0)
    (htotal : total < 2 ^ 32) :
    Exclusive (boot m₀ R total).frameOf (boot m₀ R total).pageFrameAllocator.freeAddresses := by
  constructor
  · intro e frame he hfree
    obtain ⟨j, _, _, ⟨hj, rfl⟩ | ⟨i, hi, _, rfl⟩⟩ := frameOf_boot hboot haligned' he
    · have hlow := le_of_free haligned htotal hfree
      omega
    · have hlow := le_of_free haligned htotal hfree
      omega
  · intro e e' frame he he'
    obtain ⟨j, _, rfl, hj⟩ := frameOf_boot hboot haligned' he
    obtain ⟨j', _, rfl, hj'⟩ := frameOf_boot hboot haligned' he'
    simp only [PAGESIZE, areaEntry_eq] at hj hj'
    have hsame : j = j' := by
      rcases hj with ⟨hlt, heq⟩ | ⟨i, hi, heq, hframe⟩
      · rcases hj' with ⟨hlt', heq'⟩ | ⟨i', hi', heq', hframe'⟩
        · omega
        · omega
      · rcases hj' with ⟨hlt', heq'⟩ | ⟨i', hi', heq', hframe'⟩
        · omega
        · omega
    rw [hsame]

/-- The invariant holds after booting. All entries refer to frames of the
allocator if the memory reaches up to the frames of the base directory. -/
theorem boot_kept {P : Entry → Prop} (haligned : R % 0x400000 = 0) (htotal : total < 2 ^ 32)
    (hP : ∀ e, P e → LateEntry e ∨ PageFrameAllocator.reservedFrames R ≤ total / PAGESIZE) :
    Kept P (boot m₀ R total) := by
  have haligned' : R % PAGESIZE = 0 := by
    simp only [PAGESIZE]
    omega
  refine ⟨boot_placed hboot, region_frames htotal, ?_,
    boot_exclusive hboot haligned haligned' htotal, ?_, ?_, ?_⟩
  · intro hzero
    have hlow := le_of_free haligned htotal (by rwa [Nat.zero_mul])
    exact absurd hlow (by simp)
  · intro e he frame hframe
    rcases hP e he with hlate | hroom
    · rw [frameOf_late hboot haligned' hlate] at hframe
      cases hframe
    · rw [reservedFrames_eq haligned] at hroom
      simp only [boot, blocks_init htotal]
      obtain ⟨j, _, _, ⟨hj, rfl⟩ | ⟨i, hi, _, rfl⟩⟩ := frameOf_boot hboot haligned' hframe
      · exact ⟨j, by omega, rfl⟩
      · exact ⟨R / PAGESIZE + 1024 + i, by omega, rfl⟩
  · intro e hlate hzero
    rw [frameOf_late hboot haligned' hlate] at hzero
    cases hzero
  · intro a huse
    obtain ⟨hloc, hslot⟩ := boot_location hboot huse
    have hpage : pageOf ((boot m₀ R total).location a) = kernelPage + (areaEntry + bootSlot a) := by
      rw [show (boot m₀ R total).location a = areaPage (bootSlot a) from hloc,
        pageOf_areaPage, kernelPage_eq, areaEntry_eq]
      omega
    have hkernel : kernelPage ≤ kernelPage + (areaEntry + bootSlot a) := Nat.le_add_right _ _
    unfold frameOf
    rw [hpage, Option.isSome_map, System.lookup, if_pos hkernel]
    exact view_boot_area hboot hslot

end

end Boot

inductive Op
  | map (virtAddress flags : Nat)
  | unmap (virtAddress : Nat)
  | createPageTable (dir : PageDirectory) (idx : Nat)
  | allocPageTable
  | freePageTable (virtTableAddress : Nat)
  | createAddressSpace
  | switchAddressSpace (dir : PageDirectory)

/-- A call that returns. -/
inductive Step : State → Op → State → Prop
  | map {s s' : State} {virtAddress flags : Nat} (hvirt : virtAddress < 2 ^ 32)
      (hflags : flags < 2 ^ 16) (hcall : s.map virtAddress flags = .ok s') :
      Step s (.map virtAddress flags) s'
  | unmap {s : State} {virtAddress : Nat} (hvirt : virtAddress < 2 ^ 32) :
      Step s (.unmap virtAddress) (s.unmap virtAddress).2
  | createPageTable {s s' : State} {dir : PageDirectory} {idx : Nat} (hdir : dir ∈ s.all)
      (hidx : idx < 1024) (hcall : s.createPageTable dir idx = .ok s') :
      Step s (.createPageTable dir idx) s'
  | allocPageTable {s s' : State} {virtAddress : Nat}
      (hcall : s.allocPageTable = .ok (virtAddress, s')) : Step s .allocPageTable s'
  | freePageTable {s : State} {virtTableAddress : Nat} (hvirt : virtTableAddress < 2 ^ 32) :
      Step s (.freePageTable virtTableAddress) (s.freePageTable virtTableAddress)
  | createAddressSpace {s s' : State} {dir : PageDirectory}
      (hcall : s.createAddressSpace = .ok (dir, s')) : Step s .createAddressSpace s'
  | switchAddressSpace {s : State} {dir : PageDirectory} (hdir : dir ∈ s.all) :
      Step s (.switchAddressSpace dir) (s.switchAddressSpace dir)

/-- The flags of a page fit below its frame, `unmap` is not used on a page that
paging itself uses, tables are created for user space, and page tables are
not freed. -/
def Sound (s : State) : Op → Prop
  | .map _ flags => flags < 2 ^ 12
  | .unmap virtAddress => ∀ a, s.InUse a → pageOf (s.location a) ≠ pageOf virtAddress
  | .createPageTable _ idx => idx < kernelIndex
  | .allocPageTable => True
  | .freePageTable _ => False
  | .createAddressSpace => True
  | .switchAddressSpace _ => True

def SoundStep (s : State) (op : Op) (s' : State) : Prop := Sound s op ∧ Step s op s'

section Runs

variable {P : Entry → Prop} {s s' : State} {m m₀ : Mem} {R total k : Nat} {ops : List Op}

theorem kept_step {op : Op} (h : Kept P s) (hstep : SoundStep s op s') : Kept P s' := by
  obtain ⟨hsound, hstep⟩ := hstep
  cases hstep with
  | map hvirt _ hcall => exact map_spec h hvirt hsound hcall
  | unmap hvirt => exact unmap_spec h hvirt hsound
  | createPageTable hdir _ hcall =>
    obtain ⟨_, _, _, _, hkept, _⟩ := createPageTable_spec h hdir hsound hcall
    exact hkept
  | allocPageTable hcall =>
    obtain ⟨_, _, _, _, _, _, _, hkept, _⟩ := allocPageTable_spec h hcall
    exact hkept
  | freePageTable _ => cases hsound
  | createAddressSpace hcall => exact (createAddressSpace_spec h hcall).1
  | switchAddressSpace hdir => exact switchAddressSpace_spec h hdir

theorem run_kept (hboot : bootstrap m R = some m₀) (haligned : R % 0x400000 = 0)
    (htotal : total < 2 ^ 32)
    (hP : ∀ e, P e → LateEntry e ∨ PageFrameAllocator.reservedFrames R ≤ total / PAGESIZE)
    (hrun : Run SoundStep (boot m₀ R total) ops s) : Kept P s :=
  hrun.invariant (fun _ _ _ h hstep => kept_step h hstep) (boot_kept hboot haligned htotal hP)

/-- The same entry is the same word, whichever directory it is read through. -/
theorem entryAddress_eq (hs : Shared s.toSystem) {dir dir' : PageDirectory} {page page' : Nat}
    (hdir : dir ∈ s.all) (hdir' : dir' ∈ s.all) (hpage : page < 2 ^ 20)
    (heq : entryOf dir page = entryOf dir' page') :
    entryAddress s.mem dir page = entryAddress s.mem dir' page' := by
  obtain rfl : page = page' := by
    by_contra hne
    exact entryOf_ne hne heq
  by_cases huser : page < kernelPage
  · rw [entryOf_user huser, entryOf_user huser] at heq
    rw [(Entry.user.inj heq).1]
  · have hidx : kernelIndex ≤ page / 1024 := by
      rw [kernelPage_eq] at huser
      rw [kernelIndex_eq]
      omega
    unfold entryAddress
    rw [(hs.agree dir hdir _ hidx (by omega)).2, (hs.agree dir' hdir' _ hidx (by omega)).2]

theorem State.Kept.frameOwnership (h : Kept P s) : s.FrameOwnership := by
  have hframe : ∀ dir ∈ s.all, ∀ page mapping, view s.mem dir page = some mapping →
      s.frameOf (entryOf dir page) = some mapping.frame := by
    intro dir hdir page mapping hview
    unfold frameOf
    rw [← h.shared.view_eq_lookup hdir, hview]
    rfl
  constructor
  · intro dir hdir page mapping hview
    exact h.exclusive.not_free _ _ (hframe dir hdir page mapping hview)
  · intro dir hdir dir' hdir' page page' mapping mapping' hview hview' hsame
    have he := hframe dir hdir page mapping hview
    have he' := hframe dir' hdir' page' mapping' hview'
    rw [← hsame] at he'
    apply entryAddress_eq h.shared hdir hdir' _ (h.exclusive.unique _ _ _ he he')
    by_contra hle
    rw [view_of_le _ _ (by omega)] at hview
    cases hview

theorem frameOf_of_mapped (h : Placed s) {v : Nat} (hv : v < 2 ^ 32) (hmapped : s.Mapped v) :
    ∃ mapping, view s.mem s.current (pageOf v) = some mapping ∧
      s.frameOf (entryOf s.current (pageOf v)) = some mapping.frame := by
  have hview : view s.mem s.current (pageOf v) = some
      ⟨tableEntry s.mem s.current v &&& 0xFFFFF000, tableEntry s.mem s.current v &&& 0xFFF⟩ := by
    rw [view_pageOf hv, if_pos hmapped.1, decode_of_present hmapped.2]
  refine ⟨_, hview, ?_⟩
  unfold frameOf
  rw [← h.shared.view_eq_lookup h.current, hview]
  rfl

/-- `freePageTable` frees the frame of a page and leaves the page mapped to it. -/
theorem State.Kept.not_frameOwnership (h : Kept LateEntry s) (hlate : bootPages ≤ k)
    (hk : k < s.pagingAreaManager.bitmap.blocks) (hmapped : s.Mapped (areaPage k)) :
    ¬(s.freePageTable (areaPage k)).FrameOwnership := by
  intro howned
  have hlt := areaPage_lt h.toPlaced hk
  obtain ⟨mapping, hview, hframe⟩ := frameOf_of_mapped h.toPlaced hlt hmapped
  have hphys : getPhysicalAddress s.mem s.current (areaPage k) = mapping.frame := by
    rw [getPhysicalAddress_eq hlt, PageMap.frameAt, hview]
    rfl
  have hentry : LateEntry (entryOf s.current (pageOf (areaPage k))) := by
    rw [entryOf_kernel (kernelPage_le_areaPage k)]
    simp only [LateEntry, pageOf_areaPage]
    omega
  obtain ⟨j, hj, hmapping⟩ := h.allocated _ hentry _ hframe
  have haddress : s.pageFrameAllocator.address j = mapping.frame := by
    rw [h.frames.address_eq, Nat.zero_add, hmapping]
  apply howned.not_free s.current h.current _ mapping hview
  simp only [freePageTable, hphys]
  rw [← haddress, BitmapMemoryManager.free_address h.frames.valid hj,
    BitmapMemoryManager.freeAddresses_release hj]
  exact Set.mem_insert _ _

/-- As long as no page table is freed, no free frame is referenced and no frame
is referenced twice; and freeing a page that was taken for a table breaks this
whenever the page is mapped. -/
theorem frameOwnership_of_sound_run (hboot : bootstrap m R = some m₀) (haligned : R % 0x400000 = 0)
    (htotal : total < 2 ^ 32) (hrun : Run SoundStep (boot m₀ R total) ops s) :
    s.FrameOwnership ∧ ∀ k, bootPages ≤ k → k < s.pagingAreaManager.bitmap.blocks →
      s.Mapped (areaPage k) → ¬(s.freePageTable (areaPage k)).FrameOwnership := by
  have hkept := run_kept hboot haligned htotal (fun _ => .inl) hrun
  exact ⟨hkept.frameOwnership, fun k hlate hk hmapped => hkept.not_frameOwnership hlate hk hmapped⟩

theorem boot_clear (htotal : total < 2 ^ 32) {j : Nat}
    (hj : PageFrameAllocator.reservedFrames R ≤ j) (hj' : j < total / PAGESIZE) :
    j ∈ (boot m₀ R total).pageFrameAllocator.bitmap.clear := by
  rw [Bitmap.mem_clear]
  simp only [boot, isSet_init, blocks_init htotal]
  exact ⟨hj', by rw [decide_eq_false (by omega), Bool.false_and]⟩

theorem area_clear (m₀ : Mem) (R total : Nat) {k : Nat} (hk : bootPages ≤ k) (hk' : k < 63936) :
    k ∈ (boot m₀ R total).pagingAreaManager.bitmap.clear := by
  rw [Bitmap.mem_clear]
  simp only [boot, blocks_area, isSet_area]
  exact ⟨hk', decide_eq_false (by omega)⟩

theorem boot_allocPageTable {m₀ : Mem} (hboot : bootstrap (fun _ => 0) 0x400000 = some m₀) :
    ∃ v s, (boot m₀ 0x400000 0x1000000).allocPageTable = .ok (v, s) := by
  apply allocPageTable_returns (boot_kept hboot (by decide) (by decide) (fun _ => .inl))
    (area_clear m₀ _ _ (Nat.le_refl bootPages) (by decide))
  exact boot_clear (by decide) (j := 2306) (by decide) (by decide)

theorem frameOwnership_of_sound_run_one_table :
    ∃ m₀ s, bootstrap (fun _ => 0) 0x400000 = some m₀ ∧
      Run SoundStep (boot m₀ 0x400000 0x1000000) [.allocPageTable] s ∧ s.FrameOwnership := by
  obtain ⟨m₀, hboot⟩ := bootstrap_returns (fun _ => 0) 0x400000 (by decide)
  obtain ⟨v, s, hcall⟩ := boot_allocPageTable hboot
  have hrun : Run SoundStep (boot m₀ 0x400000 0x1000000) [.allocPageTable] s :=
    .next ⟨trivial, .allocPageTable hcall⟩ (.done s)
  exact ⟨m₀, s, hboot, hrun, (frameOwnership_of_sound_run hboot (by decide) (by decide) hrun).1⟩

/-- A page table is allocated and freed again. Its frame is free now, and still
mapped. -/
theorem frameOwnership_fails_after_freePageTable :
    ∃ m₀ v s s', bootstrap (fun _ => 0) 0x400000 = some m₀ ∧
      (boot m₀ 0x400000 0x1000000).allocPageTable = .ok (v, s) ∧
      Run Step (boot m₀ 0x400000 0x1000000) [.allocPageTable, .freePageTable v] s' ∧
      ¬s'.FrameOwnership := by
  obtain ⟨m₀, hboot⟩ := bootstrap_returns (fun _ => 0) 0x400000 (by decide)
  obtain ⟨v, s, hcall⟩ := boot_allocPageTable hboot
  obtain ⟨k, _, _, _, rfl, _, _, hkept, _, htaken, _⟩ :=
    allocPageTable_spec (boot_kept hboot (by decide) (by decide) (fun _ => .inl)) hcall
  have hk := Bitmap.lt_of_isSet htaken.isSet
  have hlt := areaPage_lt hkept.toPlaced hk
  refine ⟨m₀, areaPage k, s, s.freePageTable (areaPage k), hboot, hcall,
    .next (.allocPageTable hcall) (.next (.freePageTable hlt) (.done _)), ?_⟩
  exact hkept.not_frameOwnership htaken.late hk (htaken.mapped hkept.toPlaced)

end Runs

end HuyaOS.Management
