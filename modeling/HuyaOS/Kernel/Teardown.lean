import HuyaOS.Kernel.HeapPages

/-!
What removing an address space gives back. The destructor of the directory
empties the entries of the user pages through the directory itself, which does
not know about frames, and then frees 768 user tables, whether they exist or
not, and the two arrays. For a table that does not exist it frees the page at
address zero. After the destructor the kernel heap gives up the pages inside the
memory of the deleted objects.
-/

namespace HuyaOS.Management

open Lib Paging PageDirectory List Nat

namespace State

/-- The frames that belong to an address space: those of its user pages, of its
user tables and of its two arrays. -/
def ownFrames (s : State) (dir : PageDirectory) : Set Nat :=
  {frame | (∃ page < kernelPage, ∃ mapping, view s.mem dir page = some mapping ∧
      mapping.frame = frame) ∨
    (∃ idx < kernelIndex, HasTable s.mem dir idx ∧
      getPhysicalAddress s.mem s.current (tableAddress s.mem dir idx) = frame) ∨
    getPhysicalAddress s.mem s.current dir.virtTableAddresses = frame ∨
    getPhysicalAddress s.mem s.current dir.pageDirectory = frame}

/-- The frames of the address space become free, each of them once, and no
others. -/
structure ExactTeardown (s s' : State) (dir : PageDirectory) : Prop where
  frames : s'.pageFrameAllocator.freeAddresses = s.pageFrameAllocator.freeAddresses ∪
    s.ownFrames dir
  memory : s'.pageFrameAllocator.freeMemory =
    add32 s.pageFrameAllocator.freeMemory (PAGESIZE * (s.ownFrames dir).ncard)

/-- The state when the body of the destructor has run. -/
def destroyed (s : State) (dir : PageDirectory) : State :=
  destroy { s with processes := s.processes.erase dir } dir

def ownPages : Nat := kernelIndex + 2

def ownPage (m : Mem) (dir : PageDirectory) (i : Nat) : Nat :=
  if i < kernelIndex then tableAddress m dir i
  else if i = kernelIndex then dir.virtTableAddresses
  else dir.pageDirectory

section Destructor

variable {s : State} {dir : PageDirectory} {n : Nat}

theorem destroy_eq (s : State) (dir : PageDirectory) :
    s.destroy dir = (List.range ownPages).foldl (fun s i => s.freePageTable (ownPage s.mem dir i))
      { s with mem := unmapUserPages s.mem dir } := by
  have htables : ∀ (s : State) i, i ∈ range kernelIndex →
      s.freePageTable (tableAddress s.mem dir i) = s.freePageTable (ownPage s.mem dir i) := by
    intro s i hi
    rw [ownPage, if_pos (mem_range.mp hi)]
  simp only [destroy, ownPages]
  rw [range_succ, range_succ, foldl_append, foldl_append, foldl_cons,
    foldl_nil, foldl_cons, foldl_nil, foldl_ext _ _ _ htables]
  simp only [ownPage, lt_irrefl, if_false, if_true, not_succ_lt_self, succ_ne_self]

theorem foldl_freePageTable (s : State) (dir : PageDirectory) (n : Nat) :
    ∃ area, (List.range n).foldl (fun s i => s.freePageTable (ownPage s.mem dir i)) s =
      { s with
        pagingAreaManager := area
        pageFrameAllocator := (range n).foldl (fun frames i =>
          frames.free (getPhysicalAddress s.mem s.current (ownPage s.mem dir i)))
            s.pageFrameAllocator } := by
  induction n with
  | zero => exact ⟨s.pagingAreaManager, rfl⟩
  | succ n ih =>
    obtain ⟨area, ih⟩ := ih
    refine ⟨area.free (ownPage s.mem dir n), ?_⟩
    rw [range_succ, foldl_append, foldl_append, ih]
    rfl

end Destructor

end State

section Frames

variable {mgr mgr' : BitmapMemoryManager} {frame : Nat → Nat} {n : Nat}

theorem Region.foldl_free (h : Region mgr 0) (hn : n ≠ 0)
    (hframe : ∀ i, ∃ k < mgr.bitmap.blocks, frame i = k * PAGESIZE) :
    Released mgr ((List.range n).foldl (fun mgr i => mgr.free (frame i)) mgr)
      ((List.range n).map frame) := by
  induction n with
  | zero => exact absurd rfl hn
  | succ n ih =>
    obtain ⟨k, hk, heq⟩ := hframe n
    rw [range_succ, foldl_concat, map_append, map_singleton, heq]
    rcases eq_or_ne n 0 with rfl | hn
    · exact h.released_free hk
    · have hbefore := ih hn
      exact hbefore.trans (hbefore.region.released_free (hbefore.blocks_eq ▸ hk))

theorem Region.mem_released (h : Region mgr 0) {frames : List Nat}
    (hreleased : Released mgr mgr' frames)
    (hframe : ∀ frame ∈ frames, ∃ k < mgr.bitmap.blocks, frame = k * PAGESIZE) (ptr : Nat) :
    ptr ∈ mgr'.freeAddresses ↔ ptr ∈ mgr.freeAddresses ∨ ptr ∈ frames := by
  have hclear : ∀ k, k ∈ mgr'.bitmap.clear ↔
      k < mgr.bitmap.blocks ∧ (k ∈ mgr.bitmap.clear ∨ k * PAGESIZE ∈ frames) := by
    intro k
    rw [Bitmap.mem_clear_iff, Bitmap.mem_clear_iff, hreleased.blocks_eq, ← Bool.not_eq_true,
      ← Bool.not_eq_true, hreleased.bits]
    tauto
  constructor
  · rintro ⟨k, hk, rfl⟩
    rw [hreleased.region.address_eq, zero_add, h.mem_freeAddresses_iff]
    exact ((hclear k).mp hk).2
  · rintro (⟨k, hk, rfl⟩ | hmem)
    · rw [h.address_eq, zero_add, hreleased.region.mem_freeAddresses_iff]
      exact (hclear k).mpr ⟨(Bitmap.mem_clear_iff.mp hk).1, .inl hk⟩
    · obtain ⟨k, hk, rfl⟩ := hframe ptr hmem
      exact hreleased.region.mem_freeAddresses_iff.mpr ((hclear k).mpr ⟨hk, .inr hmem⟩)

end Frames

namespace State

section Teardown

variable {s : State} {dir : PageDirectory} {i j a v : Nat}

/-- The first loop of the destructor changes no array and no entry but those of
the user pages of the directory. -/
theorem unmapUserPages_spec (hs : Shared s.toSystem) (hdir : dir ∈ s.all) {n : Nat}
    (hn : n ≤ kernelPage) {m : Mem}
    (hm : m = (List.range n).foldl (fun m page =>
        (PageDirectory.unmap m dir (page * PAGESIZE)).2) s.mem) :
    Shared { s.toSystem with mem := m } ∧
      (∀ d ∈ s.all, ∀ i < 1024, dirEntry m d i = dirEntry s.mem d i ∧
        tableAddress m d i = tableAddress s.mem d i) ∧
      ∀ e, (∀ page, e ≠ .user dir page) →
        System.lookup { s.toSystem with mem := m } e = s.lookup e := by
  induction n generalizing m with
  | zero =>
    subst hm
    exact ⟨hs, fun _ _ _ _ => ⟨rfl, rfl⟩, fun _ _ => rfl⟩
  | succ n ih =>
    obtain ⟨hshared, harrays, hlookup⟩ := ih (by omega) rfl
    rw [range_succ, foldl_concat] at hm
    rcases PageDirectory.unmap_cases ((range n).foldl
      (fun m page => (PageDirectory.unmap m dir (page * PAGESIZE)).2) s.mem) dir (n * PAGESIZE) with
      hsame | ⟨htable, _, hempty⟩
    · rw [hsame] at hm
      subst hm
      exact ⟨hshared, harrays, hlookup⟩
    · rw [hempty] at hm
      subst hm
      have hpage : pageOf (n * PAGESIZE) = n := Nat.mul_div_cancel _ (by decide)
      have hv : n * PAGESIZE < 2 ^ 32 := by
        rw [kernelPage_eq] at hn
        simp only [PAGESIZE]
        omega
      refine ⟨hshared.after_setTableEntry hdir hv htable 0, ?_, ?_⟩
      · intro d hd i hi
        obtain ⟨hentry, haddress⟩ := hshared.setTableEntry_arrays hdir hv htable 0 d hd i hi
        obtain ⟨hentry', haddress'⟩ := harrays d hd i hi
        exact ⟨hentry.trans hentry', haddress.trans haddress'⟩
      · intro e he
        have hupdate := hshared.lookup_setTableEntry hdir hv htable 0
        rw [hpage, entryOf_user (by omega)] at hupdate
        rw [← hlookup e he]
        exact (congrFun hupdate e).trans (Function.update_of_ne (he n) _ _)

theorem unmapUserPages_keeps (hs : Shared s.toSystem) (hdir : dir ∈ s.all) :
    Shared { s.toSystem with mem := unmapUserPages s.mem dir } ∧ (∀ d ∈ s.all, ∀ i < 1024,
        dirEntry (unmapUserPages s.mem dir) d i = dirEntry s.mem d i ∧
          tableAddress (unmapUserPages s.mem dir) d i = tableAddress s.mem d i) ∧
      ∀ e, (∀ page, e ≠ .user dir page) →
        System.lookup { s.toSystem with mem := unmapUserPages s.mem dir } e = s.lookup e :=
  unmapUserPages_spec hs hdir (le_refl kernelPage) (by rfl)

theorem getPhysicalAddress_eq_frameOf (h : Placed s) (ha : a < 2 ^ 32) :
    getPhysicalAddress s.mem s.current a =
      (s.frameOf (entryOf s.current (pageOf a))).getD 0 := by
  rw [getPhysicalAddress_eq ha, PageMap.frameAt, h.shared.view_eq_lookup h.current]
  rfl

theorem getPhysicalAddress_of_lookup (h : Placed s) (ha : a < 2 ^ 32) {m : Mem}
    (hshared : Shared { s.toSystem with mem := m })
    (hlookup : System.lookup { s.toSystem with mem := m } (entryOf s.current (pageOf a)) =
      s.lookup (entryOf s.current (pageOf a))) :
    getPhysicalAddress m s.current a = getPhysicalAddress s.mem s.current a := by
  rw [getPhysicalAddress_eq ha, getPhysicalAddress_eq ha, PageMap.frameAt, PageMap.frameAt,
    h.shared.view_eq_lookup h.current, ← hlookup]
  exact congrArg (fun entry => (Option.map Mapping.frame entry).getD 0)
    (hshared.view_eq_lookup h.current (pageOf a))

/-- The current address space does not notice that the user pages of another one
are emptied. -/
theorem getPhysicalAddress_unmapUserPages (h : Placed s) (hdir : dir ∈ s.all)
    (hne : s.current ≠ dir) (ha : a < 2 ^ 32) :
    getPhysicalAddress (unmapUserPages s.mem dir) s.current a =
      getPhysicalAddress s.mem s.current a := by
  obtain ⟨hshared, _, hlookup⟩ := unmapUserPages_keeps h.shared hdir
  apply getPhysicalAddress_of_lookup h ha hshared
  apply hlookup
  intro page heq
  unfold entryOf at heq
  split at heq
  · exact hne (Entry.user.inj heq).1
  · cases heq

section

variable {m : Mem} {area frames : BitmapMemoryManager} (hcurrent : s.current ∈ s.all)

include hcurrent

theorem ready_erase (hne : s.current ≠ dir) (hshared : Shared { s.toSystem with mem := m })
    (hregion : Region frames 0) (hlt : frames.freeMemory < 2 ^ 32) : Ready { s with
      mem := m
      processes := s.processes.erase dir
      pagingAreaManager := area
      pageFrameAllocator := frames } := by
  refine ⟨hshared.erase dir, ?_, hregion, hlt⟩
  rcases mem_cons.mp hcurrent with hbase | hprocess
  · exact mem_cons.mpr (.inl hbase)
  · exact mem_cons_of_mem _ ((mem_erase_of_ne hne).mpr hprocess)

theorem backing_of_lookup {processes : List PageDirectory} {page : Nat}
    (hs : Shared s.toSystem) (hshared : Shared { s.toSystem with mem := m })
    (hpage : kernelPage ≤ page)
    (hlookup : System.lookup { s.toSystem with mem := m } (.kernel page) =
      s.lookup (.kernel page)) :
    backing { s with
      mem := m
      processes := processes
      pagingAreaManager := area
      pageFrameAllocator := frames } page = s.backing page := by
  have hbefore := hs.view_eq_lookup hcurrent page
  have hafter := Shared.view_eq_lookup hshared (show s.current ∈ s.all from hcurrent) page
  rw [entryOf_kernel hpage] at hbefore hafter
  have hview : view m s.current page = view s.mem s.current page :=
    hafter.trans (hlookup.trans hbefore.symm)
  unfold backing
  dsimp only
  rw [hview]

end

/-- The frame of a page that the destructor frees. -/
def ownFrame (s : State) (dir : PageDirectory) (i : Nat) : Nat :=
  getPhysicalAddress s.mem s.current (ownPage s.mem dir i)

/-- The page that the destructor frees, if it is in use. -/
def ownArea (dir : PageDirectory) (i : Nat) : Area :=
  if i < kernelIndex then .userTable dir i
  else if i = kernelIndex then .addresses dir
  else .directory dir

theorem ownArea_injective (hi : i < ownPages) (hj : j < ownPages) (hne : i ≠ j) :
    ownArea dir i ≠ ownArea dir j := by
  unfold ownPages at hi hj
  unfold ownArea
  grind

theorem ownPage_spec (hdir : dir ∈ s.all) (htable : i < kernelIndex → HasTable s.mem dir i) :
    s.InUse (ownArea dir i) ∧ s.location (ownArea dir i) = ownPage s.mem dir i := by
  unfold ownArea ownPage
  split
  · rename_i hi
    exact ⟨⟨hdir, hi, htable hi⟩, rfl⟩
  · split
    · exact ⟨hdir, rfl⟩
    · exact ⟨hdir, rfl⟩

theorem frameOf_of_view {page : Nat} {mapping : Mapping} (hdir : dir ∈ s.all)
    (hpage : page < kernelPage) (hview : view s.mem dir page = some mapping) :
    s.frameOf (.user dir page) = some mapping.frame := by
  rw [frameOf, System.lookup, if_pos ⟨hdir, hpage⟩, hview]
  rfl

section

variable (h : Kept (fun _ => True) s) (hdir : dir ∈ s.all)

include h hdir

theorem ownFrame_of_inUse (htable : i < kernelIndex → HasTable s.mem dir i) :
    s.frameOf (.kernel (pageOf (ownPage s.mem dir i))) = some (s.ownFrame dir i) ∧
      ∃ k < s.pageFrameAllocator.bitmap.blocks, s.ownFrame dir i = k * PAGESIZE := by
  obtain ⟨huse, hloc⟩ := ownPage_spec hdir htable
  obtain ⟨k, hk, hset⟩ := h.pages _ huse
  have hpage : ownPage s.mem dir i = areaPage k := hloc.symm.trans hk
  have hlt := areaPage_lt h.toPlaced (Bitmap.lt_of_isSet hset)
  have hbacked := h.backed _ huse
  rw [hloc] at hbacked
  obtain ⟨frame, hframe⟩ := Option.isSome_iff_exists.mp hbacked
  have hown : s.ownFrame dir i = frame := by
    unfold ownFrame
    rw [getPhysicalAddress_eq_frameOf h.toPlaced (hpage ▸ hlt),
      entryOf_kernel (hpage ▸ kernelPage_le_areaPage k), hframe]
    rfl
  rw [hown]
  exact ⟨hframe, h.allocated _ trivial frame hframe⟩

/-- For a table that does not exist, the destructor frees the page at address
zero. -/
theorem ownFrame_of_absent (hi : i < kernelIndex) (habsent : ¬HasTable s.mem dir i) :
    s.ownFrame dir i = (s.frameOf (.user s.current 0)).getD 0 := by
  unfold ownFrame ownPage
  rw [if_pos hi, h.absent dir hdir i hi habsent,
    getPhysicalAddress_eq_frameOf h.toPlaced (by decide)]
  rfl

theorem ownFrame_lt (i : Nat) :
    ∃ k < s.pageFrameAllocator.bitmap.blocks, s.ownFrame dir i = k * PAGESIZE := by
  by_cases htable : i < kernelIndex → HasTable s.mem dir i
  · exact (ownFrame_of_inUse h hdir htable).2
  · obtain ⟨hi, habsent⟩ := Classical.not_imp.mp htable
    rw [ownFrame_of_absent h hdir hi habsent]
    cases hzero : s.frameOf (.user s.current 0) with
    | none =>
      -- the directory itself has a frame, so there are frames
      obtain ⟨_, k, hk, _⟩ := ownFrame_of_inUse h hdir (i := kernelIndex) (by omega)
      exact ⟨0, by omega, rfl⟩
    | some frame => exact h.allocated (.user s.current 0) trivial frame hzero

section

variable (hne : s.current ≠ dir)

include hne

theorem destroyed_eq : ∃ area frames, s.destroyed dir = { s with
      mem := unmapUserPages s.mem dir
      processes := s.processes.erase dir
      pagingAreaManager := area
      pageFrameAllocator := frames } ∧
    frames = (List.range ownPages).foldl
      (fun frames i => frames.free (s.ownFrame dir i)) s.pageFrameAllocator := by
  obtain ⟨_, harrays, _⟩ := unmapUserPages_keeps h.shared hdir
  rw [destroyed, destroy_eq]
  obtain ⟨area, heq⟩ := foldl_freePageTable
    { s with mem := unmapUserPages s.mem dir, processes := s.processes.erase dir } dir ownPages
  refine ⟨area, _, heq, ?_⟩
  apply foldl_ext
  intro frames i hi
  have hpage : ownPage (unmapUserPages s.mem dir) dir i = ownPage s.mem dir i := by
    unfold ownPage
    split
    · rename_i hlt
      exact (harrays dir hdir i (lt_of_lt_kernelIndex hlt)).2
    · rfl
  have hlt : ownPage s.mem dir i < 2 ^ 32 := by
    by_cases htable : i < kernelIndex → HasTable s.mem dir i
    · obtain ⟨huse, hloc⟩ := ownPage_spec hdir htable
      obtain ⟨k, hk, hset⟩ := h.pages _ huse
      rw [← hloc, hk]
      exact areaPage_lt h.toPlaced (Bitmap.lt_of_isSet hset)
    · obtain ⟨hi, habsent⟩ := Classical.not_imp.mp htable
      rw [ownPage, if_pos hi, h.absent dir hdir i hi habsent]
      decide
  simp only [hpage, ownFrame, getPhysicalAddress_unmapUserPages h.toPlaced hdir hne hlt]

theorem destroyed_spec : Ready (s.destroyed dir) ∧
    Released s.pageFrameAllocator (s.destroyed dir).pageFrameAllocator
      ((List.range ownPages).map (s.ownFrame dir)) ∧
    ∀ page, kernelPage ≤ page → (s.destroyed dir).backing page = s.backing page := by
  obtain ⟨area, frames, heq, hframes⟩ := destroyed_eq h hdir hne
  obtain ⟨hshared, _, hlookup⟩ := unmapUserPages_keeps h.shared hdir
  have hreleased := h.frames.foldl_free (n := ownPages) (by decide) (ownFrame_lt h hdir)
  rw [← hframes] at hreleased
  rw [heq]
  refine ⟨ready_erase h.current hne hshared hreleased.region ?_, hreleased, fun page hpage => ?_⟩
  · rw [hreleased.memory]
    exact add32_lt ..
  · exact backing_of_lookup h.current h.shared hshared hpage (hlookup _ fun _ => Entry.noConfusion)

/-- Removing an address space frees 770 frames, and those of the pages that the
kernel heap gives up. -/
theorem removeAddressSpace_frees {released : List Nat}
    (hreleased : ∀ v ∈ released, HeapAddress v) :
    ∃ given : List Nat,
      (∀ page, page ∈ given ↔ page ∈ released.map pageOf ∧ s.backing page ≠ 0) ∧
      (∀ frame,
        frame ∈ (s.removeAddressSpace dir released).pageFrameAllocator.freeAddresses ↔
        frame ∈ s.pageFrameAllocator.freeAddresses ∨
          frame ∈ (List.range ownPages).map (s.ownFrame dir) ++ given.map s.backing) ∧
      (s.removeAddressSpace dir released).pageFrameAllocator.freeMemory =
        add32 s.pageFrameAllocator.freeMemory (PAGESIZE * (ownPages + given.length)) := by
  obtain ⟨hready, hown, hbacking⟩ := destroyed_spec h hdir hne
  have hremove : s.removeAddressSpace dir released = (s.destroyed dir).releaseHeap released :=
    if_neg hne
  have hkernel : ∀ page ∈ released.map pageOf, kernelPage ≤ page := by
    intro page hpage
    obtain ⟨v, hv, rfl⟩ := mem_map.mp hpage
    exact (hreleased v hv).kernelPage_le
  have hframe : ∀ page ∈ released.map pageOf, s.backing page ≠ 0 →
      ∃ k < (s.destroyed dir).pageFrameAllocator.bitmap.blocks, s.backing page = k * PAGESIZE := by
    intro page hpage hbacked
    rw [hown.blocks_eq]
    exact h.allocated _ trivial _
      (frameOf_of_backing h.shared h.current (hkernel page hpage) hbacked)
  obtain ⟨given, _, hgiven, hheap⟩ := releaseHeap_spec hready (fun v hv => (hreleased v hv).lt)
    fun v hv hbad => by
      have hpage := mem_map_of_mem (f := pageOf) hv
      rw [hbacking _ (hkernel _ hpage)] at hbad ⊢
      exact hframe _ hpage (not_or.mp hbad).1
  have hmem : ∀ page, page ∈ given ↔ page ∈ released.map pageOf ∧ s.backing page ≠ 0 := by
    intro page
    rw [hgiven]
    refine and_congr_right fun hpage => ?_
    rw [hbacking page (hkernel page hpage)]
    refine ⟨fun hbad => (not_or.mp hbad).1, fun hbacked => ?_⟩
    obtain ⟨k, hk, heq⟩ := hframe page hpage hbacked
    rw [heq] at hbacked ⊢
    apply hready.frames.not_ignored _ hk
    rintro rfl
    exact hbacked (Nat.zero_mul _)
  have hmap : given.map (s.destroyed dir).backing = given.map s.backing :=
    map_congr_left fun page hpage => hbacking page (hkernel page ((hmem page).mp hpage).1)
  have hfreed := hown.trans hheap
  rw [hmap, ← hremove] at hfreed
  refine ⟨given, hmem, h.frames.mem_released hfreed fun frame hframe' => ?_, ?_⟩
  · rcases mem_append.mp hframe' with hown | hheap
    · obtain ⟨i, _, rfl⟩ := mem_map.mp hown
      exact ownFrame_lt h hdir i
    · obtain ⟨page, hpage, rfl⟩ := mem_map.mp hheap
      obtain ⟨hpage, hbacked⟩ := (hmem page).mp hpage
      rw [← hown.blocks_eq]
      exact hframe page hpage hbacked
  · rw [hfreed.memory, length_append, length_map, length_range, length_map]

theorem ownFrame_ne_user {page : Nat} {mapping : Mapping} (hpage : page < kernelPage)
    (hview : view s.mem dir page = some mapping) (i : Nat) : s.ownFrame dir i ≠ mapping.frame := by
  intro heq
  have hentry := frameOf_of_view hdir hpage hview
  by_cases htable : i < kernelIndex → HasTable s.mem dir i
  · have hkernel := (ownFrame_of_inUse h hdir htable).1
    rw [heq] at hkernel
    cases h.exclusive.unique _ _ _ hentry hkernel
  · obtain ⟨hi, habsent⟩ := Classical.not_imp.mp htable
    rw [ownFrame_of_absent h hdir hi habsent] at heq
    cases hzero : s.frameOf (.user s.current 0) with
    | none =>
      rw [hzero] at heq
      rw [← heq] at hentry
      exact h.positive (.user dir page) trivial hentry
    | some frame =>
      rw [hzero] at heq
      rw [← heq] at hentry
      exact hne (Entry.user.inj (h.exclusive.unique _ _ _ hzero hentry)).1

end

theorem ownFrame_injective (htables : ∀ idx < kernelIndex, HasTable s.mem dir idx)
    (hi : i < ownPages) (hj : j < ownPages) (heq : s.ownFrame dir i = s.ownFrame dir j) :
    i = j := by
  by_contra hne
  have hframe := (ownFrame_of_inUse h hdir (htables i)).1
  have hframe' := (ownFrame_of_inUse h hdir (htables j)).1
  rw [← heq] at hframe'
  have hsame := Entry.kernel.inj (h.exclusive.unique _ _ _ hframe hframe')
  obtain ⟨huse, hloc⟩ := ownPage_spec hdir (htables i)
  obtain ⟨huse', hloc'⟩ := ownPage_spec hdir (htables j)
  have hapart := h.shared.apart _ _ huse huse' (ownArea_injective hi hj hne)
  obtain ⟨k, hk, _⟩ := h.pages _ huse
  obtain ⟨k', hk', _⟩ := h.pages _ huse'
  rw [← hloc, ← hloc', hk, hk', pageOf_areaPage, pageOf_areaPage] at hsame
  rw [hk, show k = k' by omega] at hapart
  unfold Apart at hapart
  omega

end

theorem mem_ownFrames {frame : Nat} : frame ∈ s.ownFrames dir ↔
    (∃ page < kernelPage, ∃ mapping, view s.mem dir page = some mapping ∧ mapping.frame = frame) ∨
      ∃ i < ownPages, (i < kernelIndex → HasTable s.mem dir i) ∧ s.ownFrame dir i = frame := by
  refine or_congr_right ⟨?_, ?_⟩
  · rintro (⟨idx, hidx, htable, rfl⟩ | rfl | rfl)
    · refine ⟨idx, by unfold ownPages; omega, fun _ => htable, ?_⟩
      rw [ownFrame, ownPage, if_pos hidx]
    · refine ⟨kernelIndex, by unfold ownPages; omega, by omega, ?_⟩
      rw [ownFrame, ownPage, if_neg (by omega), if_pos rfl]
    · refine ⟨kernelIndex + 1, by unfold ownPages; omega, by omega, ?_⟩
      rw [ownFrame, ownPage, if_neg (by omega), if_neg (by omega)]
  · rintro ⟨i, hi, htable, rfl⟩
    unfold ownFrame ownPage
    split
    · rename_i hidx
      exact .inl ⟨i, hidx, htable hidx, rfl⟩
    · split
      · exact .inr (.inl rfl)
      · exact .inr (.inr rfl)

theorem mem_ownFrames_of_empty (hempty : ∀ page < kernelPage, view s.mem dir page = none)
    {frame : Nat} : frame ∈ s.ownFrames dir ↔
      ∃ i < ownPages, (i < kernelIndex → HasTable s.mem dir i) ∧ s.ownFrame dir i = frame := by
  refine mem_ownFrames.trans (or_iff_right ?_)
  rintro ⟨page, hpage, mapping, hview, _⟩
  rw [hempty page hpage] at hview
  cases hview

theorem ownFrames_eq (hempty : ∀ page < kernelPage, view s.mem dir page = none)
    (htables : ∀ idx < kernelIndex, HasTable s.mem dir idx) :
    s.ownFrames dir = (Finset.range ownPages).image (s.ownFrame dir) := by
  ext frame
  rw [mem_ownFrames_of_empty hempty, Finset.mem_coe, Finset.mem_image]
  constructor
  · rintro ⟨i, hi, _, heq⟩
    exact ⟨i, Finset.mem_range.mpr hi, heq⟩
  · rintro ⟨i, hi, heq⟩
    exact ⟨i, Finset.mem_range.mp hi, htables i, heq⟩

theorem ncard_ownFrames_lt (hempty : ∀ page < kernelPage, view s.mem dir page = none) {idx : Nat}
    (hidx : idx < kernelIndex) (habsent : ¬HasTable s.mem dir idx) :
    (s.ownFrames dir).ncard < ownPages := by
  have hsub : s.ownFrames dir ⊆ ((Finset.range ownPages).erase idx).image (s.ownFrame dir) := by
    intro frame hframe
    obtain ⟨i, hi, htable, rfl⟩ := (mem_ownFrames_of_empty hempty).mp hframe
    rw [Finset.mem_coe, Finset.mem_image]
    refine ⟨i, Finset.mem_erase.mpr ⟨?_, Finset.mem_range.mpr hi⟩, rfl⟩
    rintro rfl
    exact habsent (htable hidx)
  have hmem : idx ∈ Finset.range ownPages := Finset.mem_range.mpr (by unfold ownPages; omega)
  calc (s.ownFrames dir).ncard ≤
    (((Finset.range ownPages).erase idx).image (s.ownFrame dir)).card := by
        rw [← Set.ncard_coe_finset]
        exact Set.ncard_le_ncard hsub (Finset.finite_toSet _)
    _ ≤ ((Finset.range ownPages).erase idx).card := Finset.card_image_le
    _ < (Finset.range ownPages).card := Finset.card_erase_lt_of_mem hmem
    _ = ownPages := Finset.card_range _

section

variable (h : Kept (fun _ => True) s) (hdir : dir ∈ s.all) (hne : s.current ≠ dir)

include h hdir hne

omit hne in
theorem backing_notMem_ownFrames (hv : HeapAddress v) (hbacked : s.backing (pageOf v) ≠ 0) :
    s.backing (pageOf v) ∉ s.ownFrames dir := by
  have hheap := frameOf_of_backing h.shared h.current hv.kernelPage_le hbacked
  rw [mem_ownFrames]
  rintro (⟨page, hpage, mapping, hview, heq⟩ | ⟨i, _, htable, heq⟩)
  · rw [← heq] at hheap
    cases h.exclusive.unique _ _ _ (frameOf_of_view hdir hpage hview) hheap
  · -- the page of a table or an array lies in the paging area
    have hframe := (ownFrame_of_inUse h hdir htable).1
    obtain ⟨huse, hloc⟩ := ownPage_spec hdir htable
    obtain ⟨k, hk, _⟩ := h.pages _ huse
    rw [heq, ← hloc, hk, pageOf_areaPage] at hframe
    have hsame := Entry.kernel.inj (h.exclusive.unique _ _ _ hframe hheap)
    have hlow := hv.pageOf_lt
    omega

omit hne in
theorem ncard_ownFrames (hempty : ∀ page < kernelPage, view s.mem dir page = none)
    (htables : ∀ idx < kernelIndex, HasTable s.mem dir idx) :
    (s.ownFrames dir).ncard = ownPages := by
  rw [ownFrames_eq hempty htables, Set.ncard_coe_finset, Finset.card_image_of_injOn,
    Finset.card_range]
  intro i hi j hj heq
  exact ownFrame_injective h hdir htables (Finset.mem_range.mp hi) (Finset.mem_range.mp hj) heq

theorem Kept.teardown_iff {released : List Nat} (hreleased : ∀ v ∈ released, HeapAddress v) :
    ExactTeardown s (s.removeAddressSpace dir released) dir ↔
      (∀ page < kernelPage, view s.mem dir page = none) ∧
        (∀ idx < kernelIndex, HasTable s.mem dir idx) ∧
        ∀ v ∈ released, s.backing (pageOf v) = 0 := by
  obtain ⟨given, hgiven, hmem, hmemory⟩ := removeAddressSpace_frees h hdir hne hreleased
  -- as long as the heap gives back no frame, only the destructor counts
  have hquiet : (∀ v ∈ released, s.backing (pageOf v) = 0) → given = [] := by
    intro hnone
    refine eq_nil_iff_forall_not_mem.mpr fun page hpage => ?_
    obtain ⟨hpage, hbacked⟩ := (hgiven page).mp hpage
    obtain ⟨v, hv, rfl⟩ := mem_map.mp hpage
    exact hbacked (hnone v hv)
  constructor
  · intro hexact
    rw [hexact.frames] at hmem
    have hnone : ∀ v ∈ released, s.backing (pageOf v) = 0 := by
      intro v hv
      by_contra hbacked
      have hheap := mem_map_of_mem (f := s.backing)
        ((hgiven (pageOf v)).mpr ⟨mem_map_of_mem hv, hbacked⟩)
      rcases (hmem _).mpr (.inr (mem_append_right _ hheap)) with hold | hown
      · exact h.exclusive.not_free _ _ (frameOf_of_backing h.shared h.current
          (hreleased v hv).kernelPage_le hbacked) hold
      · exact backing_notMem_ownFrames h hdir (hreleased v hv) hbacked hown
    rw [hquiet hnone, map_nil, append_nil] at hmem
    have hempty : ∀ page < kernelPage, view s.mem dir page = none := by
      intro page hpage
      cases hview : view s.mem dir page with
      | none => rfl
      | some mapping =>
        exfalso
        rcases (hmem mapping.frame).mp (.inr (.inl ⟨page, hpage, mapping, hview, rfl⟩)) with
          hold | hown
        · exact h.frameOwnership.not_free dir hdir page mapping hview hold
        · obtain ⟨i, _, heq⟩ := mem_map.mp hown
          exact ownFrame_ne_user h hdir hne hpage hview i heq
    refine ⟨hempty, fun idx hidx => ?_, hnone⟩
    by_contra habsent
    have hcard := ncard_ownFrames_lt hempty hidx habsent
    have hcount := hexact.memory
    rw [hmemory, hquiet hnone, length_nil] at hcount
    unfold add32 at hcount
    simp only [PAGESIZE, ownPages, kernelIndex_eq] at hcount hcard
    omega
  · rintro ⟨hempty, htables, hnone⟩
    rw [hquiet hnone, map_nil, append_nil] at hmem
    rw [hquiet hnone, length_nil, Nat.add_zero] at hmemory
    refine ⟨?_, by rw [hmemory, ncard_ownFrames h hdir hempty htables]⟩
    ext frame
    rw [hmem, ownFrames_eq hempty htables, Set.mem_union, Finset.mem_coe, Finset.mem_image, mem_map]
    simp only [Finset.mem_range, mem_range]

end

end Teardown

end State

section Runs

variable {s : State} {m m₀ : Mem} {R total : Nat} {dir : PageDirectory}

theorem boot_new_process : ∃ m₀ s dir, bootstrap (fun _ => 0) 0x400000 = some m₀ ∧
    (boot m₀ 0x400000 0x1000000).createAddressSpace = .ok (dir, s) ∧
    State.Kept (fun _ => True) s ∧ dir ∈ s.all ∧ s.current ≠ dir ∧
    ∀ idx < kernelIndex, ¬HasTable s.mem dir idx := by
  obtain ⟨m₀, hboot⟩ := bootstrap_returns (fun _ => 0) 0x400000 (by decide)
  have hkept : State.Kept (fun _ => True) (boot m₀ 0x400000 0x1000000) :=
    boot_kept hboot (by decide) (by decide) (fun _ _ => .inr (by decide))
  have hcall : ∃ dir s, (boot m₀ 0x400000 0x1000000).createAddressSpace = .ok (dir, s) := by
    apply State.createAddressSpace_returns hkept (show 258 ≠ 259 by decide)
      (show 2306 ≠ 2307 by decide)
    · intro k hk
      rw [Finset.mem_insert, Finset.mem_singleton] at hk
      apply area_clear
      · unfold bootPages
        omega
      · omega
    · intro j hj
      rw [Finset.mem_insert, Finset.mem_singleton] at hj
      have hreserved : PageFrameAllocator.reservedFrames 0x400000 = 2306 := rfl
      apply boot_clear (by decide)
      · omega
      · simp only [PAGESIZE]
        omega
  obtain ⟨dir, s, hcall⟩ := hcall
  obtain ⟨hkept', hdir, hne, habsent⟩ := State.createAddressSpace_spec hkept hcall
  exact ⟨m₀, s, dir, hboot, hcall, hkept', mem_cons_of_mem _ hdir, hne, habsent⟩

end Runs

end HuyaOS.Management
