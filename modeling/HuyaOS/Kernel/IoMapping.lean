import HuyaOS.Kernel.HeapPages

/-!
Device memory. `mapIO` maps pages of the device area to frames that its caller
names, and `freeIO` unmaps them again. Unmapping a page gives its frame to the
allocator, also when the allocator has not handed it out. In between, the node
that counts the pages of the device comes and goes on the kernel heap.
-/

namespace HuyaOS.Management

open Lib Paging PageDirectory BitmapMemoryManager List Nat

namespace State

section Pages

variable {s : State} {v ptr physAddress i n : Nat}

def deviceFlags : Nat := PAGE_PRESENT ||| PAGE_READ_WRITE ||| PAGE_NO_CACHING

theorem unmap_of_view_none (hv : v < 2 ^ 32) (hview : view s.mem s.current (pageOf v) = none) :
    s.unmap v = (0, s) := by
  have hunmap : PageDirectory.unmap s.mem s.current v = (0, s.mem) := by
    rcases PageDirectory.unmap_cases s.mem s.current v with heq | ⟨htable, hpresent, _⟩
    · exact heq
    · rw [view_pageOf hv, if_pos htable, decode_of_present hpresent] at hview
      cases hview
  unfold unmap
  simp only [hunmap, if_true]

theorem mapIOPage_returns (physAddress : Nat) (hs : Shared s.toSystem)
    (hcurrent : s.current ∈ s.all) (hv : add32 ptr (i * PAGESIZE) = v)
    (hkernel : kernelPage ≤ pageOf v) (hview : view s.mem s.current (pageOf v) = none) :
    HasTable s.mem s.current (GET_PD_IDX v) ∧
      s.mapIOPage ptr physAddress i = .ok { s with
        mem := setTableEntry s.mem s.current v
          (add32 physAddress (i * PAGESIZE) ||| deviceFlags) } := by
  have hlt : v < 2 ^ 32 := hv ▸ add32_lt _ _
  have htable := hs.hasTable_of_kernel hcurrent (kernelIndex_le_iff.mpr hkernel) (pd_lt hlt)
  have habsent : ¬tableEntry s.mem s.current v &&& PAGE_PRESENT ≠ 0 := by
    intro hpresent
    rw [view_pageOf hlt, if_pos htable, decode_of_present hpresent] at hview
    cases hview
  refine ⟨htable, ?_⟩
  unfold mapIOPage mapTo
  simp only [hv, unmap_of_view_none hlt hview]
  rw [if_neg htable]
  exact if_neg habsent

theorem pageOf_add32 (hlt : ptr + i * PAGESIZE < 2 ^ 32) :
    pageOf (add32 ptr (i * PAGESIZE)) = pageOf ptr + i := by
  rw [add32_eq hlt]
  exact add_mul_div_right _ _ (by decide)

theorem foldlM_mapIOPage (hs : Shared s.toSystem) (hcurrent : s.current ∈ s.all)
    (haligned : physAddress % PAGESIZE = 0) (hkernel : kernelPage ≤ pageOf ptr)
    (hlt : ptr + n * PAGESIZE ≤ 2 ^ 32)
    (hview : ∀ i < n, view s.mem s.current (pageOf ptr + i) = none) :
    ∃ m, (range n).foldlM (fun s i => mapIOPage s ptr physAddress i) s =
        .ok { s with mem := m } ∧
      Shared { s.toSystem with mem := m } ∧
      (∀ i < n, view m s.current (pageOf ptr + i) =
        some ⟨add32 physAddress (i * PAGESIZE), deviceFlags⟩) ∧
      ∀ page, page < pageOf ptr ∨ pageOf ptr + n ≤ page →
        view m s.current page = view s.mem s.current page := by
  induction n with
  | zero =>
    exact ⟨s.mem, rfl, hs, fun i hi => absurd hi (not_lt_zero i), fun _ _ => rfl⟩
  | succ n ih =>
    have hnext : ptr + n * PAGESIZE < 2 ^ 32 := by
      simp only [PAGESIZE] at hlt ⊢
      omega
    obtain ⟨m, hloop, hs', hmapped, hrest⟩ := ih (le_of_lt hnext) fun i hi => hview i (by omega)
    obtain ⟨v, hv⟩ : ∃ v, add32 ptr (n * PAGESIZE) = v := ⟨_, rfl⟩
    have hv' : v < 2 ^ 32 := hv ▸ add32_lt _ _
    have hpage : pageOf v = pageOf ptr + n := hv ▸ pageOf_add32 hnext
    have hempty : view m s.current (pageOf v) = none := by
      rw [hpage, hrest _ (.inr le_rfl)]
      exact hview n (lt_succ_self n)
    obtain ⟨htable, hcall⟩ :=
      mapIOPage_returns (s := { s with mem := m }) physAddress hs' hcurrent hv (by omega) hempty
    have hframe : decode ((add32 physAddress (n * PAGESIZE) ||| deviceFlags) % 2 ^ 32) =
        some ⟨add32 physAddress (n * PAGESIZE), deviceFlags⟩ := by
      have hword := add32_lt physAddress (n * PAGESIZE)
      rw [mod_eq_of_lt (or_lt_two_pow hword (by decide))]
      apply decode_or hword _ (by decide) (by decide)
      simp only [add32, PAGESIZE] at haligned ⊢
      omega
    have hafter := (setTableEntry_spec (hs'.separated hcurrent) hv' htable
      (add32 physAddress (n * PAGESIZE) ||| deviceFlags)).1
    rw [hframe, hpage] at hafter
    refine ⟨setTableEntry m s.current v (add32 physAddress (n * PAGESIZE) ||| deviceFlags), ?_,
      hs'.after_setTableEntry hcurrent hv' htable _, ?_, ?_⟩
    · rw [range_succ, foldlM_append]
      exact bind_eq_ok.mpr ⟨_, hloop, bind_eq_ok.mpr ⟨_, hcall, rfl⟩⟩
    · intro i hi
      rcases Nat.lt_succ_iff_lt_or_eq.mp hi with hlt' | rfl
      · exact (congrFun hafter _).trans
          ((Function.update_of_ne (by omega) _ _).trans (hmapped i hlt'))
      · exact (congrFun hafter _).trans (Function.update_self _ _ _)
    · intro page hother
      exact (congrFun hafter _).trans ((Function.update_of_ne (by omega) _ _).trans
        (hrest page (by omega)))

/-- Unmapping looks at no field of the device area. -/
theorem releaseHeap_device (s : State) (pages : List Nat) (io : BitmapMemoryManager)
    (map : HashMap Nat Nat) :
    releaseHeap { s with ioMemManager := io, ioMemoryMap := map } pages =
      { s.releaseHeap pages with ioMemManager := io, ioMemoryMap := map } := by
  induction pages generalizing s with
  | nil => rfl
  | cons v pages ih =>
    change releaseHeap (State.unmap { s with ioMemManager := io, ioMemoryMap := map } v).2 pages =
      { releaseHeap (s.unmap v).2 pages with ioMemManager := io, ioMemoryMap := map }
    rw [unmap_eq, unmap_eq, ← ih]

theorem releaseHeap_ioMemoryMap (s : State) (pages : List Nat) :
    (s.releaseHeap pages).ioMemoryMap = s.ioMemoryMap := by
  have hsame := congrArg State.ioMemoryMap (releaseHeap_device s pages s.ioMemManager s.ioMemoryMap)
  exact hsame

/-- The pages of a device. -/
def devicePages (ptr n : Nat) : List Nat := (range n).map fun i => add32 ptr (i * PAGESIZE)

theorem foldl_freeIOPage (s : State) (ptr n : Nat) :
    ∃ io, (range n).foldl (freeIOPage ptr) s =
      { s.releaseHeap (devicePages ptr n) with ioMemManager := io } := by
  induction n with
  | zero => exact ⟨s.ioMemManager, rfl⟩
  | succ n ih =>
    obtain ⟨io, hloop⟩ := ih
    have hpages : devicePages ptr (n + 1) = devicePages ptr n ++ [add32 ptr (n * PAGESIZE)] := by
      rw [devicePages, range_succ, map_append]
      rfl
    refine ⟨io.free (add32 ptr (n * PAGESIZE)), ?_⟩
    rw [range_succ, foldl_concat, hloop, hpages, releaseHeap, releaseHeap, foldl_concat]
    simp only [freeIOPage, unmap_eq]

/-- Freeing a device is unmapping its pages. -/
theorem freeIO_returns {ptr n : Nat} (hlo : s.ioMemManager.memoryStartAddress ≤ ptr)
    (hhi : ptr < s.ioMemManager.memoryEndAddress) (hget : s.ioMemoryMap.get id ptr = .ok n)
    (released : List Nat) :
    ∃ s₂, s.freeIOAndNode ptr released = .ok s₂ ∧ s₂.pageFrameAllocator =
      (s.releaseHeap (devicePages ptr n ++ released)).pageFrameAllocator := by
  obtain ⟨io, hloop⟩ := foldl_freeIOPage s ptr n
  obtain ⟨map, hremove⟩ := HashMap.remove_of_get id hget
  have hfree : s.freeIO ptr = .ok
      { s.releaseHeap (devicePages ptr n) with ioMemManager := io, ioMemoryMap := map } := by
    unfold freeIO
    rw [if_neg (by omega)]
    refine bind_eq_ok.mpr ⟨n, hget, ?_⟩
    rw [hloop]
    dsimp only
    rw [releaseHeap_ioMemoryMap]
    exact bind_eq_ok.mpr ⟨_, hremove, rfl⟩
  refine ⟨_, bind_eq_ok.mpr ⟨_, hfree, rfl⟩, ?_⟩
  rw [releaseHeap_device]
  unfold releaseHeap
  rw [foldl_append]

end Pages

/-- The device area is not mapped where it is free. The frames are managed from
address zero on, the first one is in use, and so are those of the kernel heap. -/
structure DeviceArea (s : State) : Prop extends Ready s where
  zero : s.pageFrameAllocator.bitmap.isSet 0 = true
  heap : ∀ v, HeapAddress v → s.backing (pageOf v) ≠ 0 →
    ∃ k, s.backing (pageOf v) = k * PAGESIZE ∧ s.pageFrameAllocator.bitmap.isSet k = true
  valid : s.ioMemManager.Valid
  type_eq : s.ioMemManager.managerType = .MISC
  start_eq : s.ioMemManager.memoryStartAddress = VIRT_IO_START
  blockSize_eq : s.ioMemManager.blockSize = PAGESIZE
  unmapped : ∀ k ∈ s.ioMemManager.bitmap.clear,
    view s.mem s.current (pageOf (s.ioMemManager.address k)) = none

/-- The device is mapped, and the pages that its node needed have got frames. -/
structure DeviceMapped (s s₁ : State) (accessed pages : List Nat) (ptr physAddress n : Nat) :
    Prop where
  ready : Ready s₁
  mem_pages : ∀ page, page ∈ pages ↔
    page ∈ accessed.map pageOf ∧ view s.mem s.current page = none
  others : ∀ v, HeapAddress v → pageOf v ∉ pages → s₁.backing (pageOf v) = s.backing (pageOf v)
  taken : ∀ page ∈ pages, ∃ k ∈ s.pageFrameAllocator.bitmap.clear,
    s₁.backing page = k * PAGESIZE ∧ s₁.pageFrameAllocator.bitmap.bitAt k = true
  nodup : (pages.map s₁.backing).Nodup
  released : Released s₁.pageFrameAllocator s.pageFrameAllocator (pages.map s₁.backing)
  device : ∀ i < n,
    s₁.backing (pageOf (add32 ptr (i * PAGESIZE))) = add32 physAddress (i * PAGESIZE)

section RoundTrip

variable {s s₁ : State} {ptr physAddress size k n : Nat} {accessed released pages : List Nat}

section

variable (h : DeviceArea s)

include h

theorem DeviceArea.address_eq (k : Nat) :
    s.ioMemManager.address k = VIRT_IO_START + k * PAGESIZE := by
  rw [address, h.start_eq, h.blockSize_eq]

theorem DeviceArea.pageOf_address (k : Nat) :
    pageOf (s.ioMemManager.address k) = 978432 + k := by
  simp only [h.address_eq, pageOf, PAGESIZE, VIRT_IO_START, KERNEL_START]
  omega

theorem DeviceArea.blockCount_eq : s.ioMemManager.blockCount size = pageCount size := by
  unfold blockCount
  rw [h.blockSize_eq]
  rfl

theorem DeviceArea.address_ne_zero (k : Nat) : s.ioMemManager.address k ≠ 0 := by
  rw [h.address_eq]
  simp only [VIRT_IO_START, KERNEL_START]
  omega

theorem DeviceArea.allocIO {mgr : BitmapMemoryManager}
    (halloc : s.ioMemManager.alloc size = .ok (s.ioMemManager.address k, mgr)) :
    s.allocIO size = .ok (s.ioMemManager.address k, { s with
      ioMemManager := mgr
      ioMemoryMap := s.ioMemoryMap.put id (s.ioMemManager.address k) (pageCount size) }) := by
  refine bind_eq_ok.mpr ⟨_, halloc, ?_⟩
  exact if_neg (h.address_ne_zero k)

end

/-- The part of `mapIO` behind the allocation: the heap runs out of frames, or the
device is mapped. -/
theorem Ready.mapDevice (h : Ready s) (haligned : physAddress % PAGESIZE = 0)
    (haccessed : ∀ v ∈ accessed, HeapAddress v) (hptr : 978432 ≤ pageOf ptr)
    (hlt : ptr + n * PAGESIZE ≤ 2 ^ 32)
    (hempty : ∀ i < n, view s.mem s.current (pageOf ptr + i) = none) :
    (s.pageFrameAllocator.bitmap.clear.card < accessed.length ∧
      ∃ stop, s.accessHeap accessed = .error stop) ∨
    ∃ t m frames pages, s.accessHeap accessed = .ok t ∧
      (range n).foldlM (fun s i => mapIOPage s ptr physAddress i) t =
        .ok { s with mem := m, pageFrameAllocator := frames } ∧
      DeviceMapped s { s with mem := m, pageFrameAllocator := frames } accessed pages ptr
        physAddress n := by
  rcases accessHeap_cases h haccessed with hfull | ⟨m, frames, pages, haccess, hfilled, hmem⟩
  · exact .inl hfull
  have hlow : ∀ page ∈ pages, page < 914432 := by
    intro page hpage
    obtain ⟨v, hv, rfl⟩ := mem_map.mp ((hmem page).mp hpage).1
    exact (haccessed v hv).pageOf_lt
  -- the pages of the device are as empty as before
  have hstill : ∀ i < n, view m s.current (pageOf ptr + i) = none := by
    intro i hi
    refine (hfilled.others _ fun hnode => ?_).trans (hempty i hi)
    have := hlow _ hnode
    omega
  obtain ⟨m', hloop, hshared, hmapped, hothers⟩ := foldlM_mapIOPage hfilled.ready.shared
    h.current haligned (by rw [kernelPage_eq]; omega) hlt hstill
  have hsame : ∀ page < 914432, backing { s with mem := m' } page =
      backing { s with mem := m } page := by
    intro page hpage
    unfold State.backing
    dsimp only
    rw [hothers page (.inl (by omega))]
  have hmap : pages.map (backing { s with mem := m' }) = pages.map (backing { s with mem := m }) :=
    map_congr_left fun page hpage => hsame page (hlow page hpage)
  refine .inr ⟨_, m', frames, pages, haccess, hloop,
    ⟨?_, hmem, fun v hv hnew => ?_, fun page hpage => ?_, ?_, ?_, fun i hi => ?_⟩⟩
  · exact ⟨hshared, h.current, hfilled.ready.frames, hfilled.ready.memory_lt⟩
  · exact (hsame _ hv.pageOf_lt).trans (hfilled.backing_of_notMem hnew)
  · obtain ⟨j, hj, heq, hset⟩ := hfilled.taken page hpage
    exact ⟨j, hj, (hsame page (hlow page hpage)).trans heq, hset⟩
  · exact (congrArg List.Nodup hmap).mpr hfilled.nodup
  · exact (congrArg (Released frames s.pageFrameAllocator) hmap).mpr hfilled.released
  · have hnext : ptr + i * PAGESIZE < 2 ^ 32 := by
      simp only [PAGESIZE] at hlt ⊢
      omega
    unfold State.backing
    dsimp only
    rw [pageOf_add32 hnext, hmapped i hi]
    exact if_neg (show ¬(deviceFlags &&& PAGE_WRITE_PROTECTED ≠ 0) by decide)

/-- `mapIO` throws if the device area has no run of pages left or the heap runs
out of frames. Otherwise it returns, and its pointer can be freed. -/
theorem DeviceArea.mapIO_cases (h : DeviceArea s) (haligned : physAddress % PAGESIZE = 0)
    (hsize : 0 < size) (haccessed : ∀ v ∈ accessed, HeapAddress v) :
    (∃ stop, s.mapIO accessed physAddress size = .error stop ∧
      ((∀ k, ¬s.ioMemManager.bitmap.FreeRun k (pageCount size)) ∨
        s.pageFrameAllocator.bitmap.clear.card < accessed.length)) ∨
    ∃ ptr s₁ pages, s.mapIO accessed physAddress size = .ok (ptr, s₁) ∧
      DeviceMapped s s₁ accessed pages ptr physAddress (pageCount size) ∧
      ∀ released, ∃ s₂, s₁.freeIOAndNode ptr released = .ok s₂ ∧ s₂.pageFrameAllocator =
        (s₁.releaseHeap (devicePages ptr (pageCount size) ++ released)).pageFrameAllocator := by
  have hcases := alloc_cases h.valid hsize
  rw [h.blockCount_eq] at hcases
  rcases hcases with ⟨k, hrun, _, halloc⟩ | ⟨hnone, hfail⟩
  · have hput := h.allocIO halloc
    have hpage := h.pageOf_address k
    have hpos : 0 < pageCount size := by
      rw [← h.blockCount_eq]
      exact blockCount_pos h.valid hsize
    have hlt : s.ioMemManager.address k + pageCount size * PAGESIZE ≤ 2 ^ 32 := by
      have hend := h.valid.address_le hrun.1
      have hbound := h.valid.end_lt
      rw [h.address_eq] at hend ⊢
      simp only [PAGESIZE] at hend ⊢
      omega
    have hempty : ∀ i < pageCount size,
        view s.mem s.current (pageOf (s.ioMemManager.address k) + i) = none := by
      intro i hi
      have hclear := h.unmapped (k + i)
        (hrun.subset_clear (Finset.mem_Ico.mpr ⟨by omega, by omega⟩))
      rwa [h.pageOf_address, ← Nat.add_assoc, ← hpage] at hclear
    have hready : Ready { s with
      ioMemManager := s.ioMemManager.claim k (pageCount size)
      ioMemoryMap := s.ioMemoryMap.put id (s.ioMemManager.address k) (pageCount size) } :=
      ⟨h.shared, h.current, h.frames, h.memory_lt⟩
    rcases hready.mapDevice haligned haccessed (by omega) hlt hempty with
      ⟨hcard, stop, hstop⟩ | ⟨t, m, frames, pages, haccess, hloop, hmapped⟩
    · refine .inl ⟨stop, ?_, .inr hcard⟩
      unfold mapIO
      rw [hput]
      simp only [bind, Except.bind, h.address_ne_zero k, if_false, hstop]
    · refine .inr ⟨s.ioMemManager.address k, _, pages,
        bind_eq_ok.mpr ⟨_, hput, (if_neg (h.address_ne_zero k)).trans
          (bind_eq_ok.mpr ⟨_, haccess, bind_eq_ok.mpr ⟨_, hloop, rfl⟩⟩)⟩,
        ⟨hmapped.ready, hmapped.mem_pages, hmapped.others, hmapped.taken, hmapped.nodup,
          hmapped.released, hmapped.device⟩, ?_⟩
      have hinside : k < s.ioMemManager.bitmap.blocks := by
        have := hrun.1
        omega
      exact freeIO_returns (le_add_right _ _) (h.valid.address_lt hinside)
        (HashMap.get_put id _ _ _)
  · refine .inl ⟨.throwException .OUT_OF_MEMORY, ?_, .inl hnone⟩
    obtain ⟨ptr, mgr, halloc⟩ := alloc_returns h.type_eq size
    obtain ⟨_, rfl, rfl⟩ := hfail ptr mgr halloc
    unfold mapIO State.allocIO
    rw [halloc]
    rfl

section

variable (hmapped : DeviceMapped s s₁ accessed pages ptr physAddress n) (h : DeviceArea s)
  (haligned : physAddress % PAGESIZE = 0)
  (hused : ∀ i < n, ¬Ignored s.pageFrameAllocator (add32 physAddress (i * PAGESIZE)) →
    s.pageFrameAllocator.bitmap.isSet (add32 physAddress (i * PAGESIZE) / PAGESIZE) = true)
  (hreleased : ∀ v ∈ released, HeapAddress v)

include hmapped

theorem DeviceMapped.ignored {frame : Nat} :
    Ignored s₁.pageFrameAllocator frame ↔ Ignored s.pageFrameAllocator frame := by
  unfold Ignored
  rw [hmapped.released.end_eq]

include h

theorem DeviceMapped.not_ignored {page : Nat} (hpage : page ∈ pages) :
    ¬Ignored s₁.pageFrameAllocator (s₁.backing page) := by
  obtain ⟨k, hk, heq, _⟩ := hmapped.taken page hpage
  obtain ⟨hlt, hclear⟩ := Bitmap.mem_clear.mp hk
  rw [hmapped.ignored, heq]
  apply h.frames.not_ignored _ hlt
  rintro rfl
  rw [h.zero] at hclear
  cases hclear

include haligned hused hreleased

/-- What freeing the device and its node gives back. -/
theorem DeviceMapped.releaseHeap :
    ∃ given : List Nat, given.Nodup ∧
      (∀ page, page ∈ given ↔ page ∈ (devicePages ptr n ++ released).map pageOf ∧
        ¬Ignored s₁.pageFrameAllocator (s₁.backing page)) ∧
      Released s₁.pageFrameAllocator
        (s₁.releaseHeap (devicePages ptr n ++ released)).pageFrameAllocator
        (given.map s₁.backing) := by
  apply releaseHeap_spec hmapped.ready
  · intro v hv
    rcases mem_append.mp hv with hv | hv
    · obtain ⟨i, _, rfl⟩ := mem_map.mp hv
      exact add32_lt ..
    · exact (hreleased v hv).lt
  · intro v hv hbad
    rw [hmapped.ignored] at hbad
    rw [← hmapped.released.blocks_eq]
    rcases mem_append.mp hv with hv | hv
    · obtain ⟨i, hi, rfl⟩ := mem_map.mp hv
      rw [hmapped.device i (mem_range.mp hi)] at hbad ⊢
      refine ⟨_, Bitmap.lt_of_isSet (hused i (mem_range.mp hi) hbad), ?_⟩
      simp only [add32, PAGESIZE] at haligned ⊢
      omega
    · by_cases hpage : pageOf v ∈ pages
      · obtain ⟨k, hk, heq, _⟩ := hmapped.taken _ hpage
        exact ⟨k, (Bitmap.mem_clear.mp hk).1, heq⟩
      · rw [hmapped.others v (hreleased v hv) hpage] at hbad ⊢
        obtain ⟨k, heq, hset⟩ := h.heap v (hreleased v hv) (not_or.mp hbad).1
        exact ⟨k, Bitmap.lt_of_isSet hset, heq⟩

variable {given : List Nat}
  (hgiven : ∀ page, page ∈ given ↔ page ∈ (devicePages ptr n ++ released).map pageOf ∧
    ¬Ignored s₁.pageFrameAllocator (s₁.backing page))

include hgiven

omit h haligned hused in
/-- Under these two conditions what is given back belongs to the node. -/
theorem DeviceMapped.own_of_given
    (hignored : ∀ i < n, Ignored s.pageFrameAllocator (add32 physAddress (i * PAGESIZE)))
    (hkept : ∀ v ∈ released, s.backing (pageOf v) = 0) {page : Nat} (hpage : page ∈ given) :
    page ∈ pages ∧ page ∈ released.map pageOf := by
  obtain ⟨hmem, hbad⟩ := (hgiven page).mp hpage
  obtain ⟨v, hv, rfl⟩ := mem_map.mp hmem
  rcases mem_append.mp hv with hv | hv
  · obtain ⟨i, hi, rfl⟩ := mem_map.mp hv
    rw [hmapped.device i (mem_range.mp hi), hmapped.ignored] at hbad
    exact absurd (hignored i (mem_range.mp hi)) hbad
  · refine ⟨?_, mem_map_of_mem hv⟩
    by_contra hother
    rw [hmapped.others v (hreleased v hv) hother] at hbad
    exact hbad (.inl (hkept v hv))

/-- No frame that was in use before is given back. -/
theorem DeviceMapped.kept_of_used (hkeep : ∀ k, s.pageFrameAllocator.bitmap.isSet k = true →
      k * PAGESIZE ∉ given.map s₁.backing) :
    (∀ i < n, Ignored s.pageFrameAllocator (add32 physAddress (i * PAGESIZE))) ∧
      ∀ v ∈ released, s.backing (pageOf v) = 0 := by
  constructor
  · intro i hi
    by_contra hbad
    apply hkeep _ (hused i hi hbad)
    have hframe : add32 physAddress (i * PAGESIZE) / PAGESIZE * PAGESIZE =
        add32 physAddress (i * PAGESIZE) := by
      simp only [add32, PAGESIZE] at haligned ⊢
      omega
    rw [hframe, ← hmapped.device i hi]
    refine mem_map_of_mem ((hgiven _).mpr
      ⟨mem_map_of_mem (mem_append_left _ (mem_map_of_mem (mem_range.mpr hi))), ?_⟩)
    rw [hmapped.device i hi, hmapped.ignored]
    exact hbad
  · intro v hv
    by_contra hbacked
    obtain ⟨k, heq, hset⟩ := h.heap v (hreleased v hv) hbacked
    have hold : pageOf v ∉ pages := by
      intro hnew
      unfold State.backing at hbacked
      rw [((hmapped.mem_pages _).mp hnew).2] at hbacked
      exact hbacked rfl
    have hsame := (hmapped.others v (hreleased v hv) hold).trans heq
    apply hkeep k hset
    rw [← hsame]
    refine mem_map_of_mem ((hgiven _).mpr ⟨mem_map_of_mem (mem_append_right _ hv), ?_⟩)
    rw [hsame, hmapped.ignored]
    apply h.frames.not_ignored _ (Bitmap.lt_of_isSet hset)
    rintro rfl
    rw [heq, Nat.zero_mul] at hbacked
    exact hbacked rfl

end

end RoundTrip

end State

section Boot

variable {m m₀ : Mem} {R total : Nat}

theorem boot_deviceArea (hboot : bootstrap m R = some m₀) (haligned : R % 0x400000 = 0)
    (htotal : total < 2 ^ 32) (hroom : PageFrameAllocator.reservedFrames R ≤ total / PAGESIZE) :
    (boot m₀ R total).DeviceArea := by
  have hkept : State.Kept (fun _ => True) (boot m₀ R total) :=
    boot_kept hboot haligned htotal fun _ _ => .inr hroom
  have hframe : ∀ k < (boot m₀ R total).pageFrameAllocator.bitmap.blocks,
      k * PAGESIZE ∉ (boot m₀ R total).pageFrameAllocator.freeAddresses →
      (boot m₀ R total).pageFrameAllocator.bitmap.isSet k = true := by
    intro k hk hused
    rw [hkept.frames.mem_freeAddresses_iff, Bitmap.mem_clear, not_and] at hused
    exact Bool.eq_true_of_not_eq_false (hused hk)
  refine ⟨⟨hkept.shared, hkept.current, hkept.frames, sub32_lt ..⟩, ?_, ?_,
    init_valid (by decide) (by decide) (by decide), rfl, rfl, rfl, ?_⟩
  · apply hframe 0 _ (by rw [Nat.zero_mul]; exact hkept.zero)
    have hreserved : 0 < PageFrameAllocator.reservedFrames R := by
      rw [PageFrameAllocator.reservedFrames_eq haligned]
      exact succ_pos _
    simp only [boot, PageFrameAllocator.blocks_init htotal]
    exact lt_of_lt_of_le hreserved hroom
  · intro v hv hbacked
    have hentry := State.frameOf_of_backing hkept.shared hkept.current hv.kernelPage_le hbacked
    obtain ⟨k, hk, heq⟩ := hkept.allocated _ trivial _ hentry
    refine ⟨k, heq, hframe k hk ?_⟩
    rw [← heq]
    exact hkept.exclusive.not_free _ _ hentry
  · intro k _
    have hpage : pageOf ((boot m₀ R total).ioMemManager.address k) = 978432 + k := by
      simp only [boot, IOMemoryManager.new, init, address, pageOf, PAGESIZE, VIRT_IO_START,
        KERNEL_START]
      omega
    have hkernel : kernelPage ≤ 978432 + k := by
      rw [kernelPage_eq]
      omega
    rw [hpage]
    -- the pages that are mapped after booting lie below
    have hlate : State.LateEntry (.kernel (978432 + k)) := by
      simp only [State.LateEntry, State.pageOf_areaPage, bootPages]
      omega
    have hnone : (boot m₀ R total).frameOf (.kernel (978432 + k)) = none :=
      frameOf_late hboot (by simp only [PAGESIZE]; omega) hlate
    rw [hkept.shared.view_eq_lookup hkept.current, entryOf_kernel hkernel]
    exact Option.map_eq_none_iff.mp hnone

theorem boot_deviceArea_sixteen_megabytes (hboot : bootstrap (fun _ => 0) 0x400000 = some m₀) :
    (boot m₀ 0x400000 0x1000000).DeviceArea :=
  boot_deviceArea hboot (by decide) (by decide) (by decide)

theorem view_boot_heap (hboot : bootstrap (fun _ => 0) 0x400000 = some m₀) :
    view (boot m₀ 0x400000 0x1000000).mem (boot m₀ 0x400000 0x1000000).current
      (pageOf (KERNEL_START + 0x1000000)) = none := by
  have harea := boot_deviceArea_sixteen_megabytes hboot
  have hpage : pageOf (KERNEL_START + 0x1000000) = kernelPage + 4096 := rfl
  have hnone : (boot m₀ 0x400000 0x1000000).frameOf (.kernel (kernelPage + 4096)) = none := by
    by_contra hsome
    obtain ⟨frame, he⟩ := Option.ne_none_iff_exists'.mp hsome
    obtain ⟨j, _, heq, hj⟩ := frameOf_boot hboot (by decide) he
    have hsame := Entry.kernel.inj heq
    simp only [PAGESIZE, areaEntry, VIRT_PAGE_MEM_START, KERNEL_START] at hj
    omega
  rw [hpage, harea.shared.view_eq_lookup harea.current, entryOf_kernel (Nat.le_add_right _ _)]
  exact Option.map_eq_none_iff.mp hnone

theorem freeRun_boot {n : Nat} (hn : n ≤ IOMemoryManager.new.bitmap.blocks) :
    (boot m₀ R total).ioMemManager.bitmap.FreeRun 0 n :=
  ⟨by rw [Nat.zero_add]; exact hn, fun _ _ _ => Bitmap.isSet_new⟩

end Boot

end HuyaOS.Management
