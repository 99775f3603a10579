import HuyaOS.Kernel.FrameRuns

/-!
The pages of the kernel heap. A page of the heap gets a frame when the heap
writes to it first, and loses it when it lies inside memory that has become
free. How the heap lays out its objects is not part of the model, so the
addresses and the pages are arbitrary here.
-/

namespace HuyaOS.Management

open Lib Paging PageDirectory BitmapMemoryManager List Nat

def giveBack (mgr : BitmapMemoryManager) (frame : Nat) : BitmapMemoryManager :=
  if frame = 0 then mgr else mgr.free frame

/-- The allocator ignores such a frame: `unmap` does not pass the frame at
address zero on, and `free` returns for addresses behind the memory. -/
def Ignored (mgr : BitmapMemoryManager) (frame : Nat) : Prop :=
  frame = 0 ∨ mgr.memoryEndAddress ≤ frame

instance (mgr : BitmapMemoryManager) (frame : Nat) : Decidable (Ignored mgr frame) :=
  inferInstanceAs (Decidable (_ ∨ _))

/-- The kernel heap lies below the paging area. -/
def HeapAddress (v : Nat) : Prop := KERNEL_START ≤ v ∧ v < VIRT_PAGE_MEM_START

/-- The frames have been freed one after the other. Each of them counts, also one
that was free already. -/
structure Released (mgr mgr' : BitmapMemoryManager) (frames : List Nat) : Prop where
  region : Region mgr' 0
  end_eq : mgr'.memoryEndAddress = mgr.memoryEndAddress
  blocks_eq : mgr'.bitmap.blocks = mgr.bitmap.blocks
  bits : ∀ j, mgr'.bitmap.bitAt j = true ↔ mgr.bitmap.bitAt j = true ∧ j * PAGESIZE ∉ frames
  memory : mgr'.freeMemory = add32 mgr.freeMemory (PAGESIZE * frames.length)

section Frames

variable {mgr mgr' mgr'' : BitmapMemoryManager} {k v frame : Nat} {frames frames' : List Nat}

theorem Region.mem_freeAddresses_iff (h : Region mgr 0) :
    k * PAGESIZE ∈ mgr.freeAddresses ↔ k ∈ mgr.bitmap.clear := by
  rw [← mem_freeAddresses h.valid, h.address_eq, zero_add]

theorem Region.not_ignored (h : Region mgr 0) (hne : k ≠ 0) (hk : k < mgr.bitmap.blocks) :
    ¬Ignored mgr (k * PAGESIZE) := by
  have hlt := h.valid.address_lt hk
  rw [h.address_eq, zero_add] at hlt
  exact not_or.mpr ⟨Nat.mul_ne_zero hne (by decide), by omega⟩

theorem giveBack_of_ignored (h : Ignored mgr frame) : giveBack mgr frame = mgr := by
  unfold giveBack
  split
  · rfl
  · rename_i hne
    exact if_pos (.inr (h.resolve_left hne))

theorem Region.giveBack (h : Region mgr 0) (frame : Nat) : Region (giveBack mgr frame) 0 := by
  unfold Management.giveBack
  split
  · exact h
  · rcases mgr.free_cases frame with hfree | hfree
    · rw [hfree]
      exact h
    · rw [hfree]
      exact h.release _

theorem Region.released_nil (h : Region mgr 0) (hlt : mgr.freeMemory < 2 ^ 32) :
    Released mgr mgr [] :=
  ⟨h, rfl, rfl, by simp, (mod_eq_of_lt hlt).symm⟩

theorem Region.released_free (h : Region mgr 0) (hk : k < mgr.bitmap.blocks) :
    Released mgr (mgr.free (k * PAGESIZE)) [k * PAGESIZE] := by
  have hfree : mgr.free (k * PAGESIZE) = mgr.release k := by
    rw [← BitmapMemoryManager.free_address h.valid hk, h.address_eq, zero_add]
  rw [hfree]
  refine ⟨h.release k, rfl, Bitmap.blocks_unset, fun j => ?_, ?_⟩
  · rw [BitmapMemoryManager.release, Bitmap.bitAt_unset hk, Bool.and_eq_true, decide_eq_true_iff,
      mem_singleton, Nat.mul_left_inj (by decide)]
  · rw [BitmapMemoryManager.release, h.blockSize_eq]
    rfl

/-- Freeing a frame undoes that it has been handed out. -/
theorem Region.released_claim (h : Region mgr 0) (hlt : mgr.freeMemory < 2 ^ 32)
    (hk : k ∈ mgr.bitmap.clear) :
    Released (mgr.claim k 1) mgr [k * PAGESIZE] ∧ (mgr.claim k 1).bitmap.bitAt k = true := by
  obtain ⟨hblocks, hclear⟩ := Bitmap.mem_clear_iff.mp hk
  have hbits : ∀ j, (mgr.claim k 1).bitmap.bitAt j = true ↔
      mgr.bitmap.bitAt j = true ∨ j = k := by
    intro j
    have hrange : (k ≤ j ∧ j < k + 1) ↔ j = k := by omega
    rw [BitmapMemoryManager.claim, Bitmap.bitAt_setRange hblocks, Bool.or_eq_true,
      decide_eq_true_iff, hrange]
  refine ⟨⟨h, rfl, Bitmap.blocks_setRange.symm, fun j => ?_, ?_⟩, (hbits k).mpr (.inr rfl)⟩
  · rw [hbits, mem_singleton, Nat.mul_left_inj (by decide)]
    constructor
    · intro hset
      refine ⟨.inl hset, ?_⟩
      rintro rfl
      rw [hclear] at hset
      cases hset
    · rintro ⟨hset | heq, hne⟩
      · exact hset
      · exact absurd heq hne
  · simp only [BitmapMemoryManager.claim, h.blockSize_eq, length_singleton, add32, sub32, PAGESIZE]
    omega

theorem Released.trans (h : Released mgr mgr' frames) (h' : Released mgr' mgr'' frames') :
    Released mgr mgr'' (frames ++ frames') where
  region := h'.region
  end_eq := h'.end_eq.trans h.end_eq
  blocks_eq := h'.blocks_eq.trans h.blocks_eq
  bits j := by rw [h'.bits, h.bits, mem_append, not_or, and_assoc]
  memory := by
    rw [h'.memory, h.memory, length_append]
    unfold add32
    rw [mod_add_mod, Nat.add_assoc, Nat.mul_add]

/-- The order in which frames are freed does not matter. -/
theorem Released.eq_of_perm (h : Released mgr mgr' frames) (h' : Released mgr mgr'' frames')
    (hperm : frames'.Perm frames) :
    mgr''.bitmap = mgr'.bitmap ∧ mgr''.freeMemory = mgr'.freeMemory := by
  constructor
  · apply Bitmap.eq_of_bitAt (h'.blocks_eq.trans h.blocks_eq.symm)
    intro j
    rw [Bool.eq_iff_iff, h'.bits, h.bits, hperm.mem_iff]
  · rw [h'.memory, h.memory, hperm.length_eq]

theorem HeapAddress.lt (h : HeapAddress v) : v < 2 ^ 32 := by
  have := h.2
  simp only [VIRT_PAGE_MEM_START, KERNEL_START] at this
  omega

theorem HeapAddress.kernelPage_le (h : HeapAddress v) : kernelPage ≤ pageOf v := by
  have := h.1
  simp only [kernelPage_eq, pageOf, KERNEL_START, PAGESIZE] at this ⊢
  omega

theorem HeapAddress.pageOf_lt (h : HeapAddress v) : pageOf v < 914432 := by
  have := h.2
  simp only [VIRT_PAGE_MEM_START, KERNEL_START, pageOf, PAGESIZE] at this ⊢
  omega

end Frames

namespace State

/-- The frame that unmapping a page gives back, or zero. -/
def backing (s : State) (page : Nat) : Nat :=
  match view s.mem s.current page with
  | none => 0
  | some e => if PageMap.IsProtected e then 0 else e.frame

/-- The frame that a page of kernel space gives back is held by its entry. -/
theorem frameOf_of_backing {s : State} {page : Nat} (hs : Shared s.toSystem)
    (hcurrent : s.current ∈ s.all) (hpage : kernelPage ≤ page) (hbacked : s.backing page ≠ 0) :
    s.frameOf (.kernel page) = some (s.backing page) := by
  have hview := hs.view_eq_lookup hcurrent page
  rw [entryOf_kernel hpage] at hview
  unfold frameOf
  rw [← hview]
  unfold backing at hbacked ⊢
  cases hcase : view s.mem s.current page with
  | none =>
    rw [hcase] at hbacked
    exact absurd rfl hbacked
  | some e =>
    simp only [hcase] at hbacked ⊢
    split at hbacked
    · exact absurd rfl hbacked
    · rename_i hopen
      rw [if_neg hopen]
      rfl

/-- What the steps on pages rest on. -/
structure Ready (s : State) : Prop where
  shared : Shared s.toSystem
  current : s.current ∈ s.all
  frames : Region s.pageFrameAllocator 0
  memory_lt : s.pageFrameAllocator.freeMemory < 2 ^ 32

section Pages

variable {s : State} {v page : Nat} {pages : List Nat}

theorem unmap_eq (s : State) (v : Nat) : (s.unmap v).2 = { s with
    mem := (PageDirectory.unmap s.mem s.current v).2
    pageFrameAllocator := giveBack s.pageFrameAllocator
      (PageDirectory.unmap s.mem s.current v).1 } := by
  unfold unmap giveBack
  dsimp only
  split
  · rfl
  · rfl

theorem Ready.unmap_view (h : Ready s) (hv : v < 2 ^ 32) :
    (PageDirectory.unmap s.mem s.current v).1 = s.backing (pageOf v) ∧
      view (PageDirectory.unmap s.mem s.current v).2 s.current =
        ((view s.mem s.current).unmap (pageOf v)).2 := by
  obtain ⟨hagrees, _⟩ := agrees_unmap (h.shared.separated h.current) hv
  obtain ⟨hanswer, hview⟩ := Prod.mk.inj hagrees
  refine ⟨?_, hview.symm⟩
  unfold backing
  change ((view s.mem s.current).unmap (pageOf v)).1 = .address _ at hanswer
  unfold PageMap.unmap at hanswer
  cases hpage : view s.mem s.current (pageOf v) with
  | none =>
    rw [hpage] at hanswer
    exact (Answer.address.inj hanswer).symm
  | some e =>
    simp only [hpage] at hanswer ⊢
    split at hanswer
    · rename_i hprotected
      rw [if_pos hprotected]
      exact (Answer.address.inj hanswer).symm
    · rename_i hopen
      rw [if_neg hopen]
      exact (Answer.address.inj hanswer).symm

/-- A page that is unmapped gives back its frame, and no other page changes. -/
theorem Ready.unmap (h : Ready s) (hv : v < 2 ^ 32) :
    Ready (s.unmap v).2 ∧
      (s.unmap v).2.pageFrameAllocator =
        giveBack s.pageFrameAllocator (s.backing (pageOf v)) ∧
      (s.unmap v).2.backing = Function.update s.backing (pageOf v) 0 := by
  obtain ⟨hframe_eq, hview⟩ := h.unmap_view hv
  have hallocator : (s.unmap v).2.pageFrameAllocator =
      giveBack s.pageFrameAllocator (s.backing (pageOf v)) := by
    rw [unmap_eq, hframe_eq]
  refine ⟨⟨?_, ?_, ?_, ?_⟩, hallocator, ?_⟩
  · rw [unmap_eq]
    rcases PageDirectory.unmap_cases s.mem s.current v with hsame | ⟨htable, _, hempty⟩
    · rw [hsame]
      exact h.shared
    · rw [hempty]
      exact h.shared.after_setTableEntry h.current hv htable 0
  · rw [unmap_eq]
    exact h.current
  · rw [hallocator]
    exact h.frames.giveBack _
  · rw [hallocator]
    unfold giveBack BitmapMemoryManager.free
    split
    · exact h.memory_lt
    · dsimp only
      split
      · exact h.memory_lt
      · exact add32_lt ..
  · rw [unmap_eq]
    funext page
    unfold backing
    dsimp only
    rw [hview]
    by_cases hpage : page = pageOf v
    · rw [hpage, Function.update_self]
      unfold PageMap.unmap
      cases hcase : view s.mem s.current (pageOf v) with
      | none => simp only [hcase]
      | some e =>
        by_cases hprotected : PageMap.IsProtected e
        · simp only [hprotected, if_true, hcase]
        · simp only [hprotected, if_false, Function.update_self]
    · rw [PageMap.unmap_of_ne _ hpage, Function.update_of_ne hpage]

/-- The frame of the page is a managed one, or the allocator ignores it. -/
def Managed (s : State) (page : Nat) : Prop :=
  ¬Ignored s.pageFrameAllocator (s.backing page) →
    ∃ k < s.pageFrameAllocator.bitmap.blocks, s.backing page = k * PAGESIZE

theorem Ready.unmap_released (h : Ready s) (hv : v < 2 ^ 32) (hframe : s.Managed (pageOf v)) :
    ∃ given : List Nat, given.Nodup ∧
      (∀ page, page ∈ given ↔
        page = pageOf v ∧ ¬Ignored s.pageFrameAllocator (s.backing page)) ∧
      Released s.pageFrameAllocator (s.unmap v).2.pageFrameAllocator (given.map s.backing) := by
  obtain ⟨_, hallocator, _⟩ := h.unmap hv
  rw [hallocator]
  by_cases hignored : Ignored s.pageFrameAllocator (s.backing (pageOf v))
  · refine ⟨[], nodup_nil, fun page => ?_, ?_⟩
    · simp only [not_mem_nil, false_iff, not_and, not_not]
      rintro rfl
      exact hignored
    · rw [giveBack_of_ignored hignored]
      exact h.frames.released_nil h.memory_lt
  · refine ⟨[pageOf v], nodup_singleton _, fun page => ?_, ?_⟩
    · rw [mem_singleton]
      refine ⟨?_, And.left⟩
      rintro rfl
      exact ⟨rfl, hignored⟩
    · obtain ⟨k, hk, heq⟩ := hframe hignored
      rw [giveBack, if_neg (not_or.mp hignored).1, map_singleton, heq]
      exact h.frames.released_free hk

/-- Each page with a frame is given back once. -/
theorem releaseHeap_spec (h : Ready s) (hlt : ∀ v ∈ pages, v < 2 ^ 32)
    (hframe : ∀ v ∈ pages, s.Managed (pageOf v)) :
    ∃ given : List Nat, given.Nodup ∧
      (∀ page, page ∈ given ↔
        page ∈ pages.map pageOf ∧ ¬Ignored s.pageFrameAllocator (s.backing page)) ∧
      Released s.pageFrameAllocator (s.releaseHeap pages).pageFrameAllocator
        (given.map s.backing) := by
  induction pages generalizing s with
  | nil => exact ⟨[], nodup_nil, by simp, h.frames.released_nil h.memory_lt⟩
  | cons v pages ih =>
    have hv := hlt v mem_cons_self
    obtain ⟨hready, _, hbacking⟩ := h.unmap hv
    obtain ⟨first, hnodup, hfirst, hreleased⟩ := h.unmap_released hv (hframe v mem_cons_self)
    have hignored : ∀ page, ¬Ignored (s.unmap v).2.pageFrameAllocator
        ((s.unmap v).2.backing page) ↔
          page ≠ pageOf v ∧ ¬Ignored s.pageFrameAllocator (s.backing page) := by
      intro page
      unfold Ignored
      rw [hreleased.end_eq, hbacking, Function.update_apply]
      by_cases hpage : page = pageOf v
      · simp [hpage]
      · simp [hpage]
    have hsame : ∀ page, page ≠ pageOf v → (s.unmap v).2.backing page = s.backing page := by
      intro page hpage
      rw [hbacking, Function.update_of_ne hpage]
    obtain ⟨given, hnodup', hgiven, hrest⟩ := ih hready
      (fun w hw => hlt w (mem_cons_of_mem v hw)) fun w hw hbad => by
        obtain ⟨hpage, hbad⟩ := (hignored _).mp hbad
        rw [hreleased.blocks_eq, hsame _ hpage]
        exact hframe w (mem_cons_of_mem v hw) hbad
    have hmap : given.map (s.unmap v).2.backing = given.map s.backing :=
      map_congr_left fun page hpage => hsame page ((hignored page).mp ((hgiven page).mp hpage).2).1
    refine ⟨first ++ given, hnodup.append hnodup' fun page hpage hpage' => ?_, fun page => ?_, ?_⟩
    · exact ((hignored page).mp ((hgiven page).mp hpage').2).1 ((hfirst page).mp hpage).1
    · rw [mem_append, hfirst, hgiven, hignored, map_cons, mem_cons]
      tauto
    · rw [map_append, ← hmap]
      exact hreleased.trans hrest

/-- Pages are entered, each with a frame that was free. -/
structure Filled (s s' : State) (pages : List Nat) : Prop where
  current : s'.current = s.current
  ready : Ready s'
  others : ∀ page, page ∉ pages → view s'.mem s.current page = view s.mem s.current page
  entered : ∀ page ∈ pages, view s'.mem s.current page ≠ none
  taken : ∀ page ∈ pages, ∃ k ∈ s.pageFrameAllocator.bitmap.clear,
    s'.backing page = k * PAGESIZE ∧ s'.pageFrameAllocator.bitmap.bitAt k = true
  nodup : (pages.map s'.backing).Nodup
  released : Released s'.pageFrameAllocator s.pageFrameAllocator (pages.map s'.backing)

theorem Filled.refl (h : Ready s) : Filled s s [] where
  current := rfl
  ready := h
  others _ _ := rfl
  entered _ hpage := absurd hpage not_mem_nil
  taken _ hpage := absurd hpage not_mem_nil
  nodup := nodup_nil
  released := h.frames.released_nil h.memory_lt

theorem Filled.backing_of_notMem {s' : State} (h : Filled s s' pages)
    (hpage : page ∉ pages) : s'.backing page = s.backing page := by
  unfold backing
  rw [h.current, h.others page hpage]

theorem Ready.filled (h : Ready s) (hheap : HeapAddress v) {k : Nat}
    (hk : k ∈ s.pageFrameAllocator.bitmap.clear) : Filled s { s with
      mem := setTableEntry s.mem s.current v
        (k * PAGESIZE ||| (PAGE_PRESENT ||| PAGE_READ_WRITE))
      pageFrameAllocator := s.pageFrameAllocator.claim k 1 } [pageOf v] := by
  have htable := h.shared.hasTable_of_kernel h.current
    (kernelIndex_le_iff.mpr hheap.kernelPage_le) (pd_lt hheap.lt)
  have hbound := h.frames.lt (Bitmap.mem_clear.mp hk).1
  have hword : k * PAGESIZE < 2 ^ 32 := by
    simp only [PAGESIZE]
    omega
  have hview := (setTableEntry_spec (h.shared.separated h.current) hheap.lt htable
    (k * PAGESIZE ||| (PAGE_PRESENT ||| PAGE_READ_WRITE))).1
  rw [mod_eq_of_lt (or_lt_two_pow hword (by decide)),
    decode_or hword (mul_mod_left _ _) (by decide) (by decide)] at hview
  have hentry := (congrFun hview (pageOf v)).trans (Function.update_self _ _ _)
  have hbacking : backing { s with
      mem := setTableEntry s.mem s.current v
        (k * PAGESIZE ||| (PAGE_PRESENT ||| PAGE_READ_WRITE))
      pageFrameAllocator := s.pageFrameAllocator.claim k 1 } (pageOf v) = k * PAGESIZE := by
    unfold backing
    dsimp only
    rw [hentry]
    exact if_neg (show ¬((PAGE_PRESENT ||| PAGE_READ_WRITE) &&& PAGE_WRITE_PROTECTED ≠ 0)
      by decide)
  obtain ⟨hreleased, hset⟩ := h.frames.released_claim h.memory_lt hk
  refine ⟨rfl, ⟨h.shared.after_setTableEntry h.current hheap.lt htable _, h.current,
    h.frames.claim k, sub32_lt ..⟩, fun page hpage => ?_, fun page hpage => ?_,
    fun page hpage => ?_, nodup_singleton _, ?_⟩
  · exact (congrFun hview page).trans (Function.update_of_ne (mt mem_singleton.mpr hpage) _ _)
  · rw [mem_singleton.mp hpage, hentry]
    exact Option.some_ne_none _
  · rw [mem_singleton.mp hpage]
    exact ⟨k, hk, hbacking, hset⟩
  · rw [map_singleton, hbacking]
    exact hreleased

/-- The heap writes to an address. -/
theorem Ready.touch (h : Ready s) (hheap : HeapAddress v) :
    (view s.mem s.current (pageOf v) ≠ none ∧ s.touch v = .ok s) ∨
      view s.mem s.current (pageOf v) = none ∧
        ((s.pageFrameAllocator.bitmap.clear = ∅ ∧ ∃ stop, s.touch v = .error stop) ∨
          ∃ m frames, s.touch v = .ok { s with mem := m, pageFrameAllocator := frames } ∧
            Filled s { s with mem := m, pageFrameAllocator := frames } [pageOf v] ∧
            s.pageFrameAllocator.bitmap.clear.card ≤ frames.bitmap.clear.card + 1) := by
  have htable := h.shared.hasTable_of_kernel h.current
    (kernelIndex_le_iff.mpr hheap.kernelPage_le) (pd_lt hheap.lt)
  have hview : view s.mem s.current (pageOf v) = decode (tableEntry s.mem s.current v) := by
    rw [view_pageOf hheap.lt, if_pos htable]
  by_cases hmapped : s.Mapped v
  · refine .inl ⟨?_, if_pos hmapped⟩
    rw [hview, decode_of_present hmapped.2]
    exact Option.some_ne_none _
  · have habsent : tableEntry s.mem s.current v &&& PAGE_PRESENT = 0 := by
      by_contra hpresent
      exact hmapped ⟨htable, hpresent⟩
    refine .inr ⟨hview.trans (decode_of_absent habsent), ?_⟩
    have htouch : s.touch v = s.pageFault v := if_neg hmapped
    rw [htouch]
    cases halloc : s.pageFrameAllocator.alloc PAGESIZE with
    | error stop =>
      refine .inl ⟨?_, stop, ?_⟩
      · rw [Finset.eq_empty_iff_forall_notMem]
        intro k hk
        obtain ⟨ptr, mgr, hok⟩ := h.frames.alloc_returns hk
        rw [hok] at halloc
        cases halloc
      · unfold pageFault
        rw [halloc]
        rfl
    | ok result =>
      obtain ⟨ptr, mgr⟩ := result
      obtain ⟨k, hk, rfl, rfl⟩ := h.frames.alloc halloc
      refine .inr ⟨_, _, bind_eq_ok.mpr ⟨_, halloc, ?_⟩, h.filled hheap hk, ?_⟩
      · simp only [htable, if_true, enterPage, habsent, ne_eq, not_true_eq_false, if_false,
          zero_add]
      · exact (Finset.card_le_card (clear_subset_claim _ k)).trans (Finset.card_insert_le k _)

theorem Filled.append {s₁ s₂ : State} {pages' : List Nat} (hfirst : Filled s s₁ pages)
    (hrest : Filled s₁ s₂ pages') (hnew : ∀ page ∈ pages, page ∉ pages') :
    Filled s s₂ (pages' ++ pages) := by
  have hcurrent := hfirst.current
  -- the pages of the first step keep their frames in the second
  have hbacking : pages.map s₂.backing = pages.map s₁.backing :=
    map_congr_left fun page hpage => hrest.backing_of_notMem (hnew page hpage)
  have hbits : ∀ {k}, s₁.pageFrameAllocator.bitmap.bitAt k = true →
      s₂.pageFrameAllocator.bitmap.bitAt k = true := fun hset => ((hrest.released.bits _).mp hset).1
  refine ⟨hrest.current.trans hcurrent, hrest.ready, fun page hpage => ?_, fun page hpage => ?_,
    fun page hpage => ?_, ?_, ?_⟩
  · rw [mem_append, not_or] at hpage
    rw [← hcurrent, hrest.others page hpage.1, hcurrent, hfirst.others page hpage.2]
  · rw [← hcurrent]
    by_cases hlater : page ∈ pages'
    · exact hrest.entered page hlater
    · rw [hrest.others page hlater, hcurrent]
      exact hfirst.entered page ((mem_append.mp hpage).resolve_left hlater)
  · rcases mem_append.mp hpage with hpage | hpage
    · obtain ⟨k, hk, heq, hset⟩ := hrest.taken page hpage
      obtain ⟨hlt, hclear⟩ := Bitmap.mem_clear_iff.mp hk
      refine ⟨k, Bitmap.mem_clear_iff.mpr ⟨hfirst.released.blocks_eq ▸ hlt, ?_⟩, heq, hset⟩
      by_contra hbit
      have hold := ((hfirst.released.bits k).mp (Bool.eq_true_of_not_eq_false hbit)).1
      rw [hclear] at hold
      cases hold
    · obtain ⟨k, hk, heq, hset⟩ := hfirst.taken page hpage
      exact ⟨k, hk, (hrest.backing_of_notMem (hnew page hpage)).trans heq, hbits hset⟩
  · rw [map_append, hbacking]
    refine hrest.nodup.append hfirst.nodup fun frame hlater hfirst' => ?_
    -- a frame of the first step is in use when the second begins
    obtain ⟨page, hpage, rfl⟩ := mem_map.mp hfirst'
    obtain ⟨k, _, heq, hset⟩ := hfirst.taken page hpage
    rw [heq] at hlater
    exact ((hrest.released.bits k).mp hset).2 hlater
  · rw [map_append, hbacking]
    exact hrest.released.trans hfirst.released

/-- The heap runs out of frames, or every page that was missing gets one. -/
theorem accessHeap_cases {addresses : List Nat} (h : Ready s)
    (hheap : ∀ v ∈ addresses, HeapAddress v) :
    (s.pageFrameAllocator.bitmap.clear.card < addresses.length ∧
        ∃ stop, s.accessHeap addresses = .error stop) ∨
      ∃ m frames pages,
        s.accessHeap addresses = .ok { s with mem := m, pageFrameAllocator := frames } ∧
        Filled s { s with mem := m, pageFrameAllocator := frames } pages ∧
        ∀ page, page ∈ pages ↔
          page ∈ addresses.map pageOf ∧ view s.mem s.current page = none := by
  induction addresses generalizing s with
  | nil => exact .inr ⟨s.mem, s.pageFrameAllocator, [], rfl, .refl h, by simp⟩
  | cons v addresses ih =>
    have hv := hheap v mem_cons_self
    have hrest := fun w hw => hheap w (mem_cons_of_mem v hw)
    have hstep : s.accessHeap (v :: addresses) = s.touch v >>= (accessHeap · addresses) := by
      rw [accessHeap, foldlM_cons]
      rfl
    rw [hstep, length_cons]
    simp only [map_cons, mem_cons]
    rcases h.touch hv with ⟨hpresent, htouch⟩ | ⟨hnone, ⟨hfull, stop, htouch⟩ |
      ⟨m₁, frames₁, htouch, hfirst, hcard₁⟩⟩
    · rw [htouch]
      rcases ih h hrest with ⟨hcard, hstop⟩ | ⟨m, frames, pages, hok, hfilled, hmem⟩
      · exact .inl ⟨by omega, hstop⟩
      · refine .inr ⟨m, frames, pages, hok, hfilled, fun page => ?_⟩
        rw [hmem, or_and_right]
        refine ⟨.inr, fun hcase => hcase.resolve_left ?_⟩
        rintro ⟨rfl, hempty⟩
        exact hpresent hempty
    · rw [htouch, hfull, Finset.card_empty]
      exact .inl ⟨succ_pos _, stop, rfl⟩
    · rw [htouch]
      rcases ih hfirst.ready hrest with ⟨hcard, hstop⟩ | ⟨m, frames, pages, hok, hfilled, hmem⟩
      · refine .inl ⟨?_, hstop⟩
        dsimp only at hcard
        omega
      · have hnew : pageOf v ∉ pages := by
          intro hpage
          exact hfirst.entered _ (mem_singleton_self _) ((hmem _).mp hpage).2
        refine .inr ⟨m, frames, pages ++ [pageOf v], hok,
          hfirst.append hfilled (by simpa using hnew), fun page => ?_⟩
        rw [mem_append, mem_singleton]
        by_cases hpage : page = pageOf v
        · simp [hpage, hnone]
        · have hsame := hfirst.others page (mt mem_singleton.mp hpage)
          simp only [hmem, hpage, hsame, false_or, or_false]

end Pages

end State

end HuyaOS.Management
