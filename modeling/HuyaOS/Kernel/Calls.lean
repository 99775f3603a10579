import HuyaOS.Kernel.Ownership

/-!
The calls of `Management` preserve the invariant. While a table is being
created, the bitmaps and the entries only grow, and a frame that the caller has
already taken for its own page stays loose.
-/

namespace HuyaOS.Management.State

open Lib Paging PageDirectory Finset

/-- What a call that takes pages and frames leaves alone. -/
structure Grown (s s' : State) : Prop where
  all_eq : s'.all = s.all
  arrays : ∀ dir ∈ s.all, ∀ i < 1024, dirEntry s'.mem dir i = dirEntry s.mem dir i ∧
    tableAddress s'.mem dir i = tableAddress s.mem dir i
  bits : ∀ k, s.pagingAreaManager.bitmap.isSet k = true → s'.pagingAreaManager.bitmap.isSet k = true
  blocks : s'.pageFrameAllocator.bitmap.blocks = s.pageFrameAllocator.bitmap.blocks
  frames : ∀ e frame, s.frameOf e = some frame → s'.frameOf e = some frame
  loose : ∀ frame, Loose s.frameOf s.pageFrameAllocator.freeAddresses frame →
    Loose s'.frameOf s'.pageFrameAllocator.freeAddresses frame

section Calls

variable {P : Entry → Prop} {s s' s'' : State} {dir : PageDirectory} {v k idx flags : Nat}

theorem Grown.refl (s : State) : Grown s s :=
  ⟨rfl, fun _ _ _ _ => ⟨rfl, rfl⟩, fun _ h => h, rfl, fun _ _ h => h, fun _ h => h⟩

theorem Grown.trans (h : Grown s s') (h' : Grown s' s'') : Grown s s'' where
  all_eq := h'.all_eq.trans h.all_eq
  arrays dir hdir i hi := by
    obtain ⟨hentry, haddress⟩ := h.arrays dir hdir i hi
    obtain ⟨hentry', haddress'⟩ := h'.arrays dir (h.all_eq ▸ hdir) i hi
    exact ⟨hentry'.trans hentry, haddress'.trans haddress⟩
  bits k hk := h'.bits k (h.bits k hk)
  blocks := h'.blocks.trans h.blocks
  frames e frame he := h'.frames e frame (h.frames e frame he)
  loose frame hl := h'.loose frame (h.loose frame hl)

theorem present_iff (h : Placed s) (hdir : dir ∈ s.all) (hv : v < 2 ^ 32)
    (htable : HasTable s.mem dir (GET_PD_IDX v)) :
    tableEntry s.mem dir v &&& PAGE_PRESENT = 0 ↔ s.frameOf (entryOf dir (pageOf v)) = none := by
  unfold frameOf
  rw [← h.shared.view_eq_lookup hdir, view_pageOf hv, if_pos htable, Option.map_eq_none_iff]
  constructor
  · exact decode_of_absent
  · intro hnone
    by_contra hpresent
    rw [decode_of_present hpresent] at hnone
    cases hnone

theorem pageFault_spec (h : Kept P s) (hv : v < 2 ^ 32) (hkernel : kernelPage ≤ pageOf v)
    (hempty : s.frameOf (.kernel (pageOf v)) = none) (hcall : s.pageFault v = .ok s') :
    ∃ m frames, s' = { s with mem := m, pageFrameAllocator := frames } ∧ Kept P s' ∧ Grown s s' ∧
      (s'.frameOf (.kernel (pageOf v))).isSome ∧
      ∃ j, s.pageFrameAllocator.bitmap.clear ⊆ insert j s'.pageFrameAllocator.bitmap.clear := by
  obtain ⟨⟨physAddress, frames⟩, halloc, hrest⟩ := bind_eq_ok.mp hcall
  obtain ⟨k, hk, hphys, rfl⟩ := h.frames.alloc halloc
  obtain ⟨hkept, hpos, hblocks, hloose⟩ := h.claimFrame hk
  have htable := h.hasTable hv hkernel
  have hentry : entryOf s.current (pageOf v) = .kernel (pageOf v) := entryOf_kernel hkernel
  have habsent : tableEntry s.mem s.current v &&& PAGE_PRESENT = 0 := by
    rw [present_iff h.toPlaced h.current hv htable, hentry]
    exact hempty
  simp only [htable, if_true, enterPage, habsent, ne_eq, not_true_eq_false, if_false,
    Except.ok.injEq] at hrest
  rw [hphys, Nat.zero_add] at hrest
  have hbound := hkept.frames.lt hblocks
  have hframe := frameOf_setTableEntry hkept.toPlaced h.current hv htable
    (k * PAGESIZE ||| (PAGE_PRESENT ||| PAGE_READ_WRITE))
  rw [frame_decode_or hbound (by decide), hentry] at hframe
  have hflags : PAGE_PRESENT ||| PAGE_READ_WRITE < 2 ^ 12 := by decide
  have hold :=
    hkept.hold h.current hv htable (by rw [hentry]; exact hempty) hflags hpos hblocks hloose
  subst hrest
  refine ⟨_, _, rfl, hold, ⟨rfl, ?_, fun _ hset => hset, ?_, ?_, ?_⟩, ?_, k, clear_subset_claim _ k⟩
  · exact h.shared.setTableEntry_arrays h.current hv htable _
  · exact Bitmap.blocks_setRange
  · intro e frame he
    rw [hframe, Function.update_of_ne]
    · exact he
    · rintro rfl
      rw [hempty] at he
      cases he
  · intro frame hl
    rw [hframe]
    have hmem : k * PAGESIZE ∈ s.pageFrameAllocator.freeAddresses :=
      ⟨k, hk, by rw [h.frames.address_eq, Nat.zero_add]⟩
    have hsub : (s.pageFrameAllocator.claim k 1).freeAddresses ⊆
        s.pageFrameAllocator.freeAddresses := by
      rw [BitmapMemoryManager.freeAddresses_claim h.frames.valid]
      exact Set.sdiff_subset
    apply Loose.hold (hl.mono (fun _ he => he) hsub)
    rintro rfl
    exact hl.not_free hmem
  · rw [hframe, Function.update_self]
    rfl

theorem touch_spec (h : Kept P s) (hv : v < 2 ^ 32) (hkernel : kernelPage ≤ pageOf v)
    (hcall : s.touch v = .ok s') :
    ∃ m frames, s' = { s with mem := m, pageFrameAllocator := frames } ∧ Kept P s' ∧ Grown s s' ∧
      (s'.frameOf (.kernel (pageOf v))).isSome ∧
      ∃ j, s.pageFrameAllocator.bitmap.clear ⊆ insert j s'.pageFrameAllocator.bitmap.clear := by
  have htable := h.hasTable hv hkernel
  have hpresent := present_iff h.toPlaced h.current hv htable
  rw [entryOf_kernel hkernel] at hpresent
  by_cases hmapped : s.Mapped v
  · rw [touch, if_pos hmapped] at hcall
    cases hcall
    refine ⟨s.mem, s.pageFrameAllocator, rfl, h, Grown.refl s, ?_, 0, subset_insert _ _⟩
    rw [Option.isSome_iff_ne_none]
    exact hpresent.not.mp hmapped.2
  · rw [touch, if_neg hmapped] at hcall
    apply pageFault_spec h hv hkernel _ hcall
    by_contra hsome
    exact hmapped ⟨htable, hpresent.not.mpr hsome⟩

theorem Grown.taken (h : Grown s s') (htaken : s.Taken k)
    (hsystem : s'.toSystem = { s.toSystem with mem := s'.mem }) : s'.Taken k where
  late := htaken.late
  isSet := h.bits k htaken.isSet
  free := by
    rw [hsystem]
    intro a huse
    obtain ⟨huse', hloc⟩ := System.pages_of_arrays h.arrays huse
    rw [hloc]
    exact htaken.free a huse'
  backed := by
    obtain ⟨frame, hframe⟩ := Option.isSome_iff_exists.mp htaken.backed
    rw [h.frames _ _ hframe]
    rfl

theorem allocPageTable_spec (h : Kept P s) (hcall : s.allocPageTable = .ok (v, s')) :
    ∃ k m frames area, v = areaPage k ∧ k ∈ s.pagingAreaManager.bitmap.clear ∧
      s' = { s with mem := m, pageFrameAllocator := frames, pagingAreaManager := area } ∧
      Kept P s' ∧ Grown s s' ∧ s'.Taken k ∧
      s.pagingAreaManager.bitmap.clear ⊆ insert k area.bitmap.clear ∧
      ∃ j, s.pageFrameAllocator.bitmap.clear ⊆ insert j frames.bitmap.clear := by
  obtain ⟨⟨virtAddress, area⟩, halloc, hrest⟩ := bind_eq_ok.mp hcall
  obtain ⟨s₁, htouch, hresult⟩ := bind_eq_ok.mp hrest
  obtain ⟨k, hk, hvirt, rfl⟩ := h.area.alloc halloc
  obtain rfl : virtAddress = areaPage k := hvirt
  have hlt := areaPage_lt h.toPlaced (Bitmap.mem_clear.mp hk).1
  obtain ⟨m, frames, hs₁, hkept, hgrown, hbacked, hframes⟩ := touch_spec (h.claimArea k) hlt
    (kernelPage_le_areaPage k) htouch
  -- the page is not in use, so clearing it changes nothing else
  have hfree : s₁.Free (areaPage k) := by
    intro a huse
    subst hs₁
    obtain ⟨huse', hloc⟩ := System.pages_of_arrays hgrown.arrays huse
    rw [hloc]
    exact h.free_of_clear hk a huse'
  obtain ⟨hkept', hframe⟩ := hkept.of_keeps hfree.keeps_clear
  have hclear : Grown s₁ { s₁ with mem := clear s₁.mem (areaPage k) PAGESIZE } := by
    refine ⟨rfl, hfree.keeps_clear.arrays, fun _ hset => hset, rfl, ?_, ?_⟩
    · rw [hframe]
      exact fun _ _ he => he
    · rw [hframe]
      exact fun _ hl => hl
  have harea : Grown s { s with pagingAreaManager := s.pagingAreaManager.claim k 1 } :=
    ⟨rfl, fun _ _ _ _ => ⟨rfl, rfl⟩, fun _ hset => isSet_claim_of_isSet hset, rfl, fun _ _ he => he,
      fun _ hl => hl⟩
  have htaken : s₁.Taken k :=
    ⟨h.le_of_clear hk, hgrown.bits k (isSet_claim_self hk), hfree, hbacked⟩
  cases hresult
  refine ⟨k, clear s₁.mem (areaPage k) PAGESIZE, s₁.pageFrameAllocator,
    s₁.pagingAreaManager, rfl, hk,
    ?_, hkept', (harea.trans hgrown).trans hclear, hclear.taken htaken rfl, ?_, hframes⟩
  · subst hs₁
    rfl
  · subst hs₁
    exact clear_subset_claim _ k

theorem Taken.mapped (htaken : s.Taken k) (h : Placed s) : s.Mapped (areaPage k) := by
  have hlt := areaPage_lt h (Bitmap.lt_of_isSet htaken.isSet)
  have htable := h.hasTable hlt (kernelPage_le_areaPage k)
  refine ⟨htable, (present_iff h h.current hlt htable).not.mpr ?_⟩
  rw [entryOf_kernel (kernelPage_le_areaPage k)]
  exact Option.isSome_iff_ne_none.mp htaken.backed

theorem touch_returns (h : Kept P s) (hv : v < 2 ^ 32) (hkernel : kernelPage ≤ pageOf v) {j : Nat}
    (hj : j ∈ s.pageFrameAllocator.bitmap.clear) : ∃ s', s.touch v = .ok s' := by
  by_cases hmapped : s.Mapped v
  · exact ⟨s, if_pos hmapped⟩
  · have htable := h.hasTable hv hkernel
    obtain ⟨ptr, frames, halloc⟩ := h.frames.alloc_returns hj
    refine ⟨{ s with
      mem := setTableEntry s.mem s.current v (ptr ||| (PAGE_PRESENT ||| PAGE_READ_WRITE))
      pageFrameAllocator := frames }, ?_⟩
    rw [touch, if_neg hmapped]
    apply bind_eq_ok.mpr
    refine ⟨(ptr, frames), halloc, ?_⟩
    have habsent : ¬tableEntry s.mem s.current v &&& PAGE_PRESENT ≠ 0 :=
      fun hpresent => hmapped ⟨htable, hpresent⟩
    simp only [htable, if_true, enterPage, habsent, if_false]

theorem allocPageTable_returns (h : Kept P s) {j : Nat} (hk : k ∈ s.pagingAreaManager.bitmap.clear)
    (hj : j ∈ s.pageFrameAllocator.bitmap.clear) : ∃ v s', s.allocPageTable = .ok (v, s') := by
  obtain ⟨v, area, halloc⟩ := h.area.alloc_returns hk
  obtain ⟨k', hk', rfl, rfl⟩ := h.area.alloc halloc
  obtain ⟨s₁, htouch⟩ := touch_returns (h.claimArea k')
    (areaPage_lt h.toPlaced (Bitmap.mem_clear.mp hk').1) (kernelPage_le_areaPage k') hj
  exact ⟨areaPage k', _, bind_eq_ok.mpr ⟨_, halloc, bind_eq_ok.mpr ⟨s₁, htouch, rfl⟩⟩⟩

theorem allocPageTable_zero (hcall : s.allocPageTable = .ok (v, s')) :
    clear s'.mem v PAGESIZE = s'.mem := by
  obtain ⟨⟨virtAddress, area⟩, _, hrest⟩ := bind_eq_ok.mp hcall
  obtain ⟨s₁, _, hresult⟩ := bind_eq_ok.mp hrest
  cases hresult
  exact clear_clear _ _ _

theorem createPageTable_spec (h : Kept P s) (hdir : dir ∈ s.all) (hidx : idx < kernelIndex)
    (hcall : s.createPageTable dir idx = .ok s') :
    ∃ m frames area,
      s' = { s with mem := m, pageFrameAllocator := frames, pagingAreaManager := area } ∧
      Kept P s' ∧ HasTable s'.mem dir idx ∧ (∀ e, e.InTable dir idx → s'.frameOf e = none) ∧
      frames.bitmap.blocks = s.pageFrameAllocator.bitmap.blocks ∧
      ∀ frame, Loose s.frameOf s.pageFrameAllocator.freeAddresses frame →
        Loose s'.frameOf frames.freeAddresses frame := by
  obtain ⟨⟨virtAddress, s₁⟩, halloc, hresult⟩ := bind_eq_ok.mp hcall
  obtain ⟨k, m, frames, area, rfl, _, hs₁, hkept, hgrown, htaken, _⟩ := allocPageTable_spec h halloc
  have hdir' : dir ∈ s₁.all := hgrown.all_eq ▸ hdir
  obtain ⟨hkept', hframe⟩ :=
    hkept.newTable hdir' hidx htaken (getPhysicalAddress s₁.mem s₁.current (areaPage k))
  -- the page is zero already
  have hzero : clear s₁.mem (areaPage k) PAGESIZE = s₁.mem := allocPageTable_zero halloc
  have hmem : PageDirectory.createPageTable s₁.mem dir idx
      ⟨areaPage k, getPhysicalAddress s₁.mem s₁.current (areaPage k)⟩ =
        createTable s₁.mem dir idx (getPhysicalAddress s₁.mem s₁.current (areaPage k))
          (areaPage k) := by
    unfold PageDirectory.createPageTable
    rw [hzero]
  have htable : HasTable (PageDirectory.createPageTable s₁.mem dir idx
      ⟨areaPage k, getPhysicalAddress s₁.mem s₁.current (areaPage k)⟩) dir idx :=
    (hasTable_createPageTable (hkept.shared.separated hdir').arrays
      (hkept.shared.unused hdir' htaken.free) (lt_of_lt_kernelIndex hidx)
      (lt_of_lt_kernelIndex hidx)).mpr (.inl rfl)
  rw [hmem] at hkept' hframe htable
  cases hresult
  refine ⟨createTable s₁.mem dir idx (getPhysicalAddress s₁.mem s₁.current (areaPage k))
    (areaPage k),
    s₁.pageFrameAllocator, s₁.pagingAreaManager, ?_, hkept', htable, ?_, hgrown.blocks, ?_⟩
  · subst hs₁
    rfl
  · intro e he
    rw [hframe]
    exact if_pos he
  · intro frame hl
    rw [hframe]
    apply Loose.mono (hgrown.loose frame hl) _ (subset_refl _)
    intro e he
    split at he
    · cases he
    · exact he

theorem enterPage_spec (h : Kept P s) (hdir : dir ∈ s.all) (hv : v < 2 ^ 32)
    (htable : HasTable s.mem dir (GET_PD_IDX v)) (hflags : flags < 2 ^ 12) (hpos : 0 < k)
    (hk : k < s.pageFrameAllocator.bitmap.blocks)
    (hloose : Loose s.frameOf s.pageFrameAllocator.freeAddresses (k * PAGESIZE))
    (hcall : s.enterPage dir (k * PAGESIZE) v flags = .ok s') : Kept P s' := by
  unfold enterPage at hcall
  split at hcall
  · cases hcall
  · rename_i habsent
    cases hcall
    apply h.hold hdir hv htable _ hflags hpos hk hloose
    exact (present_iff h.toPlaced hdir hv htable).mp (not_not.mp habsent)

theorem map_spec (h : Kept P s) (hv : v < 2 ^ 32) (hflags : flags < 2 ^ 12)
    (hcall : s.map v flags = .ok s') : Kept P s' := by
  obtain ⟨⟨physAddress, frames⟩, halloc, hrest⟩ := bind_eq_ok.mp hcall
  obtain ⟨k, hk, hphys, rfl⟩ := h.frames.alloc halloc
  obtain ⟨hkept, hpos, hblocks, hloose⟩ := h.claimFrame hk
  simp only [mapTo, hphys, Nat.zero_add] at hrest
  by_cases htable : HasTable s.mem s.current (GET_PD_IDX v)
  · rw [if_neg htable] at hrest
    obtain ⟨s₁, hsame, henter⟩ := bind_eq_ok.mp hrest
    cases hsame
    exact enterPage_spec hkept h.current hv htable hflags hpos hblocks hloose henter
  · rw [if_pos (not_not.mp htable)] at hrest
    obtain ⟨s₁, hcreate, henter⟩ := bind_eq_ok.mp hrest
    -- only user tables can be missing
    have hidx : GET_PD_IDX v < kernelIndex := by
      by_contra hkernel
      exact htable (h.hasTable hv (kernelIndex_le_iff.mp (by omega)))
    obtain ⟨m, frames, area, rfl, hkept₁, htable₁, _, hblocks₁, hloose₁⟩ :=
      createPageTable_spec hkept h.current hidx hcreate
    exact enterPage_spec hkept₁ h.current hv htable₁ hflags hpos (hblocks₁ ▸ hblocks)
      (hloose₁ _ hloose) henter

/-- What `unmap` does: it finds nothing that it may remove, or it empties the
entry and gives the frame back, unless this is frame zero. -/
theorem unmap_cases (h : Placed s) (hv : v < 2 ^ 32) :
    s.unmap v = (0, s) ∨ ∃ frame, HasTable s.mem s.current (GET_PD_IDX v) ∧
      s.frameOf (entryOf s.current (pageOf v)) = some frame ∧
      s.unmap v = (frame, { s with
        mem := setTableEntry s.mem s.current v 0
        pageFrameAllocator := if frame = 0 then s.pageFrameAllocator
          else s.pageFrameAllocator.free frame }) := by
  rcases PageDirectory.unmap_cases s.mem s.current v with heq | ⟨htable, hpresent, heq⟩
  · refine .inl ?_
    unfold unmap
    simp only [heq, if_true]
  · refine .inr ⟨tableEntry s.mem s.current v &&& 0xFFFFF000, htable, ?_, ?_⟩
    · unfold frameOf
      rw [← h.shared.view_eq_lookup h.current, view_pageOf hv, if_pos htable,
        decode_of_present hpresent]
      rfl
    · unfold unmap
      simp only [heq]
      split
      · rename_i hzero
        rw [hzero]
      · rfl

theorem unmap_spec (h : Kept P s) (hv : v < 2 ^ 32)
    (hunused : ∀ a, s.InUse a → pageOf (s.location a) ≠ pageOf v) :
    Kept P (s.unmap v).2 := by
  rcases unmap_cases h.toPlaced hv with hnone | ⟨frame, htable, hframe, heq⟩
  · rw [hnone]
    exact h
  · rw [heq]
    exact h.forget h.current hv htable hframe hunused

theorem createAddressSpace_spec (h : Kept P s) (hcall : s.createAddressSpace = .ok (dir, s')) :
    Kept P s' ∧ dir ∈ s'.processes ∧ s'.current ≠ dir ∧ ∀ idx < kernelIndex,
      ¬HasTable s'.mem dir idx := by
  obtain ⟨⟨pageDirectory, s₁⟩, halloc, hrest⟩ := bind_eq_ok.mp hcall
  obtain ⟨⟨virtTableAddresses, s₂⟩, halloc', hresult⟩ := bind_eq_ok.mp hrest
  obtain ⟨k, m, frames, area, rfl, _, _, hkept, _, htaken, _⟩ := allocPageTable_spec h halloc
  obtain ⟨k', m', frames', area', rfl, hk', hs₂, hkept', hgrown', htaken', _⟩ :=
    allocPageTable_spec hkept halloc'
  have hne : k ≠ k' := by
    rintro rfl
    have hset := htaken.isSet
    rw [(Bitmap.mem_clear.mp hk').2] at hset
    cases hset
  have hboth : s₂.Taken k := hgrown'.taken htaken (by rw [hs₂])
  simp only at hresult
  cases hprocess : process s₂.mem s₂.base s₂.current (areaPage k) (areaPage k') with
  | none =>
    rw [hprocess] at hresult
    cases hresult
  | some result =>
    rw [hprocess] at hresult
    cases hresult
    have hapart := apart_areaPage hne
    have hnew := process_notMem hboth.free htaken'.free hapart hprocess
    obtain ⟨_, _, hentries, _⟩ := process_spec hprocess (hboth.free.fresh htaken'.free hapart)
    refine ⟨hkept'.process hboth htaken' hne hprocess, List.mem_cons_self,
      fun heq => hnew (heq ▸ hkept'.current), ?_⟩
    intro idx hidx htable
    unfold HasTable at htable
    rw [hentries idx (lt_of_lt_kernelIndex hidx), if_neg (by omega)] at htable
    exact htable rfl

theorem createAddressSpace_returns (h : Kept P s) {k k' j j' : Nat} (hne : k ≠ k') (hne' : j ≠ j')
    (hk : {k, k'} ⊆ s.pagingAreaManager.bitmap.clear)
    (hj : {j, j'} ⊆ s.pageFrameAllocator.bitmap.clear) :
    ∃ dir s', s.createAddressSpace = .ok (dir, s') := by
  -- taking one of two elements leaves the other
  have hrest : ∀ {x x' y : Nat} {set set' : Finset Nat}, x ≠ x' → {x, x'} ⊆ set →
      set ⊆ insert y set' → ∃ z, z ∈ set' := by
    intro x x' y set set' hx hin hsub
    have hx₁ := mem_insert.mp (hsub (hin (mem_insert_self x {x'})))
    have hx₂ := mem_insert.mp (hsub (hin (mem_insert_of_mem (mem_singleton_self x'))))
    rcases hx₁ with rfl | hmem
    · exact ⟨x', hx₂.resolve_left (Ne.symm hx)⟩
    · exact ⟨x, hmem⟩
  obtain ⟨v, s₁, halloc⟩ := allocPageTable_returns h (hk (mem_insert_self k {k'}))
    (hj (mem_insert_self j {j'}))
  obtain ⟨i, m, frames, area, rfl, _, rfl, hkept, _, _, harea, y, hframes⟩ :=
    allocPageTable_spec h halloc
  obtain ⟨z, hz⟩ := hrest hne hk harea
  obtain ⟨w, hw⟩ := hrest hne' hj hframes
  obtain ⟨v', s₂, halloc'⟩ := allocPageTable_returns hkept hz hw
  obtain ⟨i', _, _, _, rfl, _, _, _, _, _, _⟩ := allocPageTable_spec hkept halloc'
  have hnull : ¬(areaPage i = 0 ∨ areaPage i' = 0) := by
    simp only [areaPage, VIRT_PAGE_MEM_START, KERNEL_START]
    omega
  obtain ⟨⟨dir, mem⟩, hprocess⟩ : ∃ result,
    process s₂.mem s₂.base s₂.current (areaPage i) (areaPage i') = some result := ⟨_, if_neg hnull⟩
  refine ⟨dir, { s₂ with mem, processes := dir :: s₂.processes },
    bind_eq_ok.mpr ⟨_, halloc, bind_eq_ok.mpr ⟨_, halloc', ?_⟩⟩⟩
  simp only [hprocess]
  rfl

theorem switchAddressSpace_spec (h : Kept P s) (hdir : dir ∈ s.all) :
    Kept P (s.switchAddressSpace dir) :=
  ⟨⟨h.shared, hdir, h.area, h.reserved, h.pages, h.absent⟩, h.frames, h.zero,
    h.exclusive, h.allocated, h.positive, h.backed⟩

end Calls

end HuyaOS.Management.State
