import HuyaOS.Kernel.Management
import HuyaOS.Util.HashMapRuns

/-!
The books of `IOMemoryManager`. The bitmap says which pages of the device area are in use,
and a map from pointers to numbers of pages says how many of them `free` has to give back.
Whatever has been allocated and freed, the two agree with each other and with the pointers
that are live.
-/

namespace HuyaOS

open Lib Paging List BitmapMemoryManager

namespace BitmapMemoryManager

variable {mgr mgr' : BitmapMemoryManager} {size ptr : Nat}

theorem alloc_region (hcall : mgr.alloc size = .ok (ptr, mgr')) :
    ∃ bitmap freeMemory, mgr' = { mgr with bitmap, freeMemory } := by
  unfold alloc at hcall
  split at hcall
  · cases hcall
    exact ⟨mgr.bitmap, mgr.freeMemory, rfl⟩
  · simp only at hcall
    split at hcall
    · split at hcall
      · cases hcall
      · cases hcall
      · cases hcall
        exact ⟨_, mgr.freeMemory, rfl⟩
    · cases hcall
      exact ⟨_, _, rfl⟩

theorem foldl_free (hv : mgr.Valid) {k n : Nat} (hrun : k + n ≤ mgr.bitmap.blocks) :
    (List.range n).foldl (fun mgr' i => mgr'.free (add32 (mgr.address k) (i * mgr.blockSize))) mgr =
      mgr.releaseRun k n := by
  induction n with
  | zero => rfl
  | succ n ih =>
    obtain ⟨_, _, hregion, hblocks⟩ := mgr.releaseRun_region k n
    have hlt : k + n < (mgr.releaseRun k n).bitmap.blocks := by
      rw [hregion, hblocks]
      exact hrun
    have haddress : (mgr.releaseRun k n).address (k + n) = mgr.address (k + n) := by
      rw [hregion]; rfl
    have hend : mgr.address (k + n) < 2 ^ 32 := (hv.address_lt hrun).trans hv.end_lt
    have hnext : add32 (mgr.address k) (n * mgr.blockSize) = mgr.address (k + n) := by
      unfold address at hend ⊢
      rw [Nat.add_mul, ← Nat.add_assoc] at hend ⊢
      exact add32_eq hend
    rw [range_succ, foldl_concat, ih (by omega), releaseRun_succ, hnext, ← haddress]
    exact free_address (hv.releaseRun k n) hlt

end BitmapMemoryManager

namespace Management.State

variable {s : State} {v ptr n : Nat}

theorem unmap_books (s : State) (v : Nat) :
    (s.unmap v).2.ioMemManager = s.ioMemManager ∧ (s.unmap v).2.ioMemoryMap = s.ioMemoryMap := by
  unfold unmap
  simp only
  split <;> exact ⟨rfl, rfl⟩

theorem foldl_freeIOPage_books (s : State) (ptr n : Nat) :
    ((List.range n).foldl (freeIOPage ptr) s).ioMemManager =
        (List.range n).foldl (fun mgr i => mgr.free (add32 ptr (i * PAGESIZE))) s.ioMemManager ∧
      ((List.range n).foldl (freeIOPage ptr) s).ioMemoryMap = s.ioMemoryMap := by
  induction n with
  | zero => exact ⟨rfl, rfl⟩
  | succ n ih =>
    rw [range_succ, foldl_append, foldl_append, ← ih.1, ← ih.2]
    exact unmap_books ..

end Management.State

namespace IOMemoryManager

open Management Management.State BitmapMemoryManager

/-- A kernel in which device memory is allocated and freed. A live allocation is a pointer that
`alloc` returned, with the requested size. -/
structure Session where
  state : State
  live : List (Nat × Nat)

/-- The pages of an allocation, counted from the beginning of the device area. -/
def pagesOf (allocation : Nat × Nat) : Finset Nat :=
  let first := (allocation.1 - VIRT_IO_START) / PAGESIZE
  Finset.Ico first (first + pageCount allocation.2)

/-- A null result is no allocation. -/
inductive Step : Session → BitmapMemoryManager.Op → Session → Prop
  | alloc {s : Session} {size ptr : Nat} {state' : State} (hpos : 0 < size) (hsize : size < 2 ^ 32)
      (hcall : s.state.allocIO size = .ok (ptr, state')) :
      Step s (.alloc size) ⟨state', if ptr = 0 then s.live else (ptr, size) :: s.live⟩
  | free {s : Session} {ptr size : Nat} {state' : State} (hlive : (ptr, size) ∈ s.live)
      (hcall : s.state.freeIO ptr = .ok state') :
      Step s (.free ptr) ⟨state', s.live.erase (ptr, size)⟩

/-- The map holds the number of pages of each live pointer and nothing else, the pages of the
live pointers are disjoint, and they are those whose bits are set. -/
structure Bookkept (s : Session) : Prop where
  counts : ∀ ptr n, s.state.ioMemoryMap.get id ptr = .ok n ↔
    ∃ size, (ptr, size) ∈ s.live ∧ n = pageCount size
  keys : ∀ ptr, s.state.ioMemoryMap.containsKey id ptr = true ↔ ∃ size, (ptr, size) ∈ s.live
  disjoint : s.live.Pairwise fun a b => Disjoint (pagesOf a) (pagesOf b)
  bits : ∀ i, s.state.ioMemManager.bitmap.isSet i = true ↔ ∃ a ∈ s.live, i ∈ pagesOf a

/-- The partial map from the live pointers to their numbers of pages. -/
def Counts (live : List (Nat × Nat)) (m : Nat → Option Nat) : Prop :=
  ∀ ptr n, m ptr = some n ↔ ∃ size, (ptr, size) ∈ live ∧ n = pageCount size

/-- What carries the books from step to step. -/
structure Tracked (s : Session) : Prop where
  tracked : BitmapMemoryManager.Tracked ⟨s.state.ioMemManager, s.live⟩
  start_eq : s.state.ioMemManager.memoryStartAddress = VIRT_IO_START
  blockSize_eq : s.state.ioMemManager.blockSize = PAGESIZE
  type_eq : s.state.ioMemManager.managerType = .MISC
  counted : ∃ m, HashMap.Represents (fun _ => True) id s.state.ioMemoryMap m ∧ Counts s.live m

section Steps

variable {s : Session} {ptr size : Nat} {state' : State} {live : List (Nat × Nat)}
  {m : Nat → Option Nat}

theorem pointerTest : KeyTest (fun _ : Nat => True) id :=
  KeyTest.of_equivBEq fun _ _ h => beq_iff_eq.mp h

theorem Tracked.blocksOf_eq (h : Tracked s) (a : Nat × Nat) :
    s.state.ioMemManager.blocksOf a = pagesOf a := by
  unfold blocksOf blockCount
  rw [h.start_eq, h.blockSize_eq]
  rfl

theorem Tracked.blockCount_eq (h : Tracked s) (size : Nat) :
    s.state.ioMemManager.blockCount size = pageCount size := by
  unfold blockCount
  rw [h.blockSize_eq]
  rfl

theorem Tracked.bookkept (h : Tracked s) : Bookkept s := by
  obtain ⟨m, hrep, hcounts⟩ := h.counted
  refine ⟨?_, ?_, ?_, ?_⟩
  · intro ptr n
    rw [hrep.get trivial, ← hcounts]
    cases m ptr with
    | none => simp
    | some count => simp
  · intro ptr
    rw [hrep.containsKey trivial, Option.isSome_iff_exists]
    constructor
    · rintro ⟨n, hn⟩
      obtain ⟨size, hlive, -⟩ := (hcounts ptr n).mp hn
      exact ⟨size, hlive⟩
    · rintro ⟨size, hlive⟩
      exact ⟨pageCount size, (hcounts ptr _).mpr ⟨size, hlive, rfl⟩⟩
  · have hdisjoint := h.tracked.disjoint
    simp only [h.blocksOf_eq] at hdisjoint
    exact hdisjoint
  · have hbits := h.tracked.bits
    simp only [h.blocksOf_eq] at hbits
    exact hbits

theorem initial_tracked {state : State} (hmanager : state.ioMemManager = IOMemoryManager.new)
    (hmap : state.ioMemoryMap = HashMap.new Nat Nat) : Tracked ⟨state, []⟩ where
  tracked := by
    rw [hmanager]
    exact BitmapMemoryManager.initial_tracked (by decide) (by decide) (by decide)
  start_eq := by rw [hmanager]; rfl
  blockSize_eq := by rw [hmanager]; rfl
  type_eq := by rw [hmanager]; rfl
  counted := by
    refine ⟨fun _ => none, ?_, ?_⟩
    · rw [hmap]
      exact HashMap.represents_ofSize _ _ _ (by decide)
    · intro ptr n
      simp

theorem Counts.cons (h : Counts live m) (hnew : ∀ a ∈ live, a.1 ≠ ptr) :
    Counts ((ptr, size) :: live) (PartialMap.insert m ptr (pageCount size)) := by
  intro ptr' n
  unfold PartialMap.insert
  by_cases heq : ptr' = ptr
  · subst heq
    rw [if_pos (beq_self_eq_true ptr')]
    constructor
    · rintro ⟨⟩
      exact ⟨size, mem_cons_self, rfl⟩
    · rintro ⟨size', hlive, rfl⟩
      rcases mem_cons.mp hlive with hfirst | hlive
      · rw [(Prod.mk.inj hfirst).2]
      · exact absurd rfl (hnew _ hlive)
  · rw [if_neg (by rwa [beq_iff_eq]), h ptr' n]
    simp [heq]

theorem Counts.erase (h : Counts live m)
    (hmem : ∀ a, a ∈ live ↔ a = (ptr, size) ∨ a ∈ live.erase (ptr, size))
    (hother : ∀ a ∈ live.erase (ptr, size), a.1 ≠ ptr) :
    Counts (live.erase (ptr, size)) (PartialMap.erase m ptr) := by
  intro ptr' n
  unfold PartialMap.erase
  by_cases heq : ptr' = ptr
  · subst heq
    rw [if_pos (beq_self_eq_true ptr')]
    constructor
    · rintro ⟨⟩
    · rintro ⟨size', hlive, -⟩
      exact absurd rfl (hother _ hlive)
  · rw [if_neg (by rwa [beq_iff_eq]), h ptr' n]
    simp only [hmem, Prod.mk.injEq, heq, false_and, false_or]

theorem Tracked.alloc (h : Tracked s) (hpos : 0 < size) (hsize : size < 2 ^ 32)
    (hcall : s.state.allocIO size = .ok (ptr, state')) :
    Tracked ⟨state', if ptr = 0 then s.live else (ptr, size) :: s.live⟩ := by
  obtain ⟨⟨ptr', mgr'⟩, halloc, hrest⟩ := bind_eq_ok.mp hcall
  have hsound : Sound ⟨s.state.ioMemManager, s.live⟩ (.alloc size) := by
    refine Or.inl ?_
    simp only [h.start_eq]
    decide
  obtain ⟨_, _, rfl⟩ := alloc_region halloc
  have htracked :=
    ((tracked_step h.tracked (.alloc hpos hsize halloc)).resolve_right fun hbad => hbad.1 hsound).2
  obtain ⟨m, hrep, hcounts⟩ := h.counted
  by_cases hnull : ptr' = 0
  · simp only [if_pos hnull] at hrest htracked
    cases hrest
    exact ⟨htracked, h.start_eq, h.blockSize_eq, h.type_eq, m, hrep, hcounts⟩
  · simp only [if_neg hnull] at hrest htracked
    cases hrest
    rw [if_neg hnull]
    refine ⟨htracked, h.start_eq, h.blockSize_eq, h.type_eq, _, hrep.put pointerTest trivial _,
      hcounts.cons ?_⟩
    intro a ha
    apply htracked.pointer_ne mem_cons_self
    rwa [erase_cons_head]

theorem Tracked.alloc_returns (h : Tracked s) (size : Nat) :
    ∃ ptr state', s.state.allocIO size = .ok (ptr, state') := by
  obtain ⟨ptr, mgr', halloc⟩ := BitmapMemoryManager.alloc_returns h.type_eq size
  by_cases hnull : ptr = 0
  · exact ⟨0, _, bind_eq_ok.mpr ⟨_, halloc, if_pos hnull⟩⟩
  · exact ⟨ptr, _, bind_eq_ok.mpr ⟨_, halloc, if_neg hnull⟩⟩

theorem Tracked.free_eq (h : Tracked s) (hlive : (ptr, size) ∈ s.live) :
    ∃ k state', ptr = s.state.ioMemManager.address k ∧ s.state.freeIO ptr = .ok state' ∧
      state'.ioMemManager = s.state.ioMemManager.releaseRun k (pageCount size) ∧
      ∃ m, HashMap.Represents (fun _ => True) id state'.ioMemoryMap m ∧
        Counts (s.live.erase (ptr, size)) m := by
  obtain ⟨hpos, k, hptr, hend⟩ := h.tracked.placed _ hlive
  obtain ⟨-, -, hmem⟩ := h.tracked.split hlive
  obtain ⟨m, hrep, hcounts⟩ := h.counted
  simp only [h.blockCount_eq] at hptr hend
  have hcount := blockCount_pos h.tracked.valid hpos
  simp only [h.blockCount_eq] at hcount
  have hinside :
      ¬(ptr < s.state.ioMemManager.memoryStartAddress ∨
        s.state.ioMemManager.memoryEndAddress ≤ ptr) := by
    have hlt := h.tracked.valid.address_lt
      (Nat.lt_of_lt_of_le (Nat.lt_add_of_pos_right hcount) hend)
    rw [← hptr] at hlt
    have hle : s.state.ioMemManager.memoryStartAddress ≤ ptr := hptr ▸ Nat.le_add_right _ _
    rintro (hbelow | habove)
    · exact absurd hle (not_le.mpr hbelow)
    · exact absurd hlt (not_lt.mpr habove)
  have hvalue : m ptr = some (pageCount size) := (hcounts ptr _).mpr ⟨size, hlive, rfl⟩
  have hget : s.state.ioMemoryMap.get id ptr = .ok (pageCount size) := by
    rw [hrep.get trivial, hvalue]
    rfl
  obtain ⟨map', hremove, hrep'⟩ := hrep.remove_of_some pointerTest trivial hvalue
  obtain ⟨hmanager, hmap⟩ := foldl_freeIOPage_books s.state ptr (pageCount size)
  have hloop := foldl_free h.tracked.valid hend
  rw [h.blockSize_eq, ← hptr] at hloop
  refine ⟨k, { (range (pageCount size)).foldl (freeIOPage ptr) s.state with ioMemoryMap := map' },
    hptr, ?_,
    hmanager.trans hloop, _, hrep', hcounts.erase hmem fun a ha => h.tracked.pointer_ne hlive ha⟩
  unfold freeIO
  rw [if_neg hinside]
  refine bind_eq_ok.mpr ⟨_, hget, ?_⟩
  simp only [hmap]
  exact bind_eq_ok.mpr ⟨_, hremove, rfl⟩

theorem Tracked.free (h : Tracked s) (hlive : (ptr, size) ∈ s.live)
    (hcall : s.state.freeIO ptr = .ok state') :
    Tracked ⟨state', s.live.erase (ptr, size)⟩ := by
  obtain ⟨k, state'', rfl, hcall', hmanager, hcounted⟩ := h.free_eq hlive
  obtain rfl : state' = state'' := Except.ok.inj (hcall.symm.trans hcall')
  have htracked := h.tracked.releaseRun hlive
  obtain ⟨_, _, hregion, -⟩ := s.state.ioMemManager.releaseRun_region k (pageCount size)
  simp only [h.blockCount_eq, ← hmanager] at htracked
  rw [hregion] at hmanager
  refine ⟨htracked, ?_, ?_, ?_, hcounted⟩
  · simp only [hmanager, h.start_eq]
  · simp only [hmanager, h.blockSize_eq]
  · simp only [hmanager, h.type_eq]

theorem Tracked.step {op : BitmapMemoryManager.Op} {s' : Session} (h : Tracked s)
    (hstep : Step s op s') : Tracked s' := by
  cases hstep with
  | alloc hpos hsize hcall => exact h.alloc hpos hsize hcall
  | free hlive hcall => exact h.free hlive hcall

end Steps

/-- After every run of allocations and of frees of live pointers the books are right. Another
allocation returns, and so does another free, which clears the bits of the pages of its pointer
and no others. -/
theorem bookkept_of_run {state : State} (hmanager : state.ioMemManager = IOMemoryManager.new)
    (hmap : state.ioMemoryMap = HashMap.new Nat Nat) {ops : List BitmapMemoryManager.Op}
    {s : Session} (hrun : Run Step ⟨state, []⟩ ops s) :
    Bookkept s ∧ (∀ size, ∃ ptr state', s.state.allocIO size = .ok (ptr, state')) ∧
      ∀ ptr size, (ptr, size) ∈ s.live → ∃ state', s.state.freeIO ptr = .ok state' ∧
        ∀ i, state'.ioMemManager.bitmap.isSet i = true ↔
          s.state.ioMemManager.bitmap.isSet i = true ∧ i ∉ pagesOf (ptr, size) := by
  have h : Tracked s :=
    hrun.invariant (fun _ _ _ h hstep => h.step hstep) (initial_tracked hmanager hmap)
  refine ⟨h.bookkept, h.alloc_returns, ?_⟩
  intro ptr size hlive
  obtain ⟨k, state', hptr, hcall, hreleased, -⟩ := h.free_eq hlive
  refine ⟨state', hcall, ?_⟩
  intro i
  have hpages : i ∈ pagesOf (ptr, size) ↔ k ≤ i ∧ i < k + pageCount size := by
    rw [← h.blocksOf_eq, hptr, blocksOf_address h.tracked.valid, h.blockCount_eq, Finset.mem_Ico]
  rw [hreleased, isSet_releaseRun, Bool.and_eq_true, decide_eq_true_iff, hpages]

/-- The first allocation after booting. -/
theorem bookkept_of_run_first :
    ∃ s, Run Step ⟨boot (fun _ => 0) 0x1000000 0x8000000, []⟩ [.alloc 5000] s ∧ Bookkept s := by
  have hnone : Run Step ⟨boot (fun _ => 0) 0x1000000 0x8000000, []⟩ [] _ := .done _
  obtain ⟨-, hreturns, -⟩ := bookkept_of_run rfl rfl hnone
  obtain ⟨ptr, state', hcall⟩ := hreturns 5000
  have hrun : Run Step ⟨boot (fun _ => 0) 0x1000000 0x8000000, []⟩ [.alloc 5000]
      ⟨state', if ptr = 0 then [] else [(ptr, 5000)]⟩ :=
    .next (.alloc (by decide) (by decide) hcall) (.done _)
  exact ⟨_, hrun, (bookkept_of_run rfl rfl hrun).1⟩

end IOMemoryManager

end HuyaOS
