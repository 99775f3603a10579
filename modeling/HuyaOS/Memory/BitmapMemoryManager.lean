import HuyaOS.Cpu
import HuyaOS.Lib.Transition
import HuyaOS.Lib.Word
import HuyaOS.Util.Bitmap

/-!
`BitmapMemoryManager`, which hands out runs of equally sized blocks of a region
and keeps a bit for each block. `free` is given a pointer only; it cannot know
how many blocks were allocated together and releases the first one.

The memory that `alloc` fills with zeros for page tables is left to
`Management`, because touching it may raise a page fault.
-/

namespace HuyaOS

open Lib Bitmap Finset Nat

inductive ManagerType
  | PAGE_FRAME_ALLOCATOR
  | PAGING_AREA_MANAGER
  | MISC
  deriving DecidableEq, Repr

structure BitmapMemoryManager where
  memoryStartAddress : Nat
  memoryEndAddress : Nat
  freeMemory : Nat
  managerType : ManagerType
  bitmap : Bitmap
  blockSize : Nat

namespace BitmapMemoryManager

def init (managerType : ManagerType) (blockSize memoryStartAddress memoryEndAddress : Nat) :
    BitmapMemoryManager :=
  let bitmap := Bitmap.new (sub32 memoryEndAddress memoryStartAddress / blockSize)
  { memoryStartAddress, memoryEndAddress, managerType, bitmap, blockSize
    freeMemory := bitmap.blocks * blockSize % 2 ^ 32 }

variable (mgr : BitmapMemoryManager)

def blockCount (size : Nat) : Nat :=
  size / mgr.blockSize + if size % mgr.blockSize = 0 then 0 else 1

/-- `alloc`. Zero is the null pointer. -/
def alloc (size : Nat) : Except Cpu.Stop (Nat × BitmapMemoryManager) :=
  if size = 0 then .ok (0, mgr)
  else
    let (block, bitmap) := mgr.bitmap.findAndSet (mgr.blockCount size)
    if block = mgr.bitmap.blocks then
      match mgr.managerType with
      | .PAGING_AREA_MANAGER => .error (.throwException .OUT_OF_PAGE_MEMORY)
      | .PAGE_FRAME_ALLOCATOR => .error (.throwException .OUT_OF_PHYS_MEMORY)
      | .MISC => .ok (0, { mgr with bitmap })
    else
      .ok (add32 mgr.memoryStartAddress (block * mgr.blockSize % 2 ^ 32),
        { mgr with
          bitmap
          freeMemory := sub32 mgr.freeMemory (mgr.blockSize * mgr.blockCount size % 2 ^ 32) })

def free (ptr : Nat) : BitmapMemoryManager :=
  let address := sub32 ptr mgr.memoryStartAddress
  if ptr < mgr.memoryStartAddress ∨ mgr.memoryEndAddress ≤ ptr then mgr
  else
    { mgr with
      bitmap := mgr.bitmap.unset (address / mgr.blockSize)
      freeMemory := add32 mgr.freeMemory mgr.blockSize }

/-- The blocks lie in the region, and the region in the address space. -/
structure Valid (mgr : BitmapMemoryManager) : Prop where
  blockSize_pos : 0 < mgr.blockSize
  start_le : mgr.memoryStartAddress ≤ mgr.memoryEndAddress
  end_lt : mgr.memoryEndAddress < 2 ^ 32
  blocks_le : mgr.bitmap.blocks * mgr.blockSize ≤ mgr.memoryEndAddress - mgr.memoryStartAddress

/-- Where a block begins. -/
def address (block : Nat) : Nat :=
  mgr.memoryStartAddress + block * mgr.blockSize

def claim (k n : Nat) : BitmapMemoryManager :=
  { mgr with
    bitmap := mgr.bitmap.setRange k n
    freeMemory := sub32 mgr.freeMemory (mgr.blockSize * n % 2 ^ 32) }

def release (k : Nat) : BitmapMemoryManager :=
  { mgr with
    bitmap := mgr.bitmap.unset k
    freeMemory := add32 mgr.freeMemory mgr.blockSize }

def releaseRun (k n : Nat) : BitmapMemoryManager :=
  (List.range n).foldl (fun mgr i => mgr.release (k + i)) mgr

variable {mgr} {mgr' : BitmapMemoryManager} {size k n ptr : Nat}

theorem init_valid {managerType : ManagerType} {blockSize start stop : Nat}
    (hblock : 0 < blockSize) (hle : start ≤ stop) (hstop : stop < 2 ^ 32) :
    (init managerType blockSize start stop).Valid where
  blockSize_pos := hblock
  start_le := hle
  end_lt := hstop
  blocks_le := by
    simp only [init, blocks_new, sub32_eq hle hstop]
    exact div_mul_le_self _ _

theorem Valid.claim (hv : mgr.Valid) (k n : Nat) : (mgr.claim k n).Valid where
  blockSize_pos := hv.blockSize_pos
  start_le := hv.start_le
  end_lt := hv.end_lt
  blocks_le := by
    simp only [BitmapMemoryManager.claim, blocks_setRange]
    exact hv.blocks_le

theorem Valid.release (hv : mgr.Valid) (k : Nat) : (mgr.release k).Valid where
  blockSize_pos := hv.blockSize_pos
  start_le := hv.start_le
  end_lt := hv.end_lt
  blocks_le := by
    simp only [BitmapMemoryManager.release, blocks_unset]
    exact hv.blocks_le

theorem releaseRun_succ (mgr : BitmapMemoryManager) (k n : Nat) :
    mgr.releaseRun k (n + 1) = (mgr.releaseRun k n).release (k + n) := by
  unfold releaseRun
  rw [List.range_succ, List.foldl_concat]

theorem releaseRun_region (mgr : BitmapMemoryManager) (k n : Nat) :
    ∃ bitmap freeMemory, mgr.releaseRun k n = { mgr with bitmap, freeMemory } ∧
      bitmap.blocks = mgr.bitmap.blocks := by
  induction n with
  | zero => exact ⟨mgr.bitmap, mgr.freeMemory, rfl, rfl⟩
  | succ n ih =>
    obtain ⟨bitmap, freeMemory, heq, hblocks⟩ := ih
    rw [releaseRun_succ, heq]
    exact ⟨_, _, rfl, blocks_unset.trans hblocks⟩

theorem isSet_releaseRun (mgr : BitmapMemoryManager) (k n i : Nat) :
    (mgr.releaseRun k n).bitmap.isSet i =
      (mgr.bitmap.isSet i && decide (¬(k ≤ i ∧ i < k + n))) := by
  induction n with
  | zero =>
    have hnone : ¬(k ≤ i ∧ i < k + 0) := by omega
    simp only [decide_eq_true hnone, Bool.and_true]
    rfl
  | succ n ih =>
    have hsplit : ¬(k ≤ i ∧ i < k + n) ∧ i ≠ k + n ↔ ¬(k ≤ i ∧ i < k + (n + 1)) := by omega
    rw [releaseRun_succ]
    simp only [BitmapMemoryManager.release, isSet_unset, ih]
    rw [Bool.and_assoc, ← Bool.decide_and, decide_eq_decide.mpr hsplit]

section

variable (hv : mgr.Valid)

include hv

theorem Valid.releaseRun (k n : Nat) : (mgr.releaseRun k n).Valid := by
  induction n with
  | zero => exact hv
  | succ n ih =>
    rw [releaseRun_succ]
    exact ih.release (k + n)

theorem accounting_release (hset : mgr.bitmap.isSet k = true)
    (hcounted : mgr.freeMemory = mgr.blockSize * mgr.bitmap.clear.card) :
    (mgr.release k).freeMemory = mgr.blockSize * (mgr.release k).bitmap.clear.card := by
  have hnot : k ∉ mgr.bitmap.clear := by
    rw [mem_clear, hset]
    simp
  have hcard : (mgr.bitmap.unset k).clear.card = mgr.bitmap.clear.card + 1 := by
    rw [clear_unset (lt_of_isSet hset), card_insert_of_notMem hnot]
  have hle := (mgr.bitmap.unset k).card_clear_le
  rw [hcard, blocks_unset] at hle
  have hmul := mul_le_mul_left mgr.blockSize hle
  have hbound := hv.blocks_le
  have hend := hv.end_lt
  simp only [BitmapMemoryManager.release, hcounted, hcard]
  rw [Nat.mul_comm] at hbound
  rw [Nat.mul_add, mul_one] at hmul
  exact add32_eq (by omega)

theorem accounting_releaseRun (hset : ∀ i < n, mgr.bitmap.isSet (k + i) = true)
    (hcounted : mgr.freeMemory = mgr.blockSize * mgr.bitmap.clear.card) :
    (mgr.releaseRun k n).freeMemory = mgr.blockSize * (mgr.releaseRun k n).bitmap.clear.card := by
  induction n with
  | zero => exact hcounted
  | succ n ih =>
    have hbefore := ih fun i hi => hset i (by omega)
    have hnext : (mgr.releaseRun k n).bitmap.isSet (k + n) = true := by
      have houtside : ¬(k ≤ k + n ∧ k + n < k + n) := by omega
      rw [isSet_releaseRun, hset n (lt_succ_self n), decide_eq_true houtside, Bool.true_and]
    obtain ⟨_, _, hregion, -⟩ := mgr.releaseRun_region k n
    have hsize : (mgr.releaseRun k n).blockSize = mgr.blockSize := by rw [hregion]
    rw [releaseRun_succ, ← hsize]
    exact accounting_release (hv.releaseRun k n) hnext (hsize.symm ▸ hbefore)

theorem Valid.address_le (hk : k ≤ mgr.bitmap.blocks) : mgr.address k ≤ mgr.memoryEndAddress := by
  have hmul := mul_le_mul_right mgr.blockSize hk
  have hblocks := hv.blocks_le
  have hle := hv.start_le
  unfold address
  omega

theorem Valid.address_lt (hk : k < mgr.bitmap.blocks) : mgr.address k < mgr.memoryEndAddress := by
  have hnext := hv.address_le (k := k + 1) hk
  have hpos := hv.blockSize_pos
  unfold address at hnext ⊢
  rw [add_mul] at hnext
  omega

theorem blockCount_pos (hsize : 0 < size) : 0 < mgr.blockCount size := by
  unfold blockCount
  by_cases hmod : size % mgr.blockSize = 0
  · have := div_pos (le_of_dvd hsize (dvd_of_mod_eq_zero hmod)) hv.blockSize_pos
    omega
  · rw [if_neg hmod]
    exact succ_pos _

/-- `alloc` claims the first free run of blocks and returns its address. If
there is none, it returns null or, in the managers of paging, throws. -/
theorem alloc_cases (hsize : 0 < size) : (∃ k, mgr.bitmap.FreeRun k (mgr.blockCount size) ∧
      (∀ k' < k, ¬mgr.bitmap.FreeRun k' (mgr.blockCount size)) ∧
      mgr.alloc size = .ok (mgr.address k, mgr.claim k (mgr.blockCount size))) ∨
    ((∀ k, ¬mgr.bitmap.FreeRun k (mgr.blockCount size)) ∧
      ∀ ptr mgr', mgr.alloc size = .ok (ptr, mgr') →
        mgr.managerType = .MISC ∧ ptr = 0 ∧ mgr' = mgr) := by
  have hcount := blockCount_pos hv hsize
  unfold alloc
  rw [if_neg (by omega)]
  rcases mgr.bitmap.findAndSet_spec hcount with ⟨k, hrun, hfirst, heq⟩ | ⟨hnone, heq⟩
  · refine .inl ⟨k, hrun, hfirst, ?_⟩
    have hlt : k < mgr.bitmap.blocks := by
      have := hrun.1
      omega
    have haddr := hv.address_lt hlt
    have hend := hv.end_lt
    unfold address at haddr
    simp only [heq]
    rw [if_neg (by omega), Nat.mod_eq_of_lt (by omega), add32_eq (by omega)]
    rfl
  · refine .inr ⟨hnone, ?_⟩
    intro ptr mgr' hcall
    simp only [heq, if_true] at hcall
    cases htype : mgr.managerType with
    | PAGE_FRAME_ALLOCATOR => simp [htype] at hcall
    | PAGING_AREA_MANAGER => simp [htype] at hcall
    | MISC =>
      simp only [htype, Except.ok.injEq, Prod.mk.injEq] at hcall
      refine ⟨rfl, hcall.1.symm, ?_⟩
      rw [← hcall.2, ← htype]

end

theorem alloc_returns (htype : mgr.managerType = .MISC) (size : Nat) :
    ∃ ptr mgr', mgr.alloc size = .ok (ptr, mgr') := by
  unfold alloc
  rw [htype]
  split
  · exact ⟨0, mgr, rfl⟩
  · simp only
    split
    · exact ⟨0, _, rfl⟩
    · exact ⟨_, _, rfl⟩

theorem free_address (hv : mgr.Valid) (hk : k < mgr.bitmap.blocks) :
    mgr.free (mgr.address k) = mgr.release k := by
  have haddr := hv.address_lt hk
  have hend := hv.end_lt
  have hoffset : sub32 (mgr.address k) mgr.memoryStartAddress / mgr.blockSize = k := by
    rw [sub32_eq (by unfold address; omega) (by omega)]
    unfold address
    rw [Nat.add_sub_cancel_left, Nat.mul_div_cancel _ hv.blockSize_pos]
  unfold free
  rw [if_neg (by unfold address at haddr ⊢; omega), hoffset]
  rfl

theorem free_cases (mgr : BitmapMemoryManager) (ptr : Nat) :
    mgr.free ptr = mgr ∨
      mgr.free ptr = mgr.release (sub32 ptr mgr.memoryStartAddress / mgr.blockSize) := by
  unfold free
  split
  · exact .inl rfl
  · exact .inr rfl

/-- The addresses of the blocks that the manager considers free. -/
def freeAddresses (mgr : BitmapMemoryManager) : Set Nat :=
  {ptr | ∃ k ∈ mgr.bitmap.clear, ptr = mgr.address k}

theorem address_injective (hv : mgr.Valid) {j : Nat} (h : mgr.address j = mgr.address k) :
    j = k := by
  unfold address at h
  exact eq_of_mul_eq_mul_right hv.blockSize_pos (by omega)

theorem mem_freeAddresses (hv : mgr.Valid) :
    mgr.address k ∈ mgr.freeAddresses ↔ k ∈ mgr.bitmap.clear := by
  constructor
  · rintro ⟨j, hj, heq⟩
    rwa [address_injective hv heq]
  · intro hk
    exact ⟨k, hk, rfl⟩

theorem freeAddresses_claim (hv : mgr.Valid) (k : Nat) :
    (mgr.claim k 1).freeAddresses = mgr.freeAddresses \ {mgr.address k} := by
  ext ptr
  simp only [freeAddresses, BitmapMemoryManager.claim, clear_setRange, Set.mem_sdiff,
    Set.mem_ofPred_eq, Set.mem_singleton_iff, mem_sdiff, Ico_succ_singleton,
    mem_singleton]
  constructor
  · rintro ⟨j, ⟨hj, hne⟩, rfl⟩
    exact ⟨⟨j, hj, rfl⟩, fun heq => hne (address_injective hv heq)⟩
  · rintro ⟨⟨j, hj, rfl⟩, hne⟩
    exact ⟨j, ⟨hj, fun heq => hne (by rw [heq])⟩, rfl⟩

theorem freeAddresses_release (hk : k < mgr.bitmap.blocks) :
    (mgr.release k).freeAddresses = insert (mgr.address k) mgr.freeAddresses := by
  ext ptr
  simp only [freeAddresses, BitmapMemoryManager.release, clear_unset hk, mem_insert,
    Set.mem_insert_iff, Set.mem_ofPred_eq]
  constructor
  · rintro ⟨j, rfl | hj, rfl⟩
    · exact .inl rfl
    · exact .inr ⟨j, hj, rfl⟩
  · rintro (rfl | ⟨j, hj, rfl⟩)
    · exact ⟨k, .inl rfl, rfl⟩
    · exact ⟨j, .inr hj, rfl⟩

theorem freeAddresses_release_subset (mgr : BitmapMemoryManager) (k : Nat) :
    (mgr.release k).freeAddresses ⊆ insert (mgr.address k) mgr.freeAddresses := by
  by_cases hk : k < mgr.bitmap.blocks
  · rw [freeAddresses_release hk]
  · have hsame : (mgr.release k).bitmap = mgr.bitmap := if_pos (by omega)
    rintro ptr ⟨j, hj, rfl⟩
    rw [hsame] at hj
    exact .inr ⟨j, hj, rfl⟩

/-- A manager in use. An allocation that is live is a pointer that `alloc`
returned, with the requested size. -/
structure Session where
  manager : BitmapMemoryManager
  live : List (Nat × Nat)

/-- The blocks of an allocation. -/
def blocksOf (mgr : BitmapMemoryManager) (allocation : Nat × Nat) : Finset Nat :=
  let first := (allocation.1 - mgr.memoryStartAddress) / mgr.blockSize
  Finset.Ico first (first + mgr.blockCount allocation.2)

/-- The set bits are the blocks of the live allocations, which are disjoint, and
the counter counts the clear ones. -/
structure Owned (s : Session) : Prop where
  bits : ∀ i, s.manager.bitmap.isSet i = true ↔ ∃ a ∈ s.live, i ∈ s.manager.blocksOf a
  disjoint : s.live.Pairwise fun a b => Disjoint (s.manager.blocksOf a) (s.manager.blocksOf b)
  accounting : s.manager.freeMemory = s.manager.blockSize * s.manager.bitmap.clear.card

inductive Op
  | alloc (size : Nat)
  | free (ptr : Nat)

/-- A null result is no allocation. -/
inductive Step : Session → Op → Session → Prop
  | alloc {s : Session} {size ptr : Nat} {mgr' : BitmapMemoryManager} (hpos : 0 < size)
      (hsize : size < 2 ^ 32) (hcall : s.manager.alloc size = .ok (ptr, mgr')) :
      Step s (.alloc size) ⟨mgr', if ptr = 0 then s.live else (ptr, size) :: s.live⟩
  | free {s : Session} {ptr size : Nat} (hlive : (ptr, size) ∈ s.live) :
      Step s (.free ptr) ⟨s.manager.free ptr, s.live.erase (ptr, size)⟩

/-- `free` is only used for single blocks, and `alloc` does not take block zero
of a region at address zero, whose address is the null pointer. -/
def Sound (s : Session) : Op → Prop
  | .alloc size => s.manager.memoryStartAddress ≠ 0 ∨
      ¬s.manager.bitmap.FreeRun 0 (s.manager.blockCount size)
  | .free ptr => ∀ size, (ptr, size) ∈ s.live → s.manager.blockCount size = 1

def SoundStep (s : Session) (op : Op) (s' : Session) : Prop := Sound s op ∧ Step s op s'

/-- Ownership together with what carries it from step to step: every live
pointer is the address of a block. -/
structure Tracked (s : Session) : Prop extends Owned s where
  valid : s.manager.Valid
  placed : ∀ a ∈ s.live, 0 < a.2 ∧ ∃ k, a.1 = s.manager.address k ∧
    k + s.manager.blockCount a.2 ≤ s.manager.bitmap.blocks

section Ownership

variable {s s' : Session} {managerType : ManagerType} {blockSize start stop : Nat}

theorem blocksOf_address (hv : mgr.Valid) (k size : Nat) :
    mgr.blocksOf (mgr.address k, size) = Finset.Ico k (k + mgr.blockCount size) := by
  unfold blocksOf address
  simp only [Nat.add_sub_cancel_left, Nat.mul_div_cancel _ hv.blockSize_pos]

theorem initial_tracked (hblock : 0 < blockSize) (hle : start ≤ stop) (hstop : stop < 2 ^ 32) :
    Tracked ⟨init managerType blockSize start stop, []⟩ where
  valid := init_valid hblock hle hstop
  placed a ha := by cases ha
  bits i := by simp [init]
  disjoint := List.Pairwise.nil
  accounting := by
    have hv : (init managerType blockSize start stop).Valid := init_valid hblock hle hstop
    have hblocks := hv.blocks_le
    have hclear :
        (new (sub32 stop start / blockSize)).clear = range (sub32 stop start / blockSize) := by
      ext i
      simp [mem_clear]
    simp only [init, hclear, card_range, blocks_new] at hblocks ⊢
    rw [Nat.mod_eq_of_lt (by omega), Nat.mul_comm]

section

variable (ht : Tracked s)

include ht

theorem Tracked.claim (hpos : 0 < size)
    (hrun : s.manager.bitmap.FreeRun k (s.manager.blockCount size)) :
    Tracked ⟨s.manager.claim k (s.manager.blockCount size),
      (s.manager.address k, size) :: s.live⟩ where
  valid := ht.valid.claim k _
  placed a ha := by
    simp only [BitmapMemoryManager.claim, blocks_setRange]
    rcases List.mem_cons.mp ha with rfl | ha
    · exact ⟨hpos, k, rfl, hrun.1⟩
    · exact ht.placed a ha
  bits i := by
    have hblocks := blocksOf_address ht.valid k size
    have hend := hrun.1
    simp only [BitmapMemoryManager.claim, isSet_setRange, List.exists_mem_cons_iff]
    rw [Bool.or_eq_true, ht.bits i, ← Bool.decide_and, ← Bool.decide_and, decide_eq_true_iff]
    change _ ↔ i ∈ s.manager.blocksOf (s.manager.address k, size) ∨ ∃ a ∈ s.live,
      i ∈ s.manager.blocksOf a
    rw [hblocks, mem_Ico, or_comm]
    exact or_congr_left ⟨fun h => h.1, fun h => ⟨h, by omega⟩⟩
  disjoint := by
    refine List.Pairwise.cons ?_ ht.disjoint
    intro a ha
    change Disjoint (s.manager.blocksOf (s.manager.address k, size)) (s.manager.blocksOf a)
    rw [blocksOf_address ht.valid, disjoint_left]
    intro i hi hia
    -- a block of `a` is set, a block of the run is clear
    have hset := (ht.bits i).mpr ⟨a, ha, hia⟩
    rw [mem_Ico] at hi
    rw [hrun.2 i hi.1 hi.2] at hset
    cases hset
  accounting := by
    have hcard := hrun.card_clear
    have hle := mul_le_mul_right s.manager.blockSize s.manager.bitmap.card_clear_le
    have hblocks := ht.valid.blocks_le
    have hend := ht.valid.end_lt
    simp only [BitmapMemoryManager.claim, ht.accounting]
    rw [← hcard, Nat.mul_add] at *
    rw [Nat.mul_comm _ s.manager.blockSize, ← hcard, Nat.mul_add] at hle
    rw [Nat.mod_eq_of_lt (by omega), sub32_eq (by omega) (by omega), Nat.add_sub_cancel]

theorem Tracked.split {a : Nat × Nat} (ha : a ∈ s.live) :
    (∀ a' ∈ s.live.erase a, Disjoint (s.manager.blocksOf a) (s.manager.blocksOf a')) ∧
      (s.live.erase a).Pairwise
        (fun a b => Disjoint (s.manager.blocksOf a) (s.manager.blocksOf b)) ∧
      ∀ a', a' ∈ s.live ↔ a' = a ∨ a' ∈ s.live.erase a := by
  have hperm : s.live.Perm (a :: s.live.erase a) := List.perm_cons_erase ha
  have hpairs := (hperm.pairwise_iff fun {_ _} h => Disjoint.symm h).mp ht.disjoint
  rw [List.pairwise_cons] at hpairs
  exact ⟨hpairs.1, hpairs.2, fun a' => by rw [hperm.mem_iff, List.mem_cons]⟩

theorem Tracked.pointer_ne {a a' : Nat × Nat} (ha : a ∈ s.live) (ha' : a' ∈ s.live.erase a) :
    a'.1 ≠ a.1 := by
  intro heq
  obtain ⟨hapart, _, hmem⟩ := ht.split ha
  obtain ⟨hpos, k, hptr, -⟩ := ht.placed a ha
  -- both would hold the block at the pointer
  have hfirst : ∀ n, 0 < n → k ∈ s.manager.blocksOf (s.manager.address k, n) := by
    intro n hn
    have hcount := blockCount_pos ht.valid hn
    rw [blocksOf_address ht.valid, mem_Ico]
    omega
  have hblock : k ∈ s.manager.blocksOf a := by
    have := hfirst a.2 hpos
    rwa [← hptr] at this
  have hblock' : k ∈ s.manager.blocksOf a' := by
    have := hfirst a'.2 (ht.placed a' ((hmem a').mpr (.inr ha'))).1
    rwa [← hptr, ← heq] at this
  exact disjoint_left.mp (hapart a' ha') hblock hblock'

theorem Tracked.size_unique {size' : Nat} (hlive : (ptr, size) ∈ s.live)
    (hlive' : (ptr, size') ∈ s.live) :
    size = size' := by
  rcases ((ht.split hlive).2.2 _).mp hlive' with heq | herase
  · exact (Prod.mk.inj heq).2.symm
  · exact (ht.pointer_ne hlive herase rfl).elim

theorem Tracked.releaseRun (hlive : (s.manager.address k, size) ∈ s.live) :
    Tracked ⟨s.manager.releaseRun k (s.manager.blockCount size),
      s.live.erase (s.manager.address k, size)⟩ := by
  obtain ⟨hapart, hpairs, hmem⟩ := ht.split hlive
  obtain ⟨_, _, hregion, hblocks⟩ := s.manager.releaseRun_region k (s.manager.blockCount size)
  have hown : ∀ i, i ∈ s.manager.blocksOf (s.manager.address k, size) ↔
      k ≤ i ∧ i < k + s.manager.blockCount size := by
    intro i
    rw [blocksOf_address ht.valid, mem_Ico]
  have hset : ∀ i < s.manager.blockCount size, s.manager.bitmap.isSet (k + i) = true := by
    intro i hi
    exact (ht.bits (k + i)).mpr ⟨_, hlive, (hown _).mpr (by omega)⟩
  have hbits := s.manager.isSet_releaseRun k (s.manager.blockCount size)
  have haccounting := accounting_releaseRun ht.valid hset ht.accounting
  have hvalid := ht.valid.releaseRun k (s.manager.blockCount size)
  rw [hregion] at hbits haccounting hvalid ⊢
  refine ⟨⟨?_, hpairs, haccounting⟩, hvalid, ?_⟩
  · intro i
    rw [hbits, Bool.and_eq_true, ht.bits i, decide_eq_true_iff, ← hown]
    constructor
    · rintro ⟨⟨a, ha, hia⟩, hne⟩
      rcases (hmem a).mp ha with rfl | ha'
      · exact absurd hia hne
      · exact ⟨a, ha', hia⟩
    · rintro ⟨a, ha, hia⟩
      exact ⟨⟨a, (hmem a).mpr (.inr ha), hia⟩, fun hin => disjoint_left.mp (hapart a ha) hin hia⟩
  · intro a ha
    simp only [hblocks]
    exact ht.placed a ((hmem a).mpr (.inr ha))

/-- Releasing an allocation of several blocks leaves the others set. -/
theorem Tracked.not_owned_release (hlive : (s.manager.address k, size) ∈ s.live)
    (hmany : 1 < s.manager.blockCount size) :
    ¬Owned ⟨s.manager.release k, s.live.erase (s.manager.address k, size)⟩ := by
  intro hafter
  obtain ⟨hapart, _, _⟩ := ht.split hlive
  have hnext : k + 1 ∈ s.manager.blocksOf (s.manager.address k, size) := by
    rw [blocksOf_address ht.valid, mem_Ico]
    omega
  have hset : s.manager.bitmap.isSet (k + 1) = true := (ht.bits (k + 1)).mpr ⟨_, hlive, hnext⟩
  have hset' : (s.manager.release k).bitmap.isSet (k + 1) = true := by
    simp [BitmapMemoryManager.release, isSet_unset, hset]
  obtain ⟨a, ha, hin⟩ := (hafter.bits (k + 1)).mp hset'
  exact disjoint_left.mp (hapart a ha) hnext hin

/-- Block zero of a region at address zero is claimed, but its address is null,
so nobody owns it. -/
theorem Tracked.not_owned_null (hpos : 0 < size)
    (hrun : s.manager.bitmap.FreeRun 0 (s.manager.blockCount size)) :
    ¬Owned ⟨s.manager.claim 0 (s.manager.blockCount size), s.live⟩ := by
  intro hafter
  have hcount := blockCount_pos ht.valid hpos
  have hend := hrun.1
  have hset : (s.manager.claim 0 (s.manager.blockCount size)).bitmap.isSet 0 = true := by
    simp only [BitmapMemoryManager.claim, isSet_setRange]
    simp
    omega
  obtain ⟨a, ha, hin⟩ := (hafter.bits 0).mp hset
  have hbefore := (ht.bits 0).mpr ⟨a, ha, hin⟩
  rw [hrun.2 0 (le_refl _) (by omega)] at hbefore
  cases hbefore

/-- What a step does to a tracked session: it keeps it tracked, or it is not
sound and loses ownership. -/
theorem tracked_step {op : Op} (hstep : Step s op s') :
    (Sound s op ∧ Tracked s') ∨ (¬Sound s op ∧ ¬Owned s') := by
  cases hstep with
  | @alloc size ptr mgr' hpos hsize hcall =>
    rcases alloc_cases ht.valid hpos with ⟨k, hrun, hfirst, heq⟩ | ⟨hnone, hnull⟩
    · rw [heq] at hcall
      obtain ⟨rfl, rfl⟩ : s.manager.address k = ptr ∧
          s.manager.claim k (s.manager.blockCount size) = mgr' := by simpa using hcall
      by_cases hzero : s.manager.address k = 0
      · rw [if_pos hzero]
        have hpos' := ht.valid.blockSize_pos
        obtain ⟨hstart, hk⟩ : s.manager.memoryStartAddress = 0 ∧ k = 0 := by
          unfold address at hzero
          rw [Nat.add_eq_zero_iff, Nat.mul_eq_zero] at hzero
          omega
        rw [hk] at hrun ⊢
        refine .inr ⟨?_, ht.not_owned_null hpos hrun⟩
        rintro (hne | hnone)
        · exact hne hstart
        · exact hnone hrun
      · rw [if_neg hzero]
        refine .inl ⟨?_, ht.claim hpos hrun⟩
        by_cases hstart : s.manager.memoryStartAddress = 0
        · -- the run is not the one at block zero, and it is the first
          refine .inr (hfirst 0 ?_)
          refine pos_of_ne_zero ?_
          rintro rfl
          unfold address at hzero
          omega
        · exact .inl hstart
    · obtain ⟨_, rfl, rfl⟩ := hnull ptr mgr' hcall
      exact .inl ⟨.inr (hnone 0), ht⟩
  | @free ptr size hlive =>
    obtain ⟨hpos, k, hptr, hend⟩ := ht.placed _ hlive
    simp only at hpos hend
    subst hptr
    have hcount := blockCount_pos ht.valid hpos
    rw [free_address ht.valid (by omega)]
    by_cases hone : s.manager.blockCount size = 1
    · have hrelease := ht.releaseRun hlive
      rw [hone] at hrelease
      refine .inl ⟨?_, hrelease⟩
      intro size' hlive'
      rw [ht.size_unique hlive' hlive]
      exact hone
    · refine .inr ⟨?_, ht.not_owned_release hlive (by omega)⟩
      intro hsound
      exact hone (hsound size hlive)

end

/-- As long as only single blocks are freed and null is not handed out, the set
bits are the blocks of the live allocations; and a step that breaks the
condition breaks ownership. -/
theorem ownership_of_sound_run
    (hblock : 0 < blockSize) (hle : start ≤ stop) (hstop : stop < 2 ^ 32) {ops : List Op}
    (hrun : Run SoundStep ⟨init managerType blockSize start stop, []⟩ ops s) :
    Owned s ∧ ∀ op s', Step s op s' → (Owned s' ↔ Sound s op) := by
  have ht : Tracked s := by
    apply hrun.invariant _ (initial_tracked hblock hle hstop)
    intro s op s' ht hstep
    rcases tracked_step ht hstep.2 with ⟨_, ht'⟩ | ⟨hunsound, _⟩
    · exact ht'
    · exact absurd hstep.1 hunsound
  refine ⟨ht.toOwned, ?_⟩
  intro op s' hstep
  rcases tracked_step ht hstep with ⟨hsound, ht'⟩ | ⟨hunsound, hlost⟩
  · exact ⟨fun _ => hsound, fun _ => ht'.toOwned⟩
  · exact ⟨fun howned => absurd howned hlost, fun hsound => absurd hsound hunsound⟩

theorem ownership_of_sound_run_page :
    ∃ s, Run SoundStep ⟨init .MISC 128 0x1000 0x2000, []⟩ [.alloc 100, .free 0x1000] s ∧
      Owned s := by
  have hrun : ∃ s, Run SoundStep ⟨init .MISC 128 0x1000 0x2000, []⟩ [.alloc 100,
      .free 0x1000] s := by
    refine ⟨_, .next ⟨.inl (by decide), .alloc (by decide) (by decide) rfl⟩
      (.next ⟨?_, @Step.free _ _ 100 (by decide)⟩ (.done _))⟩
    intro size hlive
    have hlive' : (0x1000, size) ∈ [(0x1000, 100)] := hlive
    obtain rfl : size = 100 := by simpa using hlive'
    rfl
  obtain ⟨s, hrun⟩ := hrun
  exact ⟨s, hrun, (ownership_of_sound_run (by decide) (by decide) (by decide) hrun).1⟩

/-- After an allocation of two blocks has been freed, nothing is live but the
second block is still set. -/
theorem ownership_fails_for_two_blocks :
    ∃ s, Run Step ⟨init .MISC 128 0x1000 0x2000, []⟩ [.alloc 256, .free 0x1000] s ∧
      s.live = [] ∧ s.manager.bitmap.isSet 1 = true ∧ ¬Owned s := by
  refine ⟨_, .next (.alloc (by decide) (by decide) rfl)
    (.next (@Step.free _ _ 256 (by decide)) (.done _)), rfl, by decide, ?_⟩
  intro howned
  obtain ⟨a, ha, _⟩ := (howned.bits 1).mp (by decide)
  cases ha

end Ownership

end BitmapMemoryManager

end HuyaOS
