import HuyaOS.Memory.BitmapMemoryManager
import HuyaOS.Paging.PageDirectory

/-!
`PageFrameAllocator`, the bitmap of the frames of physical memory, and
`Management::calcTotalPhysicalMemory`, which decides how many frames there are.
Frames are numbered from physical address zero. The first of them belong to the
kernel image, the initial heap and the page tables of the base directory, and
are marked as used from the start.
-/

namespace HuyaOS

open Lib Management Nat Bitmap

namespace PageFrameAllocator

def reservedFrames (physReservedMemoryEnd : Nat) : Nat :=
  let maxIndex := (physReservedMemoryEnd / PAGESIZE + 1024 + 256) / 32
  maxIndex * 32 + 2

def init (physReservedMemoryEnd memoryStartAddress memoryEndAddress : Nat) : BitmapMemoryManager :=
  let mgr := BitmapMemoryManager.init .PAGE_FRAME_ALLOCATOR PAGESIZE memoryStartAddress
    memoryEndAddress
  { mgr with
    bitmap := mgr.bitmap.setRange 0 (reservedFrames physReservedMemoryEnd)
    freeMemory :=
      sub32 mgr.freeMemory (reservedFrames physReservedMemoryEnd * mgr.blockSize % 2 ^ 32) }

/-- The allocator and every block that it has handed out so far, by address and
size. -/
structure Session where
  allocator : BitmapMemoryManager
  handedOut : List (Nat × Nat)

/-- The frames of a block. -/
def framesOf (block : Nat × Nat) : Finset Nat :=
  let first := block.1 / PAGESIZE
  Finset.Ico first (first + (block.2 / PAGESIZE + if block.2 % PAGESIZE = 0 then 0 else 1))

inductive Op
  | alloc (size : Nat)
  | free (ptr : Nat)

/-- Any number of bytes may be requested. A frame may be freed if it lies in a
block that has been handed out, also more than once. -/
inductive Step : Session → Op → Session → Prop
  | alloc {s : Session} {size ptr : Nat} {allocator' : BitmapMemoryManager} (hsize : size < 2 ^ 32)
      (hcall : s.allocator.alloc size = .ok (ptr, allocator')) :
      Step s (.alloc size) ⟨allocator', if size = 0 then s.handedOut
        else (ptr, size) :: s.handedOut⟩
  | free {s : Session} {block : Nat × Nat} {frame : Nat} (hblock : block ∈ s.handedOut)
      (hframe : frame ∈ framesOf block) :
      Step s (.free (frame * PAGESIZE)) ⟨s.allocator.free (frame * PAGESIZE), s.handedOut⟩

/-- The region consists of `blocks` frames from address zero on, its first
`reserved` frames are used, and no block with one of them has been handed
out. -/
structure Reserved (reserved blocks : Nat) (s : Session) : Prop where
  valid : s.allocator.Valid
  type_eq : s.allocator.managerType = .PAGE_FRAME_ALLOCATOR
  start_eq : s.allocator.memoryStartAddress = 0
  blockSize_eq : s.allocator.blockSize = PAGESIZE
  blocks_eq : s.allocator.bitmap.blocks = blocks
  bits : ∀ i < reserved, i < blocks → s.allocator.bitmap.isSet i = true
  frames : ∀ block ∈ s.handedOut, ∀ frame ∈ framesOf block, reserved ≤ frame ∧ frame < blocks

section Runs

variable {s s' : Session} {reserved blocks R total : Nat}

theorem init_valid (htotal : total < 2 ^ 32) : (init R 0 total).Valid where
  blockSize_pos := show 0 < PAGESIZE by decide
  start_le := Nat.zero_le _
  end_lt := htotal
  blocks_le := by
    simp only [init, blocks_setRange]
    exact (BitmapMemoryManager.init_valid (by decide) (Nat.zero_le _) htotal).blocks_le

theorem blocks_init (htotal : total < 2 ^ 32) :
    (init R 0 total).bitmap.blocks = total / PAGESIZE := by
  simp only [init, BitmapMemoryManager.init, blocks_setRange, blocks_new]
  rw [sub32_eq (Nat.zero_le _) htotal, Nat.sub_zero]

theorem isSet_init {i : Nat} : (init R 0 total).bitmap.isSet i =
    (decide (i < reservedFrames R) && decide (i < (init R 0 total).bitmap.blocks)) := by
  simp only [init, BitmapMemoryManager.init, isSet_setRange, isSet_new, blocks_setRange]
  simp

theorem init_reserved (htotal : total < 2 ^ 32) :
    Reserved (reservedFrames R) (total / PAGESIZE) ⟨init R 0 total, []⟩ where
  valid := init_valid htotal
  type_eq := rfl
  start_eq := rfl
  blockSize_eq := rfl
  blocks_eq := blocks_init htotal
  bits i hi hlt := by
    rw [isSet_init, blocks_init htotal, decide_eq_true hi, decide_eq_true hlt, Bool.and_true]
  frames block hblock := by cases hblock

theorem framesOf_eq {mgr : BitmapMemoryManager} (hstart : mgr.memoryStartAddress = 0)
    (hblock : mgr.blockSize = PAGESIZE) (k size : Nat) :
    framesOf (mgr.address k, size) = Finset.Ico k (k + mgr.blockCount size) := by
  unfold framesOf BitmapMemoryManager.address BitmapMemoryManager.blockCount
  simp only [hstart, hblock, Nat.zero_add, Nat.mul_div_cancel _ (show 0 < PAGESIZE by decide)]

section

variable (hr : Reserved reserved blocks s)

include hr

theorem Reserved.claim {k size : Nat}
    (hrun : s.allocator.bitmap.FreeRun k (s.allocator.blockCount size)) :
    Reserved reserved blocks ⟨s.allocator.claim k (s.allocator.blockCount size),
      (s.allocator.address k, size) :: s.handedOut⟩ where
  valid := hr.valid.claim k _
  type_eq := hr.type_eq
  start_eq := hr.start_eq
  blockSize_eq := hr.blockSize_eq
  blocks_eq := blocks_setRange.trans hr.blocks_eq
  bits i hi hlt := by
    simp [BitmapMemoryManager.claim, isSet_setRange, hr.bits i hi hlt]
  frames block hblock frame hframe := by
    rcases List.mem_cons.mp hblock with rfl | hblock
    · rw [framesOf_eq hr.start_eq hr.blockSize_eq, Finset.mem_Ico] at hframe
      have hend := hrun.1
      have hclear := hrun.2 frame hframe.1 hframe.2
      rw [hr.blocks_eq] at hend
      refine ⟨?_, by omega⟩
      by_contra hlow
      rw [hr.bits frame (by omega) (by omega)] at hclear
      cases hclear
    · exact hr.frames block hblock frame hframe

theorem Reserved.release {frame : Nat} (hframe : reserved ≤ frame) :
    Reserved reserved blocks ⟨s.allocator.release frame, s.handedOut⟩ where
  valid := hr.valid.release frame
  type_eq := hr.type_eq
  start_eq := hr.start_eq
  blockSize_eq := hr.blockSize_eq
  blocks_eq := blocks_unset.trans hr.blocks_eq
  bits i hi hlt := by
    have hne : i ≠ frame := by omega
    simp [BitmapMemoryManager.release, isSet_unset, hr.bits i hi hlt, hne]
  frames := hr.frames

theorem Reserved.free_eq {frame : Nat} (hframe : frame < blocks) :
    s.allocator.free (frame * PAGESIZE) = s.allocator.release frame := by
  have haddr : s.allocator.address frame = frame * PAGESIZE := by
    unfold BitmapMemoryManager.address
    rw [hr.start_eq, hr.blockSize_eq, Nat.zero_add]
  rw [← haddr]
  apply BitmapMemoryManager.free_address hr.valid
  rw [hr.blocks_eq]
  exact hframe

theorem reserved_step {op : Op} (hstep : Step s op s') : Reserved reserved blocks s' := by
  cases hstep with
  | @alloc size ptr allocator' hsize hcall =>
    by_cases hzero : size = 0
    · subst hzero
      obtain ⟨rfl, rfl⟩ : 0 = ptr ∧ s.allocator = allocator' := by
        simpa [BitmapMemoryManager.alloc] using hcall
      exact hr
    · rw [if_neg hzero]
      rcases BitmapMemoryManager.alloc_cases hr.valid (pos_of_ne_zero hzero) with
        ⟨k, hrun, _, heq⟩ | ⟨_, hfail⟩
      · rw [heq] at hcall
        obtain ⟨rfl, rfl⟩ : s.allocator.address k = ptr ∧
            s.allocator.claim k (s.allocator.blockCount size) = allocator' := by
          simpa using hcall
        exact hr.claim hrun
      · -- out of frames, the allocator throws
        have htype := (hfail ptr allocator' hcall).1
        rw [hr.type_eq] at htype
        cases htype
  | @free block frame hblock hframe =>
    obtain ⟨hlow, hlt⟩ := hr.frames block hblock frame hframe
    rw [hr.free_eq hlt]
    exact hr.release hlow

end

theorem run_reserved (htotal : total < 2 ^ 32) {ops : List Op}
    (hrun : Run Step ⟨init R 0 total, []⟩ ops s) :
    Reserved (reservedFrames R) (total / PAGESIZE) s :=
  hrun.invariant (fun _ _ _ hr hstep => reserved_step hr hstep) (init_reserved htotal)

theorem blockCount_pages {mgr : BitmapMemoryManager} (hblock : mgr.blockSize = PAGESIZE) (n : Nat) :
    mgr.blockCount (n * PAGESIZE) = n := by
  unfold BitmapMemoryManager.blockCount
  rw [hblock, Nat.mul_mod_left, if_pos rfl, Nat.mul_div_cancel _ (by decide), Nat.add_zero]

section

variable {n : Nat} (htotal : total < 2 ^ 32) (hn : 0 < n)
  (hroom : reservedFrames R + n ≤ total / PAGESIZE)

include htotal hn hroom

theorem alloc_init :
    (init R 0 total).alloc (n * PAGESIZE) = .ok ((init R 0 total).address (reservedFrames R),
      (init R 0 total).claim (reservedFrames R) n) := by
  have hcount : (init R 0 total).blockCount (n * PAGESIZE) = n := blockCount_pages rfl n
  have hrun : (init R 0 total).bitmap.FreeRun (reservedFrames R) n := by
    refine ⟨by rw [blocks_init htotal]; exact hroom, ?_⟩
    intro k hk _
    rw [isSet_init, decide_eq_false (by omega), Bool.false_and]
  have hfirst : ∀ k < reservedFrames R, ¬(init R 0 total).bitmap.FreeRun k n := by
    intro k hk hfree
    have hclear := hfree.2 k (le_refl _) (by omega)
    rw [isSet_init, blocks_init htotal] at hclear
    simp [hk] at hclear
    omega
  have hpos : 0 < n * PAGESIZE := mul_pos hn (by decide)
  rcases BitmapMemoryManager.alloc_cases (init_valid htotal) hpos with
    ⟨k, hk, hmin, heq⟩ | ⟨hnone, _⟩
  · rw [hcount] at hk hmin heq
    have hkey : k = reservedFrames R := by
      rcases lt_trichotomy k (reservedFrames R) with hlt | heq' | hgt
      · exact absurd hk (hfirst k hlt)
      · exact heq'
      · exact absurd hrun (hmin _ hgt)
    rw [heq, hkey]
  · rw [hcount] at hnone
    exact absurd hrun (hnone _)

theorem step_alloc_init :
    ∃ s block, Run Step ⟨init R 0 total, []⟩ [.alloc (n * PAGESIZE)] s ∧ block ∈ s.handedOut ∧
      framesOf block = Finset.Ico (reservedFrames R) (reservedFrames R + n) := by
  have hfits : n * PAGESIZE < 2 ^ 32 := by
    have := mul_le_mul_right PAGESIZE (le_trans (le_add_left n _) hroom)
    have := div_mul_le_self total PAGESIZE
    omega
  have hpos : n * PAGESIZE ≠ 0 := mul_ne_zero (by omega) (by decide)
  refine ⟨_, ((init R 0 total).address (reservedFrames R), n * PAGESIZE),
    .next (.alloc hfits (alloc_init htotal hn hroom)) (.done _), ?_, ?_⟩
  · rw [if_neg hpos]
    exact List.mem_cons_self
  · rw [framesOf_eq rfl rfl, blockCount_pages rfl n]

end

end Runs

/-- The boot mapping uses the reserved memory with the initial heap of 4 MiB, and
the frames behind them for the tables and arrays of the base directory. -/
def BootFrame (physReservedMemoryEnd frame : Nat) : Prop :=
  frame * PAGESIZE < physReservedMemoryEnd + 0x400000 ∨
    ∃ i < 258, frame * PAGESIZE = PageDirectory.bootFrame physReservedMemoryEnd i

/-- On a 4 MiB boundary the rounding of `init` loses nothing. -/
theorem reservedFrames_eq {R : Nat} (haligned : R % 0x400000 = 0) :
    reservedFrames R = R / PAGESIZE + 1282 := by
  simp only [reservedFrames, PAGESIZE]
  omega

/-- If the reserved memory ends on a 4 MiB boundary, the allocator never hands
out a frame of the boot mapping. -/
theorem bootFrames_never_returned {R total : Nat} (haligned : R % 0x400000 = 0)
    (htotal : total < 2 ^ 32) {ops : List Op} {s : Session}
    (hrun : Run Step ⟨init R 0 total, []⟩ ops s) :
    ∀ block ∈ s.handedOut, ∀ frame ∈ framesOf block, ¬BootFrame R frame := by
  intro block hblock frame hframe hboot
  obtain ⟨hlow, hlt⟩ := (run_reserved htotal hrun).frames block hblock frame hframe
  rw [reservedFrames_eq haligned] at hlow
  unfold PAGESIZE at hlow hlt
  rcases hboot with hlow' | ⟨i, hi, heq⟩
  · unfold PAGESIZE at hlow'
    omega
  · unfold PageDirectory.bootFrame PAGESIZE at heq
    omega

theorem bootFrames_never_returned_sixteen_megabytes :
    ∃ s, Run Step ⟨init 0x400000 0 0x1000000, []⟩ [.alloc (3 * PAGESIZE)] s ∧
      s.handedOut ≠ [] ∧
      ∀ block ∈ s.handedOut, ∀ frame ∈ framesOf block, ¬BootFrame 0x400000 frame := by
  have htotal : 0x1000000 < 2 ^ 32 := by decide
  obtain ⟨s, block, hrun, hblock, _⟩ :=
    @step_alloc_init 0x400000 0x1000000 3 htotal (by decide) (by decide)
  exact ⟨s, hrun, List.ne_nil_of_mem hblock, bootFrames_never_returned (by decide) htotal hrun⟩

end PageFrameAllocator

namespace Management

abbrev MULTIBOOT_MEMORY_AVAILABLE : Nat := 1

/-- Frames above are left to devices. -/
abbrev PHYS_MEM_CAP : Nat := 0xEA600000

/-- An entry of the memory map that the boot loader passes on, with 64-bit base
and length. -/
structure MemoryMapEntry where
  address : Nat
  length : Nat
  type : Nat
  deriving DecidableEq, Repr

/-- The loop of `calcTotalPhysicalMemory` over the entries. -/
def findMaxEntry : MemoryMapEntry → List MemoryMapEntry → MemoryMapEntry
  | maxEntry, [] => maxEntry
  | maxEntry, entry :: rest =>
      if entry.type ≠ MULTIBOOT_MEMORY_AVAILABLE then findMaxEntry maxEntry rest
      else if maxEntry.length < entry.length then findMaxEntry entry rest
      else findMaxEntry maxEntry rest

/-- `calcTotalPhysicalMemory`. The result is `totalPhysMemory`. -/
def calcTotalPhysicalMemory : List MemoryMapEntry → Except Cpu.Stop Nat
  | [] => .error (.throwException .OUT_OF_BOUNDS)
  | first :: rest =>
      let maxEntry := findMaxEntry first (first :: rest)
      if maxEntry.type ≠ MULTIBOOT_MEMORY_AVAILABLE then .error (.throwException .ILLEGAL_STATE)
      else
        let totalPhysMemory := maxEntry.length % 2 ^ 32
        let totalPhysMemory :=
          if PHYS_MEM_CAP < totalPhysMemory then PHYS_MEM_CAP else totalPhysMemory
        if totalPhysMemory < 10 * 1024 * 1024 then .error .halt else .ok totalPhysMemory

variable (memoryMap : List MemoryMapEntry)

def largestAvailable : Nat :=
  ((memoryMap.filter (·.type = MULTIBOOT_MEMORY_AVAILABLE)).map (·.length)).foldr max 0

/-- The kernel takes the length of the largest available entry for the size of
physical memory, cut to 32 bits and to the cap. -/
def assumedMemory : Nat :=
  min PHYS_MEM_CAP (largestAvailable memoryMap % 2 ^ 32)

/-- The kernel starts: the first entry is available or shorter than some entry
that is, and 10 MiB are left of the largest. -/
def Starts : Prop :=
  (∃ first ∈ memoryMap.head?, first.type = MULTIBOOT_MEMORY_AVAILABLE ∨
    first.length < largestAvailable memoryMap) ∧
    10 * 1024 * 1024 ≤ assumedMemory memoryMap

def InRam (frame : Nat) : Prop :=
  ∃ entry ∈ memoryMap, entry.type = MULTIBOOT_MEMORY_AVAILABLE ∧
    entry.address ≤ frame * PAGESIZE ∧ (frame + 1) * PAGESIZE ≤ entry.address + entry.length

theorem largestAvailable_cons (entry : MemoryMapEntry) (rest : List MemoryMapEntry) :
    largestAvailable (entry :: rest) =
      if entry.type = MULTIBOOT_MEMORY_AVAILABLE then max entry.length (largestAvailable rest)
      else largestAvailable rest := by
  unfold largestAvailable
  by_cases havailable : entry.type = MULTIBOOT_MEMORY_AVAILABLE
  · simp [havailable]
  · simp [havailable]

/-- The loop keeps an entry that no available one exceeds, and otherwise ends
with the largest of those. -/
theorem findMaxEntry_spec (maxEntry : MemoryMapEntry) (rest : List MemoryMapEntry) :
    (largestAvailable rest ≤ maxEntry.length ∧ findMaxEntry maxEntry rest = maxEntry) ∨
    (maxEntry.length < largestAvailable rest ∧
      (findMaxEntry maxEntry rest).type = MULTIBOOT_MEMORY_AVAILABLE ∧
      (findMaxEntry maxEntry rest).length = largestAvailable rest) := by
  induction rest generalizing maxEntry with
  | nil => exact .inl ⟨Nat.zero_le _, rfl⟩
  | cons entry rest ih =>
    rw [largestAvailable_cons]
    unfold findMaxEntry
    by_cases havailable : entry.type = MULTIBOOT_MEMORY_AVAILABLE
    · rw [if_neg (not_not.mpr havailable), if_pos havailable]
      by_cases hlarger : maxEntry.length < entry.length
      · rw [if_pos hlarger]
        rcases ih entry with ⟨hle, heq⟩ | ⟨hlt, htype, hlength⟩
        · rw [heq, max_eq_left hle]
          exact .inr ⟨hlarger, havailable, rfl⟩
        · rw [max_eq_right (by omega)]
          exact .inr ⟨by omega, htype, hlength⟩
      · rw [if_neg hlarger]
        rcases ih maxEntry with ⟨hle, heq⟩ | ⟨hlt, htype, hlength⟩
        · exact .inl ⟨by omega, heq⟩
        · rw [max_eq_right (by omega)]
          exact .inr ⟨hlt, htype, hlength⟩
    · rw [if_pos havailable, if_neg havailable]
      exact ih maxEntry

theorem calcTotalPhysicalMemory_eq_ok {memoryMap : List MemoryMapEntry} {total : Nat} :
    calcTotalPhysicalMemory memoryMap = .ok total ↔
      Starts memoryMap ∧ total = assumedMemory memoryMap := by
  cases memoryMap with
  | nil =>
    constructor
    · rintro ⟨⟩
    · rintro ⟨⟨⟨_, hfirst, _⟩, _⟩, _⟩
      cases hfirst
  | cons first rest =>
    have hcap : ∀ n : Nat, (if PHYS_MEM_CAP < n then PHYS_MEM_CAP else n) = min PHYS_MEM_CAP n := by
      intro n
      split <;> omega
    unfold calcTotalPhysicalMemory Starts assumedMemory
    simp only [List.head?_cons, Option.mem_def, Option.some.injEq, exists_eq_left', hcap]
    rcases findMaxEntry_spec first (first :: rest) with ⟨hle, heq⟩ | ⟨hlt, htype, hlength⟩
    · rw [heq]
      by_cases havailable : first.type = MULTIBOOT_MEMORY_AVAILABLE
      · have hlargest : largestAvailable (first :: rest) = first.length := by
          rw [largestAvailable_cons, if_pos havailable] at hle ⊢
          omega
        rw [if_neg (not_not.mpr havailable), hlargest]
        split
        · simp only [reduceCtorEq, false_iff]
          omega
        · simp only [Except.ok.injEq, havailable, true_or, true_and]
          omega
      · rw [if_pos havailable]
        simp only [reduceCtorEq, havailable, false_or, false_iff]
        omega
    · rw [if_neg (not_not.mpr htype), hlength]
      split
      · simp only [reduceCtorEq, false_iff]
        omega
      · simp only [Except.ok.injEq, hlt, or_true, true_and]
        omega

open PageFrameAllocator in
/-- Every frame that the allocator of a started kernel hands out, now or later,
is available memory. -/
def OnlyRam (physReservedMemoryEnd : Nat) : Prop :=
  ∀ total, calcTotalPhysicalMemory memoryMap = .ok total →
    ∀ ops s, Run Step ⟨init physReservedMemoryEnd 0 total, []⟩ ops s →
      ∀ block ∈ s.handedOut, ∀ frame ∈ framesOf block, InRam memoryMap frame

theorem assumedMemory_lt : assumedMemory memoryMap < 2 ^ 32 := by
  unfold assumedMemory
  omega

/-- A single request hands out all the frames between the reserved ones and any
frame of the assumed memory. -/
theorem inRam_of_onlyRam {memoryMap : List MemoryMapEntry} {R frame : Nat}
    (honly : OnlyRam memoryMap R) (hstarts : Starts memoryMap)
    (hlow : PageFrameAllocator.reservedFrames R ≤ frame)
    (hhigh : frame < assumedMemory memoryMap / PAGESIZE) : InRam memoryMap frame := by
  obtain ⟨s, block, hrun, hblock, hframes⟩ := PageFrameAllocator.step_alloc_init (R := R)
    (assumedMemory_lt memoryMap) (n := frame + 1 - PageFrameAllocator.reservedFrames R) (by omega)
    (by omega)
  have hcalc := calcTotalPhysicalMemory_eq_ok.mpr ⟨hstarts, rfl⟩
  apply honly _ hcalc _ s hrun block hblock frame
  rw [hframes, Finset.mem_Ico]
  omega

/-- Only available memory is handed out exactly when all the frames between the
reserved ones and the end of the assumed memory are available. -/
theorem onlyRam_iff (physReservedMemoryEnd : Nat) :
    OnlyRam memoryMap physReservedMemoryEnd ↔
      (Starts memoryMap → ∀ frame, PageFrameAllocator.reservedFrames physReservedMemoryEnd ≤ frame →
        frame < assumedMemory memoryMap / PAGESIZE → InRam memoryMap frame) := by
  constructor
  · intro honly hstarts frame hlow hhigh
    exact inRam_of_onlyRam honly hstarts hlow hhigh
  · intro hcovered total hcalc ops s hrun block hblock frame hframe
    obtain ⟨hstarts, rfl⟩ := calcTotalPhysicalMemory_eq_ok.mp hcalc
    have hreserved := PageFrameAllocator.run_reserved (assumedMemory_lt memoryMap) hrun
    obtain ⟨hlow, hhigh⟩ := hreserved.frames block hblock frame hframe
    exact hcovered hstarts frame hlow hhigh

/-- With 128 MiB of memory at address zero and 256 MiB above 4 GiB, the kernel
assumes 256 MiB at address zero. -/
theorem onlyRam_fails_above_four_gigabytes :
    ¬OnlyRam [⟨0, 0x8000000, 1⟩, ⟨0x100000000, 0x10000000, 1⟩] 0x400000 := by
  intro honly
  have hstarts : Starts [⟨0, 0x8000000, 1⟩, ⟨0x100000000, 0x10000000, 1⟩] :=
    ⟨⟨_, rfl, .inl rfl⟩, by decide⟩
  have hram : InRam _ 0x8000 := inRam_of_onlyRam honly hstarts (by decide) (by decide)
  obtain ⟨entry, hentry, _, hlow, hhigh⟩ := hram
  simp only [List.mem_cons, List.not_mem_nil, or_false] at hentry
  rcases hentry with rfl | rfl
  · exact absurd hhigh (by decide)
  · exact absurd hlow (by decide)

end Management

end HuyaOS
