import HuyaOS.Memory.PageFrameAllocator
import HuyaOS.Paging.Entries
import HuyaOS.Util.HashMap

/-!
`Management`, which ties the directories, the bitmap of the frames and the
bitmap of the paging area together.

The paging area manager zeroes the pages it hands out. A page without a frame
raises a page fault there, whose handler maps it in the current address space;
this happens in the middle of the interrupted call. The tables of the area
itself always exist. If the table of the page were missing, the handler would
run into the next fault before it could have entered the first page.

Processor state (the register with the directory, the translation buffer) and
the objects on the kernel heap are not part of the model. An address space
stands for its directory. What the calls make the heap do to its pages is in the
model: the addresses at which it writes to an object that is created, and the
pages that it unmaps when objects are deleted, are parameters. A deletion by
itself touches headers and objects only, whose pages have frames.
-/

namespace HuyaOS

open Lib PageDirectory

namespace Paging

@[simp] abbrev VIRT_IO_START : Nat := KERNEL_START + 0x2EE00000

@[simp] abbrev VIRT_PAGE_MEM_END : Nat := VIRT_IO_START - 0x40000

@[simp] abbrev VIRT_IO_END : Nat := 0xFFFFFFFF

@[simp] abbrev PAGE_NO_CACHING : Nat := 0x010

end Paging

open Paging

/-- `PagingAreaManager`. The first pages hold the tables and arrays of the base
directory. -/
def PagingAreaManager.new : BitmapMemoryManager :=
  let mgr := BitmapMemoryManager.init .PAGING_AREA_MANAGER Management.PAGESIZE VIRT_PAGE_MEM_START
    VIRT_PAGE_MEM_END
  { mgr with
    bitmap := mgr.bitmap.setRange 0 (8 * 32 + 2)
    freeMemory := sub32 mgr.freeMemory ((8 * 32 * mgr.blockSize + 2 * mgr.blockSize) % 2 ^ 32) }

def IOMemoryManager.new : BitmapMemoryManager :=
  BitmapMemoryManager.init .MISC Management.PAGESIZE VIRT_IO_START VIRT_IO_END

namespace Management

structure State extends PageDirectory.System where
  current : PageDirectory
  pageFrameAllocator : BitmapMemoryManager
  pagingAreaManager : BitmapMemoryManager
  ioMemManager : BitmapMemoryManager
  ioMemoryMap : HashMap Nat Nat

/-- The state after `Management::init`, over the memory that the constructor of
the base directory leaves. -/
def boot (m : Mem) (physReservedMemoryEnd totalPhysMemory : Nat) : State where
  mem := m
  base := baseDirectory physReservedMemoryEnd
  processes := []
  current := baseDirectory physReservedMemoryEnd
  pageFrameAllocator := PageFrameAllocator.init physReservedMemoryEnd 0 totalPhysMemory
  pagingAreaManager := PagingAreaManager.new
  ioMemManager := IOMemoryManager.new
  ioMemoryMap := HashMap.new Nat Nat

namespace State

variable (s : State)

/-- The last part of `PageDirectory::map`, when the table exists. -/
def enterPage (dir : PageDirectory) (physAddress virtAddress flags : Nat) : Except Cpu.Stop State :=
  if tableEntry s.mem dir virtAddress &&& PAGE_PRESENT ≠ 0 then
    .error (.throwException .PAGING_ERROR)
  else .ok { s with mem := setTableEntry s.mem dir virtAddress (physAddress ||| flags) }

/-- `Management::trigger` for an access to a page that is not present. -/
def pageFault (faultAddress : Nat) : Except Cpu.Stop State := do
  let (physAddress, pageFrameAllocator) ← s.pageFrameAllocator.alloc PAGESIZE
  let s := { s with pageFrameAllocator }
  if HasTable s.mem s.current (GET_PD_IDX faultAddress) then
    s.enterPage s.current physAddress faultAddress (PAGE_PRESENT ||| PAGE_READ_WRITE)
  else .error .endlessFault

/-- Whether an access to the address finds a frame. -/
def Mapped (virtAddress : Nat) : Prop :=
  HasTable s.mem s.current (GET_PD_IDX virtAddress) ∧
    tableEntry s.mem s.current virtAddress &&& PAGE_PRESENT ≠ 0

instance (s : State) (virtAddress : Nat) : Decidable (s.Mapped virtAddress) :=
  inferInstanceAs (Decidable (_ ∧ _))

def touch (virtAddress : Nat) : Except Cpu.Stop State :=
  if s.Mapped virtAddress then .ok s else s.pageFault virtAddress

/-- `allocPageTable`: a page of the paging area, filled with zeros. -/
def allocPageTable : Except Cpu.Stop (Nat × State) := do
  let (virtAddress, pagingAreaManager) ← s.pagingAreaManager.alloc PAGESIZE
  let s ← touch { s with pagingAreaManager } virtAddress
  return (virtAddress, { s with mem := clear s.mem virtAddress PAGESIZE })

def createPageTable (dir : PageDirectory) (idx : Nat) : Except Cpu.Stop State := do
  let (virtAddress, s) ← s.allocPageTable
  let physAddress := getPhysicalAddress s.mem s.current virtAddress
  return { s with mem := createTable s.mem dir idx physAddress virtAddress }

def freePageTable (virtTableAddress : Nat) : State :=
  let physAddress := getPhysicalAddress s.mem s.current virtTableAddress
  { s with
    pagingAreaManager := s.pagingAreaManager.free virtTableAddress
    pageFrameAllocator := s.pageFrameAllocator.free physAddress }

/-- `PageDirectory::map`, called for the current address space. -/
def mapTo (physAddress virtAddress flags : Nat) : Except Cpu.Stop State := do
  let s ← if dirEntry s.mem s.current (GET_PD_IDX virtAddress) &&& PAGE_PRESENT = 0 then
      s.createPageTable s.current (GET_PD_IDX virtAddress)
    else .ok s
  s.enterPage s.current physAddress virtAddress flags

def map (virtAddress flags : Nat) : Except Cpu.Stop State := do
  let (physAddress, pageFrameAllocator) ← s.pageFrameAllocator.alloc PAGESIZE
  mapTo { s with pageFrameAllocator } physAddress virtAddress flags

def unmap (virtAddress : Nat) : Nat × State :=
  let (physAddress, mem) := PageDirectory.unmap s.mem s.current virtAddress
  let s := { s with mem }
  if physAddress = 0 then (0, s)
  else (physAddress, { s with pageFrameAllocator := s.pageFrameAllocator.free physAddress })

/-- The heap writes to addresses of its own. -/
def accessHeap (addresses : List Nat) : Except Cpu.Stop State := addresses.foldlM touch s

/-- The heap gives up the pages inside memory that has become free. These are
the pages that the range form of `unmap` hands to the form for one page. -/
def releaseHeap (pages : List Nat) : State := pages.foldl (fun s page => (s.unmap page).2) s

/-- One round of the loop in `mapIO`. -/
def mapIOPage (virtStartAddress physAddress i : Nat) : Except Cpu.Stop State :=
  let virtAddress := add32 virtStartAddress (i * PAGESIZE)
  (s.unmap virtAddress).2.mapTo (add32 physAddress (i * PAGESIZE)) virtAddress
    (PAGE_PRESENT ||| PAGE_READ_WRITE ||| PAGE_NO_CACHING)

def pageCount (size : Nat) : Nat := size / PAGESIZE + if size % PAGESIZE = 0 then 0 else 1

/-- `IOMemoryManager::alloc`, without the heap pages of the new node of the map. -/
def allocIO (size : Nat) : Except Cpu.Stop (Nat × State) := do
  let (ptr, ioMemManager) ← s.ioMemManager.alloc size
  let s := { s with ioMemManager }
  if ptr = 0 then return (0, s)
  else return (ptr, { s with ioMemoryMap := s.ioMemoryMap.put id ptr (pageCount size) })

/-- `mapIO(physAddress, size)`. The node that `put` creates is written at the
addresses `accessed`. -/
def mapIO (accessed : List Nat) (physAddress size : Nat) : Except Cpu.Stop (Nat × State) := do
  let (virtStartAddress, s) ← s.allocIO size
  if virtStartAddress = 0 then .error (.throwException .OUT_OF_MEMORY)
  else
    let s ← s.accessHeap accessed
    let s ← (List.range (pageCount size)).foldlM (fun s i =>
      mapIOPage s virtStartAddress physAddress i) s
    return (virtStartAddress, s)

/-- One round of the loop in `IOMemoryManager::free`. -/
def freeIOPage (virtualAddress : Nat) (s : State) (i : Nat) : State :=
  let s := { s with ioMemManager := s.ioMemManager.free (add32 virtualAddress (i * PAGESIZE)) }
  (s.unmap (add32 virtualAddress (i * PAGESIZE))).2

/-- `IOMemoryManager::free`, without the heap pages of the node that `remove`
deletes. -/
def freeIO (virtualAddress : Nat) : Except Cpu.Stop State :=
  if virtualAddress < s.ioMemManager.memoryStartAddress ∨
    s.ioMemManager.memoryEndAddress ≤ virtualAddress then .ok s
  else do
    let pageCount ← s.ioMemoryMap.get id virtualAddress
    let s := (List.range pageCount).foldl (freeIOPage virtualAddress) s
    let (_, ioMemoryMap) ← s.ioMemoryMap.remove id virtualAddress
    return { s with ioMemoryMap }

/-- `freeIO`. The heap gives up the pages `released` when `remove` deletes the
node. -/
def freeIOAndNode (virtualAddress : Nat) (released : List Nat) : Except Cpu.Stop State := do
  let s ← s.freeIO virtualAddress
  return s.releaseHeap released

/-- `createAddressSpace`, up to the directory of the new address space. The
paging area manager throws when it is out of pages, so the constructor of the
directory never sees a null pointer. -/
def createAddressSpace : Except Cpu.Stop (PageDirectory × State) := do
  let (pageDirectory, s) ← s.allocPageTable
  let (virtTableAddresses, s) ← s.allocPageTable
  match process s.mem s.base s.current pageDirectory virtTableAddresses with
  | none => .error (.throwException .OUT_OF_PAGE_MEMORY)
  | some (dir, mem) => return (dir, { s with mem, processes := dir :: s.processes })

/-- `switchAddressSpace`. The pages that a new address space needs for its heap
are mapped by page faults. -/
def switchAddressSpace (dir : PageDirectory) : State := { s with current := dir }

/-- The first loop of `~PageDirectory`. -/
def unmapUserPages (m : Mem) (dir : PageDirectory) : Mem :=
  (List.range (KERNEL_START / PAGESIZE)).foldl (fun m page =>
    (PageDirectory.unmap m dir (page * PAGESIZE)).2) m

def destroy (dir : PageDirectory) : State :=
  let s := { s with mem := unmapUserPages s.mem dir }
  let s := (List.range kernelIndex).foldl (fun s idx =>
    s.freePageTable (tableAddress s.mem dir idx)) s
  (s.freePageTable dir.virtTableAddresses).freePageTable dir.pageDirectory

/-- `removeAddressSpace`. The heap gives up the pages `released` when the
directory, the heap manager and the address space itself are deleted. All this
comes after the body of `~PageDirectory`. -/
def removeAddressSpace (dir : PageDirectory) (released : List Nat) : State :=
  if s.current = dir then s
  else (destroy { s with processes := s.processes.erase dir } dir).releaseHeap released

end State

end Management

end HuyaOS
