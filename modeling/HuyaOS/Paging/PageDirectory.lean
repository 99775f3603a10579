import HuyaOS.Lib.WordArray
import HuyaOS.Kernel.UnmapRange

/-!
`PageDirectory`, the two-level page table of an address space. An object of the
class holds the addresses of two arrays of 1024 words: the directory that the
hardware reads, and the virtual addresses of the page tables it refers to.

The arrays and tables lie in pages that the paging area manager hands out and
zeroes. Which page comes next is decided by its bitmap and is a parameter here.
Zeroing a page that has no frame yet raises a page fault, whose handler maps
the page; that is a call of `map` in its own right, which is complete before
the interrupted one goes on.
-/

namespace HuyaOS

open Lib Management

namespace Paging

@[simp] abbrev PAGE_PRESENT : Nat := 0x001

@[simp] abbrev PAGE_READ_WRITE : Nat := 0x002

@[simp] abbrev PAGE_ACCESS_ALL : Nat := 0x004

@[simp] abbrev PAGE_WRITE_PROTECTED : Nat := 0x200

@[simp] abbrev KERNEL_START : Nat := 0xC0000000

@[simp] abbrev VIRT_PAGE_MEM_START : Nat := KERNEL_START + 0x1F400000

def GET_PD_IDX (x : Nat) : Nat := x >>> 22

def GET_PT_IDX (x : Nat) : Nat := (x >>> 12) &&& 0x3FF

end Paging

open Paging

structure PageDirectory where
  pageDirectory : Nat
  physPageDirectoryAddress : Nat
  virtTableAddresses : Nat
  deriving DecidableEq, Repr

namespace PageDirectory

/-- The exceptions that the modelled functions throw. -/
inductive Exception
  | PAGING_ERROR
  deriving DecidableEq, Repr

/-- A page handed out by the paging area manager and the frame behind it. -/
structure NewTable where
  virtAddress : Nat
  physAddress : Nat
  deriving DecidableEq, Repr

variable (m : Mem)

/-- `pageDirectory[idx]` -/
def dirEntry (dir : PageDirectory) (idx : Nat) : Nat := getWord m dir.pageDirectory idx

/-- `virtTableAddresses[idx]` -/
def tableAddress (dir : PageDirectory) (idx : Nat) : Nat :=
  getWord m dir.virtTableAddresses idx

/-- `*((uint32_t *) virtTableAddresses[pd_idx] + pt_idx)` -/
def tableEntry (dir : PageDirectory) (virtAddress : Nat) : Nat :=
  getWord m (tableAddress m dir (GET_PD_IDX virtAddress)) (GET_PT_IDX virtAddress)

def setTableEntry (dir : PageDirectory) (virtAddress value : Nat) : Mem :=
  setWord m (tableAddress m dir (GET_PD_IDX virtAddress)) (GET_PT_IDX virtAddress) value

def createTable (dir : PageDirectory) (idx physAddress virtAddress : Nat) : Mem :=
  let m := setWord m dir.pageDirectory idx (physAddress ||| PAGE_PRESENT ||| PAGE_READ_WRITE)
  setWord m dir.virtTableAddresses idx virtAddress

/-- `Management::createPageTable`, given the page that `alloc` hands out. -/
def createPageTable (dir : PageDirectory) (idx : Nat) (table : NewTable) : Mem :=
  createTable (clear m table.virtAddress PAGESIZE) dir idx table.physAddress table.virtAddress

/-- `PageDirectory::map`. The exception for a page that is present does not
return to the caller; the memory is the one it leaves behind. -/
def map (dir : PageDirectory) (table : NewTable) (physAddress virtAddress flags : Nat) :
    Except Exception Unit × Mem :=
  let pd_idx := GET_PD_IDX virtAddress
  let m := if dirEntry m dir pd_idx &&& PAGE_PRESENT = 0 then createPageTable m dir pd_idx table
    else m
  if tableEntry m dir virtAddress &&& PAGE_PRESENT ≠ 0 then (.error .PAGING_ERROR, m)
  else (.ok (), setTableEntry m dir virtAddress (physAddress ||| flags))

def unmap (dir : PageDirectory) (virtAddress : Nat) : Nat × Mem :=
  if dirEntry m dir (GET_PD_IDX virtAddress) &&& PAGE_PRESENT = 0 then (0, m)
  else if tableEntry m dir virtAddress &&& PAGE_PRESENT = 0 then (0, m)
  else if tableEntry m dir virtAddress &&& PAGE_WRITE_PROTECTED ≠ 0 then (0, m)
  else (tableEntry m dir virtAddress &&& 0xFFFFF000, setTableEntry m dir virtAddress 0)

def getPhysicalAddress (dir : PageDirectory) (virtAddress : Nat) : Nat :=
  if dirEntry m dir (GET_PD_IDX virtAddress) &&& PAGE_PRESENT = 0 then 0
  else if tableEntry m dir virtAddress &&& PAGE_PRESENT = 0 then 0
  else tableEntry m dir virtAddress &&& 0xFFFFF000

/-- The common part of `protectPage` and `unprotectPage`: rewrite the entry of a
page that is present. -/
def updateEntry (dir : PageDirectory) (virtAddress : Nat) (update : Nat → Nat) : Mem :=
  let vaddr := virtAddress &&& 0xFFFFF000
  if dirEntry m dir (GET_PD_IDX vaddr) &&& PAGE_PRESENT = 0 then m
  else if tableEntry m dir vaddr &&& PAGE_PRESENT = 0 then m
  else setTableEntry m dir vaddr (update (tableEntry m dir vaddr))

def protectPage (dir : PageDirectory) (virtAddress : Nat) : Mem :=
  updateEntry m dir virtAddress (· ||| PAGE_WRITE_PROTECTED)

def unprotectPage (dir : PageDirectory) (virtAddress : Nat) : Mem :=
  updateEntry m dir virtAddress (· &&& (0xFFFFFFFF - PAGE_WRITE_PROTECTED))

def kernelIndex : Nat := KERNEL_START / (PAGESIZE * 1024)

/-- Physical address of page `i` of the paging area, behind the initial heap. -/
def bootFrame (reservedMemoryEnd i : Nat) : Nat :=
  (reservedMemoryEnd + PAGESIZE * 1024 + i * PAGESIZE) % 2 ^ 32

/-- The base directory has a fixed place in the paging area, behind the 256
tables of kernel space. -/
def baseDirectory (reservedMemoryEnd : Nat) : PageDirectory where
  pageDirectory := VIRT_PAGE_MEM_START + 0x100000
  physPageDirectoryAddress := (reservedMemoryEnd + PAGESIZE * 1024 + 0x100000) % 2 ^ 32
  virtTableAddresses := VIRT_PAGE_MEM_START + 0x101000

def enterKernelTable (dir : PageDirectory) (reservedMemoryEnd : Nat) (m : Mem) (i : Nat) : Mem :=
  let m := setWord m dir.pageDirectory (kernelIndex + i)
    (bootFrame reservedMemoryEnd i ||| PAGE_PRESENT ||| PAGE_READ_WRITE ||| PAGE_ACCESS_ALL)
  setWord m dir.virtTableAddresses (kernelIndex + i) (VIRT_PAGE_MEM_START + i * PAGESIZE)

def mapBootPage (dir : PageDirectory) (reservedMemoryEnd : Nat) (m : Mem) (i : Nat) : Mem :=
  let m := setWord m (tableAddress m dir kernelIndex) i
    (i * PAGESIZE ||| PAGE_READ_WRITE ||| PAGE_PRESENT ||| PAGE_ACCESS_ALL)
  if i < reservedMemoryEnd / PAGESIZE then
    setWord m (tableAddress m dir kernelIndex) i
      (getWord m (tableAddress m dir kernelIndex) i ||| PAGE_WRITE_PROTECTED)
  else m

/-- The loop over the boot pages. Its counter has 16 bits, so it does not end
when there are more than 65535 pages. -/
def mapBootPages (dir : PageDirectory) (reservedMemoryEnd pageCount : Nat) :
    Nat → Nat → Mem → Option Mem
  | 0, _, _ => none
  | fuel + 1, i, m =>
      if i < pageCount then
        mapBootPages dir reservedMemoryEnd pageCount fuel ((i + 1) % 2 ^ 16)
          (mapBootPage dir reservedMemoryEnd m i)
      else some m

def mapPagingPage (dir : PageDirectory) (reservedMemoryEnd : Nat) (m : Mem) (i : Nat) : Mem :=
  setWord m (tableAddress m dir (VIRT_PAGE_MEM_START / (PAGESIZE * 1024))) i
    (bootFrame reservedMemoryEnd i ||| PAGE_PRESENT ||| PAGE_READ_WRITE ||| PAGE_WRITE_PROTECTED)

/-- The constructor of the base directory. The result is the memory it leaves. -/
def bootstrap (reservedMemoryEnd : Nat) : Option Mem := do
  let dir := baseDirectory reservedMemoryEnd
  let pageCount := reservedMemoryEnd / PAGESIZE + 1024
  let m := clear m VIRT_PAGE_MEM_START (PAGESIZE * 1024)
  let m := (List.range 256).foldl (enterKernelTable dir reservedMemoryEnd) m
  let m ← mapBootPages dir reservedMemoryEnd pageCount (2 ^ 16 + 1) 0 m
  return (List.range 258).foldl (mapPagingPage dir reservedMemoryEnd) m

def copyKernelEntry (dir base : PageDirectory) (m : Mem) (i : Nat) : Mem :=
  let m := setWord m dir.pageDirectory (kernelIndex + i) (dirEntry m base (kernelIndex + i))
  setWord m dir.virtTableAddresses (kernelIndex + i) (tableAddress m base (kernelIndex + i))

/-- The constructor of a process directory, given the two pages it allocates.
`current` is the directory of the current address space. -/
def process (base current : PageDirectory) (pageDirectory virtTableAddresses : Nat) :
    Option (PageDirectory × Mem) :=
  if pageDirectory = 0 ∨ virtTableAddresses = 0 then none
  else
    let m := clear (clear m pageDirectory PAGESIZE) virtTableAddresses PAGESIZE
    let dir : PageDirectory :=
      ⟨pageDirectory, getPhysicalAddress m current pageDirectory, virtTableAddresses⟩
    some (dir, (List.range (1024 - kernelIndex)).foldl (copyKernelEntry dir base) m)

end PageDirectory

end HuyaOS
