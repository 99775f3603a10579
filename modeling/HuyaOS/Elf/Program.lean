import HuyaOS.Elf.Constants
import HuyaOS.Filesystem.NodeData
import HuyaOS.Filesystem.TarArchive
import HuyaOS.Paging.PageDirectory

/-!
`Elf`, which `Management::loadApplication` uses to bring a program into a new address
space. The size of the program in memory says where the user heap of the address space
begins; afterwards the segments are read from the file to the addresses that their headers
give.

The headers are in kernel memory and do not change while the segments are read, as long as
no segment reaches kernel memory.
-/

namespace HuyaOS.Elf

open Lib ProgramHeaderType MemoryUtil List
open Filesystem (NodeData TarArchiveNode END_OF_FILE)
open Paging (KERNEL_START)
open Management (PAGESIZE)

/-- A file that is read, by the contents of its node. The nodes of a `RamFsDriver` and of a
`FatDriver` mark the end of the file in the buffer, those of an archive do not. -/
structure File where
  bytes : List UInt8
  marksEnd : Bool
  pos : Nat

namespace File

/-- `setPos(offset, START)` -/
def setPos (file : File) (offset : Nat) : File := { file with pos := offset }

def buffer (file : File) (len : Nat) : List UInt8 :=
  let data := NodeData.readBytes file.bytes file.pos len
  if file.marksEnd ∧ data.length < len then data ++ [END_OF_FILE] else data

def readBytes (file : File) (len : Nat) : List UInt8 × File :=
  (file.buffer len,
    { file with pos := file.pos + (NodeData.readBytes file.bytes file.pos len).length })

variable {file : File} {len : Nat}

theorem length_readBytes : (NodeData.readBytes file.bytes file.pos len).length =
    min len (file.bytes.length - file.pos) := by
  unfold NodeData.readBytes
  rw [length_take, length_drop]
  omega

theorem length_buffer : (file.buffer len).length =
    min len (file.bytes.length - file.pos + file.marksEnd.toNat) := by
  unfold buffer
  dsimp only
  split
  · rename_i h
    rw [length_append, length_readBytes, h.1]
    have hshort := h.2
    rw [length_readBytes] at hshort
    change _ + 1 = min len (_ + 1)
    omega
  · rename_i h
    rw [length_readBytes] at h ⊢
    cases hmarks : file.marksEnd with
    | false => rfl
    | true =>
      have hlong : ¬min len (file.bytes.length - file.pos) < len := fun hshort =>
        h ⟨hmarks, hshort⟩
      change _ = min len (_ + 1)
      omega

/-- The buffer holds what the node of a `RamFsDriver` stores there, ... -/
theorem buffer_ramFs {node : NodeData} (hnode : node.Holds file.bytes)
    (hlength : file.bytes.length < 2 ^ 32) (hmarks : file.marksEnd = true)
    (hlt : file.pos + len < 2 ^ 64) :
    Filesystem.RamFsNode.readData node file.pos len =
      .ok ((NodeData.readBytes file.bytes file.pos len).length, file.buffer len) := by
  unfold Filesystem.RamFsNode.readData buffer
  rw [hnode.readData hlt hlength, ← length_readBytes]
  simp only [hmarks, true_and, bind, Except.bind]
  rfl

/-- ... and what a node of an archive stores there. -/
theorem buffer_tar {memory : Mem} {node : TarArchiveNode} {address : Nat}
    (haddress : node.fileBuffer = some address) (hsize : node.fileSize = file.bytes.length)
    (hcontents : Filesystem.Tar.bytesAt memory address file.bytes.length = file.bytes)
    (hmarks : file.marksEnd = false) (hlt : file.pos + len < 2 ^ 64) :
    node.readData memory file.pos len =
      .ok ((NodeData.readBytes file.bytes file.pos len).length, file.buffer len) := by
  have hbytes : NodeData.readBytes file.bytes file.pos len =
      (file.bytes.drop file.pos).take len := by
    unfold NodeData.readBytes
    rw [← length_drop, take_eq_take_iff]
    omega
  unfold buffer
  rw [TarArchiveNode.readData_eq haddress hsize hcontents hlt, hmarks, hbytes]
  simp

end File

/-- A record after `data` has been read into it. -/
def fill (record : Mem) (data : List UInt8) : Mem :=
  overlay record 0 data.length fun i => data.getD i 0

structure Program where
  file : File
  fileHeader : FileHeader
  programHeaders : List ProgramHeader

namespace Program

/-- One round of `readProgramHeaders`. The same record is filled in every round, so that
what lies behind the end of the file is taken from the header before. -/
def readProgramHeader (fileHeader : FileHeader) (s : File × Mem × List ProgramHeader) (i : Nat) :
    File × Mem × List ProgramHeader :=
  let file := s.1.setPos (add32 fileHeader.programHeader (i * fileHeader.programHeaderEntrySize))
  let (data, file) := file.readBytes ProgramHeader.size
  let programHeader := fill s.2.1 data
  (file, programHeader, s.2.2 ++ [ProgramHeader.ofMem programHeader 0])

def load (bytes : List UInt8) (marksEnd : Bool) : Option Program :=
  let (data, file) := File.readBytes ⟨bytes, marksEnd, 0⟩ FileHeader.size
  let fileHeader := FileHeader.ofMem (fill (fun _ => 0) data) 0
  if fileHeader.isValid then
    let read := (List.range fileHeader.programHeaderEntries).foldl (readProgramHeader fileHeader)
      (file, fun _ => 0, [])
    some ⟨read.1, fileHeader, read.2.2⟩
  else none

/-- The loop of `getSizeInMemory`. -/
def memoryEnd (ret : Nat) : List ProgramHeader → Nat
  | [] => ret
  | header :: headers =>
      if header.type = LOAD then
        let size := add32 header.virtualAddress header.memorySize
        memoryEnd (if size > ret then size else ret) headers
      else memoryEnd ret headers

def getSizeInMemory (elf : Program) : Nat := alignUp (memoryEnd 0 elf.programHeaders) PAGESIZE

/-- The loop of `loadProgram`, with the bytes that are written and their addresses. -/
def loadSegments (file : File) : List ProgramHeader → List (Nat × UInt8)
  | [] => []
  | header :: headers =>
      if header.type = LOAD then
        let (data, file) := (file.setPos header.offset).readBytes header.fileSize
        data.mapIdx (fun i byte => (add32 header.virtualAddress i, byte)) ++
          loadSegments file headers
      else loadSegments file headers

def loadProgram (elf : Program) : List (Nat × UInt8) := loadSegments elf.file elf.programHeaders

end Program

structure VirtualAddressSpace where
  heapAddress : Nat

namespace VirtualAddressSpace

def new (heapAddress : Nat) : VirtualAddressSpace := ⟨alignUp heapAddress PAGESIZE⟩

def heapStart (space : VirtualAddressSpace) : Nat := alignUp space.heapAddress PAGESIZE

end VirtualAddressSpace

/-- `loadApplication`, up to the entry point: the start of the heap, and what is written. -/
def loadApplication (bytes : List UInt8) (marksEnd : Bool) :
    Option (Nat × List (Nat × UInt8)) := do
  let elf ← Program.load bytes marksEnd
  let addressSpace := VirtualAddressSpace.new elf.getSizeInMemory
  return (addressSpace.heapStart, elf.loadProgram)

section Segments

variable {bytes : List UInt8} {marksEnd : Bool} {elf : Program}

/-- How many bytes are written for a segment: those that are in the file and, if there are too
few, the mark of its end. -/
def written (bytes : List UInt8) (marksEnd : Bool) (header : ProgramHeader) : Nat :=
  min header.fileSize (bytes.length - header.offset + marksEnd.toNat)

theorem forall_loadSegments (file : File) (headers : List ProgramHeader) (Q : Nat → Prop) :
    (∀ w ∈ Program.loadSegments file headers, Q w.1) ↔
      ∀ header ∈ headers, header.type = LOAD →
        ∀ i < written file.bytes file.marksEnd header, Q (add32 header.virtualAddress i) := by
  induction headers generalizing file with
  | nil => simp [Program.loadSegments]
  | cons header headers ih =>
    rw [forall_mem_cons, Program.loadSegments]
    by_cases hload : header.type = LOAD
    · rw [if_pos hload, forall_mem_append]
      have hrest := ih ((file.setPos header.offset).readBytes header.fileSize).2
      have hlength : (((file.setPos header.offset).readBytes header.fileSize).1).length =
          written file.bytes file.marksEnd header := File.length_buffer
      refine and_congr ?_ hrest
      simp only [hload, true_implies, ← hlength]
      constructor
      · intro h i hi
        exact h _ (mem_mapIdx.mpr ⟨i, hi, rfl⟩)
      · rintro h w hw
        obtain ⟨i, hi, rfl⟩ := mem_mapIdx.mp hw
        exact h i hi
    · rw [if_neg hload, ih]
      simp [hload]

theorem lt_memoryEnd_iff (a ret : Nat) (headers : List ProgramHeader) :
    a < Program.memoryEnd ret headers ↔ a < ret ∨ ∃ header ∈ headers, header.type = LOAD ∧
      a < add32 header.virtualAddress header.memorySize := by
  induction headers generalizing ret with
  | nil => simp [Program.memoryEnd]
  | cons header headers ih =>
    rw [Program.memoryEnd, exists_mem_cons_iff]
    by_cases hload : header.type = LOAD
    · have hmax : (a < if add32 header.virtualAddress header.memorySize > ret
          then add32 header.virtualAddress header.memorySize else ret) ↔
          a < ret ∨ a < add32 header.virtualAddress header.memorySize := by
        split_ifs <;> omega
      rw [if_pos hload, ih, hmax, or_assoc]
      simp only [hload, true_and]
    · rw [if_neg hload, ih]
      simp [hload]

/-- A page rounded up in 32 bits, with the last page of the address space rounded to zero. -/
theorem lt_alignUp_page_iff {a x : Nat} (hx : x < 2 ^ 32) :
    a < alignUp x PAGESIZE ↔ x + PAGESIZE ≤ 2 ^ 32 ∧ a / PAGESIZE * PAGESIZE < x := by
  have hround : alignUp x (2 ^ 12) = _ := alignUp_two_pow (by decide)
  have hpage : PAGESIZE = 2 ^ 12 := rfl
  rw [hpage, hround]
  simp only [add32]
  omega

theorem alignUp_page_idem (x : Nat) :
    alignUp (alignUp x PAGESIZE) PAGESIZE = alignUp x PAGESIZE := by
  have hpage : PAGESIZE = 2 ^ 12 := rfl
  rw [hpage, alignUp_two_pow (by decide), alignUp_two_pow (by decide)]
  simp only [add32]
  omega

theorem foldl_readProgramHeader (fileHeader : FileHeader) (file : File) (n : Nat) :
    let read := (List.range n).foldl (Program.readProgramHeader fileHeader) (file, fun _ => 0, [])
    (read.1.bytes = file.bytes ∧ read.1.marksEnd = file.marksEnd) ∧
      ∀ header ∈ read.2.2, header.virtualAddress < 2 ^ 32 := by
  induction n with
  | zero => exact ⟨⟨rfl, rfl⟩, fun header h => absurd h not_mem_nil⟩
  | succ n ih =>
    obtain ⟨hbytes, hwords⟩ := ih
    rw [range_succ, foldl_concat]
    refine ⟨hbytes, fun header h => ?_⟩
    rcases mem_append.mp h with h | h
    · exact hwords header h
    · rw [mem_singleton.mp h]
      exact load32_lt ..

theorem load_spec (h : Program.load bytes marksEnd = some elf) :
    (elf.file.bytes = bytes ∧ elf.file.marksEnd = marksEnd) ∧
      ∀ header ∈ elf.programHeaders, header.virtualAddress < 2 ^ 32 := by
  simp only [Program.load] at h
  split_ifs at h
  obtain rfl := Option.some.inj h
  exact foldl_readProgramHeader ..

/-- Every segment for which something is written ends in user space, and the last byte that is
written lies in a page that begins below the end of a segment in memory, where ends are taken
modulo 2 ^ 32. No segment ends in the last page of the address space. -/
def Confined (bytes : List UInt8) (marksEnd : Bool) (headers : List ProgramHeader) : Prop :=
  ∀ header ∈ headers, header.type = LOAD → 0 < written bytes marksEnd header →
    header.virtualAddress + written bytes marksEnd header ≤ KERNEL_START ∧
    (∃ other ∈ headers, other.type = LOAD ∧
      (header.virtualAddress + written bytes marksEnd header - 1) / PAGESIZE * PAGESIZE <
        add32 other.virtualAddress other.memorySize) ∧
    ∀ other ∈ headers, other.type = LOAD →
      add32 other.virtualAddress other.memorySize + PAGESIZE ≤ 2 ^ 32

instance (bytes : List UInt8) (marksEnd : Bool) (headers : List ProgramHeader) :
    Decidable (Confined bytes marksEnd headers) :=
  inferInstanceAs (Decidable (∀ header ∈ headers, _ → _ → _ ∧ _ ∧ _))

theorem lt_getSizeInMemory_iff (a : Nat) :
    a < elf.getSizeInMemory ↔
      (∃ other ∈ elf.programHeaders, other.type = LOAD ∧
        a / PAGESIZE * PAGESIZE < add32 other.virtualAddress other.memorySize) ∧
      ∀ other ∈ elf.programHeaders, other.type = LOAD →
        add32 other.virtualAddress other.memorySize + PAGESIZE ≤ 2 ^ 32 := by
  have hword : ¬2 ^ 32 - 1 < Program.memoryEnd 0 elf.programHeaders := by
    rw [lt_memoryEnd_iff]
    rintro (h | ⟨header, _, _, h⟩)
    · omega
    · have := add32_lt header.virtualAddress header.memorySize
      omega
  have hlast : Program.memoryEnd 0 elf.programHeaders + PAGESIZE ≤ 2 ^ 32 ↔
      ∀ other ∈ elf.programHeaders, other.type = LOAD →
        add32 other.virtualAddress other.memorySize + PAGESIZE ≤ 2 ^ 32 := by
    have hnot := not_congr (lt_memoryEnd_iff (2 ^ 32 - PAGESIZE) 0 elf.programHeaders)
    have hpage : PAGESIZE ≤ 2 ^ 32 := by decide
    simp only [not_or, not_exists, not_and, not_lt, Nat.not_lt_zero, not_false_eq_true,
      true_and] at hnot
    simp only [Nat.le_sub_iff_add_le hpage] at hnot
    exact hnot
  rw [Program.getSizeInMemory, lt_alignUp_page_iff (by omega), hlast, lt_memoryEnd_iff, and_comm]
  simp only [Nat.not_lt_zero, false_or]

theorem forall_segment_iff {va n : Nat} (hva : va < 2 ^ 32) (hpos : 0 < n) :
    (∀ i < n, add32 va i < KERNEL_START ∧ add32 va i < elf.getSizeInMemory) ↔
      va + n ≤ KERNEL_START ∧ va + n - 1 < elf.getSizeInMemory := by
  constructor
  · intro h
    have hkernel : va + n ≤ KERNEL_START := by
      by_contra hlong
      have hfirst := (h 0 hpos).1
      rw [add32_eq (by omega), Nat.add_zero] at hfirst
      have hreach : add32 va (KERNEL_START - va) = KERNEL_START := by
        rw [add32, Nat.add_sub_of_le hfirst.le]
        rfl
      exact absurd (h (KERNEL_START - va) (by omega)).1 (by rw [hreach]; exact lt_irrefl _)
    have hlast := (h (n - 1) (by omega)).2
    rw [add32_eq (by simp only [KERNEL_START] at hkernel; omega), ← Nat.add_sub_assoc hpos] at hlast
    exact ⟨hkernel, hlast⟩
  · rintro ⟨hkernel, hsize⟩ i hi
    rw [add32_eq (by simp only [KERNEL_START] at hkernel; omega)]
    exact ⟨by omega, by omega⟩

/-- A file with one segment, whose four bytes are behind the headers. -/
def oneSegment (virtualAddress fileSize memorySize : Nat) : List UInt8 :=
  let word (n : Nat) : List UInt8 := [n, n / 2 ^ 8, n / 2 ^ 16, n / 2 ^ 24].map UInt8.ofNat
  [0x7F, 69, 76, 70, 1, 1, 1, 0, 0, 0, 0, 0, 0, 0, 0, 0, 2, 0, 3, 0] ++
    word 1 ++ word 0 ++ word 52 ++ word 0 ++ word 0 ++ [52, 0, 32, 0, 1, 0, 40, 0, 0, 0, 0, 0] ++
    word LOAD ++ word 84 ++ word virtualAddress ++ word 0 ++ word fileSize ++ word memorySize ++
    word 5 ++ word 0x1000 ++ [0x90, 0x90, 0x90, 0xC3]

end Segments

end HuyaOS.Elf
