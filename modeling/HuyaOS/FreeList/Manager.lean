import HuyaOS.Kernel.UnmapRange

/-!
`FreeListMemoryManager`, the heap of the kernel and of every address space.
The free chunks form a doubly linked list that is threaded through the managed
memory itself: each block starts with a header of three words, and the state of
the model is the byte memory together with the fields of the manager.

Pointers are 32-bit numbers and zero is the null pointer. A loop over the list
carries fuel for one visit of every address, so that running out of it means
that the list is cyclic. Reading or writing through a pointer that the source
does not test against null faults when the pointer is null. The lock that the
public operations take around their work is not part of this sequential model.
-/

namespace HuyaOS.FreeListMemoryManager

open Lib MemoryUtil Management

/-- Ways in which an operation fails to return. -/
inductive Fault
  | nullPointer
  | divergence
  deriving DecidableEq, Repr

@[simp] abbrev HEADER_SIZE : Nat := 12

@[simp] abbrev MIN_BLOCK_SIZE : Nat := 4

def getPrev (m : Mem) (header : Nat) : Nat := load32 m header

def getNext (m : Mem) (header : Nat) : Nat := load32 m (header + 4)

def getSize (m : Mem) (header : Nat) : Nat := load32 m (header + 8)

def setPrev (m : Mem) (header value : Nat) : Mem := store32 m header value

def setNext (m : Mem) (header value : Nat) : Mem := store32 m (header + 4) value

def setSize (m : Mem) (header value : Nat) : Mem := store32 m (header + 8) value

/-- The manager and the memory it works on. -/
structure Heap where
  memoryStartAddress : Nat
  memoryEndAddress : Nat
  freeMemory : Nat
  doUnmap : Bool
  firstChunk : Nat
  mem : Mem

/-- Enough iterations to visit every address once. -/
@[simp] abbrev maxChunks : Nat := 2 ^ 32

/-- A dereference that the source leaves unguarded. -/
def deref (pointer : Nat) : Except Fault Unit :=
  if pointer = 0 then .error .nullPointer else .ok ()

variable (h : Heap)

/-- `if (node != nullptr) node->prev = value;` -/
def linkPrev (node value : Nat) : Heap :=
  if node ≠ 0 then { h with mem := setPrev h.mem node value } else h

/-- `if (node != nullptr) node->next = value; else firstChunk = value;` -/
def linkNext (node value : Nat) : Heap :=
  if node ≠ 0 then { h with mem := setNext h.mem node value }
  else { h with firstChunk := value }

def init (m : Mem) (memoryStartAddress memoryEndAddress : Nat) (doUnmap : Bool) :
    Except Fault Heap := do
  let freeMemory := sub32 memoryEndAddress memoryStartAddress
  if freeMemory < HEADER_SIZE then
    return ⟨memoryStartAddress, memoryEndAddress, freeMemory, doUnmap, 0, m⟩
  else
    let freeMemory := sub32 freeMemory HEADER_SIZE
    deref memoryStartAddress
    let m := setSize m memoryStartAddress freeMemory
    let m := setNext m memoryStartAddress 0
    let m := setPrev m memoryStartAddress 0
    return ⟨memoryStartAddress, memoryEndAddress, freeMemory, doUnmap, memoryStartAddress, m⟩

def findNext (m : Mem) (reqSize : Nat) : Nat → Nat → Except Fault Nat
  | 0, _ => .error .divergence
  | fuel + 1, current =>
      if current = 0 then .ok 0
      else if reqSize ≤ getSize m current then .ok current
      else findNext m reqSize fuel (getNext m current)

/-- How the search of `allocAlgorithm` ends: with no chunk, with a chunk whose
payload has the required alignment, or with a chunk that an aligned block is
to be cut out of. -/
inductive Found
  | none
  | fits (current : Nat)
  | carves (current aligned : Nat)
  deriving DecidableEq, Repr

/-- The header of the aligned block that is cut out of `current`. -/
def alignedHeader (current alignment : Nat) : Nat :=
  sub32 (alignUp (add32 (add32 (add32 current HEADER_SIZE) HEADER_SIZE) MIN_BLOCK_SIZE) alignment)
    HEADER_SIZE

/-- The search loop of `allocAlgorithm`. -/
def allocSearch (m : Mem) (size alignment : Nat) : Nat → Nat → Except Fault Found
  | 0, _ => .error .divergence
  | fuel + 1, current =>
      if current = 0 then .ok .none
      else if size ≤ getSize m current ∧ add32 current HEADER_SIZE =
        alignUp (add32 current HEADER_SIZE) alignment then
        .ok (.fits current)
      else if size ≤ getSize m current ∧
        add32 (add32 (alignedHeader current alignment) HEADER_SIZE) size ≤
            add32 (add32 current HEADER_SIZE) (getSize m current) then
        .ok (.carves current (alignedHeader current alignment))
      else do
        let current ← findNext m size maxChunks (getNext m current)
        allocSearch m size alignment fuel current

/-- Insert the header of the aligned block behind `current`. -/
def carve (current aligned : Nat) : Heap :=
  let m := h.mem
  let m := setSize m aligned
    (add32 (sub32 (add32 (add32 current HEADER_SIZE) (getSize m current)) aligned) HEADER_SIZE)
  let m := setSize m current (add32 (sub32 aligned current) HEADER_SIZE)
  let m := setPrev m aligned current
  let m := setNext m aligned (getNext m current)
  let h := linkPrev { h with mem := m } (getNext m aligned) aligned
  { h with mem := setNext h.mem (getPrev h.mem aligned) aligned }

/-- Put the unused rest of `current` into its place in the free list. -/
def sliceChunk (current size slice : Nat) : Heap :=
  let m := setSize h.mem slice (sub32 (sub32 (getSize h.mem current) size) HEADER_SIZE)
  let m := setNext m slice (getNext m current)
  let m := setPrev m slice (getPrev m current)
  let h := linkPrev { h with mem := m } (getNext m slice) slice
  let h := linkNext h (getPrev h.mem slice) slice
  { h with mem := setSize h.mem current size, freeMemory := sub32 h.freeMemory HEADER_SIZE }

/-- Take the whole of `current` out of the free list. -/
def unlinkChunk (current : Nat) : Heap :=
  let h := linkPrev h (getNext h.mem current) (getPrev h.mem current)
  linkNext h (getPrev h.mem current) (getNext h.mem current)

/-- Clear the links of the block that is handed out and stop counting its
payload as free. -/
def clearLinks (current : Nat) : Heap :=
  let m := setPrev (setNext h.mem current 0) current 0
  { h with mem := m, freeMemory := sub32 h.freeMemory (getSize m current) }

/-- The end of `allocAlgorithm`: cut the chosen chunk to size and return its
payload. -/
def takeChunk (current size : Nat) : Except Fault (Nat × Heap) := do
  if MIN_BLOCK_SIZE + HEADER_SIZE ≤ sub32 (getSize h.mem current) size then
    let slice := add32 (add32 current HEADER_SIZE) size
    deref slice
    return (add32 current HEADER_SIZE, clearLinks (sliceChunk h current size slice) current)
  else return (add32 current HEADER_SIZE, clearLinks (unlinkChunk h current) current)

def allocAlgorithm (size alignment startChunk : Nat) : Except Fault (Nat × Heap) := do
  if size = 0 then return (0, h)
  let startChunk := if startChunk = 0 then h.firstChunk else startChunk
  let size := alignUp size 4
  match ← allocSearch h.mem size alignment maxChunks startChunk with
  | .none => return (0, h)
  | .fits current => takeChunk h current size
  | .carves current aligned => do
      deref aligned
      takeChunk (carve h current aligned) aligned size

def alloc (size alignment : Nat) : Except Fault (Nat × Heap) :=
  allocAlgorithm h size alignment h.firstChunk

/-- The first half of `merge`: absorb the next chunk of the list. -/
def mergeNext (tmp : Nat) : Heap :=
  let next := getNext h.mem tmp
  if next ≠ 0 ∧ add32 (add32 tmp HEADER_SIZE) (getSize h.mem tmp) = next then
    let m := setSize h.mem tmp (add32 (getSize h.mem tmp) (add32 (getSize h.mem next) HEADER_SIZE))
    let h := linkPrev { h with mem := m } (getNext m (getNext m tmp)) tmp
    { h with
      mem := setNext h.mem tmp (getNext h.mem (getNext h.mem tmp))
      freeMemory := add32 h.freeMemory HEADER_SIZE }
  else h

/-- The second half of `merge`: be absorbed by the previous chunk. -/
def mergePrev (origin : Nat) : Except Fault (Nat × Heap) := do
  let tmp := getPrev h.mem origin
  if tmp ≠ 0 ∧ add32 (add32 tmp HEADER_SIZE) (getSize h.mem tmp) = origin then
    deref (getNext h.mem tmp)
    let m := setSize h.mem tmp
      (add32 (getSize h.mem tmp) (add32 (getSize h.mem (getNext h.mem tmp)) HEADER_SIZE))
    let h := linkPrev { h with mem := m } (getNext m (getNext m tmp)) tmp
    return (tmp, { h with
      mem := setNext h.mem tmp (getNext h.mem (getNext h.mem tmp))
      freeMemory := add32 h.freeMemory HEADER_SIZE })
  else return (origin, h)

def merge (origin : Nat) : Except Fault (Nat × Heap) :=
  if h.firstChunk = 0 then .ok (0, h) else mergePrev (mergeNext h origin) origin

/-- The loop of `freeAlgorithm`: the chunk behind which `header` belongs, or
null when the loop runs off the list. -/
def findPosition (m : Mem) (header : Nat) : Nat → Nat → Except Fault Nat
  | 0, _ => .error .divergence
  | fuel + 1, tmp =>
      if tmp = 0 then .ok 0
      else if tmp < header ∧ (header < getNext m tmp ∨ getNext m tmp = 0) then .ok tmp
      else findPosition m header fuel (getNext m tmp)

def insertAfter (tmp header : Nat) : Heap :=
  let m := setNext h.mem header (getNext h.mem tmp)
  let m := setPrev m header tmp
  let h := linkPrev { h with mem := m } (getNext m header) header
  { h with mem := setNext h.mem (getPrev h.mem header) header }

def insertChunk (header : Nat) : Except Fault Heap := do
  if h.firstChunk = 0 then return { h with firstChunk := header }
  else if header < h.firstChunk then
    let m := setNext h.mem header h.firstChunk
    let m := setPrev m header 0
    let m := setPrev m h.firstChunk header
    return { h with mem := m, firstChunk := header }
  else
    let tmp ← findPosition h.mem header maxChunks h.firstChunk
    if tmp = 0 then return h else return insertAfter h tmp header

/-- The pages that a release hands to the single-page unmap, with the answers. -/
def releaseCalls (pager : Pager) (mergedHeader : Nat) : List (Nat × Nat) :=
  if h.doUnmap ∧ PAGESIZE ≤ getSize h.mem mergedHeader ∧ pager.initialized then
    let chunkEndAddr := add32 mergedHeader (add32 HEADER_SIZE (getSize h.mem mergedHeader))
    unmapCalls pager.response (add32 mergedHeader HEADER_SIZE) (sub32 chunkEndAddr 1)
  else []

/-- `FreeListMemoryManager::freeAlgorithm`, with the unmap calls it makes. -/
def freeAlgorithm (pager : Pager) (ptr : Nat) : Except Fault (Heap × List (Nat × Nat)) := do
  if ptr = 0 then return (h, [])
  else if ptr < h.memoryStartAddress ∨ h.memoryEndAddress < ptr then return (h, [])
  else
    let header := sub32 ptr HEADER_SIZE
    deref header
    let h := { h with freeMemory := add32 h.freeMemory (getSize h.mem header) }
    let h ← insertChunk h header
    let (mergedHeader, h) ← merge h header
    let calls := releaseCalls h pager mergedHeader
    return ({ h with mem := discard pager.contents calls h.mem }, calls)

/-- The scan of `realloc` for the best fitting chunk below `ptr`. It is a
`do`-`while` loop, so the first chunk is read without a test. The result is
the chunk at which the scan stopped and the best fit. -/
def reallocScan (m : Mem) (ptr size : Nat) : Nat → Nat → Nat → Except Fault (Nat × Nat)
  | 0, _, _ => .error .divergence
  | fuel + 1, currentChunk, returnChunk => do
      deref currentChunk
      let returnChunk :=
        if size ≤ getSize m currentChunk ∧
          (returnChunk = 0 ∨ getSize m currentChunk < getSize m returnChunk) then
          currentChunk
        else returnChunk
      let currentChunk := getNext m currentChunk
      if currentChunk ≠ 0 ∧ currentChunk < ptr then
        reallocScan m ptr size fuel currentChunk returnChunk
      else return (currentChunk, returnChunk)

/-- Take `currentChunk` out of the free list and add it to the block in front of
it. The source does not test whether there is a previous chunk. -/
def absorbChunk (oldHeader currentChunk : Nat) : Except Fault Heap := do
  let h := { h with freeMemory := sub32 h.freeMemory (getSize h.mem currentChunk) }
  deref (getPrev h.mem currentChunk)
  let m := setNext h.mem (getPrev h.mem currentChunk) (getNext h.mem currentChunk)
  let h := linkPrev { h with mem := m } (getNext m currentChunk) (getPrev m currentChunk)
  return { h with
    mem := setSize h.mem oldHeader
      (add32 (getSize h.mem oldHeader) (add32 (getSize h.mem currentChunk) HEADER_SIZE)) }

/-- Let the block at `ptr` absorb the free chunk that follows it and give the
surplus back. -/
def extendInPlace (pager : Pager) (ptr size oldHeader currentChunk : Nat) : Except Fault Heap := do
  let h ← absorbChunk h oldHeader currentChunk
  if HEADER_SIZE + MIN_BLOCK_SIZE < sub32 (getSize h.mem oldHeader) size then
    let newHeader := add32 ptr size
    deref newHeader
    let m := setSize h.mem newHeader (sub32 (sub32 (getSize h.mem oldHeader) size) HEADER_SIZE)
    let (h, _) ← freeAlgorithm { h with mem := m } pager (add32 newHeader HEADER_SIZE)
    return { h with mem := setSize h.mem oldHeader size }
  else return h

/-- The end of `realloc`: move the contents into the new block and release the
old one. -/
def moveBlock (pager : Pager) (ptr size oldHeader ret : Nat) : Except Fault (Nat × Heap) := do
  if ret = 0 then return (0, h)
  else
    let oldSize := getSize h.mem oldHeader
    let m := copyBytes h.mem ret ptr (if size < oldSize then size else oldSize)
    let (h, _) ← freeAlgorithm { h with mem := m } pager ptr
    return (ret, h)

/-- The branch of `realloc` for a larger size and a suitably aligned block. -/
def reallocGrow (pager : Pager) (ptr size alignment oldHeader : Nat) : Except Fault (Nat × Heap) :=
  do
  let (currentChunk, returnChunk) ← reallocScan h.mem ptr size maxChunks h.firstChunk 0
  if currentChunk ≠ 0 ∧ add32 ptr (getSize h.mem oldHeader) = currentChunk ∧
      size ≤ add32 (add32 (getSize h.mem oldHeader) (getSize h.mem currentChunk)) HEADER_SIZE then
    let h ← extendInPlace h pager ptr size oldHeader currentChunk
    return (ptr, h)
  else
    let (ret, h) ← allocAlgorithm h size alignment returnChunk
    moveBlock h pager ptr size oldHeader ret

/-- The branch of `realloc` for a smaller size. The argument of `free` is the
source's `newHeader + HEADER_SIZE`, an addition to a pointer to 12-byte
headers, so it lies 144 bytes behind `newHeader`. -/
def reallocShrink (pager : Pager) (ptr size oldHeader : Nat) : Except Fault (Nat × Heap) := do
  if MIN_BLOCK_SIZE + HEADER_SIZE < sub32 (getSize h.mem oldHeader) size then
    let newHeader := add32 ptr size
    deref newHeader
    let m := setSize h.mem newHeader (sub32 (sub32 (getSize h.mem oldHeader) size) HEADER_SIZE)
    let (h, _) ← freeAlgorithm { h with mem := m } pager
      (add32 newHeader (HEADER_SIZE * HEADER_SIZE))
    return (ptr, { h with mem := setSize h.mem oldHeader size })
  else return (ptr, h)

def realloc (pager : Pager) (ptr size alignment : Nat) : Except Fault (Nat × Heap) := do
  if size = 0 then
    let (h, _) ← freeAlgorithm h pager ptr
    return (0, h)
  else
    let oldHeader := sub32 ptr HEADER_SIZE
    deref oldHeader
    let oldSize := getSize h.mem oldHeader
    if alignment = 0 ∨ ptr % alignment = 0 then
      if oldSize = size then return (ptr, h)
      else if size < oldSize then reallocShrink h pager ptr size oldHeader
      else reallocGrow h pager ptr size alignment oldHeader
    else
      let (ret, h) ← alloc h size alignment
      moveBlock h pager ptr size oldHeader ret

end HuyaOS.FreeListMemoryManager
