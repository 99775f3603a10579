import HuyaOS.Lib.Transition
import HuyaOS.MemoryUtil

/-!
`StaticHeapMemoryManager`, which hands out its region from the front and takes nothing back.
It keeps the position up to which the region is used, and apart from it the number of bytes
that are left. What is skipped for an alignment is not taken off this number, so the two
drift apart.

`free` does nothing. `realloc`, an allocation followed by a copy, is left out, and so is the
lock.
-/

namespace HuyaOS

open Lib MemoryUtil List

structure StaticHeapMemoryManager where
  memoryStartAddress : Nat
  memoryEndAddress : Nat
  freeMemory : Nat
  currentPosition : Nat

namespace StaticHeapMemoryManager

def init (memoryStartAddress memoryEndAddress : Nat) : StaticHeapMemoryManager where
  memoryStartAddress
  memoryEndAddress
  freeMemory := sub32 memoryEndAddress memoryStartAddress
  currentPosition := memoryStartAddress

structure Request where
  size : Nat
  alignment : Nat

def alloc (mgr : StaticHeapMemoryManager) (request : Request) : StaticHeapMemoryManager × Nat :=
  if mgr.freeMemory < request.size then (mgr, 0)
  else
    let ret := alignUp mgr.currentPosition request.alignment
    ({ mgr with
        currentPosition := add32 ret request.size
        freeMemory := sub32 mgr.freeMemory request.size }, ret)

def granted (mgr : StaticHeapMemoryManager) (requests : List Request) : List (Request × Nat) :=
  (requests.zip (execute alloc mgr requests).2).filter fun block => block.2 ≠ 0

/-- The block lies in the region and is aligned as requested. -/
structure InRegion (start stop : Nat) (block : Request × Nat) : Prop where
  start_le : start ≤ block.2
  le_stop : block.2 + block.1.size ≤ stop
  aligned : block.1.alignment = 0 ∨ block.1.alignment ∣ block.2

/-- The blocks have no byte in common. -/
def DisjointBlocks (a b : Request × Nat) : Prop := a.2 + a.1.size ≤ b.2 ∨ b.2 + b.1.size ≤ a.2

/-- The blocks of a region, all of them inside it and no two of them overlapping. -/
structure Placed (start stop : Nat) (blocks : List (Request × Nat)) : Prop where
  inRegion : ∀ block ∈ blocks, InRegion start stop block
  disjoint : blocks.Pairwise DisjointBlocks

/-- A request is not granted, or there is room for it behind the current position and what is
skipped for its alignment. -/
def Fits (mgr : StaticHeapMemoryManager) (request : Request) : Prop :=
  request.size ≤ mgr.freeMemory →
    roundUp mgr.currentPosition request.alignment + request.size ≤ mgr.memoryEndAddress

instance decidableFits (mgr : StaticHeapMemoryManager) (request : Request) :
    Decidable (mgr.Fits request) :=
  inferInstanceAs (Decidable (_ → _))

variable {mgr : StaticHeapMemoryManager} {request : Request} {requests : List Request}

@[simp] theorem memoryEndAddress_alloc (mgr : StaticHeapMemoryManager) (request : Request) :
    (mgr.alloc request).1.memoryEndAddress = mgr.memoryEndAddress := by
  unfold alloc
  split <;> rfl

theorem alloc_of_small (h : mgr.freeMemory < request.size) : mgr.alloc request = (mgr, 0) :=
  if_pos h

theorem alloc_of_fits (hend : mgr.memoryEndAddress < 2 ^ 32)
    (halign : IsAlignment request.alignment) (hfits : mgr.Fits request)
    (hsize : request.size ≤ mgr.freeMemory) :
    (mgr.alloc request).2 = roundUp mgr.currentPosition request.alignment ∧
      (mgr.alloc request).1.currentPosition =
        roundUp mgr.currentPosition request.alignment + request.size := by
  have hroom := hfits hsize
  have halloc : alignUp mgr.currentPosition request.alignment =
      roundUp mgr.currentPosition request.alignment :=
    alignUp_eq_roundUp halign (by omega)
  unfold alloc
  rw [if_neg (not_lt.mpr hsize)]
  simp only [halloc, true_and]
  exact add32_eq (by omega)

theorem granted_cons (mgr : StaticHeapMemoryManager) (request : Request) (requests : List Request) :
    mgr.granted (request :: requests) =
      if (mgr.alloc request).2 = 0 then (mgr.alloc request).1.granted requests
      else (request, (mgr.alloc request).2) :: (mgr.alloc request).1.granted requests := by
  unfold granted
  rw [execute, zip_cons_cons]
  by_cases hnull : (mgr.alloc request).2 = 0
  · simp [hnull]
  · simp [hnull]

/-- From any position on, a run whose requests fit is granted blocks behind this position, one
behind the other. -/
theorem granted_of_fits (hend : mgr.memoryEndAddress < 2 ^ 32)
    (halign : ∀ request ∈ requests, IsAlignment request.alignment)
    (hfits : AllMet alloc Fits mgr requests) :
    (∀ block ∈ mgr.granted requests, InRegion mgr.currentPosition mgr.memoryEndAddress block) ∧
      (mgr.granted requests).Pairwise fun a b => a.2 + a.1.size ≤ b.2 := by
  induction requests generalizing mgr with
  | nil => exact ⟨fun block hblock => absurd hblock not_mem_nil, Pairwise.nil⟩
  | cons request requests ih =>
    obtain ⟨hrequest, hrequests⟩ := forall_mem_cons.mp halign
    have hend' : (mgr.alloc request).1.memoryEndAddress < 2 ^ 32 := by
      rwa [memoryEndAddress_alloc]
    obtain ⟨hinside, hordered⟩ := ih hend' hrequests hfits.2
    rw [memoryEndAddress_alloc] at hinside
    rw [granted_cons]
    by_cases hsmall : mgr.freeMemory < request.size
    · rw [alloc_of_small hsmall] at hinside hordered ⊢
      exact ⟨hinside, hordered⟩
    · obtain ⟨hptr, hnext⟩ := alloc_of_fits hend hrequest hfits.1 (not_lt.mp hsmall)
      have hroom := hfits.1 (not_lt.mp hsmall)
      have hle := le_roundUp mgr.currentPosition request.alignment
      have hlater : ∀ block ∈ (mgr.alloc request).1.granted requests,
          InRegion mgr.currentPosition mgr.memoryEndAddress block := by
        intro block hblock
        obtain ⟨hstart, hstop, haligned⟩ := hinside block hblock
        exact ⟨by omega, hstop, haligned⟩
      split
      · exact ⟨hlater, hordered⟩
      · rw [hptr]
        refine ⟨forall_mem_cons.mpr ⟨⟨hle, hroom, ?_⟩, hlater⟩, Pairwise.cons ?_ hordered⟩
        · by_cases hzero : request.alignment = 0
          · exact .inl hzero
          · exact .inr (dvd_roundUp _ hzero)
        · intro block hblock
          rw [← hnext]
          exact (hinside block hblock).start_le

/-- In a run in which every request that is granted also fits, the blocks are disjoint, aligned
and inside the region. -/
theorem alloc_placed_of_fits {start stop : Nat} (hstop : stop < 2 ^ 32) (requests : List Request)
    (halign : ∀ request ∈ requests, IsAlignment request.alignment)
    (hfits : AllMet alloc Fits (init start stop) requests) :
    Placed start stop ((init start stop).granted requests) := by
  have hend : (init start stop).memoryEndAddress < 2 ^ 32 := hstop
  obtain ⟨hinside, hordered⟩ := granted_of_fits hend halign hfits
  exact ⟨hinside, hordered.imp fun h => .inl h⟩

/-- Two blocks with a gap between them in a region of a page. -/
theorem alloc_placed_of_fits_page :
    AllMet alloc Fits (init 0x1000 0x2000) [⟨10, 0⟩, ⟨0x20, 16⟩] ∧
      Placed 0x1000 0x2000 ((init 0x1000 0x2000).granted [⟨10, 0⟩, ⟨0x20, 16⟩]) := by
  have hfits : AllMet alloc Fits (init 0x1000 0x2000) [⟨10, 0⟩, ⟨0x20, 16⟩] := by decide +kernel
  refine ⟨hfits, alloc_placed_of_fits (by decide) _ ?_ hfits⟩
  intro request hrequest
  simp only [mem_cons, not_mem_nil, or_false] at hrequest
  rcases hrequest with rfl | rfl
  · exact .inl rfl
  · exact .inr ⟨4, by decide, rfl⟩

/-- In a region of 16 bytes one byte is taken and then, on the next multiple of 16, the 15 that
are left: the second block begins where the region ends. -/
theorem alloc_leaves_region :
    (init 0x1000 0x1010).granted [⟨1, 0⟩, ⟨15, 16⟩] = [(⟨1, 0⟩, 0x1000), (⟨15, 16⟩, 0x1010)] ∧
      ¬Placed 0x1000 0x1010 ((init 0x1000 0x1010).granted [⟨1, 0⟩, ⟨15, 16⟩]) := by
  have hgranted : (init 0x1000 0x1010).granted [⟨1, 0⟩, ⟨15, 16⟩] =
      [(⟨1, 0⟩, 0x1000), (⟨15, 16⟩, 0x1010)] := rfl
  refine ⟨hgranted, ?_⟩
  rw [hgranted]
  intro hplaced
  have hstop := (hplaced.inRegion (⟨15, 16⟩, 0x1010) (by simp)).le_stop
  exact absurd hstop (by decide)

end StaticHeapMemoryManager

end HuyaOS
