import HuyaOS.FreeList.Alloc
import HuyaOS.FreeList.Release

/-!
Allocation with an alignment. When the chosen chunk is aligned already, it is
cut like any other. Otherwise the source carves an aligned block out of it and
writes both new sizes with the header added instead of subtracted, so that the
remaining front chunk reaches 24 bytes into the block that is handed out.
-/

namespace HuyaOS.FreeListMemoryManager

open Lib MemoryUtil

/-- `alloc size alignment` returns; the heap afterwards is tiled by the old
live blocks and the new one, if there is one; and the new block is aligned,
large enough, inside the region and apart from the old live blocks. -/
def AlignedAlloc (bs : List Block) (h : Heap) (size alignment : Nat) : Prop :=
  ∃ ptr h' bs', alloc h size alignment = .ok (ptr, h') ∧ TilingInv bs' h' ∧ SameRegion h h' ∧
    (livePointers bs').Perm (if ptr = 0 then livePointers bs else ptr :: livePointers bs) ∧
    (ptr ≠ 0 → alignment ∣ ptr ∧ ∃ b ∈ bs', b.free = false ∧ b.payload = ptr ∧ size ≤ b.size ∧
      h.memoryStartAddress ≤ b.addr ∧ b.finish ≤ h.memoryEndAddress ∧
      ∀ c ∈ liveBlocks bs, c.finish ≤ b.addr ∨ b.finish ≤ c.addr)

/-- The request is void, or the chunk at which the search stops, if any, is
aligned as it is and the rounded size does not wrap around. -/
def NeedsNoCarving (bs : List Block) (size alignment : Nat) : Prop :=
  size = 0 ∨ ∀ b, choose (alignUp size 4) alignment bs = some b →
    b.Aligned alignment ∧ size + 3 < 2 ^ 32

section Aligned

variable {bs left right : List Block} {b : Block} {h : Heap} {size k : Nat}

theorem dvd_payload (hk : k < 32) (haligned : b.Aligned (2 ^ k)) (hb : b.payload < 2 ^ 32) :
    2 ^ k ∣ b.payload := by
  have hpayload : add32 b.addr 12 = b.payload := add32_eq hb
  unfold Block.Aligned at haligned
  rw [hpayload] at haligned
  rw [haligned]
  exact dvd_alignUp _ hk

theorem alignedAlloc_of_needsNoCarving (hinv : TilingInv bs h) (hk : k < 32)
    (hcond : NeedsNoCarving bs size (2 ^ k)) : AlignedAlloc bs h size (2 ^ k) := by
  have hc : Coherent ([] ++ bs) h := hinv.toCoherent
  have hfirst := hinv.toCoherent.searchStart_first
  have hnothing : alloc h size (2 ^ k) = .ok (0, h) → AlignedAlloc bs h size (2 ^ k) := fun hcall =>
    ⟨0, h, bs, hcall, hinv, ⟨rfl, rfl, rfl⟩, by simp, fun hne => absurd rfl hne⟩
  by_cases hsize : size = 0
  · apply hnothing
    rw [alloc, allocAlgorithm, if_pos hsize]
    rfl
  · cases hchoose : choose (alignUp size 4) (2 ^ k) bs with
    | none =>
      apply hnothing
      exact allocAlgorithm_none hc hfirst (choose_eq_none.mp hchoose)
    | some b =>
      obtain ⟨haligned, hexact⟩ := (hcond.resolve_left hsize) b hchoose
      obtain ⟨left, right, rfl, ⟨hfree, hfits, _⟩, _⟩ := choose_eq_some hchoose
      have hcall := allocAlgorithm_aligned hc hsize hfirst hchoose haligned
      obtain ⟨h', htake, htiling, hregion, _, _⟩ := takeChunk_tiling hinv hfree hfits
      have hbounds := hinv.bounds (b := b) (by simp)
      have hpayload : b.payload ≠ 0 := Nat.succ_ne_zero _
      have hmem : taken b (alignUp size 4) ∈ left ++ cut b (alignUp size 4) ++ right := by
        simp [taken_mem_cut]
      have hround : size ≤ alignUp size 4 := by
        rw [alignUp_four (by omega), if_pos hexact]
        omega
      refine ⟨b.payload, h', _, hcall.trans htake, htiling, hregion, ?_, fun _ => ⟨?_, ?_⟩⟩
      · exact livePointers_cut hfree
      · exact dvd_payload hk haligned (by unfold Block.payload; omega)
      · have hinside := htiling.block_bounds hmem
        rw [hregion.start_eq, hregion.end_eq] at hinside
        refine ⟨taken b (alignUp size 4), hmem, rfl, rfl, hround.trans (le_taken_size hfits),
          hinside.1, hinside.2, ?_⟩
        intro c hc
        obtain ⟨hcmem, hclive⟩ := mem_liveBlocks.mp hc
        have hshrink := taken_finish_le (b := b) (n := alignUp size 4)
        have hne : b ≠ c := by
          rintro rfl
          rw [hfree] at hclive
          cases hclive
        have hsep := Tiles.separated hinv.partition (by simp) hcmem hne
        have haddr : (taken b (alignUp size 4)).addr = b.addr := rfl
        omega

variable {aligned current : Nat}

/-- What a carve writes: the two sizes, and the links that put the aligned
header behind the front chunk. -/
theorem carve_spec (hinv : TilingInv (left ++ [b] ++ right) h) (hfree : b.free = true)
    (hfront : b.addr + 16 ≤ aligned) (hback : aligned + 12 ≤ b.finish) :
    getSize (carve h b.addr aligned).mem aligned = b.finish - aligned + 12 ∧
      getSize (carve h b.addr aligned).mem b.addr = aligned - b.addr + 12 ∧
      getPrev (carve h b.addr aligned).mem aligned = b.addr ∧
      getNext (carve h b.addr aligned).mem aligned = firstFree right ∧
      (carve h b.addr aligned).firstChunk = h.firstChunk ∧
      ∀ x, x < b.addr → (carve h b.addr aligned).mem x = h.mem x := by
  obtain ⟨hleft, hlt, hright⟩ := hinv.toCoherent.around
  have hnext := (hinv.toCoherent.chunk_links hfree).2
  have hsize := hinv.sizes b (by simp) hfree
  have hbounds := hinv.bounds (b := b) (by simp)
  have hff := hright.firstFree_cases
  unfold Block.finish at *
  unfold getNext at hnext
  unfold getSize at hsize
  -- The memory after the carve, in the order of the stores.
  let m0 := store32 h.mem (aligned + 8) (b.addr + 12 + b.size - aligned + 12)
  let m1 := store32 m0 (b.addr + 8) (aligned - b.addr + 12)
  let m2 := store32 m1 aligned b.addr
  let m3 := store32 m2 (aligned + 4) (firstFree right)
  let linked := linkPrev { h with mem := m3 } (firstFree right) aligned
  have hcarve :
      carve h b.addr aligned = { linked with mem := store32 linked.mem (b.addr + 4) aligned } := by
    have hbackSize : add32 (sub32 (add32 (add32 b.addr 12) b.size) aligned) 12 =
        b.addr + 12 + b.size - aligned + 12 := by
      rw [add32_add32 (by omega), sub32_eq (by omega) (by omega), add32_eq (by omega)]
    have hfrontSize : add32 (sub32 aligned b.addr) 12 = aligned - b.addr + 12 := by
      rw [sub32_eq (by omega) (by omega), add32_eq (by omega)]
    simp only [carve, getSize, getNext, getPrev, setSize, setNext, setPrev, hsize, hbackSize,
      hfrontSize, HEADER_SIZE]
    simp (disch := omega) only [load32_store32_of_disjoint, load32_store32_self, load32_linkPrev,
      Nat.mod_eq_of_lt, hnext]
    rfl
  rw [hcarve]
  simp only [getSize, getPrev, getNext, linked, m0, m1, m2, m3]
  refine ⟨?_, ?_, ?_, ?_, by simp, ?_⟩
  case refine_5 =>
    intro x hx
    rw [store32_of_outside (by omega), linkPrev_mem_of_outside (by omega)]
    simp (disch := omega) only [store32_of_outside]
  -- The four words are read back, across the stores behind them.
  all_goals
    simp (disch := omega) only [load32_store32_of_disjoint, load32_store32_self, load32_linkPrev,
      Nat.mod_eq_of_lt]

theorem sliceChunk_frame {g : Heap} {before after : Nat} (n slice : Nat)
    (hprev : getPrev g.mem current = before) (hnext : getNext g.mem current = after)
    (hslice : current + 12 ≤ slice) (hafter : after = 0 ∨ slice + 12 ≤ after) (hbefore : before ≠ 0)
    (hlow : before + 12 ≤ current) : (sliceChunk g current n slice).firstChunk = g.firstChunk ∧
      ∀ x, x < before + 4 ∨ before + 8 ≤ x ∧ x < current →
        (sliceChunk g current n slice).mem x = g.mem x := by
  have hprev_lt : before < 2 ^ 32 := by
    rw [← hprev]
    exact getPrev_lt
  have hnext_lt : after < 2 ^ 32 := by
    rw [← hnext]
    exact getNext_lt
  unfold getPrev at hprev
  unfold getNext at hnext
  let m0 := setSize g.mem slice (sub32 (sub32 (getSize g.mem current) n) HEADER_SIZE)
  let m1 := store32 m0 (slice + 4) after
  let m2 := store32 m1 slice before
  let linked := linkNext (linkPrev { g with mem := m2 } after slice) before slice
  have hshape : sliceChunk g current n slice =
      { linked with
        mem := setSize linked.mem current n
        freeMemory := sub32 linked.freeMemory HEADER_SIZE } := by
    simp only [sliceChunk, getNext, getPrev, setNext, setPrev]
    simp only [linked, m0, m1, m2, setSize]
    simp (disch := omega) only [load32_store32_of_disjoint, load32_store32_self, load32_linkPrev,
      Nat.mod_eq_of_lt, hnext, hprev]
  rw [hshape]
  refine ⟨by simp [linked, hbefore], ?_⟩
  intro x hx
  simp only [linked, m0, m1, m2, setSize]
  rw [store32_of_outside (by omega), linkNext_mem_of_outside (by omega),
    linkPrev_mem_of_outside (by omega)]
  simp (disch := omega) only [store32_of_outside]

/-- After a carve the front chunk is still on the list, but its size reaches
behind the header of the block that is handed out. -/
theorem carve_takeChunk {n : Nat} (hinv : TilingInv (left ++ [b] ++ right) h)
    (hfree : b.free = true) (hfront : b.addr + 16 ≤ aligned) (hfits : aligned + 12 + n ≤ b.finish) :
    ∃ h', takeChunk (carve h b.addr aligned) aligned n = .ok (aligned + 12, h') ∧
      h'.firstChunk = h.firstChunk ∧ getSize h'.mem b.addr = aligned - b.addr + 12 ∧
      ∀ x, x < b.addr → h'.mem x = h.mem x := by
  obtain ⟨_, _, hright⟩ := hinv.toCoherent.around
  obtain ⟨hback, hsize, hprev, hnext, hfirst, hkeep⟩ := carve_spec hinv hfree hfront (by omega)
  have hmerged := hinv.merged
  simp only [merged_append, endsFree_concat, hfree] at hmerged
  have hgap := Partition.firstFree_gap hright (hmerged.2.2.resolve_left (by simp))
  have hbounds := hinv.bounds (b := b) (by simp)
  have hfinish : b.finish = b.addr + 12 + b.size := rfl
  have hroom : sub32 (getSize (carve h b.addr aligned).mem aligned) n =
      b.finish - aligned + 12 - n := by
    rw [hback]
    exact sub32_eq (by omega) (by omega)
  have hpayload : add32 aligned 12 = aligned + 12 := add32_eq (by omega)
  have hslot : add32 (add32 aligned 12) n = aligned + 12 + n := add32_add32 (by omega)
  obtain ⟨hfirst', hkeep'⟩ := sliceChunk_frame n (aligned + 12 + n) hprev hnext
    (by omega) (by omega) (by omega) (by omega)
  refine ⟨clearLinks (sliceChunk (carve h b.addr aligned) aligned n (aligned + 12 + n)) aligned,
    ?_, ?_, ?_, ?_⟩
  · rw [takeChunk_slice (by omega) (by omega), hslot, hpayload]
  · rw [clearLinks_first, hfirst', hfirst]
  · rw [← hsize]
    exact getSize_congr fun x _ _ =>
      (clearLinks_mem_of_outside (by omega)).trans (hkeep' x (by omega))
  · intro x hx
    exact (clearLinks_mem_of_outside (by omega)).trans ((hkeep' x (by omega)).trans (hkeep x hx))

theorem takeChunk_fst {g g' : Heap} {n ptr : Nat} (htake : takeChunk g current n = .ok (ptr, g')) :
    ptr = add32 current 12 := by
  by_cases hroom : 16 ≤ sub32 (getSize g.mem current) n
  · by_cases hslice : add32 (add32 current 12) n = 0
    · unfold takeChunk at htake
      simp only [MIN_BLOCK_SIZE, HEADER_SIZE, Nat.reduceAdd] at htake
      rw [if_pos hroom, hslice] at htake
      cases htake
    · rw [takeChunk_slice hroom hslice] at htake
      cases htake
      rfl
  · rw [takeChunk_whole (by omega)] at htake
    cases htake
    rfl

theorem alignedHeader_bounds (hk : k < 32) (htop : current + 28 + 2 ^ k ≤ 2 ^ 32) :
    current + 16 ≤ alignedHeader current (2 ^ k) ∧
      add32 (alignedHeader current (2 ^ k)) 12 = alignedHeader current (2 ^ k) + 12 ∧
      alignedHeader current (2 ^ k) + 12 < 2 ^ 32 := by
  have hpos : 0 < 2 ^ k := Nat.two_pow_pos k
  have hdata : add32 (add32 (add32 current 12) 12) 4 = current + 28 := by
    rw [add32_eq (a := current) (by omega), add32_add32 (by omega)]
  have hlow := le_alignUp hk htop
  have hhigh := alignUp_lt (current + 28) hk
  unfold alignedHeader
  simp only [HEADER_SIZE, MIN_BLOCK_SIZE, hdata]
  rw [sub32_eq (by omega) hhigh, add32_eq (by omega)]
  omega

/-- A layout of the heap after a carve cannot exist: the front chunk on the
list overlaps the live block. -/
theorem not_tilingInv_of_carved {h' : Heap} {bs' : List Block}
    (hinv : TilingInv (left ++ [b] ++ right) h) (hfree : b.free = true)
    (hfront : b.addr + 16 ≤ aligned) (hfirst : h'.firstChunk = h.firstChunk)
    (hsize : getSize h'.mem b.addr = aligned - b.addr + 12)
    (hkeep : ∀ x, x < b.addr → h'.mem x = h.mem x) (hinv' : TilingInv bs' h') {c : Block}
    (hc : c ∈ bs') (hlive : c.free = false) (haddr : c.addr = aligned) :
    False := by
  obtain ⟨hleft, _, _⟩ := hinv.toCoherent.around
  have hstart := hinv.start_pos
  have hb := hinv.block_bounds (b := b) (by simp)
  have hlinks := hinv.links
  rw [freeAddrs_append, freeAddrs_append, freeAddrs_cons_free hfree, freeAddrs_nil,
    List.append_assoc, List.singleton_append] at hlinks
  -- The walk from `firstChunk` to the front chunk reads unchanged bytes only.
  have hreached : b.addr ∈ freeAddrs bs' := by
    refine hlinks.mem_of_reached hinv'.links ?_ ?_ ?_ (by omega)
    · rw [← hinv'.first, hfirst, hinv.first, freeAddrs_append, freeAddrs_append,
        freeAddrs_cons_free hfree, freeAddrs_nil, List.append_assoc, List.singleton_append]
    · intro x hx
      have hbounds := hleft.freeAddr_bounds hx
      exact getNext_congr fun y _ _ => hkeep y (by omega)
    · intro x hx
      have hbounds := hleft.freeAddr_bounds hx
      omega
  obtain ⟨d, hd, hdfree, hdaddr⟩ := mem_freeAddrs.mp hreached
  have hdsize := hinv'.sizes d hd hdfree
  rw [hdaddr] at hdsize
  have hne : d ≠ c := by
    rintro rfl
    rw [hlive] at hdfree
    cases hdfree
  have hsep := Tiles.separated hinv'.partition hd hc hne
  unfold Block.finish at hsep
  omega

/-- A carve never meets the specification, unless rounding its address wraps
around. -/
theorem needsNoCarving_of_alignedAlloc (hinv : TilingInv bs h) (hsize : size < 2 ^ 32)
    (hk : k < 32) (htop : h.memoryEndAddress + 2 ^ k + 16 ≤ 2 ^ 32)
    (hspec : AlignedAlloc bs h size (2 ^ k)) : NeedsNoCarving bs size (2 ^ k) := by
  obtain ⟨ptr, h', bs', hcall, hinv', hregion, _, hblock⟩ := hspec
  have hpos : 0 < 2 ^ k := Nat.two_pow_pos k
  rw [alloc] at hcall
  by_contra hcond
  unfold NeedsNoCarving at hcond
  push Not at hcond
  obtain ⟨hne, b, hchoose, hcarved⟩ := hcond
  have hc : Coherent ([] ++ bs) h := hinv.toCoherent
  have hfirst := hinv.toCoherent.searchStart_first
  obtain ⟨left, right, rfl, ⟨hfree, hfits, hroom⟩, _⟩ := choose_eq_some hchoose
  have hb := hinv.block_bounds (b := b) (by simp)
  -- A block that is handed out ends inside the region.
  have hinside : ptr ≠ 0 → ptr + size ≤ h.memoryEndAddress := by
    intro hptr
    obtain ⟨_, c, _, _, hpayload, hlarge, _, hfinish, _⟩ := hblock hptr
    unfold Block.payload at hpayload
    unfold Block.finish at hfinish
    omega
  by_cases haligned : b.Aligned (2 ^ k)
  · have hwrap := hcarved haligned
    have htake := allocAlgorithm_aligned hc hne hfirst hchoose haligned
    rw [htake] at hcall
    have hptr := takeChunk_fst hcall
    rw [add32_eq (by omega)] at hptr
    have := hinside (by omega)
    omega
  · have hheader : b.addr + 28 + 2 ^ k ≤ 2 ^ 32 := by omega
    obtain ⟨hfront, hpayload, hhigh⟩ := alignedHeader_bounds hk hheader
    have htake := allocAlgorithm_carved hc hne hfirst hchoose haligned (by omega)
    rw [htake] at hcall
    have hptr := takeChunk_fst hcall
    rw [hpayload] at hptr
    have hend := hinside (by omega)
    have hround := alignUp_four hsize
    rw [if_pos (by omega)] at hround
    have hroom := hroom.resolve_left haligned
    unfold Block.HasRoom at hroom
    rw [hpayload, add32_eq (by omega), add32_add32 (by omega)] at hroom
    obtain ⟨h'', htake', hfirst', hfrontSize, hkeep⟩ := carve_takeChunk hinv hfree hfront hroom
    rw [hcall] at htake'
    obtain ⟨_, rfl⟩ : ptr = alignedHeader b.addr (2 ^ k) + 12 ∧ h' = h'' := by simpa using htake'
    obtain ⟨_, c, hmem, hlive, hcpayload, _⟩ := hblock (by omega)
    unfold Block.payload at hcpayload
    exact not_tilingInv_of_carved hinv hfree hfront hfirst' hfrontSize hkeep hinv' hmem
      hlive (by omega)

/-- Aligned allocation meets its specification whenever it needs no carving.
On regions that end far enough below the top of the address space that is the
only case in which it does. -/
theorem alignedAlloc_iff (hinv : TilingInv bs h) (hsize : size < 2 ^ 32) (hk : k < 32) :
    (NeedsNoCarving bs size (2 ^ k) → AlignedAlloc bs h size (2 ^ k)) ∧
      (h.memoryEndAddress + 2 ^ k + 16 ≤ 2 ^ 32 →
        (AlignedAlloc bs h size (2 ^ k) ↔ NeedsNoCarving bs size (2 ^ k))) :=
  ⟨alignedAlloc_of_needsNoCarving hinv hk, fun htop =>
    ⟨needsNoCarving_of_alignedAlloc hinv hsize hk htop, alignedAlloc_of_needsNoCarving hinv hk⟩⟩

theorem alignedAlloc_iff_page :
    (NeedsNoCarving [initialChunk 0x1000 0x2000] 100 (2 ^ 2) →
      AlignedAlloc [initialChunk 0x1000 0x2000] (initialHeap (fun _ => 0) 0x1000 0x2000 false)
        100 (2 ^ 2)) ∧
      (0x2000 + 2 ^ 2 + 16 ≤ 2 ^ 32 →
        (AlignedAlloc [initialChunk 0x1000 0x2000] (initialHeap (fun _ => 0) 0x1000 0x2000 false)
          100 (2 ^ 2) ↔ NeedsNoCarving [initialChunk 0x1000 0x2000] 100 (2 ^ 2))) :=
  alignedAlloc_iff (initialHeap_inv (by decide) (by decide) (by decide)).toTilingInv
    (by decide) (by decide)

/-- Sixteen bytes aligned to a cache line of 64 bytes have to be carved out of
a fresh page. -/
theorem alignedAlloc_fails_at_line :
    ¬AlignedAlloc [initialChunk 0x1000 0x2000] (initialHeap (fun _ => 0) 0x1000 0x2000 false) 16
      (2 ^ 6) := by
  intro hspec
  have hinv : HeapInv [initialChunk 0x1000 0x2000] (initialHeap (fun _ => 0) 0x1000 0x2000 false) :=
    initialHeap_inv (by decide) (by decide) (by decide)
  have hcond :=
    needsNoCarving_of_alignedAlloc hinv.toTilingInv (by decide) (by decide) (by decide) hspec
  rcases hcond with hzero | hchosen
  · cases hzero
  · obtain ⟨haligned, _⟩ := hchosen (initialChunk 0x1000 0x2000) (by decide)
    revert haligned
    decide

end Aligned

end HuyaOS.FreeListMemoryManager
