import HuyaOS.FreeList.Release

/-!
Growing a block in place. `realloc` takes the chunk behind the block out of the
list, adds it to the block and releases what is left over. While the surplus is
released the header of the block still holds the size of the whole, so the
release runs on a heap that is coherent but not yet in the tiling invariant.
-/

namespace HuyaOS.FreeListMemoryManager

open Lib Management Block List

/-- In `h'` the place of the live block `b` has been taken by a block at `ret`
that has at least `size` bytes and starts with the contents of `b`. -/
def Replaced (left : List Block) (b : Block) (right : List Block) (h : Heap) (size ret : Nat)
    (h' : Heap) : Prop :=
  ∃ bs t, HeapInv bs h' ∧ SameRegion h h' ∧ t ∈ liveBlocks bs ∧ t.payload = ret ∧
    size ≤ t.size ∧ (livePointers bs).Perm (ret :: livePointers (left ++ right)) ∧
    ∀ i < b.size, h'.mem (ret + i) = h.mem (b.payload + i)

section Extending

variable {left right : List Block} {b : Block} {h : Heap} {size : Nat} {m : Mem} {a n x : Nat}

theorem setSize_of_outside (hx : x < a + 8 ∨ a + 12 ≤ x) : setSize m a n x = m x :=
  store32_of_outside (by omega)

theorem getSize_setSize (hn : n < 2 ^ 32) : getSize (setSize m a n) a = n := by
  rw [getSize, setSize, load32_store32_self, Nat.mod_eq_of_lt hn]

theorem Coherent.outside {d : Block} (hc : Coherent (left ++ [b] ++ right) h)
    (hd : d ∈ left ++ right) (hlo : d.addr ≤ x) (hhi : x < d.finish) :
    x < b.addr ∨ b.finish ≤ x := by
  obtain ⟨hleft, _, hright⟩ := hc.around
  unfold finish at hhi
  rcases mem_append.mp hd with hd | hd
  · have := hleft.block_bounds hd
    omega
  · have := hright.block_bounds hd
    omega

theorem freeAddrs_around (hlive : b.free = false) :
    freeAddrs (left ++ [b] ++ right) = freeAddrs left ++ freeAddrs right := by
  rw [freeAddrs_append, freeAddrs_append, freeAddrs_cons_live hlive, freeAddrs_nil, append_nil]

theorem Replaced.in_place {bs bs' : List Block} {h' : Heap} (hinv : HeapInv bs h)
    (hb : b ∈ bs) (hlive : b.free = false) (hsub : ∀ c ∈ left ++ right, c ∈ bs)
    (hc : Coherent bs' h') (hmerged : Merged bs') (hregion : SameRegion h h')
    (hblocks : liveBlocks bs' = liveBlocks (left ++ [⟨b.addr, n, false⟩] ++ right))
    (hkeep : KeepsLive (left ++ right) h.mem h'.mem) (hsize : getSize h'.mem b.addr = n)
    (hbytes : ∀ x, b.addr ≤ x → x < b.addr + 8 ∨ b.payload ≤ x → x < b.finish → h'.mem x = h.mem x)
    (hacc : h'.freeMemory = freeTotal bs') (hfits : size ≤ n) :
    Replaced left b right h size b.payload h' := by
  have hcases : ∀ c ∈ bs', c.free = false → c = ⟨b.addr, n, false⟩ ∨ c ∈ left ++ right := by
    intro c hmem hcl
    have hin := mem_liveBlocks.mpr ⟨hmem, hcl⟩
    rw [hblocks] at hin
    have hin' := (mem_liveBlocks.mp hin).1
    simp only [mem_append, mem_singleton] at hin' ⊢
    rcases hin' with (hl | heq) | hr
    · exact .inr (.inl hl)
    · exact .inl heq
    · exact .inr (.inr hr)
  have hnull : getNext h'.mem b.addr = 0 ∧ getPrev h'.mem b.addr = 0 := by
    obtain ⟨hnext, hprev⟩ := hinv.live_links b hb hlive
    unfold finish at hbytes
    constructor
    · rw [← hnext]
      exact getNext_congr fun x hlo hhi => hbytes x (by omega) (by omega) (by omega)
    · rw [← hprev]
      exact getPrev_congr fun x hlo hhi => hbytes x (by omega) (by omega) (by omega)
  refine ⟨bs', ⟨b.addr, n, false⟩, ⟨⟨hc, ?_, hmerged⟩, ?_, hacc⟩, hregion, ?_, rfl, hfits, ?_, ?_⟩
  · intro c hmem hcl
    rcases hcases c hmem hcl with rfl | hother
    · exact hsize
    · exact hinv.live_sizes.of_keeps hkeep (fun d hd _ => hsub d hd) c hother hcl
  · intro c hmem hcl
    rcases hcases c hmem hcl with rfl | hother
    · exact hnull
    · exact hinv.live_links.of_keeps hkeep (fun d hd _ => hsub d hd) c hother hcl
  · rw [hblocks]
    exact mem_liveBlocks.mpr ⟨by simp, rfl⟩
  · have hlist : liveBlocks (left ++ [⟨b.addr, n, false⟩] ++ right) =
        liveBlocks left ++ ⟨b.addr, n, false⟩ :: liveBlocks right := by
      rw [liveBlocks_append, liveBlocks_append, liveBlocks_cons_live rfl, liveBlocks_nil,
        append_assoc, singleton_append]
    rw [livePointers, hblocks, hlist, livePointers, liveBlocks_append, map_append, map_append]
    exact perm_middle
  · intro i hi
    exact hbytes _ (by unfold payload; omega) (.inr (by omega)) (by unfold payload finish; omega)

/-- The block `b` together with a chunk of `n` bytes behind it. -/
def extended (b : Block) (n : Nat) : Block := ⟨b.addr, b.size + 12 + n, false⟩

theorem lastFree_concat_live (hlive : b.free = false) : lastFree (left ++ [b]) = lastFree left := by
  rw [lastFree, freeAddrs_append, freeAddrs_cons_live hlive, freeAddrs_nil, append_nil]
  rfl

section Absorb

variable {c : Block} {g : Heap} {n : Nat}

section

variable (hc : Coherent (left ++ [b] ++ [c] ++ right) h) (hlive : b.free = false)
  (hfree : c.free = true) (hsize : getSize h.mem b.addr = b.size)

include hc hlive hfree hsize

theorem absorbChunk_eq (hleft : Partition h.memoryStartAddress left b.addr)
    (hnext : b.finish = c.addr) (hright : Partition c.finish right h.memoryEndAddress)
    (hne : lastFree left ≠ 0) :
    absorbChunk h b.addr c.addr = .ok { unlinkChunk h c.addr with
      freeMemory := sub32 h.freeMemory c.size
      mem := setSize (unlinkChunk h c.addr).mem b.addr (b.size + 12 + c.size) } := by
  obtain ⟨hprev, hsucc⟩ := hc.chunk_links hfree
  rw [lastFree_concat_live hlive] at hprev
  have hcsize := hc.sizes c (by simp) hfree
  have hbounds := hc.bounds (b := c) (by simp)
  have hll := hleft.lastFree_cases
  have hff := hright.firstFree_cases
  have hshape := unlinkChunk_eq hc hfree hright
  rw [lastFree_concat_live hlive] at hshape
  unfold finish at hnext hff
  -- the source writes the two links in the other order
  have hheap : linkPrev { h with
      freeMemory := sub32 h.freeMemory c.size
      mem := setNext h.mem (lastFree left) (firstFree right) } (firstFree right)
        (lastFree left) =
      { unlinkChunk h c.addr with freeMemory := sub32 h.freeMemory c.size } := by
    rw [hshape, linkNext]
    unfold linkPrev
    split
    · simp only [setPrev, setNext]
      rw [store32_comm (by omega)]
    · rfl
  have hlinks : getNext (setNext h.mem (lastFree left) (firstFree right)) c.addr =
      firstFree right ∧
      getPrev (setNext h.mem (lastFree left) (firstFree right)) c.addr = lastFree left := by
    unfold getNext getPrev setNext
    rw [load32_store32_of_disjoint (by omega), load32_store32_of_disjoint (by omega)]
    exact ⟨hsucc, hprev⟩
  have hsizes : getSize (unlinkChunk h c.addr).mem b.addr = b.size ∧
      getSize (unlinkChunk h c.addr).mem c.addr = c.size := by
    rw [hshape, getSize, getSize, load32_linkNext (by omega), load32_linkNext (by omega),
      load32_linkPrev (by omega), load32_linkPrev (by omega)]
    exact ⟨hsize, hcsize⟩
  have hsum : add32 b.size (add32 c.size 12) = b.size + 12 + c.size := by
    rw [add32_eq (a := c.size) (by omega), add32_eq (by omega)]
    omega
  unfold absorbChunk
  simp only [hprev, hsucc, hcsize, HEADER_SIZE]
  rw [deref_bind hne]
  simp only [hlinks, hheap, hsizes, hsum]
  rfl

theorem absorbChunk_spec (hne : lastFree left ≠ 0) : ∃ h', absorbChunk h b.addr c.addr = .ok h' ∧
      Coherent (left ++ [extended b c.size] ++ right) h' ∧ SameRegion h h' ∧
      KeepsLive (left ++ right) h.mem h'.mem ∧
      getSize h'.mem b.addr = b.size + 12 + c.size ∧
      (∀ x, b.addr ≤ x → x < b.addr + 8 ∨ b.payload ≤ x → x < b.finish → h'.mem x = h.mem x) ∧
      (h.freeMemory = freeTotal (left ++ [b] ++ [c] ++ right) →
        h'.freeMemory = freeTotal (left ++ right)) := by
  obtain ⟨hleft', _, hright⟩ := hc.around
  obtain ⟨lo, hleft, hmid⟩ := tiles_append.mp hleft'
  obtain ⟨rfl, _, hnext⟩ := hmid
  obtain ⟨hc', _, hpatched⟩ := unlinkChunk_spec hc hfree hleft' hright
  have hbounds := hc.bounds (b := c) (by simp)
  have hkeep := hpatched.keepsLive hleft' (by omega) hright
  have hnext' : b.finish = c.addr := hnext
  unfold finish at hnext'
  -- the two live blocks become one, and only the header of the first is written
  have hone : Coherent (left ++ [extended b c.size] ++ right) (unlinkChunk h c.addr) := by
    refine hc'.of_free_eq ?_ (by simp [extended, hlive])
    rw [hpatched.start_eq, hpatched.end_eq]
    refine tiles_append.mpr ⟨c.finish, tiles_append.mpr ⟨b.addr, hleft, rfl, ?_, ?_⟩, hright⟩
    · simp only [extended, finish]
      omega
    · simp only [extended, finish, tiles_nil]
      omega
  have hwritten : Coherent (left ++ [extended b c.size] ++ right) { unlinkChunk h c.addr with
      mem := setSize (unlinkChunk h c.addr).mem b.addr (b.size + 12 + c.size) } := by
    refine hone.of_live_bytes (b := extended b c.size) (by simp) rfl ?_
    intro x hx
    simp only [extended, finish] at hx
    exact setSize_of_outside (by omega)
  refine ⟨_, absorbChunk_eq hc hlive hfree hsize hleft hnext hright hne,
    hwritten.withFreeMemory _, ⟨hpatched.start_eq, hpatched.end_eq, ?_⟩, ?_, ?_, ?_, ?_⟩
  · simp [unlinkChunk]
  · intro d hd hdl x hlo hhi
    have hout := hone.outside hd hlo hhi
    simp only [extended, finish] at hout
    exact (setSize_of_outside (by omega)).trans (hkeep d (mem_around _ hd) hdl x hlo hhi)
  · exact getSize_setSize (by omega)
  · intro x hlo hout hhi
    unfold payload at hout
    exact (setSize_of_outside (by omega)).trans (hkeep b (by simp) hlive x hlo hhi)
  · intro hacc
    have htotal := hc.partition.freeTotal_le
    simp only [freeTotal_append, freeTotal_cons_live hlive, freeTotal_cons_free hfree,
      freeTotal_nil] at hacc htotal ⊢
    rw [sub32_eq (by omega) (by omega)]
    omega

end

theorem extendInPlace_eq (habsorb : absorbChunk h b.addr c.addr = .ok g)
    (hsize : getSize g.mem b.addr = n) (hfits : size ≤ n) (hend : b.payload + n < 2 ^ 32)
    (pager : Pager) :
    extendInPlace h pager b.payload size b.addr c.addr =
      if 16 < n - size then (do
        let (g', _) ← freeAlgorithm
          { g with mem := setSize g.mem (b.payload + size) (n - size - 12) } pager
          (b.payload + size + 12)
        return { g' with mem := setSize g'.mem b.addr size })
      else .ok g := by
  unfold extendInPlace
  simp only [habsorb, bind, Except.bind, HEADER_SIZE, MIN_BLOCK_SIZE, hsize]
  rw [sub32_eq hfits (by omega)]
  split
  · rw [add32_eq (by omega), add32_eq (by omega), sub32_eq (by omega) (by omega),
      deref_of_ne (by unfold payload; omega)]
  · rfl

/-- Releasing the surplus splits the extended block, whose header still holds
the old size while the release runs. -/
theorem release_surplus (hg : Coherent (left ++ [⟨b.addr, n, false⟩] ++ right) g)
    (hne : lastFree left ≠ 0) (hsplit : 16 < n - size) (pager : Pager) :
    ∃ g' calls, freeAlgorithm { g with mem := setSize g.mem (b.payload + size) (n - size - 12) }
      pager
        (b.payload + size + 12) = .ok (g', calls) ∧
      Coherent (coalesce (left ++ [⟨b.addr, size, false⟩])
        ⟨b.payload + size, n - size - 12, true⟩ right) g' ∧ SameRegion g g' ∧
      KeepsLive (left ++ [⟨b.addr, size, false⟩] ++ right) g.mem g'.mem ∧
      (g.freeMemory = freeTotal (left ++ right) →
        g'.freeMemory = freeTotal (coalesce (left ++ [⟨b.addr, size, false⟩])
          ⟨b.payload + size, n - size - 12, true⟩ right)) := by
  let grown : Block := ⟨b.addr, size, false⟩
  let surplus : Block := ⟨b.payload + size, n - size - 12, false⟩
  obtain ⟨hleft, _, hright⟩ := hg.around
  have hbounds := hg.bounds (b := ⟨b.addr, n, false⟩) (by simp)
  simp only [finish] at hleft hright hbounds
  have hwritten : Coherent (left ++ [⟨b.addr, n, false⟩] ++ right)
      { g with mem := setSize g.mem surplus.addr surplus.size } := by
    refine hg.of_live_bytes (b := ⟨b.addr, n, false⟩) (by simp) rfl ?_
    intro x hx
    simp only [finish] at hx
    apply setSize_of_outside
    simp only [surplus, payload]
    omega
  have htwo : Coherent (left ++ [grown] ++ [surplus] ++ right)
      { g with mem := setSize g.mem surplus.addr surplus.size } := by
    refine hwritten.of_free_eq ?_ (by simp [grown, surplus])
    refine tiles_append.mpr ⟨b.addr + 12 + n, tiles_append.mpr ⟨surplus.addr,
      tiles_append.mpr ⟨b.addr, hleft, rfl, ?_, ?_⟩, rfl, ?_, ?_⟩, hright⟩
    all_goals simp only [grown, surplus, finish, payload, tiles_nil]
    all_goals omega
  have hsize : getSize (setSize g.mem surplus.addr surplus.size) surplus.addr = surplus.size :=
    getSize_setSize (by simp only [surplus]; omega)
  have hlist : freeAddrs (left ++ [grown] ++ right) ≠ [] := by
    intro hnil
    rw [freeAddrs_around rfl, append_eq_nil_iff] at hnil
    exact hne (by rw [lastFree, hnil.1]; rfl)
  obtain ⟨g', calls, hcall, hc', hregion, hkeep, hacc, _⟩ :=
    freeAlgorithm_spec htwo rfl hsize (fun hnil => absurd hnil hlist) pager
  refine ⟨g', calls, hcall, hc', ⟨hregion.start_eq, hregion.end_eq, hregion.doUnmap_eq⟩, ?_, ?_⟩
  · intro d hd hdl x hlo hhi
    have hout := htwo.outside hd hlo hhi
    unfold finish at hout
    exact (hkeep d hd hdl x hlo hhi).trans (setSize_of_outside (by omega))
  · intro hfree
    refine hacc ?_
    rw [freeTotal_mid, freeTotal_cons_live rfl, freeTotal_nil, Nat.add_zero, ← freeTotal_append]
    exact hfree

theorem extendInPlace_spec (hinv : HeapInv (left ++ [b] ++ [c] ++ right) h)
    (hlive : b.free = false) (hfree : c.free = true) (hne : lastFree left ≠ 0)
    (hgrow : b.size < size) (hfits : size ≤ b.size + 12 + c.size) (pager : Pager) :
    ∃ h', extendInPlace h pager b.payload size b.addr c.addr = .ok h' ∧
      Replaced left b right h size b.payload h' := by
  obtain ⟨g, habsorb, hg, hregion, hkeep, hgsize, hbytes, hacc⟩ :=
    absorbChunk_spec hinv.toCoherent hlive hfree (hinv.live_sizes b (by simp) hlive) hne
  have hend := hinv.end_lt
  have hbounds := hg.block_bounds (b := extended b c.size) (by simp)
  rw [hregion.end_eq] at hbounds
  simp only [extended] at hbounds
  have hsub : ∀ d ∈ left ++ right, d ∈ left ++ [b] ++ [c] ++ right :=
    fun _ hd => mem_around _ (mem_around _ hd)
  have hmerged := hinv.merged
  simp only [merged_append, endsFree_concat, startsFree_cons, hfree] at hmerged
  obtain ⟨⟨⟨hml, _, _⟩, _, _⟩, hmr, _⟩ := hmerged
  rw [extendInPlace_eq habsorb hgsize hfits (by unfold payload; omega)]
  by_cases hsplit : 16 < b.size + 12 + c.size - size
  · rw [if_pos hsplit]
    obtain ⟨g', calls, hcall, hc', hregion', hkeep', hacc'⟩ := release_surplus hg hne hsplit pager
    rw [hcall]
    refine ⟨_, rfl, ?_⟩
    have hgrown : ⟨b.addr, size, false⟩ ∈ coalesce (left ++ [⟨b.addr, size, false⟩])
        ⟨b.payload + size, b.size + 12 + c.size - size - 12, true⟩ right := by
      have hin : ⟨b.addr, size, false⟩ ∈ liveBlocks (coalesce (left ++ [⟨b.addr, size, false⟩])
          ⟨b.payload + size, b.size + 12 + c.size - size - 12, true⟩ right) := by
        rw [liveBlocks_coalesce rfl]
        exact mem_liveBlocks.mpr ⟨by simp, rfl⟩
      exact (mem_liveBlocks.mp hin).1
    have hregion'' := hregion.trans hregion'
    refine Replaced.in_place hinv (by simp) hlive hsub (hc'.of_live_bytes hgrown rfl ?_)
      (merged_coalesce ?_ hmr)
      ⟨hregion''.start_eq, hregion''.end_eq, hregion''.doUnmap_eq⟩ (liveBlocks_coalesce rfl)
      ?_ ?_ ?_ (hacc' (hacc hinv.accounting)) (Nat.le_refl size)
    · intro x hx
      simp only [finish] at hx
      exact setSize_of_outside (by omega)
    · exact merged_concat_live rfl hml
    · intro d hd hdl x hlo hhi
      have hout := hg.outside hd hlo hhi
      simp only [extended, finish] at hout
      exact (setSize_of_outside (by omega)).trans
        ((hkeep' d (mem_around _ hd) hdl x hlo hhi).trans (hkeep d hd hdl x hlo hhi))
    · exact getSize_setSize (by omega)
    · intro x hlo hout hhi
      refine (setSize_of_outside ?_).trans
        ((hkeep' ⟨b.addr, size, false⟩ (by simp) rfl x hlo ?_).trans (hbytes x hlo hout hhi))
      · unfold payload at hout
        omega
      · unfold finish at hhi ⊢
        simp only
        omega
  · rw [if_neg hsplit]
    refine ⟨g, rfl, Replaced.in_place hinv (by simp) hlive hsub hg ?_ hregion rfl hkeep hgsize
      hbytes ?_ hfits⟩
    · exact merged_around_live rfl hml hmr
    · rw [hacc hinv.accounting, freeTotal_mid, freeTotal_append]
      rfl

end Absorb

end Extending

end HuyaOS.FreeListMemoryManager
