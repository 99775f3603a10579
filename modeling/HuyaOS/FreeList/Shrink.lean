import HuyaOS.FreeList.Alloc
import HuyaOS.FreeList.Release

/-!
`realloc` to a smaller size. The source builds the header of the remainder at
the right place, but passes `newHeader + HEADER_SIZE` to `free`, which adds
twelve headers and not twelve bytes. The remainder therefore never reaches the
list; a header read 132 bytes behind it does, if it is inside the region.
Shrinking works only when the remainder is too small to be split off.
-/

namespace HuyaOS.FreeListMemoryManager

open Lib Management List Block

def remainder (b : Block) (size : Nat) : Block := ⟨b.payload + size, b.size - size - 12, true⟩

/-- The layout after shrinking `b` to `size` bytes: a remainder that can be
split off becomes free and is joined with a free block behind it. -/
def shrunk (left : List Block) (b : Block) (right : List Block) (size : Nat) : List Block :=
  if 16 < b.size - size then
    left ++ [⟨b.addr, size, false⟩, (joinNext (remainder b size) right).1] ++
      (joinNext (remainder b size) right).2
  else left ++ [b] ++ right

/-- `realloc` returns the same pointer, keeps the first `size` bytes and all
other live blocks, and leaves the shrunk layout. -/
def Shrinks (left : List Block) (b : Block) (right : List Block) (h : Heap) (size : Nat) : Prop :=
  ∀ pager, ∃ h', realloc h pager b.payload size 0 = .ok (b.payload, h') ∧
    TilingInv (shrunk left b right size) h' ∧ SameRegion h h' ∧
    (∀ x, b.payload ≤ x → x < b.payload + size → h'.mem x = h.mem x) ∧
    KeepsLive (left ++ right) h.mem h'.mem

section Stray

variable {g g' : Heap} {header : Nat} {tmp y : Nat} {c : Block}

@[simp] theorem mergeNext_first (g : Heap) (tmp : Nat) :
    (mergeNext g tmp).firstChunk = g.firstChunk := by
  simp only [mergeNext]
  split
  · simp
  · rfl

theorem mergePrev_first {merged origin : Nat} (hmerge : mergePrev g origin = .ok (merged, g')) :
    g'.firstChunk = g.firstChunk := by
  simp only [mergePrev] at hmerge
  split at hmerge
  · by_cases hnull : getNext g.mem (getPrev g.mem origin) = 0
    · rw [hnull] at hmerge
      cases hmerge
    · rw [deref_bind hnull] at hmerge
      cases hmerge
      simp
  · cases hmerge
    rfl

theorem insertChunk_first (hinsert : insertChunk g header = .ok g') :
    g'.firstChunk = g.firstChunk ∨ g'.firstChunk = header := by
  unfold insertChunk at hinsert
  split at hinsert
  · cases hinsert
    exact .inr rfl
  · split at hinsert
    · cases hinsert
      exact .inr rfl
    · obtain ⟨tmp, _, hinsert⟩ := bind_eq_ok hinsert
      split at hinsert
      · cases hinsert
        exact .inl rfl
      · cases hinsert
        simp [insertAfter]

variable {pager : Pager} {ptr : Nat} {calls : List (Nat × Nat)} {bs : List Block}

/-- A `free` that returns has done nothing, or it has linked in the header
below the pointer and merged around it. -/
theorem freeAlgorithm_cases (hfree : freeAlgorithm g pager ptr = .ok (g', calls)) :
    g' = g ∨ ∃ g₁ g₂ merged,
      insertChunk { g with freeMemory := add32 g.freeMemory (getSize g.mem (sub32 ptr 12)) }
        (sub32 ptr 12) = .ok g₁ ∧
      merge g₁ (sub32 ptr 12) = .ok (merged, g₂) ∧
      g' = { g₂ with mem := discard pager.contents (releaseCalls g₂ pager merged) g₂.mem } := by
  unfold freeAlgorithm at hfree
  split at hfree
  · cases hfree
    exact .inl rfl
  · split at hfree
    · cases hfree
      exact .inl rfl
    · obtain ⟨_, _, hfree⟩ := bind_eq_ok hfree
      obtain ⟨g₁, hinsert, hfree⟩ := bind_eq_ok hfree
      obtain ⟨⟨merged, g₂⟩, hmerge, hfree⟩ := bind_eq_ok hfree
      cases hfree
      exact .inr ⟨g₁, g₂, merged, hinsert, hmerge, rfl⟩

theorem freeAlgorithm_first (hfree : freeAlgorithm g pager ptr = .ok (g', calls)) :
    g'.firstChunk = g.firstChunk ∨ g'.firstChunk = sub32 ptr 12 := by
  rcases freeAlgorithm_cases hfree with rfl | ⟨g₁, g₂, merged, hinsert, hmerge, rfl⟩
  · exact .inl rfl
  · have hkept : g₂.firstChunk = g₁.firstChunk := by
      unfold merge at hmerge
      split at hmerge
      · cases hmerge
        rfl
      · rw [mergePrev_first hmerge, mergeNext_first]
    have hfirst := insertChunk_first hinsert
    rw [← hkept] at hfirst
    exact hfirst

/-- What the first half of `merge` writes: the size and `next` field of its
chunk, and the `prev` field of the chunk `after` behind the absorbed one. -/
theorem mergeNext_frame {next after : Nat} (hnext : getNext g.mem tmp = next)
    (hafter : getNext g.mem next = after) (hsep : next + 12 ≤ tmp ∨ tmp + 12 ≤ next)
    (hsep' : after = 0 ∨ after + 12 ≤ tmp ∨ tmp + 12 ≤ after)
    (hsep'' : after = 0 ∨ after + 4 ≤ next ∨ next + 12 ≤ after) :
    (getNext (mergeNext g tmp).mem tmp = next ∨ getNext (mergeNext g tmp).mem tmp = after) ∧
      ∀ x, x < tmp + 4 ∨ tmp + 12 ≤ x → after = 0 ∨ x < after ∨ after + 4 ≤ x →
        (mergeNext g tmp).mem x = g.mem x := by
  have hafter_lt : after < 2 ^ 32 := by
    rw [← hafter]
    exact getNext_lt
  by_cases hmerge : next ≠ 0 ∧ add32 (add32 tmp 12) (getSize g.mem tmp) = next
  · have hshape : ∃ size freeMemory,
        mergeNext g tmp =
          { linkPrev { g with mem := store32 g.mem (tmp + 8) size } after tmp with
            mem := store32 (linkPrev { g with mem := store32 g.mem (tmp + 8) size } after tmp).mem
              (tmp + 4) after
            freeMemory := freeMemory } := by
      refine ⟨add32 (getSize g.mem tmp) (add32 (getSize g.mem next) 12), add32 g.freeMemory 12, ?_⟩
      unfold getNext at hnext hafter
      simp only [mergeNext, getNext, setSize, setNext, hnext]
      rw [if_pos hmerge]
      simp (disch := omega) only [load32_store32_of_disjoint, load32_linkPrev, hnext, hafter,
        linkPrev_freeMemory]
    obtain ⟨size, freeMemory, hshape⟩ := hshape
    rw [hshape]
    refine ⟨.inr ?_, ?_⟩
    · rw [getNext, load32_store32_self, Nat.mod_eq_of_lt hafter_lt]
    · intro x hx hx'
      simp only
      rw [store32_of_outside (by omega), linkPrev_mem_of_outside (by omega)]
      exact store32_of_outside (by omega)
  · have hshape : mergeNext g tmp = g := by
      simp only [mergeNext, hnext]
      rw [if_neg hmerge]
    rw [hshape]
    exact ⟨.inl hnext, fun _ _ _ => rfl⟩

theorem exists_split {xs : List Nat} (hsorted : xs.Pairwise (· < ·)) (hy : y ∉ xs) :
    ∃ below above, xs = below ++ above ∧ (∀ x ∈ below, x < y) ∧ ∀ x ∈ above, y < x := by
  induction xs with
  | nil => exact ⟨[], [], rfl, by simp, by simp⟩
  | cons x xs ih =>
    obtain ⟨hx, hsorted⟩ := pairwise_cons.mp hsorted
    rw [mem_cons, not_or] at hy
    by_cases hlt : x < y
    · obtain ⟨below, above, rfl, hbelow, habove⟩ := ih hsorted hy.2
      refine ⟨x :: below, above, rfl, ?_, habove⟩
      simpa [hlt] using hbelow
    · refine ⟨[], x :: xs, rfl, by simp, ?_⟩
      intro z hz
      rcases mem_cons.mp hz with rfl | hz
      · omega
      · have := hx z hz
        omega

theorem mergeNext_null (hnext : getNext g.mem tmp = 0) : mergeNext g tmp = g := by
  simp only [mergeNext, hnext]
  rw [if_neg (by simp)]

theorem Coherent.freeAddrs_apart (hc : Coherent bs g) {x : Nat} (hx : x ∈ freeAddrs bs)
    (hy : y ∈ freeAddrs bs) (hne : x ≠ y) : x + 12 ≤ y ∨ y + 12 ≤ x := by
  obtain ⟨b, hb, _, rfl⟩ := mem_freeAddrs.mp hx
  obtain ⟨c, hmem, _, rfl⟩ := mem_freeAddrs.mp hy
  have := hc.partition.header_cases hb hmem
  omega

/-- A stray header between the free headers `below` and `above`. -/
structure StrayAt (bs : List Block) (g : Heap) (header : Nat) (below above : List Nat) : Prop where
  coherent : Coherent bs g
  split : freeAddrs bs = below ++ above
  nonempty : below ≠ []
  below_apart : ∀ x ∈ below, x + 12 ≤ header
  above_apart : ∀ x ∈ above, header + 12 ≤ x
  header_lt : header < 2 ^ 32

namespace StrayAt

variable {bs : List Block} {below above : List Nat}

section

variable (hs : StrayAt bs g header below above) {x : Nat} {g₁ : Heap} {c : Block}

include hs

theorem last_mem : below.getLastD 0 ∈ below :=
  (getLastD_mem_or_eq 0 below).resolve_right hs.nonempty

theorem mem_bounds (hx : x ∈ below ++ above) : 0 < x ∧ x < 2 ^ 32 := by
  have hstart := hs.coherent.start_pos
  have hend := hs.coherent.end_lt
  rw [← hs.split] at hx
  have := hs.coherent.partition.freeAddr_bounds hx
  omega

theorem apart {y : Nat} (hx : x ∈ below ++ above) (hy : y ∈ below ++ above) (hne : x ≠ y) :
    x + 12 ≤ y ∨ y + 12 ≤ x := by
  rw [← hs.split] at hx hy
  exact hs.coherent.freeAddrs_apart hx hy hne

theorem next_cases : above.headD 0 = 0 ∨ (above.headD 0 ∈ above ∧
      (getNext g.mem (above.headD 0) = 0 ∨ (getNext g.mem (above.headD 0) ∈ above ∧
        above.headD 0 ≠ getNext g.mem (above.headD 0)))) := by
  have hlinks := hs.coherent.links
  have hsorted := hs.coherent.partition.freeAddrs_sorted
  rw [hs.split] at hlinks hsorted
  cases above with
  | nil => exact .inl rfl
  | cons q rest =>
    obtain ⟨_, hnext, _⟩ := (links_append.mp hlinks).2
    refine .inr ⟨by simp, ?_⟩
    rw [headD_cons, hnext]
    rcases headD_mem_or_eq 0 rest with hmem | hnil
    · refine .inr ⟨mem_cons_of_mem _ hmem, ?_⟩
      have hlt := (pairwise_cons.mp (pairwise_append.mp hsorted).2.1).1 _ hmem
      omega
    · exact .inl (by rw [hnil]; rfl)

theorem inserted :
    (getPrev (linkIn g header (below.getLastD 0) (above.headD 0)).mem header = below.getLastD 0 ∧
      getNext (linkIn g header (below.getLastD 0) (above.headD 0)).mem header = above.headD 0) ∧
    getNext (linkIn g header (below.getLastD 0) (above.headD 0)).mem (below.getLastD 0) = header ∧
    (∀ x ∈ below ++ above, x ≠ below.getLastD 0 →
      getNext (linkIn g header (below.getLastD 0) (above.headD 0)).mem x = getNext g.mem x) ∧
    ∀ x ∈ below ++ above, getSize (linkIn g header (below.getLastD 0) (above.headD 0)).mem x =
      getSize g.mem x := by
  have hlast := hs.below_apart _ hs.last_mem
  have hlast_mem := mem_append_left above hs.last_mem
  have hlast_bounds := hs.mem_bounds hlast_mem
  have hnext : above.headD 0 = 0 ∨ (above.headD 0 ∈ below ++ above ∧
      header + 12 ≤ above.headD 0 ∧ above.headD 0 < 2 ^ 32) := by
    rcases hs.next_cases with hnull | ⟨hmem, _⟩
    · exact .inl hnull
    · have hmem' := mem_append_right below hmem
      exact .inr ⟨hmem', hs.above_apart _ hmem, (hs.mem_bounds hmem').2⟩
  have hheader : ∀ x ∈ below ++ above, x + 12 ≤ header ∨ header + 12 ≤ x := by
    intro x hx
    rcases mem_append.mp hx with hx | hx
    · exact .inl (hs.below_apart x hx)
    · exact .inr (hs.above_apart x hx)
  refine ⟨linkIn_links (by omega) (by omega) (by omega) (by omega), ?_, ?_, ?_⟩
  · exact load32_linkNext_self (by omega) hs.header_lt
  · intro x hx hne
    have hx' := hheader x hx
    have hsep := hs.apart hx hlast_mem hne
    refine getNext_congr fun y _ _ => linkIn_mem_of_outside (by omega) (by omega) ?_
    rcases hnext with hnull | ⟨hmem, _⟩
    · exact .inl hnull
    · by_cases heq : x = above.headD 0
      · omega
      · have := hs.apart hx hmem heq
        omega
  · intro x hx
    have hx' := hheader x hx
    refine getSize_congr fun y _ _ => linkIn_mem_of_outside (by omega) ?_ ?_
    · by_cases heq : x = below.getLastD 0
      · omega
      · have := hs.apart hx hlast_mem heq
        omega
    · rcases hnext with hnull | ⟨hmem, _⟩
      · exact .inl hnull
      · by_cases heq : x = above.headD 0
        · omega
        · have := hs.apart hx hmem heq
          omega

/-- Merging the stray header with what follows it does not touch the free
headers below it. -/
theorem merged_next (hg₁ : g₁ = linkIn g header (below.getLastD 0) (above.headD 0)) :
    (∀ x ∈ below, ∀ y, x ≤ y → y < x + 12 → (mergeNext g₁ header).mem y = g₁.mem y) ∧
      getPrev (mergeNext g₁ header).mem header = below.getLastD 0 ∧
      (getNext (mergeNext g₁ header).mem header = 0 ∨
        getNext (mergeNext g₁ header).mem header ∈ above) := by
  obtain ⟨⟨hprev, hnext⟩, _, hkeep, _⟩ := hs.inserted
  rw [← hg₁] at hprev hnext hkeep
  rcases hs.next_cases with hnull | ⟨hmem, hafter⟩
  · rw [hnull] at hnext
    rw [mergeNext_null hnext]
    exact ⟨fun _ _ _ _ _ => rfl, hprev, .inl hnext⟩
  · have hmem' := mem_append_right below hmem
    have habove := hs.above_apart _ hmem
    have hlast := hs.below_apart _ hs.last_mem
    have hsecond := hkeep _ hmem' (by omega)
    generalize getNext g.mem (above.headD 0) = after at hafter hsecond
    have hafter_apart : after = 0 ∨ (header + 12 ≤ after ∧
        (after + 12 ≤ above.headD 0 ∨ above.headD 0 + 12 ≤ after)) := by
      rcases hafter with hzero | ⟨hin, hne⟩
      · exact .inl hzero
      · have hin' := mem_append_right below hin
        have hsep := hs.apart hmem' hin' hne
        exact .inr ⟨hs.above_apart _ hin, by omega⟩
    obtain ⟨hnew, hframe⟩ := mergeNext_frame hnext hsecond (by omega) (by omega) (by omega)
    refine ⟨?_, ?_, ?_⟩
    · intro x hx y hlo hhi
      have := hs.below_apart x hx
      exact hframe y (by omega) (by omega)
    · refine Eq.trans (getPrev_congr fun y _ _ => ?_) hprev
      exact hframe y (by omega) (by omega)
    · rcases hnew with hnew | hnew
      · rw [hnew]
        exact .inr hmem
      · rw [hnew]
        exact hafter.imp_right fun h => h.1

theorem mem_below (hmem : c ∈ bs) (hfree : c.free = true) (hbefore : c.addr < header) :
    c.addr ∈ below := by
  have hin : c.addr ∈ below ++ above := by
    rw [← hs.split]
    exact mem_freeAddrs.mpr ⟨c, hmem, hfree, rfl⟩
  rcases mem_append.mp hin with hin | hin
  · exact hin
  · have := hs.above_apart _ hin
    omega

theorem next_inserted (hx : x ∈ below) :
    getNext (linkIn g header (below.getLastD 0) (above.headD 0)).mem x = getNext g.mem x ∨
      getNext (linkIn g header (below.getLastD 0) (above.headD 0)).mem x = header := by
  obtain ⟨_, hnext_last, hkeep, _⟩ := hs.inserted
  by_cases heq : x = below.getLastD 0
  · rw [heq]
    exact .inr hnext_last
  · exact .inl (hkeep _ (mem_append_left above hx) heq)

theorem next_after (hmem : c ∈ bs) (hfree : c.free = true) (hfar : c.finish < header) {g₂ : Heap}
    {merged : Nat} (hinsert : insertChunk g header = .ok g₁)
    (hmerge : merge g₁ header = .ok (merged, g₂)) :
    getNext g₂.mem c.addr = getNext g.mem c.addr ∨ getNext g₂.mem c.addr = header := by
  have hend := hs.coherent.end_lt
  have hcb := hs.coherent.block_bounds hmem
  unfold finish at hfar
  have hbelow := hs.mem_below hmem hfree (by omega)
  have hin := mem_append_left above hbelow
  have hlast_mem := mem_append_left above hs.last_mem
  have hlast_bounds := hs.mem_bounds hlast_mem
  have hg₁ : g₁ = linkIn g header (below.getLastD 0) (above.headD 0) := by
    have heq := insertChunk_between hs.coherent hs.split hs.nonempty hs.below_apart hs.above_apart
    rw [hinsert] at heq
    simpa using heq
  obtain ⟨_, hnext_last, _, hsizes⟩ := hs.inserted
  have hinserted := hs.next_inserted hbelow
  rw [← hg₁] at hnext_last hsizes hinserted
  obtain ⟨hframe, hprev, hnext⟩ := hs.merged_next hg₁
  have hmergedNext : getNext (mergeNext g₁ header).mem c.addr = getNext g₁.mem c.addr :=
    getNext_congr fun y _ _ => hframe _ hbelow y (by omega) (by omega)
  unfold merge at hmerge
  split at hmerge
  · cases hmerge
    exact hinserted
  · by_cases hreach : add32 (add32 (below.getLastD 0) 12)
        (getSize (mergeNext g₁ header).mem (below.getLastD 0)) = header
    · have hsize : getSize (mergeNext g₁ header).mem (below.getLastD 0) =
          getSize g.mem (below.getLastD 0) := by
        rw [← hsizes _ hlast_mem]
        exact getSize_congr fun y _ _ => hframe _ hs.last_mem y (by omega) (by omega)
      have hlinked : getNext (mergeNext g₁ header).mem (below.getLastD 0) = header := by
        refine Eq.trans ?_ hnext_last
        exact getNext_congr fun y _ _ => hframe _ hs.last_mem y (by omega) (by omega)
      -- The chunk itself is not the one that absorbs the stray header.
      have hne : c.addr ≠ below.getLastD 0 := by
        intro heq
        rw [hsize, ← heq, hs.coherent.sizes c hmem hfree, add32_add32 (by omega)] at hreach
        omega
      rw [mergePrev_eq_mergeNext hprev hlinked (by omega) (by omega) hreach] at hmerge
      cases hmerge
      have hlast := hs.below_apart _ hs.last_mem
      have hsep := hs.apart hin hlast_mem hne
      have hbehind : getNext (mergeNext g₁ header).mem header = 0 ∨
          header + 12 ≤ getNext (mergeNext g₁ header).mem header :=
        hnext.imp_right (hs.above_apart _)
      obtain ⟨_, hframe'⟩ := mergeNext_frame hlinked rfl (by omega) (by omega) (by omega)
      rw [← hmergedNext] at hinserted
      rw [getNext_congr fun y _ _ => hframe' y (by omega) (by omega)]
      exact hinserted
    · simp only [mergePrev, hprev] at hmerge
      rw [if_neg (fun hcond => hreach hcond.2)] at hmerge
      cases hmerge
      rw [hmergedNext]
      exact hinserted

end

end StrayAt

theorem exists_strayAt (hc : Coherent bs g)
    (hsep : ∀ x ∈ freeAddrs bs, x + 12 ≤ header ∨ header + 12 ≤ x) (hheader : header < 2 ^ 32)
    (hmem : c ∈ bs) (hfree : c.free = true) (hfar : c.finish < header) :
    ∃ below above, StrayAt bs g header below above := by
  have hnot : header ∉ freeAddrs bs := by
    intro hin
    have := hsep _ hin
    omega
  obtain ⟨below, above, heq, hbelow, habove⟩ := exists_split hc.partition.freeAddrs_sorted hnot
  refine ⟨below, above, hc, heq, ?_, ?_, ?_, hheader⟩
  · rintro rfl
    have hin : c.addr ∈ freeAddrs bs := mem_freeAddrs.mpr ⟨c, hmem, hfree, rfl⟩
    rw [heq] at hin
    have := habove _ hin
    unfold finish at hfar
    omega
  · intro x hx
    have := hsep x (by rw [heq]; exact mem_append_left _ hx)
    have := hbelow x hx
    omega
  · intro x hx
    have := hsep x (by rw [heq]; exact mem_append_right _ hx)
    have := habove x hx
    omega

/-- Freeing at a stray header does not lead a chunk below to anything but the
stray header. -/
theorem freeAlgorithm_next (hc : Coherent bs g)
    (hfree : freeAlgorithm g pager ptr = .ok (g', calls)) (hpager : pager.initialized = false)
    (hheader : sub32 ptr 12 = header) (hsep : ∀ x ∈ freeAddrs bs, x + 12 ≤ header ∨ header + 12 ≤ x)
    (hlt : header < 2 ^ 32) (hmem : c ∈ bs) (hcfree : c.free = true) (hfar : c.finish < header) :
    getNext g'.mem c.addr = getNext g.mem c.addr ∨ getNext g'.mem c.addr = header := by
  rcases freeAlgorithm_cases hfree with rfl | ⟨g₁, g₂, merged, hinsert, hmerge, rfl⟩
  · exact .inl rfl
  · have hnone : releaseCalls g₂ pager merged = [] := by
      simp [releaseCalls, hpager]
    rw [hheader] at hinsert hmerge
    obtain ⟨below, above, hs⟩ := exists_strayAt
      (hc.withFreeMemory (add32 g.freeMemory (getSize g.mem header))) hsep hlt hmem hcfree hfar
    rw [hnone]
    exact hs.next_after hmem hcfree hfar hinsert hmerge

end Stray

section Shrinking

variable {left right : List Block} {b : Block} {h : Heap} {size : Nat}

theorem shrinks_of_small (hinv : TilingInv (left ++ [b] ++ right) h) (hlive : b.free = false)
    (hsize : 0 < size) (hlt : size < b.size) (hsmall : b.size - size ≤ 16) :
    Shrinks left b right h size := by
  intro pager
  have hbounds := hinv.bounds (b := b) (by simp)
  have hcall : realloc h pager b.payload size 0 = .ok (b.payload, h) := by
    rw [realloc_of_live hinv hlive hsize, if_neg (by omega), if_pos hlt]
    unfold reallocShrink
    rw [hinv.live_sizes b (by simp) hlive, sub32_eq (by omega) (by omega), if_neg]
    · rfl
    · simp only [MIN_BLOCK_SIZE, HEADER_SIZE]
      omega
  have hlayout : shrunk left b right size = left ++ [b] ++ right := if_neg (by omega)
  rw [hlayout]
  exact ⟨h, hcall, hinv, ⟨rfl, rfl, rfl⟩, fun _ _ _ => rfl, fun _ _ _ _ _ _ => rfl⟩

theorem reallocShrink_split (hinv : TilingInv (left ++ [b] ++ right) h) (hlive : b.free = false)
    (hsplit : 16 < b.size - size) {pager : Pager} {ptr : Nat} {h' : Heap}
    (hcall : reallocShrink h pager b.payload size b.addr = .ok (ptr, h')) :
    ∃ g g' calls, Coherent (left ++ [b] ++ right) g ∧ g.firstChunk = h.firstChunk ∧
      (∀ x, x < b.addr → g.mem x = h.mem x) ∧
      freeAlgorithm g pager (add32 (b.payload + size) 144) = .ok (g', calls) ∧
      h' = { g' with mem := setSize g'.mem b.addr size } := by
  have hbounds := hinv.bounds (b := b) (by simp)
  have hslot : add32 b.payload size = b.payload + size := add32_eq (by unfold payload; omega)
  unfold reallocShrink at hcall
  rw [hinv.live_sizes b (by simp) hlive, sub32_eq (by omega) (by omega), if_pos] at hcall
  · simp only [hslot, HEADER_SIZE, Nat.reduceMul] at hcall
    rw [deref_bind (by unfold payload; omega)] at hcall
    obtain ⟨⟨g', calls⟩, hfree, hcall⟩ := bind_eq_ok hcall
    cases hcall
    refine ⟨{ h with mem := setSize h.mem (b.payload + size) (sub32 (b.size - size) 12) }, g',
      calls, ?_, rfl, ?_, hfree, rfl⟩
    · refine hinv.of_live_bytes (by simp) hlive ?_
      intro x hx
      refine store32_of_outside ?_
      unfold payload finish at *
      omega
    · intro x hx
      refine store32_of_outside ?_
      unfold payload
      omega
  · omega

/-- The header that the stray `free` reads overlaps no free header, or there
is no free header below the block. -/
def StrayClear (left : List Block) (b : Block) (right : List Block) (size : Nat) : Prop :=
  freeAddrs left = [] ∨ (b.payload + size + 144 < 2 ^ 32 ∧ ∀ x ∈ freeAddrs (left ++ [b] ++ right),
      x + 12 ≤ b.payload + size + 132 ∨ b.payload + size + 144 ≤ x)

theorem shrunk_links (hsplit : 16 < b.size - size) (hinv : TilingInv (shrunk left b right size) h) :
    (lastFree left = 0 → h.firstChunk = b.payload + size) ∧
      (lastFree left ≠ 0 → getNext h.mem (lastFree left) = b.payload + size) := by
  have hlayout :
      shrunk left b right size = left ++ [⟨b.addr, size, false⟩,
        (joinNext (remainder b size) right).1] ++
        (joinNext (remainder b size) right).2 := if_pos hsplit
  rw [hlayout] at hinv
  have hmid : freeAddrs [⟨b.addr, size, false⟩, (joinNext (remainder b size) right).1] =
      [b.payload + size] := by
    rw [freeAddrs_cons_live rfl, freeAddrs_cons_free (joinNext_free rfl), joinNext_addr]
    rfl
  constructor
  · intro hnull
    have hfirst := hinv.toCoherent.first_eq hnull
    rwa [hmid] at hfirst
  · intro hne
    have hnext := hinv.toCoherent.last_next hne
    rwa [hmid] at hnext

/-- The stray `free` does not lead the list to the remainder. -/
theorem not_shrinks_of_split (hinv : TilingInv (left ++ [b] ++ right) h) (hlive : b.free = false)
    (hsize : 0 < size) (hsplit : 16 < b.size - size) (hclear : StrayClear left b right size) :
    ¬Shrinks left b right h size := by
  intro hshrinks
  obtain ⟨h', hcall, hinv', _, _, _⟩ := hshrinks ⟨false, fun _ => 0, fun _ => 0⟩
  rw [realloc_of_live hinv hlive hsize, if_neg (by omega), if_pos (by omega)] at hcall
  obtain ⟨g, g', calls, hc, hfirst, hkeep, hfree, rfl⟩ :=
    reallocShrink_split hinv hlive hsplit hcall
  obtain ⟨hleft, _, hright⟩ := hinv.toCoherent.around
  obtain ⟨hfirst', hnext'⟩ := shrunk_links hsplit hinv'
  have hbounds := hinv.bounds (b := b) (by simp)
  have hff := hright.firstFree_cases
  have hnil : freeAddrs [b] = [] := freeAddrs_cons_live hlive
  have hslot : b.payload + size < 2 ^ 32 ∧ b.addr < b.payload + size ∧
      b.payload + size < b.finish := by
    unfold payload finish
    omega
  by_cases hnull : lastFree left = 0
  · have hnew := hfirst' hnull
    have hold := hinv.toCoherent.first_eq hnull
    rw [hnil, headD_nil] at hold
    rcases freeAlgorithm_first hfree with hkept | hmoved
    · simp only [hkept, hfirst, hold] at hnew
      omega
    · simp only [hmoved] at hnew
      unfold sub32 add32 at hnew
      omega
  · have hnew := hnext' hnull
    have hold := hinv.toCoherent.last_next hnull
    rw [hnil, headD_nil] at hold
    rcases hleft.lastFree_cases with ⟨_, hzero⟩ | ⟨hlast, hlow, hhigh⟩
    · exact hnull hzero
    · obtain ⟨hwrap, hsep⟩ := hclear.resolve_left (ne_nil_of_mem hlast)
      obtain ⟨c, hmem, hcfree, haddr⟩ := mem_freeAddrs.mp hlast
      have hcb := hleft.block_bounds hmem
      have hheader : sub32 (add32 (b.payload + size) 144) 12 = b.payload + size + 132 := by
        rw [add32_eq hwrap, sub32_eq (by omega) hwrap]
        omega
      have hkept := freeAlgorithm_next hc hfree rfl hheader hsep (by omega)
        (by simp [hmem]) hcfree (by unfold finish; omega)
      rw [haddr] at hkept
      have hunset : getNext (setSize g'.mem b.addr size) (lastFree left) =
          getNext g'.mem (lastFree left) :=
        load32_store32_of_disjoint (by omega)
      have hsame : getNext g.mem (lastFree left) = getNext h.mem (lastFree left) :=
        getNext_congr fun x _ _ => hkeep x (by omega)
      simp only [hunset] at hnew
      omega

/-- Shrinking works whenever the remainder is too small to be split off. As
long as the stray header overlaps no free header, that is the only case. -/
theorem shrinks_iff (hinv : TilingInv (left ++ [b] ++ right) h) (hlive : b.free = false)
    (hsize : 0 < size) (hlt : size < b.size) :
    (b.size - size ≤ 16 → Shrinks left b right h size) ∧
      (StrayClear left b right size → (Shrinks left b right h size ↔ b.size - size ≤ 16)) := by
  refine ⟨shrinks_of_small hinv hlive hsize hlt, fun hclear => ⟨?_, ?_⟩⟩
  · intro hshrinks
    by_contra hsplit
    exact not_shrinks_of_split hinv hlive hsize (by omega) hclear hshrinks
  · exact shrinks_of_small hinv hlive hsize hlt

theorem shrinks_iff_page :
    ∃ h, alloc (initialHeap (fun _ => 0) 0x1000 0x2000 false) 200 0 = .ok (0x100C, h) ∧
      Shrinks [] ⟨0x1000, 200, false⟩ [⟨0x10D4, 3872, true⟩] h 190 := by
  obtain ⟨h, hcall, hinv⟩ := alloc_page_two_hundred
  exact ⟨h, hcall, (shrinks_iff hinv.toTilingInv rfl (by decide) (by decide)).1 (by decide)⟩

/-- Cutting a block of 200 bytes down to 100 fails on a fresh page. -/
theorem shrinks_fails_at_half :
    ∃ h, alloc (initialHeap (fun _ => 0) 0x1000 0x2000 false) 200 0 = .ok (0x100C, h) ∧
      ¬Shrinks [] ⟨0x1000, 200, false⟩ [⟨0x10D4, 3872, true⟩] h 100 := by
  obtain ⟨h, hcall, hinv⟩ := alloc_page_two_hundred
  exact ⟨h, hcall, not_shrinks_of_split hinv.toTilingInv rfl (by decide) (by decide) (.inl rfl)⟩

end Shrinking

end HuyaOS.FreeListMemoryManager
