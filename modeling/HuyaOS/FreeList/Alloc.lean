import HuyaOS.FreeList.Search

/-!
Allocation as a whole, for blocks that need no carving. The block at which the
search stops is cut, and the invariants of the heap carry over to the layout
with the cut block. Without an alignment this is first fit over the rounded
size, as long as the rounding does not wrap around.
-/

namespace HuyaOS.FreeListMemoryManager

open Lib MemoryUtil List

section Outcome

variable {left bs right : List Block} {b : Block} {h : Heap} {size alignment startChunk : Nat}

theorem choose_eq_some (hchoose : choose size alignment bs = some b) :
    ∃ l r, bs = l ++ [b] ++ r ∧ b.Usable size alignment ∧ ∀ c ∈ l, ¬c.Usable size alignment := by
  obtain ⟨husable, l, r, heq, hskip⟩ := find?_eq_some_iff_append.mp hchoose
  refine ⟨l, r, by simpa using heq, by simpa using husable, ?_⟩
  intro c hc
  simpa using hskip c hc

theorem choose_eq_none : choose size alignment bs = none ↔ ∀ b ∈ bs, ¬b.Usable size alignment := by
  simp [choose]

def searchStart (h : Heap) (startChunk : Nat) : Nat :=
  if startChunk = 0 then h.firstChunk else startChunk

theorem Coherent.searchStart_first (hc : Coherent bs h) :
    searchStart h h.firstChunk = firstFree bs := by
  simp [searchStart, hc.first, firstFree]

theorem allocAlgorithm_eq (hc : Coherent (left ++ bs) h) (hsize : size ≠ 0)
    (hstart : searchStart h startChunk = firstFree bs) :
    allocAlgorithm h size alignment startChunk =
      match report alignment (choose (alignUp size 4) alignment bs) with
      | .none => .ok (0, h)
      | .fits current => takeChunk h current (alignUp size 4)
      | .carves current aligned => (do
          deref aligned
          takeChunk (carve h current aligned) aligned (alignUp size 4)) := by
  have hsearch := hc.allocSearch_eq (alignUp size 4) alignment
  unfold allocAlgorithm
  rw [if_neg hsize]
  change (do
    let found ← allocSearch h.mem (alignUp size 4) alignment (2 ^ 32) (searchStart h startChunk)
    _) = _
  rw [hstart, hsearch]
  rfl

theorem allocAlgorithm_none (hc : Coherent (left ++ bs) h)
    (hstart : searchStart h startChunk = firstFree bs)
    (hnone : ∀ b ∈ bs, ¬b.Usable (alignUp size 4) alignment) :
    allocAlgorithm h size alignment startChunk = .ok (0, h) := by
  by_cases hsize : size = 0
  · rw [allocAlgorithm, if_pos hsize]
    rfl
  · rw [allocAlgorithm_eq hc hsize hstart, choose_eq_none.mpr hnone]
    rfl

section

variable (hc : Coherent (left ++ bs) h) (hsize : size ≠ 0)
  (hstart : searchStart h startChunk = firstFree bs)
  (hchoose : choose (alignUp size 4) alignment bs = some b)

include hc hsize hstart hchoose

theorem allocAlgorithm_aligned (haligned : b.Aligned alignment) :
    allocAlgorithm h size alignment startChunk = takeChunk h b.addr (alignUp size 4) := by
  rw [allocAlgorithm_eq hc hsize hstart, hchoose]
  simp [report, haligned]

theorem allocAlgorithm_carved (haligned : ¬b.Aligned alignment)
    (hnull : alignedHeader b.addr alignment ≠ 0) :
    allocAlgorithm h size alignment startChunk =
      takeChunk (carve h b.addr (alignedHeader b.addr alignment))
        (alignedHeader b.addr alignment) (alignUp size 4) := by
  rw [allocAlgorithm_eq hc hsize hstart, hchoose]
  simp only [report, haligned, if_false]
  exact deref_bind hnull _

end

end Outcome

section Invariants

variable {left right : List Block} {b : Block} {h : Heap} {n : Nat}

theorem takeChunk_tiling (hinv : TilingInv (left ++ [b] ++ right) h) (hfree : b.free = true)
    (hn : n ≤ b.size) :
    ∃ h', takeChunk h b.addr n = .ok (b.payload, h') ∧
      TilingInv (left ++ cut b n ++ right) h' ∧ SameRegion h h' ∧
      KeepsLive (left ++ [b] ++ right) h.mem h'.mem ∧
      (HeapInv (left ++ [b] ++ right) h → HeapInv (left ++ cut b n ++ right) h') := by
  obtain ⟨h', htake, hc', hregion, hkeep, hsizes, hlinks, hacc⟩ :=
    takeChunk_spec hinv.toCoherent hfree hn
  have hkeep' : KeepsLive (left ++ [b] ++ right) h.mem h'.mem := by
    refine hkeep.mono ?_
    intro c hc hlive
    simp only [mem_append, mem_singleton] at hc ⊢
    rcases hc with (hc | rfl) | hc
    · exact .inl hc
    · rw [hfree] at hlive
      cases hlive
    · exact .inr hc
  have hsub : ∀ c ∈ left ++ right, c.free = false → c ∈ left ++ [b] ++ right :=
    fun _ hc _ => mem_around _ hc
  have hlive : LiveSizes (left ++ cut b n ++ right) h'.mem := by
    intro c hc hcl
    have houter := hinv.live_sizes.of_keeps hkeep hsub
    simp only [mem_append] at hc
    rcases hc with (hc | hc) | hc
    · exact houter c (by simp [hc]) hcl
    · exact hsizes c hc hcl
    · exact houter c (by simp [hc]) hcl
  have htiling : TilingInv (left ++ cut b n ++ right) h' :=
    ⟨hc', hlive, merged_cut hfree hinv.merged⟩
  refine ⟨h', htake, htiling, hregion, hkeep', fun hheap => ⟨htiling, ?_, hacc hheap.accounting⟩⟩
  intro c hc hcl
  have houter := hheap.live_links.of_keeps hkeep hsub
  simp only [mem_append] at hc
  rcases hc with (hc | hc) | hc
  · exact houter c (by simp [hc]) hcl
  · exact hlinks c hc hcl
  · exact houter c (by simp [hc]) hcl

/-- Without an alignment the first free block from the start chunk on that can
hold the rounded size is cut; otherwise nothing happens. -/
theorem allocAlgorithm_cases {pre bs : List Block} (hinv : TilingInv (pre ++ bs) h)
    {size startChunk : Nat} (hsize : size ≠ 0) (hstart : searchStart h startChunk = firstFree bs) :
    (allocAlgorithm h size 0 startChunk = .ok (0, h) ∧
      ∀ b ∈ bs, b.free = true → b.size < alignUp size 4) ∨
    ∃ left b right h', bs = left ++ [b] ++ right ∧ b.free = true ∧
      alignUp size 4 ≤ b.size ∧ (∀ c ∈ left, c.free = true → c.size < alignUp size 4) ∧
      allocAlgorithm h size 0 startChunk = .ok (b.payload, h') ∧
      TilingInv (pre ++ left ++ cut b (alignUp size 4) ++ right) h' ∧ SameRegion h h' ∧
      KeepsLive (pre ++ bs) h.mem h'.mem ∧
      (HeapInv (pre ++ bs) h → HeapInv (pre ++ left ++ cut b (alignUp size 4) ++ right) h') := by
  have hc := hinv.toCoherent
  cases hchoose : choose (alignUp size 4) 0 bs with
  | none =>
    have hnone := choose_eq_none.mp hchoose
    refine .inl ⟨allocAlgorithm_none hc hstart hnone, ?_⟩
    intro b hb hfree
    have hsmall := hnone b hb
    rw [usable_zero] at hsmall
    exact Nat.lt_of_not_le fun hle => hsmall ⟨hfree, hle⟩
  | some b =>
    obtain ⟨left, right, rfl, husable, hskip⟩ := choose_eq_some hchoose
    obtain ⟨hfree, hfits⟩ := usable_zero.mp husable
    have hassoc : pre ++ (left ++ [b] ++ right) = pre ++ left ++ [b] ++ right := by simp
    have hcall := allocAlgorithm_aligned hc hsize hstart hchoose (aligned_zero b)
    rw [hassoc] at hinv ⊢
    obtain ⟨h', htake, htiling, hregion, hkeep, hnew⟩ := takeChunk_tiling hinv hfree hfits
    refine .inr ⟨left, b, right, h', rfl, hfree, hfits, ?_, hcall.trans htake, htiling,
      hregion, hkeep, hnew⟩
    intro c hmem hcfree
    have hsmall := hskip c hmem
    rw [usable_zero] at hsmall
    exact Nat.lt_of_not_le fun hle => hsmall ⟨hcfree, hle⟩

theorem alloc_cases {bs : List Block} (hinv : TilingInv bs h) (size : Nat) :
    (alloc h size 0 = .ok (0, h) ∧
      (size = 0 ∨ ∀ b ∈ bs, b.free = true → b.size < alignUp size 4)) ∨
    ∃ left b right h', bs = left ++ [b] ++ right ∧ size ≠ 0 ∧ b.free = true ∧
      alignUp size 4 ≤ b.size ∧ (∀ c ∈ left, c.free = true → c.size < alignUp size 4) ∧
      alloc h size 0 = .ok (b.payload, h') ∧
      TilingInv (left ++ cut b (alignUp size 4) ++ right) h' ∧ SameRegion h h' ∧
      KeepsLive bs h.mem h'.mem ∧
      (HeapInv bs h → HeapInv (left ++ cut b (alignUp size 4) ++ right) h') := by
  by_cases hsize : size = 0
  · refine .inl ⟨?_, .inl hsize⟩
    rw [alloc, allocAlgorithm, if_pos hsize]
    rfl
  · have hinv' : TilingInv ([] ++ bs) h := hinv
    rcases allocAlgorithm_cases hinv' hsize hinv.toCoherent.searchStart_first with
      ⟨hcall, hnone⟩ | ⟨left, b, right, h', heq, hfree, hfits, hskip, hrest⟩
    · exact .inl ⟨hcall, .inr hnone⟩
    · exact .inr ⟨left, b, right, h', heq, hsize, hfree, hfits, hskip, hrest⟩

end Invariants

section Init

variable {m : Mem} {start stop : Nat} {doUnmap : Bool}

/-- The heap that `init` leaves when the region can hold a header. -/
def initialHeap (m : Mem) (start stop : Nat) (doUnmap : Bool) : Heap :=
  ⟨start, stop, stop - start - 12, doUnmap, start,
    setPrev (setNext (setSize m start (stop - start - 12)) start 0) start 0⟩

def initialChunk (start stop : Nat) : Block := ⟨start, stop - start - 12, true⟩

theorem init_eq (hpos : 0 < start) (hroom : start + 12 ≤ stop) (hstop : stop < 2 ^ 32) :
    init m start stop doUnmap = .ok (initialHeap m start stop doUnmap) := by
  have hsize : sub32 stop start = stop - start := sub32_eq (by omega) (by omega)
  have hpayload : sub32 (stop - start) 12 = stop - start - 12 := sub32_eq (by omega) (by omega)
  unfold init
  simp only [hsize, hpayload, HEADER_SIZE]
  rw [if_neg (by omega), deref_of_ne (by omega)]
  rfl

theorem initialHeap_inv (hpos : 0 < start) (hroom : start + 12 ≤ stop) (hstop : stop < 2 ^ 32) :
    HeapInv [initialChunk start stop] (initialHeap m start stop doUnmap) := by
  have hfree : freeAddrs [initialChunk start stop] = [start] := rfl
  refine ⟨⟨⟨hpos, hstop, ?_, ?_, rfl, ?_⟩, ?_, merged_singleton⟩, ?_, ?_⟩
  · simp only [initialChunk, initialHeap, tiles_cons, tiles_nil, Block.finish, true_and]
    omega
  · simp only [initialChunk, initialHeap, getSize, setPrev, setNext, setSize, mem_singleton,
      forall_eq, forall_const]
    simp (disch := omega) only [load32_store32_of_disjoint, load32_store32_self, Nat.mod_eq_of_lt]
  · rw [hfree]
    simp only [initialHeap, links_cons, links_nil, headD_nil, and_true, getNext, getPrev, setPrev,
      setNext, setSize]
    simp (disch := omega) only [load32_store32_of_disjoint, load32_store32_self,
      Nat.zero_mod, and_self]
  · simp [LiveSizes, initialChunk]
  · simp [LiveLinksNull, initialChunk]
  · rfl

theorem alloc_initial (m : Mem) (start stop : Nat) (doUnmap : Bool) (size : Nat)
    (hpos : 0 < start) (hroom : start + 12 ≤ stop) (hstop : stop < 2 ^ 32) (hsize : size ≠ 0)
    (hfits : alignUp size 4 ≤ stop - start - 12) :
    ∃ h', alloc (initialHeap m start stop doUnmap) size 0 = .ok (start + 12, h') ∧
      HeapInv (cut (initialChunk start stop) (alignUp size 4)) h' := by
  have hinv : HeapInv [initialChunk start stop] (initialHeap m start stop doUnmap) :=
    initialHeap_inv hpos hroom hstop
  have hchoose : choose (alignUp size 4) 0 [initialChunk start stop] =
      some (initialChunk start stop) := by
    simp [choose, usable_zero, initialChunk, hfits]
  have htiling : TilingInv ([] ++ [initialChunk start stop] ++ [])
      (initialHeap m start stop doUnmap) := hinv.toTilingInv
  have hc : Coherent ([] ++ [initialChunk start stop]) (initialHeap m start stop doUnmap) :=
    hinv.toCoherent
  obtain ⟨h', htake, _, _, _, hnew⟩ := takeChunk_tiling htiling rfl hfits
  have hcall := allocAlgorithm_aligned hc hsize hc.searchStart_first hchoose (aligned_zero _)
  exact ⟨h', hcall.trans htake, by simpa using hnew hinv⟩

theorem alloc_page_two_hundred :
    ∃ h, alloc (initialHeap (fun _ => 0) 0x1000 0x2000 false) 200 0 = .ok (0x100C, h) ∧
      HeapInv ([] ++ [⟨0x1000, 200, false⟩] ++ [⟨0x10D4, 3872, true⟩]) h := by
  obtain ⟨h, hcall, hinv⟩ := alloc_initial (fun _ => 0) 0x1000 0x2000 false 200
    (by decide) (by decide) (by decide) (by decide) (by decide)
  have hlayout : cut (initialChunk 0x1000 0x2000) (alignUp 200 4) =
      [⟨0x1000, 200, false⟩, ⟨0x10D4, 3872, true⟩] := by decide
  exact ⟨h, hcall, hinv⟩

end Init

section FirstFit

variable {bs : List Block} {h : Heap} {size : Nat}

def roundUp (size : Nat) : Nat := (size + 3) / 4 * 4

/-- `alloc size` is first fit: it fails exactly when the size is zero or no
free chunk can hold the rounded size, and otherwise returns the payload of the
lowest chunk that can, with at least `size` bytes in the block handed out. -/
def FirstFit (bs : List Block) (h : Heap) (size : Nat) : Prop :=
  ∃ ptr h', alloc h size 0 = .ok (ptr, h') ∧
    (ptr = 0 ↔ size = 0 ∨ ∀ b ∈ bs, b.free = true → b.size < roundUp size) ∧
    (ptr ≠ 0 → ∃ b ∈ bs, b.free = true ∧ roundUp size ≤ b.size ∧ ptr = b.payload ∧
      (∀ c ∈ bs, c.free = true → roundUp size ≤ c.size → b.addr ≤ c.addr) ∧
      size ≤ getSize h'.mem b.addr)

theorem TilingInv.cut_size {left right : List Block} {b : Block} {n : Nat}
    (hinv : TilingInv (left ++ cut b n ++ right) h) :
    getSize h.mem b.addr = (taken b n).size :=
  hinv.live_sizes (taken b n) (by simp [taken_mem_cut]) rfl

theorem firstFit_of_exact (hinv : TilingInv bs h) (hsize : size + 3 < 2 ^ 32) :
    FirstFit bs h size := by
  have hround : alignUp size 4 = roundUp size := by
    rw [alignUp_four (by omega), if_pos hsize]
    rfl
  rcases alloc_cases hinv size with ⟨hcall, hnone⟩ |
    ⟨left, b, right, h', rfl, hne, hfree, hfits, hskip, hcall, htiling, _, _, _⟩
  · rw [hround] at hnone
    exact ⟨0, h, hcall, by simpa using hnone, fun hne => absurd rfl hne⟩
  · have hpayload : b.payload ≠ 0 := Nat.succ_ne_zero _
    have hblock := htiling.cut_size
    rw [hround] at hfits hblock
    refine ⟨b.payload, h', hcall, ?_, fun _ => ?_⟩
    · constructor
      · exact fun hnull => absurd hnull hpayload
      · rintro (hzero | hnone)
        · exact absurd hzero hne
        · have := hnone b (by simp) hfree
          omega
    · refine ⟨b, by simp, hfree, hfits, rfl, ?_, ?_⟩
      · intro c hmem hcfree hcfits
        have hordered := Tiles.pairwise hinv.partition
        simp only [append_assoc, singleton_append, pairwise_append, pairwise_cons] at hordered
        simp only [mem_append, mem_singleton] at hmem
        rcases hmem with (hmem | rfl) | hmem
        · have := hskip c hmem hcfree
          omega
        · exact Nat.le_refl _
        · have hbehind := hordered.2.1.1 c hmem
          unfold Block.finish at hbehind
          omega
      · rw [hblock]
        refine Nat.le_trans ?_ (le_taken_size hfits)
        unfold roundUp
        omega

theorem alloc_wrapped (hinv : TilingInv bs h) (hsize : size < 2 ^ 32)
    (hwrap : 2 ^ 32 ≤ size + 3) (hfree : freeAddrs bs ≠ []) :
    ∃ ptr h', alloc h size 0 = .ok (ptr, h') ∧ ptr ≠ 0 := by
  have hround : alignUp size 4 = 0 := by
    rw [alignUp_four hsize, if_neg (by omega)]
  rcases alloc_cases hinv size with ⟨_, hnone⟩ | ⟨left, b, right, h', rfl, _, _, _, _, hcall, _⟩
  · obtain ⟨x, hx⟩ := exists_mem_of_ne_nil _ hfree
    obtain ⟨b, hb, hbfree, _⟩ := mem_freeAddrs.mp hx
    rcases hnone with hzero | hnone
    · omega
    · have := hnone b hb hbfree
      omega
  · exact ⟨b.payload, h', hcall, Nat.succ_ne_zero _⟩

/-- Allocation without alignment is first fit exactly when the rounding of the
size does not wrap around or the free list is empty. -/
theorem firstFit_iff (hinv : TilingInv bs h) (hsize : size < 2 ^ 32) :
    FirstFit bs h size ↔ size + 3 < 2 ^ 32 ∨ freeAddrs bs = [] := by
  have hend := hinv.end_lt
  constructor
  · rintro ⟨ptr, h', hcall, hnull, _⟩
    by_contra hcond
    rw [not_or] at hcond
    obtain ⟨ptr', h'', hcall', hne⟩ := alloc_wrapped hinv hsize (by omega) hcond.2
    rw [hcall] at hcall'
    obtain ⟨rfl, rfl⟩ : ptr = ptr' ∧ h' = h'' := by simpa using hcall'
    refine hne (hnull.mpr (.inr ?_))
    intro b hb _
    have := hinv.block_bounds hb
    unfold roundUp
    omega
  · rintro (hexact | hempty)
    · exact firstFit_of_exact hinv hexact
    · have hlive : ∀ b ∈ bs, b.free = true → False := by
        intro b hb hfree
        have hmem : b.addr ∈ freeAddrs bs := mem_freeAddrs.mpr ⟨b, hb, hfree, rfl⟩
        rw [hempty] at hmem
        cases hmem
      rcases alloc_cases hinv size with ⟨hcall, _⟩ | ⟨left, b, right, h', rfl, _, hfree, _⟩
      · refine ⟨0, h, hcall, ?_, fun hne => absurd rfl hne⟩
        exact iff_of_true rfl (.inr fun b hb hfree => (hlive b hb hfree).elim)
      · exact (hlive b (by simp) hfree).elim

theorem firstFit_iff_page :
    FirstFit [initialChunk 0x1000 0x2000] (initialHeap (fun _ => 0) 0x1000 0x2000 false) 100 :=
  (firstFit_iff (initialHeap_inv (by decide) (by decide) (by decide)).toTilingInv
    (by decide)).mpr (.inl (by decide))

/-- The largest request is rounded to zero and served by a fresh page with an
empty block. -/
theorem firstFit_fails_at_max :
    (∃ h', alloc (initialHeap (fun _ => 0) 0x1000 0x2000 false) 0xFFFFFFFF 0 = .ok (0x100C, h') ∧
      getSize h'.mem 0x1000 = 0) ∧
    ¬FirstFit [initialChunk 0x1000 0x2000] (initialHeap (fun _ => 0) 0x1000 0x2000 false)
      0xFFFFFFFF := by
  obtain ⟨h'', hcall', hinv⟩ := alloc_initial (fun _ => 0) 0x1000 0x2000 false 0xFFFFFFFF
    (by decide) (by decide) (by decide) (by decide) (by decide)
  have hempty : getSize h''.mem 0x1000 = 0 :=
    hinv.live_sizes (taken (initialChunk 0x1000 0x2000) (alignUp 0xFFFFFFFF 4))
      (taken_mem_cut _ _) rfl
  refine ⟨⟨h'', hcall', hempty⟩, ?_⟩
  rintro ⟨ptr, h', hcall, hnull, _⟩
  rw [hcall] at hcall'
  obtain ⟨rfl, _⟩ : ptr = 0x1000 + 12 ∧ h' = h'' := by simpa using hcall'
  refine absurd (hnull.mpr (.inr ?_)) (by decide)
  decide

end FirstFit

end HuyaOS.FreeListMemoryManager
