import HuyaOS.FreeList.Session
import HuyaOS.FreeList.Extend

/-!
`realloc` to a larger size. The source first scans the chunks below the block
for the best fit, then tries to absorb the chunk behind the block, and else
allocates a new block, starting its search at the best fit, and moves the
contents. The scan reads the first chunk without a test and never considers it
for absorption, and the search rounds the size up while the scan does not; so
there are heaps on which growing faults or fails although a chunk could hold
the request. The condition under which it works is exact.
-/

namespace HuyaOS.FreeListMemoryManager

open Lib MemoryUtil Management Block List Option

/-- The block behind `b` is free, and `b` can absorb it to reach `size` bytes. -/
def CanAbsorb (b : Block) (right : List Block) (size : Nat) : Prop :=
  ∃ c ∈ right.head?, c.free = true ∧ size ≤ b.size + 12 + c.size

/-- The free block behind `b`, or some other free block, can hold `size` bytes. -/
def CanHold (left : List Block) (b : Block) (right : List Block) (size : Nat) : Prop :=
  CanAbsorb b right size ∨ ∃ c ∈ left ++ right, c.free = true ∧ size ≤ c.size

/-- `realloc` returns. It returns null and changes nothing only if no free block
can hold the request; otherwise it returns a block that replaces the old one. -/
def Grows (left : List Block) (b : Block) (right : List Block) (h : Heap) (size : Nat) : Prop :=
  ∀ pager, ∃ ret h', realloc h pager b.payload size 0 = .ok (ret, h') ∧
    ((ret = 0 ∧ h' = h ∧ ¬CanHold left b right size) ∨
      (ret ≠ 0 ∧ Replaced left b right h size ret h'))

/-- Keep the better of two fits: the smaller one, and the earlier one of two
of the same size. -/
def better (size : Nat) : Option Block → Block → Option Block
  | none, c => if size ≤ c.size then some c else none
  | some d, c => if size ≤ c.size ∧ c.size < d.size then some c else some d

def bestFit (size : Nat) (bs : List Block) : Option Block := bs.foldl (better size) none

/-- The free blocks that the scan reads: those below the grown block or, if
there are none, the first one above it. -/
def scanned (left right : List Block) : List Block :=
  match left.filter (·.free) with
  | [] => (right.filter (·.free)).take 1
  | c :: cs => c :: cs

def scanStop (left right : List Block) : Nat :=
  match freeAddrs left with
  | [] => (freeAddrs right).tail.headD 0
  | _ :: _ => firstFree right

def pointerTo (best : Option Block) : Nat := (best.map addr).getD 0

variable {size : Nat} {d : Block}

theorem better_cases {best : Option Block} {c : Block} (h : better size best c = some d) :
    d = c ∨ best = some d := by
  cases best with
  | none =>
    simp only [better, ite_none_right_eq_some, some.injEq] at h
    exact .inl h.2.symm
  | some e =>
    simp only [better] at h
    split at h
    · exact .inl (some.inj h).symm
    · exact .inr h

theorem foldl_better_mem {bs : List Block} {best : Option Block}
    (h : bs.foldl (better size) best = some d) :
    d ∈ bs ∨ best = some d := by
  induction bs generalizing best with
  | nil => exact .inr h
  | cons c cs ih =>
    rcases ih h with hmem | hbest
    · exact .inl (mem_cons_of_mem c hmem)
    · rcases better_cases hbest with rfl | hbest
      · exact .inl (by simp)
      · exact .inr hbest

theorem bestFit_scanned {left right : List Block} (h : bestFit size (scanned left right) = some d) :
    d ∈ left ++ right ∧ d.free = true := by
  have hmem := (foldl_better_mem h).resolve_right (by simp)
  unfold scanned at hmem
  split at hmem
  · have := mem_filter.mp (mem_of_mem_take hmem)
    exact ⟨by simp [this.1], this.2⟩
  · rename_i c cs heq
    rw [← heq] at hmem
    have := mem_filter.mp hmem
    exact ⟨by simp [this.1], this.2⟩

section Scan

variable {m : Mem} {size before : Nat}

theorem scan_better {best : Option Block} {c : Block} (hsize : getSize m c.addr = c.size)
    (hbest : ∀ d, best = some d → getSize m d.addr = d.size ∧ d.addr ≠ 0) :
    (if size ≤ getSize m c.addr ∧ (pointerTo best = 0 ∨
      getSize m c.addr < getSize m (pointerTo best)) then c.addr
      else pointerTo best) = pointerTo (better size best c) := by
  cases best with
  | none =>
    simp only [pointerTo, better, hsize, map_none, getD_none, true_or, and_true]
    split <;> rfl
  | some d =>
    obtain ⟨hd, hne⟩ := hbest d rfl
    simp only [pointerTo, better, hsize, map_some, getD_some, hd, hne, false_or]
    split <;> rfl

/-- The scan reads the blocks up to the first one at or above `ptr` and returns
that one and the best fit. -/
theorem reallocScan_spec (ptr size fuel : Nat) (best : Option Block) {c : Block} {cs : List Block}
    {rest : List Nat}
    (hlinks : Links (getNext m) (getPrev m) before (c.addr :: (cs.map addr ++ rest)) 0)
    (hsizes : ∀ d ∈ c :: cs, getSize m d.addr = d.size ∧ d.addr ≠ 0)
    (hbest : ∀ d, best = some d → getSize m d.addr = d.size ∧ d.addr ≠ 0)
    (hlow : ∀ d ∈ cs, d.addr < ptr) (hstop : rest.headD 0 = 0 ∨ ptr ≤ rest.headD 0)
    (hfuel : cs.length < fuel) :
    reallocScan m ptr size fuel c.addr (pointerTo best) =
      .ok (rest.headD 0, pointerTo ((c :: cs).foldl (better size) best)) := by
  induction cs generalizing c best before fuel with
  | nil =>
    obtain ⟨hsize, hne⟩ := hsizes c (by simp)
    obtain ⟨_, hnext, _⟩ := hlinks
    cases fuel with
    | zero => simp at hfuel
    | succ fuel =>
      unfold reallocScan
      rw [deref_bind hne, scan_better hsize hbest, hnext]
      simp only [map_nil, nil_append]
      rw [if_neg (by omega)]
      rfl
  | cons d ds ih =>
    obtain ⟨hsize, hne⟩ := hsizes c (by simp)
    obtain ⟨_, hnext, hrest⟩ := hlinks
    have hd := hsizes d (by simp)
    have hdlow := hlow d (by simp)
    cases fuel with
    | zero => simp at hfuel
    | succ fuel =>
      unfold reallocScan
      rw [deref_bind hne, scan_better hsize hbest, hnext]
      rw [if_pos ⟨hd.2, hdlow⟩]
      refine ih fuel (better size best c) hrest (fun e he => hsizes e (by simp [he])) ?_
        (fun e he => hlow e (by simp [he])) (by simpa using hfuel)
      intro e he
      rcases better_cases he with rfl | hold
      · exact ⟨hsize, hne⟩
      · exact hbest e hold

end Scan

section Growing

variable {left right : List Block} {b : Block} {h : Heap} {size : Nat} {bs : List Block} {ret : Nat}
  {h' : Heap}

theorem Coherent.reallocScan_eq (hc : Coherent (left ++ [b] ++ right) h) (hlive : b.free = false)
    (hfree : freeAddrs (left ++ right) ≠ []) (size : Nat) :
    reallocScan h.mem b.payload size maxChunks h.firstChunk 0 =
      .ok (scanStop left right, pointerTo (bestFit size (scanned left right))) := by
  obtain ⟨hleft, _, hright⟩ := hc.around
  have hstart := hc.start_pos
  have hlinks := hc.links
  have hfirst := hc.first
  have hlen := hc.partition.freeAddrs_length hc.end_lt
  have hheader : ∀ d ∈ left ++ [b] ++ right, d.free = true →
      getSize h.mem d.addr = d.size ∧ d.addr ≠ 0 := by
    intro d hd hdfree
    have := hc.block_bounds hd
    exact ⟨hc.sizes d hd hdfree, by omega⟩
  rw [freeAddrs_around hlive] at hlinks hfirst hlen
  rw [freeAddrs_append] at hfree
  cases hl : left.filter (·.free) with
  | nil =>
    have hnil : freeAddrs left = [] := by simp [freeAddrs, hl]
    rw [hnil] at hlinks hfree
    cases hr : right.filter (·.free) with
    | nil => exact absurd (by simp [freeAddrs, hr]) hfree
    | cons c cs =>
      have haddrs : freeAddrs right = c.addr :: cs.map addr := by simp [freeAddrs, hr]
      have hc' : c ∈ right ∧ c.free = true := mem_filter.mp (by rw [hr]; simp)
      have hsorted := hright.freeAddrs_sorted
      have hlow := (hright.block_bounds hc'.1).1
      rw [haddrs] at hlinks hsorted
      have hstop : (cs.map addr).headD 0 = 0 ∨ b.payload ≤ (cs.map addr).headD 0 := by
        rcases headD_mem_or_eq 0 (cs.map addr) with hmem | hempty
        · have := (pairwise_cons.mp hsorted).1 _ hmem
          unfold payload
          unfold finish at hlow
          omega
        · rw [hempty]
          exact .inl rfl
      have hlinks' :
          Links (getNext h.mem) (getPrev h.mem) 0 (c.addr :: ([].map addr ++ cs.map addr)) 0 :=
        hlinks
      have hscan := reallocScan_spec b.payload size maxChunks none hlinks'
        (by simpa using hheader c (by simp [hc'.1]) hc'.2) (by simp) (by simp) hstop (by simp)
      rw [hfirst, scanStop, hnil, haddrs, scanned, hl, hr]
      exact hscan
  | cons c cs =>
    have haddrs : freeAddrs left = c.addr :: cs.map addr := by simp [freeAddrs, hl]
    rw [haddrs] at hlinks hlen
    have hmem : ∀ d ∈ c :: cs, d ∈ left ∧ d.free = true := by
      intro d hd
      exact mem_filter.mp (by rw [hl]; exact hd)
    have hstop : (freeAddrs right).headD 0 = 0 ∨ b.payload ≤ (freeAddrs right).headD 0 := by
      rcases hright.firstFree_cases with ⟨_, hnull⟩ | ⟨_, hlow, _⟩
      · exact .inl hnull
      · refine .inr (Nat.le_trans ?_ hlow)
        unfold payload finish
        omega
    have hscan := reallocScan_spec b.payload size maxChunks none hlinks
      (fun d hd => hheader d (by simp [(hmem d hd).1]) (hmem d hd).2) (by simp)
      (fun d hd => by
        have := hleft.block_bounds (hmem d (by simp [hd])).1
        unfold payload
        omega) hstop
      (by
        simp only [length_cons, length_append, length_map, maxChunks] at hlen ⊢
        omega)
    rw [hfirst, scanStop, haddrs, scanned, hl]
    exact hscan

theorem moveBlock_spec {t : Block} (hinv : HeapInv bs h)
    (hb : b ∈ liveBlocks bs) (ht : t ∈ liveBlocks bs) (hne : t ≠ b) (hgrow : b.size < size)
    (hfits : b.size ≤ t.size) (pager : Pager) :
    ∃ h' bs', moveBlock h pager b.payload size b.addr t.payload = .ok (t.payload, h') ∧
      HeapInv bs' h' ∧ SameRegion h h' ∧ t ∈ liveBlocks bs' ∧
      (livePointers bs').Perm ((livePointers bs).erase b.payload) ∧
      ∀ i < b.size, h'.mem (t.payload + i) = h.mem (b.payload + i) := by
  obtain ⟨hbmem, hblive⟩ := mem_liveBlocks.mp hb
  obtain ⟨htmem, htlive⟩ := mem_liveBlocks.mp ht
  have hsep : t.finish ≤ b.addr ∨ b.finish ≤ t.addr :=
    Tiles.separated hinv.partition htmem hbmem hne
  unfold finish at hsep
  let m := copyBytes h.mem t.payload b.payload b.size
  have hcopied : HeapInv bs { h with mem := m } := by
    refine hinv.of_payload htmem ?_
    intro x hx
    refine copyBytes_of_outside ?_
    unfold payload finish at *
    omega
  obtain ⟨h', calls, bs', hcall, hinv', hregion, hperm, hkeep, hothers, _⟩ :=
    free_step hcopied (mem_map_of_mem hb) pager
  have hstays : t ∈ liveBlocks bs' := by
    refine hothers t ht ?_
    unfold payload
    omega
  refine ⟨h', bs', ?_, hinv', ⟨hregion.start_eq, hregion.end_eq, hregion.doUnmap_eq⟩,
    hstays, hperm, ?_⟩
  · have hpos : t.payload ≠ 0 := Nat.succ_ne_zero _
    have hcount : (if size < b.size then size else b.size) = b.size := if_neg (by omega)
    unfold moveBlock
    simp only [hinv.live_sizes b hbmem hblive, hcount]
    rw [hcall]
    rfl
  · intro i hi
    obtain ⟨htmem', htlive'⟩ := mem_liveBlocks.mp hstays
    rw [hkeep t htmem' htlive' _ (by unfold payload; omega) (by unfold payload finish; omega)]
    refine copyBytes_of_inside hi ?_
    unfold payload
    omega

/-- The part of the layout that `allocAlgorithm` searches, given the best fit. -/
def searched (bs : List Block) : Option Block → List Block
  | none => bs
  | some c => bs.dropWhile (fun d => d ≠ c)

theorem dropWhile_ne_of_mem {c : Block} (hmem : c ∈ bs) :
    ∃ pre rest, bs = pre ++ c :: rest ∧ bs.dropWhile (fun d => d ≠ c) = c :: rest := by
  induction bs with
  | nil => cases hmem
  | cons d ds ih =>
    by_cases heq : d = c
    · subst heq
      exact ⟨[], ds, rfl, by simp⟩
    · rcases mem_cons.mp hmem with rfl | hmem
      · exact absurd rfl heq
      · obtain ⟨pre, rest, hsplit, hdrop⟩ := ih hmem
        refine ⟨d :: pre, rest, by rw [hsplit]; rfl, ?_⟩
        rw [dropWhile_cons_of_pos (by simpa using heq), hdrop]

/-- The search after the scan covers a final part of the layout. -/
theorem Coherent.searchStart_scanned (hc : Coherent (left ++ [b] ++ right) h) (size : Nat) :
    ∃ pre, left ++ [b] ++ right =
        pre ++ searched (left ++ [b] ++ right) (bestFit size (scanned left right)) ∧
      searchStart h (pointerTo (bestFit size (scanned left right))) =
        firstFree (searched (left ++ [b] ++ right) (bestFit size (scanned left right))) := by
  cases hbest : bestFit size (scanned left right) with
  | none => exact ⟨[], rfl, by simp [searchStart, pointerTo, searched, hc.first, firstFree]⟩
  | some c =>
    obtain ⟨hother, hfree⟩ := bestFit_scanned hbest
    have hmem : c ∈ left ++ [b] ++ right := mem_around _ hother
    obtain ⟨pre, rest, hsplit, hdrop⟩ := dropWhile_ne_of_mem hmem
    have hstart := hc.start_pos
    have hbounds := hc.block_bounds hmem
    have hpos : c.addr ≠ 0 := by omega
    refine ⟨pre, by rw [searched, hdrop]; exact hsplit, ?_⟩
    simp only [searchStart, pointerTo, searched, hdrop, firstFree, freeAddrs_cons_free hfree,
      map_some, getD_some, hpos, if_false, headD_cons]

/-- The scan stops at the chunk behind the block, and it can be absorbed. The
first chunk of the list is never a candidate. -/
def ExtendsInPlace (left : List Block) (b : Block) (right : List Block) (size : Nat) : Prop :=
  freeAddrs left ≠ [] ∧ CanAbsorb b right size

/-- The search that starts at the best fit finds a chunk for the rounded size. -/
def FoundElsewhere (left : List Block) (b : Block) (right : List Block) (size : Nat) : Prop :=
  ∃ c ∈ searched (left ++ [b] ++ right) (bestFit size (scanned left right)), c.free = true ∧
    roundUp size ≤ c.size

theorem reallocGrow_empty (hc : Coherent (left ++ [b] ++ right) h) (hlive : b.free = false)
    (hempty : freeAddrs (left ++ right) = []) (pager : Pager) :
    reallocGrow h pager b.payload size 0 b.addr = .error .nullPointer := by
  have hfirst := hc.first
  rw [freeAddrs_around hlive, ← freeAddrs_append, hempty] at hfirst
  have hfuel : maxChunks = (2 ^ 32 - 1) + 1 := rfl
  unfold reallocGrow
  rw [hfirst, hfuel]
  rfl

theorem reallocGrow_extends (hinv : HeapInv (left ++ [b] ++ right) h) (hlive : b.free = false)
    (hgrow : b.size < size) (hext : ExtendsInPlace left b right size) (pager : Pager) :
    ∃ h', reallocGrow h pager b.payload size 0 b.addr = .ok (b.payload, h') ∧
      Replaced left b right h size b.payload h' := by
  obtain ⟨hne, c, hhead, hfree, hfits⟩ := hext
  obtain ⟨cs, rfl⟩ : ∃ cs, right = c :: cs := by
    cases right with
    | nil => cases hhead
    | cons d ds =>
      obtain rfl : d = c := by simpa using hhead
      exact ⟨ds, rfl⟩
  obtain ⟨hleft, _, hright⟩ := hinv.toCoherent.around
  obtain ⟨haddr, _, _⟩ := hright
  have hbounds := hinv.bounds (b := c) (by simp)
  have hlast : lastFree left ≠ 0 := mt (hleft.lastFree_eq_zero_iff hinv.start_pos).mp hne
  have hinv' : HeapInv (left ++ [b] ++ [c] ++ cs) h := by simpa using hinv
  obtain ⟨h', hcall, hreplaced⟩ := extendInPlace_spec hinv' hlive hfree hlast hgrow hfits pager
  have hstop : scanStop left (c :: cs) = c.addr := by
    cases hcons : freeAddrs left with
    | nil => exact absurd hcons hne
    | cons x xs => simp [scanStop, hcons, firstFree, freeAddrs_cons_free hfree]
  have hscan := hinv.toCoherent.reallocScan_eq hlive (by simp [hne]) size
  have hpointers : livePointers (left ++ c :: cs) = livePointers (left ++ cs) := by
    rw [livePointers, livePointers, liveBlocks_append, liveBlocks_append,
      liveBlocks_cons_free hfree]
  refine ⟨h', ?_, ?_⟩
  · unfold finish at haddr
    have hbehind : add32 b.payload b.size = c.addr := by
      rw [add32_eq (by unfold payload; omega), haddr, payload]
    have hsum : add32 (add32 b.size c.size) 12 = b.size + 12 + c.size := by
      rw [add32_eq (a := b.size) (by omega), add32_eq (by omega)]
      omega
    unfold reallocGrow
    simp only [hscan, hstop, bind, Except.bind, hinv.live_sizes b (by simp) hlive,
      hinv.sizes c (by simp) hfree, HEADER_SIZE, hbehind, hsum]
    rw [if_pos ⟨by omega, trivial, hfits⟩, hcall]
    rfl
  · unfold Replaced
    rw [hpointers]
    exact hreplaced

theorem reallocGrow_moves (hinv : HeapInv (left ++ [b] ++ right) h) (hlive : b.free = false)
    (hfree : freeAddrs (left ++ right) ≠ []) (hext : ¬ExtendsInPlace left b right size)
    (pager : Pager) :
    reallocGrow h pager b.payload size 0 b.addr = (do
      let (ret, h) ← allocAlgorithm h size 0 (pointerTo (bestFit size (scanned left right)))
      moveBlock h pager b.payload size b.addr ret) := by
  obtain ⟨hleft, _, hright⟩ := hinv.toCoherent.around
  have hbounds := hinv.bounds (b := b) (by simp)
  have hscan := hinv.toCoherent.reallocScan_eq hlive hfree size
  have hfinish : add32 b.payload b.size = b.finish := by
    rw [add32_eq (by unfold payload; omega)]
    rfl
  have hnot : ¬(scanStop left right ≠ 0 ∧ b.finish = scanStop left right ∧
      size ≤ add32 (add32 b.size (getSize h.mem (scanStop left right))) 12) := by
    rintro ⟨hpos, hstop, hfits⟩
    cases hcons : freeAddrs left with
    | nil =>
      -- the scan has passed the only chunk that could be adjacent
      simp only [scanStop, hcons] at hpos hstop
      have hsorted := hright.freeAddrs_sorted
      cases hr : freeAddrs right with
      | nil => exact hfree (by rw [freeAddrs_append, hcons, hr]; rfl)
      | cons x xs =>
        have hlow := (hright.freeAddr_bounds (x := x) (by simp [hr])).1
        rw [hr] at hpos hstop hsorted
        rcases headD_mem_or_eq 0 xs with hmem | hnil
        · have := (pairwise_cons.mp hsorted).1 _ hmem
          simp only [tail_cons] at hstop
          omega
        · exact hpos (by simp [hnil])
    | cons y ys =>
      simp only [scanStop, hcons] at hpos hstop hfits
      cases right with
      | nil => exact hpos rfl
      | cons c cs =>
        cases hcfree : c.free with
        | false =>
          have hgap := Partition.firstFree_gap hright (by simpa using hcfree)
          omega
        | true =>
          have hhead : firstFree (c :: cs) = c.addr := by
            simp [firstFree, freeAddrs_cons_free hcfree]
          have hcbounds := hinv.block_bounds (b := c) (by simp)
          rw [hhead] at hfits
          unfold finish at hstop
          rw [hinv.sizes c (by simp) hcfree, add32_eq (a := b.size) (by omega),
            add32_eq (by omega)] at hfits
          exact hext ⟨by simp [hcons], c, rfl, hcfree, by omega⟩
  unfold reallocGrow
  simp only [hscan, bind, Except.bind, hinv.live_sizes b (by simp) hlive, HEADER_SIZE, hfinish]
  rw [if_neg hnot]

/-- There is a free chunk for the scan to read, the rounding of the size does
not wrap around, and a chunk that can hold the request is either absorbed or
found by the search, unless there is none. -/
def GrowCondition (left : List Block) (b : Block) (right : List Block) (size : Nat) : Prop :=
  freeAddrs (left ++ right) ≠ [] ∧ size + 3 < 2 ^ 32 ∧
    (ExtendsInPlace left b right size ∨ FoundElsewhere left b right size ∨
      ¬CanHold left b right size)

theorem reallocGrow_cases (hinv : HeapInv (left ++ [b] ++ right) h) (hlive : b.free = false)
    (hgrow : b.size < size) (hfree : freeAddrs (left ++ right) ≠ [])
    (hext : ¬ExtendsInPlace left b right size) (hsize : size + 3 < 2 ^ 32) (pager : Pager) :
    (reallocGrow h pager b.payload size 0 b.addr = .ok (0, h) ∧
      ¬FoundElsewhere left b right size) ∨
    (FoundElsewhere left b right size ∧
      ∃ ret h', reallocGrow h pager b.payload size 0 b.addr = .ok (ret, h') ∧ ret ≠ 0 ∧
        Replaced left b right h size ret h') := by
  have hzero : size ≠ 0 := by omega
  have hround : alignUp size 4 = roundUp size := by
    rw [alignUp_four (by omega), if_pos hsize]
    rfl
  obtain ⟨pre, hsplit, hstart⟩ := hinv.toCoherent.searchStart_scanned size
  have htiling := hinv.toTilingInv
  have hall := hinv
  rw [hsplit] at htiling hall
  rw [reallocGrow_moves hinv hlive hfree hext pager]
  rcases allocAlgorithm_cases htiling hzero hstart with ⟨hcall, hnone⟩ |
    ⟨l, d, r, h₁, heq, hdfree, hdfits, _, hcall, _, hregion, hkeep, hnew⟩
  · refine .inl ⟨by rw [hcall]; rfl, ?_⟩
    rintro ⟨c, hmem, hcfree, hle⟩
    have := hnone c hmem hcfree
    omega
  · have hinv₁ := hnew hall
    have hlayout : left ++ [b] ++ right = pre ++ l ++ [d] ++ r := by
      rw [hsplit, heq]
      simp
    have hroom : size ≤ (taken d (alignUp size 4)).size := by
      refine Nat.le_trans ?_ (le_taken_size hdfits)
      rw [hround, roundUp]
      omega
    have hother : d.addr ≠ b.addr := by
      intro haddr
      have hd : d ∈ left ++ [b] ++ right := by rw [hlayout]; simp
      have hsame : d = b := Tiles.eq_of_lo_eq hinv.partition hd (by simp) haddr
      rw [hsame, hlive] at hdfree
      cases hdfree
    have hb₁ : b ∈ liveBlocks (pre ++ l ++ cut d (alignUp size 4) ++ r) := by
      have hb : b ∈ liveBlocks (left ++ [b] ++ right) := mem_liveBlocks.mpr ⟨by simp, hlive⟩
      rw [hlayout] at hb
      simp only [liveBlocks_append, liveBlocks_cons_free hdfree, liveBlocks_nil, append_nil,
        mem_append] at hb ⊢
      tauto
    have ht₁ : taken d (alignUp size 4) ∈ liveBlocks (pre ++ l ++ cut d (alignUp size 4) ++ r) := by
      simp [liveBlocks_cut]
    have hdistinct : taken d (alignUp size 4) ≠ b := by
      intro hsame
      exact hother (by rw [← hsame]; rfl)
    obtain ⟨h', bs', hmove, hinv', hregion', ht', hperm, hbytes⟩ :=
      moveBlock_spec hinv₁ hb₁ ht₁ hdistinct hgrow (by omega) pager
    have hpayload : d.payload ≠ b.payload := by
      unfold payload
      omega
    have hfound : FoundElsewhere left b right size := ⟨d, by rw [heq]; simp, hdfree, by omega⟩
    refine .inr ⟨hfound, d.payload, h', by rw [hcall]; exact hmove, Nat.succ_ne_zero _, bs', _,
      hinv', hregion.trans hregion', ht', rfl, hroom, ?_, ?_⟩
    · refine hperm.trans (((livePointers_cut hdfree).erase b.payload).trans ?_)
      rw [erase_cons_tail (by simpa using hpayload), ← hlayout]
      exact (livePointers_erase hlive).cons _
    · intro i hi
      refine (hbytes i hi).trans ?_
      rw [← hsplit] at hkeep
      refine hkeep b (by simp) hlive _ (by unfold payload; omega) ?_
      unfold payload finish
      omega

theorem moveBlock_fst {ret' ptr oldHeader : Nat} {pager : Pager}
    (hmove : moveBlock h pager ptr size oldHeader ret = .ok (ret', h')) : ret' = ret := by
  unfold moveBlock at hmove
  split at hmove
  · cases hmove
    exact Eq.symm ‹ret = 0›
  · obtain ⟨_, _, hret⟩ := bind_eq_ok hmove
    cases hret
    rfl

theorem reallocGrow_wrapped (hinv : HeapInv (left ++ [b] ++ right) h) (hlive : b.free = false)
    (hfree : freeAddrs (left ++ right) ≠ []) (hsize : size < 2 ^ 32) (hwrap : 2 ^ 32 ≤ size + 3)
    (pager : Pager)
    (hcall : reallocGrow h pager b.payload size 0 b.addr = .ok (ret, h')) : ret ≠ 0 := by
  have hstart := hinv.start_pos
  have hend := hinv.end_lt
  have hzero : size ≠ 0 := by omega
  have hround : alignUp size 4 = 0 := by
    rw [alignUp_four hsize, if_neg (by omega)]
  have hext : ¬ExtendsInPlace left b right size := by
    rintro ⟨_, c, hhead, _, hfits⟩
    obtain ⟨_, _, hright⟩ := hinv.toCoherent.around
    have hbounds := hright.block_bounds (mem_of_mem_head? hhead)
    unfold finish at hbounds
    omega
  obtain ⟨pre, hsplit, hsearch⟩ := hinv.toCoherent.searchStart_scanned size
  have htiling := hinv.toTilingInv
  rw [hsplit] at htiling
  rw [reallocGrow_moves hinv hlive hfree hext pager] at hcall
  rcases allocAlgorithm_cases htiling hzero hsearch with
    ⟨_, hnone⟩ | ⟨_, d, _, h₁, _, _, _, _, halloc, _⟩
  · have hfree' : freeAddrs (left ++ [b] ++ right) ≠ [] := by
      rwa [freeAddrs_around hlive, ← freeAddrs_append]
    have hfirst : h.firstChunk ≠ 0 := by
      have hmem := (headD_mem_or_eq 0 (freeAddrs (left ++ [b] ++ right))).resolve_right hfree'
      have := hinv.partition.freeAddr_bounds hmem
      rw [hinv.first]
      omega
    have hsome :
        firstFree (searched (left ++ [b] ++ right) (bestFit size (scanned left right))) ≠ 0 := by
      rw [← hsearch, searchStart]
      split
      · exact hfirst
      · assumption
    rcases headD_mem_or_eq 0 (freeAddrs (searched (left ++ [b] ++ right)
        (bestFit size (scanned left right)))) with hmem | hnil
    · obtain ⟨c, hc, hcfree, _⟩ := mem_freeAddrs.mp hmem
      have := hnone c hc hcfree
      omega
    · exact absurd (by rw [firstFree, hnil]; rfl) hsome
  · rw [halloc] at hcall
    change moveBlock h₁ pager b.payload size b.addr d.payload = .ok (ret, h') at hcall
    rw [moveBlock_fst hcall]
    exact Nat.succ_ne_zero _

/-- Growing a block works exactly under the condition. -/
theorem grows_iff (hinv : HeapInv (left ++ [b] ++ right) h) (hlive : b.free = false)
    (hgrow : b.size < size) (hsize : size < 2 ^ 32) :
    Grows left b right h size ↔ GrowCondition left b right size := by
  have hend := hinv.end_lt
  have hrealloc :
      ∀ pager, realloc h pager b.payload size 0 = reallocGrow h pager b.payload size 0 b.addr := by
    intro pager
    rw [realloc_of_live hinv.toTilingInv hlive (by omega), if_neg (by omega), if_neg (by omega)]
  constructor
  · intro hgrows
    obtain ⟨ret, h', hcall, hresult⟩ := hgrows ⟨false, fun _ => 0, fun _ => 0⟩
    rw [hrealloc] at hcall
    have hfree : freeAddrs (left ++ right) ≠ [] := by
      intro hempty
      rw [reallocGrow_empty hinv.toCoherent hlive hempty] at hcall
      cases hcall
    have hexact : size + 3 < 2 ^ 32 := by
      by_contra hwrap
      have hne := reallocGrow_wrapped hinv hlive hfree hsize (by omega) _ hcall
      rcases hresult with ⟨hnull, _⟩ | ⟨_, bs, t, hinv', hregion, ht, _, hle, _⟩
      · exact hne hnull
      · have hbounds := hinv'.block_bounds (mem_liveBlocks.mp ht).1
        rw [hregion.end_eq] at hbounds
        omega
    refine ⟨hfree, hexact, ?_⟩
    by_cases hext : ExtendsInPlace left b right size
    · exact .inl hext
    · rcases reallocGrow_cases hinv hlive hgrow hfree hext hexact ⟨false, fun _ => 0, fun _ => 0⟩
        with ⟨hnull, _⟩ | ⟨hfound, _⟩
      · rw [hnull] at hcall
        cases hcall
        rcases hresult with ⟨_, _, hnone⟩ | ⟨hne, _⟩
        · exact .inr (.inr hnone)
        · exact absurd rfl hne
      · exact .inr (.inl hfound)
  · rintro ⟨hfree, hexact, hcases⟩ pager
    rw [hrealloc]
    by_cases hext : ExtendsInPlace left b right size
    · obtain ⟨h', hcall, hreplaced⟩ := reallocGrow_extends hinv hlive hgrow hext pager
      exact ⟨b.payload, h', hcall, .inr ⟨Nat.succ_ne_zero _, hreplaced⟩⟩
    · rcases reallocGrow_cases hinv hlive hgrow hfree hext hexact pager with
        ⟨hcall, hnot⟩ | ⟨_, ret, h', hcall, hne, hreplaced⟩
      · exact ⟨0, h, hcall, .inl ⟨rfl, rfl, (hcases.resolve_left hext).resolve_left hnot⟩⟩
      · exact ⟨ret, h', hcall, .inr ⟨hne, hreplaced⟩⟩

theorem grows_iff_page :
    ∃ h, alloc (initialHeap (fun _ => 0) 0x1000 0x2000 false) 200 0 = .ok (0x100C, h) ∧
      Grows [] ⟨0x1000, 200, false⟩ [⟨0x10D4, 3872, true⟩] h 300 := by
  obtain ⟨h, hcall, hinv⟩ := alloc_page_two_hundred
  refine ⟨h, hcall, (grows_iff hinv rfl (by decide) (by decide)).mpr ⟨by decide, by decide, ?_⟩⟩
  exact .inr (.inl ⟨⟨0x10D4, 3872, true⟩, by decide, rfl, by decide⟩)

/-- On a page that is one live block, growing it reads through the null pointer.
On a page with a live block of 3000 bytes, growing it to 3500 bytes returns null
although the chunk behind it could be absorbed. -/
theorem grows_fails_on_pages :
    (∃ h, alloc (initialHeap (fun _ => 0) 0x1000 0x2000 false) 4084 0 = .ok (0x100C, h) ∧
      (∀ pager, realloc h pager 0x100C 5000 0 = .error .nullPointer) ∧
      ¬Grows [] ⟨0x1000, 4084, false⟩ [] h 5000) ∧
    (∃ h, alloc (initialHeap (fun _ => 0) 0x1000 0x2000 false) 3000 0 = .ok (0x100C, h) ∧
      (∀ pager, realloc h pager 0x100C 3500 0 = .ok (0, h)) ∧
      ¬Grows [] ⟨0x1000, 3000, false⟩ [⟨0x1BC4, 1072, true⟩] h 3500) := by
  constructor
  · obtain ⟨h, hcall, hinv⟩ := alloc_initial (fun _ => 0) 0x1000 0x2000 false 4084
      (by decide) (by decide) (by decide) (by decide) (by decide)
    have hlayout : cut (initialChunk 0x1000 0x2000) (alignUp 4084 4) =
        [] ++ [⟨0x1000, 4084, false⟩] ++ [] := by decide
    rw [hlayout] at hinv
    have hfault : ∀ pager, realloc h pager 0x100C 5000 0 = .error .nullPointer := by
      intro pager
      refine (realloc_of_live hinv.toTilingInv rfl (by decide) pager).trans ?_
      exact reallocGrow_empty hinv.toCoherent rfl rfl pager
    refine ⟨h, hcall, hfault, fun hgrows => ?_⟩
    obtain ⟨ret, h', hok, _⟩ := hgrows ⟨false, fun _ => 0, fun _ => 0⟩
    rw [show payload ⟨0x1000, 4084, false⟩ = 0x100C from rfl, hfault] at hok
    cases hok
  · obtain ⟨h, hcall, hinv⟩ := alloc_initial (fun _ => 0) 0x1000 0x2000 false 3000
      (by decide) (by decide) (by decide) (by decide) (by decide)
    have hlayout : cut (initialChunk 0x1000 0x2000) (alignUp 3000 4) =
        [] ++ [⟨0x1000, 3000, false⟩] ++ [⟨0x1BC4, 1072, true⟩] := by decide
    rw [hlayout] at hinv
    have hext : ¬ExtendsInPlace [] ⟨0x1000, 3000, false⟩ [⟨0x1BC4, 1072, true⟩] 3500 := fun hext =>
      hext.1 rfl
    have hnull : ∀ pager, realloc h pager 0x100C 3500 0 = .ok (0, h) := by
      intro pager
      refine (realloc_of_live hinv.toTilingInv rfl (by decide) pager).trans ?_
      rcases reallocGrow_cases hinv rfl (by decide) (by decide) hext (by decide) pager with
        ⟨hnull, _⟩ | ⟨⟨c, hmem, hcfree, hfits⟩, _⟩
      · exact hnull
      · have hsmall : ∀ c ∈ searched ([] ++ [⟨0x1000, 3000, false⟩] ++ [⟨0x1BC4, 1072, true⟩])
            (bestFit 3500 (scanned [] [⟨0x1BC4, 1072, true⟩])), c.free = true →
            ¬roundUp 3500 ≤ c.size := by decide
        exact absurd hfits (hsmall c hmem hcfree)
    refine ⟨h, hcall, hnull, fun hgrows => ?_⟩
    obtain ⟨ret, h', hok, hresult⟩ := hgrows ⟨false, fun _ => 0, fun _ => 0⟩
    rw [show payload ⟨0x1000, 3000, false⟩ = 0x100C from rfl, hnull] at hok
    cases hok
    rcases hresult with ⟨_, _, hnone⟩ | ⟨hne, _⟩
    · exact hnone (.inl ⟨⟨0x1BC4, 1072, true⟩, rfl, rfl, by decide⟩)
    · exact hne rfl

end Growing

end HuyaOS.FreeListMemoryManager
