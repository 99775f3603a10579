import HuyaOS.FreeList.Take

/-!
What `free` does to the layout. The released block enters the list at its
place in the address order, the chunk is joined with its free neighbours, and
the whole pages inside the payload of the result are unmapped.
-/

namespace HuyaOS.FreeListMemoryManager

open Lib Management List Block

theorem findPosition_spec {m : Mem} {header before : Nat} (fuel : Nat) {below above : List Nat}
    (hlinks : Links (getNext m) (getPrev m) before (below ++ above) 0) (hne : below ≠ [])
    (hbelow : ∀ x ∈ below, 0 < x ∧ x < header) (habove : ∀ x ∈ above, header < x)
    (hfuel : below.length ≤ fuel) :
    findPosition m header fuel ((below ++ above).headD 0) = .ok (below.getLastD 0) := by
  induction below generalizing before fuel with
  | nil => exact absurd rfl hne
  | cons x xs ih =>
    obtain ⟨hpos, hlt⟩ := hbelow x (by simp)
    rw [cons_append] at hlinks
    obtain ⟨_, hnext, hrest⟩ := hlinks
    cases fuel with
    | zero => simp at hfuel
    | succ fuel =>
      simp only [cons_append, headD_cons, length_cons] at hfuel ⊢
      unfold findPosition
      rw [if_neg (by omega)]
      cases xs with
      | nil =>
        have hstop : header < above.headD 0 ∨ above.headD 0 = 0 := by
          cases above with
          | nil => exact .inr rfl
          | cons y ys => exact .inl (habove y (by simp))
        rw [hnext, if_pos ⟨hlt, hstop⟩]
        rfl
      | cons y ys =>
        have hy := hbelow y (by simp)
        rw [cons_append, headD_cons] at hnext
        rw [hnext, if_neg (by omega)]
        simpa using ih fuel hrest (by simp) (fun z hz => hbelow z (by simp [hz])) (by omega)

section Insert

variable {left right : List Block} {b : Block} {h : Heap} {header before after : Nat}

/-- Writing a header between its two neighbours in the list. -/
def linkIn (h : Heap) (header before after : Nat) : Heap :=
  linkNext (linkPrev { h with mem := setPrev (setNext h.mem header after) header before } after
    header) before header

theorem linkIn_mem_of_outside {x : Nat} (hx : x < header ∨ header + 8 ≤ x)
    (hbefore : before = 0 ∨ x < before + 4 ∨ before + 8 ≤ x)
    (hafter : after = 0 ∨ x < after ∨ after + 4 ≤ x) :
    (linkIn h header before after).mem x = h.mem x := by
  unfold linkIn setPrev setNext
  rw [linkNext_mem_of_outside hbefore, linkPrev_mem_of_outside hafter]
  simp only
  rw [store32_of_outside (by omega), store32_of_outside (by omega)]

theorem linkIn_links (hbefore : before < 2 ^ 32) (hafter : after < 2 ^ 32)
    (hsep : before = 0 ∨ before + 12 ≤ header ∨ header + 12 ≤ before)
    (hsep' : after = 0 ∨ after + 12 ≤ header ∨ header + 12 ≤ after) :
    getPrev (linkIn h header before after).mem header = before ∧
      getNext (linkIn h header before after).mem header = after := by
  unfold linkIn getPrev getNext setPrev setNext
  simp (disch := omega) only [load32_store32_of_disjoint, load32_store32_self, load32_linkPrev,
    load32_linkNext, Nat.mod_eq_of_lt, and_self]

/-- Linking a header in behind `tmp` connects it with the successor of `tmp`,
as long as the two headers do not overlap. -/
theorem insertAfter_eq_linkIn {tmp next : Nat} (hnext : getNext h.mem tmp = next) (htmp : tmp ≠ 0)
    (htmp_lt : tmp < 2 ^ 32) (hsep : next = 0 ∨ next + 12 ≤ header ∨ header + 12 ≤ next) :
    insertAfter h tmp header = linkIn h header tmp next := by
  have hnext_lt : next < 2 ^ 32 := by
    rw [← hnext]
    exact getNext_lt
  simp only [insertAfter, hnext]
  unfold linkIn getNext getPrev setNext setPrev
  simp (disch := omega) only [load32_store32_of_disjoint, load32_store32_self, load32_linkPrev,
    Nat.mod_eq_of_lt]
  simp [linkNext, htmp, setNext]

theorem insertChunk_between {bs : List Block} {below above : List Nat}
    (hc : Coherent bs h) (hfree : freeAddrs bs = below ++ above) (hne : below ≠ [])
    (hbelow : ∀ x ∈ below, x + 12 ≤ header) (habove : ∀ x ∈ above, header + 12 ≤ x) :
    insertChunk h header = .ok (linkIn h header (below.getLastD 0) (above.headD 0)) := by
  have hbounds : ∀ x ∈ below, 0 < x ∧ x < header ∧ x < 2 ^ 32 := by
    intro x hx
    have hstart := hc.start_pos
    have hend := hc.end_lt
    have hin := hc.partition.freeAddr_bounds (x := x) (by rw [hfree]; simp [hx])
    have := hbelow x hx
    omega
  have hlen := hc.partition.freeAddrs_length hc.end_lt
  have hlinks := hc.links
  have hfirst := hc.first
  rw [hfree] at hlinks hlen hfirst
  rw [length_append] at hlen
  have hposition :=
    findPosition_spec (2 ^ 32) hlinks hne (fun x hx => ⟨(hbounds x hx).1, (hbounds x hx).2.1⟩)
    (fun x hx => by have := habove x hx; omega) (by omega)
  rw [← hfirst] at hposition
  have hhead : h.firstChunk ∈ below := by
    rw [hfirst, headD_append]
    exact (headD_mem_or_eq _ below).resolve_right hne
  have hlast : below.getLastD 0 ∈ below := (getLastD_mem_or_eq 0 below).resolve_right hne
  have hhead_bounds := hbounds _ hhead
  have hlast_bounds := hbounds _ hlast
  have hnext : getNext h.mem (below.getLastD 0) = above.headD 0 :=
    (links_append.mp hlinks).1.next_getLastD hne 0
  have hsep : above.headD 0 = 0 ∨ above.headD 0 + 12 ≤ header ∨ header + 12 ≤ above.headD 0 := by
    rcases headD_mem_or_eq 0 above with hmem | hnil
    · exact .inr (.inr (habove _ hmem))
    · exact .inl (by rw [hnil]; rfl)
  unfold insertChunk
  rw [if_neg (by omega), if_neg (by omega)]
  simp only [maxChunks, hposition]
  change (if below.getLastD 0 = 0 then _ else _) = _
  rw [if_neg (by omega)]
  exact congrArg Except.ok (insertAfter_eq_linkIn hnext (by omega) hlast_bounds.2.2 hsep)

section

variable (hc : Coherent (left ++ [b] ++ right) h) (hlive : b.free = false)

include hc hlive

theorem Coherent.first_cases : h.firstChunk = (freeAddrs left).headD (firstFree right) := by
  rw [hc.first]
  simp [freeAddrs_cons_live hlive, firstFree]

/-- The released block is linked in between the free headers around it, unless
the list is empty, in which case its links are left as they are. -/
theorem insertChunk_eq (hleft : Partition h.memoryStartAddress left b.addr)
    (hright : Partition b.finish right h.memoryEndAddress) : insertChunk h b.addr = .ok
      (if lastFree left = 0 ∧ firstFree right = 0 then { h with firstChunk := b.addr }
      else linkIn h b.addr (lastFree left) (firstFree right)) := by
  have hfirst := hc.first_cases hlive
  have hstart := hc.start_pos
  have hff := hright.firstFree_cases
  unfold finish at *
  by_cases hnil : freeAddrs left = []
  · unfold insertChunk
    have hlast : lastFree left = 0 := by simp [lastFree, hnil]
    rw [hnil, headD_nil] at hfirst
    by_cases hnone : firstFree right = 0
    · simp only [hfirst, hnone, hlast, and_self, if_true]
      rfl
    · have hbelow : b.addr < firstFree right := by omega
      simp only [hfirst, hnone, hlast, hbelow, and_false, if_true, if_false]
      simp [linkIn, linkPrev, linkNext, hnone]
      rfl
  · have hlast : lastFree left ≠ 0 := mt (hleft.lastFree_eq_zero_iff hstart).mp hnil
    have hsplit : freeAddrs (left ++ [b] ++ right) = freeAddrs left ++ freeAddrs right := by
      rw [freeAddrs_append, freeAddrs_append, freeAddrs_cons_live hlive, freeAddrs_nil, append_nil]
    rw [if_neg (by omega)]
    refine insertChunk_between hc hsplit hnil ?_ ?_
    · intro x hx
      have := hleft.freeAddr_bounds hx
      omega
    · intro x hx
      have := hright.freeAddr_bounds hx
      omega

theorem insertChunk_spec (hsize : getSize h.mem b.addr = b.size)
    (hnull : freeAddrs (left ++ right) = [] → getNext h.mem b.addr = 0 ∧ getPrev h.mem b.addr = 0) :
    ∃ h', insertChunk h b.addr = .ok h' ∧
      Coherent (left ++ [{ b with free := true }] ++ right) h' ∧ SameRegion h h' ∧
      KeepsLive (left ++ right) h.mem h'.mem ∧ h'.freeMemory = h.freeMemory := by
  obtain ⟨hleft, hlt, hright⟩ := hc.around
  refine ⟨_, insertChunk_eq hc hlive hleft hright, ?_⟩
  have hstart := hc.start_pos
  have hbounds := hc.bounds (b := b) (by simp)
  have hll := hleft.lastFree_cases
  have hff := hright.firstFree_cases
  have hmid' : Partition b.addr [{ b with free := true }] b.finish := ⟨rfl, hlt, rfl⟩
  have hfree : freeAddrs [{ b with free := true }] = [b.addr] := rfl
  split
  · rename_i hempty
    have hnone : freeAddrs left = [] ∧ freeAddrs right = [] :=
      ⟨(hleft.lastFree_eq_zero_iff hstart).mp hempty.1,
        (hright.firstFree_eq_zero_iff (by omega)).mp hempty.2⟩
    obtain ⟨hnext, hprev⟩ := hnull (by rw [freeAddrs_append, hnone.1, hnone.2]; rfl)
    have hpatched : Patched left right b.addr b.finish h { h with firstChunk := b.addr } :=
      ⟨rfl, rfl, fun _ _ _ _ => rfl⟩
    refine ⟨hc.edit hpatched hleft hmid' hright ?_ ?_ ?_ ?_ ?_, ⟨rfl, rfl, rfl⟩,
      hpatched.keepsLive hleft (by omega) hright, rfl⟩
    · simpa using hsize
    · rw [hempty.1, hempty.2]
      exact ⟨hprev, hnext, trivial⟩
    · exact fun hne => absurd hempty.1 hne
    · exact fun hne => absurd hempty.2 hne
    · rw [if_pos hempty.1]
      rfl
  · unfold finish at *
    have hpatched : Patched left right b.addr (b.addr + 12 + b.size) h
        (linkIn h b.addr (lastFree left) (firstFree right)) := by
      refine ⟨by simp [linkIn], by simp [linkIn], ?_⟩
      intro x hout hlast hhead
      exact linkIn_mem_of_outside (by omega) hlast hhead
    refine ⟨hc.edit hpatched hleft hmid' hright ?_ ?_ ?_ ?_ ?_,
      ⟨by simp [linkIn], by simp [linkIn], by simp [linkIn]⟩,
      hpatched.keepsLive hleft (by omega) hright, by simp [linkIn]⟩
    · simp only [mem_singleton, forall_eq, forall_const]
      refine Eq.trans ?_ hsize
      exact getSize_congr fun x _ _ =>
        linkIn_mem_of_outside (by omega) (by omega) (by omega)
    · have hlinked : getPrev (linkIn h b.addr (lastFree left) (firstFree right)).mem b.addr =
          lastFree left ∧
          getNext (linkIn h b.addr (lastFree left) (firstFree right)).mem b.addr =
            firstFree right :=
        linkIn_links (by omega) (by omega) (by omega) (by omega)
      exact ⟨hlinked.1, hlinked.2, trivial⟩
    · intro hne
      exact load32_linkNext_self hne (by omega)
    · intro hne
      rw [hfree, getLastD_cons, getLastD_nil, getPrev, linkIn,
        load32_linkNext (by omega), load32_linkPrev_self hne (by omega)]
    · rw [hfree]
      simp [linkIn]

end

end Insert

/-- The free blocks have been rearranged: the live blocks are the same, with
all their bytes, and the counter still agrees with the free blocks. -/
structure Rearranged (bs bs' : List Block) (h h' : Heap) : Prop where
  coherent : Coherent bs' h'
  region : SameRegion h h'
  live : liveBlocks bs' = liveBlocks bs
  keeps : KeepsLive bs h.mem h'.mem
  accounting : h.freeMemory = freeTotal bs → h'.freeMemory = freeTotal bs'

namespace Rearranged

variable {bs bs' bs'' : List Block} {h h' h'' : Heap}

theorem refl (hc : Coherent bs h) : Rearranged bs bs h h :=
  ⟨hc, ⟨rfl, rfl, rfl⟩, rfl, fun _ _ _ _ _ _ => rfl, id⟩

theorem trans (hfirst : Rearranged bs bs' h h') (hsecond : Rearranged bs' bs'' h' h'') :
    Rearranged bs bs'' h h'' where
  coherent := hsecond.coherent
  region := hfirst.region.trans hsecond.region
  live := hsecond.live.trans hfirst.live
  keeps := by
    refine hfirst.keeps.trans (hsecond.keeps.mono ?_)
    intro b hb hlive
    have hmem : b ∈ liveBlocks bs := mem_liveBlocks.mpr ⟨hb, hlive⟩
    rw [← hfirst.live] at hmem
    exact (mem_liveBlocks.mp hmem).1
  accounting := fun hacc => hsecond.accounting (hfirst.accounting hacc)

end Rearranged

section Join

variable {left right : List Block} {b c : Block} {h : Heap}

/-- What absorbing the chunk behind `b` writes: the size of `b`, the link back to
it and its own link. -/
def absorbed (h : Heap) (b c : Block) (next : Nat) : Heap :=
  let linked :=
    linkPrev { h with mem := store32 h.mem (b.addr + 8) (b.size + 12 + c.size) } next b.addr
  { linked with
    mem := store32 linked.mem (b.addr + 4) next
    freeMemory := add32 h.freeMemory 12 }

section

variable (hc : Coherent (left ++ [b, c] ++ right) h) (hb : b.free = true)

include hc hb

theorem mergeNext_eq (hcfree : c.free = true) :
    mergeNext h b.addr = absorbed h b c (firstFree right) := by
  obtain ⟨lo, hi, _, hmid, hright⟩ := hc.mid_bounds
  obtain ⟨rfl, hlt, hadjacent, hlt', rfl⟩ := hmid
  have hcb : Coherent (left ++ [b] ++ (c :: right)) h := by simpa using hc
  have hcc : Coherent ((left ++ [b]) ++ [c] ++ right) h := by simpa using hc
  obtain ⟨_, hnext⟩ := hcb.chunk_links hb
  obtain ⟨_, hnext'⟩ := hcc.chunk_links hcfree
  have hhead : firstFree (c :: right) = c.addr := by simp [firstFree, freeAddrs_cons_free hcfree]
  rw [hhead] at hnext
  have hsize := hc.sizes b (by simp) hb
  have hsize' := hc.sizes c (by simp) hcfree
  have hbounds := hc.bounds (b := c) (by simp)
  have hff := hright.firstFree_cases
  unfold finish at *
  unfold getNext at hnext hnext'
  unfold getSize at hsize hsize'
  have hreach : add32 (add32 b.addr 12) b.size = c.addr := by
    rw [add32_add32 (by omega), hadjacent]
  have hsum : add32 b.size (add32 c.size 12) = b.size + 12 + c.size := by
    rw [add32_eq (a := c.size) (by omega), add32_eq (by omega)]
    omega
  have hne : c.addr ≠ 0 := by omega
  unfold mergeNext getNext getSize setNext setSize
  simp only [HEADER_SIZE, hnext, hsize, hsize', hreach, hsum, hne, ne_eq, not_false_eq_true,
    and_self, if_true]
  simp (disch := omega) only [load32_store32_of_disjoint, load32_linkPrev, hnext, hnext',
    linkPrev_freeMemory]
  rfl

theorem absorbed_coherent (hleft : Partition h.memoryStartAddress left b.addr)
    (hmid : Partition b.addr [b, c] c.finish)
    (hright : Partition c.finish right h.memoryEndAddress) :
    Coherent (left ++ [join b c] ++ right) (absorbed h b c (firstFree right)) ∧
      Patched left right b.addr c.finish h (absorbed h b c (firstFree right)) := by
  have hjoin : Partition b.addr [join b c] c.finish := partition_join hmid
  obtain ⟨_, hlt, hadjacent, hlt', _⟩ := hmid
  have hcb : Coherent (left ++ [b] ++ (c :: right)) h := by simpa using hc
  obtain ⟨hprev, _⟩ := hcb.chunk_links hb
  have hbounds := hc.bounds (b := c) (by simp)
  have hll := hleft.lastFree_cases
  have hff := hright.firstFree_cases
  have hfree : freeAddrs [join b c] = [b.addr] := rfl
  unfold finish at *
  unfold getPrev at hprev
  have hpatched :
      Patched left right b.addr (c.addr + 12 + c.size) h (absorbed h b c (firstFree right)) := by
    refine ⟨by simp [absorbed], by simp [absorbed], ?_⟩
    intro x hout hlast hfirst
    simp only [absorbed]
    rw [store32_of_outside (by omega), linkPrev_mem_of_outside (by omega)]
    exact store32_of_outside (by omega)
  refine ⟨hc.edit hpatched hleft hjoin hright ?_ ?_ ?_ ?_ ?_, hpatched⟩
  · simp only [mem_singleton, forall_eq, forall_const, getSize, join, absorbed]
    simp (disch := omega) only [load32_store32_of_disjoint, load32_linkPrev, load32_store32_self,
      Nat.mod_eq_of_lt]
  · rw [hfree]
    simp only [links_cons, headD_nil, links_nil, and_true, getNext, getPrev, absorbed]
    simp (disch := omega) only [load32_store32_of_disjoint, load32_store32_self,
      load32_linkPrev, Nat.mod_eq_of_lt, hprev, and_self]
  · intro hne
    have hold := hc.last_next hne
    rw [freeAddrs_cons_free hb] at hold
    refine Eq.trans ?_ hold
    simp (disch := omega) only [getNext, absorbed, load32_store32_of_disjoint, load32_linkPrev]
  · intro hne
    rw [hfree, getLastD_cons, getLastD_nil, getPrev]
    simp (disch := omega) only [absorbed, load32_store32_of_disjoint, load32_linkPrev_self]
  · rw [hfree]
    split
    · rename_i hnull
      have hold := hc.first_eq hnull
      rw [freeAddrs_cons_free hb, headD_cons] at hold
      rw [← hold]
      simp [absorbed]
    · simp [absorbed]

theorem mergeNext_joins (hcfree : c.free = true) :
    Rearranged (left ++ [b, c] ++ right) (left ++ [join b c] ++ right) h (mergeNext h b.addr) := by
  rw [mergeNext_eq hc hb hcfree]
  obtain ⟨lo, hi, hleft, hmid, hright⟩ := hc.mid_bounds
  have hbounds := hmid
  obtain ⟨rfl, _, _, _, rfl⟩ := hbounds
  obtain ⟨hedit, hpatched⟩ := absorbed_coherent hc hb hleft hmid hright
  have hend := hc.end_lt
  refine ⟨hedit, ⟨hpatched.start_eq, hpatched.end_eq, by simp [absorbed]⟩, ?_,
    (hpatched.keepsLive hleft (Tiles.le hmid) hright).mono ?_, ?_⟩
  · simp [liveBlocks_cons_free, hb, hcfree, join]
  · intro x hx hlive
    simp only [mem_append, mem_cons, not_mem_nil, or_false] at hx ⊢
    rcases hx with (hx | rfl | rfl) | hx
    · exact .inl hx
    · rw [hb] at hlive
      cases hlive
    · rw [hcfree] at hlive
      cases hlive
    · exact .inr hx
  · intro hacc
    have htotal := hedit.partition.freeTotal_le
    rw [hpatched.end_eq] at htotal
    simp only [absorbed, hacc, freeTotal_mid, freeTotal_cons_free, hb, hcfree, freeTotal_nil,
      join] at htotal ⊢
    rw [add32_eq (by omega)]
    omega

end

theorem Partition.firstFree_gap {a e : Nat} (h : Partition a right e)
    (hlive : startsFree right = false) : firstFree right = 0 ∨ a + 12 ≤ firstFree right := by
  cases right with
  | nil => exact .inl rfl
  | cons c cs =>
    obtain ⟨rfl, _, hrest⟩ := h
    have hskip : firstFree (c :: cs) = firstFree cs := by
      rw [firstFree, freeAddrs_cons_live hlive, firstFree]
    rw [hskip]
    rcases Partition.firstFree_cases hrest with ⟨_, hnull⟩ | ⟨_, hlow, _⟩
    · exact .inl hnull
    · unfold finish at hlow
      omega

theorem mergeNext_stays (hc : Coherent (left ++ [b] ++ right) h) (hb : b.free = true)
    (hlive : startsFree right = false) : mergeNext h b.addr = h := by
  obtain ⟨_, hlt, hright⟩ := hc.around
  have hgap := Partition.firstFree_gap hright hlive
  have hnext := (hc.chunk_links hb).2
  have hsize := hc.sizes b (by simp) hb
  have hbounds := hc.bounds (b := b) (by simp)
  unfold mergeNext
  simp only [hnext, hsize, HEADER_SIZE]
  rw [if_neg]
  rintro ⟨hne, heq⟩
  rw [add32_add32 (by omega)] at heq
  unfold finish at hgap
  omega

theorem Partition.lastFree_gap {a e : Nat} (h : Partition a left e)
    (hlive : endsFree left = false) {l : Block} (hl : l ∈ left) (hfree : l.free = true) :
    l.finish ≠ e := by
  rcases eq_nil_or_concat left with rfl | ⟨ls, k, rfl⟩
  · cases hl
  · rw [concat_eq_append] at h hlive hl
    rw [endsFree_concat] at hlive
    obtain ⟨c, hls, rfl, hlt, hke⟩ := tiles_append.mp h
    rcases mem_append.mp hl with hl | hl
    · have := Tiles.bounds hls hl
      rw [tiles_nil] at hke
      omega
    · rw [mem_singleton.mp hl, hlive] at hfree
      cases hfree

/-- A chunk whose predecessor in the list ends where it begins is absorbed by
that predecessor, exactly as a following chunk would be. -/
theorem mergePrev_eq_mergeNext {origin tmp : Nat} (hprev : getPrev h.mem origin = tmp)
    (hnext : getNext h.mem tmp = origin) (htmp : tmp ≠ 0) (horigin : origin ≠ 0)
    (hreach : add32 (add32 tmp 12) (getSize h.mem tmp) = origin) :
    mergePrev h origin = .ok (tmp, mergeNext h tmp) := by
  unfold mergePrev mergeNext
  simp only [hprev, HEADER_SIZE]
  rw [if_pos ⟨htmp, hreach⟩, if_pos (by rw [hnext]; exact ⟨horigin, hreach⟩), hnext,
    deref_of_ne horigin]
  rfl

section

variable (hc : Coherent (left ++ [b] ++ right) h) (hb : b.free = true)

include hc hb

theorem mergePrev_spec : ∃ h', mergePrev h b.addr = .ok ((joinPrev left b).2.addr, h') ∧
      Rearranged (left ++ [b] ++ right) ((joinPrev left b).1 ++ [(joinPrev left b).2] ++ right) h
        h' := by
  obtain ⟨hleft, hlt, hright⟩ := hc.around
  have hprev := (hc.chunk_links hb).1
  have hbounds := hc.bounds (b := b) (by simp)
  rcases joinPrev_cases left b with ⟨hlive, hjoin⟩ | ⟨ls, l, rfl, hl, hjoin⟩
  · refine ⟨h, ?_, ?_⟩
    · rw [hjoin]
      unfold mergePrev
      simp only [hprev, HEADER_SIZE]
      rw [if_neg]
      · rfl
      · rintro ⟨hne, hreach⟩
        rcases hleft.lastFree_cases with ⟨_, hnull⟩ | ⟨hmem, _, _⟩
        · exact hne hnull
        · obtain ⟨l, hl, hfree, haddr⟩ := mem_freeAddrs.mp hmem
          have hlb := hleft.block_bounds hl
          rw [← haddr, hc.sizes l (by simp [hl]) hfree, add32_add32 (by omega)] at hreach
          exact hleft.lastFree_gap hlive hl hfree hreach
    · rw [hjoin]
      exact Rearranged.refl hc
  · have hlast : lastFree (ls ++ [l]) = l.addr := by
      simp [lastFree, freeAddrs_cons_free hl]
    have hlb := hleft.block_bounds (b := l) (by simp)
    have hreach : l.addr + 12 + l.size = b.addr := by
      obtain ⟨c, _, _, _, heq⟩ := tiles_append.mp hleft
      exact heq
    have hnext : getNext h.mem l.addr = b.addr := by
      have := hc.last_next (by omega)
      rwa [hlast, freeAddrs_cons_free hb] at this
    have hc' : Coherent (ls ++ [l, b] ++ right) h := by simpa using hc
    have hmerge : mergePrev h b.addr = .ok (l.addr, mergeNext h l.addr) := by
      refine mergePrev_eq_mergeNext (hprev.trans hlast) hnext (by omega) (by omega) ?_
      rw [hc.sizes l (by simp) hl, add32_add32 (by omega), hreach]
    rw [hjoin]
    exact ⟨mergeNext h l.addr, hmerge, by simpa using mergeNext_joins hc' hl hb⟩

theorem mergeNext_spec :
    Rearranged (left ++ [b] ++ right) (left ++ [(joinNext b right).1] ++ (joinNext b right).2)
      h (mergeNext h b.addr) := by
  rcases joinNext_cases b right with ⟨hlive, hjoin⟩ | ⟨c, cs, rfl, hfree, hjoin⟩
  · rw [hjoin, mergeNext_stays hc hb hlive]
    exact Rearranged.refl hc
  · rw [hjoin]
    have hc' : Coherent (left ++ [b, c] ++ cs) h := by simpa using hc
    simpa using mergeNext_joins hc' hb hfree

theorem merge_spec : ∃ h', merge h b.addr = .ok ((coalesced left b right).addr, h') ∧
      Rearranged (left ++ [b] ++ right) (coalesce left b right) h h' := by
  have hstart := hc.start_pos
  have hne : h.firstChunk ≠ 0 := by
    have hmem : b.addr ∈ freeAddrs (left ++ [b] ++ right) := mem_freeAddrs.mpr ⟨b, by simp, hb, rfl⟩
    rw [hc.first]
    rcases headD_mem_or_eq 0 (freeAddrs (left ++ [b] ++ right)) with hhead | hnil
    · have := hc.partition.freeAddr_bounds hhead
      omega
    · rw [hnil] at hmem
      cases hmem
  have hnext := mergeNext_spec hc hb
  obtain ⟨h', hmerge, hprev⟩ := mergePrev_spec hnext.coherent (joinNext_free hb)
  rw [joinNext_addr] at hmerge
  refine ⟨h', ?_, hnext.trans hprev⟩
  unfold merge
  rw [if_neg hne, hmerge]
  rfl

end

end Join

section Free

variable {left right : List Block} {b c : Block} {h : Heap} {bs : List Block}

theorem releaseCalls_inside (hc : Coherent bs h) (hmem : c ∈ bs) (hfree : c.free = true)
    (pager : Pager) {call : Nat × Nat} (hcall : call ∈ releaseCalls h pager c.addr) :
    c.payload ≤ call.1 ∧ call.1 + PAGESIZE ≤ c.finish := by
  have hsize := hc.sizes c hmem hfree
  have hend := hc.end_lt
  have hbounds := hc.block_bounds hmem
  unfold releaseCalls at hcall
  simp only [hsize, HEADER_SIZE] at hcall
  split at hcall
  · rename_i hlarge
    have hpayload : add32 c.addr 12 = c.addr + 12 := add32_eq (by omega)
    have hlast : sub32 (add32 c.addr (add32 12 c.size)) 1 = c.addr + 12 + c.size - 1 := by
      rw [add32_eq (a := 12) (by omega), add32_eq (by omega), sub32_eq (by omega) (by omega)]
      omega
    have hinside := unmapCalls_inside (by omega) (by omega) hcall
    unfold payload finish
    omega
  · cases hcall

theorem Coherent.discard (hc : Coherent bs h) (hmem : c ∈ bs)
    (hfree : c.free = true) {calls : List (Nat × Nat)}
    (hcalls : ∀ call ∈ calls, c.payload ≤ call.1 ∧ call.1 + PAGESIZE ≤ c.finish) (contents : Mem) :
    Coherent bs { h with mem := discard contents calls h.mem } ∧
      KeepsLive bs h.mem (discard contents calls h.mem) := by
  unfold payload finish at hcalls
  refine ⟨hc.of_headers ?_, ?_⟩
  · intro b hb _ x hlo hhi
    refine discard_of_outside fun call hcall => ?_
    have hinside := hcalls call hcall
    have := hc.partition.header_cases hb hmem
    omega
  · intro b hb hlive x hlo hhi
    refine discard_of_outside fun call hcall => ?_
    have hinside := hcalls call hcall
    unfold finish at hhi
    rcases hc.partition.header_cases hb hmem with heq | hsep
    · have hsame : b = c := Tiles.eq_of_lo_eq hc.partition hb hmem heq
      rw [hsame, hfree] at hlive
      cases hlive
    · omega

/-- Releasing a live block: it is joined with its free neighbours, the other
live blocks keep their bytes, and only pages inside the payload of the
resulting chunk are unmapped. -/
theorem freeAlgorithm_spec (hc : Coherent (left ++ [b] ++ right) h) (hlive : b.free = false)
    (hsize : getSize h.mem b.addr = b.size)
    (hnull : freeAddrs (left ++ right) = [] → getNext h.mem b.addr = 0 ∧ getPrev h.mem b.addr = 0)
    (pager : Pager) :
    ∃ h' calls, freeAlgorithm h pager b.payload = .ok (h', calls) ∧
      Coherent (coalesce left { b with free := true } right) h' ∧ SameRegion h h' ∧
      KeepsLive (left ++ right) h.mem h'.mem ∧
      (h.freeMemory = freeTotal (left ++ right) →
        h'.freeMemory = freeTotal (coalesce left { b with free := true } right)) ∧
      ∀ call ∈ calls, (coalesced left { b with free := true } right).payload ≤ call.1 ∧
        call.1 + PAGESIZE ≤ (coalesced left { b with free := true } right).finish := by
  have hbounds := hc.bounds (b := b) (by simp)
  let freed : Block := { b with free := true }
  obtain ⟨h1, hinsert, hc1, hregion1, hkeep1, hfree1⟩ :=
    insertChunk_spec (hc.withFreeMemory (add32 h.freeMemory b.size)) hlive hsize hnull
  obtain ⟨h2, hmerge, hr⟩ := merge_spec hc1 rfl
  have hmem : coalesced left freed right ∈ coalesce left freed right := by simp [coalesce]
  have hcalls : ∀ call ∈ releaseCalls h2 pager (coalesced left freed right).addr,
      (coalesced left freed right).payload ≤ call.1 ∧
        call.1 + PAGESIZE ≤ (coalesced left freed right).finish := fun call hcall =>
    releaseCalls_inside hr.coherent hmem (coalesced_free rfl) pager hcall
  obtain ⟨hc3, hkeep3⟩ := hr.coherent.discard hmem (coalesced_free rfl) hcalls pager.contents
  refine ⟨_, releaseCalls h2 pager (coalesced left freed right).addr, ?_, hc3, ?_, ?_, ?_, hcalls⟩
  · unfold freeAlgorithm
    have hheader := hc.sub_payload (b := b) (by simp)
    have hpos : b.payload ≠ 0 := by unfold payload; omega
    have hinside : ¬(b.payload < h.memoryStartAddress ∨ h.memoryEndAddress < b.payload) := by
      unfold payload
      omega
    simp only [hheader]
    rw [if_neg hinside, deref_of_ne (by omega), hsize]
    simp only [bind, Except.bind, hinsert, hmerge]
    rfl
  · have hregion2 := hregion1.trans hr.region
    exact ⟨hregion2.start_eq, hregion2.end_eq, hregion2.doUnmap_eq⟩
  · refine hkeep1.trans ((hr.keeps.trans (hkeep3.mono ?_)).mono ?_)
    · intro x hx hxlive
      have hin : x ∈ liveBlocks (left ++ [freed] ++ right) := mem_liveBlocks.mpr ⟨hx, hxlive⟩
      rw [← hr.live] at hin
      exact (mem_liveBlocks.mp hin).1
    · intro x hx _
      exact mem_around _ hx
  · intro hacc
    refine hr.accounting ?_
    have htotal := hc1.partition.freeTotal_le
    rw [hregion1.start_eq, hregion1.end_eq] at htotal
    rw [hfree1, hacc, freeTotal_append]
    simp only [freeTotal_mid, freeTotal_cons_free, freeTotal_nil] at htotal ⊢
    rw [add32_eq (by omega)]
    omega

theorem freeAlgorithm_inv (hinv : HeapInv (left ++ [b] ++ right) h) (hlive : b.free = false)
    (pager : Pager) :
    ∃ h' calls, freeAlgorithm h pager b.payload = .ok (h', calls) ∧
      HeapInv (coalesce left { b with free := true } right) h' ∧ SameRegion h h' ∧
      KeepsLive (left ++ right) h.mem h'.mem ∧
      ∀ call ∈ calls, (coalesced left { b with free := true } right).payload ≤ call.1 ∧
        call.1 + PAGESIZE ≤ (coalesced left { b with free := true } right).finish := by
  obtain ⟨h', calls, hcall, hc, hregion, hkeep, hacc, hcalls⟩ :=
    freeAlgorithm_spec hinv.toCoherent hlive (hinv.live_sizes b (by simp) hlive)
      (fun _ => hinv.live_links b (by simp) hlive) pager
  have hlive_mem : ∀ c ∈ coalesce left { b with free := true } right, c.free = false →
      c ∈ left ++ right := by
    intro c hmem hcl
    have hin := mem_liveBlocks.mpr ⟨hmem, hcl⟩
    rw [liveBlocks_coalesce rfl] at hin
    exact (mem_liveBlocks.mp hin).1
  have hsub : ∀ c ∈ coalesce left { b with free := true } right, c.free = false →
      c ∈ left ++ [b] ++ right := by
    intro c hmem hcl
    exact mem_around _ (hlive_mem c hmem hcl)
  have hmerged := hinv.merged
  simp only [merged_append] at hmerged
  have htotal : freeTotal (left ++ [b] ++ right) = freeTotal (left ++ right) := by
    rw [freeTotal_mid, freeTotal_cons_live hlive, freeTotal_append]
    rfl
  refine ⟨h', calls, hcall, ⟨⟨hc, ?_, ?_⟩, ?_, ?_⟩, hregion, hkeep, hcalls⟩
  · exact hinv.live_sizes.of_keeps (hkeep.mono hlive_mem) hsub
  · exact merged_coalesce hmerged.1.1 hmerged.2.1
  · exact hinv.live_links.of_keeps (hkeep.mono hlive_mem) hsub
  · exact hacc (hinv.accounting.trans htotal)

theorem realloc_of_live (hinv : TilingInv (left ++ [b] ++ right) h) (hlive : b.free = false)
    {size : Nat} (hsize : 0 < size) (pager : Pager) :
    realloc h pager b.payload size 0 =
      if b.size = size then .ok (b.payload, h)
      else if size < b.size then reallocShrink h pager b.payload size b.addr
      else reallocGrow h pager b.payload size 0 b.addr := by
  have hbounds := hinv.bounds (b := b) (by simp)
  have hheader := hinv.sub_payload (b := b) (by simp)
  unfold realloc
  simp only [hheader, hinv.live_sizes b (by simp) hlive, true_or, if_true]
  rw [if_neg (by omega)]
  exact deref_bind (by omega) _

end Free

end HuyaOS.FreeListMemoryManager
