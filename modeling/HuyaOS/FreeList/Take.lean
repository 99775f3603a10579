import HuyaOS.FreeList.Invariant

/-!
What allocation does to the chosen chunk. A chunk is either sliced, and the
slice takes its place in the list, or it leaves the list as a whole.
-/

namespace HuyaOS.FreeListMemoryManager

open Lib Nat List Block

section Link

variable {h : Heap} {node value a : Nat}

@[simp] theorem linkPrev_start :
    (linkPrev h node value).memoryStartAddress = h.memoryStartAddress := by
  unfold linkPrev; split <;> rfl

@[simp] theorem linkPrev_end : (linkPrev h node value).memoryEndAddress = h.memoryEndAddress := by
  unfold linkPrev; split <;> rfl

@[simp] theorem linkPrev_freeMemory : (linkPrev h node value).freeMemory = h.freeMemory := by
  unfold linkPrev; split <;> rfl

@[simp] theorem linkPrev_doUnmap : (linkPrev h node value).doUnmap = h.doUnmap := by
  unfold linkPrev; split <;> rfl

@[simp] theorem linkPrev_first : (linkPrev h node value).firstChunk = h.firstChunk := by
  unfold linkPrev; split <;> rfl

@[simp] theorem linkNext_start :
    (linkNext h node value).memoryStartAddress = h.memoryStartAddress := by
  unfold linkNext; split <;> rfl

@[simp] theorem linkNext_end : (linkNext h node value).memoryEndAddress = h.memoryEndAddress := by
  unfold linkNext; split <;> rfl

@[simp] theorem linkNext_freeMemory : (linkNext h node value).freeMemory = h.freeMemory := by
  unfold linkNext; split <;> rfl

@[simp] theorem linkNext_doUnmap : (linkNext h node value).doUnmap = h.doUnmap := by
  unfold linkNext; split <;> rfl

@[simp] theorem linkNext_first :
    (linkNext h node value).firstChunk = if node = 0 then value else h.firstChunk := by
  unfold linkNext; split <;> simp_all

theorem linkPrev_mem_of_outside (hout : node = 0 ∨ a < node ∨ node + 4 ≤ a) :
    (linkPrev h node value).mem a = h.mem a := by
  unfold linkPrev
  split
  · exact store32_of_outside (by omega)
  · rfl

theorem linkNext_mem_of_outside (hout : node = 0 ∨ a < node + 4 ∨ node + 8 ≤ a) :
    (linkNext h node value).mem a = h.mem a := by
  unfold linkNext
  split
  · exact store32_of_outside (by omega)
  · rfl

theorem load32_linkPrev (hsep : node = 0 ∨ node + 4 ≤ a ∨ a + 4 ≤ node) :
    load32 (linkPrev h node value).mem a = load32 h.mem a :=
  load32_congr fun _ _ _ => linkPrev_mem_of_outside (by omega)

theorem load32_linkNext (hsep : node = 0 ∨ node + 8 ≤ a ∨ a + 4 ≤ node + 4) :
    load32 (linkNext h node value).mem a = load32 h.mem a :=
  load32_congr fun _ _ _ => linkNext_mem_of_outside (by omega)

theorem load32_linkPrev_self (hnode : node ≠ 0) (hvalue : value < 2 ^ 32) :
    load32 (linkPrev h node value).mem node = value := by
  unfold linkPrev setPrev
  rw [if_pos hnode, load32_store32_self, mod_eq_of_lt hvalue]

theorem load32_linkNext_self (hnode : node ≠ 0) (hvalue : value < 2 ^ 32) :
    load32 (linkNext h node value).mem (node + 4) = value := by
  unfold linkNext setNext
  rw [if_pos hnode, load32_store32_self, mod_eq_of_lt hvalue]

end Link

/-- The operation keeps the region and the unmap flag. -/
structure SameRegion (h h' : Heap) : Prop where
  start_eq : h'.memoryStartAddress = h.memoryStartAddress
  end_eq : h'.memoryEndAddress = h.memoryEndAddress
  doUnmap_eq : h'.doUnmap = h.doUnmap

variable {h : Heap} {left right : List Block}

theorem SameRegion.trans {h' h'' : Heap} (hfirst : SameRegion h h') (hsecond : SameRegion h' h'') :
    SameRegion h h'' :=
  ⟨hsecond.start_eq.trans hfirst.start_eq, hsecond.end_eq.trans hfirst.end_eq,
    hsecond.doUnmap_eq.trans hfirst.doUnmap_eq⟩

theorem Coherent.chunk_links {b : Block} (hc : Coherent (left ++ [b] ++ right) h)
    (hfree : b.free = true) :
    getPrev h.mem b.addr = lastFree left ∧ getNext h.mem b.addr = firstFree right := by
  have hlinks := hc.links
  rw [freeAddrs_append, freeAddrs_append, freeAddrs_cons_free hfree, append_assoc, links_append,
    cons_append] at hlinks
  exact ⟨hlinks.2.1, hlinks.2.2.1⟩

theorem Coherent.last_next {mid : List Block} (hc : Coherent (left ++ mid ++ right) h)
    (hne : lastFree left ≠ 0) :
    getNext h.mem (lastFree left) = (freeAddrs mid).headD (firstFree right) := by
  have hlinks := hc.links
  rw [freeAddrs_append, freeAddrs_append, append_assoc, links_append] at hlinks
  have hnil : freeAddrs left ≠ [] := fun hnil => hne (by rw [lastFree, hnil]; rfl)
  rw [headD_append] at hlinks
  exact hlinks.1.next_getLastD hnil 0

theorem Coherent.first_eq {mid : List Block} (hc : Coherent (left ++ mid ++ right) h)
    (hnull : lastFree left = 0) :
    h.firstChunk = (freeAddrs mid).headD (firstFree right) := by
  have hnil : freeAddrs left = [] := by
    rcases getLastD_mem_or_eq 0 (freeAddrs left) with hmem | hnil
    · have hstart := hc.start_pos
      have hmem' : lastFree left ∈ freeAddrs (left ++ mid ++ right) := by
        rw [freeAddrs_append, freeAddrs_append, append_assoc]
        exact mem_append_left _ hmem
      have := hc.partition.freeAddr_bounds hmem'
      omega
    · exact hnil
  rw [hc.first]
  simp only [freeAddrs_append, hnil, nil_append, headD_append]
  rfl

section Take

variable {left right : List Block} {b : Block} {h : Heap} {n lo hi : Nat}
  {current pointer size : Nat}

theorem unlinkChunk_eq (hc : Coherent (left ++ [b] ++ right) h) (hfree : b.free = true)
    (hright : Partition b.finish right h.memoryEndAddress) :
    unlinkChunk h b.addr = linkNext (linkPrev h (firstFree right) (lastFree left)) (lastFree left)
        (firstFree right) := by
  obtain ⟨hprev, hnext⟩ := hc.chunk_links hfree
  have hff := hright.firstFree_cases
  unfold finish at hff
  unfold getPrev at hprev
  unfold getNext at hnext
  unfold unlinkChunk getPrev getNext
  simp only [hprev, hnext]
  rw [load32_linkPrev (by omega), load32_linkPrev (by omega), hprev, hnext]

theorem unlinkChunk_spec (hc : Coherent (left ++ [b] ++ right) h) (hfree : b.free = true)
    (hleft : Partition h.memoryStartAddress left b.addr)
    (hright : Partition b.finish right h.memoryEndAddress) :
    Coherent (left ++ [{ b with free := false }] ++ right) (unlinkChunk h b.addr) ∧
      getSize (unlinkChunk h b.addr).mem b.addr = b.size ∧
      Patched left right b.addr b.finish h (unlinkChunk h b.addr) := by
  have hshape := unlinkChunk_eq hc hfree hright
  have hsize := hc.sizes b (by simp) hfree
  have hbounds := hc.bounds (b := b) (by simp)
  have hll := hleft.lastFree_cases
  have hff := hright.firstFree_cases
  unfold finish at *
  unfold getSize at hsize
  have hpatched : Patched left right b.addr (b.addr + 12 + b.size) h (unlinkChunk h b.addr) := by
    rw [hshape]
    refine ⟨by simp, by simp, ?_⟩
    intro x _ hlast hhead
    rw [linkNext_mem_of_outside (by omega), linkPrev_mem_of_outside (by omega)]
  have hkept : getSize (unlinkChunk h b.addr).mem b.addr = b.size := by
    rw [hshape, getSize, load32_linkNext (by omega), load32_linkPrev (by omega), hsize]
  refine ⟨hc.edit hpatched hleft ?_ hright ?_ ?_ ?_ ?_ ?_, hkept, hpatched⟩
  · simp only [tiles_cons, tiles_nil, finish, true_and, and_true]
    omega
  · simp
  · simp [freeAddrs]
  · intro hne
    rw [hshape, getNext, load32_linkNext_self hne (by omega)]
    simp [freeAddrs]
  · intro hne
    rw [hshape, getPrev, load32_linkNext (by omega), load32_linkPrev_self hne (by omega)]
    simp [freeAddrs]
  · rw [hshape]
    simp [freeAddrs]

/-- What slicing `n` bytes off a chunk writes: the header of the slice, the two
links to it and the size of the block that is taken. -/
def sliced (h : Heap) (b : Block) (n prev next : Nat) : Heap :=
  let m := store32 h.mem (b.addr + 12 + n + 8) (b.size - n - 12)
  let m := store32 m (b.addr + 12 + n + 4) next
  let m := store32 m (b.addr + 12 + n) prev
  let linked :=
    linkNext (linkPrev { h with mem := m } next (b.addr + 12 + n)) prev (b.addr + 12 + n)
  { linked with
    mem := store32 linked.mem (b.addr + 8) n
    freeMemory := sub32 linked.freeMemory 12 }

section

variable (hc : Coherent (left ++ [b] ++ right) h) (hfree : b.free = true) (hn : n + 16 ≤ b.size)
  (hleft : Partition h.memoryStartAddress left b.addr)
  (hright : Partition b.finish right h.memoryEndAddress)

include hc hfree hn hleft hright

theorem sliceChunk_eq :
    sliceChunk h b.addr n (b.addr + 12 + n) = sliced h b n (lastFree left) (firstFree right) := by
  obtain ⟨hprev, hnext⟩ := hc.chunk_links hfree
  have hsize := hc.sizes b (by simp) hfree
  have hbounds := hc.bounds (b := b) (by simp)
  have hll := hleft.lastFree_cases
  have hff := hright.firstFree_cases
  unfold finish at *
  unfold getPrev at hprev
  unfold getNext at hnext
  unfold getSize at hsize
  have hinner : sub32 b.size n = b.size - n := sub32_eq (by omega) (by omega)
  have hrest : sub32 (sub32 b.size n) 12 = b.size - n - 12 := by
    rw [hinner, sub32_eq (by omega) (by omega)]
  simp only [sliceChunk, getSize, getNext, getPrev, setSize, setNext, setPrev, hsize,
    hrest, HEADER_SIZE]
  simp (disch := omega) only [load32_store32_of_disjoint, load32_store32_self, load32_linkPrev,
    mod_eq_of_lt, hnext, hprev]
  rfl

theorem sliceChunk_spec :
    Coherent (left ++ cut b n ++ right) (sliceChunk h b.addr n (b.addr + 12 + n)) ∧
      getSize (sliceChunk h b.addr n (b.addr + 12 + n)).mem b.addr = n ∧
      Patched left right b.addr b.finish h (sliceChunk h b.addr n (b.addr + 12 + n)) := by
  rw [sliceChunk_eq hc hfree hn hleft hright]
  have hbounds := hc.bounds (b := b) (by simp)
  have hll := hleft.lastFree_cases
  have hff := hright.firstFree_cases
  have hcut : cut b n = [⟨b.addr, n, false⟩, ⟨b.addr + 12 + n, b.size - n - 12, true⟩] := if_pos hn
  have hfree_cut : freeAddrs (cut b n) = [b.addr + 12 + n] := by
    rw [hcut]
    rfl
  unfold finish at *
  have hpatched : Patched left right b.addr (b.addr + 12 + b.size) h
      (sliced h b n (lastFree left) (firstFree right)) := by
    refine ⟨by simp [sliced], by simp [sliced], ?_⟩
    intro x hout hlast hhead
    simp only [sliced]
    rw [store32_of_outside (by omega), linkNext_mem_of_outside (by omega),
      linkPrev_mem_of_outside (by omega)]
    simp only
    rw [store32_of_outside (by omega), store32_of_outside (by omega), store32_of_outside (by omega)]
  have htaken : getSize (sliced h b n (lastFree left) (firstFree right)).mem b.addr = n := by
    rw [sliced, getSize, load32_store32_self, mod_eq_of_lt (by omega)]
  refine ⟨hc.edit hpatched hleft ?_ hright ?_ ?_ ?_ ?_ ?_, htaken, hpatched⟩
  · exact partition_cut (by simp [finish]; omega)
  · rw [hcut]
    simp only [mem_cons, not_mem_nil, or_false, forall_eq_or_imp, forall_eq,
      Bool.false_eq_true, false_implies, true_and, true_implies, getSize, sliced]
    simp (disch := omega) only [load32_store32_of_disjoint, load32_store32_self,
      load32_linkPrev, load32_linkNext, mod_eq_of_lt]
  · rw [hfree_cut]
    simp only [links_cons, headD_nil, links_nil, and_true, getNext, getPrev, sliced]
    constructor
    · simp (disch := omega) only [load32_store32_of_disjoint, load32_store32_self,
        load32_linkPrev, load32_linkNext, mod_eq_of_lt]
    · simp (disch := omega) only [load32_store32_of_disjoint, load32_store32_self,
        load32_linkPrev, load32_linkNext, mod_eq_of_lt]
  · intro hne
    rw [hfree_cut, headD_cons]
    simp (disch := omega) only [getNext, sliced, load32_store32_of_disjoint, load32_linkNext_self]
  · intro hne
    rw [hfree_cut, getLastD_cons, getLastD_nil]
    simp (disch := omega) only [getPrev, sliced, load32_store32_of_disjoint, load32_linkNext,
      load32_linkPrev_self]
  · rw [hfree_cut]
    simp [sliced]

end

theorem clearLinks_mem_of_outside {x : Nat} (hout : x < current ∨ current + 8 ≤ x) :
    (clearLinks h current).mem x = h.mem x := by
  simp only [clearLinks, setPrev, setNext]
  rw [store32_of_outside (by omega), store32_of_outside (by omega)]

theorem clearLinks_links (current : Nat) :
    getNext (clearLinks h current).mem current = 0 ∧
      getPrev (clearLinks h current).mem current = 0 := by
  simp only [clearLinks, setPrev, setNext, getNext, getPrev]
  constructor
  · rw [load32_store32_of_disjoint (by omega), load32_store32_self]
    rfl
  · rw [load32_store32_self]
    rfl

theorem clearLinks_freeMemory (current : Nat) :
    (clearLinks h current).freeMemory = sub32 h.freeMemory (getSize h.mem current) := by
  simp only [clearLinks]
  congr 1
  exact getSize_congr fun x _ _ => clearLinks_mem_of_outside (by omega)

@[simp] theorem clearLinks_first (current : Nat) :
    (clearLinks h current).firstChunk = h.firstChunk := rfl

theorem clearLinks_size (current : Nat) :
    getSize (clearLinks h current).mem current = getSize h.mem current :=
  getSize_congr fun _ _ _ => clearLinks_mem_of_outside (by omega)

theorem Coherent.clearLinks {bs : List Block} (hc : Coherent bs h) (hb : b ∈ bs)
    (hlive : b.free = false) : Coherent bs (clearLinks h b.addr) :=
  (hc.of_live_bytes hb hlive fun _ hout =>
    clearLinks_mem_of_outside (by unfold finish at hout; omega)).withFreeMemory _

theorem deref_of_ne (hne : pointer ≠ 0) : deref pointer = .ok () :=
  if_neg hne

theorem bind_eq_ok {α β : Type} {x : Except Fault α} {f : α → Except Fault β} {r : β}
    (h : (x >>= f) = .ok r) : ∃ a, x = .ok a ∧ f a = .ok r := by
  cases x with
  | error fault => cases h
  | ok a => exact ⟨a, rfl, h⟩

theorem deref_bind {α : Type} (hne : pointer ≠ 0) (f : Unit → Except Fault α) :
    (deref pointer >>= f) = f () := by
  rw [deref_of_ne hne]
  rfl

theorem freeTotal_mid (mid : List Block) :
    freeTotal (left ++ mid ++ right) = freeTotal left + freeTotal mid + freeTotal right := by
  rw [freeTotal_append, freeTotal_append]

theorem Patched.clearLinks {h' : Heap} (hp : Patched left right b.addr b.finish h h') :
    Patched left right b.addr b.finish h (clearLinks h' b.addr) :=
  hp.within rfl rfl fun _ hout =>
    clearLinks_mem_of_outside (by unfold finish at hout; omega)

theorem takeChunk_slice (hroom : 16 ≤ sub32 (getSize h.mem current) size)
    (hne : add32 (add32 current 12) size ≠ 0) :
    takeChunk h current size = .ok (add32 current 12,
      clearLinks (sliceChunk h current size (add32 (add32 current 12) size)) current) := by
  unfold takeChunk
  simp only [MIN_BLOCK_SIZE, HEADER_SIZE, reduceAdd]
  rw [if_pos hroom, deref_of_ne hne]
  rfl

theorem takeChunk_whole (hroom : sub32 (getSize h.mem current) size < 16) :
    takeChunk h current size = .ok (add32 current 12,
      clearLinks (unlinkChunk h current) current) := by
  unfold takeChunk
  simp only [MIN_BLOCK_SIZE, HEADER_SIZE, reduceAdd]
  rw [if_neg (not_le.mpr hroom)]
  rfl

/-- Taking `n` bytes of a free chunk cuts its block in the layout. -/
theorem takeChunk_spec (hc : Coherent (left ++ [b] ++ right) h) (hfree : b.free = true)
    (hn : n ≤ b.size) :
    ∃ h', takeChunk h b.addr n = .ok (b.payload, h') ∧
      Coherent (left ++ cut b n ++ right) h' ∧ SameRegion h h' ∧
      KeepsLive (left ++ right) h.mem h'.mem ∧
      LiveSizes (cut b n) h'.mem ∧ LiveLinksNull (cut b n) h'.mem ∧
      (h.freeMemory = freeTotal (left ++ [b] ++ right) →
        h'.freeMemory = freeTotal (left ++ cut b n ++ right)) := by
  obtain ⟨hleft, hlt, hright⟩ := hc.around
  have hsize := hc.sizes b (by simp) hfree
  have hbounds := hc.bounds (b := b) (by simp)
  have hpayload : add32 b.addr 12 = b.payload := add32_eq (by omega)
  have hsub : sub32 (getSize h.mem b.addr) n = b.size - n := by
    rw [hsize]
    exact sub32_eq hn (by omega)
  have htotal := hc.partition.freeTotal_le
  rw [freeTotal_mid, freeTotal_cons_free hfree] at htotal
  by_cases hslice : n + 16 ≤ b.size
  · obtain ⟨hcut, htaken, hpatched⟩ := sliceChunk_spec hc hfree hslice hleft hright
    have hpieces : cut b n = [⟨b.addr, n, false⟩, ⟨b.addr + 12 + n, b.size - n - 12, true⟩] :=
      if_pos hslice
    have hslot : add32 (add32 b.addr 12) n = b.addr + 12 + n := by
      rw [hpayload]
      exact add32_eq (by unfold payload; omega)
    have hmem : ⟨b.addr, n, false⟩ ∈ left ++ cut b n ++ right := by
      simp [cut, hslice]
    refine ⟨clearLinks (sliceChunk h b.addr n (b.addr + 12 + n)) b.addr, ?_,
      hcut.clearLinks (b := ⟨b.addr, n, false⟩) hmem rfl, ⟨?_, ?_, ?_⟩,
      hpatched.clearLinks.keepsLive hleft (by omega) hright, ?_, ?_, ?_⟩
    · rw [takeChunk_slice (by omega) (by omega), hslot, hpayload]
    · exact hpatched.clearLinks.start_eq
    · exact hpatched.clearLinks.end_eq
    · simp [clearLinks, sliceChunk]
    · simp [hpieces, LiveSizes, clearLinks_size, htaken]
    · simp [hpieces, LiveLinksNull, clearLinks_links]
    · intro hacc
      rw [clearLinks_freeMemory, htaken, freeTotal_mid]
      simp only [sliceChunk, linkNext_freeMemory, linkPrev_freeMemory, HEADER_SIZE, hacc]
      rw [freeTotal_mid, freeTotal_cons_free hfree]
      simp only [cut, hslice, if_true, freeTotal_nil, freeTotal_cons_live, freeTotal_cons_free]
      unfold sub32
      omega
  · have hkeep : cut b n = [⟨b.addr, b.size, false⟩] := if_neg hslice
    obtain ⟨hcut, htaken, hpatched⟩ := unlinkChunk_spec hc hfree hleft hright
    have hmem : ⟨b.addr, b.size, false⟩ ∈ left ++ [⟨b.addr, b.size, false⟩] ++ right := by
      simp
    refine ⟨clearLinks (unlinkChunk h b.addr) b.addr, ?_, ?_, ⟨?_, ?_, ?_⟩,
      hpatched.clearLinks.keepsLive hleft (by omega) hright, ?_, ?_, ?_⟩
    · rw [takeChunk_whole (by omega), hpayload]
    · rw [hkeep]
      exact hcut.clearLinks (b := ⟨b.addr, b.size, false⟩) hmem rfl
    · exact hpatched.clearLinks.start_eq
    · exact hpatched.clearLinks.end_eq
    · simp [clearLinks, unlinkChunk]
    · simp [hkeep, LiveSizes, clearLinks_size, htaken]
    · simp [hkeep, LiveLinksNull, clearLinks_links]
    · intro hacc
      rw [clearLinks_freeMemory, htaken, freeTotal_mid, hkeep]
      simp only [unlinkChunk, linkNext_freeMemory, linkPrev_freeMemory, hacc]
      rw [freeTotal_mid, freeTotal_cons_free hfree]
      simp only [freeTotal_nil, freeTotal_cons_live]
      unfold sub32
      omega

end Take

end HuyaOS.FreeListMemoryManager
