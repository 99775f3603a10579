import HuyaOS.Lib.Transition
import HuyaOS.FreeList.Alloc
import HuyaOS.FreeList.Release

/-!
Whole sessions with a heap. A session starts with `init`; the client then
allocates without alignment, frees blocks it holds and writes into their
payloads, in any order. Each step takes a layout that represents the heap to
another one, so every reachable heap is a merged partition of the region into
the blocks of the client and the chunks of the free list.
-/

namespace HuyaOS.FreeListMemoryManager

open Lib MemoryUtil Management List

/-- What the client of a heap does. -/
inductive Op
  | alloc (size : Nat)
  | free (ptr : Nat) (pager : Pager)
  | write (address : Nat) (value : UInt8)

/-- A heap together with the pointers that the client holds. -/
structure Session where
  heap : Heap
  live : List Nat

/-- One operation of the client. It frees only what it holds and writes only
into payloads of blocks it holds. -/
inductive Step : Session → Op → Session → Prop
  | alloc {s : Session} {size ptr : Nat} {heap' : Heap} (hsize : size < 2 ^ 32)
      (hcall : alloc s.heap size 0 = .ok (ptr, heap')) :
      Step s (.alloc size) ⟨heap', if ptr = 0 then s.live else ptr :: s.live⟩
  | free {s : Session} {ptr : Nat} {pager : Pager} {heap' : Heap} {calls : List (Nat × Nat)}
      (hlive : ptr ∈ s.live) (hcall : freeAlgorithm s.heap pager ptr = .ok (heap', calls)) :
      Step s (.free ptr pager) ⟨heap', s.live.erase ptr⟩
  | write {s : Session} {ptr address : Nat} {value : UInt8} (hlive : ptr ∈ s.live)
      (hlo : ptr ≤ address) (hhi : address < ptr + getSize s.heap.mem (sub32 ptr HEADER_SIZE)) :
      Step s (.write address value)
        ⟨{ s.heap with mem := Function.update s.heap.mem address value }, s.live⟩

section Steps

variable {bs : List Block} {h : Heap} {ptr : Nat}

theorem HeapInv.of_payload (hinv : HeapInv bs h) {b : Block} (hb : b ∈ bs) {m' : Mem}
    (hkeep : ∀ x, x < b.payload ∨ b.finish ≤ x → m' x = h.mem x) :
    HeapInv bs { h with mem := m' } := by
  have hheader : ∀ c ∈ bs, ∀ x, c.addr ≤ x → x < c.addr + 12 → m' x = h.mem x := by
    intro c hc x hlo hhi
    refine hkeep x ?_
    have := hinv.partition.header_cases hb hc
    unfold Block.payload Block.finish
    omega
  refine ⟨⟨hinv.of_headers fun c hc _ => hheader c hc, ?_, hinv.merged⟩, ?_, hinv.accounting⟩
  · intro c hc hcl
    rw [← hinv.live_sizes c hc hcl]
    exact getSize_congr fun x hlo hhi => hheader c hc x (by omega) (by omega)
  · intro c hc hcl
    obtain ⟨hnext, hprev⟩ := hinv.live_links c hc hcl
    exact ⟨(getNext_congr fun x hlo hhi => hheader c hc x (by omega) (by omega)).trans hnext,
      (getPrev_congr fun x hlo hhi => hheader c hc x (by omega) (by omega)).trans hprev⟩

theorem exists_of_mem_livePointers (hptr : ptr ∈ livePointers bs) :
    ∃ left b right, bs = left ++ [b] ++ right ∧ b.free = false ∧ b.payload = ptr := by
  obtain ⟨b, hb, rfl⟩ := mem_map.mp hptr
  obtain ⟨hmem, hlive⟩ := mem_liveBlocks.mp hb
  obtain ⟨left, right, rfl⟩ := append_of_mem hmem
  exact ⟨left, b, right, by simp, hlive, rfl⟩

/-- Allocation always returns, and it hands out a new live block or nothing. -/
theorem alloc_step (hinv : HeapInv bs h) (size : Nat) :
    ∃ ptr h' bs', alloc h size 0 = .ok (ptr, h') ∧ HeapInv bs' h' ∧ SameRegion h h' ∧
      KeepsLive bs h.mem h'.mem ∧
      (livePointers bs').Perm (if ptr = 0 then livePointers bs else ptr :: livePointers bs) := by
  rcases alloc_cases hinv.toTilingInv size with ⟨hcall, _⟩ |
    ⟨left, b, right, h', rfl, _, hfree, _, _, hcall, _, hregion, hkeep, hnew⟩
  · exact ⟨0, h, bs, hcall, hinv, ⟨rfl, rfl, rfl⟩, fun _ _ _ _ _ _ => rfl, by simp⟩
  · have hpayload : b.payload ≠ 0 := Nat.succ_ne_zero _
    refine ⟨b.payload, h', _, hcall, hnew hinv, hregion, hkeep, ?_⟩
    exact livePointers_cut hfree

/-- Releasing a live block always returns and keeps the other live blocks. The
pages it unmaps lie in the payload of one free chunk of the new layout. -/
theorem free_step (hinv : HeapInv bs h) (hptr : ptr ∈ livePointers bs) (pager : Pager) :
    ∃ h' calls bs', freeAlgorithm h pager ptr = .ok (h', calls) ∧ HeapInv bs' h' ∧
      SameRegion h h' ∧ (livePointers bs').Perm ((livePointers bs).erase ptr) ∧
      KeepsLive bs' h.mem h'.mem ∧
      (∀ c ∈ liveBlocks bs, c.payload ≠ ptr → c ∈ liveBlocks bs') ∧
      ∀ call ∈ calls, ∃ c ∈ bs', c.free = true ∧ c.payload ≤ call.1 ∧
        call.1 + PAGESIZE ≤ c.finish := by
  obtain ⟨left, b, right, rfl, hlive, rfl⟩ := exists_of_mem_livePointers hptr
  obtain ⟨h', calls, hcall, hnew, hregion, hkeep, hcalls⟩ := freeAlgorithm_inv hinv hlive pager
  have hlist : liveBlocks (coalesce left { b with free := true } right) =
      liveBlocks (left ++ right) := liveBlocks_coalesce rfl
  refine ⟨h', calls, _, hcall, hnew, hregion, ?_, hkeep.mono ?_, ?_, ?_⟩
  · rw [livePointers, hlist]
    exact (livePointers_erase hlive).symm
  · intro c hmem hcl
    have hin := mem_liveBlocks.mpr ⟨hmem, hcl⟩
    rw [hlist] at hin
    exact (mem_liveBlocks.mp hin).1
  · intro c hc hne
    rw [hlist, liveBlocks_append]
    rw [liveBlocks_append, liveBlocks_append, liveBlocks_cons_live hlive] at hc
    simp only [mem_append, mem_cons, liveBlocks_nil, not_mem_nil, or_false] at hc ⊢
    rcases hc with (hc | rfl) | hc
    · exact .inl hc
    · exact absurd rfl hne
    · exact .inr hc
  · intro call hcall'
    exact ⟨_, by simp [coalesce], coalesced_free rfl, hcalls call hcall'⟩

theorem write_step (hinv : HeapInv bs h) {address : Nat} (value : UInt8)
    (hptr : ptr ∈ livePointers bs) (hlo : ptr ≤ address)
    (hhi : address < ptr + getSize h.mem (sub32 ptr HEADER_SIZE)) :
    HeapInv bs { h with mem := Function.update h.mem address value } := by
  obtain ⟨left, b, right, rfl, hlive, rfl⟩ := exists_of_mem_livePointers hptr
  rw [hinv.sub_payload (by simp), hinv.live_sizes b (by simp) hlive] at hhi
  refine hinv.of_payload (b := b) (by simp) ?_
  intro x hout
  refine Function.update_of_ne ?_ _ _
  unfold Block.finish Block.payload at *
  omega

end Steps

/-- The layout `bs` represents the session on the region from `start` to
`stop`: the live blocks are those of the client. -/
structure Represents (start stop : Nat) (doUnmap : Bool) (bs : List Block)
    (s : Session) : Prop where
  inv : HeapInv bs s.heap
  live : (livePointers bs).Perm s.live
  start_eq : s.heap.memoryStartAddress = start
  stop_eq : s.heap.memoryEndAddress = stop
  doUnmap_eq : s.heap.doUnmap = doUnmap

section Sessions

variable {start stop : Nat} {doUnmap : Bool} {m : Mem}

variable {bs : List Block} {s : Session} {h : Heap} {s' : Session} {ops : List Op}

theorem SameRegion.represents {bs' : List Block} (hregion : SameRegion s.heap s'.heap)
    (hrep : Represents start stop doUnmap bs s) (hinv : HeapInv bs' s'.heap)
    (hlive : (livePointers bs').Perm s'.live) :
    Represents start stop doUnmap bs' s' :=
  ⟨hinv, hlive, hregion.start_eq.trans hrep.start_eq, hregion.end_eq.trans hrep.stop_eq,
    hregion.doUnmap_eq.trans hrep.doUnmap_eq⟩

/-- Every step leads from a represented session to a represented one. -/
theorem step_represents {op : Op} (hrep : ∃ bs, Represents start stop doUnmap bs s)
    (hstep : Step s op s') : ∃ bs, Represents start stop doUnmap bs s' := by
  obtain ⟨bs, hrep⟩ := hrep
  cases hstep with
  | @alloc size ptr heap' hsize hcall =>
    obtain ⟨ptr', h', bs', hcall', hinv, hregion, _, hperm⟩ := alloc_step hrep.inv size
    rw [hcall] at hcall'
    obtain ⟨rfl, rfl⟩ : ptr = ptr' ∧ heap' = h' := by simpa using hcall'
    refine ⟨bs', hregion.represents hrep hinv (hperm.trans ?_)⟩
    by_cases hnull : ptr = 0
    · simpa [hnull] using hrep.live
    · simpa [hnull] using hrep.live
  | @free ptr pager heap' calls hlive hcall =>
    have hptr := hrep.live.mem_iff.mpr hlive
    obtain ⟨h', calls', bs', hcall', hinv, hregion, hperm, _⟩ := free_step hrep.inv hptr pager
    rw [hcall] at hcall'
    obtain ⟨rfl, rfl⟩ : heap' = h' ∧ calls = calls' := by simpa using hcall'
    exact ⟨bs', hregion.represents hrep hinv (hperm.trans (hrep.live.erase ptr))⟩
  | @write ptr address value hlive hlo hhi =>
    have hptr := hrep.live.mem_iff.mpr hlive
    refine ⟨bs, write_step hrep.inv value hptr hlo hhi, hrep.live, ?_, ?_, ?_⟩
    · exact hrep.start_eq
    · exact hrep.stop_eq
    · exact hrep.doUnmap_eq

theorem run_represents (hpos : 0 < start) (hroom : start + 12 ≤ stop) (hstop : stop < 2 ^ 32)
    (hrun : Run Step ⟨initialHeap m start stop doUnmap, []⟩ ops s) :
    ∃ bs, Represents start stop doUnmap bs s := by
  have hinit : ∃ bs, Represents start stop doUnmap bs ⟨initialHeap m start stop doUnmap, []⟩ :=
    ⟨[initialChunk start stop], initialHeap_inv hpos hroom hstop, Perm.refl _, rfl, rfl, rfl⟩
  exact hrun.invariant (fun _ _ _ hrep hstep => step_represents hrep hstep) hinit

/-- The picture of the heap that a session is meant to keep: the region is
partitioned into the blocks of the client and the ascending, merged chunks of
the list, and the next `alloc` or `free` returns. -/
def Tiled (start stop : Nat) (s : Session) : Prop :=
  ∃ bs, TilingInv bs s.heap ∧
    s.heap.memoryStartAddress = start ∧ s.heap.memoryEndAddress = stop ∧
    (livePointers bs).Perm s.live ∧ (freeAddrs bs).Pairwise (· < ·) ∧
    (∀ b ∈ bs, b.free = false → b.addr ∉ freeAddrs bs) ∧
    (∀ size < 2 ^ 32, ∃ s', Step s (.alloc size) s') ∧
    ∀ ptr ∈ s.live, ∀ pager, ∃ s', Step s (.free ptr pager) s'

/-- Every session on a region that starts at a nonzero address and can hold a
header is tiled at every moment. -/
theorem session_tiled (hpos : 0 < start) (hroom : start + HEADER_SIZE ≤ stop)
    (hstop : stop < 2 ^ 32) :
    ∃ h₀, init m start stop doUnmap = .ok h₀ ∧ ∀ ops s, Run Step ⟨h₀, []⟩ ops s →
      Tiled start stop s := by
  refine ⟨initialHeap m start stop doUnmap, init_eq hpos hroom hstop, ?_⟩
  intro ops s hrun
  obtain ⟨bs, hrep⟩ := run_represents hpos hroom hstop hrun
  refine ⟨bs, hrep.inv.toTilingInv, hrep.start_eq, hrep.stop_eq, hrep.live,
    hrep.inv.partition.freeAddrs_sorted, ?_, ?_, ?_⟩
  · intro b hb hlive
    exact hrep.inv.partition.live_not_mem hb hlive
  · intro size hsize
    obtain ⟨ptr, h', _, hcall, _⟩ := alloc_step hrep.inv size
    exact ⟨_, .alloc hsize hcall⟩
  · intro ptr hptr pager
    obtain ⟨h', calls, _, hcall, _⟩ :=
      free_step hrep.inv (hrep.live.mem_iff.mpr hptr) pager
    exact ⟨_, .free hptr hcall⟩

theorem session_tiled_page :
    ∃ h₀, init (fun _ => 0) 0x1000 0x2000 true = .ok h₀ ∧
      ∀ ops s, Run Step ⟨h₀, []⟩ ops s → Tiled 0x1000 0x2000 s :=
  session_tiled (by decide) (by decide) (by decide)

/-- A region at address zero can hold a header, but its first chunk would be
the null pointer. -/
theorem init_at_null :
    HEADER_SIZE ≤ 0x1000 - 0 ∧ init (fun _ => 0) 0 0x1000 false = .error .nullPointer :=
  ⟨by decide, rfl⟩

theorem Coherent.sum_sizes (hc : Coherent bs h) :
    ((freeAddrs bs).map (getSize h.mem)).sum = freeTotal bs := by
  unfold freeAddrs
  rw [map_map]
  congr 1
  refine map_congr_left ?_
  intro b hb
  obtain ⟨hmem, hfree⟩ := mem_filter.mp hb
  exact hc.sizes b hmem hfree

theorem Represents.eq_initial (hrep : Represents start stop doUnmap bs s)
    (hroom : start + 12 ≤ stop) (hnone : s.live = []) : bs = [initialChunk start stop] := by
  have hlive : liveBlocks bs = [] := by
    have hperm := hrep.live
    rw [hnone, perm_nil] at hperm
    exact map_eq_nil_iff.mp hperm
  have hpartition := hrep.inv.partition
  rw [hrep.start_eq, hrep.stop_eq] at hpartition
  rcases hrep.inv.merged.eq_of_no_live hlive with rfl | ⟨b, hfree, rfl⟩
  · have hempty : start = stop := hpartition
    omega
  · obtain ⟨haddr, _, hfinish⟩ := hpartition
    simp only [tiles_nil, Block.finish] at hfinish
    cases b with
    | mk addr size free =>
      simp only at haddr hfinish
      simp only [initialChunk, cons.injEq, Block.mk.injEq, and_true]
      exact ⟨haddr, by omega, hfree⟩

/-- The counter always equals the sum of the size fields along the list, and a
session that has freed everything is left with the initial chunk. -/
theorem session_accounting (hpos : 0 < start) (hroom : start + HEADER_SIZE ≤ stop)
    (hstop : stop < 2 ^ 32) :
    ∃ h₀, init m start stop doUnmap = .ok h₀ ∧
      ∀ ops s, Run Step ⟨h₀, []⟩ ops s →
        ∃ bs, TilingInv bs s.heap ∧ (livePointers bs).Perm s.live ∧
          s.heap.freeMemory = ((freeAddrs bs).map (getSize s.heap.mem)).sum ∧
          (s.live = [] → freeAddrs bs = [h₀.firstChunk] ∧ s.heap.firstChunk = h₀.firstChunk ∧
            getSize s.heap.mem s.heap.firstChunk = getSize h₀.mem h₀.firstChunk ∧
            s.heap.freeMemory = h₀.freeMemory) := by
  refine ⟨initialHeap m start stop doUnmap, init_eq hpos hroom hstop, ?_⟩
  intro ops s hrun
  obtain ⟨bs, hrep⟩ := run_represents hpos hroom hstop hrun
  refine ⟨bs, hrep.inv.toTilingInv, hrep.live, ?_, ?_⟩
  · rw [hrep.inv.toCoherent.sum_sizes]
    exact hrep.inv.accounting
  · intro hnone
    have hbs := hrep.eq_initial hroom hnone
    have hinit : HeapInv [initialChunk start stop] (initialHeap m start stop doUnmap) :=
      initialHeap_inv hpos hroom hstop
    have hinv := hrep.inv
    rw [hbs] at hinv ⊢
    have hfirst : s.heap.firstChunk = start := hinv.first
    refine ⟨rfl, hfirst, ?_, hinv.accounting.trans hinit.accounting.symm⟩
    rw [hfirst]
    exact (hinv.sizes (initialChunk start stop) (by simp) rfl).trans
      (hinit.sizes (initialChunk start stop) (by simp) rfl).symm

theorem session_accounting_page :
    ∃ h₀, init (fun _ => 0) 0x1000 0x2000 true = .ok h₀ ∧
      ∀ ops s, Run Step ⟨h₀, []⟩ ops s →
        ∃ bs, TilingInv bs s.heap ∧ (livePointers bs).Perm s.live ∧
          s.heap.freeMemory = ((freeAddrs bs).map (getSize s.heap.mem)).sum ∧
          (s.live = [] → freeAddrs bs = [h₀.firstChunk] ∧ s.heap.firstChunk = h₀.firstChunk ∧
            getSize s.heap.mem s.heap.firstChunk = getSize h₀.mem h₀.firstChunk ∧
            s.heap.freeMemory = h₀.freeMemory) :=
  session_accounting (by decide) (by decide) (by decide)

/-- A region that is too small for a header has an empty list, but its bytes
are counted as free; and a region at address zero gets no list at all. -/
theorem init_small_region_counts :
    (∃ h₀, init (fun _ => 0) 0x1000 0x1008 false = .ok h₀ ∧ h₀.firstChunk = 0 ∧
      h₀.freeMemory = 8) ∧
      init (fun _ => 0) 0 0x2000 false = .error .nullPointer :=
  ⟨⟨_, rfl, rfl, rfl⟩, rfl⟩

theorem alloc_without_list (hnone : h.firstChunk = 0) (size alignment : Nat) :
    alloc h size alignment = .ok (0, h) := by
  have hsearch : allocSearch h.mem (alignUp size 4) alignment (2 ^ 32) 0 = .ok .none := by
    rfl
  unfold alloc allocAlgorithm
  simp only [hnone, if_true, maxChunks, hsearch]
  split <;> rfl

theorem run_without_list (hnone : h.firstChunk = 0) (hrun : Run Step ⟨h, []⟩ ops s) :
    s.heap.firstChunk = 0 ∧ s.live = [] := by
  have hempty : ∀ (s : Session) (op : Op) (s' : Session),
      s.heap.firstChunk = 0 ∧ s.live = [] → Step s op s' →
        s'.heap.firstChunk = 0 ∧ s'.live = [] := by
    rintro s op s' ⟨hfirst, hlive⟩ hstep
    cases hstep with
    | @alloc size ptr heap' hsize hcall =>
      rw [alloc_without_list hfirst] at hcall
      obtain ⟨rfl, rfl⟩ : 0 = ptr ∧ s.heap = heap' := by simpa using hcall
      exact ⟨hfirst, by simpa using hlive⟩
    | free hmem _ =>
      rw [hlive] at hmem
      cases hmem
    | write hmem _ _ =>
      rw [hlive] at hmem
      cases hmem
  exact Run.invariant hempty hrun ⟨hnone, rfl⟩

theorem Coherent.page_apart (hc : Coherent bs h) {b c : Block} (hb : b ∈ bs) (hmem : c ∈ bs)
    (hfree : c.free = true) {page x : Nat} (hlo : c.payload ≤ page)
    (hhi : page + PAGESIZE ≤ c.finish) (hx : page ≤ x) (hx' : x < page + PAGESIZE) :
    ¬(b.addr ≤ x ∧ x < b.payload) ∧ (b.free = false → ¬(b.addr ≤ x ∧ x < b.finish)) := by
  unfold Block.payload Block.finish at *
  rcases hc.partition.header_cases hb hmem with heq | hsep
  · have hsame : b = c := Tiles.eq_of_lo_eq hc.partition hb hmem heq
    rw [hsame, hfree]
    exact ⟨by omega, by simp⟩
  · exact ⟨by omega, fun _ => by omega⟩

/-- Releasing `ptr` returns, and each page that it hands to the single-page
unmap lies inside the payload of one free chunk of the heap it leaves, with no
byte of a header and no byte of a live block in it. -/
def UnmapsFreeOnly (s : Session) (ptr : Nat) (pager : Pager) : Prop :=
  ∃ h' calls bs, freeAlgorithm s.heap pager ptr = .ok (h', calls) ∧ TilingInv bs h' ∧
    (livePointers bs).Perm (s.live.erase ptr) ∧
    ∀ call ∈ calls, ∃ c ∈ bs, c.free = true ∧ c.payload ≤ call.1 ∧
      call.1 + PAGESIZE ≤ c.finish ∧
      ∀ b ∈ bs, ∀ x, call.1 ≤ x → x < call.1 + PAGESIZE →
        ¬(b.addr ≤ x ∧ x < b.payload) ∧ (b.free = false → ¬(b.addr ≤ x ∧ x < b.finish))

/-- No session on an unmapping heap ever unmaps live data or a header. -/
theorem session_unmaps_free_only {h₀ : Heap} (hle : start ≤ stop) (hstop : stop < 2 ^ 32)
    (hinit : init m start stop true = .ok h₀) {s : Session}
    (hrun : Run Step ⟨h₀, []⟩ ops s) {ptr : Nat} (hptr : ptr ∈ s.live) (pager : Pager) :
    UnmapsFreeOnly s ptr pager := by
  have hsize : sub32 stop start = stop - start := sub32_eq hle hstop
  by_cases hroom : start + 12 ≤ stop
  · have hpos : 0 < start := by
      by_contra hzero
      obtain rfl : start = 0 := by omega
      simp only [init, hsize, HEADER_SIZE] at hinit
      rw [if_neg (by omega)] at hinit
      cases hinit
    rw [init_eq hpos hroom hstop] at hinit
    obtain rfl : initialHeap m start stop true = h₀ := by simpa using hinit
    obtain ⟨bs, hrep⟩ := run_represents hpos hroom hstop hrun
    obtain ⟨h', calls, bs', hcall, hinv, _, hperm, _, _, hcalls⟩ :=
      free_step hrep.inv (hrep.live.mem_iff.mpr hptr) pager
    refine ⟨h', calls, bs', hcall, hinv.toTilingInv, hperm.trans (hrep.live.erase ptr), ?_⟩
    intro call hmem
    obtain ⟨c, hc, hfree, hlo, hhi⟩ := hcalls call hmem
    refine ⟨c, hc, hfree, hlo, hhi, ?_⟩
    intro b hb x hx hx'
    exact hinv.toCoherent.page_apart hb hc hfree hlo hhi hx hx'
  · have hnone : h₀.firstChunk = 0 := by
      simp only [init, hsize, HEADER_SIZE] at hinit
      rw [if_pos (by omega)] at hinit
      cases hinit
      rfl
    rw [(run_without_list hnone hrun).2] at hptr
    cases hptr

theorem session_unmaps_free_only_pages :
    ∃ h₀ s, init (fun _ => 0) 0x1000 0x4000 true = .ok h₀ ∧
      Run Step ⟨h₀, []⟩ [.alloc 0x2000] s ∧ 0x100C ∈ s.live ∧
      ∀ pager, UnmapsFreeOnly s 0x100C pager := by
  have hinit :
      init (fun _ => 0) 0x1000 0x4000 true = .ok (initialHeap (fun _ => 0) 0x1000 0x4000 true) :=
    init_eq (by decide) (by decide) (by decide)
  obtain ⟨h', hcall, _⟩ := alloc_initial (fun _ => 0) 0x1000 0x4000 true 0x2000
    (by decide) (by decide) (by decide) (by decide) (by decide)
  have hrun : Run Step ⟨initialHeap (fun _ => 0) 0x1000 0x4000 true, []⟩ [.alloc 0x2000]
      ⟨h', [0x100C]⟩ := .next (.alloc (by decide) hcall) (.done _)
  refine ⟨_, _, hinit, hrun, by simp, ?_⟩
  intro pager
  exact session_unmaps_free_only (by decide) (by decide) hinit hrun (by simp) pager

end Sessions

end HuyaOS.FreeListMemoryManager
