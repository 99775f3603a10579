import HuyaOS.Lib.Links
import HuyaOS.FreeList.Layout
import HuyaOS.FreeList.Manager

/-!
When the memory of a heap represents a sequence of blocks. `Coherent` is the
part every single pointer update of the allocator maintains: the blocks
partition the region, the free headers hold their sizes, and the list that
starts at `firstChunk` runs through the free blocks in address order.
`TilingInv` adds what holds between operations: the headers of live blocks
hold their sizes too, and free neighbours have been merged.
-/

namespace HuyaOS.FreeListMemoryManager

open Lib List

/-- The memory of `h` represents the blocks `bs`. -/
structure Coherent (bs : List Block) (h : Heap) : Prop where
  start_pos : 0 < h.memoryStartAddress
  end_lt : h.memoryEndAddress < 2 ^ 32
  partition : Partition h.memoryStartAddress bs h.memoryEndAddress
  sizes : ∀ b ∈ bs, b.free = true → getSize h.mem b.addr = b.size
  first : h.firstChunk = (freeAddrs bs).headD 0
  links : Links (getNext h.mem) (getPrev h.mem) 0 (freeAddrs bs) 0

/-- The headers of live blocks hold their sizes. -/
def LiveSizes (bs : List Block) (m : Mem) : Prop :=
  ∀ b ∈ bs, b.free = false → getSize m b.addr = b.size

/-- The tiling invariant of the heap. -/
structure TilingInv (bs : List Block) (h : Heap) : Prop extends Coherent bs h where
  live_sizes : LiveSizes bs h.mem
  merged : Merged bs

/-- The headers of live blocks hold null links. Allocation writes them, and
releasing a block into an empty list relies on them. -/
def LiveLinksNull (bs : List Block) (m : Mem) : Prop :=
  ∀ b ∈ bs, b.free = false → getNext m b.addr = 0 ∧ getPrev m b.addr = 0

/-- All that holds between the operations of a session: the tiling invariant,
null links in live headers, and a counter that agrees with the free blocks. -/
structure HeapInv (bs : List Block) (h : Heap) : Prop extends TilingInv bs h where
  live_links : LiveLinksNull bs h.mem
  accounting : h.freeMemory = freeTotal bs

/-- Every byte of a live block is the same in both memories. -/
def KeepsLive (bs : List Block) (m m' : Mem) : Prop :=
  ∀ b ∈ bs, b.free = false → ∀ x, b.addr ≤ x → x < b.finish → m' x = m x

section Fields

variable {m m' : Mem} {a : Nat}

theorem getPrev_lt : getPrev m a < 2 ^ 32 := load32_lt _ _

theorem getNext_lt : getNext m a < 2 ^ 32 := load32_lt _ _

theorem getPrev_congr (h : ∀ x, a ≤ x → x < a + 4 → m' x = m x) : getPrev m' a = getPrev m a :=
  load32_congr h

theorem getNext_congr (h : ∀ x, a + 4 ≤ x → x < a + 8 → m' x = m x) : getNext m' a = getNext m a :=
  load32_congr fun x hlo hhi => h x hlo (by omega)

theorem getSize_congr (h : ∀ x, a + 8 ≤ x → x < a + 12 → m' x = m x) : getSize m' a = getSize m a :=
  load32_congr fun x hlo hhi => h x hlo (by omega)

end Fields

variable {bs : List Block} {m m' : Mem} {cs : List Block} {a e : Nat}

theorem KeepsLive.trans {m'' : Mem} (h : KeepsLive bs m m') (h' : KeepsLive bs m' m'') :
    KeepsLive bs m m'' := fun b hb hlive x hlo hhi =>
  (h' b hb hlive x hlo hhi).trans (h b hb hlive x hlo hhi)

theorem KeepsLive.mono (h : KeepsLive bs m m') (hsub : ∀ b ∈ cs, b.free = false → b ∈ bs) :
    KeepsLive cs m m' := fun b hb hlive =>
  h b (hsub b hb hlive) hlive

theorem LiveSizes.of_keeps (h : LiveSizes bs m) (hkeep : KeepsLive cs m m')
    (hsub : ∀ b ∈ cs, b.free = false → b ∈ bs) :
    LiveSizes cs m' := by
  intro b hb hlive
  have hbytes := hkeep b hb hlive
  unfold Block.finish at hbytes
  rw [getSize_congr fun x hlo hhi => hbytes x (by omega) (by omega)]
  exact h b (hsub b hb hlive) hlive

theorem LiveLinksNull.of_keeps (h : LiveLinksNull bs m) (hkeep : KeepsLive cs m m')
    (hsub : ∀ b ∈ cs, b.free = false → b ∈ bs) : LiveLinksNull cs m' := by
  intro b hb hlive
  obtain ⟨hnext, hprev⟩ := h b (hsub b hb hlive) hlive
  have hbytes := hkeep b hb hlive
  unfold Block.finish at hbytes
  constructor
  · rw [getNext_congr fun x hlo hhi => hbytes x (by omega) (by omega), hnext]
  · rw [getPrev_congr fun x hlo hhi => hbytes x (by omega) (by omega), hprev]

namespace Coherent

variable {bs left mid right : List Block} {h : Heap}

section

variable (hc : Coherent bs h) {b : Block} {m' : Mem}

include hc

theorem block_bounds (hb : b ∈ bs) :
    h.memoryStartAddress ≤ b.addr ∧ b.addr + 12 + b.size ≤ h.memoryEndAddress :=
  hc.partition.block_bounds hb

theorem bounds (hb : b ∈ bs) :
    0 < h.memoryStartAddress ∧ h.memoryStartAddress ≤ b.addr ∧
      b.addr + 12 + b.size ≤ h.memoryEndAddress ∧
      h.memoryEndAddress < 2 ^ 32 :=
  ⟨hc.start_pos, (hc.block_bounds hb).1, (hc.block_bounds hb).2, hc.end_lt⟩

theorem sub_payload (hb : b ∈ bs) : sub32 b.payload HEADER_SIZE = b.addr := by
  have hend := hc.end_lt
  have hbounds := hc.block_bounds hb
  unfold Block.payload HEADER_SIZE
  rw [sub32_eq (by omega) (by omega), Nat.add_sub_cancel]

theorem withFreeMemory (freeMemory : Nat) : Coherent bs { h with freeMemory := freeMemory } :=
  ⟨hc.start_pos, hc.end_lt, hc.partition, hc.sizes, hc.first, hc.links⟩

theorem of_free_eq {bs' : List Block}
    (hpartition : Partition h.memoryStartAddress bs' h.memoryEndAddress)
    (hfree : bs'.filter (·.free) = bs.filter (·.free)) : Coherent bs' h where
  start_pos := hc.start_pos
  end_lt := hc.end_lt
  partition := hpartition
  sizes b hb hbfree := by
    have hmem : b ∈ bs.filter (·.free) := hfree ▸ mem_filter.mpr ⟨hb, hbfree⟩
    exact hc.sizes b (mem_filter.mp hmem).1 hbfree
  first := by rw [hc.first, freeAddrs, freeAddrs, hfree]
  links := by
    rw [freeAddrs, hfree]
    exact hc.links

theorem of_headers
    (hkeep : ∀ b ∈ bs, b.free = true → ∀ x, b.addr ≤ x → x < b.addr + 12 → m' x = h.mem x) :
    Coherent bs { h with mem := m' } where
  start_pos := hc.start_pos
  end_lt := hc.end_lt
  partition := hc.partition
  sizes b hb hfree := by
    rw [← hc.sizes b hb hfree]
    exact getSize_congr fun x hlo hhi => hkeep b hb hfree x (by omega) (by omega)
  first := hc.first
  links := by
    refine hc.links.congr ?_ ?_
    · intro x hx
      obtain ⟨b, hb, hfree, rfl⟩ := mem_freeAddrs.mp hx
      exact getNext_congr fun y hlo hhi => hkeep b hb hfree y (by omega) (by omega)
    · intro x hx
      obtain ⟨b, hb, hfree, rfl⟩ := mem_freeAddrs.mp hx
      exact getPrev_congr fun y hlo hhi => hkeep b hb hfree y (by omega) (by omega)

theorem of_live_bytes (hb : b ∈ bs) (hlive : b.free = false)
    (hkeep : ∀ x, x < b.addr ∨ b.finish ≤ x → m' x = h.mem x) :
    Coherent bs { h with mem := m' } := by
  have hsep : ∀ c ∈ bs, c.free = true → ∀ x, c.addr ≤ x → x < c.addr + 12 → m' x = h.mem x := by
    intro c hmem hfree x hlo hhi
    refine hkeep x ?_
    unfold Block.finish
    rcases hc.partition.header_cases hb hmem with heq | hsep
    · exact absurd (heq ▸ mem_freeAddrs.mpr ⟨c, hmem, hfree, rfl⟩)
        (hc.partition.live_not_mem hb hlive)
    · omega
  exact hc.of_headers hsep

end

theorem mid_bounds (hc : Coherent (left ++ mid ++ right) h) :
    ∃ lo hi, Partition h.memoryStartAddress left lo ∧ Partition lo mid hi ∧
      Partition hi right h.memoryEndAddress := by
  obtain ⟨hi, hleft, hright⟩ := tiles_append.mp hc.partition
  obtain ⟨lo, hl, hm⟩ := tiles_append.mp hleft
  exact ⟨lo, hi, hl, hm, hright⟩

theorem around {b : Block} (hc : Coherent (left ++ [b] ++ right) h) :
    Partition h.memoryStartAddress left b.addr ∧ b.addr < b.finish ∧
      Partition b.finish right h.memoryEndAddress := by
  obtain ⟨lo, hi, hleft, ⟨rfl, hlt, rfl⟩, hright⟩ := hc.mid_bounds
  exact ⟨hleft, hlt, hright⟩

end Coherent

def lastFree (bs : List Block) : Nat := (freeAddrs bs).getLastD 0

def firstFree (bs : List Block) : Nat := (freeAddrs bs).headD 0

theorem Partition.lastFree_cases (h : Partition a bs e) : (freeAddrs bs = [] ∧ lastFree bs = 0) ∨
      (lastFree bs ∈ freeAddrs bs ∧ a ≤ lastFree bs ∧ lastFree bs + 12 ≤ e) := by
  rcases getLastD_mem_or_eq 0 (freeAddrs bs) with hmem | hnil
  · exact .inr ⟨hmem, h.freeAddr_bounds hmem⟩
  · exact .inl ⟨hnil, by unfold lastFree; rw [hnil]; rfl⟩

theorem Partition.firstFree_cases (h : Partition a bs e) : (freeAddrs bs = [] ∧ firstFree bs = 0) ∨
      (firstFree bs ∈ freeAddrs bs ∧ a ≤ firstFree bs ∧ firstFree bs + 12 ≤ e) := by
  rcases headD_mem_or_eq 0 (freeAddrs bs) with hmem | hnil
  · exact .inr ⟨hmem, h.freeAddr_bounds hmem⟩
  · exact .inl ⟨hnil, by unfold firstFree; rw [hnil]; rfl⟩

theorem Partition.lastFree_eq_zero_iff (h : Partition a bs e) (ha : 0 < a) :
    lastFree bs = 0 ↔ freeAddrs bs = [] := by
  rcases h.lastFree_cases with ⟨hnil, hnull⟩ | ⟨hmem, hlow, _⟩
  · exact iff_of_true hnull hnil
  · exact iff_of_false (by omega) (ne_nil_of_mem hmem)

theorem Partition.firstFree_eq_zero_iff (h : Partition a bs e) (ha : 0 < a) :
    firstFree bs = 0 ↔ freeAddrs bs = [] := by
  rcases h.firstFree_cases with ⟨hnil, hnull⟩ | ⟨hmem, hlow, _⟩
  · exact iff_of_true hnull hnil
  · exact iff_of_false (by omega) (ne_nil_of_mem hmem)

/-! Every operation of the allocator replaces a few neighbouring blocks by others
and redirects the two links that lead into them from outside. -/

/-- `h'` differs from `h` in the bytes from `lo` to `hi`, in the `next` field
of the last free header of `left` and in the `prev` field of the first free
header of `right`. -/
structure Patched (left right : List Block) (lo hi : Nat) (h h' : Heap) : Prop where
  start_eq : h'.memoryStartAddress = h.memoryStartAddress
  end_eq : h'.memoryEndAddress = h.memoryEndAddress
  keep : ∀ x, (x < lo ∨ hi ≤ x) →
    (lastFree left = 0 ∨ x < lastFree left + 4 ∨ lastFree left + 8 ≤ x) →
    (firstFree right = 0 ∨ x < firstFree right ∨ firstFree right + 4 ≤ x) →
    h'.mem x = h.mem x

namespace Patched

variable {left right : List Block} {lo hi : Nat} {h h' : Heap}

theorem within (hp : Patched left right lo hi h h') {h'' : Heap}
    (hstart : h''.memoryStartAddress = h'.memoryStartAddress)
    (hend : h''.memoryEndAddress = h'.memoryEndAddress)
    (hkeep : ∀ x, (x < lo ∨ hi ≤ x) → h''.mem x = h'.mem x) :
    Patched left right lo hi h h'' :=
  ⟨hstart.trans hp.start_eq, hend.trans hp.end_eq, fun x hout hlast hhead =>
    (hkeep x hout).trans (hp.keep x hout hlast hhead)⟩

section

variable (hp : Patched left right lo hi h h') (hleft : Partition h.memoryStartAddress left lo)
  (hle : lo ≤ hi) (hright : Partition hi right h.memoryEndAddress) {b : Block} {x : Nat}

include hp hleft hle hright

theorem header_left (hb : b ∈ left) (hlo : b.addr ≤ x) (hhi : x < b.finish)
    (hfield : b.addr ∈ freeAddrs left → b.addr = lastFree left → x < b.addr + 4 ∨ b.addr + 8 ≤ x) :
    h'.mem x = h.mem x := by
  have hbounds := hleft.block_bounds hb
  unfold Block.finish at hhi
  refine hp.keep x (by omega) ?_ ?_
  · rcases hleft.lastFree_cases with ⟨_, hnull⟩ | ⟨hmem, _, _⟩
    · exact .inl hnull
    · obtain ⟨c, hc, _, haddr⟩ := mem_freeAddrs.mp hmem
      rcases hleft.header_cases hb hc with heq | hsep
      · have := hfield (heq.trans haddr ▸ hmem) (heq.trans haddr)
        omega
      · omega
  · rcases hright.firstFree_cases with ⟨_, hnull⟩ | ⟨_, hlow, _⟩
    · exact .inl hnull
    · omega

theorem header_right (hb : b ∈ right) (hlo : b.addr ≤ x) (hhi : x < b.finish)
    (hfield : b.addr ∈ freeAddrs right → b.addr = firstFree right → b.addr + 4 ≤ x) :
    h'.mem x = h.mem x := by
  have hbounds := hright.block_bounds hb
  unfold Block.finish at hhi
  refine hp.keep x (by omega) ?_ ?_
  · rcases hleft.lastFree_cases with ⟨_, hnull⟩ | ⟨_, _, hhigh⟩
    · exact .inl hnull
    · omega
  · rcases hright.firstFree_cases with ⟨_, hnull⟩ | ⟨hmem, _, _⟩
    · exact .inl hnull
    · obtain ⟨c, hc, _, haddr⟩ := mem_freeAddrs.mp hmem
      rcases hright.header_cases hb hc with heq | hsep
      · have := hfield (heq.trans haddr ▸ hmem) (heq.trans haddr)
        omega
      · omega

theorem keepsLive : KeepsLive (left ++ right) h.mem h'.mem := by
  intro b hb hlive x hlo hhi
  rcases mem_append.mp hb with hb | hb
  · exact hp.header_left hleft hle hright hb hlo hhi fun hmem =>
      absurd hmem (hleft.live_not_mem hb hlive)
  · exact hp.header_right hleft hle hright hb hlo hhi fun hmem =>
      absurd hmem (hright.live_not_mem hb hlive)

end

end Patched

/-- Replacing `mid` by `mid'`. Apart from the bytes between them, the two
neighbouring links and the new headers decide whether the result is coherent. -/
theorem Coherent.edit {left mid mid' right : List Block} {lo hi : Nat} {h h' : Heap}
    (hc : Coherent (left ++ mid ++ right) h) (hp : Patched left right lo hi h h')
    (hleft : Partition h.memoryStartAddress left lo) (hmid' : Partition lo mid' hi)
    (hright : Partition hi right h.memoryEndAddress)
    (hsizes : ∀ b ∈ mid', b.free = true → getSize h'.mem b.addr = b.size)
    (hlinks : Links (getNext h'.mem) (getPrev h'.mem) (lastFree left) (freeAddrs mid')
        (firstFree right))
    (hlast : lastFree left ≠ 0 →
        getNext h'.mem (lastFree left) = (freeAddrs mid').headD (firstFree right))
    (hhead : firstFree right ≠ 0 →
        getPrev h'.mem (firstFree right) = (freeAddrs mid').getLastD (lastFree left))
    (hfirst : h'.firstChunk = if lastFree left = 0 then (freeAddrs mid').headD (firstFree right)
        else h.firstChunk) :
    Coherent (left ++ mid' ++ right) h' := by
  have hle : lo ≤ hi := Tiles.le hmid'
  have hstart := hc.start_pos
  have hpartition : Partition h.memoryStartAddress (left ++ mid' ++ right) h.memoryEndAddress :=
    tiles_append.mpr ⟨hi, tiles_append.mpr ⟨lo, hleft, hmid'⟩, hright⟩
  have hnodup : (freeAddrs left ++ freeAddrs right).Nodup := by
    have hall := hc.partition.freeAddrs_nodup
    simp only [freeAddrs_append, append_assoc] at hall
    exact hall.sublist ((Sublist.refl _).append (sublist_append_right _ _))
  have hpos : 0 < hi := lt_of_lt_of_le hstart (le_trans (Tiles.le hleft) hle)
  have hlast_iff := hleft.lastFree_eq_zero_iff hstart
  have hfirst_iff := hright.firstFree_eq_zero_iff hpos
  have hkeep_left := fun {b : Block} (hb : b ∈ left) {x : Nat} =>
    hp.header_left hleft hle hright hb (x := x)
  have hkeep_right := fun {b : Block} (hb : b ∈ right) {x : Nat} =>
    hp.header_right hleft hle hright hb (x := x)
  unfold Block.finish at hkeep_left hkeep_right
  refine ⟨?_, ?_, ?_, ?_, ?_, ?_⟩
  · rw [hp.start_eq]
    exact hstart
  · rw [hp.end_eq]
    exact hc.end_lt
  · rw [hp.start_eq, hp.end_eq]
    exact hpartition
  · intro b hb hfree
    simp only [mem_append] at hb
    rcases hb with (hb | hb) | hb
    · rw [← hc.sizes b (by simp [hb]) hfree]
      exact getSize_congr fun x _ _ =>
        hkeep_left hb (by omega) (by omega) (fun _ _ => by omega)
    · exact hsizes b hb hfree
    · rw [← hc.sizes b (by simp [hb]) hfree]
      exact getSize_congr fun x _ _ =>
        hkeep_right hb (by omega) (by omega) (fun _ _ => by omega)
  · rw [hfirst, hc.first]
    simp only [freeAddrs_append, headD_append]
    cases hnil : freeAddrs left with
    | nil =>
      rw [if_pos (hlast_iff.mpr hnil)]
      rfl
    | cons x xs =>
      rw [if_neg (mt hlast_iff.mp (by rw [hnil]; exact cons_ne_nil x xs))]
      rfl
  · have hold := hc.links
    simp only [freeAddrs_append] at hold ⊢
    refine hold.splice hnodup hlinks ?_ ?_ (fun hne => hlast (mt hlast_iff.mp hne)) ?_ ?_
      (fun hne => hhead (mt hfirst_iff.mp hne))
    · intro x hx
      obtain ⟨b, hb, _, rfl⟩ := mem_freeAddrs.mp hx
      exact getPrev_congr fun x _ _ =>
        hkeep_left hb (by omega) (by omega) (fun _ _ => by omega)
    · intro x hx hne
      obtain ⟨b, hb, _, rfl⟩ := mem_freeAddrs.mp hx
      exact getNext_congr fun x _ _ =>
        hkeep_left hb (by omega) (by omega) (fun _ heq => absurd heq hne)
    · intro x hx
      obtain ⟨b, hb, _, rfl⟩ := mem_freeAddrs.mp hx
      exact getNext_congr fun x _ _ =>
        hkeep_right hb (by omega) (by omega) (fun _ _ => by omega)
    · intro x hx hne
      obtain ⟨b, hb, _, rfl⟩ := mem_freeAddrs.mp hx
      exact getPrev_congr fun x _ _ =>
        hkeep_right hb (by omega) (by omega) (fun _ heq => absurd heq hne)

end HuyaOS.FreeListMemoryManager
