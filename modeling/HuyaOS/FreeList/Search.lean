import HuyaOS.FreeList.Take

/-!
The search of `allocAlgorithm` over the list, as a choice among the blocks of
the layout: it stops at the first free block that is large enough and whose
payload is aligned, or that has room for an aligned block behind a minimal
chunk of its own.
-/

namespace HuyaOS.FreeListMemoryManager

open Lib MemoryUtil List

def Block.Aligned (alignment : Nat) (b : Block) : Prop :=
  add32 b.addr 12 = alignUp (add32 b.addr 12) alignment

instance (alignment : Nat) (b : Block) : Decidable (b.Aligned alignment) :=
  inferInstanceAs (Decidable (_ = _))

/-- The test of `allocAlgorithm` for cutting an aligned block out of `b`. -/
def Block.HasRoom (size alignment : Nat) (b : Block) : Prop :=
  add32 (add32 (alignedHeader b.addr alignment) 12) size ≤ add32 (add32 b.addr 12) b.size

instance (size alignment : Nat) (b : Block) : Decidable (b.HasRoom size alignment) :=
  inferInstanceAs (Decidable (_ ≤ _))

def Block.Usable (size alignment : Nat) (b : Block) : Prop :=
  b.free = true ∧ size ≤ b.size ∧ (b.Aligned alignment ∨ b.HasRoom size alignment)

instance (size alignment : Nat) (b : Block) : Decidable (b.Usable size alignment) :=
  inferInstanceAs (Decidable (_ ∧ _ ∧ _))

def choose (size alignment : Nat) (bs : List Block) : Option Block :=
  bs.find? (fun b => b.Usable size alignment)

/-- How the search reports the chosen block. -/
def report (alignment : Nat) : Option Block → Found
  | none => .none
  | some b =>
      if b.Aligned alignment then .fits b.addr
      else .carves b.addr (alignedHeader b.addr alignment)

@[simp] theorem aligned_zero (b : Block) : b.Aligned 0 := rfl

theorem usable_zero {size : Nat} {b : Block} : b.Usable size 0 ↔ b.free = true ∧ size ≤ b.size := by
  simp [Block.Usable]

section Loops

variable {m : Mem} {size alignment before : Nat} {bs : List Block}

theorem findNext_spec (size fuel : Nat)
    (hsizes : ∀ b ∈ bs, b.free = true → getSize m b.addr = b.size) (hpos : ∀ b ∈ bs, b.addr ≠ 0)
    (hlinks : Links (getNext m) (getPrev m) before (freeAddrs bs) 0)
    (hfuel : (freeAddrs bs).length < fuel) :
    ∃ skipped rest before', bs = skipped ++ rest ∧
      (∀ b ∈ skipped, b.free = true → b.size < size) ∧
      Links (getNext m) (getPrev m) before' (freeAddrs rest) 0 ∧
      findNext m size fuel ((freeAddrs bs).headD 0) = .ok ((freeAddrs rest).headD 0) := by
  induction bs generalizing before fuel with
  | nil =>
    cases fuel with
    | zero => simp at hfuel
    | succ fuel => exact ⟨[], [], before, rfl, by simp, trivial, by simp [findNext]⟩
  | cons b bs ih =>
    have hsizes' := fun c hc => hsizes c (mem_cons_of_mem b hc)
    have hpos' := fun c hc => hpos c (mem_cons_of_mem b hc)
    cases hfree : b.free with
    | false =>
      rw [freeAddrs_cons_live hfree] at hlinks hfuel ⊢
      obtain ⟨skipped, rest, before', heq, hsmall, hrest, hfind⟩ :=
        ih fuel hsizes' hpos' hlinks hfuel
      refine ⟨b :: skipped, rest, before', by rw [heq]; rfl, ?_, hrest, hfind⟩
      intro c hc hcfree
      rcases mem_cons.mp hc with rfl | hc
      · rw [hfree] at hcfree
        cases hcfree
      · exact hsmall c hc hcfree
    | true =>
      rw [freeAddrs_cons_free hfree] at hlinks hfuel ⊢
      obtain ⟨hprev, hnext, hrest⟩ := hlinks
      cases fuel with
      | zero => simp at hfuel
      | succ fuel =>
        simp only [headD_cons]
        unfold findNext
        rw [if_neg (hpos b (by simp)), hsizes b (by simp) hfree]
        by_cases hfits : size ≤ b.size
        · refine ⟨[], b :: bs, before, rfl, by simp, ?_, ?_⟩
          · rw [freeAddrs_cons_free hfree]
            exact ⟨hprev, hnext, hrest⟩
          · rw [if_pos hfits, freeAddrs_cons_free hfree]
            rfl
        · obtain ⟨skipped, rest, before', heq, hsmall, hlinks', hfind⟩ :=
            ih fuel hsizes' hpos' hrest (Nat.lt_of_succ_lt_succ hfuel)
          refine ⟨b :: skipped, rest, before', by rw [heq]; rfl, ?_, hlinks', ?_⟩
          · intro c hc hcfree
            rcases mem_cons.mp hc with rfl | hc
            · omega
            · exact hsmall c hc hcfree
          · rw [if_neg hfits, hnext]
            exact hfind

theorem choose_append_of_unusable {skipped rest : List Block}
    (hskip : ∀ b ∈ skipped, ¬b.Usable size alignment) :
    choose size alignment (skipped ++ rest) = choose size alignment rest := by
  unfold choose
  rw [find?_append, find?_eq_none.mpr, Option.none_or]
  intro b hb
  simpa using hskip b hb

theorem first_free_cases (bs : List Block) :
    (∀ b ∈ bs, b.free = false) ∨
      ∃ live b rest, bs = live ++ b :: rest ∧ (∀ c ∈ live, c.free = false) ∧ b.free = true := by
  induction bs with
  | nil => exact .inl (by simp)
  | cons b bs ih =>
    cases hfree : b.free with
    | true => exact .inr ⟨[], b, bs, rfl, by simp, hfree⟩
    | false =>
      rcases ih with hall | ⟨live, c, rest, rfl, hlive, hc⟩
      · refine .inl ?_
        simpa [hfree] using hall
      · refine .inr ⟨b :: live, c, rest, rfl, ?_, hc⟩
        simpa [hfree] using hlive

theorem freeAddrs_of_live (h : ∀ b ∈ bs, b.free = false) : freeAddrs bs = [] := by
  unfold freeAddrs
  rw [filter_eq_nil_iff.mpr, map_nil]
  intro b hb
  simp [h b hb]

theorem unusable_of_live {b : Block} (h : b.free = false) : ¬b.Usable size alignment := by
  simp [Block.Usable, h]

/-- The search loop finds the first usable block. -/
theorem allocSearch_spec {fuel : Nat}
    (hsizes : ∀ b ∈ bs, b.free = true → getSize m b.addr = b.size) (hpos : ∀ b ∈ bs, b.addr ≠ 0)
    (hlinks : Links (getNext m) (getPrev m) before (freeAddrs bs) 0)
    (hfuel : (freeAddrs bs).length < fuel) (hmax : (freeAddrs bs).length < 2 ^ 32) :
    allocSearch m size alignment fuel ((freeAddrs bs).headD 0) =
      .ok (report alignment (choose size alignment bs)) := by
  induction fuel generalizing bs before with
  | zero => omega
  | succ fuel ih =>
    rcases first_free_cases bs with hlive | ⟨live, b, rest, rfl, hlive, hfree⟩
    · have hnone : choose size alignment bs = none :=
        find?_eq_none.mpr fun b hb => by
          simpa using unusable_of_live (hlive b hb)
      rw [freeAddrs_of_live hlive, hnone]
      simp [allocSearch, report]
    · have hb : b ∈ live ++ b :: rest := by simp
      rw [choose_append_of_unusable fun c hc => unusable_of_live (hlive c hc)]
      rw [freeAddrs_append, freeAddrs_of_live hlive, nil_append,
        freeAddrs_cons_free hfree] at hlinks hfuel hmax ⊢
      obtain ⟨_, hnext, hrest⟩ := hlinks
      simp only [length_cons, headD_cons] at hfuel hmax ⊢
      unfold allocSearch
      rw [if_neg (hpos b hb), hsizes b hb hfree]
      change (if size ≤ b.size ∧ b.Aligned alignment then _
        else if size ≤ b.size ∧ b.HasRoom size alignment then _ else _) = _
      by_cases hfits : size ≤ b.size ∧ b.Aligned alignment
      · have hchoose : choose size alignment (b :: rest) = some b := by
          simp [choose, Block.Usable, hfree, hfits]
        rw [if_pos hfits, hchoose]
        simp [report, hfits.2]
      · rw [if_neg hfits]
        by_cases hroom : size ≤ b.size ∧ b.HasRoom size alignment
        · have haligned : ¬b.Aligned alignment := fun h => hfits ⟨hroom.1, h⟩
          have hchoose : choose size alignment (b :: rest) = some b := by
            simp [choose, Block.Usable, hfree, hroom]
          rw [if_pos hroom, hchoose]
          simp [report, haligned]
        · have hunusable : ¬b.Usable size alignment := by
            rintro ⟨_, hsize, haligned | hr⟩
            · exact hfits ⟨hsize, haligned⟩
            · exact hroom ⟨hsize, hr⟩
          rw [if_neg hroom]
          obtain ⟨skipped, rest', before', rfl, hsmall, hlinks', hfind⟩ :=
            findNext_spec size (2 ^ 32) (fun c hc => hsizes c (by simp [hc])) (fun c hc =>
              hpos c (by simp [hc]))
              hrest (by omega)
          have hskip : ∀ c ∈ b :: skipped, ¬c.Usable size alignment := by
            intro c hc husable
            rcases mem_cons.mp hc with rfl | hc
            · exact hunusable husable
            · have := hsmall c hc husable.1
              have := husable.2.1
              omega
          rw [show b :: (skipped ++ rest') = (b :: skipped) ++ rest' from rfl,
            choose_append_of_unusable hskip, hnext]
          rw [freeAddrs_append, length_append] at hfuel hmax
          have hrec := ih (fun c hc => hsizes c (by simp [hc]))
            (fun c hc => hpos c (by simp [hc])) hlinks' (by omega) (by omega)
          simp only [maxChunks, hfind]
          exact hrec

end Loops

theorem Coherent.allocSearch_eq {left bs : List Block} {h : Heap}
    (hc : Coherent (left ++ bs) h) (size alignment : Nat) :
    allocSearch h.mem size alignment (2 ^ 32) (firstFree bs) =
      .ok (report alignment (choose size alignment bs)) := by
  have hlinks := hc.links
  rw [freeAddrs_append, links_append] at hlinks
  have hlen := hc.partition.freeAddrs_length hc.end_lt
  rw [freeAddrs_append, length_append] at hlen
  have hstart := hc.start_pos
  refine allocSearch_spec (fun b hb => hc.sizes b (by simp [hb])) ?_ hlinks.2 (by omega) (by omega)
  intro b hb
  have := hc.block_bounds (b := b) (by simp [hb])
  omega

end HuyaOS.FreeListMemoryManager
