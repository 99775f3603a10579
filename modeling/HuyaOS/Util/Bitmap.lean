import Mathlib.Tactic
import Mathlib.Order.Interval.Finset.Nat

/-!
`Bitmap`, a set of block numbers kept in an array of 32-bit words. Block `n` is
bit `31 - n % 32` of word `n / 32`. Blocks beyond the size are never read or
written, so the array is a function here and its length is left out.
-/

namespace HuyaOS

open Finset

structure Bitmap where
  bitmap : Nat → BitVec 32
  blocks : Nat

namespace Bitmap

def new (blockCount : Nat) : Bitmap := ⟨fun _ => 0, blockCount⟩

def bitOf (block : Nat) : BitVec 32 := 1#32 <<< (31 - block % 32)

variable (b : Bitmap)

def update (block : Nat) (f : BitVec 32 → BitVec 32) : Bitmap :=
  { b with bitmap := Function.update b.bitmap (block / 32) (f (b.bitmap (block / 32))) }

def set (block : Nat) : Bitmap :=
  if b.blocks ≤ block then b else b.update block (· ||| bitOf block)

def unset (block : Nat) : Bitmap :=
  if b.blocks ≤ block then b else b.update block (· &&& ~~~bitOf block)

def check (block : Nat) (set : Bool) : Bool :=
  if b.blocks ≤ block then false
  else if set then b.bitmap (block / 32) &&& bitOf block != 0#32
  else b.bitmap (block / 32) &&& bitOf block == 0#32

/-- The loop of `setRange` for the remaining `left` blocks from `block` on. -/
def setRange (b : Bitmap) (block : Nat) : Nat → Bitmap
  | 0 => b
  | left + 1 => if b.blocks ≤ block then b else (b.set block).setRange (block + 1) left

/-- The loop of `findNext` over the remaining `left` blocks from `i` on. -/
def findNextLoop (b : Bitmap) (set : Bool) : Nat → Nat → Nat
  | 0, _ => b.blocks
  | left + 1, i => if b.check i set then i else findNextLoop b set left (i + 1)

def findNext (startBlock : Nat) (set : Bool) : Nat :=
  findNextLoop b set (b.blocks - startBlock) startBlock

/-- The loop of `findAndSet`. Every round moves past at least one block, so as
many rounds as there are blocks left are enough. -/
def findAndSetLoop (b : Bitmap) (blockCount : Nat) : Nat → Nat → Nat × Bitmap
  | 0, _ => (b.blocks, b)
  | left + 1, currentBlock =>
      if currentBlock < b.blocks then
        let nextSet := b.findNext currentBlock true
        if blockCount ≤ nextSet - currentBlock then
          (currentBlock, b.setRange currentBlock blockCount)
        else findAndSetLoop b blockCount left (b.findNext nextSet false)
      else (b.blocks, b)

def findAndSet (blockCount : Nat) : Nat × Bitmap :=
  findAndSetLoop b blockCount b.blocks 0

/-- Whether a block is set; blocks beyond the size are not. -/
def isSet (block : Nat) : Bool := b.check block true

/-- The bit of a block as it is in its word. The last word also has bits of blocks beyond the
size. -/
def bitAt (block : Nat) : Bool := (b.bitmap (block / 32)).getLsbD (31 - block % 32)

variable {b} {i j n : Nat}

theorem bitOf_eq_twoPow (block : Nat) : bitOf block = BitVec.twoPow 32 (31 - block % 32) := rfl

theorem and_bitOf_eq_zero (w : BitVec 32) (block : Nat) :
    (w &&& bitOf block == 0#32) = !w.getLsbD (31 - block % 32) := by
  rw [bitOf_eq_twoPow, BitVec.and_twoPow]
  have hne : BitVec.twoPow 32 (31 - block % 32) ≠ 0#32 := by
    intro hzero
    have hbit := BitVec.getLsbD_twoPow (w := 32) (31 - block % 32) (31 - block % 32)
    rw [hzero] at hbit
    simp at hbit
    omega
  cases w.getLsbD (31 - block % 32) with
  | false => simp
  | true => simpa using hne

theorem isSet_eq :
    b.isSet i = (decide (i < b.blocks) && (b.bitmap (i / 32)).getLsbD (31 - i % 32)) := by
  unfold isSet check
  by_cases hi : b.blocks ≤ i
  · simp [hi, not_lt.mpr hi]
  · simp only [hi, if_false, if_true, bne, and_bitOf_eq_zero, Bool.not_not, not_le.mp hi,
      decide_true, Bool.true_and]

theorem check_false_eq : b.check i false = (decide (i < b.blocks) && !b.isSet i) := by
  rw [isSet_eq]
  unfold check
  by_cases hi : b.blocks ≤ i
  · simp [hi, not_lt.mpr hi]
  · simp [hi, not_le.mp hi, and_bitOf_eq_zero]

theorem lt_of_isSet (h : b.isSet i = true) : i < b.blocks := by
  rw [isSet_eq, Bool.and_eq_true, decide_eq_true_iff] at h
  exact h.1

@[simp] theorem blocks_set : (b.set i).blocks = b.blocks := by
  unfold set
  split <;> rfl

@[simp] theorem blocks_unset : (b.unset i).blocks = b.blocks := by
  unfold unset
  split <;> rfl

theorem bit_ne (hword : i / 32 = j / 32) (hne : i ≠ j) : 31 - i % 32 ≠ 31 - j % 32 := by
  omega

theorem getLsbD_bitOf (block k : Nat) : (bitOf block).getLsbD k = decide (k = 31 - block % 32) := by
  rw [bitOf_eq_twoPow]
  by_cases hk : 31 - block % 32 = k
  · simp [hk.symm]
    omega
  · simp [hk, Ne.symm hk]

theorem bitAt_set (hi : i < b.blocks) : (b.set i).bitAt j = (b.bitAt j || decide (j = i)) := by
  unfold set bitAt
  rw [if_neg (by omega)]
  by_cases hword : j / 32 = i / 32
  · simp only [update, hword, Function.update_self, BitVec.getLsbD_or, getLsbD_bitOf]
    by_cases hji : j = i
    · simp [hji]
    · simp [hji, bit_ne hword hji]
  · have hji : j ≠ i := fun heq => hword (by rw [heq])
    simp [update, Function.update_of_ne hword, hji]

theorem isSet_set (hi : i < b.blocks) : (b.set i).isSet j = (b.isSet j || decide (j = i)) := by
  rw [isSet_eq, isSet_eq]
  change (_ && (b.set i).bitAt j) = (_ && b.bitAt j || _)
  rw [bitAt_set hi]
  by_cases hji : j = i
  · simp [hji, hi]
  · simp [hji]

theorem bitAt_unset (hi : i < b.blocks) : (b.unset i).bitAt j = (b.bitAt j && decide (j ≠ i)) := by
  unfold unset bitAt
  rw [if_neg (by omega)]
  by_cases hword : j / 32 = i / 32
  · simp only [update, hword, Function.update_self, BitVec.getLsbD_and, BitVec.getLsbD_not,
      getLsbD_bitOf]
    by_cases hji : j = i
    · simp [hji]
    · have hbit : 31 - j % 32 < 32 := by omega
      simp [hji, bit_ne hword hji, hbit]
  · have hji : j ≠ i := fun heq => hword (by rw [heq])
    simp [update, Function.update_of_ne hword, hji]

theorem isSet_unset : (b.unset i).isSet j = (b.isSet j && decide (j ≠ i)) := by
  rw [isSet_eq, isSet_eq, blocks_unset]
  change (_ && (b.unset i).bitAt j) = (_ && b.bitAt j && _)
  by_cases hi : i < b.blocks
  · rw [bitAt_unset hi, Bool.and_assoc]
  · rw [unset, if_pos (by omega)]
    by_cases hji : j = i
    · simp [hji, hi]
    · simp [hji]

theorem eq_of_bitAt {b' : Bitmap} (hblocks : b.blocks = b'.blocks)
    (hbits : ∀ j, b.bitAt j = b'.bitAt j) : b = b' := by
  obtain ⟨words, blocks⟩ := b
  obtain ⟨words', blocks'⟩ := b'
  obtain rfl : blocks = blocks' := hblocks
  have hwords : words = words' := by
    funext w
    apply BitVec.eq_of_getLsbD_eq
    intro i hi
    have hbit := hbits (32 * w + (31 - i))
    unfold bitAt at hbit
    rwa [show (32 * w + (31 - i)) / 32 = w by omega,
      show 31 - (32 * w + (31 - i)) % 32 = i by omega] at hbit
  rw [hwords]

@[simp] theorem isSet_new : (new n).isSet i = false := by
  simp [isSet_eq, new]

@[simp] theorem blocks_new : (new n).blocks = n := rfl

@[simp] theorem blocks_setRange : (b.setRange i n).blocks = b.blocks := by
  induction n generalizing b i with
  | zero => rfl
  | succ n ih =>
    unfold setRange
    split
    · rfl
    · rw [ih, blocks_set]

theorem isSet_setRange : (b.setRange i n).isSet j =
    (b.isSet j || (decide (i ≤ j) && decide (j < i + n) && decide (j < b.blocks))) := by
  induction n generalizing b i with
  | zero =>
    have hnone : ¬(i ≤ j ∧ j < i + 0) := by omega
    simp only [setRange, ← Bool.decide_and, hnone, decide_false, Bool.false_and, Bool.or_false]
  | succ n ih =>
    unfold setRange
    split
    · have hnone : ¬((i ≤ j ∧ j < i + (n + 1)) ∧ j < b.blocks) := by omega
      simp [← Bool.decide_and, hnone]
    · rw [ih, isSet_set (by omega), blocks_set, Bool.or_assoc, ← Bool.decide_and,
        ← Bool.decide_and, ← Bool.decide_or, ← Bool.decide_and, ← Bool.decide_and]
      have hrange : (j = i ∨ (i + 1 ≤ j ∧ j < i + 1 + n) ∧ j < b.blocks) ↔
          (i ≤ j ∧ j < i + (n + 1)) ∧ j < b.blocks := by omega
      rw [decide_eq_decide.mpr hrange]

/-- A range that exists changes its own bits and no others, whatever word they are in. -/
theorem bitAt_setRange (hrange : i + n ≤ b.blocks) :
    (b.setRange i n).bitAt j = (b.bitAt j || decide (i ≤ j ∧ j < i + n)) := by
  induction n generalizing b i with
  | zero =>
    have hnone : ¬(i ≤ j ∧ j < i + 0) := by omega
    simp only [setRange, hnone, decide_false, Bool.or_false]
  | succ n ih =>
    have hrest : i + 1 + n ≤ (b.set i).blocks := by
      rw [blocks_set]
      omega
    have hsplit : (j = i ∨ i + 1 ≤ j ∧ j < i + 1 + n) ↔ i ≤ j ∧ j < i + (n + 1) := by omega
    unfold setRange
    rw [if_neg (by omega), ih hrest, bitAt_set (by omega), Bool.or_assoc, ← Bool.decide_or,
      decide_eq_decide.mpr hsplit]

theorem findNextLoop_spec (set : Bool) {left : Nat} (hleft : i + left = b.blocks) :
    i ≤ findNextLoop b set left i ∧ findNextLoop b set left i ≤ b.blocks ∧
      (∀ k, i ≤ k → k < findNextLoop b set left i → b.check k set = false) ∧
      (findNextLoop b set left i < b.blocks → b.check (findNextLoop b set left i) set = true) := by
  induction left generalizing i with
  | zero =>
    unfold findNextLoop
    exact ⟨by omega, le_refl _, fun k _ _ => by omega, fun hlt => by omega⟩
  | succ left ih =>
    unfold findNextLoop
    split
    · rename_i hcheck
      exact ⟨le_refl _, by omega, fun k _ _ => by omega, fun _ => hcheck⟩
    · rename_i hcheck
      obtain ⟨hlo, hhi, hskip, hstop⟩ := ih (i := i + 1) (by omega)
      refine ⟨by omega, hhi, ?_, hstop⟩
      intro k hk hklt
      by_cases hki : k = i
      · rw [hki]
        simpa using hcheck
      · exact hskip k (by omega) hklt

theorem findNext_true (hi : i ≤ b.blocks) :
    i ≤ b.findNext i true ∧ b.findNext i true ≤ b.blocks ∧
      (∀ k, i ≤ k → k < b.findNext i true → b.isSet k = false) ∧
      (b.findNext i true < b.blocks → b.isSet (b.findNext i true) = true) :=
  findNextLoop_spec true (by omega)

theorem findNext_false (hi : i ≤ b.blocks) :
    i ≤ b.findNext i false ∧ b.findNext i false ≤ b.blocks ∧
      (∀ k, i ≤ k → k < b.findNext i false → b.isSet k = true) ∧
      (b.findNext i false < b.blocks → b.isSet (b.findNext i false) = false) := by
  obtain ⟨hlo, hhi, hskip, hstop⟩ := @findNextLoop_spec b i false (b.blocks - i) (by omega)
  refine ⟨hlo, hhi, ?_, ?_⟩
  · intro k hk hklt
    have hclear := hskip k hk hklt
    have hlt : k < b.blocks := lt_of_lt_of_le hklt hhi
    rw [check_false_eq] at hclear
    simpa [hlt] using hclear
  · intro hlt
    have hclear := hstop hlt
    rw [check_false_eq, Bool.and_eq_true, Bool.not_eq_true'] at hclear
    exact hclear.2

/-- `n` blocks from `i` on exist and are all clear. -/
def FreeRun (b : Bitmap) (i n : Nat) : Prop :=
  i + n ≤ b.blocks ∧ ∀ k, i ≤ k → k < i + n → b.isSet k = false

theorem not_freeRun_of_short (hn : 0 < n) (hi : i < b.blocks) (hshort : b.findNext i true - i < n)
    (hij : i ≤ j) (hj : j < b.findNext (b.findNext i true) false) : ¬b.FreeRun j n := by
  rintro ⟨hend, hclear⟩
  obtain ⟨hlo, hhi, _, hset⟩ := findNext_true (le_of_lt hi)
  obtain ⟨_, hhi', hskip, _⟩ := findNext_false hhi
  by_cases hpast : j < b.findNext i true
  · -- the run would contain the set block that ends the gap
    have hclear' := hclear (b.findNext i true) (by omega) (by omega)
    rw [hset (by omega)] at hclear'
    cases hclear'
  · have hset' := hskip j (by omega) hj
    rw [hclear j (le_refl _) (by omega)] at hset'
    cases hset'

/-- The loop finds the first free run, provided there is none before the block
it starts at. -/
theorem findAndSetLoop_spec (hn : 0 < n) {left : Nat} (hleft : b.blocks ≤ i + left)
    (hi : i ≤ b.blocks) (hbefore : ∀ k < i, ¬b.FreeRun k n) :
    (∃ k, b.FreeRun k n ∧ (∀ k' < k, ¬b.FreeRun k' n) ∧
      findAndSetLoop b n left i = (k, b.setRange k n)) ∨
    ((∀ k, ¬b.FreeRun k n) ∧ findAndSetLoop b n left i = (b.blocks, b)) := by
  have hexit : b.blocks ≤ i → ∀ k, ¬b.FreeRun k n := by
    intro hend k hrun
    have := hrun.1
    exact hbefore k (by omega) hrun
  induction left generalizing i with
  | zero => exact .inr ⟨hexit (by omega), rfl⟩
  | succ left ih =>
    unfold findAndSetLoop
    split
    · rename_i hlt
      obtain ⟨hlo, hhi, hgap, hset⟩ := findNext_true hi
      obtain ⟨hlo', hhi', _, _⟩ := findNext_false hhi
      simp only
      split
      · refine .inl ⟨i, ⟨by omega, ?_⟩, hbefore, rfl⟩
        intro k hk hklt
        exact hgap k hk (by omega)
      · have hmove : i < b.findNext (b.findNext i true) false := by
          by_contra hstay
          have hclear := (findNext_false hhi).2.2.2 (by omega)
          have heq : b.findNext (b.findNext i true) false = b.findNext i true := by omega
          rw [heq, hset (by omega)] at hclear
          cases hclear
        have hbefore' : ∀ k < b.findNext (b.findNext i true) false, ¬b.FreeRun k n := by
          intro k hk
          by_cases hki : k < i
          · exact hbefore k hki
          · exact not_freeRun_of_short hn hlt (by omega) (by omega) hk
        apply ih (by omega) hhi' hbefore'
        intro hend k hrun
        have := hrun.1
        exact hbefore' k (by omega) hrun
    · exact .inr ⟨hexit (by omega), rfl⟩

theorem findAndSet_spec (b : Bitmap) (hn : 0 < n) :
    (∃ k, b.FreeRun k n ∧ (∀ k' < k, ¬b.FreeRun k' n) ∧
      b.findAndSet n = (k, b.setRange k n)) ∨
    ((∀ k, ¬b.FreeRun k n) ∧ b.findAndSet n = (b.blocks, b)) :=
  findAndSetLoop_spec hn (by omega) (by omega) (fun k hk => by omega)

/-- Search and claim: the smallest run that is free is returned and set, down to the bits of
the words, or there is none and nothing changes. -/
theorem findAndSet_smallest (b : Bitmap) {blockCount : Nat} (hcount : 1 ≤ blockCount) :
    (∃ i, IsLeast {i | b.FreeRun i blockCount} i ∧ (b.findAndSet blockCount).1 = i ∧
      (b.findAndSet blockCount).2.blocks = b.blocks ∧
      ∀ j, (b.findAndSet blockCount).2.bitAt j =
        (b.bitAt j || decide (i ≤ j ∧ j < i + blockCount))) ∨
    ((∀ i, ¬b.FreeRun i blockCount) ∧ b.findAndSet blockCount = (b.blocks, b)) := by
  rcases b.findAndSet_spec hcount with ⟨i, hrun, hfirst, heq⟩ | hnone
  · refine .inl ⟨i, ⟨hrun, ?_⟩, ?_, ?_, ?_⟩
    · intro k hk
      by_contra hlt
      exact hfirst k (not_le.mp hlt) hk
    · rw [heq]
    · rw [heq, blocks_setRange]
    · intro j
      rw [heq, bitAt_setRange hrun.1]
  · exact .inr hnone

/-- Blocks 0 and 2 of ten are taken, and two blocks are wanted. -/
theorem findAndSet_smallest_gap :
    ((⟨fun _ => 0xA0000000#32, 10⟩ : Bitmap).findAndSet 2).1 = 3 ∧
      ((∃ i, IsLeast {i | (⟨fun _ => 0xA0000000#32, 10⟩ : Bitmap).FreeRun i 2} i ∧
        ((⟨fun _ => 0xA0000000#32, 10⟩ : Bitmap).findAndSet 2).1 = i ∧
        ((⟨fun _ => 0xA0000000#32, 10⟩ : Bitmap).findAndSet 2).2.blocks = 10 ∧
        ∀ j, ((⟨fun _ => 0xA0000000#32, 10⟩ : Bitmap).findAndSet 2).2.bitAt j =
          ((⟨fun _ => 0xA0000000#32, 10⟩ : Bitmap).bitAt j || decide (i ≤ j ∧ j < i + 2))) ∨
      ((∀ i, ¬(⟨fun _ => 0xA0000000#32, 10⟩ : Bitmap).FreeRun i 2) ∧
        (⟨fun _ => 0xA0000000#32, 10⟩ : Bitmap).findAndSet 2 =
          (10, ⟨fun _ => 0xA0000000#32, 10⟩))) :=
  ⟨by decide +kernel, findAndSet_smallest _ (by decide)⟩

/-- The numbers of the clear blocks. -/
def clear (b : Bitmap) : Finset Nat := (Finset.range b.blocks).filter fun i => b.isSet i = false

theorem mem_clear : i ∈ b.clear ↔ i < b.blocks ∧ b.isSet i = false := by
  simp [clear]

theorem mem_clear_iff : i ∈ b.clear ↔ i < b.blocks ∧ b.bitAt i = false := by
  rw [mem_clear, isSet_eq]
  refine and_congr_right fun hi => ?_
  rw [decide_eq_true hi, Bool.true_and]
  rfl

theorem clear_setRange (b : Bitmap) (i n : Nat) :
    (b.setRange i n).clear = b.clear \ Finset.Ico i (i + n) := by
  ext k
  simp only [mem_clear, blocks_setRange, isSet_setRange, mem_sdiff, mem_Ico,
    Bool.or_eq_false_iff, Bool.and_eq_false_iff, decide_eq_false_iff_not]
  constructor
  · rintro ⟨hlt, hclear, hout⟩
    exact ⟨⟨hlt, hclear⟩, by omega⟩
  · rintro ⟨⟨hlt, hclear⟩, hout⟩
    exact ⟨hlt, hclear, by omega⟩

theorem clear_unset (hi : i < b.blocks) : (b.unset i).clear = insert i b.clear := by
  ext k
  simp only [mem_clear, blocks_unset, isSet_unset, mem_insert, Bool.and_eq_false_iff,
    decide_eq_false_iff_not, not_not]
  constructor
  · rintro ⟨hlt, hclear | heq⟩
    · exact .inr ⟨hlt, hclear⟩
    · exact .inl heq
  · rintro (rfl | ⟨hlt, hclear⟩)
    · exact ⟨hi, .inr rfl⟩
    · exact ⟨hlt, .inl hclear⟩

theorem FreeRun.subset_clear (hrun : b.FreeRun i n) : Finset.Ico i (i + n) ⊆ b.clear := by
  intro k hk
  rw [mem_Ico] at hk
  exact mem_clear.mpr ⟨lt_of_lt_of_le hk.2 hrun.1, hrun.2 k hk.1 hk.2⟩

theorem FreeRun.card_clear (hrun : b.FreeRun i n) :
    (b.setRange i n).clear.card + n = b.clear.card := by
  have hsub := hrun.subset_clear
  have hcard := card_le_card hsub
  rw [clear_setRange, card_sdiff_of_subset hsub]
  rw [Nat.card_Ico] at hcard ⊢
  omega

theorem card_clear_le (b : Bitmap) : b.clear.card ≤ b.blocks := by
  have hcard := card_filter_le (range b.blocks) fun i => b.isSet i = false
  rwa [card_range] at hcard

end Bitmap

end HuyaOS
