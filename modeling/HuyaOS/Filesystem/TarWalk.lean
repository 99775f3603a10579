import HuyaOS.Filesystem.TarArchive
import HuyaOS.Lib.Pursuit

/-!
`Archive::from` on an image whose headers hold anything. The loop goes to where the size in a
header sends it. It knows neither the length of the image nor the headers it has seen: a
size close to 2^32 sends it back, and it may go round in a circle or leave the image.
-/

namespace HuyaOS.Filesystem.Tar

open Lib

/-- An image of `n` bytes in memory, the last block of which is zero. -/
structure Image (memory : Mem) (start n : Nat) : Prop where
  block_le : BLOCKSIZE ≤ n
  fits : start + n ≤ 2 ^ 32
  terminator : bytesAt memory (start + n - BLOCKSIZE) BLOCKSIZE = List.replicate BLOCKSIZE 0

/-- A header lies in an image. -/
def inImage (start n header : Nat) : Bool :=
  decide (start ≤ header ∧ header + BLOCKSIZE ≤ start + n)

namespace Archive

variable {rounds addr start n header : Nat} {tar : Archive}

section

variable (memory : Mem)

def nextHeader (header : Nat) : Nat :=
  advance header (calculateSize (sizeField memory header)).toNat

def isTerminator (header : Nat) : Bool := byteAt memory header == 0

/-- The headers that `from` looks at, the last one of which ends the loop. -/
def headersRead (rounds address : Nat) : List Nat :=
  visited (nextHeader memory) (isTerminator memory) rounds address

/-- From header to header, the sizes lead to a terminator of the image in less steps than it
has blocks. -/
def chainEnds (start n : Nat) : Bool :=
  endsWithin (nextHeader memory) (isTerminator memory) (inImage start n) (n / BLOCKSIZE) start

end

variable {memory : Mem}

theorem fromLoop_succ (rounds addr : Nat) (tar : Archive) :
    fromLoop memory (rounds + 1) addr tar = if isTerminator memory addr then .ok tar else
      fromLoop memory rounds (nextHeader memory addr)
        (tar.addHeader memory addr (calculateSize (sizeField memory addr)).toNat) := by
  simp only [fromLoop, isTerminator, nextHeader, beq_iff_eq]

theorem headersRead_succ (rounds addr : Nat) :
    headersRead memory (rounds + 1) addr =
      addr :: if isTerminator memory addr then []
        else headersRead memory rounds (nextHeader memory addr) :=
  rfl

theorem fromLoop_returns_iff :
    (∃ tar', fromLoop memory rounds addr tar = .ok tar') ↔
      endsWithin (nextHeader memory) (isTerminator memory) (fun _ => true) rounds addr = true := by
  induction rounds generalizing addr tar with
  | zero => exact iff_of_false (fun ⟨tar', h⟩ => nomatch h) Bool.false_ne_true
  | succ rounds ih =>
    rw [fromLoop_succ, endsWithin, Bool.true_and]
    cases isTerminator memory addr with
    | true => exact iff_of_true ⟨tar, rfl⟩ (Bool.true_or _)
    | false =>
      exact ih

theorem fromLoop_headersRead {tar' : Archive} (h : fromLoop memory rounds addr tar = .ok tar') :
    ∃ last, isTerminator memory last = true ∧
      tar.headers.toArray ++ headersRead memory rounds addr = tar'.headers.toArray ++ [last] := by
  induction rounds generalizing addr tar with
  | zero => cases h
  | succ rounds ih =>
    rw [fromLoop_succ] at h
    rw [headersRead_succ]
    cases hend : isTerminator memory addr with
    | true =>
      rw [hend, if_pos rfl, Except.ok.injEq] at h
      rw [h]
      exact ⟨addr, hend, rfl⟩
    | false =>
      rw [hend] at h
      obtain ⟨last, hlast, heq⟩ := ih h
      rw [addHeader, ArrayList.toArray_add, List.append_assoc] at heq
      exact ⟨last, hlast, heq⟩

theorem nextHeader_mod (header : Nat) : nextHeader memory header % 512 = header % 512 := by
  unfold nextHeader advance BLOCKSIZE
  dsimp only
  split <;> omega

theorem iterate_nextHeader_mod (start k : Nat) :
    (nextHeader memory)^[k] start % 512 = start % 512 := by
  induction k with
  | zero => rfl
  | succ k ih => rw [Function.iterate_succ_apply', nextHeader_mod, ih]

def blocks (start n : Nat) : Finset Nat :=
  (Finset.range (n / BLOCKSIZE)).image fun i => start + i * BLOCKSIZE

theorem card_blocks_le (start n : Nat) : (blocks start n).card ≤ n / BLOCKSIZE :=
  Finset.card_image_le.trans_eq (Finset.card_range _)

theorem mem_blocks (hinside : inImage start n header = true)
    (hmod : header % 512 = start % 512) : header ∈ blocks start n := by
  obtain ⟨hle, hend⟩ := of_decide_eq_true hinside
  refine Finset.mem_image.mpr ⟨(header - start) / BLOCKSIZE, Finset.mem_range.mpr ?_, ?_⟩
  all_goals
    unfold BLOCKSIZE at *
    omega

theorem endsWithin_of_sizes (hfits : start + n ≤ 2 ^ 32)
    (hsizes : ∀ header ∈ blocks start n, isTerminator memory header = false →
        header + (1 + ((calculateSize (sizeField memory header)).toNat + 511) / 512) * 512 + 512 ≤
        start + n)
    (hinside : inImage start n header = true) (hmod : header % 512 = start % 512)
    (hrounds : (start + n - header) / 512 ≤ rounds) :
    endsWithin (nextHeader memory) (isTerminator memory) (inImage start n) rounds header =
      true := by
  have hbounds := of_decide_eq_true hinside
  rw [BLOCKSIZE] at hbounds
  induction rounds generalizing header with
  | zero => omega
  | succ rounds ih =>
    rw [endsWithin, hinside]
    cases hend : isTerminator memory header with
    | true => rfl
    | false =>
      have hsize := hsizes header (mem_blocks hinside hmod) hend
      have hnext : nextHeader memory header = _ := advance_of_lt (by omega)
      generalize (calculateSize (sizeField memory header)).toNat = size at hsize hnext
      have hbounds' : start ≤ nextHeader memory header ∧
          nextHeader memory header + 512 ≤ start + n := by omega
      exact ih (decide_eq_true hbounds') ((nextHeader_mod header).trans hmod) (by omega) hbounds'

/-- On an image whose last block is zero, `from` returns and looks only at headers in the image
exactly if the sizes lead from header to header to a terminator in the image in less steps
than it has blocks. That is so if each size stays in front of the last block. The headers
looked at are those of the archive and the terminator. -/
theorem from_stays_in_image_iff (image : Image memory start n) :
    (((∃ rounds tar, fromAddress memory rounds start = .ok tar) ∧
        ∀ rounds, ∀ header ∈ headersRead memory rounds start, inImage start n header = true) ↔
      chainEnds memory start n = true) ∧
    ((∀ header ∈ blocks start n, isTerminator memory header = false →
        header + (1 + ((calculateSize (sizeField memory header)).toNat + 511) / 512) * 512 + 512 ≤
          start + n) →
      chainEnds memory start n = true) ∧
    ∀ rounds tar, fromAddress memory rounds start = .ok tar →
      ∃ last, isTerminator memory last = true ∧ headersRead memory rounds start =
        tar.headers.toArray ++ [last] := by
  have hnew : new.headers.toArray = [] := rfl
  refine ⟨?_, fun hsizes => ?_, fun rounds tar hfrom => ?_⟩
  · have hreturns : (∃ rounds tar, fromAddress memory rounds start = .ok tar) ↔
        ∃ k, isTerminator memory ((nextHeader memory)^[k] start) = true := by
      simp only [fromAddress, fromLoop_returns_iff, endsWithin_iff, implies_true, and_true]
      exact ⟨fun ⟨_, k, _, hstop⟩ => ⟨k, hstop⟩, fun ⟨k, hstop⟩ =>
        ⟨k + 1, k, Nat.lt_succ_self k, hstop⟩⟩
    rw [hreturns]
    apply ends_inside_iff (card_blocks_le start n)
    intro k hinside
    exact mem_blocks (hinside k le_rfl) (iterate_nextHeader_mod start k)
  · have hinside : inImage start n start = true :=
      decide_eq_true ⟨le_rfl, Nat.add_le_add_left image.block_le start⟩
    apply endsWithin_of_sizes image.fits hsizes hinside rfl
    rw [BLOCKSIZE, Nat.add_sub_cancel_left]
  · obtain ⟨last, hlast, hread⟩ := fromLoop_headersRead hfrom
    exact ⟨last, hlast, hread⟩

/-- The image of the two files ends with its fourth block. -/
theorem from_stays_in_image_iff_twoFiles :
    Image twoFilesMemory 4096 2048 ∧ chainEnds twoFilesMemory 4096 2048 = true ∧
      (∃ rounds tar, fromAddress twoFilesMemory rounds 4096 = .ok tar) ∧
      ∀ rounds, ∀ header ∈ headersRead twoFilesMemory rounds 4096,
        inImage 4096 2048 header = true := by
  have himage : Image twoFilesMemory 4096 2048 :=
    ⟨by decide, by decide, bytesAt_memoryOf_behind (by decide +kernel) (by decide)⟩
  have hends : chainEnds twoFilesMemory 4096 2048 = true := by decide +kernel
  exact ⟨himage, hends, (from_stays_in_image_iff himage).1.mpr hends⟩

/-- A header whose size has the digits 37777777000, which sends the loop back to the header. -/
def circleMemory : Mem := memoryOf (headerBlock [102] [51, 55, 55, 55, 55, 55, 55, 55, 48, 48, 48])

/-- A header with the size 8192 in an image of two blocks. -/
def outsideMemory : Mem := memoryOf (headerBlock [102] [48, 48, 48, 48, 48, 48, 50, 48, 48, 48, 48])

/-- On one image the loop does not end, on another it looks at a header behind the image. -/
theorem from_circles_or_leaves :
    (Image circleMemory 4096 1024 ∧
      ∀ rounds, fromAddress circleMemory rounds 4096 = .error .endlessLoop) ∧
    Image outsideMemory 4096 1024 ∧ headersRead outsideMemory 2 4096 = [4096, 12800] ∧
      inImage 4096 1024 12800 = false := by
  have hheader : isTerminator circleMemory 4096 = false := by decide +kernel
  have hnext : nextHeader circleMemory 4096 = 4096 := by decide +kernel
  have hloop : ∀ rounds tar, fromLoop circleMemory rounds 4096 tar = .error .endlessLoop := by
    intro rounds
    induction rounds with
    | zero => exact fun tar => rfl
    | succ rounds ih =>
      intro tar
      rw [fromLoop_succ, hheader, hnext]
      apply ih
  have hread : headersRead outsideMemory 2 4096 = [4096, 12800] := by decide +kernel
  refine ⟨⟨⟨by decide, by decide, ?_⟩, fun rounds => hloop rounds new⟩,
    ⟨by decide, by decide, ?_⟩, hread, rfl⟩
  all_goals exact bytesAt_memoryOf_behind (by decide +kernel) (by decide)

end Archive

end HuyaOS.Filesystem.Tar
