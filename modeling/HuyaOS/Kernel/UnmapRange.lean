import HuyaOS.Lib.Bytes
import HuyaOS.MemoryUtil

/-!
The range form of `Management::unmap`. It rounds the given byte range inwards
to whole pages and hands the pages one by one to the single-page form, until
three calls in a row found no mapping. What the single-page form returns
depends on the page directory and the frame allocator, so the answers are a
parameter here: `response i` is the result of the `i`-th call.
-/

namespace HuyaOS.Management

open Lib

abbrev PAGESIZE : Nat := 0x1000

/-- The environment of one range unmap: the flag `Management::initialized`,
the results of the single-page calls, and the bytes that a page reads as once
it is touched again after it lost its frame. -/
structure Pager where
  initialized : Bool
  response : Nat → Nat
  contents : Mem

/-- The loop over the pages. The result lists each page passed to the
single-page unmap with the value it returned; `cnt` counts the pages found
absent in a row. -/
def unmapPages (response : Nat → Nat) (startVAddr : Nat) : Nat → Nat → Nat → List (Nat × Nat)
  | 0, _, _ => []
  | left + 1, i, cnt =>
      let ret := response i
      let cnt := if ret = 0 then cnt + 1 else 0
      (add32 startVAddr (i * PAGESIZE % 2 ^ 32), ret) ::
        if cnt = 3 then [] else unmapPages response startVAddr left (i + 1) cnt

def unmapStart (virtStartAddress : Nat) : Nat :=
  add32 (virtStartAddress &&& 0xFFFFF000) (if virtStartAddress % PAGESIZE ≠ 0 then PAGESIZE else 0)

/-- Last page of the range: the page before the one the end address cuts. -/
def unmapEnd (virtEndAddress : Nat) : Nat :=
  sub32 (virtEndAddress &&& 0xFFFFF000) (if add32 virtEndAddress 1 % PAGESIZE ≠ 0 then
    PAGESIZE else 0)

/-- `Management::unmap(virtStartAddress, virtEndAddress)`, with the calls it
makes to the single-page form. -/
def unmapCalls (response : Nat → Nat) (virtStartAddress virtEndAddress : Nat) : List (Nat × Nat) :=
  let startVAddr := unmapStart virtStartAddress
  let endVAddr := unmapEnd virtEndAddress
  if endVAddr < virtStartAddress then []
  else unmapPages response startVAddr (sub32 endVAddr startVAddr / PAGESIZE + 1) 0 0

/-- Memory after the calls: a page whose frame was given back reads as the
pager says. -/
def discard (contents : Mem) (calls : List (Nat × Nat)) (m : Mem) : Mem :=
  calls.foldl (fun m call => if call.2 = 0 then m else overlay m call.1 PAGESIZE contents) m

theorem and_pageMask {x : Nat} (hx : x < 2 ^ 32) : x &&& 0xFFFFF000 = x / 4096 * 4096 :=
  MemoryUtil.and_mask (k := 12) hx (by norm_num)

theorem mem_unmapPages {response : Nat → Nat} {startVAddr left i cnt : Nat}
    {call : Nat × Nat} (h : call ∈ unmapPages response startVAddr left i cnt) :
    ∃ j, i ≤ j ∧ j < i + left ∧ call.1 = add32 startVAddr (j * PAGESIZE % 2 ^ 32) := by
  induction left generalizing i cnt with
  | zero => simp [unmapPages] at h
  | succ left ih =>
    simp only [unmapPages, List.mem_cons] at h
    rcases h with rfl | hrest
    · exact ⟨i, by omega, by omega, rfl⟩
    · generalize (if response i = 0 then cnt + 1 else 0) = cnt' at hrest
      by_cases hstop : cnt' = 3
      · simp [hstop] at hrest
      · rw [if_neg hstop] at hrest
        obtain ⟨j, hlo, hhi, heq⟩ := ih hrest
        exact ⟨j, by omega, by omega, heq⟩

theorem length_unmapPages (response : Nat → Nat) (startVAddr left i cnt : Nat) :
    (unmapPages response startVAddr left i cnt).length ≤ left := by
  induction left generalizing i cnt with
  | zero => exact Nat.le_refl 0
  | succ left ih =>
    simp only [unmapPages, List.length_cons]
    generalize (if response i = 0 then cnt + 1 else 0) = cnt'
    apply Nat.succ_le_succ
    split
    · exact Nat.zero_le left
    · apply ih

theorem unmapStart_lt (first : Nat) : unmapStart first < 2 ^ 32 := add32_lt ..

theorem unmapEnd_lt (last : Nat) : unmapEnd last < 2 ^ 32 := sub32_lt ..

variable {first last : Nat}

theorem unmapStart_eq (hfirst : first ≤ 2 ^ 32 - PAGESIZE) :
    unmapStart first = (first + 4095) / 4096 * 4096 := by
  unfold unmapStart add32
  simp only [PAGESIZE] at hfirst ⊢
  rw [and_pageMask (by omega)]
  split <;> omega

section

variable (hlow : PAGESIZE ≤ last + 1) (hlast : last < 2 ^ 32)

include hlow hlast

theorem unmapEnd_eq : unmapEnd last = (last + 1) / 4096 * 4096 - 4096 := by
  unfold unmapEnd add32 sub32
  rw [and_pageMask hlast]
  simp only [PAGESIZE] at hlow ⊢
  split <;> omega

theorem unmap_bounds (hpage : first ≤ unmapEnd last) :
    first ≤ unmapStart first ∧ unmapStart first ≤ unmapEnd last ∧
      unmapEnd last + PAGESIZE ≤ last + 1 := by
  have hend := unmapEnd_eq hlow hlast
  simp only [PAGESIZE] at hlow ⊢
  have hstart : unmapStart first = (first + 4095) / 4096 * 4096 :=
    unmapStart_eq (by simp only [PAGESIZE]; omega)
  omega

theorem unmapCalls_inside {response : Nat → Nat} {call : Nat × Nat}
    (h : call ∈ unmapCalls response first last) :
    first ≤ call.1 ∧ call.1 + PAGESIZE ≤ last + 1 := by
  unfold unmapCalls at h
  simp only at h
  split at h
  · exact absurd h List.not_mem_nil
  · rename_i hge
    obtain ⟨hfirst, hstart, hend⟩ := unmap_bounds hlow hlast (not_lt.mp hge)
    obtain ⟨j, _, hj, heq⟩ := mem_unmapPages h
    rw [sub32_eq hstart (unmapEnd_lt last)] at hj
    unfold add32 at heq
    simp only [PAGESIZE] at heq hend hj ⊢
    omega

end

theorem length_unmapCalls (response : Nat → Nat) (hlow : PAGESIZE ≤ last + 1)
    (hlast : last < 2 ^ 32) :
    (unmapCalls response first last).length ≤ (last - first) / PAGESIZE + 1 := by
  unfold unmapCalls
  simp only
  split
  · exact Nat.zero_le _
  · rename_i hge
    obtain ⟨hfirst, hstart, hend⟩ := unmap_bounds hlow hlast (not_lt.mp hge)
    apply (length_unmapPages ..).trans
    apply Nat.succ_le_succ
    rw [sub32_eq hstart (unmapEnd_lt last)]
    apply Nat.div_le_div_right
    simp only [PAGESIZE] at hend
    omega

/-- Below the end of the first page the last page is taken to be that of the address space. -/
theorem unmapEnd_below (hlow : last + 1 < PAGESIZE) : unmapEnd last = 0xFFFFF000 := by
  unfold unmapEnd add32 sub32
  simp only [PAGESIZE] at hlow ⊢
  rw [and_pageMask (by omega)]
  split <;> omega

/-- The loop begins with the first page, whatever the check should have said. -/
theorem unmapCalls_below (response : Nat → Nat) (hle : first ≤ last) (hlow : last + 1 < PAGESIZE) :
    (unmapStart first, response 0) ∈ unmapCalls response first last := by
  unfold unmapCalls
  rw [unmapEnd_below hlow, if_neg (by simp only [PAGESIZE] at hlow; omega)]
  unfold unmapPages
  rw [Nat.zero_mul, add32_eq (unmapStart_lt first)]
  exact List.mem_cons_self

/-- The range form keeps to its range and to its number of pages, for every answer of the
single-page form, exactly if a whole page lies below the end of the range. -/
theorem unmap_stays_inside_iff (response : Nat → Nat) {first last : Nat} (hle : first ≤ last)
    (hlast : last < 2 ^ 32) :
    ((∀ call ∈ unmapCalls response first last, first ≤ call.1 ∧ call.1 + PAGESIZE ≤ last + 1) ∧
      (unmapCalls response first last).length ≤ (last - first) / PAGESIZE + 1) ↔
    PAGESIZE ≤ last + 1 := by
  constructor
  · rintro ⟨hinside, -⟩
    by_contra hlow
    have hcall := (hinside _ (unmapCalls_below response hle (not_le.mp hlow))).2
    omega
  · intro hlow
    exact ⟨fun call => unmapCalls_inside hlow hlast, length_unmapCalls response hlow hlast⟩

/-- A range with three whole pages in it. -/
theorem unmap_stays_inside_iff_pages :
    unmapCalls (fun _ => 1) 0x1800 0x58FF = [(0x2000, 1), (0x3000, 1), (0x4000, 1)] ∧
      (∀ call ∈ unmapCalls (fun _ => 1) 0x1800 0x58FF, 0x1800 ≤ call.1 ∧
        call.1 + PAGESIZE ≤ 0x58FF + 1) ∧
      (unmapCalls (fun _ => 1) 0x1800 0x58FF).length ≤ (0x58FF - 0x1800) / PAGESIZE + 1 :=
  ⟨by decide +kernel, (unmap_stays_inside_iff (fun _ => 1) (by decide) (by decide)).mpr (by decide)⟩

/-- The range of the first sixteen bytes. The page that holds them is handed over, and so are
the two behind it. -/
theorem unmap_leaves_first_page :
    unmapCalls (fun _ => 0) 0 15 = [(0, 0), (0x1000, 0), (0x2000, 0)] ∧
      ¬((∀ call ∈ unmapCalls (fun _ => 0) 0 15, 0 ≤ call.1 ∧ call.1 + PAGESIZE ≤ 15 + 1) ∧
        (unmapCalls (fun _ => 0) 0 15).length ≤ (15 - 0) / PAGESIZE + 1) := by
  decide +kernel

theorem discard_of_outside {contents m : Mem} {calls : List (Nat × Nat)} {x : Nat}
    (h : ∀ call ∈ calls, x < call.1 ∨ call.1 + PAGESIZE ≤ x) :
    discard contents calls m x = m x := by
  unfold discard
  induction calls generalizing m with
  | nil => rfl
  | cons call calls ih =>
    rw [List.foldl_cons, ih (fun c hc => h c (by simp [hc]))]
    split
    · rfl
    · exact overlay_of_outside (h call (by simp))

end HuyaOS.Management
