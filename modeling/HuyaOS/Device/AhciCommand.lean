import HuyaOS.Device.AhciController

/-!
The scatter list of `AhciController::ahci_rw`. The buffer of a transfer has pages that
follow one another in virtual memory; the list gives the adapter the frame of each page
and the number of bytes in it. Its entries are behind the first 128 bytes of the command
table, for which `rebasePort` has 256 bytes.
-/

namespace HuyaOS.Ahci

open Lib List
open Management (PAGESIZE)

/-- An entry of the list, with its offset in the command table. -/
structure PrdtEntry where
  offset : Nat
  dba : Nat
  dbc : Nat
  i : Nat

def commandTableSize : Nat := 256

def prdtl (count : Nat) : Nat := (if count % 8 = 0 then count / 8 else count / 8 + 1) % 2 ^ 16

section Entries

variable (io : Areas) (virtAddress : Nat)

/-- `prdt_entry[i]`, with a byte count of 22 bits. -/
def prdtEntry (i dbc : Nat) : PrdtEntry where
  offset := 128 + 16 * i
  dba := io.getPhysicalAddress (add32 virtAddress (i * PAGESIZE))
  dbc := dbc % 2 ^ 22
  i := 0

/-- The body of the loop: the entries so far and the sectors that are left, in 16 bits. -/
def fillPage (filled : List PrdtEntry × Nat) (i : Nat) : List PrdtEntry × Nat :=
  (filled.1 ++ [prdtEntry io virtAddress i (4 * 1024 - 1)], (filled.2 + 2 ^ 16 - 8) % 2 ^ 16)

def prdtEntries (count : Nat) : List PrdtEntry :=
  let rounds := sub32 (prdtl count) 1
  let filled := (List.range rounds).foldl (fillPage io virtAddress) ([], count)
  filled.1 ++ [prdtEntry io virtAddress rounds (sub32 (filled.2 <<< 9) 1)]

end Entries

namespace PrdtEntry

/-- The bytes of physical memory that the adapter transfers for the entry. -/
def bytes (e : PrdtEntry) : List Nat := (List.range (e.dbc + 1)).map (e.dba + ·)

def WithinPage (e : PrdtEntry) : Prop := e.dba % PAGESIZE + e.dbc < PAGESIZE

def WithinTable (e : PrdtEntry) : Prop := e.offset + 16 ≤ commandTableSize

end PrdtEntry

/-- The entries describe the bytes of the buffer in order, each those of one page. -/
structure Describes (io : Areas) (virtAddress count : Nat) (entries : List PrdtEntry) : Prop where
  length : entries.length = prdtl count
  bytes : entries.flatMap PrdtEntry.bytes = (List.range (count * 512)).map fun k =>
    io.physical (virtAddress + k)
  sum : (entries.map (·.dbc + 1)).sum = count * 512
  pages : ∀ e ∈ entries, e.WithinPage

section Transfer

variable {io : Areas} {virtAddress count n : Nat} {i size : Nat}

theorem foldl_fillPage (hn : 8 * n ≤ count) (hcount : count < 2 ^ 16) :
    (List.range n).foldl (fillPage io virtAddress) ([], count) =
      ((List.range n).map fun i => prdtEntry io virtAddress i (PAGESIZE - 1), count - 8 * n) := by
  induction n with
  | zero => rfl
  | succ n ih =>
    rw [range_succ, foldl_append, ih (by omega), map_append]
    simp only [foldl_cons, foldl_nil, fillPage, map_cons, map_nil, Prod.mk.injEq]
    exact ⟨trivial, by omega⟩

theorem exists_rounds (hpos : 0 < count) (hcount : count < 2 ^ 16) :
    ∃ n, prdtl count = n + 1 ∧ 8 * n < count ∧ count ≤ 8 * (n + 1) := by
  refine ⟨(count - 1) / 8, ?_, by omega, by omega⟩
  unfold prdtl
  split_ifs <;> omega

theorem prdtEntries_eq (hcount : count < 2 ^ 16) (hprdtl : prdtl count = n + 1)
    (hlo : 8 * n < count) (hhi : count ≤ 8 * (n + 1)) :
    prdtEntries io virtAddress count =
      ((List.range n).map fun i => prdtEntry io virtAddress i (PAGESIZE - 1)) ++
      [prdtEntry io virtAddress n ((count - 8 * n) * 512 - 1)] := by
  have hrounds : sub32 (prdtl count) 1 = n := by
    rw [hprdtl, sub32_eq (by omega) (by omega), Nat.add_sub_cancel]
  have hlast : sub32 ((count - 8 * n) <<< 9) 1 = (count - 8 * n) * 512 - 1 := by
    have hbytes : (count - 8 * n) <<< 9 = (count - 8 * n) * 512 := Nat.shiftLeft_eq ..
    rw [hbytes, sub32_eq (by omega) (by omega)]
  simp only [prdtEntries, hrounds, foldl_fillPage hlo.le hcount, hlast]

theorem bytes_prdtEntry (haligned : virtAddress % PAGESIZE = 0)
    (hlt : virtAddress + i * PAGESIZE < 2 ^ 32) (hpos : 0 < size) (hsize : size ≤ PAGESIZE) :
    (prdtEntry io virtAddress i (size - 1)).bytes =
      (List.range size).map fun k => io.physical (virtAddress + (i * PAGESIZE + k)) := by
  have hdbc : (size - 1) % 2 ^ 22 + 1 = size := by simp only [PAGESIZE] at hsize; omega
  have hpage : (virtAddress + i * PAGESIZE) % PAGESIZE = 0 := by rwa [Nat.add_mul_mod_self_right]
  simp only [PrdtEntry.bytes, prdtEntry, hdbc, add32_eq hlt]
  apply map_congr_left
  intro k hk
  rw [← Nat.add_assoc, physical_add hpage (lt_of_lt_of_le (mem_range.mp hk) hsize)]

theorem withinPage_prdtEntry (hframes : ∀ page, io.frame page % PAGESIZE = 0) (hpos : 0 < size)
    (hsize : size ≤ PAGESIZE) : (prdtEntry io virtAddress i (size - 1)).WithinPage := by
  have haligned := hframes (add32 virtAddress (i * PAGESIZE) / PAGESIZE)
  simp only [PrdtEntry.WithinPage, prdtEntry, Areas.getPhysicalAddress, haligned, PAGESIZE] at *
  omega

theorem flatMap_pages (haligned : virtAddress % PAGESIZE = 0)
    (hlt : virtAddress + n * PAGESIZE ≤ 2 ^ 32) :
    ((List.range n).map fun i => prdtEntry io virtAddress i (PAGESIZE - 1)).flatMap
      PrdtEntry.bytes =
      (List.range (n * PAGESIZE)).map fun k => io.physical (virtAddress + k) := by
  induction n with
  | zero => rfl
  | succ n ih =>
    have hnext : virtAddress + n * PAGESIZE < 2 ^ 32 := by simp only [PAGESIZE] at *; omega
    have hpages : (n + 1) * PAGESIZE = n * PAGESIZE + PAGESIZE := Nat.succ_mul ..
    rw [range_succ, map_append, flatMap_append, ih hnext.le, hpages, range_add,
      map_append, map_map, map_singleton, flatMap_singleton,
      bytes_prdtEntry haligned hnext (by decide) le_rfl]
    simp only [Function.comp_def]

/-- Every transfer is described page by page. -/
theorem prdtEntries_describes (hframes : ∀ page, io.frame page % PAGESIZE = 0) (hpos : 0 < count)
    (hcount : count < 2 ^ 16) (haligned : virtAddress % PAGESIZE = 0)
    (hbuffer : virtAddress + count * 512 ≤ 2 ^ 32) :
    Describes io virtAddress count (prdtEntries io virtAddress count) := by
  obtain ⟨n, hprdtl, hlo, hhi⟩ := exists_rounds hpos hcount
  have heq : prdtEntries io virtAddress count = _ := prdtEntries_eq hcount hprdtl hlo hhi
  have hrest : 0 < (count - 8 * n) * 512 ∧ (count - 8 * n) * 512 ≤ PAGESIZE := by
    simp only [PAGESIZE]; omega
  have hlast : virtAddress + n * PAGESIZE < 2 ^ 32 := by simp only [PAGESIZE]; omega
  have hsplit : count * 512 = n * PAGESIZE + (count - 8 * n) * 512 := by simp only [PAGESIZE]; omega
  have hbytes : (prdtEntries io virtAddress count).flatMap PrdtEntry.bytes =
      (range (count * 512)).map fun k => io.physical (virtAddress + k) := by
    rw [heq, flatMap_append, flatMap_pages haligned hlast.le, hsplit, range_add, map_append,
      map_map, flatMap_singleton, bytes_prdtEntry haligned hlast hrest.1 hrest.2]
    simp only [Function.comp_def]
  refine ⟨?_, hbytes, ?_, ?_⟩
  · rw [heq, length_append, length_map, length_range, length_singleton, hprdtl]
  · have hlength := congrArg length hbytes
    simp only [length_flatMap, PrdtEntry.bytes, length_map, length_range] at hlength
    exact hlength
  · intro e he
    rw [heq, mem_append, mem_singleton, mem_map] at he
    rcases he with ⟨i, _, rfl⟩ | rfl
    · exact withinPage_prdtEntry hframes (by decide) le_rfl
    · exact withinPage_prdtEntry hframes hrest.1 hrest.2

theorem prdtEntries_withinTable_iff (hpos : 0 < count) (hcount : count < 2 ^ 16) :
    (∀ e ∈ prdtEntries io virtAddress count, e.WithinTable) ↔ count ≤ 64 := by
  obtain ⟨n, hprdtl, hlo, hhi⟩ := exists_rounds hpos hcount
  rw [prdtEntries_eq hcount hprdtl hlo hhi]
  constructor
  · intro hwithin
    have hlast := hwithin _ (mem_append_right _ (mem_singleton_self _))
    simp only [PrdtEntry.WithinTable, prdtEntry, commandTableSize] at hlast
    omega
  · intro hfew e he
    rw [mem_append, mem_singleton, mem_map] at he
    simp only [PrdtEntry.WithinTable, commandTableSize]
    rcases he with ⟨i, hi, rfl⟩ | rfl
    · have hlt := mem_range.mp hi
      simp only [prdtEntry]
      omega
    · simp only [prdtEntry]
      omega

/-- The entries of a transfer describe its buffer page by page within the command table if
and only if there are no more than 64 sectors. -/
theorem scatterList_iff (hframes : ∀ page, io.frame page % PAGESIZE = 0) (hpos : 0 < count)
    (hcount : count ≤ 65535) (haligned : virtAddress % PAGESIZE = 0)
    (hbuffer : virtAddress + count * 512 * 2 ≤ 2 ^ 32) :
    Describes io virtAddress count (prdtEntries io virtAddress count) ∧
      (∀ e ∈ prdtEntries io virtAddress count, e.WithinTable) ↔ count ≤ 64 := by
  have hdescribes := prdtEntries_describes hframes hpos (by omega) haligned (by omega)
  rw [prdtEntries_withinTable_iff hpos (by omega)]
  exact and_iff_right hdescribes

/-- Nine sectors on two pages. -/
theorem scatterList_iff_nineSectors :
    Describes exampleAreas 0x5000 9 (prdtEntries exampleAreas 0x5000 9) ∧
      ∀ e ∈ prdtEntries exampleAreas 0x5000 9, e.WithinTable :=
  (scatterList_iff exampleAreas_separate.aligned (by decide) (by decide) (by decide)
    (by decide)).mpr (by decide)

/-- With 65 sectors the ninth entry lies in the table of the next slot. -/
theorem sixtyFiveSectors_overflow :
    ¬(Describes exampleAreas 0x5000 65 (prdtEntries exampleAreas 0x5000 65) ∧
      ∀ e ∈ prdtEntries exampleAreas 0x5000 65, e.WithinTable) := by
  rintro ⟨-, hwithin⟩
  exact absurd ((prdtEntries_withinTable_iff (by decide) (by decide)).mp hwithin) (by decide)

end Transfer

end HuyaOS.Ahci
