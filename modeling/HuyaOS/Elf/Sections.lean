import HuyaOS.Elf.Relocation

/-!
Where `ElfModule::loadSections` places the sections of an object file. A section without
contents has an offset like the others, but no bytes in the file.
-/

namespace HuyaOS.Elf

open Lib

def SectionHeaderType.NOBITS : Nat := 0x08

/-- Ranges of addresses without a byte in common. Addresses have 32 bits. -/
def RangesApart (a n b m : Nat) : Prop := ∀ i < n, ∀ j < m, add32 a i ≠ add32 b j

theorem rangesApart_iff (a n b m : Nat) :
    RangesApart a n b m ↔ n = 0 ∨ m = 0 ∨ n ≤ sub32 b a ∧ m ≤ sub32 a b := by
  constructor
  · intro h
    by_contra hnot
    simp only [not_or, not_and_or, not_le] at hnot
    obtain ⟨hn, hm, hinside | hinside⟩ := hnot
    · refine h _ hinside 0 (by omega) ?_
      unfold add32 sub32
      omega
    · refine h 0 (by omega) _ hinside ?_
      unfold add32 sub32
      omega
  · intro h i hi j hj heq
    unfold add32 at heq
    unfold sub32 at h
    omega

namespace Image

variable (image : Image)

/-- A relation between any two sections that have a place in memory. -/
def ForPairs (P : Nat → Nat → Prop) : Prop :=
  ∀ i < image.entries, ∀ j < image.entries, i ≠ j → Loads image.mem image.base i →
    Loads image.mem image.base j → P i j

instance (P : Nat → Nat → Prop) [∀ i j, Decidable (P i j)] : Decidable (image.ForPairs P) :=
  inferInstanceAs (Decidable (∀ i < _, ∀ j < _, _ → _ → _ → P i j))

def SectionsApart (m : Mem) : Prop := image.ForPairs fun i j =>
  RangesApart (headerOf m image.base i).virtualAddress (headerOf m image.base i).size
    (headerOf m image.base j).virtualAddress (headerOf m image.base j).size

def HasBss (i j : Nat) : Prop :=
  (image.header i).type = SectionHeaderType.NOBITS ∨
    (image.header j).type = SectionHeaderType.NOBITS

/-- The contents of two sections are at different places in a file of at most 4 GiB. -/
def ContentsApart (i j : Nat) : Prop :=
  (image.header i).size = 0 ∨ (image.header j).size = 0 ∨
    ((image.header i).offset + (image.header i).size ≤ (image.header j).offset ∧
      (image.header j).offset + (image.header j).size ≤ 2 ^ 32) ∨
    ((image.header j).offset + (image.header j).size ≤ (image.header i).offset ∧
      (image.header i).offset + (image.header i).size ≤ 2 ^ 32)

/-- From the offset of either section to that of the other one there are as many bytes as its
size, counted modulo 2 ^ 32, unless one of them is empty. -/
def OffsetsLeaveRoom (i j : Nat) : Prop :=
  (image.header i).size = 0 ∨ (image.header j).size = 0 ∨
    (image.header i).size ≤ sub32 (image.header j).offset (image.header i).offset ∧
      (image.header j).size ≤ sub32 (image.header i).offset (image.header j).offset

instance (i j : Nat) : Decidable (image.HasBss i j) := inferInstanceAs (Decidable (_ ∨ _))

instance (i j : Nat) : Decidable (image.ContentsApart i j) :=
  inferInstanceAs (Decidable (_ ∨ _ ∨ _ ∨ _))

instance (i j : Nat) : Decidable (image.OffsetsLeaveRoom i j) :=
  inferInstanceAs (Decidable (_ ∨ _ ∨ _))

theorem headerOf_loaded {i : Nat} (hi : i < image.entries)
    (hloads : Loads image.mem image.base i) : headerOf image.loaded image.base i =
      { image.header i with virtualAddress := loadAddress image.mem image.base i } := by
  unfold headerOf loaded
  rw [image.sectionHeaderAt_loadedUpTo le_rfl, image.header_loadedUpTo le_rfl hi,
    if_pos ⟨hi, hloads⟩]

/-- All sections are moved by the same distance. -/
theorem sectionsApart_loaded :
    image.SectionsApart image.loaded ↔ image.ForPairs image.OffsetsLeaveRoom := by
  refine forall₂_congr fun i hi => forall₂_congr fun j hj =>
    forall₃_congr fun _ hloads hloads' => ?_
  have hmoved : ∀ x y, sub32 (add32 image.base x) (add32 image.base y) = sub32 x y := by
    intro x y
    unfold sub32 add32
    omega
  simp only [image.headerOf_loaded hi hloads, image.headerOf_loaded hj hloads', rangesApart_iff,
    loadAddress, hmoved]
  rfl

theorem leaveRoom_of_contentsApart {i j : Nat} (h : image.ContentsApart i j) :
    image.OffsetsLeaveRoom i j := by
  unfold ContentsApart at h
  unfold OffsetsLeaveRoom sub32
  omega

/-- Sections with contents at different places in the file. Then no two sections overlap in
memory if and only if the offsets leave room for the sections without contents. -/
theorem loadSections_apart_iff (garbage : Nat)
    (hcontents : image.ForPairs fun i j => ¬image.HasBss i j → image.ContentsApart i j) :
    ∃ m elf, ElfModule.loadSections image.mem
        ((ElfModule.new image.base garbage).loadSectionNames image.mem) = .ok (m, elf) ∧
      (image.SectionsApart m ↔
        image.ForPairs fun i j => image.HasBss i j → image.OffsetsLeaveRoom i j) := by
  obtain ⟨elf, hcall, -⟩ := image.loadSections_spec garbage
  refine ⟨_, elf, hcall, ?_⟩
  rw [image.sectionsApart_loaded]
  refine forall₂_congr fun i hi => forall₂_congr fun j hj =>
    forall₃_congr fun hne hloads hloads' => ?_
  refine ⟨fun h _ => h, fun h => (em _).elim h fun hbss => ?_⟩
  exact image.leaveRoom_of_contentsApart (hcontents i hi j hj hne hloads hloads' hbss)

theorem loadSections_apart_iff_twoFunctions :
    ∃ m elf, ElfModule.loadSections (twoFunctions false).mem
        ((ElfModule.new (twoFunctions false).base 0).loadSectionNames (twoFunctions false).mem) =
          .ok (m, elf) ∧
      (twoFunctions false).SectionsApart m := by
  obtain ⟨m, elf, hcall, hiff⟩ := (twoFunctions false).loadSections_apart_iff 0 (by decide +kernel)
  exact ⟨m, elf, hcall, hiff.mpr (by decide +kernel)⟩

/-- The two functions, and a section of 64 bytes with the offset of the code and no contents. -/
def withBss : Image := by
  apply Image.mk (fun a => UInt8.ofNat (((twoFunctionsWords false).set 12 0x00050007 ++
    [31, 8, 3, 0, 52, 64, 0, 0, 4, 0]).getD ((a - 0x100000) / 4) 0 >>> (8 * (a % 4)))) 0x100000 3 4
  all_goals decide +kernel

theorem withBss_overlaps :
    (withBss.ForPairs fun i j => ¬withBss.HasBss i j → withBss.ContentsApart i j) ∧
    ∃ elf, ElfModule.loadSections withBss.mem
        ((ElfModule.new withBss.base 0).loadSectionNames withBss.mem) = .ok (withBss.loaded, elf) ∧
      ¬withBss.SectionsApart withBss.loaded := by
  obtain ⟨elf, hcall, -⟩ := withBss.loadSections_spec 0
  refine ⟨by decide +kernel, elf, hcall, ?_⟩
  rw [sectionsApart_loaded]
  decide +kernel

end Image

end HuyaOS.Elf
