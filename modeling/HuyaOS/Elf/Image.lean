import HuyaOS.Elf.Module

/-!
Object files in memory that are well formed, and what their tables say: which sections and
symbols they define, and which words have to be relocated.

The tables of an image are its file header, its section headers, and the sections that hold
symbols, strings and relocations. The section headers are apart from the other tables, and
the words that are relocated are apart from all tables and from one another.
-/

namespace HuyaOS.Elf

open Lib SectionHeaderType List

section Tables

variable (m : Mem) (base : Nat)

def sectionEntries : Nat := (FileHeader.ofMem m base).sectionHeaderEntries

def headersStart : Nat := base + (FileHeader.ofMem m base).sectionHeader

def headersEnd : Nat :=
  headersStart m base + sectionEntries m base * (FileHeader.ofMem m base).sectionHeaderEntrySize

def headerOf (i : Nat) : SectionHeader := SectionHeader.ofMem m (sectionHeaderAt m base i)

def Loads (i : Nat) : Prop := (headerOf m base i).type ≠ NONE

def loadAddress (i : Nat) : Nat := add32 base (headerOf m base i).offset

def IsTable (i : Nat) : Prop :=
  (headerOf m base i).type = SYMTAB ∨ (headerOf m base i).type = STRTAB ∨
    (headerOf m base i).type = REL

def sectionName (i : Nat) : List UInt8 :=
  cString m (add32 (loadAddress m base (FileHeader.ofMem m base).sectionHeaderStringIndex)
    (headerOf m base i).nameOffset)

/-- The name at an offset in a string table ends within the table. -/
def NameEnds (table offset : Nat) : Prop :=
  ∃ k < (headerOf m base table).size, offset + k < (headerOf m base table).size ∧
    m (base + (headerOf m base table).offset + offset + k) = 0

def symbolOf (symtab k : Nat) : SymbolEntry :=
  SymbolEntry.ofMem m (base + (headerOf m base symtab).offset + SymbolEntry.size * k)

/-- A word that has to be relocated. -/
structure Relocation where
  site : Nat
  type : Nat
  symbol : Nat

def relocationOf (i j : Nat) : Relocation :=
  let entry :=
    RelocationEntry.ofMem m (base + (headerOf m base i).offset + RelocationEntry.size * j)
  ⟨add32 (loadAddress m base (headerOf m base i).info) entry.offset, entry.getType,
    entry.getSymbolIndex⟩

def relocationsOf (i : Nat) : List Relocation :=
  if (headerOf m base i).type = REL then
    (List.range ((headerOf m base i).size / RelocationEntry.size)).map (relocationOf m base i)
  else []

def relocationsAt : List Relocation :=
  (List.range (sectionEntries m base)).flatMap (relocationsOf m base)

end Tables

/-- A well-formed object file at `base`, with the indices of its symbol and string tables. -/
structure Image where
  mem : Mem
  base : Nat
  symtab : Nat
  strtab : Nat
  valid : (FileHeader.ofMem mem base).isValid = true
  entrySize_le : 40 ≤ (FileHeader.ofMem mem base).sectionHeaderEntrySize
  headers_behind : base + FileHeader.size ≤ headersStart mem base
  headers_end : headersEnd mem base ≤ 2 ^ 32
  tables_end : ∀ i < sectionEntries mem base, IsTable mem base i →
    base + (headerOf mem base i).offset + (headerOf mem base i).size ≤ 2 ^ 32
  tables_apart : ∀ i < sectionEntries mem base, IsTable mem base i →
    base + (headerOf mem base i).offset + (headerOf mem base i).size ≤ headersStart mem base ∨
      headersEnd mem base ≤ base + (headerOf mem base i).offset
  names_table : (FileHeader.ofMem mem base).sectionHeaderStringIndex < sectionEntries mem base ∧
    (headerOf mem base (FileHeader.ofMem mem base).sectionHeaderStringIndex).type = STRTAB
  symtab_table : symtab < sectionEntries mem base ∧ (headerOf mem base symtab).type = SYMTAB ∧
    (headerOf mem base symtab).entrySize = SymbolEntry.size
  symtab_name : ∀ i < sectionEntries mem base, Loads mem base i →
    (sectionName mem base i = symtabName ↔ i = symtab)
  strtab_table : strtab < sectionEntries mem base ∧ (headerOf mem base strtab).type = STRTAB
  strtab_name : ∀ i < sectionEntries mem base, Loads mem base i →
    (sectionName mem base i = strtabName ↔ i = strtab)
  sectionNames_end : ∀ i < sectionEntries mem base, Loads mem base i →
    NameEnds mem base (FileHeader.ofMem mem base).sectionHeaderStringIndex
      (headerOf mem base i).nameOffset
  symbolNames_end : ∀ k < (headerOf mem base symtab).size / SymbolEntry.size,
    NameEnds mem base strtab (symbolOf mem base symtab k).nameOffset
  fileSymbols : ∀ k < (headerOf mem base symtab).size / SymbolEntry.size,
    (symbolOf mem base symtab k).getSymbolType = SymbolType.FILE →
      sectionEntries mem base ≤ (symbolOf mem base symtab k).sectionIndex
  sectionSymbols : ∀ k < (headerOf mem base symtab).size / SymbolEntry.size,
    (symbolOf mem base symtab k).getSymbolType = SymbolType.SECTION →
      (symbolOf mem base symtab k).sectionIndex < sectionEntries mem base ∧
        Loads mem base (symbolOf mem base symtab k).sectionIndex
  rel_tables : ∀ i < sectionEntries mem base, (headerOf mem base i).type = REL →
    (headerOf mem base i).entrySize = RelocationEntry.size ∧
      (headerOf mem base i).info < sectionEntries mem base ∧
      Loads mem base (headerOf mem base i).info
  rel_symbols : ∀ r ∈ relocationsAt mem base,
    r.symbol < (headerOf mem base symtab).size / SymbolEntry.size
  sites_end : ∀ r ∈ relocationsAt mem base, r.site + 4 ≤ 2 ^ 32
  sites_apart_header : ∀ r ∈ relocationsAt mem base, r.site + 4 ≤ base ∨
    base + FileHeader.size ≤ r.site
  sites_apart_headers : ∀ r ∈ relocationsAt mem base, r.site + 4 ≤ headersStart mem base ∨
    headersEnd mem base ≤ r.site
  sites_apart_tables : ∀ r ∈ relocationsAt mem base, ∀ i < sectionEntries mem base,
    IsTable mem base i →
    r.site + 4 ≤ base + (headerOf mem base i).offset ∨
      base + (headerOf mem base i).offset + (headerOf mem base i).size ≤ r.site
  sites_apart : (relocationsAt mem base).Pairwise fun r r' => Apart 1 r.site r'.site

section Congr

variable {m m' : Mem} {a : Nat}

theorem FileHeader.ofMem_congr (h : ∀ x, a ≤ x → x < a + FileHeader.size → m' x = m x) :
    FileHeader.ofMem m' a = FileHeader.ofMem m a := by
  have h16 : ∀ d, d + 2 ≤ 52 → load16 m' (a + d) = load16 m (a + d) := fun d hd =>
    load16_congr fun x hlo hhi => h x (by omega) (by simp only [FileHeader.size]; omega)
  have h8 : ∀ d, d < 52 → m' (a + d) = m (a + d) := fun d hd =>
    h _ (by omega) (by simp only [FileHeader.size]; omega)
  have h0 : m' a = m a := h8 0 (by decide)
  simp only [FileHeader.ofMem, h0, h8 _ (by decide : 1 < 52), h8 _ (by decide : 2 < 52),
    h8 _ (by decide : 3 < 52),
    h8 _ (by decide : 4 < 52), h8 _ (by decide : 5 < 52), h16 _ (by decide : 18 + 2 ≤ 52),
    h16 _ (by decide : 42 + 2 ≤ 52), h16 _ (by decide : 44 + 2 ≤ 52),
      h16 _ (by decide : 46 + 2 ≤ 52),
    h16 _ (by decide : 48 + 2 ≤ 52), h16 _ (by decide : 50 + 2 ≤ 52),
      load32_within h (by decide : 28 + 4 ≤ 52),
    load32_within h (by decide : 32 + 4 ≤ 52)]

theorem SectionHeader.ofMem_congr (h : ∀ x, a ≤ x → x < a + 40 → m' x = m x) :
    SectionHeader.ofMem m' a = SectionHeader.ofMem m a := by
  have h32 {d : Nat} := load32_within (d := d) h
  have h0 : load32 m' a = load32 m a := h32 (d := 0) (by decide)
  simp only [SectionHeader.ofMem, h0, h32 (by decide : 4 + 4 ≤ 40), h32 (by decide : 12 + 4 ≤ 40),
    h32 (by decide : 16 + 4 ≤ 40), h32 (by decide : 20 + 4 ≤ 40), h32 (by decide : 28 + 4 ≤ 40),
    h32 (by decide : 36 + 4 ≤ 40)]

theorem SymbolEntry.ofMem_congr (h : ∀ x, a ≤ x → x < a + SymbolEntry.size → m' x = m x) :
    SymbolEntry.ofMem m' a = SymbolEntry.ofMem m a := by
  simp only [SymbolEntry.size] at h
  have h0 : load32 m' a = load32 m a := load32_within (d := 0) h (by decide)
  have h4 := load32_within (d := 4) h (by decide)
  have h14 : load16 m' (a + 14) = load16 m (a + 14) :=
    load16_congr fun x hlo hhi => h x (by omega) (by omega)
  simp only [SymbolEntry.ofMem, h0, h4, h14, h (a + 12) (by omega) (by omega)]

theorem RelocationEntry.ofMem_congr (h : ∀ x, a ≤ x → x < a + RelocationEntry.size → m' x = m x) :
    RelocationEntry.ofMem m' a = RelocationEntry.ofMem m a := by
  have h0 : load32 m' a = load32 m a := load32_within (d := 0) h (by decide)
  have h4 := load32_within (d := 4) h (by decide)
  simp only [RelocationEntry.ofMem, h0, h4]

end Congr

namespace Image

variable (image : Image) {i j k : Nat}

abbrev entries : Nat := sectionEntries image.mem image.base

abbrev header (i : Nat) : SectionHeader := headerOf image.mem image.base i

abbrev headerAt (i : Nat) : Nat := sectionHeaderAt image.mem image.base i

theorem index_mul_le (hij : i < j) :
    i * (FileHeader.ofMem image.mem image.base).sectionHeaderEntrySize +
        (FileHeader.ofMem image.mem image.base).sectionHeaderEntrySize ≤
      j * (FileHeader.ofMem image.mem image.base).sectionHeaderEntrySize := by
  rw [← Nat.succ_mul]
  exact Nat.mul_le_mul_right _ hij

theorem headerAt_eq (hi : i < image.entries) :
    image.headerAt i = headersStart image.mem image.base +
      i * (FileHeader.ofMem image.mem image.base).sectionHeaderEntrySize := by
  have hend := image.headers_end
  have hsize := image.entrySize_le
  have hle := image.index_mul_le hi
  simp only [headerAt, sectionHeaderAt, entries, headersEnd, headersStart] at hend hle ⊢
  rw [add32_eq (a := (FileHeader.ofMem image.mem image.base).sectionHeader) (by omega),
    add32_eq (by omega)]
  omega

theorem headerAt_within (hi : i < image.entries) :
    headersStart image.mem image.base ≤ image.headerAt i ∧
      image.headerAt i + 40 ≤ headersEnd image.mem image.base := by
  have hsize := image.entrySize_le
  have hle := image.index_mul_le hi
  rw [image.headerAt_eq hi, headersEnd]
  simp only [entries] at hle
  omega

theorem headerAt_apart (hi : i < image.entries) (hj : j < image.entries) (hne : i ≠ j) :
    image.headerAt i + 40 ≤ image.headerAt j ∨ image.headerAt j + 40 ≤ image.headerAt i := by
  have hsize := image.entrySize_le
  rw [image.headerAt_eq hi, image.headerAt_eq hj]
  rcases Nat.lt_or_gt_of_ne hne with hlt | hlt
  · have hle := image.index_mul_le hlt
    omega
  · have hle := image.index_mul_le hlt
    omega

instance (m : Mem) (base i : Nat) : Decidable (Loads m base i) :=
  inferInstanceAs (Decidable (_ ≠ _))

/-- The addresses that `loadSections` writes into the first `k` headers. -/
def addressPatches (k : Nat) : List Patch :=
  ((List.range k).filter fun i => decide (Loads image.mem image.base i)).map fun i =>
    ⟨image.headerAt i + 12, fun _ => loadAddress image.mem image.base i⟩

def loadedUpTo (k : Nat) : Mem := (image.addressPatches k).foldl Patch.apply image.mem

def loaded : Mem := image.loadedUpTo image.entries

theorem mem_addressPatches {p : Patch} (h : p ∈ image.addressPatches k) :
    ∃ i < k, Loads image.mem image.base i ∧
      p = ⟨image.headerAt i + 12, fun _ => loadAddress image.mem image.base i⟩ := by
  obtain ⟨i, hi, rfl⟩ := mem_map.mp h
  obtain ⟨hrange, hloads⟩ := mem_filter.mp hi
  exact ⟨i, mem_range.mp hrange, of_decide_eq_true hloads, rfl⟩

theorem loadedUpTo_of_outside {a : Nat}
    (h : ∀ i < k, a < image.headerAt i + 12 ∨ image.headerAt i + 16 ≤ a) :
    image.loadedUpTo k a = image.mem a := by
  apply Patch.foldl_apply_of_outside
  intro p hp
  obtain ⟨i, hi, -, rfl⟩ := image.mem_addressPatches hp
  exact h i hi

section

variable (hk : k ≤ image.entries)

include hk

theorem loadedUpTo_of_outside_headers {a : Nat}
    (h : a < headersStart image.mem image.base ∨ headersEnd image.mem image.base ≤ a) :
    image.loadedUpTo k a = image.mem a := by
  apply image.loadedUpTo_of_outside
  intro i hi
  have := image.headerAt_within (lt_of_lt_of_le hi hk)
  omega

theorem addressPatches_apart :
    (image.addressPatches k).Pairwise fun p q => Apart 1 p.site q.site := by
  apply Pairwise.map (R := fun i j => i < j ∧ j < k)
  · rintro i j ⟨hlt, hj⟩
    have := image.headerAt_apart (by omega) (by omega) hlt.ne
    simp only [Apart]
    omega
  · apply Pairwise.filter
    have hrange : (range k).Pairwise (· < ·) := pairwise_lt_range
    exact hrange.imp_of_mem fun _ hj hlt => ⟨hlt, mem_range.mp hj⟩

theorem load32_loadedUpTo (hi : i < k) (hloads : Loads image.mem image.base i) :
    load32 (image.loadedUpTo k) (image.headerAt i + 12) = loadAddress image.mem image.base i := by
  have hmem : ⟨image.headerAt i + 12, fun _ => loadAddress image.mem image.base i⟩ ∈
      image.addressPatches k :=
    mem_map.mpr ⟨i, mem_filter.mpr ⟨mem_range.mpr hi, decide_eq_true hloads⟩, rfl⟩
  exact (Patch.load32_foldl_apply image.mem (image.addressPatches_apart hk) hmem).trans
    (Nat.mod_eq_of_lt (add32_lt ..))

theorem header_loadedUpTo (hi : i < image.entries) :
    SectionHeader.ofMem (image.loadedUpTo k) (image.headerAt i) = { image.header i with
      virtualAddress := if i < k ∧ Loads image.mem image.base i then
        loadAddress image.mem image.base i
        else (image.header i).virtualAddress } := by
  have hfield : ∀ d, d + 4 ≤ 12 ∨ 16 ≤ d ∧ d + 4 ≤ 40 →
      load32 (image.loadedUpTo k) (image.headerAt i + d) =
        load32 image.mem (image.headerAt i + d) := by
    intro d hd
    apply load32_congr
    intro x hlo hhi
    apply image.loadedUpTo_of_outside
    intro j hj
    -- the field is not the address of its own header, and other headers are apart
    rcases eq_or_ne i j with rfl | hne
    · omega
    · have := image.headerAt_apart hi (lt_of_lt_of_le hj hk) hne
      omega
  have haddress : load32 (image.loadedUpTo k) (image.headerAt i + 12) =
      if i < k ∧ Loads image.mem image.base i then loadAddress image.mem image.base i
      else (image.header i).virtualAddress := by
    split_ifs with hloaded
    · exact image.load32_loadedUpTo hk hloaded.1 hloaded.2
    · apply load32_congr
      intro x hlo hhi
      apply Patch.foldl_apply_of_outside
      intro p hp
      obtain ⟨j, hj, hloads, rfl⟩ := image.mem_addressPatches hp
      have hne : i ≠ j := by rintro rfl; exact hloaded ⟨hj, hloads⟩
      have := image.headerAt_apart hi (lt_of_lt_of_le hj hk) hne
      simp only
      omega
  have h0 : load32 (image.loadedUpTo k) (image.headerAt i) = load32 image.mem (image.headerAt i) :=
    hfield 0 (by decide)
  simp only [SectionHeader.ofMem, header, headerOf] at haddress ⊢
  rw [h0, hfield 4 (by decide), hfield 16 (by decide), hfield 20 (by decide), hfield 28 (by decide),
    hfield 36 (by decide), haddress]

theorem fileHeader_loadedUpTo :
    FileHeader.ofMem (image.loadedUpTo k) image.base = FileHeader.ofMem image.mem image.base :=
  FileHeader.ofMem_congr fun _ _ hhi =>
    image.loadedUpTo_of_outside_headers hk (Or.inl (lt_of_lt_of_le hhi image.headers_behind))

end

end Image

end HuyaOS.Elf
