import HuyaOS.Elf.Image

/-!
The names that a module defines. `loadSections` and `parseSymbolTable` define them in one
map: the sections first, then the symbols in the order of their table. What a name finds
there is the last of its definitions that is not weak, or the first weak one.
-/

namespace HuyaOS.Elf

open Lib SymbolBinding ElfModule List Nat

namespace Image

variable (image : Image) {i k : Nat} {m : Mem} {ds : List (Definition (List UInt8) Nat)}

def symbolCount : Nat := (image.header image.symtab).size / SymbolEntry.size

def symbol (k : Nat) : SymbolEntry := symbolOf image.mem image.base image.symtab k

def stringIndex : Nat := (FileHeader.ofMem image.mem image.base).sectionHeaderStringIndex

def stringName (k : Nat) : List UInt8 :=
  cString image.mem (add32 (loadAddress image.mem image.base image.strtab)
    (image.symbol k).nameOffset)

/-- The symbols, strings and relocations are as they were in the file. -/
def TablesKept (m : Mem) : Prop :=
  ∀ i < image.entries, IsTable image.mem image.base i →
    ∀ a, image.base + (image.header i).offset ≤ a →
    a < image.base + (image.header i).offset + (image.header i).size → m a = image.mem a

theorem tablesKept_loadedUpTo (hk : k ≤ image.entries) : image.TablesKept (image.loadedUpTo k) := by
  intro i hi htable a hlo hhi
  apply image.loadedUpTo_of_outside_headers hk
  have := image.tables_apart i hi htable
  simp only [header] at hlo hhi
  omega

theorem table_end (hi : i < image.entries) (htable : IsTable image.mem image.base i) :
    image.base + (image.header i).offset + (image.header i).size ≤ 2 ^ 32 :=
      image.tables_end i hi htable

theorem loadAddress_eq (hi : i < image.entries) (htable : IsTable image.mem image.base i)
    (hpos : 0 < (image.header i).size) :
    loadAddress image.mem image.base i = image.base + (image.header i).offset := by
  have hend := image.table_end hi htable
  exact add32_eq (by simp only [header] at *; omega)

theorem isTable_symtab : IsTable image.mem image.base image.symtab := .inl image.symtab_table.2.1

theorem isTable_strtab : IsTable image.mem image.base image.strtab :=
  .inr (.inl image.strtab_table.2)

theorem isTable_strings : IsTable image.mem image.base image.stringIndex :=
  .inr (.inl image.names_table.2)

section

variable (hm : image.TablesKept m)

include hm

theorem symbolOf_kept (hk : k < image.symbolCount) :
    SymbolEntry.ofMem m (add32 (loadAddress image.mem image.base image.symtab)
      (SymbolEntry.size * k)) =
      image.symbol k := by
  have hsize : SymbolEntry.size * k + SymbolEntry.size ≤ (image.header image.symtab).size := by
    simp only [symbolCount, SymbolEntry.size] at hk ⊢
    omega
  have hpos : 0 < SymbolEntry.size := by decide
  have hend := image.table_end image.symtab_table.1 image.isTable_symtab
  rw [image.loadAddress_eq image.symtab_table.1 image.isTable_symtab (by omega),
    add32_eq (by omega)]
  apply SymbolEntry.ofMem_congr
  intro x hlo hhi
  exact hm image.symtab image.symtab_table.1 image.isTable_symtab x
    (le_trans (le_add_right _ _) hlo)
    (lt_of_lt_of_le hhi (by omega))

theorem name_kept {table offset : Nat} (hi : table < image.entries)
    (htable : IsTable image.mem image.base table)
    (hends : NameEnds image.mem image.base table offset) :
    cString m (add32 (loadAddress image.mem image.base table) offset) =
      cString image.mem (add32 (loadAddress image.mem image.base table) offset) := by
  obtain ⟨k, _, hlt, hzero⟩ := hends
  have hwithin : offset + k < (image.header table).size := hlt
  have hterminator : image.mem (image.base + (image.header table).offset + offset + k) = 0 := hzero
  have hend := image.table_end hi htable
  rw [image.loadAddress_eq hi htable (by omega), add32_eq (by omega)]
  apply cString_congr (by omega) hterminator
  intro x hlo hhi
  exact hm table hi htable x (le_trans (le_add_right _ _) hlo) (lt_of_le_of_lt hhi (by omega))

theorem sectionName_kept (hi : i < image.entries) (hloads : Loads image.mem image.base i) :
    cString m (add32 (loadAddress image.mem image.base image.stringIndex)
      (image.header i).nameOffset) =
      sectionName image.mem image.base i :=
  image.name_kept hm image.names_table.1 image.isTable_strings (image.sectionNames_end i hi hloads)

theorem stringName_kept (hk : k < image.symbolCount) :
    cString m (add32 (loadAddress image.mem image.base image.strtab) (image.symbol k).nameOffset) =
      image.stringName k :=
  image.name_kept hm image.strtab_table.1 image.isTable_strtab (image.symbolNames_end k hk)

end

def sectionDefinitions (k : Nat) : List (Definition (List UInt8) Nat) :=
  ((List.range k).filter fun i => decide (Loads image.mem image.base i)).map fun i =>
    ⟨sectionName image.mem image.base i, false, loadAddress image.mem image.base i⟩

/-- The address that the table gives a symbol, by the section that it names. -/
def symbolDefinition (k : Nat) : Option (Definition (List UInt8) Nat) :=
  let entry := image.symbol k
  if entry.sectionIndex = 0 then none
  else if entry.nameOffset = 0 then none
  else if entry.getSymbolBinding ≠ GLOBAL ∧ entry.getSymbolBinding ≠ WEAK ∧
    entry.getSymbolBinding ≠ LOCAL then none
  else some ⟨image.stringName k, entry.getSymbolBinding = WEAK,
    add32 (SectionHeader.ofMem image.loaded (image.headerAt entry.sectionIndex)).virtualAddress
      entry.value⟩

theorem symbolDefinition_eq (hdefined : ¬(image.symbol k).sectionIndex = 0)
    (hnamed : ¬(image.symbol k).nameOffset = 0)
    (hbinding : ¬((image.symbol k).getSymbolBinding ≠ GLOBAL ∧ (image.symbol k).getSymbolBinding ≠
        WEAK ∧ (image.symbol k).getSymbolBinding ≠ LOCAL)) :
    image.symbolDefinition k = some ⟨image.stringName k, (image.symbol k).getSymbolBinding = WEAK,
      add32 (SectionHeader.ofMem image.loaded
        (image.headerAt (image.symbol k).sectionIndex)).virtualAddress (image.symbol k).value⟩ := by
  rw [symbolDefinition, if_neg hdefined, if_neg hnamed, if_neg hbinding]

def symbolDefinitions (k : Nat) : List (Definition (List UInt8) Nat) :=
  (List.range k).filterMap image.symbolDefinition

def definitions : List (Definition (List UInt8) Nat) :=
  image.sectionDefinitions image.entries ++ image.symbolDefinitions image.symbolCount

def Holds (ds : List (Definition (List UInt8) Nat)) (elf : ElfModule) : Prop :=
  HashMap.Represents String.WellFormed String.toUInt32 elf.localSymbols fun s =>
    ds.foldl Definition.define (fun _ => none) s.chars

variable {elf : ElfModule}

theorem Holds.define (h : Holds ds elf) (d : Definition (List UInt8) Nat) (hname : 0 ∉ d.name)
    (hnew : ((ds.foldl Definition.define (fun _ => none) d.name).isSome && d.weak) = false) :
    Holds (ds ++ [d]) (elf.define d.name d.value) := by
  have hput := represents_put_chars h hname d.value
  simp only [Holds, foldl_append, foldl_cons, foldl_nil, Definition.define, hnew,
    Bool.false_eq_true, if_false]
  exact hput

theorem Holds.skip (h : Holds ds elf) (d : Definition (List UInt8) Nat)
    (hlate : ((ds.foldl Definition.define (fun _ => none) d.name).isSome && d.weak) = true) :
    Holds (ds ++ [d]) elf := by
  simp only [Holds, foldl_append, foldl_cons, foldl_nil, Definition.define, hlate, if_true]
  exact h

/-- The module after the first `k` sections. -/
structure SectionsLoaded (k : Nat) (elf : ElfModule) : Prop where
  base : elf.base = image.base
  sectionNames : elf.sectionNames = loadAddress image.mem image.base image.stringIndex
  symbolTable : image.symtab < k →
    elf.symbolTable = loadAddress image.mem image.base image.symtab ∧
      elf.symbolTableSize = image.symbolCount
  stringTable : image.strtab < k → elf.stringTable = loadAddress image.mem image.base image.strtab
  holds : Holds (image.sectionDefinitions k) elf

theorem sectionHeaderAt_loadedUpTo (hk : k ≤ image.entries) (i : Nat) :
    sectionHeaderAt (image.loadedUpTo k) image.base i = image.headerAt i := by
  rw [sectionHeaderAt, image.fileHeader_loadedUpTo hk]
  rfl

theorem filter_range_succ {p : Nat → Prop} [DecidablePred p] (k : Nat) :
    (List.range (k + 1)).filter (fun i => decide (p i)) =
      (List.range k).filter (fun i => decide (p i)) ++ if p k then [k] else [] := by
  rw [range_succ]
  split_ifs with h <;> simp [h]

theorem loadedUpTo_succ (k : Nat) :
    image.loadedUpTo (k + 1) = if Loads image.mem image.base k
      then store32 (image.loadedUpTo k) (image.headerAt k + 12) (loadAddress image.mem image.base k)
      else image.loadedUpTo k := by
  rw [loadedUpTo, addressPatches, filter_range_succ, map_append, foldl_append]
  split_ifs <;> rfl

theorem sectionDefinitions_succ (k : Nat) :
    image.sectionDefinitions (k + 1) = image.sectionDefinitions k ++ if Loads image.mem image.base k
      then [⟨sectionName image.mem image.base k, false, loadAddress image.mem image.base k⟩]
        else [] := by
  rw [sectionDefinitions, filter_range_succ, map_append]
  split_ifs <;> rfl

theorem SectionsLoaded.skip (h : image.SectionsLoaded k elf)
    (hloads : ¬Loads image.mem image.base k) :
    image.SectionsLoaded (k + 1) elf := by
  have hsymtab : Loads image.mem image.base image.symtab := by
    rw [Loads, image.symtab_table.2.1]
    decide
  have hstrtab : Loads image.mem image.base image.strtab := by
    rw [Loads, image.strtab_table.2]
    decide
  have hbefore : ∀ {i}, Loads image.mem image.base i → i < k + 1 → i < k := fun hi hlt =>
    lt_of_le_of_ne (le_of_lt_succ hlt) fun heq => hloads (heq ▸ hi)
  refine ⟨h.base, h.sectionNames, fun hlt => h.symbolTable (hbefore hsymtab hlt),
    fun hlt => h.stringTable (hbefore hstrtab hlt), ?_⟩
  rw [sectionDefinitions_succ, if_neg hloads, append_nil]
  exact h.holds

theorem loadSection_spec (hk : k < image.entries) (h : image.SectionsLoaded k elf) :
    ∃ elf', loadSection (image.loadedUpTo k, elf) k = .ok (image.loadedUpTo (k + 1), elf') ∧
      image.SectionsLoaded (k + 1) elf' := by
  have hheader := image.header_loadedUpTo hk.le hk
  have hat := image.sectionHeaderAt_loadedUpTo hk.le k
  simp only [loadSection, h.base, hat, hheader]
  by_cases hloads : Loads image.mem image.base k
  · have hmem : store32 (image.loadedUpTo k) (image.headerAt k + 12)
        (add32 image.base (image.header k).offset) =
        image.loadedUpTo (k + 1) := by rw [loadedUpTo_succ, if_pos hloads, loadAddress]
    have hname := image.sectionName_kept (image.tablesKept_loadedUpTo (succ_le_of_lt hk)) hk hloads
    have hholds : Holds (image.sectionDefinitions (k + 1))
        (elf.define (sectionName image.mem image.base k) (loadAddress image.mem image.base k)) := by
      rw [sectionDefinitions_succ, if_pos hloads]
      exact h.holds.define ⟨sectionName image.mem image.base k, false,
        loadAddress image.mem image.base k⟩
        (zero_not_mem_cString _) (Bool.and_false _)
    have hearlier : ∀ {i}, i ≠ k → i < k + 1 → i < k := fun hne hlt =>
      lt_of_le_of_ne (le_of_lt_succ hlt) hne
    rw [if_neg hloads, hmem, h.sectionNames, hname]
    -- the two tables are known by their names, which no other section has
    by_cases hsymtab : sectionName image.mem image.base k = symtabName
    · obtain rfl := (image.symtab_name k hk hloads).mp hsymtab
      have hne : image.strtab ≠ image.symtab := by
        intro heq
        have htype := image.strtab_table.2
        rw [heq, image.symtab_table.2.1] at htype
        exact absurd htype (by decide)
      have hdivide : divide (image.header image.symtab).size (image.header image.symtab).entrySize =
          .ok image.symbolCount := by
        rw [image.symtab_table.2.2]
        rfl
      rw [if_pos hsymtab, hdivide]
      exact ⟨_, rfl, ⟨h.base, h.sectionNames, fun _ => ⟨rfl, rfl⟩,
        fun hlt => h.stringTable (hearlier hne hlt), hholds⟩⟩
    · have hnot : image.symtab ≠ k :=
        fun heq => hsymtab ((image.symtab_name k hk hloads).mpr heq.symm)
      by_cases hstrtab : sectionName image.mem image.base k = strtabName
      · obtain rfl := (image.strtab_name k hk hloads).mp hstrtab
        rw [if_neg hsymtab, if_pos hstrtab]
        exact ⟨_, rfl, ⟨h.base, h.sectionNames, fun hlt => h.symbolTable (hearlier hnot hlt),
          fun _ => rfl, hholds⟩⟩
      · have hnot' : image.strtab ≠ k :=
          fun heq => hstrtab ((image.strtab_name k hk hloads).mpr heq.symm)
        rw [if_neg hsymtab, if_neg hstrtab]
        exact ⟨_, rfl, ⟨h.base, h.sectionNames, fun hlt => h.symbolTable (hearlier hnot hlt),
          fun hlt => h.stringTable (hearlier hnot' hlt), hholds⟩⟩
  · have hnone : (image.header k).type = SectionHeaderType.NONE := not_not.mp hloads
    rw [if_pos hnone, loadedUpTo_succ, if_neg hloads]
    exact ⟨elf, rfl, h.skip image hloads⟩

theorem foldlM_loadSection (h : image.SectionsLoaded 0 elf) (hk : k ≤ image.entries) :
    ∃ elf', (List.range k).foldlM loadSection (image.mem, elf) = .ok (image.loadedUpTo k, elf') ∧
      image.SectionsLoaded k elf' := by
  induction k with
  | zero => exact ⟨elf, rfl, h⟩
  | succ k ih =>
    obtain ⟨elf₁, hloop, h₁⟩ := ih (le_of_succ_le hk)
    obtain ⟨elf₂, hlast, h₂⟩ := image.loadSection_spec hk h₁
    refine ⟨elf₂, ?_, h₂⟩
    rw [range_succ, foldlM_append]
    exact bind_eq_ok.mpr ⟨_, hloop, bind_eq_ok.mpr ⟨_, hlast, rfl⟩⟩

theorem loadSections_spec (garbage : Nat) :
    ∃ elf, loadSections image.mem ((ElfModule.new image.base garbage).loadSectionNames image.mem) =
        .ok (image.loaded, elf) ∧ image.SectionsLoaded image.entries elf := by
  apply image.foldlM_loadSection
  · exact ⟨rfl, rfl, fun h => absurd h (not_lt_zero _), fun h => absurd h (not_lt_zero _),
      HashMap.represents_ofSize _ _ _ (by decide)⟩
  · exact le_rfl

/-- The module after the first `k` symbols. -/
structure SymbolsParsed (k : Nat) (elf : ElfModule) : Prop where
  base : elf.base = image.base
  sectionNames : elf.sectionNames = loadAddress image.mem image.base image.stringIndex
  symbolTable : elf.symbolTable = loadAddress image.mem image.base image.symtab
  symbolTableSize : elf.symbolTableSize = image.symbolCount
  stringTable : elf.stringTable = loadAddress image.mem image.base image.strtab
  holds : Holds (image.sectionDefinitions image.entries ++ image.symbolDefinitions k) elf

theorem SectionsLoaded.parsed (h : image.SectionsLoaded image.entries elf) :
    image.SymbolsParsed 0 elf where
  base := h.base
  sectionNames := h.sectionNames
  symbolTable := (h.symbolTable image.symtab_table.1).1
  symbolTableSize := (h.symbolTable image.symtab_table.1).2
  stringTable := h.stringTable image.strtab_table.1
  holds := by
    rw [symbolDefinitions, range_zero, filterMap_nil, append_nil]
    exact h.holds

theorem symbolDefinitions_succ (k : Nat) :
    image.symbolDefinitions (k + 1) = image.symbolDefinitions k ++
      (image.symbolDefinition k).toList := by
  rw [symbolDefinitions, range_succ]
  cases hd : image.symbolDefinition k <;> simp [symbolDefinitions, hd]

theorem SymbolsParsed.succ (h : image.SymbolsParsed k elf) (localSymbols : HashMap String Nat)
    (hholds : Holds (image.sectionDefinitions image.entries ++ image.symbolDefinitions k ++
      (image.symbolDefinition k).toList) { elf with localSymbols }) :
    image.SymbolsParsed (k + 1) { elf with localSymbols } := by
  refine ⟨h.base, h.sectionNames, h.symbolTable, h.symbolTableSize, h.stringTable, ?_⟩
  rw [symbolDefinitions_succ, ← append_assoc]
  exact hholds

theorem SymbolsParsed.skip (h : image.SymbolsParsed k elf)
    (hnone : image.symbolDefinition k = none) :
    image.SymbolsParsed (k + 1) elf := by
  apply h.succ image elf.localSymbols
  rw [hnone, Option.toList_none, append_nil]
  exact h.holds

theorem parseSymbol_spec (hk : k < image.symbolCount) (h : image.SymbolsParsed k elf) :
    image.SymbolsParsed (k + 1) (elf.parseSymbol image.loaded k) := by
  have hkept := image.tablesKept_loadedUpTo (le_refl image.entries)
  have hsymbol : elf.symbolAt image.loaded k = image.symbol k := by
    rw [symbolAt, h.symbolTable]
    exact image.symbolOf_kept hkept hk
  have hname : cString image.loaded (add32 (loadAddress image.mem image.base image.strtab)
      (image.symbol k).nameOffset) = image.stringName k := image.stringName_kept hkept hk
  have hat : sectionHeaderAt image.loaded image.base (image.symbol k).sectionIndex =
      image.headerAt (image.symbol k).sectionIndex :=
        image.sectionHeaderAt_loadedUpTo (le_refl image.entries) _
  simp only [parseSymbol, hsymbol, h.stringTable, h.base, hname, hat]
  by_cases hundefined : (image.symbol k).sectionIndex = 0
  · rw [if_pos hundefined]
    exact h.skip image (by exact if_pos hundefined)
  by_cases hunnamed : (image.symbol k).nameOffset = 0
  · rw [if_neg hundefined, if_pos hunnamed]
    exact h.skip image (by rw [symbolDefinition, if_neg hundefined]; exact if_pos hunnamed)
  by_cases hbinding : (image.symbol k).getSymbolBinding ≠ GLOBAL ∧
      (image.symbol k).getSymbolBinding ≠ WEAK ∧ (image.symbol k).getSymbolBinding ≠ LOCAL
  · rw [if_neg hundefined, if_neg hunnamed, if_pos hbinding]
    exact h.skip image
      (by rw [symbolDefinition, if_neg hundefined, if_neg hunnamed]; exact if_pos hbinding)
  have hsome := image.symbolDefinition_eq hundefined hunnamed hbinding
  have hchars : 0 ∉ image.stringName k := zero_not_mem_cString _
  have hpresent := h.holds.containsKey (String.wellFormed_ofChars.mpr hchars)
  rw [hpresent]
  -- a weak symbol does not replace what is there, be it a section or a symbol
  split_ifs with hlate
  · apply h.succ image elf.localSymbols
    rw [hsome]
    exact h.holds.skip _ ((Bool.and_eq_true ..).mpr ⟨hlate.1, decide_eq_true hlate.2⟩)
  · apply h.succ image
    rw [hsome]
    refine h.holds.define _ hchars (Bool.eq_false_iff.mpr fun hskip => hlate ?_)
    obtain ⟨hthere, hweak⟩ := (Bool.and_eq_true ..).mp hskip
    exact ⟨hthere, of_decide_eq_true hweak⟩

theorem foldl_parseSymbol (h : image.SymbolsParsed 0 elf) (hk : k ≤ image.symbolCount) :
    image.SymbolsParsed k ((List.range k).foldl (parseSymbol image.loaded) elf) := by
  induction k with
  | zero => exact h
  | succ k ih =>
    rw [range_succ, foldl_append]
    exact image.parseSymbol_spec hk (ih (le_of_succ_le hk))

theorem parseSymbolTable_spec (h : image.SectionsLoaded image.entries elf) :
    image.SymbolsParsed image.symbolCount (elf.parseSymbolTable image.loaded) := by
  have hparsed := h.parsed image
  rw [parseSymbolTable, hparsed.symbolTableSize]
  exact image.foldl_parseSymbol hparsed le_rfl

/-- The address of a name: that of the definition that counts, or that of the kernel. -/
def lookup (kernelSymbols : List UInt8 → UInt32) (name : List UInt8) : Nat :=
  let address := (Definition.winner image.definitions name).getD 0
  if address = 0 then (kernelSymbols name).toNat else address

theorem findSymbol_eq (h : image.SymbolsParsed image.symbolCount elf)
    (kernelSymbols : List UInt8 → UInt32) {name : List UInt8} (hname : 0 ∉ name) :
    elf.findSymbol kernelSymbols name =
      if image.lookup kernelSymbols name = 0 then .error (.throwException .KEY_NOT_FOUND)
      else .ok (image.lookup kernelSymbols name) := by
  have hwell := String.wellFormed_ofChars.mpr hname
  have hfound : elf.getSymbol name = .ok ((Definition.winner image.definitions name).getD 0) := by
    have hall : image.sectionDefinitions image.entries ++
        image.symbolDefinitions image.symbolCount =
        image.definitions := rfl
    rw [getSymbol, h.holds.containsKey hwell, h.holds.get hwell, String.chars_ofChars, hall,
      Definition.foldl_define]
    cases Definition.winner image.definitions name <;> rfl
  rw [findSymbol, hfound]
  rfl

end Image

end HuyaOS.Elf
