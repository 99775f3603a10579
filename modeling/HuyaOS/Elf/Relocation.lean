import HuyaOS.Elf.Linking

/-!
Relocation of a module. `relocate` reads the relocations, the symbols and their names from
the memory that it changes; in a well-formed image it does not change what it reads, so it
patches the words of the relocations one after the other.

A relocation is meant for an entry of the symbol table. `relocate` finds the address through
the name of the entry.
-/

namespace HuyaOS.Elf

open Lib RelocationType List Except

namespace Image

variable (image : Image) (kernelSymbols : List UInt8 → UInt32) {i j : Nat} {m : Mem}

abbrev relocations : List Relocation := relocationsAt image.mem image.base

def symbolName (k : Nat) : List UInt8 :=
  if (image.symbol k).getSymbolType = SymbolType.SECTION then
    sectionName image.mem image.base (image.symbol k).sectionIndex
  else image.stringName k

def Active (r : Relocation) : Prop :=
  r.type ≠ R_386_NONE ∧ (image.symbol r.symbol).getSymbolType ≠ SymbolType.FILE

instance (r : Relocation) : Decidable (image.Active r) := inferInstanceAs (Decidable (_ ∧ _))

def target (r : Relocation) : Nat := image.lookup kernelSymbols (image.symbolName r.symbol)

def patch (r : Relocation) : Option Patch :=
  if r.type = R_386_32 then some ⟨r.site, fun old => add32 old (image.target kernelSymbols r)⟩
  else if r.type = R_386_PC32 then
    some ⟨r.site, fun old => sub32 (add32 old (image.target kernelSymbols r)) r.site⟩
  else none

def applyRelocation (m : Mem) (r : Relocation) : Except Cpu.Stop Mem :=
  if image.Active r then
    if image.target kernelSymbols r = 0 then .error (.throwException .KEY_NOT_FOUND)
    else .ok ((image.patch kernelSymbols r).elim m (Patch.apply m))
  else .ok m

def Protected (a : Nat) : Prop :=
  (image.base ≤ a ∧ a < image.base + FileHeader.size) ∨
  (headersStart image.mem image.base ≤ a ∧ a < headersEnd image.mem image.base) ∨
  ∃ i < image.entries, IsTable image.mem image.base i ∧ image.base + (image.header i).offset ≤ a ∧
    a < image.base + (image.header i).offset + (image.header i).size

def Keeps (m : Mem) : Prop := ∀ a, image.Protected a → m a = image.loaded a

variable {image kernelSymbols}

theorem Keeps.tablesKept (h : image.Keeps m) : image.TablesKept m := by
  intro i hi htable a hlo hhi
  rw [h a (.inr (.inr ⟨i, hi, htable, hlo, hhi⟩))]
  exact image.tablesKept_loadedUpTo (le_refl image.entries) i hi htable a hlo hhi

theorem Keeps.sectionHeaderAt (h : image.Keeps m) (i : Nat) :
    sectionHeaderAt m image.base i = image.headerAt i := by
  have hfile : FileHeader.ofMem m image.base = FileHeader.ofMem image.mem image.base := by
    rw [← image.fileHeader_loadedUpTo (le_refl image.entries)]
    exact FileHeader.ofMem_congr fun x hlo hhi => h x (.inl ⟨hlo, hhi⟩)
  rw [Elf.sectionHeaderAt, hfile]
  rfl

section

variable (h : image.Keeps m) (hi : i < image.entries)

include h hi

theorem Keeps.header_loaded :
    SectionHeader.ofMem m (image.headerAt i) =
      SectionHeader.ofMem image.loaded (image.headerAt i) := by
  have hwithin := image.headerAt_within hi
  exact SectionHeader.ofMem_congr fun x hlo hhi => h x (.inr (.inl ⟨by omega, by omega⟩))

theorem Keeps.header (hloads : Loads image.mem image.base i) :
    SectionHeader.ofMem m (image.headerAt i) = { image.header i with
      virtualAddress := loadAddress image.mem image.base i } := by
  rw [h.header_loaded hi, loaded, image.header_loadedUpTo le_rfl hi, if_pos ⟨hi, hloads⟩]

theorem Keeps.header_type :
    (SectionHeader.ofMem m (image.headerAt i)).type = (image.header i).type := by
  rw [h.header_loaded hi, loaded, image.header_loadedUpTo le_rfl hi]

end

variable {r : Relocation} {m' : Mem} {elf : ElfModule}

theorem site_of_patch {p : Patch} (h : image.patch kernelSymbols r = some p) : p.site = r.site := by
  unfold patch at h
  split_ifs at h
  · exact (Option.some.inj h) ▸ rfl
  · exact (Option.some.inj h) ▸ rfl

theorem Keeps.applyRelocation (h : image.Keeps m) (hr : r ∈ image.relocations)
    (hm' : image.applyRelocation kernelSymbols m r = .ok m') : image.Keeps m' := by
  unfold Image.applyRelocation at hm'
  split_ifs at hm' with hactive hzero
  · obtain rfl := ok.inj hm'
    intro a ha
    cases hpatch : image.patch kernelSymbols r with
    | none => exact h a ha
    | some p =>
      have hsite := site_of_patch hpatch
      have houtside : a < p.site ∨ p.site + 4 ≤ a := by
        rcases ha with ⟨hlo, hhi⟩ | ⟨hlo, hhi⟩ | ⟨i, hi, htable, hlo, hhi⟩
        · have := image.sites_apart_header r hr
          omega
        · have := image.sites_apart_headers r hr
          omega
        · have := image.sites_apart_tables r hr i hi htable
          simp only [Image.header] at hlo hhi
          omega
      exact (Patch.apply_of_outside houtside).trans (h a ha)
  · obtain rfl := ok.inj hm'
    exact h

theorem relocationOf_mem (hi : i < image.entries)
    (hrel : (image.header i).type = SectionHeaderType.REL)
    (hj : j < (image.header i).size / RelocationEntry.size) :
    relocationOf image.mem image.base i j ∈ image.relocations := by
  refine mem_flatMap.mpr ⟨i, mem_range.mpr hi, ?_⟩
  rw [relocationsOf, if_pos hrel]
  exact mem_map_of_mem (mem_range.mpr hj)

theorem Keeps.relocationEntry (h : image.Keeps m) (hi : i < image.entries)
    (hrel : (image.header i).type = SectionHeaderType.REL)
    (hj : j < (image.header i).size / RelocationEntry.size) :
    RelocationEntry.ofMem m (add32 (loadAddress image.mem image.base i)
      (RelocationEntry.size * j)) =
      RelocationEntry.ofMem image.mem
        (image.base + (image.header i).offset + RelocationEntry.size * j) := by
  have htable : IsTable image.mem image.base i := .inr (.inr hrel)
  have hsize : RelocationEntry.size * j + RelocationEntry.size ≤ (image.header i).size := by
    simp only [RelocationEntry.size] at hj ⊢
    omega
  have hpos : 0 < RelocationEntry.size := by decide
  have hend := image.table_end hi htable
  rw [image.loadAddress_eq hi htable (by omega), add32_eq (by omega)]
  apply RelocationEntry.ofMem_congr
  intro x hlo hhi
  exact h.tablesKept i hi htable x (le_trans (Nat.le_add_right _ _) hlo)
    (lt_of_lt_of_le hhi (by omega))

theorem Keeps.symbolName (h : image.Keeps m) (helf : image.SymbolsParsed image.symbolCount elf)
    {k : Nat} (hk : k < image.symbolCount) :
    (if (image.symbol k).getSymbolType = SymbolType.SECTION then
      elf.getSectionName m (image.symbol k).sectionIndex
      else cString m (add32 elf.stringTable (image.symbol k).nameOffset)) = image.symbolName k := by
  unfold Image.symbolName
  split_ifs with hsection
  · obtain ⟨hlt, hloads⟩ : (image.symbol k).sectionIndex < image.entries ∧
        Loads image.mem image.base (image.symbol k).sectionIndex :=
          image.sectionSymbols k hk hsection
    rw [ElfModule.getSectionName, helf.base, h.sectionHeaderAt, h.header hlt hloads,
      helf.sectionNames]
    exact image.sectionName_kept h.tablesKept hlt hloads
  · rw [helf.stringTable]
    exact image.stringName_kept h.tablesKept hk

variable (image) in
theorem zero_not_mem_symbolName (k : Nat) : 0 ∉ image.symbolName k := by
  unfold Image.symbolName
  split_ifs
  · exact zero_not_mem_cString _
  · exact zero_not_mem_cString _

section

variable (h : image.Keeps m) (helf : image.SymbolsParsed image.symbolCount elf)
  (hi : i < image.entries)

include h helf hi

theorem Keeps.relocateEntry (hrel : (image.header i).type = SectionHeaderType.REL)
    (hj : j < (image.header i).size / RelocationEntry.size) :
    elf.relocateEntry kernelSymbols (loadAddress image.mem image.base i)
        (loadAddress image.mem image.base (image.header i).info) m j =
      image.applyRelocation kernelSymbols m (relocationOf image.mem image.base i j) := by
  obtain ⟨r, hr⟩ : ∃ r, relocationOf image.mem image.base i j = r := ⟨_, rfl⟩
  obtain ⟨entry, heq⟩ : ∃ entry, RelocationEntry.ofMem image.mem
      (image.base + (image.header i).offset + RelocationEntry.size * j) = entry := ⟨_, rfl⟩
  have hsite :
      add32 (loadAddress image.mem image.base (image.header i).info) entry.offset = r.site := by
    rw [← hr, ← heq]
    rfl
  have htype : entry.getType = r.type := by
    rw [← hr, ← heq]
    rfl
  have hindex : entry.getSymbolIndex = r.symbol := by
    rw [← hr, ← heq]
    rfl
  have hlt : r.symbol < image.symbolCount := image.rel_symbols r (hr ▸ relocationOf_mem hi hrel hj)
  have hsymbol : elf.symbolAt m r.symbol = image.symbol r.symbol := by
    rw [ElfModule.symbolAt, helf.symbolTable]
    exact image.symbolOf_kept h.tablesKept hlt
  have hfind := image.findSymbol_eq helf kernelSymbols (image.zero_not_mem_symbolName r.symbol)
  rw [hr, ElfModule.relocateEntry, (h.relocationEntry hi hrel hj).trans heq]
  simp only [hsite, htype, hindex, hsymbol]
  rw [h.symbolName helf hlt, hfind]
  -- the three ways out of the loop body before a word is changed
  by_cases hnone : r.type = R_386_NONE
  · have hinactive : ¬image.Active r := fun hactive => hactive.1 hnone
    rw [if_pos hnone, Image.applyRelocation, if_neg hinactive]
  by_cases hfile : (image.symbol r.symbol).getSymbolType = SymbolType.FILE
  · have hinactive : ¬image.Active r := fun hactive => hactive.2 hfile
    rw [if_neg hnone, if_pos hfile, Image.applyRelocation, if_neg hinactive]
  have hactive : image.Active r := ⟨hnone, hfile⟩
  rw [if_neg hnone, if_neg hfile, Image.applyRelocation, if_pos hactive]
  by_cases hzero : image.lookup kernelSymbols (image.symbolName r.symbol) = 0
  · rw [if_pos hzero, target, if_pos hzero]
    rfl
  · rw [target, patch]
    split_ifs <;> rfl

theorem Keeps.relocateSection : elf.relocateSection kernelSymbols m i =
        (relocationsOf image.mem image.base i).foldlM (image.applyRelocation kernelSymbols) m ∧
      ∀ m', (relocationsOf image.mem image.base i).foldlM (image.applyRelocation kernelSymbols) m =
        .ok m' →
        image.Keeps m' := by
  rw [ElfModule.relocateSection, helf.base, h.sectionHeaderAt]
  by_cases hrel : (image.header i).type = SectionHeaderType.REL
  · have hloads : Loads image.mem image.base i := by
      rw [Loads, hrel]
      decide
    obtain ⟨hsize, hinfo, htarget⟩ := image.rel_tables i hi hrel
    have hcount : divide (image.header i).size (image.header i).entrySize =
        .ok ((image.header i).size / RelocationEntry.size) := by
      rw [hsize]
      rfl
    obtain ⟨hloop, hkeeps⟩ := foldlM_congr image.Keeps
      (fun m hm j hj => hm.relocateEntry helf hi hrel (mem_range.mp hj))
      (fun m hm j hj m' => hm.applyRelocation (relocationOf_mem hi hrel (mem_range.mp hj))) h
    rw [relocationsOf, if_pos hrel, foldlM_map, h.header hi hloads]
    simp only [hrel, ne_eq, not_true_eq_false, if_false, hcount, h.sectionHeaderAt,
      h.header hinfo htarget]
    exact ⟨hloop, hkeeps⟩
  · rw [relocationsOf, if_neg hrel, h.header_type hi, if_pos hrel]
    exact ⟨rfl, fun m' hm' => ok.inj hm' ▸ h⟩

end

theorem relocate_eq (helf : image.SymbolsParsed image.symbolCount elf) :
    elf.relocate kernelSymbols image.loaded =
      image.relocations.foldlM (image.applyRelocation kernelSymbols) image.loaded := by
  have hkeeps : image.Keeps image.loaded := fun _ _ => rfl
  have hentries : (FileHeader.ofMem image.loaded elf.base).sectionHeaderEntries =
      image.entries := by
    rw [helf.base, loaded, image.fileHeader_loadedUpTo le_rfl]
    rfl
  rw [ElfModule.relocate, hentries, relocations, relocationsAt, foldlM_flatMap]
  exact (foldlM_congr image.Keeps (fun m hm i hi => (hm.relocateSection helf (mem_range.mp hi)).1)
    (fun m hm i hi m' => (hm.relocateSection helf (mem_range.mp hi)).2 m') hkeeps).1

variable (image kernelSymbols)

def patches (rs : List Relocation) : List Patch :=
  rs.filterMap fun r => if image.Active r then image.patch kernelSymbols r else none

def Linkable : Prop := ∀ r ∈ image.relocations, image.Active r → image.target kernelSymbols r ≠ 0

variable {image kernelSymbols}

theorem applyRelocation_eq_ok : image.applyRelocation kernelSymbols m r = .ok m' ↔
      (image.Active r → image.target kernelSymbols r ≠ 0) ∧
        (image.patches kernelSymbols [r]).foldl Patch.apply m = m' := by
  rw [patches, filterMap_cons]
  by_cases hactive : image.Active r
  · rw [applyRelocation, if_pos hactive, if_pos hactive]
    by_cases hzero : image.target kernelSymbols r = 0
    · rw [if_pos hzero]
      exact ⟨fun h => absurd h (by simp), fun h => absurd hzero (h.1 hactive)⟩
    · rw [if_neg hzero, ok.injEq]
      cases image.patch kernelSymbols r with
      | none => exact ⟨fun h => ⟨fun _ => hzero, h⟩, And.right⟩
      | some p => exact ⟨fun h => ⟨fun _ => hzero, h⟩, And.right⟩
  · rw [applyRelocation, if_neg hactive, if_neg hactive, ok.injEq]
    exact ⟨fun h => ⟨fun h' => absurd h' hactive, h⟩, And.right⟩

theorem foldlM_applyRelocation {rs : List Relocation} :
    rs.foldlM (image.applyRelocation kernelSymbols) m = .ok m' ↔
      (∀ r ∈ rs, image.Active r → image.target kernelSymbols r ≠ 0) ∧
        (image.patches kernelSymbols rs).foldl Patch.apply m = m' := by
  induction rs generalizing m with
  | nil => exact ⟨fun h => ⟨fun r hr => absurd hr not_mem_nil, ok.inj h⟩, fun h => congrArg _ h.2⟩
  | cons r rs ih =>
    have hpatches : image.patches kernelSymbols (r :: rs) =
        image.patches kernelSymbols [r] ++ image.patches kernelSymbols rs :=
      filterMap_append (l := [r])
    rw [foldlM_cons, bind_eq_ok, hpatches, foldl_append, forall_mem_cons]
    constructor
    · rintro ⟨m₁, hfirst, hrest⟩
      obtain ⟨hr, rfl⟩ := applyRelocation_eq_ok.mp hfirst
      obtain ⟨hrs, hm'⟩ := ih.mp hrest
      exact ⟨⟨hr, hrs⟩, hm'⟩
    · rintro ⟨⟨hr, hrs⟩, hm'⟩
      exact ⟨_, applyRelocation_eq_ok.mpr ⟨hr, rfl⟩, ih.mpr ⟨hrs, hm'⟩⟩

theorem loadModule_eq_ok {garbage : Nat} :
    loadModule kernelSymbols garbage image.mem image.base = .ok (some m') ↔
      image.Linkable kernelSymbols ∧
        (image.patches kernelSymbols image.relocations).foldl Patch.apply image.loaded = m' := by
  obtain ⟨elf, hsections, hloaded⟩ := image.loadSections_spec garbage
  have hrelocate : ElfModule.relocate kernelSymbols _ image.loaded = _ :=
    relocate_eq (image.parseSymbolTable_spec hloaded)
  have hvalid : ¬(!(FileHeader.ofMem image.mem image.base).isValid) = true := by
    rw [image.valid]
    exact Bool.false_ne_true
  rw [loadModule, if_neg hvalid, hsections, Linkable, ← foldlM_applyRelocation, ← hrelocate]
  constructor
  · intro h
    obtain ⟨_, ⟨⟩, hrest⟩ := bind_eq_ok.mp h
    obtain ⟨m₁, hm₁, hsome⟩ := bind_eq_ok.mp hrest
    rw [hm₁, Option.some.inj (ok.inj hsome)]
  · intro h
    exact bind_eq_ok.mpr ⟨_, rfl, bind_eq_ok.mpr ⟨m', h, rfl⟩⟩

variable (image kernelSymbols)

def Defined (k : Nat) : Prop :=
  (image.symbol k).sectionIndex ≠ 0 ∧ (image.symbol k).sectionIndex < image.entries ∧
    Loads image.mem image.base (image.symbol k).sectionIndex

def address (k : Nat) : Nat :=
  if (image.symbol k).getSymbolType = SymbolType.SECTION then
    loadAddress image.mem image.base (image.symbol k).sectionIndex
  else add32 (loadAddress image.mem image.base (image.symbol k).sectionIndex) (image.symbol k).value

/-- The words that refer to symbols of the file hold their addresses. -/
def Relocated (m : Mem) : Prop :=
  ∀ r ∈ image.relocations, image.Defined r.symbol →
    (r.type = R_386_32 →
      load32 m r.site = add32 (load32 image.mem r.site) (image.address r.symbol)) ∧
    (r.type = R_386_PC32 →
      load32 m r.site = sub32 (add32 (load32 image.mem r.site) (image.address r.symbol)) r.site)

/-- The definition that counts for the name of a symbol gives the address of the symbol. -/
def Unambiguous : Prop :=
  ∀ r ∈ image.relocations, image.Defined r.symbol →
    r.type = R_386_32 ∨ r.type = R_386_PC32 →
      image.target kernelSymbols r = image.address r.symbol

variable {image kernelSymbols}

theorem address_lt (k : Nat) : image.address k < 2 ^ 32 := by
  unfold address
  split_ifs
  · exact add32_lt ..
  · exact add32_lt ..

theorem value_lt_of_mem_definitions {d : Definition (List UInt8) Nat} (hd : d ∈ image.definitions) :
    d.value < 2 ^ 32 := by
  rcases mem_append.mp hd with hsection | hsymbol
  · obtain ⟨i, -, rfl⟩ := mem_map.mp hsection
    exact add32_lt ..
  · obtain ⟨k, -, hk⟩ := mem_filterMap.mp hsymbol
    simp only [symbolDefinition] at hk
    split_ifs at hk
    exact Option.some.inj hk ▸ add32_lt ..

theorem lookup_lt (name : List UInt8) : image.lookup kernelSymbols name < 2 ^ 32 := by
  simp only [lookup]
  split_ifs with hzero
  · exact (kernelSymbols name).toNat_lt
  · cases hwinner : Definition.winner image.definitions name with
    | none => exact Nat.two_pow_pos 32
    | some v =>
      obtain ⟨d, hd, rfl⟩ := Definition.exists_of_winner hwinner
      exact value_lt_of_mem_definitions hd

theorem active_of_defined (hr : r ∈ image.relocations) (hdefined : image.Defined r.symbol)
    (htype : r.type = R_386_32 ∨ r.type = R_386_PC32) : image.Active r := by
  constructor
  · rcases htype with h | h <;> rw [h] <;> decide
  · intro hfile
    exact absurd hdefined.2.1
      (Nat.not_lt.mpr (image.fileSymbols r.symbol (image.rel_symbols r hr) hfile))

theorem patches_apart :
    (image.patches kernelSymbols image.relocations).Pairwise fun p q => Apart 1 p.site q.site := by
  apply Pairwise.filterMap _ _ image.sites_apart
  intro r r' hapart p hp q hq
  have hsite : ∀ {r p}, (if image.Active r then image.patch kernelSymbols r else none) = some p →
      p.site = r.site := by
    intro r p h
    split_ifs at h
    exact site_of_patch h
  rw [hsite hp, hsite hq]
  exact hapart

theorem load32_patches {p : Patch} (hr : r ∈ image.relocations) (hactive : image.Active r)
    (hp : image.patch kernelSymbols r = some p) :
    load32 ((image.patches kernelSymbols image.relocations).foldl Patch.apply image.loaded) r.site =
      p.value (load32 image.mem r.site) % 2 ^ 32 := by
  have hmem : p ∈ image.patches kernelSymbols image.relocations :=
    mem_filterMap.mpr ⟨r, hr, (if_pos hactive).trans hp⟩
  have hold : load32 image.loaded r.site = load32 image.mem r.site := by
    apply load32_congr
    intro x hlo hhi
    apply image.loadedUpTo_of_outside_headers le_rfl
    have := image.sites_apart_headers r hr
    omega
  rw [← hold, ← site_of_patch hp]
  exact Patch.load32_foldl_apply image.loaded patches_apart hmem

theorem relocated_iff :
    image.Relocated ((image.patches kernelSymbols image.relocations).foldl Patch.apply
      image.loaded) ↔
      image.Unambiguous kernelSymbols := by
  refine forall₂_congr fun r hr => forall_congr' fun hdefined => ?_
  have htarget : image.target kernelSymbols r < 2 ^ 32 := lookup_lt _
  have haddress := image.address_lt r.symbol
  have habsolute : r.type = R_386_32 →
      (load32 ((image.patches kernelSymbols image.relocations).foldl Patch.apply image.loaded)
        r.site =
        add32 (load32 image.mem r.site) (image.address r.symbol) ↔
          image.target kernelSymbols r = image.address r.symbol) := by
    intro htype
    rw [load32_patches hr (active_of_defined hr hdefined (.inl htype)) (if_pos htype),
      Nat.mod_eq_of_lt (add32_lt ..), add32_left_inj htarget haddress]
  have hrelative : r.type = R_386_PC32 →
      (load32 ((image.patches kernelSymbols image.relocations).foldl Patch.apply image.loaded)
        r.site =
        sub32 (add32 (load32 image.mem r.site) (image.address r.symbol)) r.site ↔
          image.target kernelSymbols r = image.address r.symbol) := by
    intro htype
    have hother : ¬r.type = R_386_32 := by
      rw [htype]
      decide
    rw [load32_patches hr (active_of_defined hr hdefined (.inr htype))
      ((if_neg hother).trans (if_pos htype)),
      Nat.mod_eq_of_lt (sub32_lt ..), sub32_right_inj (add32_lt ..) (add32_lt ..),
      add32_left_inj htarget haddress]
  -- equal words have equal addresses, since nothing is lost modulo 2 ^ 32
  rw [or_imp]
  exact and_congr (forall_congr' habsolute) (forall_congr' hrelative)

/-- Loading a module gives the words of its relocations the addresses of their symbols, as
long as the names of the symbols find them. -/
theorem loadModule_relocated_iff (image : Image) (kernelSymbols : List UInt8 → UInt32)
    (garbage : Nat) :
    (∃ m, loadModule kernelSymbols garbage image.mem image.base = .ok (some m) ∧
      image.Relocated m) ↔
      image.Linkable kernelSymbols ∧ image.Unambiguous kernelSymbols := by
  constructor
  · rintro ⟨m, hload, hrelocated⟩
    obtain ⟨hlinkable, rfl⟩ := loadModule_eq_ok.mp hload
    exact ⟨hlinkable, relocated_iff.mp hrelocated⟩
  · rintro ⟨hlinkable, hunambiguous⟩
    exact ⟨_, loadModule_eq_ok.mpr ⟨hlinkable, rfl⟩, relocated_iff.mpr hunambiguous⟩

section Sample

instance (n a b : Nat) : Decidable (Apart n a b) := inferInstanceAs (Decidable (_ ∨ _))

instance (m : Mem) (base i : Nat) : Decidable (IsTable m base i) :=
  inferInstanceAs (Decidable (_ ∨ _ ∨ _))

instance (m : Mem) (base table offset : Nat) : Decidable (NameEnds m base table offset) :=
  inferInstanceAs (Decidable (∃ k < _, _ ∧ _))

instance (image : Image) (k : Nat) : Decidable (image.Defined k) :=
  inferInstanceAs (Decidable (_ ∧ _ ∧ _))

/-- The words of a file with two functions that are local to their source files, in one
section with a word that refers to the first of them. -/
def twoFunctionsWords (sameName : Bool) : List Nat := [
  0x464C457F, 0x00010101, 0, 0, 0x00030001, 1, 0, 0, 168, 0, 52, 0x00280000, 0x00050006,
  -- .text and .rel.text
  0xC3909090, 0xC3909090, 0, 8, 0x101,
  -- .symtab
  0, 0, 0, 0, 1, 0, 4, 0x00010002, if sameName then 1 else 3, 4, 4, 0x00010002,
  -- .strtab with f and g
  0x67006600, 0,
  -- .shstrtab with the names of the four tables; .text is a part of .rel.text
  0x79732E00, 0x6261746D, 0x74732E00, 0x62617472, 0x68732E00, 0x74727473, 0x2E006261,
  0x2E6C6572, 0x74786574, 0,
  -- the section headers
  0, 0, 0, 0, 0, 0, 0, 0, 0, 0,
  31, 1, 6, 0, 52, 12, 0, 0, 4, 0,
  27, 9, 0, 0, 64, 8, 3, 1, 4, 8,
  1, 2, 0, 0, 72, 48, 4, 3, 4, 16,
  9, 3, 0, 0, 120, 8, 0, 0, 1, 0,
  17, 3, 0, 0, 128, 40, 0, 0, 1, 0]

def twoFunctionsMem (sameName : Bool) : Mem := fun a =>
  UInt8.ofNat ((twoFunctionsWords sameName).getD ((a - 0x100000) / 4) 0 >>> (8 * (a % 4)))

def twoFunctions (sameName : Bool) : Image := by
  apply Image.mk (twoFunctionsMem sameName) 0x100000 3 4
  all_goals cases sameName <;> decide +kernel

example : (twoFunctions false).Linkable (fun _ => 0) ∧
    (twoFunctions false).Unambiguous fun _ => 0 := by
  unfold Linkable Unambiguous
  decide +kernel

/-- The word gets the address of the other function. -/
theorem twoFunctions_confused :
    ∃ m, loadModule (fun _ => 0) 0 (twoFunctions true).mem (twoFunctions true).base = .ok (some m) ∧
      ¬(twoFunctions true).Relocated m := by
  have hlinkable : (twoFunctions true).Linkable fun _ => 0 := by
    unfold Linkable
    decide +kernel
  have hambiguous : ¬(twoFunctions true).Unambiguous fun _ => 0 := by
    unfold Unambiguous
    decide +kernel
  exact ⟨_, loadModule_eq_ok.mpr ⟨hlinkable, rfl⟩, fun h => hambiguous (relocated_iff.mp h)⟩

end Sample

end Image

end HuyaOS.Elf
