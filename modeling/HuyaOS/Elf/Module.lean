import HuyaOS.Elf.Constants
import HuyaOS.Elf.CString
import HuyaOS.Lib.Linking
import HuyaOS.Lib.Word
import HuyaOS.Util.StringKeys

/-!
`ElfModule`, an object file that `ModuleLoader` has read into memory and links with the
kernel. The addresses of the sections are written into their headers; the names of sections
and symbols go into one map, through which the relocations find their symbols.

The file header, the addresses and sizes of the tables and with them the bounds of the loops
are read once for a loop. The map from names to headers, which is filled and never read, is
left out.
-/

namespace HuyaOS.Elf

open Lib

def symtabName : List UInt8 := ".symtab".toList.map Char.toUInt8

def strtabName : List UInt8 := ".strtab".toList.map Char.toUInt8

def divide (size entrySize : Nat) : Except Cpu.Stop Nat :=
  if entrySize = 0 then .error .divideError else .ok (size / entrySize)

structure ElfModule where
  base : Nat
  sectionNames : Nat
  symbolTable : Nat
  symbolTableSize : Nat
  stringTable : Nat
  stringTableSize : Nat
  localSymbols : HashMap String Nat

/-- `&buffer[fileHeader->sectionHeader + i * fileHeader->sectionHeaderEntrySize]` -/
def sectionHeaderAt (m : Mem) (base i : Nat) : Nat :=
  let fileHeader := FileHeader.ofMem m base
  add32 base (add32 fileHeader.sectionHeader (i * fileHeader.sectionHeaderEntrySize))

namespace ElfModule

/-- A new module. The members without a value hold what the memory held before. -/
def new (base garbage : Nat) : ElfModule :=
  ⟨base, garbage, 0, garbage, 0, garbage, HashMap.new String Nat⟩

def getSymbol (elf : ElfModule) (name : List UInt8) : Except Cpu.Stop Nat :=
  if elf.localSymbols.containsKey String.toUInt32 (.ofChars name) then
    elf.localSymbols.get String.toUInt32 (.ofChars name)
  else .ok 0

def define (elf : ElfModule) (name : List UInt8) (address : Nat) : ElfModule :=
  { elf with localSymbols := elf.localSymbols.put String.toUInt32 (.ofChars name) address }

def loadSectionNames (m : Mem) (elf : ElfModule) : ElfModule :=
  let fileHeader := FileHeader.ofMem m elf.base
  let sectionHeader :=
    SectionHeader.ofMem m (sectionHeaderAt m elf.base fileHeader.sectionHeaderStringIndex)
  { elf with sectionNames := add32 elf.base sectionHeader.offset }

/-- The body of the loop in `loadSections`. -/
def loadSection (s : Mem × ElfModule) (i : Nat) : Except Cpu.Stop (Mem × ElfModule) :=
  let m := s.1
  let elf := s.2
  let address := sectionHeaderAt m elf.base i
  let sectionHeader := SectionHeader.ofMem m address
  if sectionHeader.type = SectionHeaderType.NONE then .ok (m, elf)
  else
    let virtualAddress := add32 elf.base sectionHeader.offset
    let m := store32 m (address + 12) virtualAddress
    let sectionName := cString m (add32 elf.sectionNames sectionHeader.nameOffset)
    let elf := elf.define sectionName virtualAddress
    if sectionName = symtabName then do
      let symbolTableSize ← divide sectionHeader.size sectionHeader.entrySize
      return (m, { elf with symbolTable := virtualAddress, symbolTableSize })
    else if sectionName = strtabName then
      .ok (m, { elf with stringTable := virtualAddress, stringTableSize := sectionHeader.size })
    else .ok (m, elf)

def loadSections (m : Mem) (elf : ElfModule) : Except Cpu.Stop (Mem × ElfModule) :=
  (List.range (FileHeader.ofMem m elf.base).sectionHeaderEntries).foldlM loadSection (m, elf)

def symbolAt (m : Mem) (elf : ElfModule) (i : Nat) : SymbolEntry :=
  SymbolEntry.ofMem m (add32 elf.symbolTable (SymbolEntry.size * i))

/-- The body of the loop in `parseSymbolTable`. -/
def parseSymbol (m : Mem) (elf : ElfModule) (i : Nat) : ElfModule :=
  let symbolEntry := elf.symbolAt m i
  if symbolEntry.sectionIndex = 0 then elf
  else if symbolEntry.nameOffset = 0 then elf
  else
    let symbolBinding := symbolEntry.getSymbolBinding
    if symbolBinding ≠ SymbolBinding.GLOBAL ∧ symbolBinding ≠ SymbolBinding.WEAK ∧
        symbolBinding ≠ SymbolBinding.LOCAL then elf
    else
      let symbolName := cString m (add32 elf.stringTable symbolEntry.nameOffset)
      let isPresent := elf.localSymbols.containsKey String.toUInt32 (.ofChars symbolName)
      if isPresent = true ∧ symbolBinding = SymbolBinding.WEAK then elf
      else
        let sectionHeader :=
          SectionHeader.ofMem m (sectionHeaderAt m elf.base symbolEntry.sectionIndex)
        elf.define symbolName (add32 sectionHeader.virtualAddress symbolEntry.value)

def parseSymbolTable (m : Mem) (elf : ElfModule) : ElfModule :=
  (List.range elf.symbolTableSize).foldl (parseSymbol m) elf

section Relocate

variable (kernelSymbols : List UInt8 → UInt32) (elf : ElfModule)

def getSectionName (m : Mem) (sectionIndex : Nat) : List UInt8 :=
  cString m (add32 elf.sectionNames
    (SectionHeader.ofMem m (sectionHeaderAt m elf.base sectionIndex)).nameOffset)

/-- `getSymbol`, and for what it does not find `Kernel::Symbols::get` -/
def findSymbol (symbolName : List UInt8) : Except Cpu.Stop Nat := do
  let address ← elf.getSymbol symbolName
  let address := if address = 0 then (kernelSymbols symbolName).toNat else address
  if address = 0 then .error (.throwException .KEY_NOT_FOUND) else .ok address

/-- The body of the inner loop in `relocate`. -/
def relocateEntry (relocationTable virtualAddress : Nat) (m : Mem) (j : Nat) :
    Except Cpu.Stop Mem :=
  let relocationEntry := RelocationEntry.ofMem m (add32 relocationTable (RelocationEntry.size * j))
  let symbol := elf.symbolAt m relocationEntry.getSymbolIndex
  if relocationEntry.getType = RelocationType.R_386_NONE then .ok m
  else if symbol.getSymbolType = SymbolType.FILE then .ok m
  else do
    let symbolName := if symbol.getSymbolType = SymbolType.SECTION then
      elf.getSectionName m symbol.sectionIndex
      else cString m (add32 elf.stringTable symbol.nameOffset)
    let address ← elf.findSymbol kernelSymbols symbolName
    let location := add32 virtualAddress relocationEntry.offset
    let addend := load32 m location
    if relocationEntry.getType = RelocationType.R_386_32 then
      return store32 m location (add32 addend address)
    else if relocationEntry.getType = RelocationType.R_386_PC32 then
      return store32 m location (sub32 (add32 addend address) location)
    else return m

def relocateSection (m : Mem) (i : Nat) : Except Cpu.Stop Mem :=
  let sectionHeader := SectionHeader.ofMem m (sectionHeaderAt m elf.base i)
  if sectionHeader.type ≠ SectionHeaderType.REL then .ok m
  else do
    let relocationTableSize ← divide sectionHeader.size sectionHeader.entrySize
    let target := SectionHeader.ofMem m (sectionHeaderAt m elf.base sectionHeader.info)
    (List.range relocationTableSize).foldlM
      (elf.relocateEntry kernelSymbols sectionHeader.virtualAddress target.virtualAddress) m

def relocate (m : Mem) : Except Cpu.Stop Mem :=
  (List.range (FileHeader.ofMem m elf.base).sectionHeaderEntries).foldlM
    (elf.relocateSection kernelSymbols) m

end Relocate

end ElfModule

/-- `ModuleLoader::load` for a file at `base`, up to the call of the provider. There is no
module if the header is not valid. -/
def loadModule (kernelSymbols : List UInt8 → UInt32) (garbage : Nat) (m : Mem) (base : Nat) :
    Except Cpu.Stop (Option Mem) :=
  if !(FileHeader.ofMem m base).isValid then .ok none
  else do
    let (m, elf) ← ElfModule.loadSections m ((ElfModule.new base garbage).loadSectionNames m)
    let m ← (elf.parseSymbolTable m).relocate kernelSymbols m
    return some m

end HuyaOS.Elf
