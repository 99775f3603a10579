import HuyaOS.Lib.Bytes

/-!
`ElfConstants`: the records of an ELF file, read from the bytes of a memory. The records
are packed, and their numbers are little endian. A field that is compared with the members
of an enumeration can hold any other number as well.
-/

namespace HuyaOS.Elf

open Lib

namespace SectionHeaderType

def NONE : Nat := 0x00

def SYMTAB : Nat := 0x02

def STRTAB : Nat := 0x03

def REL : Nat := 0x09

end SectionHeaderType

namespace ProgramHeaderType

def LOAD : Nat := 0x01

end ProgramHeaderType

namespace RelocationType

def R_386_NONE : Nat := 0x00

def R_386_32 : Nat := 0x01

def R_386_PC32 : Nat := 0x02

end RelocationType

namespace SymbolType

def SECTION : Nat := 0x03

def FILE : Nat := 0x04

end SymbolType

namespace SymbolBinding

def LOCAL : Nat := 0x00

def GLOBAL : Nat := 0x01

def WEAK : Nat := 0x02

end SymbolBinding

structure FileHeader where
  magic : List UInt8
  architecture : UInt8
  byteOrder : UInt8
  machine : Nat
  programHeader : Nat
  sectionHeader : Nat
  programHeaderEntrySize : Nat
  programHeaderEntries : Nat
  sectionHeaderEntrySize : Nat
  sectionHeaderEntries : Nat
  sectionHeaderStringIndex : Nat

namespace FileHeader

def size : Nat := 52

def ofMem (m : Mem) (a : Nat) : FileHeader where
  magic := [m a, m (a + 1), m (a + 2), m (a + 3)]
  architecture := m (a + 4)
  byteOrder := m (a + 5)
  machine := load16 m (a + 18)
  programHeader := load32 m (a + 28)
  sectionHeader := load32 m (a + 32)
  programHeaderEntrySize := load16 m (a + 42)
  programHeaderEntries := load16 m (a + 44)
  sectionHeaderEntrySize := load16 m (a + 46)
  sectionHeaderEntries := load16 m (a + 48)
  sectionHeaderStringIndex := load16 m (a + 50)

def isValid (h : FileHeader) : Bool :=
  h.magic = [0x7F, 'E'.toUInt8, 'L'.toUInt8, 'F'.toUInt8] && h.architecture = 0x01 &&
    h.byteOrder = 0x01 &&
    h.machine = 0x03

end FileHeader

structure ProgramHeader where
  type : Nat
  offset : Nat
  virtualAddress : Nat
  fileSize : Nat
  memorySize : Nat

namespace ProgramHeader

def size : Nat := 32

def ofMem (m : Mem) (a : Nat) : ProgramHeader where
  type := load32 m a
  offset := load32 m (a + 4)
  virtualAddress := load32 m (a + 8)
  fileSize := load32 m (a + 16)
  memorySize := load32 m (a + 20)

end ProgramHeader

structure SectionHeader where
  nameOffset : Nat
  type : Nat
  virtualAddress : Nat
  offset : Nat
  size : Nat
  info : Nat
  entrySize : Nat

def SectionHeader.ofMem (m : Mem) (a : Nat) : SectionHeader where
  nameOffset := load32 m a
  type := load32 m (a + 4)
  virtualAddress := load32 m (a + 12)
  offset := load32 m (a + 16)
  size := load32 m (a + 20)
  info := load32 m (a + 28)
  entrySize := load32 m (a + 36)

structure SymbolEntry where
  nameOffset : Nat
  value : Nat
  info : Nat
  sectionIndex : Nat

namespace SymbolEntry

def size : Nat := 16

def ofMem (m : Mem) (a : Nat) : SymbolEntry where
  nameOffset := load32 m a
  value := load32 m (a + 4)
  info := (m (a + 12)).toNat
  sectionIndex := load16 m (a + 14)

def getSymbolBinding (entry : SymbolEntry) : Nat := entry.info >>> 4

def getSymbolType (entry : SymbolEntry) : Nat := entry.info &&& 0x0F

end SymbolEntry

structure RelocationEntry where
  offset : Nat
  info : Nat

namespace RelocationEntry

def size : Nat := 8

def ofMem (m : Mem) (a : Nat) : RelocationEntry where
  offset := load32 m a
  info := load32 m (a + 4)

def getSymbolIndex (entry : RelocationEntry) : Nat := entry.info >>> 8

def getType (entry : RelocationEntry) : Nat := entry.info &&& 0xFF

end RelocationEntry

end HuyaOS.Elf
