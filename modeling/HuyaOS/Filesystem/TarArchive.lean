import HuyaOS.Filesystem.Path
import HuyaOS.Lib.Bytes
import HuyaOS.Util.StringKeys

/-!
`Tar::Archive` and the nodes of its files. An archive is a sequence of blocks of 512
bytes in memory: for each entry a header, which gives the size of the contents in octal
digits, and the contents, filled up to whole blocks. The sequence ends with a block of
zeros.

A name is read up to its terminating zero, which has to be in the block of its header
here. Pointers wrap around at the end of the address space.
-/

namespace HuyaOS.Filesystem

open Lib List HuyaOS.String

namespace Tar

def BLOCKSIZE : Nat := 512

def LF_OLDNORMAL : UInt8 := 48

def byteAt (memory : Mem) (pointer : Nat) : UInt8 := memory (pointer % 2 ^ 32)

def bytesAt (memory : Mem) (pointer n : Nat) : List UInt8 :=
  (List.range n).map fun i => byteAt memory (pointer + i)

/-- The loop of `calculateSize` down to the digit 0. -/
def calculateSizeLoop (size : Nat → UInt8) : Nat → UInt32 → UInt32 → UInt32
  | 0, _, ret => ret
  | i + 1, count, ret =>
      calculateSizeLoop size i (count * 8) (ret + ((size i).toUInt32 - 48) * count)

/-- `calculateSize`, and `calculateFileSize` of a node -/
def calculateSize (size : Nat → UInt8) : UInt32 := calculateSizeLoop size 11 1 0

def filename (memory : Mem) (header : Nat) : Except Cpu.Stop String :=
  String.ofPointer (bytesAt memory header BLOCKSIZE)

def sizeField (memory : Mem) (header i : Nat) : UInt8 := byteAt memory (header + 124 + i)

def typeFlag (memory : Mem) (header : Nat) : UInt8 := byteAt memory (header + 156)

structure Archive where
  fileCount : Nat
  totalSize : Nat
  headers : ArrayList Nat

namespace Archive

def new : Archive := ⟨0, 0, ArrayList.new (fun _ => 0) 0⟩

variable (memory : Mem)

def addHeader (tar : Archive) (header size : Nat) : Archive where
  fileCount := if typeFlag memory header = LF_OLDNORMAL then (tar.fileCount + 1) % 2 ^ 32
    else tar.fileCount
  totalSize := (tar.totalSize + size) % 2 ^ 32
  headers := tar.headers.add header

def advance (addr size : Nat) : Nat :=
  let addr := (addr + (size / BLOCKSIZE + 1) * BLOCKSIZE) % 2 ^ 32
  if size % 512 ≠ 0 then (addr + 512) % 2 ^ 32 else addr

/-- The loop of `from`, for at most `rounds` rounds. -/
def fromLoop : Nat → Nat → Archive → Except Cpu.Stop Archive
  | 0, _, _ => .error .endlessLoop
  | rounds + 1, addr, tar =>
      if byteAt memory addr = 0 then .ok tar
      else
        let size := (calculateSize (sizeField memory addr)).toNat
        fromLoop rounds (advance addr size) (tar.addHeader memory addr size)

def fromAddress (rounds address : Nat) : Except Cpu.Stop Archive :=
  fromLoop memory rounds address new

/-- The loop of `getFileHeaders`. Cells that have not been written hold null pointers. -/
def fillHeaders : List Nat → Nat → List (Option Nat) → Except Cpu.Stop (List (Option Nat))
  | [], _, fileHeaders => .ok fileHeaders
  | header :: headers, arrayIndex, fileHeaders =>
      if typeFlag memory header = LF_OLDNORMAL then
        if arrayIndex < fileHeaders.length then
          fillHeaders headers (arrayIndex + 1) (fileHeaders.set arrayIndex (some header))
        else .error (.throwException .OUT_OF_BOUNDS)
      else fillHeaders headers arrayIndex fileHeaders

def getFileHeaders (tar : Archive) : Except Cpu.Stop (List (Option Nat)) :=
  fillHeaders memory tar.headers.toArray 0 (List.replicate tar.fileCount none)

/-- The loop of `getFile`. -/
def findFile (path : String) : List (Option Nat) → Except Cpu.Stop (Option Nat)
  | [] => .ok none
  | none :: _ => .error .nullPointer
  | some header :: headers => do
      if ← path.equals (← filename memory header) then return some ((header + BLOCKSIZE) % 2 ^ 32)
      else findFile path headers

def getFile (tar : Archive) (path : String) : Except Cpu.Stop (Option Nat) := do
  findFile memory path (← tar.getFileHeaders memory)

end Archive

end Tar

/-- A `TarArchiveNode` of a file. -/
structure TarArchiveNode where
  fileName : String
  fileSize : Nat
  fileBuffer : Option Nat

namespace TarArchiveNode

open Tar

variable (memory : Mem)

/-- The name of the node. Without a token, the index of the last one wraps around. -/
def lastToken (fresh : Nat → UInt8) (path : String) : Except Cpu.Stop String := do
  if path.isEmpty then return .ofChars []
  else
    let tokens ← path.split SEPARATOR 0 fresh
    match tokens.getLast? with
    | none => throw (.throwException .OUT_OF_BOUNDS)
    | some last => return last

def ofHeader (fresh : Nat → UInt8) (archive : Archive) (fileHeader : Nat) :
    Except Cpu.Stop TarArchiveNode := do
  let path ← filename memory fileHeader
  let fileName ← lastToken fresh path
  let fileBuffer ← archive.getFile memory path
  return ⟨fileName, (calculateSize (sizeField memory fileHeader)).toNat, fileBuffer⟩

def getLength (node : TarArchiveNode) : Nat := node.fileSize

def readData (node : TarArchiveNode) (pos numBytes : Nat) : Except Cpu.Stop (Nat × List UInt8) :=
  if pos ≥ node.fileSize then .ok (0, [])
  else
    let numBytes := if (pos + numBytes) % 2 ^ 64 > node.fileSize then node.fileSize - pos
      else numBytes
    match node.fileBuffer with
    | none => if numBytes = 0 then .ok (0, []) else .error .nullPointer
    | some buffer => .ok (numBytes, bytesAt memory (buffer + pos) numBytes)

end TarArchiveNode

namespace Tar

variable {memory : Mem} {entry : Entry} {size : Nat → UInt8} {n : Nat}

/-- A regular file. Its name has to fit into the field of the header. -/
structure Entry where
  name : List UInt8
  contents : List UInt8
  name_ne_nil : name ≠ []
  zero_notMem : 0 ∉ name
  length_name : name.length < 100

/-- The bytes from the header to the next header. -/
def Entry.span (entry : Entry) : Nat := (1 + (entry.contents.length + 511) / 512) * 512

/-- The header of an entry, whatever its other fields are, and the contents behind it. -/
structure EntryAt (memory : Mem) (header : Nat) (entry : Entry) : Prop where
  name : bytesAt memory header (entry.name.length + 1) = entry.name ++ [0]
  size : ∀ i < 11, (byteAt memory (header + 124 + i)).toNat =
    48 + entry.contents.length / 8 ^ (10 - i) % 8
  flag : byteAt memory (header + 156) = LF_OLDNORMAL
  contents : bytesAt memory (header + 512) entry.contents.length = entry.contents

/-- The entries with the addresses of their headers. -/
def located : Nat → List Entry → List (Nat × Entry)
  | _, [] => []
  | header, entry :: entries => (header, entry) :: located (header + entry.span) entries

def finish : Nat → List Entry → Nat
  | header, [] => header
  | header, entry :: entries => finish (header + entry.span) entries

/-- The entries lie in memory from an address on, with a block of zeros behind them. -/
structure LaidOut (memory : Mem) (start : Nat) (entries : List Entry) : Prop where
  entryAt : ∀ p ∈ located start entries, EntryAt memory p.1 p.2
  terminator : bytesAt memory (finish start entries) 512 = List.replicate 512 0
  fits : finish start entries + 512 ≤ 2 ^ 32

theorem Entry.add_le_span (entry : Entry) : 512 + entry.contents.length ≤ entry.span := by
  unfold Entry.span
  omega

theorem le_finish (start : Nat) (entries : List Entry) :
    start + 512 * entries.length ≤ finish start entries := by
  induction entries generalizing start with
  | nil => rw [finish, length_nil, Nat.add_zero]
  | cons entry entries ih =>
    have hspan := entry.add_le_span
    have hle := ih (start + entry.span)
    rw [finish, length_cons]
    omega

variable {start : Nat} {entries : List Entry}

theorem LaidOut.tail (h : LaidOut memory start (entry :: entries)) :
    LaidOut memory (start + entry.span) entries :=
  ⟨(forall_mem_cons.mp h.entryAt).2, h.terminator, h.fits⟩

theorem add_span_le {p : Nat × Entry} (hp : p ∈ located start entries) :
    p.1 + p.2.span ≤ finish start entries := by
  induction entries generalizing start with
  | nil => exact absurd hp not_mem_nil
  | cons entry entries ih =>
    rcases mem_cons.mp hp with rfl | hp
    · exact le_trans (Nat.le_add_right _ _) (le_finish (start + entry.span) entries)
    · exact ih hp

theorem LaidOut.add_length_lt {header : Nat} (h : LaidOut memory start entries)
    (hmem : (header, entry) ∈ located start entries) :
    header + 512 + entry.contents.length < 2 ^ 32 := by
  have hle := add_span_le hmem
  have hspan := entry.add_le_span
  have hfits := h.fits
  generalize entry.span = n at hle hspan
  omega

theorem map_snd_located (start : Nat) (entries : List Entry) :
    (located start entries).map Prod.snd = entries := by
  induction entries generalizing start with
  | nil => rfl
  | cons entry entries ih => rw [located, map_cons, ih]

section Bytes

variable (memory : Mem) (pointer : Nat)

@[simp] theorem length_bytesAt (n : Nat) : (bytesAt memory pointer n).length = n := by
  rw [bytesAt, length_map, length_range]

theorem bytesAt_add (m n : Nat) :
    bytesAt memory pointer (m + n) = bytesAt memory pointer m ++ bytesAt memory
      (pointer + m) n := by
  simp only [bytesAt, range_add, map_append, map_map, Function.comp_def, Nat.add_assoc]

theorem bytesAt_succ (n : Nat) :
    bytesAt memory pointer (n + 1) = byteAt memory pointer :: bytesAt memory (pointer + 1) n := by
  rw [Nat.add_comm, bytesAt_add]
  rfl

theorem take_drop_bytesAt {pos count n : Nat} (h : pos + count ≤ n) :
    ((bytesAt memory pointer n).drop pos).take count = bytesAt memory (pointer + pos) count := by
  obtain ⟨k, rfl⟩ := Nat.exists_eq_add_of_le h
  have hpos := length_bytesAt memory pointer pos
  have hcount := length_bytesAt memory (pointer + pos) count
  rw [Nat.add_assoc, bytesAt_add, bytesAt_add, drop_left' hpos, take_left' hcount]

end Bytes

theorem calculateSizeLoop_eq {i : Nat} (hi : i ≤ 11)
    (hsize : ∀ j < i, (size j).toNat = 48 + n / 8 ^ (10 - j) % 8) :
    calculateSizeLoop size i (UInt32.ofNat (8 ^ (11 - i))) (UInt32.ofNat (n % 8 ^ (11 - i))) =
      UInt32.ofNat (n % 8 ^ 11) := by
  induction i with
  | zero => rfl
  | succ i ih =>
    have hdigit : (size i).toUInt32 - 48 = UInt32.ofNat (n / 8 ^ (10 - i) % 8) := by
      rw [← UInt32.toNat_inj, UInt32.toNat_sub, UInt8.toNat_toUInt32, hsize i (Nat.lt_succ_self i)]
      simp
      omega
    have hcount : UInt32.ofNat (8 ^ (10 - i)) * 8 = UInt32.ofNat (8 ^ (10 - i + 1)) := by
      rw [Nat.pow_succ, UInt32.ofNat_mul]
      rfl
    have hret : UInt32.ofNat (n % 8 ^ (10 - i)) + ((size i).toUInt32 - 48) * UInt32.ofNat
        (8 ^ (10 - i)) =
        UInt32.ofNat (n % 8 ^ (10 - i + 1)) := by
      rw [hdigit, Nat.mod_pow_succ, UInt32.ofNat_add, UInt32.ofNat_mul, UInt32.mul_comm]
    have hexp : 11 - (i + 1) = 10 - i ∧ 11 - i = 10 - i + 1 := by omega
    rw [hexp.2] at ih
    rw [hexp.1, calculateSizeLoop, hcount, hret]
    exact ih (by omega) fun j hj => hsize j (by omega)

theorem calculateSize_eq (hn : n < 2 ^ 32)
    (hsize : ∀ j < 11, (size j).toNat = 48 + n / 8 ^ (10 - j) % 8) :
    (calculateSize size).toNat = n := by
  have hloop := calculateSizeLoop_eq le_rfl hsize
  have hmod : n % 8 ^ 11 = n := Nat.mod_eq_of_lt (lt_trans hn (by decide))
  have hzero : calculateSize size = UInt32.ofNat n := by
    rw [hmod, Nat.pow_zero, Nat.mod_one] at hloop
    exact hloop
  rw [hzero, UInt32.toNat_ofNat', Nat.mod_eq_of_lt hn]

section Headers

variable {memory : Mem} {header : Nat} {entry : Entry} (h : EntryAt memory header entry)

include h

theorem EntryAt.filename_eq : filename memory header = .ok (.ofChars entry.name) := by
  have hlen : BLOCKSIZE = entry.name.length + 1 + (511 - entry.name.length) := by
    have hname := entry.length_name
    unfold BLOCKSIZE
    omega
  rw [filename, hlen, bytesAt_add, h.name, append_assoc]
  exact ofPointer_terminated entry.zero_notMem _

theorem EntryAt.byteAt_ne_zero : byteAt memory header ≠ 0 := by
  intro hzero
  obtain ⟨c, cs, hname⟩ := exists_cons_of_ne_nil entry.name_ne_nil
  have hbytes := h.name
  rw [bytesAt_succ, hzero, hname, cons_append, cons.injEq] at hbytes
  exact entry.zero_notMem (hname ▸ hbytes.1 ▸ mem_cons_self)

theorem EntryAt.calculateSize_eq (hsize : entry.contents.length < 2 ^ 32) :
    (calculateSize (sizeField memory header)).toNat = entry.contents.length :=
  Tar.calculateSize_eq hsize h.size

end Headers

namespace Archive

variable {memory : Mem}

variable {header : Nat} {entry : Entry} {tar : Archive} {headers : List Nat} {start : Nat}
  {entries : List Entry}

/-- The blocks of an entry end where the next header begins, also if the contents fill them up. -/
theorem advance_of_lt {size : Nat} (h : header + (1 + (size + 511) / 512) * 512 < 2 ^ 32) :
    advance header size = header + (1 + (size + 511) / 512) * 512 := by
  unfold advance BLOCKSIZE
  by_cases hn : size % 512 = 0
  · have hblocks : (size + 511) / 512 = size / 512 := by omega
    simp only [hn, ne_eq, not_true_eq_false, if_false]
    omega
  · have hblocks : (size + 511) / 512 = size / 512 + 1 := by omega
    simp only [hn, ne_eq, not_false_eq_true, if_true]
    omega

theorem advance_eq (h : header + entry.span < 2 ^ 32) :
    advance header entry.contents.length = header + entry.span :=
  advance_of_lt h

/-- The archive holds the headers of regular files, one for each of the addresses. -/
structure Collected (tar : Archive) (headers : List Nat) : Prop where
  toArray : tar.headers.toArray = headers
  fileCount : tar.fileCount = headers.length

theorem Collected.addHeader (h : tar.Collected headers)
    (hflag : typeFlag memory header = LF_OLDNORMAL) (size : Nat)
    (hcount : headers.length + 1 < 2 ^ 32) :
    (tar.addHeader memory header size).Collected (headers ++ [header]) where
  toArray := by rw [Archive.addHeader, ArrayList.toArray_add, h.toArray]
  fileCount := by
    simp only [Archive.addHeader, hflag, if_true, h.fileCount, Nat.mod_eq_of_lt hcount,
      length_append, length_singleton]

/-- The loop goes from header to header and stops at the block of zeros. -/
theorem fromLoop_collects {rounds : Nat} (h : LaidOut memory start entries)
    (hrounds : entries.length < rounds) (htar : tar.Collected headers)
    (hcount : headers.length + entries.length < 2 ^ 32) :
    ∃ tar', fromLoop memory rounds start tar = .ok tar' ∧
      tar'.Collected (headers ++ (located start entries).map Prod.fst) := by
  induction entries generalizing start rounds tar headers with
  | nil =>
    obtain ⟨rounds, rfl⟩ := Nat.exists_eq_add_one_of_ne_zero (Nat.ne_zero_of_lt hrounds)
    have hzero : byteAt memory start = 0 := by
      have hterminator := h.terminator
      rw [bytesAt_succ, replicate_succ, cons.injEq] at hterminator
      exact hterminator.1
    refine ⟨tar, ?_, ?_⟩
    · rw [fromLoop, if_pos hzero]
    · rw [located, map_nil, append_nil]
      exact htar
  | cons entry entries ih =>
    have hmem : (start, entry) ∈ located start (entry :: entries) := mem_cons_self
    have hentry := h.entryAt _ hmem
    have hsize : entry.contents.length < 2 ^ 32 :=
      lt_of_le_of_lt (Nat.le_add_left _ _) (h.add_length_lt hmem)
    have hnext : start + entry.span < 2 ^ 32 :=
      lt_of_le_of_lt (add_span_le hmem)
        (lt_of_lt_of_le (Nat.lt_add_of_pos_right (by decide)) h.fits)
    obtain ⟨rounds, rfl⟩ := Nat.exists_eq_add_one_of_ne_zero (Nat.ne_zero_of_lt hrounds)
    rw [length_cons] at hcount
    have hadd := htar.addHeader hentry.flag entry.contents.length (by omega)
    obtain ⟨tar', hloop, htar'⟩ := ih h.tail (Nat.lt_of_succ_lt_succ hrounds) hadd
      (by rw [length_append, length_singleton]; omega)
    refine ⟨tar', ?_, ?_⟩
    · rw [fromLoop, if_neg hentry.byteAt_ne_zero]
      simp only [hentry.calculateSize_eq hsize, advance_eq hnext]
      exact hloop
    · rw [located, map_cons, append_cons]
      exact htar'

theorem fillHeaders_eq (hflag : ∀ header ∈ headers, typeFlag memory header = LF_OLDNORMAL)
    (done : List (Option Nat)) :
    fillHeaders memory headers done.length (done ++ List.replicate headers.length none) =
      .ok (done ++ headers.map some) := by
  induction headers generalizing done with
  | nil => rfl
  | cons header headers ih =>
    obtain ⟨hhead, htail⟩ := forall_mem_cons.mp hflag
    have hindex : done.length < (done ++ replicate (header :: headers).length none).length := by
      simp
    have hset : (done ++ replicate (header :: headers).length none).set done.length (some header) =
        done ++ [some header] ++ replicate headers.length none := by
      simp [replicate_succ]
    have hnext := ih htail (done ++ [some header])
    rw [length_append, length_singleton] at hnext
    rw [fillHeaders, if_pos hhead, if_pos hindex, hset, hnext, map_cons, append_assoc,
      singleton_append]

theorem Collected.getFileHeaders_eq (h : tar.Collected headers)
    (hflag : ∀ header ∈ headers, typeFlag memory header = LF_OLDNORMAL) :
    tar.getFileHeaders memory = .ok (headers.map some) := by
  rw [getFileHeaders, h.toArray, h.fileCount]
  exact fillHeaders_eq hflag []

theorem findFile_eq {entries : List (Nat × Entry)}
    (hentries : ∀ p ∈ entries, EntryAt memory p.1 p.2)
    (hnames : (entries.map fun p => p.2.name).Nodup) (hmem : (header, entry) ∈ entries) :
    findFile memory (.ofChars entry.name) (entries.map fun p => some p.1) =
      .ok (some ((header + BLOCKSIZE) % 2 ^ 32)) := by
  induction entries with
  | nil => exact absurd hmem not_mem_nil
  | cons p entries ih =>
    obtain ⟨hp, hrest⟩ := forall_mem_cons.mp hentries
    obtain ⟨hnew, hnames⟩ := nodup_cons.mp hnames
    have hequals := (wellFormed_ofChars.mpr entry.zero_notMem).equals
      (wellFormed_ofChars.mpr p.2.zero_notMem)
    rw [map_cons, findFile, hp.filename_eq]
    rcases mem_cons.mp hmem with rfl | hmem
    · rw [beq_self_eq_true] at hequals
      simp only [bind, Except.bind, hequals, if_true]
      rfl
    · have hne : entry.name ≠ p.2.name := fun heq =>
        hnew (mem_map.mpr ⟨(header, entry), hmem, heq⟩)
      rw [chars_ofChars, chars_ofChars, beq_eq_false_iff_ne.mpr hne] at hequals
      simp only [bind, Except.bind, hequals, Bool.false_eq_true, if_false]
      exact ih hrest hnames hmem

theorem Collected.getFile_eq
    (htar : tar.Collected ((located start entries).map Prod.fst)) (h : LaidOut memory start entries)
    (hnames : (entries.map Entry.name).Nodup) (hmem : (header, entry) ∈ located start entries) :
    tar.getFile memory (.ofChars entry.name) = .ok (some (header + 512)) := by
  have hflag : ∀ a ∈ (located start entries).map Prod.fst, typeFlag memory a = LF_OLDNORMAL := by
    intro a ha
    obtain ⟨p, hp, rfl⟩ := mem_map.mp ha
    exact (h.entryAt p hp).flag
  have hnames' : ((located start entries).map fun p => p.2.name).Nodup := by
    rw [← map_snd_located start entries, map_map] at hnames
    exact hnames
  have hbound : header + 512 < 2 ^ 32 :=
    lt_of_le_of_lt (Nat.le_add_right _ _) (h.add_length_lt hmem)
  have hfind := findFile_eq h.entryAt hnames' hmem
  rw [BLOCKSIZE, Nat.mod_eq_of_lt hbound] at hfind
  rw [getFile, htar.getFileHeaders_eq hflag, map_map]
  exact hfind

end Archive

end Tar

namespace TarArchiveNode

open Tar

variable {memory : Mem}

theorem lastToken_eq (fresh : Nat → UInt8) {name : List UInt8} (hname : ∃ c ∈ name, c ≠ slash) :
    ∃ fileName, lastToken fresh (.ofChars name) = .ok fileName := by
  obtain ⟨c, hmem, hne⟩ := hname
  obtain ⟨token, htoken, -⟩ := exists_mem_components hmem hne
  have hempty : (ofChars name).isEmpty = false :=
    beq_eq_false_iff_ne.mpr (Nat.ne_of_gt (length_pos_of_mem hmem))
  have htokens : (components slash name).map ofChars ≠ [] := ne_nil_of_mem (mem_map_of_mem htoken)
  refine ⟨((components slash name).map ofChars).getLast htokens, ?_⟩
  have hsplit := split_char (.ofChars name) slash fresh
  rw [chars_ofChars] at hsplit
  simp only [lastToken, hempty, Bool.false_eq_true, if_false, SEPARATOR, hsplit, bind, Except.bind,
    getLast?_eq_some_getLast htokens]
  rfl

theorem readData_eq {node : TarArchiveNode} {buffer : Nat} {contents : List UInt8}
    (hbuffer : node.fileBuffer = some buffer) (hsize : node.fileSize = contents.length)
    (hcontents : bytesAt memory buffer contents.length = contents) {pos numBytes : Nat}
    (hpos : pos + numBytes < 2 ^ 64) :
    node.readData memory pos numBytes =
      .ok (((contents.drop pos).take numBytes).length, (contents.drop pos).take numBytes) := by
  unfold readData
  rw [hbuffer, hsize, Nat.mod_eq_of_lt hpos]
  by_cases hbehind : pos ≥ contents.length
  · rw [if_pos hbehind, drop_eq_nil_of_le hbehind, take_nil]
    rfl
  · rw [if_neg hbehind]
    -- both a shortened and a full read give the bytes up to the end of the file
    obtain ⟨count, hcount, hle, htake⟩ : ∃ count,
      (if pos + numBytes > contents.length then contents.length - pos
        else numBytes) = count ∧ pos + count ≤ contents.length ∧
        (contents.drop pos).take numBytes = (contents.drop pos).take count := by
      by_cases hlong : pos + numBytes > contents.length
      · refine ⟨contents.length - pos, if_pos hlong, by omega, ?_⟩
        rw [take_of_length_le (by rw [length_drop]; omega), take_of_length_le (by rw [length_drop])]
      · exact ⟨numBytes, if_neg hlong, by omega, rfl⟩
    have hbytes := take_drop_bytesAt memory buffer hle
    rw [hcontents] at hbytes
    simp only [hcount]
    rw [htake, hbytes, length_bytesAt]

theorem ofHeader_eq (fresh : Nat → UInt8) {tar : Archive} {start : Nat} {entries : List Entry}
    (htar : tar.Collected ((located start entries).map Prod.fst)) (h : LaidOut memory start entries)
    (hnames : (entries.map Entry.name).Nodup) {header : Nat} {entry : Entry}
    (hmem : (header, entry) ∈ located start entries) (hname : ∃ c ∈ entry.name, c ≠ slash) :
    ∃ node, ofHeader memory fresh tar header = .ok node ∧ node.fileSize = entry.contents.length ∧
      node.fileBuffer = some (header + 512) := by
  have hentry := h.entryAt _ hmem
  obtain ⟨fileName, hlast⟩ := lastToken_eq fresh hname
  have hsize : entry.contents.length < 2 ^ 32 :=
    lt_of_le_of_lt (Nat.le_add_left _ _) (h.add_length_lt hmem)
  refine ⟨⟨fileName, entry.contents.length, some (header + 512)⟩, ?_, rfl, rfl⟩
  simp only [ofHeader, hentry.filename_eq, hlast, htar.getFile_eq h hnames hmem,
    hentry.calculateSize_eq hsize, bind, Except.bind]
  rfl

end TarArchiveNode

namespace Tar

open TarArchiveNode

/-- What was put into an archive is read from it: the headers in order, the place of each
file, its length and every part of its contents. The name of a file has to hold a
character other than the separator, or its node cannot be made. -/
theorem archive_round_trip {memory : Mem} {start rounds : Nat} {entries : List Entry}
    (h : LaidOut memory start entries) (hnames : (entries.map Entry.name).Nodup)
    (hnamed : ∀ entry ∈ entries, ∃ c ∈ entry.name, c ≠ slash) (hrounds : entries.length < rounds)
    (fresh : Nat → UInt8) :
    ∃ tar, Archive.fromAddress memory rounds start = .ok tar ∧
      tar.headers.toArray = (located start entries).map Prod.fst ∧
      ∀ header entry, (header, entry) ∈ located start entries →
        (∃ file, tar.getFile memory (.ofChars entry.name) = .ok (some file) ∧
          bytesAt memory file entry.contents.length = entry.contents) ∧
        ∃ node, ofHeader memory fresh tar header = .ok node ∧
          node.getLength = entry.contents.length ∧
          ∀ pos numBytes, pos + numBytes < 2 ^ 64 → node.readData memory pos numBytes =
            .ok (((entry.contents.drop pos).take numBytes).length,
              (entry.contents.drop pos).take numBytes) := by
  have hlength : entries.length < 2 ^ 32 := by
    have hle := le_finish start entries
    have hfits := h.fits
    omega
  have hnew : Archive.new.Collected [] := ⟨rfl, rfl⟩
  obtain ⟨tar, hfrom, htar⟩ :=
    Archive.fromLoop_collects h hrounds hnew ((Nat.zero_add _).trans_lt hlength)
  refine ⟨tar, hfrom, htar.toArray, fun header entry hmem => ?_⟩
  have hcontents := (h.entryAt _ hmem).contents
  have hentry : entry ∈ entries := map_snd_located start entries ▸ mem_map_of_mem hmem
  obtain ⟨node, hnode, hsize, hbuffer⟩ := ofHeader_eq fresh htar h hnames hmem (hnamed entry hentry)
  refine ⟨⟨header + 512, htar.getFile_eq h hnames hmem, hcontents⟩, node, hnode, hsize, ?_⟩
  intro pos numBytes hpos
  exact readData_eq hbuffer hsize hcontents hpos

/-- A header with a name and the digits of a size. -/
def headerBlock (name digits : List UInt8) : List UInt8 :=
  name ++ List.replicate (124 - name.length) 0 ++ digits ++ List.replicate 21 0 ++ [LF_OLDNORMAL] ++
    List.replicate 355 0

def memoryOf (bytes : List UInt8) : Mem := fun a => if a < 4096 then 0 else bytes.getD (a - 4096) 0

theorem bytesAt_memoryOf_behind {bytes : List UInt8} {pointer n : Nat}
    (h : 4096 + bytes.length ≤ pointer) (hn : pointer + n ≤ 2 ^ 32) :
    bytesAt (memoryOf bytes) pointer n = List.replicate n 0 := by
  rw [eq_replicate_iff]
  refine ⟨length_bytesAt _ _ _, fun b hb => ?_⟩
  obtain ⟨i, hi, rfl⟩ := mem_map.mp hb
  rw [mem_range] at hi
  rw [byteAt, memoryOf, if_neg (by omega), getD_eq_getElem?_getD, getElem?_eq_none (by omega),
    Option.getD_none]

def twoFiles : List Entry :=
  [⟨[100, 47, 103], [], by decide, by decide, by decide⟩,
    ⟨[102], [1, 2, 3], by decide, by decide, by decide⟩]

def twoFilesMemory : Mem := memoryOf (headerBlock [100, 47, 103] (List.replicate 11 48) ++
  headerBlock [102] (List.replicate 10 48 ++ [51]) ++ [1, 2, 3])

theorem twoFiles_laidOut : LaidOut twoFilesMemory 4096 twoFiles where
  entryAt := by
    refine forall_mem_cons.mpr ⟨⟨?_, ?_, ?_, ?_⟩, forall_mem_singleton.mpr ⟨?_, ?_, ?_, ?_⟩⟩
    all_goals decide +kernel
  terminator := bytesAt_memoryOf_behind (by decide +kernel) (by decide)
  fits := by decide

theorem archive_round_trip_twoFiles :
    ∃ tar, Archive.fromAddress twoFilesMemory 3 4096 = .ok tar ∧
      tar.headers.toArray = [4096, 4608] ∧
      ∃ node, ofHeader twoFilesMemory (fun _ => 0) tar 4608 = .ok node ∧ node.getLength = 3 ∧
        node.readData twoFilesMemory 1 8 = .ok (2, [2, 3]) := by
  obtain ⟨tar, hfrom, hheaders, hfiles⟩ :=
    archive_round_trip twoFiles_laidOut (by decide) (by decide) (by decide : 2 < 3) fun _ => 0
  obtain ⟨-, node, hnode, hlength, hread⟩ := hfiles 4608 _ (mem_cons_of_mem _ mem_cons_self)
  exact ⟨tar, hfrom, hheaders, node, hnode, hlength, hread 1 8 (by decide)⟩

def separatorFile : Entry := ⟨[47], [], by decide, by decide, by decide⟩

def separatorMemory : Mem := memoryOf (headerBlock [47] (List.replicate 11 48))

theorem separatorFile_laidOut : LaidOut separatorMemory 4096 [separatorFile] where
  entryAt := by
    refine forall_mem_singleton.mpr ⟨?_, ?_, ?_, ?_⟩
    all_goals decide +kernel
  terminator := bytesAt_memoryOf_behind (by decide +kernel) (by decide)
  fits := by decide

/-- The header of the file is collected, but its node looks for the last of no tokens. -/
theorem separatorFile_has_no_node :
    LaidOut separatorMemory 4096 [separatorFile] ∧
      ∃ tar, Archive.fromAddress separatorMemory 2 4096 = .ok tar ∧ tar.headers.toArray = [4096] ∧
        ∀ fresh, ofHeader separatorMemory fresh tar 4096 =
          .error (.throwException .OUT_OF_BOUNDS) := by
  have hnew : Archive.new.Collected [] := ⟨rfl, rfl⟩
  obtain ⟨tar, hfrom, htar⟩ :=
    Archive.fromLoop_collects separatorFile_laidOut (by decide : 1 < 2) hnew (by decide)
  refine ⟨separatorFile_laidOut, tar, hfrom, htar.toArray, fun fresh => ?_⟩
  have hentry := separatorFile_laidOut.entryAt (4096, separatorFile) mem_cons_self
  have hlast : lastToken fresh (.ofChars separatorFile.name) =
      .error (.throwException .OUT_OF_BOUNDS) := rfl
  simp only [ofHeader, hentry.filename_eq, hlast, bind, Except.bind]

end Tar

end HuyaOS.Filesystem
