import HuyaOS.Filesystem.NodeData
import HuyaOS.Filesystem.TarArchive

/-!
How much `readData` reads. Both kinds of files cut a read off at the end of the file by
comparing `pos + numBytes` with the length. The sum has 64 bits: where it wraps around, it is
less than `pos`, so the read is not cut off and goes on behind the end.
-/

namespace HuyaOS.Filesystem

open Lib

variable {node : NodeData} {buffer : Nat}

/-- The number of bytes from a position to the end of a file that a read may return. -/
def readable (length pos numBytes : Nat) : Nat :=
  if pos < length then min numBytes (length - pos) else 0

def cutOff (length pos numBytes : Nat) : Nat :=
  if (pos + numBytes) % 2 ^ 64 > length then length - pos else numBytes

variable {length pos : Nat}

theorem pos_add_readable_le (hpos : pos < length) (numBytes : Nat) :
    pos + readable length pos numBytes ≤ length := by
  unfold readable
  rw [if_pos hpos]
  omega

/-- A wrapped sum is too small to be noticed. -/
theorem cutOff_eq_readable_iff {numBytes : Nat} (hpos : pos < length) (hlength : length < 2 ^ 64)
    (hnum : numBytes < 2 ^ 64) :
    cutOff length pos numBytes = readable length pos numBytes ↔ pos + numBytes < 2 ^ 64 := by
  unfold cutOff readable
  rw [if_pos hpos]
  constructor
  · intro heq
    by_contra hwrap
    have hsum : (pos + numBytes) % 2 ^ 64 = pos + numBytes - 2 ^ 64 := by omega
    rw [if_neg (by omega)] at heq
    omega
  · intro hsum
    split <;> omega

theorem readable_of_le (hpos : length ≤ pos) (numBytes : Nat) : readable length pos numBytes = 0 :=
  if_neg (not_lt.mpr hpos)

theorem NodeData.readData_of_lt (hpos : pos < node.length) (numBytes : Nat) :
    node.readData pos numBytes =
      (Cpu.access (loadAll node.data (offset pos) (cutOff node.length pos numBytes))).map
        fun buf => (cutOff node.length pos numBytes, buf) := by
  unfold NodeData.readData
  rw [if_neg (not_le.mpr hpos)]
  change (Cpu.access (loadAll node.data (offset pos) (cutOff node.length pos numBytes)) >>= _) = _
  cases Cpu.access (loadAll node.data (offset pos) (cutOff node.length pos numBytes)) <;> rfl

theorem TarArchiveNode.readData_of_lt {memory : Mem} {node : TarArchiveNode}
    (hbuffer : node.fileBuffer = some buffer) (hpos : pos < node.fileSize) (numBytes : Nat) :
    node.readData memory pos numBytes = .ok (cutOff node.fileSize pos numBytes,
        Tar.bytesAt memory (buffer + pos) (cutOff node.fileSize pos numBytes)) := by
  unfold TarArchiveNode.readData
  rw [if_neg (not_le.mpr hpos), hbuffer]
  rfl

section Reads

variable {pos numBytes : Nat} (hnum : numBytes < 2 ^ 64)

include hnum

theorem NodeData.Holds.readData_iff {node : NodeData} {bytes : List UInt8} (h : node.Holds bytes)
    (hlength : bytes.length < 2 ^ 64) :
    (∃ buf, node.readData pos numBytes = .ok (readable bytes.length pos numBytes, buf)) ↔
      bytes.length ≤ pos ∨ pos + numBytes < 2 ^ 64 := by
  rcases le_or_gt bytes.length pos with hpos | hpos
  · refine iff_of_true ⟨[], ?_⟩ (.inl hpos)
    unfold NodeData.readData
    rw [h.1, if_pos hpos, readable_of_le hpos]
    rfl
  · rw [or_iff_right (not_le.mpr hpos), ← cutOff_eq_readable_iff hpos hlength hnum]
    rw [NodeData.readData_of_lt (h.1.symm ▸ hpos), h.1, h.2]
    constructor
    · rintro ⟨buf, hread⟩
      cases hload : Cpu.access (loadAll bytes (offset pos) (cutOff bytes.length pos numBytes)) with
      | error stop =>
        rw [hload] at hread
        cases hread
      | ok buf' =>
        rw [hload] at hread
        exact congrArg Prod.fst (Except.ok.inj hread)
    · intro hcut
      have hoffset : offset pos ≤ pos := Nat.mod_le _ _
      have hfits := pos_add_readable_le hpos numBytes
      rw [hcut, loadAll_eq (by omega)]
      exact ⟨_, rfl⟩

theorem TarArchiveNode.readData_iff (memory : Mem) {node : TarArchiveNode} {buffer : Nat}
    (hbuffer : node.fileBuffer = some buffer) (hsize : node.fileSize < 2 ^ 32) :
    node.readData memory pos numBytes = .ok (readable node.fileSize pos numBytes,
          Tar.bytesAt memory (buffer + pos) (readable node.fileSize pos numBytes)) ↔
      node.fileSize ≤ pos ∨ pos + numBytes < 2 ^ 64 := by
  rcases le_or_gt node.fileSize pos with hpos | hpos
  · refine iff_of_true ?_ (.inl hpos)
    unfold TarArchiveNode.readData
    rw [if_pos hpos, readable_of_le hpos]
    rfl
  · rw [or_iff_right (not_le.mpr hpos), ← cutOff_eq_readable_iff hpos
      (hsize.trans (by decide)) hnum, TarArchiveNode.readData_of_lt hbuffer hpos]
    constructor
    · exact fun hread => congrArg Prod.fst (Except.ok.inj hread)
    · intro hcut
      rw [hcut]

end Reads

/-- Both kinds of files return what is there and read nothing behind the end exactly if the
read begins behind the end or its sum does not wrap around. -/
theorem reads_within_file_iff {bytes : List UInt8} (hnode : node.Holds bytes)
    (hlength : bytes.length < 2 ^ 64) (memory : Mem) {file : TarArchiveNode}
    (hbuffer : file.fileBuffer = some buffer) (hsize : file.fileSize < 2 ^ 32) (pos : Nat)
    {numBytes : Nat} (hnum : numBytes < 2 ^ 64) :
    ((∃ buf, node.readData pos numBytes = .ok (readable bytes.length pos numBytes, buf)) ↔
      bytes.length ≤ pos ∨ pos + numBytes < 2 ^ 64) ∧
    (file.readData memory pos numBytes = .ok (readable file.fileSize pos numBytes,
          Tar.bytesAt memory (buffer + pos) (readable file.fileSize pos numBytes)) ↔
      file.fileSize ≤ pos ∨ pos + numBytes < 2 ^ 64) :=
  ⟨hnode.readData_iff hnum hlength, file.readData_iff hnum memory hbuffer hsize⟩

/-- Files of three bytes, of which five are to be read from the second on. -/
theorem reads_within_file_iff_three :
    (∃ buf, (NodeData.mk 3 [1, 2, 3]).readData 1 5 = .ok (2, buf)) ∧
      (TarArchiveNode.mk (.ofChars [102]) 3 (some 4608)).readData Tar.twoFilesMemory 1 5 =
        .ok (2, Tar.bytesAt Tar.twoFilesMemory 4609 2) := by
  have hnode : (NodeData.mk 3 [1, 2, 3]).Holds [1, 2, 3] := ⟨rfl, rfl⟩
  have hfile : (TarArchiveNode.mk (.ofChars [102]) 3 (some 4608)).fileBuffer = some 4608 := rfl
  obtain ⟨hread, hread'⟩ := reads_within_file_iff hnode (by decide) Tar.twoFilesMemory hfile
    (by decide) 1 (by decide : 5 < 2 ^ 64)
  exact ⟨hread.mpr (.inr (by decide)), hread'.mpr (.inr (by decide))⟩

/-- From the second byte on as many bytes as 64 bits can count are to be read. Nothing cuts
the read off, so that it leaves the array or goes on through the memory. -/
theorem read_behind_end :
    (NodeData.mk 3 [1, 2, 3]).readData 1 (2 ^ 64 - 1) = .error .strayRead ∧
      ∀ memory, (TarArchiveNode.mk (.ofChars [102]) 3 (some 4608)).readData memory 1 (2 ^ 64 - 1) =
        .ok (2 ^ 64 - 1, Tar.bytesAt memory 4609 (2 ^ 64 - 1)) := by
  constructor
  · have hcut : cutOff 3 1 (2 ^ 64 - 1) = 2 ^ 64 - 1 := by decide
    have hload : loadAll [1, 2, 3] (NodeData.offset 1) (2 ^ 64 - 1) =
        (none : Option (List UInt8)) :=
      loadAll_eq_none (by decide) (by decide)
    rw [NodeData.readData_of_lt (by decide)]
    simp only [hcut, hload]
    rfl
  · intro memory
    exact TarArchiveNode.readData_of_lt rfl (by decide) (2 ^ 64 - 1)

end HuyaOS.Filesystem
