import HuyaOS.Storage.Partition

/-!
`VirtualDiskDrive`, a device whose sectors are in a buffer on the heap. An access is checked
by the sum of its first sector and the number of sectors, which has 32 bits. The constructor
raises sectors of less than 512 bytes for the buffer, but not for the accesses. The allocation
of the buffer is taken to succeed: `new` returns a null pointer if it fails, and nothing checks
for one.

As long as no sum wraps around and the buffer is as large as its sectors, the device cannot
be told apart from an array of sectors.
-/

namespace HuyaOS.Storage

open Lib List

/-- What a call does: it returns false, it copies bytes and returns true, or it copies bytes
that are not in the buffer. -/
inductive DiskAnswer
  | refused
  | done (data : List UInt8)
  | outOfBuffer
  deriving DecidableEq

/-- `buff` is the memory behind the pointer that is passed. -/
inductive DiskCall
  | read (sector count : UInt32)
  | write (buff : Nat → UInt8) (sector count : UInt32)

namespace DiskCall

def sector : DiskCall → UInt32
  | .read sector _ => sector
  | .write _ sector _ => sector

def count : DiskCall → UInt32
  | .read _ count => count
  | .write _ _ count => count

end DiskCall

structure VirtualDiskDrive where
  sectorSize : UInt32
  sectorCount : UInt32
  bufferSize : UInt32
  buffer : Nat → UInt8

namespace VirtualDiskDrive

/-- The number of bytes that the constructor allocates. -/
def allocated (sectorSize sectorCount : UInt32) : UInt32 :=
  sectorCount * if sectorSize < 512 then 512 else sectorSize

/-- The constructor. The buffer holds what the heap held before. -/
def new (sectorSize sectorCount : UInt32) (contents : Nat → UInt8) : VirtualDiskDrive :=
  ⟨sectorSize, sectorCount, allocated sectorSize sectorCount, contents⟩

variable (drive : VirtualDiskDrive)

/-- The check of `read` and `write`, and the range of the buffer that they copy. -/
def access (sector count : UInt32) (copy : Nat → Nat → VirtualDiskDrive × DiskAnswer) :
    VirtualDiskDrive × DiskAnswer :=
  if sector + count > drive.sectorCount then (drive, .refused)
  else
    let offset := (sector * drive.sectorSize).toNat
    let length := (count * drive.sectorSize).toNat
    if length = 0 ∨ offset + length ≤ drive.bufferSize.toNat then copy offset length
    else (drive, .outOfBuffer)

def copyOut (offset length : Nat) : VirtualDiskDrive × DiskAnswer :=
  (drive, .done ((List.range length).map fun i => drive.buffer (offset + i)))

def copyIn (buff : Nat → UInt8) (offset length : Nat) : VirtualDiskDrive × DiskAnswer :=
  ({ drive with buffer := fun i => if offset ≤ i ∧ i < offset + length then buff (i - offset)
    else drive.buffer i }, .done [])

def read (sector count : UInt32) : VirtualDiskDrive × DiskAnswer :=
  drive.access sector count drive.copyOut

def write (buff : Nat → UInt8) (sector count : UInt32) : VirtualDiskDrive × DiskAnswer :=
  drive.access sector count (drive.copyIn buff)

def call : DiskCall → VirtualDiskDrive × DiskAnswer
  | .read sector count => drive.read sector count
  | .write buff sector count => drive.write buff sector count

def sectorAt (size : Nat) (bytes : Nat → UInt8) (i : Nat) : List UInt8 :=
  (List.range size).map fun k => bytes (i * size + k)

/-- What a device of `sectors` sectors answers. -/
def arrayCall (size sectors : Nat) (disk : Nat → List UInt8) :
    DiskCall → (Nat → List UInt8) × DiskAnswer
  | .read sector count =>
      (disk, (((Device.ofSize (List UInt8) sectors).read disk sector count).map
        fun data => DiskAnswer.done data.flatten).getD .refused)
  | .write buff sector count =>
      let result := (Device.ofSize (List UInt8) sectors).write disk
        ((List.range count.toNat).map (sectorAt size buff)) sector count
      (result.2, if result.1 then .done [] else .refused)

/-- The sum of the sectors wraps around only if the check fails nevertheless, and what passes
the check is in the buffer. -/
def Sound (sectorSize sectorCount : UInt32) (c : DiskCall) : Prop :=
  (c.sector.toNat + c.count.toNat < 2 ^ 32 ∨
    sectorCount.toNat < c.sector.toNat + c.count.toNat - 2 ^ 32) ∧
    (c.sector.toNat + c.count.toNat ≤ sectorCount.toNat → c.count.toNat * sectorSize.toNat = 0 ∨
      (c.sector.toNat + c.count.toNat) * sectorSize.toNat ≤
        (allocated sectorSize sectorCount).toNat)

/-- The sectors of the array are those of the buffer. -/
structure Holds (sectorSize sectorCount : UInt32) (drive : VirtualDiskDrive)
    (disk : Nat → List UInt8) : Prop where
  sectorSize_eq : drive.sectorSize = sectorSize
  sectorCount_eq : drive.sectorCount = sectorCount
  bufferSize_eq : drive.bufferSize = allocated sectorSize sectorCount
  sectors : ∀ i < sectorCount.toNat, disk i = sectorAt sectorSize.toNat drive.buffer i

section Calls

variable {sectorSize sectorCount : UInt32} {drive} {disk : Nat → List UInt8} {sector count : UInt32}
  {copy : Nat → Nat → VirtualDiskDrive × DiskAnswer}

theorem flatten_sectors (size : Nat) (bytes : Nat → UInt8) (first n : Nat) :
    ((List.range n).map fun i => sectorAt size bytes (first + i)).flatten =
      (List.range (n * size)).map fun i => bytes (first * size + i) := by
  induction n with
  | zero => rw [Nat.zero_mul]; rfl
  | succ n ih =>
    rw [range_succ, map_append, flatten_append, Nat.add_mul, Nat.one_mul, range_add, map_append]
    congr 1
    simp only [map_cons, map_nil, flatten_cons, flatten_nil, append_nil, sectorAt, map_map,
      Function.comp_def]
    apply map_congr_left
    intro k _
    rw [Nat.add_mul, Nat.add_assoc]

/-- The check sees the sum in 32 bits. -/
theorem not_check_iff :
    ¬sector + count > sectorCount ↔ (sector.toNat + count.toNat) % 2 ^ 32 ≤ sectorCount.toNat := by
  rw [gt_iff_lt, UInt32.lt_iff_toNat_lt, UInt32.toNat_add, not_lt]

theorem product_lt (hfits : sectorSize.toNat * sectorCount.toNat < 2 ^ 32) {n : Nat}
    (hn : n ≤ sectorCount.toNat) :
    n * sectorSize.toNat < 2 ^ 32 := by
  have hle := Nat.mul_le_mul_right sectorSize.toNat hn
  rw [Nat.mul_comm sectorCount.toNat] at hle
  omega

theorem access_inside (hfits : sectorSize.toNat * sectorCount.toNat < 2 ^ 32)
    (h : Holds sectorSize sectorCount drive disk)
    (hinside : sector.toNat + count.toNat ≤ sectorCount.toNat) :
    drive.access sector count copy =
      if count.toNat * sectorSize.toNat = 0 ∨
          (sector.toNat + count.toNat) * sectorSize.toNat ≤
            (allocated sectorSize sectorCount).toNat then
        copy (sector.toNat * sectorSize.toNat) (count.toNat * sectorSize.toNat)
      else (drive, .outOfBuffer) := by
  have hchecked : ¬sector + count > sectorCount := by
    rw [not_check_iff]
    omega
  unfold access
  rw [h.sectorSize_eq, h.sectorCount_eq, h.bufferSize_eq, if_neg hchecked]
  simp only [UInt32.toNat_mul, Nat.mod_eq_of_lt (product_lt hfits (Nat.le_of_add_right_le hinside)),
    Nat.mod_eq_of_lt (product_lt hfits (Nat.le_of_add_left_le hinside)), ← Nat.add_mul]

theorem access_outside (h : Holds sectorSize sectorCount drive disk)
    (houtside : ¬sector.toNat + count.toNat ≤ sectorCount.toNat)
    (hcopy : ∀ offset length, (copy offset length).2 ≠ .refused) :
    (drive.access sector count copy).2 = .refused ↔ sector.toNat + count.toNat < 2 ^ 32 ∨
      sectorCount.toNat < sector.toNat + count.toNat - 2 ^ 32 := by
  have hsector := sector.toNat_lt
  have hcount := count.toNat_lt
  have hcheck : sector + count > sectorCount ↔ sector.toNat + count.toNat < 2 ^ 32 ∨
      sectorCount.toNat < sector.toNat + count.toNat - 2 ^ 32 := by
    rw [← not_iff_not, not_check_iff]
    omega
  rw [← hcheck]
  unfold access
  rw [h.sectorCount_eq]
  split
  · rename_i hrefused
    exact iff_of_true rfl hrefused
  · rename_i hpassed
    refine iff_of_false ?_ hpassed
    simp only
    split
    · apply hcopy
    · exact DiskAnswer.noConfusion

theorem access_refused (h : (drive.access sector count copy).2 = .refused)
    (hcopy : ∀ offset length, (copy offset length).2 ≠ .refused) :
    drive.access sector count copy = (drive, .refused) := by
  unfold access at h ⊢
  split
  · rfl
  · rename_i hpassed
    rw [if_neg hpassed] at h
    simp only at h
    split at h
    · exact absurd h (hcopy _ _)
    · cases h

theorem call_eq_access (drive : VirtualDiskDrive) (c : DiskCall) :
    ∃ copy : Nat → Nat → VirtualDiskDrive × DiskAnswer,
      drive.call c = drive.access c.sector c.count copy ∧
      ∀ offset length, (copy offset length).2 ≠ .refused := by
  cases c with
  | read sector count =>
    refine ⟨drive.copyOut, rfl, ?_⟩
    intro offset length hrefused
    cases hrefused
  | write buff sector count =>
    refine ⟨drive.copyIn buff, rfl, ?_⟩
    intro offset length hrefused
    cases hrefused

variable {c : DiskCall} {sectors : Nat}

theorem arrayCall_ne_outOfBuffer (size sectors : Nat) (disk : Nat → List UInt8) (c : DiskCall) :
    (arrayCall size sectors disk c).2 ≠ .outOfBuffer := by
  cases c with
  | read sector count =>
    simp only [arrayCall]
    cases (Device.ofSize (List UInt8) sectors).read disk sector count with
    | none => exact DiskAnswer.noConfusion
    | some data => exact DiskAnswer.noConfusion
  | write buff sector count =>
    simp only [arrayCall]
    split <;> exact DiskAnswer.noConfusion

theorem arrayCall_outside {size : Nat} (h : ¬c.sector.toNat + c.count.toNat ≤ sectors) :
    arrayCall size sectors disk c = (disk, .refused) := by
  cases c with
  | read sector count =>
    have hread : (Device.ofSize (List UInt8) sectors).read disk sector count = none := if_neg h
    rw [arrayCall, hread]
    rfl
  | write buff sector count =>
    have hwrite : ∀ data, (Device.ofSize (List UInt8) sectors).write disk data sector count =
        (false, disk) :=
      fun data => if_neg h
    simp only [arrayCall, hwrite]
    rfl

theorem sectorAt_copied (size : Nat) (buffer buff : Nat → UInt8) (first n i : Nat) :
    sectorAt size (fun k => if first * size ≤ k ∧ k < first * size + n * size then
      buff (k - first * size)
      else buffer k) i =
    if first ≤ i ∧ i < first + n then sectorAt size buff (i - first)
      else sectorAt size buffer i := by
  have hinside :
      ∀ k < size, (first * size ≤ i * size + k ∧ i * size + k < first * size + n * size) ↔
      (first ≤ i ∧ i < first + n) := by
    intro k hk
    have hpos : 0 < size := by omega
    have hsector : (i * size + k) / size = i := by
      rw [Nat.add_comm, Nat.add_mul_div_right _ _ hpos, Nat.div_eq_of_lt hk, Nat.zero_add]
    rw [← Nat.add_mul, ← Nat.le_div_iff_mul_le hpos, ← Nat.div_lt_iff_lt_mul hpos, hsector]
  split
  · rename_i hcopied
    apply map_congr_left
    intro k hk
    have hbefore := Nat.mul_le_mul_right size hcopied.1
    simp only [if_pos ((hinside k (mem_range.mp hk)).mpr hcopied)]
    rw [Nat.sub_mul, Nat.sub_add_comm hbefore]
  · rename_i hkept
    apply map_congr_left
    intro k hk
    exact if_neg fun hcopied => hkept ((hinside k (mem_range.mp hk)).mp hcopied)

section

variable (hfits : sectorSize.toNat * sectorCount.toNat < 2 ^ 32)
  (h : Holds sectorSize sectorCount drive disk)

include hfits h

section

variable (hinside : sector.toNat + count.toNat ≤ sectorCount.toNat)
  (hbuffer : count.toNat * sectorSize.toNat = 0 ∨
      (sector.toNat + count.toNat) * sectorSize.toNat ≤ (allocated sectorSize sectorCount).toNat)

include hinside hbuffer

theorem Holds.read :
    Holds sectorSize sectorCount (drive.call (.read sector count)).1
        (arrayCall sectorSize.toNat sectorCount.toNat disk (.read sector count)).1 ∧
      (drive.call (.read sector count)).2 =
        (arrayCall sectorSize.toNat sectorCount.toNat disk (.read sector count)).2 := by
  have hsectors : ((range count.toNat).map fun i => disk (sector.toNat + i)) =
      (range count.toNat).map fun i =>
        sectorAt sectorSize.toNat drive.buffer (sector.toNat + i) := by
    apply map_congr_left
    intro i hi
    apply h.sectors
    have := mem_range.mp hi
    omega
  simp only [call, VirtualDiskDrive.read, arrayCall, Device.ofSize]
  rw [access_inside hfits h hinside, if_pos hbuffer, if_pos hinside, hsectors]
  refine ⟨h, ?_⟩
  simp only [Option.map_some, Option.getD_some, flatten_sectors, copyOut]

theorem Holds.write (buff : Nat → UInt8) :
    Holds sectorSize sectorCount (drive.call (.write buff sector count)).1
        (arrayCall sectorSize.toNat sectorCount.toNat disk (.write buff sector count)).1 ∧
      (drive.call (.write buff sector count)).2 =
        (arrayCall sectorSize.toNat sectorCount.toNat disk (.write buff sector count)).2 := by
  simp only [call, VirtualDiskDrive.write, arrayCall, Device.ofSize, if_pos hinside]
  rw [access_inside hfits h hinside, if_pos hbuffer]
  refine ⟨⟨h.sectorSize_eq, h.sectorCount_eq, h.bufferSize_eq, ?_⟩, rfl⟩
  intro i hi
  simp only [copyIn, sectorAt_copied]
  split
  · have hlt : i - sector.toNat < count.toNat := by omega
    rw [getD_eq_getElem?_getD, getElem?_map, getElem?_range hlt]
    rfl
  · exact h.sectors i hi

end

theorem Holds.call (hsound : Sound sectorSize sectorCount c) :
    Holds sectorSize sectorCount (drive.call c).1
      (arrayCall sectorSize.toNat sectorCount.toNat disk c).1 ∧
      (drive.call c).2 = (arrayCall sectorSize.toNat sectorCount.toNat disk c).2 := by
  by_cases hinside : c.sector.toNat + c.count.toNat ≤ sectorCount.toNat
  · cases c with
    | read sector count => exact h.read hfits hinside (hsound.2 hinside)
    | write buff sector count => exact h.write hfits hinside (hsound.2 hinside) buff
  · obtain ⟨copy, hcall, hcopy⟩ := drive.call_eq_access c
    rw [arrayCall_outside hinside, hcall,
      access_refused ((access_outside h hinside hcopy).mpr hsound.1) hcopy]
    exact ⟨h, rfl⟩

/-- A call that is not sound is answered in another way than by the array. -/
theorem Holds.call_ne (hnot : ¬Sound sectorSize sectorCount c) :
    (drive.call c).2 ≠ (arrayCall sectorSize.toNat sectorCount.toNat disk c).2 := by
  have hcount := sectorCount.toNat_lt
  obtain ⟨copy, hcall, hcopy⟩ := drive.call_eq_access c
  rw [hcall]
  by_cases hinside : c.sector.toNat + c.count.toNat ≤ sectorCount.toNat
  · have hleaves : ¬(c.count.toNat * sectorSize.toNat = 0 ∨
        (c.sector.toNat + c.count.toNat) * sectorSize.toNat ≤
          (allocated sectorSize sectorCount).toNat) :=
      fun hbuffer => hnot ⟨Or.inl (by omega), fun _ => hbuffer⟩
    rw [access_inside hfits h hinside, if_neg hleaves]
    exact (arrayCall_ne_outOfBuffer _ _ disk c).symm
  · rw [arrayCall_outside hinside]
    intro hrefused
    exact hnot ⟨(access_outside h hinside hcopy).mp hrefused, fun hin => absurd hin hinside⟩

end

end Calls

/-- A drive answers every run of calls as an array of sectors does exactly if all calls are
sound. -/
theorem answers_as_array_iff (sectorSize sectorCount : UInt32) (contents : Nat → UInt8)
    (hfits : sectorSize.toNat * sectorCount.toNat < 2 ^ 32) (calls : List DiskCall) :
    (execute call (new sectorSize sectorCount contents) calls).2 =
      (execute (arrayCall sectorSize.toNat sectorCount.toNat)
        (sectorAt sectorSize.toNat contents) calls).2 ↔
    ∀ c ∈ calls, Sound sectorSize sectorCount c := by
  have hinit : Holds sectorSize sectorCount (new sectorSize sectorCount contents)
      (sectorAt sectorSize.toNat contents) := ⟨rfl, rfl, rfl, fun _ _ => rfl⟩
  have hmet : ∀ drive disk c, Holds sectorSize sectorCount drive disk →
      Sound sectorSize sectorCount c →
      Holds sectorSize sectorCount (call drive c).1
        (arrayCall sectorSize.toNat sectorCount.toNat disk c).1 ∧
        (call drive c).2 = (arrayCall sectorSize.toNat sectorCount.toNat disk c).2 :=
    fun drive disk c h hsound => h.call hfits hsound
  have hnot : ∀ drive disk c, Holds sectorSize sectorCount drive disk →
      ¬Sound sectorSize sectorCount c →
      (call drive c).2 ≠ (arrayCall sectorSize.toNat sectorCount.toNat disk c).2 :=
    fun drive disk c h hnot => h.call_ne hfits hnot
  have hagree := execute_agree_iff (fun _ _ => True) hmet hnot (fun _ _ _ => trivial) hinit calls
  rwa [and_true, allMet_iff_forall] at hagree

/-- Two sectors of 512 bytes. -/
theorem answers_as_array_iff_two :
    (execute call (new 512 2 fun _ => 0) [.write (fun _ => 7) 1 1, .read 0 2]).2 =
      (execute (arrayCall 512 2) (sectorAt 512 fun _ => 0)
        [.write (fun _ => 7) 1 1, .read 0 2]).2 := by
  refine (answers_as_array_iff 512 2 (fun _ => 0) (by decide) _).mpr ?_
  simp only [forall_mem_cons, Sound]
  decide +kernel

/-- A drive accepts the last sector that 32 bits can count and leaves its buffer. Of a drive with
2 ^ 23 sectors of one byte it has allocated nothing. -/
theorem leaves_buffer :
    (execute call (new 512 4 fun _ => 0) [.read 0xFFFFFFFF 1]).2 = [.outOfBuffer] ∧
      (execute (arrayCall 512 4) (sectorAt 512 fun _ => 0) [.read 0xFFFFFFFF 1]).2 = [.refused] ∧
      (execute call (new 1 0x800000 fun _ => 0) [.read 0 1]).2 = [.outOfBuffer] ∧
      (execute (arrayCall 1 0x800000) (sectorAt 1 fun _ => 0) [.read 0 1]).2 = [.done [0]] := by
  decide +kernel

end VirtualDiskDrive

end HuyaOS.Storage
