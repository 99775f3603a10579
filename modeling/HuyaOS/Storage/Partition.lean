import HuyaOS.Lib.Transition

/-!
`Partition`, a device that passes its calls on to the device it lies on. It refuses
an access to more sectors than it has, but does not ask where the access starts.
So it stays inside its own sectors as long as the callers do.

In a run in which all callers do, partitions without common sectors cannot be told
apart from partitions on devices of their own: what is read from one is the same
whatever is done to the others.
-/

namespace HuyaOS.Storage

open Lib

variable {S : Type}

/-- An access to `count` sectors from `sector` on gets to the sector `i`. -/
def Touches (sector count : UInt32) (i : Nat) : Prop :=
  sector.toNat ≤ i ∧ i < sector.toNat + count.toNat

/-- `read` and `write` of a storage device, given the contents of its sectors. What
they do depends on the sectors they get to, and they change no others. A read that
fails gives no sectors; what a write that fails has written is left open. -/
structure Device (S : Type) where
  read : (Nat → S) → UInt32 → UInt32 → Option (List S)
  write : (Nat → S) → List S → UInt32 → UInt32 → Bool × (Nat → S)
  read_congr : ∀ {disk disk' : Nat → S} {sector count : UInt32},
    (∀ i, Touches sector count i → disk i = disk' i) →
    read disk sector count = read disk' sector count
  write_congr : ∀ {disk disk' : Nat → S} {sector count : UInt32} (buff : List S),
    (∀ i, Touches sector count i → disk i = disk' i) →
    (write disk buff sector count).1 = (write disk' buff sector count).1 ∧
      ∀ i, Touches sector count i → (write disk buff sector count).2 i =
        (write disk' buff sector count).2 i
  write_outside : ∀ (disk : Nat → S) (buff : List S) {sector count : UInt32} {i : Nat},
    ¬Touches sector count i →
    (write disk buff sector count).2 i = disk i

/-- A device whose accesses succeed if they stay below `sectors`. -/
def Device.ofSize (S : Type) [Inhabited S] (sectors : Nat) : Device S where
  read disk sector count :=
    if sector.toNat + count.toNat ≤ sectors then
      some ((List.range count.toNat).map fun i => disk (sector.toNat + i))
    else none
  write disk buff sector count :=
    if sector.toNat + count.toNat ≤ sectors then
      (true, fun i => if sector.toNat ≤ i ∧ i < sector.toNat + count.toNat then
        buff.getD (i - sector.toNat) default
        else disk i)
    else (false, disk)
  read_congr h := by
    split
    · refine congrArg some (List.map_congr_left fun i hi => h _ ?_)
      exact ⟨Nat.le_add_right _ _, Nat.add_lt_add_left (List.mem_range.mp hi) _⟩
    · rfl
  write_congr buff h := by
    split
    · refine ⟨rfl, fun i hi => ?_⟩
      exact (if_pos hi).trans (if_pos hi).symm
    · exact ⟨rfl, h⟩
  write_outside := by
    intro disk buff sector count i h
    split
    · exact if_neg h
    · rfl

structure Partition where
  startSector : UInt32
  sectorCount : UInt32

namespace Partition

/-- The sum of the sectors has 32 bits. -/
def read (p : Partition) (parentDevice : Device S) (disk : Nat → S) (sector count : UInt32) :
    Option (List S) :=
  if count > p.sectorCount then none else parentDevice.read disk (p.startSector + sector) count

def write (p : Partition) (parentDevice : Device S) (disk : Nat → S) (buff : List S)
    (sector count : UInt32) :
    Bool × (Nat → S) :=
  if count > p.sectorCount then (false, disk)
    else parentDevice.write disk buff (p.startSector + sector) count

def Contains (p : Partition) (i : Nat) : Prop :=
  p.startSector.toNat ≤ i ∧ i < p.startSector.toNat + p.sectorCount.toNat

/-- The call is refused, or it stays inside the partition. -/
def Confined (p : Partition) (sector count : UInt32) : Prop :=
  count > p.sectorCount ∨ ∀ i, Touches (p.startSector + sector) count i → p.Contains i

/-- What a caller has to see to. -/
def Meets (p : Partition) (sector count : UInt32) : Prop :=
  count > p.sectorCount ∨ count = 0 ∨
    p.startSector.toNat + sector.toNat < 2 ^ 32 ∧ sector.toNat + count.toNat ≤ p.sectorCount.toNat

theorem confined_iff (p : Partition) (sector count : UInt32) :
    p.Confined sector count ↔ p.Meets sector count := by
  refine or_congr_right ?_
  have hsum : (p.startSector + sector).toNat = (p.startSector.toNat + sector.toNat) % 2 ^ 32 :=
    UInt32.toNat_add _ _
  have hsector : sector.toNat < 2 ^ 32 := sector.toNat_lt
  have hzero : count = 0 ↔ count.toNat = 0 := UInt32.toNat_inj.symm
  unfold Touches Contains
  rw [hsum, hzero]
  constructor
  · intro hinside
    by_cases hcount : count.toNat = 0
    · exact .inl hcount
    · -- the first and the last sector of the access
      have hfirst := hinside ((p.startSector.toNat + sector.toNat) % 2 ^ 32) (by omega)
      have hlast :=
        hinside ((p.startSector.toNat + sector.toNat) % 2 ^ 32 + count.toNat - 1) (by omega)
      omega
  · rintro (hcount | ⟨hstart, hend⟩) i hi
    · omega
    · omega

/-- Calls that any of the partitions `parts` gets. -/
inductive Call (S : Type)
  | read (sector count : UInt32)
  | write (buff : List S) (sector count : UInt32)

inductive Answer (S : Type)
  | sectors (result : Option (List S))
  | written (result : Bool)
  deriving DecidableEq

def call (parentDevice : Device S) (disk : Nat → S) (p : Partition) : Call S → (Nat → S) × Answer S
  | .read sector count => (disk, .sectors (p.read parentDevice disk sector count))
  | .write buff sector count =>
      let result := p.write parentDevice disk buff sector count
      (result.2, .written result.1)

def Call.Meets (p : Partition) : Call S → Prop
  | .read sector count => p.Meets sector count
  | .write _ sector count => p.Meets sector count

/-- The disks hold the same in the sectors of the partition. -/
def Agree (p : Partition) (disk disk' : Nat → S) : Prop := ∀ i, p.Contains i → disk i = disk' i

section Calls

variable (parentDevice : Device S) {p q : Partition} {disk disk' : Nat → S}

/-- A call sees its own partition only. -/
theorem Agree.call (h : p.Agree disk disk') {c : Call S} (hc : c.Meets p) :
    p.Agree (call parentDevice disk p c).1 (call parentDevice disk' p c).1 ∧
      (call parentDevice disk p c).2 = (call parentDevice disk' p c).2 := by
  cases c with
  | read sector count =>
    refine ⟨h, congrArg Answer.sectors ?_⟩
    unfold Partition.read
    split
    · rfl
    · rename_i hcount
      have hinside := ((p.confined_iff sector count).mpr hc).resolve_left hcount
      exact parentDevice.read_congr fun i hi => h i (hinside i hi)
  | write buff sector count =>
    change p.Agree (p.write parentDevice disk buff sector count).2
      (p.write parentDevice disk' buff sector count).2 ∧
      Answer.written (p.write parentDevice disk buff sector count).1 =
        Answer.written (p.write parentDevice disk' buff sector count).1
    unfold Partition.write
    split
    · exact ⟨h, rfl⟩
    · rename_i hcount
      have hinside := ((p.confined_iff sector count).mpr hc).resolve_left hcount
      obtain ⟨hresult, hwritten⟩ := parentDevice.write_congr buff fun i hi => h i (hinside i hi)
      refine ⟨fun i hi => ?_, congrArg Answer.written hresult⟩
      by_cases htouched : Touches (p.startSector + sector) count i
      · exact hwritten i htouched
      · exact (parentDevice.write_outside disk buff htouched).trans
          ((h i hi).trans (parentDevice.write_outside disk' buff htouched).symm)

theorem Agree.call_other (h : p.Agree disk disk') (hdisjoint : ∀ i, q.Contains i → ¬p.Contains i)
    {c : Call S} (hc : c.Meets q) : p.Agree (Partition.call parentDevice disk q c).1 disk' := by
  cases c with
  | read sector count => exact h
  | write buff sector count =>
    change p.Agree (q.write parentDevice disk buff sector count).2 disk'
    unfold Partition.write
    split
    · exact h
    · rename_i hcount
      have hinside := ((q.confined_iff sector count).mpr hc).resolve_left hcount
      intro i hi
      have houtside : ¬Touches (q.startSector + sector) count i := fun htouched =>
        hdisjoint i (hinside i htouched) hi
      exact (parentDevice.write_outside disk buff houtside).trans (h i hi)

end Calls

variable {ι : Type} [DecidableEq ι]

/-- A call on the partition `c.1`. -/
def step (parentDevice : Device S) (parts : ι → Partition) (disk : Nat → S) (c : ι × Call S) :
    (Nat → S) × Answer S :=
  call parentDevice disk (parts c.1) c.2

/-- A call is refused or stays inside its partition exactly if it meets the
condition. In a run of calls that all do, on partitions without common sectors,
each partition gives the answers and ends with the contents that it would if it
were alone on a disk that agrees on its own sectors. -/
theorem isolated_of_met (parentDevice : Device S) (parts : ι → Partition) :
    (∀ k sector count, (parts k).Confined sector count ↔ (parts k).Meets sector count) ∧
    ((∀ j k, j ≠ k → ∀ i, (parts j).Contains i → ¬(parts k).Contains i) →
      ∀ calls : List (ι × Call S), (∀ c ∈ calls, c.2.Meets (parts c.1)) →
      ∀ k (disk disk' : Nat → S), (parts k).Agree disk disk' →
        let own := fun c : ι × Call S => decide (c.1 = k)
        let run := execute (step parentDevice parts) disk calls
        let alone := execute (step parentDevice parts) disk' (calls.filter own)
        answersTo own calls run.2 = alone.2 ∧ (parts k).Agree run.1 alone.1) := by
  refine ⟨fun k sector count => (parts k).confined_iff sector count, ?_⟩
  intro hdisjoint calls hmet k disk disk' hagree own run alone
  have hown : ∀ disk disk' (c : ι × Call S), own c = true → c.2.Meets (parts c.1) →
      (parts k).Agree disk disk' →
      (parts k).Agree (step parentDevice parts disk c).1 (step parentDevice parts disk' c).1 ∧
        (step parentDevice parts disk c).2 = (step parentDevice parts disk' c).2 := by
    rintro disk disk' ⟨j, c⟩ hj hc h
    obtain rfl : j = k := of_decide_eq_true hj
    exact h.call parentDevice hc
  have hother : ∀ disk disk' (c : ι × Call S), own c = false → c.2.Meets (parts c.1) →
      (parts k).Agree disk disk' →
      (parts k).Agree (step parentDevice parts disk c).1 disk' := by
    rintro disk disk' ⟨j, c⟩ hj hc h
    exact h.call_other parentDevice (hdisjoint j k (of_decide_eq_false hj)) hc
  exact (execute_purge hown hother hagree hmet).symm

/-- Two partitions side by side, one written and the other read. -/
theorem isolated_of_met_two_partitions :
    let parts : Bool → Partition := fun k => if k then ⟨15, 5⟩ else ⟨10, 5⟩
    let calls : List (Bool × Call Nat) := [(false, .write [7] 4 1), (true, .read 0 1)]
    answersTo (fun c => decide (c.1 = true)) calls
        (execute (step (Device.ofSize Nat 20) parts) (fun i => i) calls).2 =
          [.sectors (some [15])] := by
  intro parts calls
  have hdisjoint : ∀ j k, j ≠ k → ∀ i, (parts j).Contains i → ¬(parts k).Contains i := by
    intro j k hne i
    cases j <;> cases k <;> simp [parts, Contains] at hne ⊢ <;> omega
  have hmet : ∀ c ∈ calls, c.2.Meets (parts c.1) := by
    simp [calls, parts, Call.Meets, Meets]
  exact ((isolated_of_met (Device.ofSize Nat 20) parts).2 hdisjoint calls hmet true _ _ fun _ _ =>
    rfl).1.trans rfl

/-- The first sector behind a partition is written through it, and read through the
partition that it belongs to. -/
theorem write_behind_end :
    let parts : Bool → Partition := fun k => if k then ⟨15, 5⟩ else ⟨10, 5⟩
    (∀ i, (parts false).Contains i → ¬(parts true).Contains i) ∧ ¬(parts false).Confined 5 1 ∧
      (execute (step (Device.ofSize Nat 20) parts) (fun i => i) [(false, .write [7] 5 1),
        (true, .read 0 1)]).2 =
        [.written true, .sectors (some [7])] := by
  intro parts
  refine ⟨?_, ?_, rfl⟩
  · simp [parts, Contains]
    omega
  · rw [confined_iff]
    simp [parts, Meets]

end Partition

end HuyaOS.Storage
