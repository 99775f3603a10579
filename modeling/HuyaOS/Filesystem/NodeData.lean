import Mathlib.Data.List.GetD
import HuyaOS.Cpu
import HuyaOS.Lib.Buffer
import HuyaOS.Lib.Transition

/-!
The contents of a file in memory: `length` and `data` of a `VirtualNode`. A write
that reaches the end allocates a new array, fills it with zeros, copies the old
bytes and then stores the new ones. The arguments have 64 bits, but sizes and
addresses only 32.

Seen from outside a file is a list of bytes that is extended by zeros when
something is written behind its end.
-/

namespace HuyaOS.Filesystem

open Lib List

/-- `length` and the array that `data` points to, which is empty for the null
pointer. -/
structure NodeData where
  length : Nat
  data : List UInt8

namespace NodeData

def new : NodeData := ⟨0, []⟩

/-- `pos` as an offset to a pointer. -/
def offset (pos : Nat) : Nat := pos % 2 ^ 32

def readData (node : NodeData) (pos numBytes : Nat) : Except Cpu.Stop (Nat × List UInt8) := do
  if pos ≥ node.length then return (0, [])
  else
    let numBytes := if (pos + numBytes) % 2 ^ 64 > node.length then node.length - pos else numBytes
    return (numBytes, ← Cpu.access (loadAll node.data (offset pos) numBytes))

def grow (node : NodeData) (fresh : Nat → UInt8) (newLength : Nat) : Except Cpu.Stop NodeData := do
  let newData := (List.range (newLength % 2 ^ 32)).map fresh
  -- `memset` and `memcpy`
  let newData ← Cpu.access (storeAll newData 0 (fun _ => some 0) (newLength % 2 ^ 32))
  let newData ← Cpu.access (storeAll newData 0 (fun i => node.data[i]?) (node.length % 2 ^ 32))
  return ⟨newLength, newData⟩

def reserve (node : NodeData) (fresh : Nat → UInt8) (newLength : Nat) : Except Cpu.Stop NodeData :=
  if newLength ≥ node.length then node.grow fresh newLength else .ok node

/-- The counter of the last loop has 32 bits. -/
def writeData (node : NodeData) (fresh buf : Nat → UInt8) (pos numBytes : Nat) :
    Except Cpu.Stop (Nat × NodeData) := do
  let node ← node.reserve fresh ((pos + numBytes) % 2 ^ 64)
  if numBytes ≥ 2 ^ 32 then .error .endlessLoop
  else
    let data ← Cpu.access (storeAll node.data (offset pos) (fun i => some (buf i)) numBytes)
    return (numBytes, { node with data })

def writeBytes (bytes : List UInt8) (buf : Nat → UInt8) (pos numBytes : Nat) : List UInt8 :=
  (List.range (max bytes.length (pos + numBytes))).map fun i =>
    if pos ≤ i ∧ i < pos + numBytes then buf (i - pos) else bytes.getD i 0

def readBytes (bytes : List UInt8) (pos numBytes : Nat) : List UInt8 :=
  (bytes.drop pos).take (min numBytes (bytes.length - pos))

def Holds (node : NodeData) (bytes : List UInt8) : Prop :=
  node.length = bytes.length ∧ node.data = bytes

theorem getElem?_writeBytes (bytes : List UInt8) (buf : Nat → UInt8) (pos numBytes i : Nat) :
    (writeBytes bytes buf pos numBytes)[i]? =
      if i < max bytes.length (pos + numBytes) then
        some (if pos ≤ i ∧ i < pos + numBytes then buf (i - pos) else bytes.getD i 0)
      else none := by
  unfold writeBytes
  rw [getElem?_map]
  split
  · rename_i hi
    rw [getElem?_range hi]
    rfl
  · rw [getElem?_eq_none (by rw [length_range]; omega)]
    rfl

theorem length_writeBytes (bytes : List UInt8) (buf : Nat → UInt8) (pos numBytes : Nat) :
    (writeBytes bytes buf pos numBytes).length = max bytes.length (pos + numBytes) := by
  unfold writeBytes
  rw [length_map, length_range]

section Calls

variable {node : NodeData} {bytes : List UInt8} (h : node.Holds bytes) {pos numBytes : Nat}
  {newLength : Nat}

include h

theorem Holds.grow (fresh : Nat → UInt8) (hle : bytes.length ≤ newLength)
    (hlt : newLength < 2 ^ 32) :
    ∃ data, node.grow fresh newLength = .ok ⟨newLength, data⟩ ∧ data.length = newLength ∧
      ∀ i < newLength, data[i]? = some (bytes.getD i 0) := by
  obtain ⟨hlength, hdata⟩ := h
  have hsize : ((range newLength).map fresh).length = newLength := by
    rw [length_map, length_range]
  have hzeroes : ∀ i < newLength, (fun _ => some 0 : Nat → Option UInt8) i = some 0 :=
    fun _ _ => rfl
  obtain ⟨zeros, hmemset, hzeros, hzero⟩ :=
    storeAll_spec ((range newLength).map fresh) 0 hzeroes (by omega)
  have hsource : ∀ i < bytes.length, node.data[i]? = some (bytes.getD i 0) := by
    intro i hi
    rw [hdata, getElem?_eq_getElem hi, getD_eq_getElem _ _ hi]
  obtain ⟨data, hmemcpy, hdata', hget⟩ := storeAll_spec zeros 0 hsource (by omega)
  refine ⟨data, ?_, by omega, fun i hi => ?_⟩
  · unfold NodeData.grow
    simp only [Nat.mod_eq_of_lt hlt, hlength, Nat.mod_eq_of_lt (hle.trans_lt hlt), hmemset, hmemcpy,
      Cpu.access, bind, Except.bind]
    rfl
  · rw [hget, hzero]
    split
    · rfl
    · rw [if_pos (by omega), getD_eq_default _ _ (by omega)]

theorem Holds.reserve (fresh : Nat → UInt8) (hlt : newLength < 2 ^ 32) :
    ∃ data, node.reserve fresh newLength = .ok ⟨max bytes.length newLength, data⟩ ∧
      data.length = max bytes.length newLength ∧
      ∀ i < max bytes.length newLength, data[i]? = some (bytes.getD i 0) := by
  unfold NodeData.reserve
  rw [h.1]
  split
  · rename_i hge
    rw [max_eq_right hge]
    exact h.grow fresh hge hlt
  · rename_i hnot
    rw [max_eq_left (not_le.mp hnot).le]
    refine ⟨bytes, ?_, rfl, fun i hi => ?_⟩
    · rw [← h.1, ← h.2]
    · rw [getElem?_eq_getElem hi, getD_eq_getElem _ _ hi]

theorem Holds.writeData (fresh buf : Nat → UInt8) (hlt : pos + numBytes < 2 ^ 32) :
    ∃ node', node.writeData fresh buf pos numBytes = .ok (numBytes, node') ∧
      node'.Holds (writeBytes bytes buf pos numBytes) := by
  have hmod : (pos + numBytes) % 2 ^ 64 = pos + numBytes := Nat.mod_eq_of_lt (by omega)
  have hoffset : offset pos = pos := Nat.mod_eq_of_lt (by omega)
  have hnot : ¬numBytes ≥ 2 ^ 32 := by omega
  obtain ⟨data, hreserve, hlength, hget⟩ := h.reserve fresh hlt
  have hsource : ∀ i < numBytes, (fun i => some (buf i)) i = some (buf i) := fun _ _ => rfl
  obtain ⟨data', hstore, hlength', hget'⟩ := storeAll_spec data pos hsource (by omega)
  refine ⟨⟨_, data'⟩, ?_, (length_writeBytes _ _ _ _).symm, ?_⟩
  · unfold NodeData.writeData
    simp only [hmod, hreserve, bind, Except.bind, if_neg hnot, hoffset, hstore, Cpu.access]
    rfl
  · apply ext_getElem?
    intro i
    rw [getElem?_writeBytes, hget']
    split
    · rw [if_pos (by omega)]
    · split
      · rename_i hlt'
        exact hget i hlt'
      · exact getElem?_eq_none (by omega)

theorem Holds.readData (hlt : pos + numBytes < 2 ^ 64) (hlength : bytes.length < 2 ^ 32) :
    node.readData pos numBytes =
      .ok (min numBytes (bytes.length - pos), readBytes bytes pos numBytes) := by
  have hmod : (pos + numBytes) % 2 ^ 64 = pos + numBytes := Nat.mod_eq_of_lt hlt
  unfold NodeData.readData readBytes
  rw [h.1, h.2]
  by_cases hpos : pos ≥ bytes.length
  · rw [if_pos hpos, Nat.sub_eq_zero_of_le hpos, Nat.min_zero]
    rfl
  · have hcount :
        (if (pos + numBytes) % 2 ^ 64 > bytes.length then bytes.length - pos else numBytes) =
        min numBytes (bytes.length - pos) := by
      split <;> omega
    have hoffset : offset pos = pos := Nat.mod_eq_of_lt (by omega)
    have hfits : pos + min numBytes (bytes.length - pos) ≤ bytes.length := by omega
    rw [if_neg hpos]
    simp only [hcount, hoffset, loadAll_eq hfits]
    rfl

end Calls

/-- Every call is made with its own buffer, and a write finds fresh memory with
contents of its own. -/
inductive Call
  | write (fresh buf : Nat → UInt8) (pos numBytes : Nat)
  | read (pos numBytes : Nat)

/-- The positions that the calls are about. -/
def Call.InRange : Call → Prop
  | .write _ _ pos numBytes => pos + numBytes < 2 ^ 32
  | .read pos numBytes => pos + numBytes < 2 ^ 32

/-- The answer is the returned number and the bytes that were read. A call that
stops leaves the node as it is. -/
def call (node : NodeData) : Call → NodeData × Except Cpu.Stop (Nat × List UInt8)
  | .write fresh buf pos numBytes =>
      match node.writeData fresh buf pos numBytes with
      | .error stop => (node, .error stop)
      | .ok (written, node') => (node', .ok (written, []))
  | .read pos numBytes => (node, node.readData pos numBytes)

def bytesCall (bytes : List UInt8) : Call → List UInt8 × Except Cpu.Stop (Nat × List UInt8)
  | .write _ buf pos numBytes => (writeBytes bytes buf pos numBytes, .ok (numBytes, []))
  | .read pos numBytes =>
      (bytes, .ok (min numBytes (bytes.length - pos), readBytes bytes pos numBytes))

/-- Files do not grow over the range of the positions. -/
def Refines (node : NodeData) (bytes : List UInt8) : Prop :=
  node.Holds bytes ∧ bytes.length < 2 ^ 32

theorem Refines.call {node : NodeData} {bytes : List UInt8} (h : node.Refines bytes) {c : Call}
    (hc : c.InRange) :
    (node.call c).1.Refines (bytesCall bytes c).1 ∧ (node.call c).2 = (bytesCall bytes c).2 := by
  obtain ⟨hholds, hlength⟩ := h
  cases c with
  | write fresh buf pos numBytes =>
    obtain ⟨node', hwrite, hholds'⟩ := hholds.writeData fresh buf hc
    have hlength' : (writeBytes bytes buf pos numBytes).length < 2 ^ 32 := by
      rw [length_writeBytes]
      exact max_lt hlength hc
    simp only [NodeData.call, hwrite]
    exact ⟨⟨hholds', hlength'⟩, rfl⟩
  | read pos numBytes => exact ⟨⟨hholds, hlength⟩, hholds.readData (hc.trans (by decide)) hlength⟩

/-- In every run of reads and writes below 4 GiB a node acts as a list of bytes. -/
theorem refines_bytes (calls : List Call) (hrange : ∀ c ∈ calls, c.InRange) :
    let run := execute call new calls
    let spec := execute bytesCall [] calls
    run.2 = spec.2 ∧ run.1.length = spec.1.length ∧ run.1.data = spec.1 := by
  have hall : AllMet call (fun _ c => c.InRange) new calls := allMet_iff_forall.mpr hrange
  have hinit : new.Refines [] := ⟨⟨rfl, rfl⟩, by decide⟩
  obtain ⟨⟨hholds, -⟩, hanswers⟩ := execute_simulates (fun _ _ _ h hc => h.call hc) hinit calls hall
  exact ⟨hanswers, hholds.1, hholds.2⟩

/-- Two bytes are written behind the end of an empty file. -/
theorem refines_bytes_sparse :
    (execute call new [.write (fun _ => 255) (fun i => UInt8.ofNat (i + 1)) 3 2, .read 1 9]).2 =
      [.ok (2, []), .ok (4, [0, 0, 1, 2])] := by
  have hrange : ∀ c ∈ [Call.write (fun _ => 255) (fun i => UInt8.ofNat (i + 1)) 3 2, .read 1 9],
      c.InRange := by
    simp [Call.InRange]
  exact (refines_bytes _ hrange).1.trans rfl

end NodeData

/-- `FsNode::END_OF_FILE` -/
def END_OF_FILE : UInt8 := 0x04

/-- The node of a `RamFsDriver` marks the end of the file in `buf`. -/
def RamFsNode.readData (node : NodeData) (pos numBytes : Nat) :
    Except Cpu.Stop (Nat × List UInt8) := do
  let (readBytes, buf) ← node.readData pos numBytes
  return (readBytes, if readBytes < numBytes then buf ++ [END_OF_FILE] else buf)

end HuyaOS.Filesystem
