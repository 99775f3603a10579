import HuyaOS.Util.ArrayList

/-!
`Scheduler` and the priority patterns that choose among its ready queues.

The lock of the scheduler makes its calls atomic; a `yield` that finds it taken
does nothing. Threads are named by their ids. A generator hands the ids out one
after another, so comparing ids and comparing pointers is the same. Of a thread
the model has the fields that the scheduler reads and writes.
-/

namespace HuyaOS

/-- `PriorityPattern`. The number of priorities is a byte, and zero stands for
one. -/
class PriorityPattern (P : Type) where
  getPriorityCount : P → Nat
  getNextPriority : P → Nat × P
  priorityCount_pos : ∀ pattern, 0 < getPriorityCount pattern
  priorityCount_lt : ∀ pattern, getPriorityCount pattern < 256

/-- The number of priorities that a pattern is constructed for. -/
def PriorityPattern.countOf (priorityCount : Nat) : Nat :=
  if priorityCount % 256 = 0 then 1 else priorityCount % 256

theorem PriorityPattern.countOf_pos (priorityCount : Nat) : 0 < countOf priorityCount := by
  unfold countOf
  split <;> omega

theorem PriorityPattern.countOf_lt (priorityCount : Nat) : countOf priorityCount < 256 := by
  unfold countOf
  split <;> omega

/-- `SimplePriorityPattern`: one priority after the other. -/
structure SimplePriorityPattern where
  priorityCount : Nat
  currentPriority : Nat
  priorityCount_pos : 0 < priorityCount
  priorityCount_lt : priorityCount < 256

namespace SimplePriorityPattern

def new (priorityCount : Nat) : SimplePriorityPattern where
  priorityCount := PriorityPattern.countOf priorityCount
  currentPriority := 0
  priorityCount_pos := PriorityPattern.countOf_pos priorityCount
  priorityCount_lt := PriorityPattern.countOf_lt priorityCount

def getNextPriority (pattern : SimplePriorityPattern) : Nat × SimplePriorityPattern :=
  (pattern.currentPriority % pattern.priorityCount,
    { pattern with currentPriority := (pattern.currentPriority + 1) % 256 })

instance : PriorityPattern SimplePriorityPattern where
  getPriorityCount := priorityCount
  getNextPriority := getNextPriority
  priorityCount_pos := priorityCount_pos
  priorityCount_lt := priorityCount_lt

end SimplePriorityPattern

/-- `AccessArrayPriorityPattern`: a table in which priority `p` occurs `p` times,
and priority zero after the end of the table. -/
structure AccessArrayPriorityPattern where
  priorityCount : Nat
  accessArray : List Nat
  currentIndex : Nat
  priorityCount_pos : 0 < priorityCount
  priorityCount_lt : priorityCount < 256

namespace AccessArrayPriorityPattern

/-- The inner loop of the constructor: the next priority that is left. -/
def skip (priorityCount : Nat) (tmp : Nat → Nat) : Nat → Nat → Nat
  | 0, index => index
  | rounds + 1, index =>
      if tmp index = 0 then skip priorityCount tmp rounds ((index + 1) % 256 % priorityCount)
        else index

/-- The outer loop of the constructor. -/
def fill (priorityCount : Nat) : Nat → (Nat → Nat) → Nat → List Nat
  | 0, _, _ => []
  | left + 1, tmp, index =>
      let index := skip priorityCount tmp priorityCount index
      index :: fill priorityCount left (Function.update tmp index (tmp index - 1))
        ((index + 1) % 256 % priorityCount)

def new (priorityCount : Nat) : AccessArrayPriorityPattern where
  priorityCount := PriorityPattern.countOf priorityCount
  accessArray := fill (priorityCount % 256)
    (priorityCount % 256 * (priorityCount % 256 - 1) / 2) id
      (PriorityPattern.countOf priorityCount - 1)
  currentIndex := 0
  priorityCount_pos := PriorityPattern.countOf_pos priorityCount
  priorityCount_lt := PriorityPattern.countOf_lt priorityCount

def getNextPriority (pattern : AccessArrayPriorityPattern) : Nat × AccessArrayPriorityPattern :=
  let index := pattern.currentIndex % (pattern.accessArray.length + 1) % 256
  (if index = pattern.accessArray.length then 0 else pattern.accessArray.getD index 0,
    { pattern with currentIndex := (pattern.currentIndex + 1) % 256 })

instance : PriorityPattern AccessArrayPriorityPattern where
  getPriorityCount := priorityCount
  getNextPriority := getNextPriority
  priorityCount_pos := priorityCount_pos
  priorityCount_lt := priorityCount_lt

end AccessArrayPriorityPattern

structure Thread where
  priority : Nat
  started : Bool
  finished : Bool
  deriving DecidableEq, Repr

structure Scheduler (P : Type) where
  initialized : Bool
  currentThread : Option Nat
  priority : P
  readyQueues : Nat → ArrayBlockingQueue Nat
  queueCount : Nat
  threads : Nat → Thread

namespace Scheduler

variable {P : Type} [PriorityPattern P]

def new (pattern : P) (threads : Nat → Thread) : Scheduler P where
  initialized := false
  currentThread := none
  priority := pattern
  readyQueues := fun _ => .new fun _ => 0
  queueCount := PriorityPattern.getPriorityCount pattern
  threads := threads

variable (s : Scheduler P)

def modify (that : Nat) (f : Thread → Thread) : Scheduler P :=
  { s with threads := Function.update s.threads that (f (s.threads that)) }

def withQueue (index : Nat)
    (f : ArrayBlockingQueue Nat → Except Cpu.Stop (ArrayBlockingQueue Nat)) :
    Except Cpu.Stop (Scheduler P) :=
  if s.queueCount ≤ index then .error (.throwException .OUT_OF_BOUNDS)
  else do
    let queue ← f (s.readyQueues index)
    return { s with readyQueues := Function.update s.readyQueues index queue }

def push (that : Nat) : Except Cpu.Stop (Scheduler P) :=
  s.withQueue (s.threads that).priority (.ok <| ·.push that)

def remove (that : Nat) : Except Cpu.Stop (Scheduler P) :=
  s.withQueue (s.threads that).priority (·.remove that)

def isThreadWaiting : Bool :=
  (List.range s.queueCount).any fun index => !(s.readyQueues index).isEmpty

/-- The loop of `getNextThread`, for a number of rounds. -/
def findQueue (s : Scheduler P) : Nat → P → Except Cpu.Stop (Nat × P)
  | 0, _ => .error .endlessLoop
  | rounds + 1, pattern =>
      let (index, pattern) := PriorityPattern.getNextPriority pattern
      if s.queueCount ≤ index then .error (.throwException .OUT_OF_BOUNDS)
      else if (s.readyQueues index).isEmpty then findQueue s rounds pattern
      else .ok (index, pattern)

def getNextThread (rounds : Nat) (s : Scheduler P) : Except Cpu.Stop (Nat × Scheduler P) :=
  if s.isThreadWaiting = false then .error (.throwException .ILLEGAL_STATE)
  else do
    let (index, pattern) ← s.findQueue rounds s.priority
    let (next, queue) ← (s.readyQueues index).pop
    return (next, { s with
      priority := pattern
      readyQueues := Function.update s.readyQueues index queue })

def dispatch (next : Nat) : Except Cpu.Stop (Scheduler P) :=
  if s.initialized = false then .error (.throwException .ILLEGAL_STATE)
  else .ok { s with currentThread := some next }

def startUp (rounds : Nat) (s : Scheduler P) : Except Cpu.Stop (Scheduler P) := do
  let (next, s) ← s.getNextThread rounds
  return { s with currentThread := some next, initialized := true }

def ready (that : Nat) : Except Cpu.Stop (Scheduler P) :=
  if (s.threads that).started then .error (.throwException .ILLEGAL_STATE)
  else do
    let s ← s.push that
    return s.modify that ({ · with started := true })

def exit (rounds : Nat) (s : Scheduler P) : Except Cpu.Stop (Scheduler P) :=
  if s.initialized = false then .error (.throwException .ILLEGAL_STATE)
  else do
    let (next, s) ← s.getNextThread rounds
    match s.currentThread with
    | none => .error .nullPointer
    | some current => (s.modify current ({ · with finished := true })).dispatch next

def kill (that : Nat) : Except Cpu.Stop (Scheduler P) :=
  if s.initialized = false then .error (.throwException .ILLEGAL_STATE)
  else match s.currentThread with
    | none => .error .nullPointer
    | some current =>
        if that = current then .error (.throwException .ILLEGAL_STATE)
        else do
          let s ← s.remove that
          return s.modify that ({ · with finished := true })

def yield (rounds : Nat) (s : Scheduler P) : Except Cpu.Stop (Scheduler P) :=
  if s.isThreadWaiting = false then .ok s
  else do
    let (next, s) ← s.getNextThread rounds
    match s.currentThread with
    | none => .error .nullPointer
    | some current => do
        let s ← s.push current
        s.dispatch next

def block (rounds : Nat) (s : Scheduler P) : Except Cpu.Stop (Scheduler P) := do
  let (next, s) ← s.getNextThread rounds
  s.dispatch next

def deblock (that : Nat) : Except Cpu.Stop (Scheduler P) :=
  if s.initialized = false then .error (.throwException .ILLEGAL_STATE) else s.push that

def getMaxPriority : Nat := (s.queueCount - 1) % 256

def clamp (priority : Nat) : Nat :=
  if s.getMaxPriority < priority then s.getMaxPriority else priority

def changePriority (thread priority : Nat) : Except Cpu.Stop (Nat × Scheduler P) :=
  if s.currentThread = some thread then .ok (s.clamp priority, s)
  else do
    let s ← s.remove thread
    let s ← s.withQueue (s.clamp priority) (.ok <| ·.push thread)
    return (s.clamp priority, s)

def setPriority (thread priority : Nat) : Except Cpu.Stop (Scheduler P) := do
  let (priority, s) ← s.changePriority thread priority
  return s.modify thread ({ · with priority })

end Scheduler

end HuyaOS
