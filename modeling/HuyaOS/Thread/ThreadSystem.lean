import HuyaOS.Lib.Queues
import HuyaOS.Thread.Scheduler

/-!
What a scheduler does, apart from the arrays and from the choice of a queue.
The next thread is the first one of any queue that is not empty. The calls of
the scheduler refine these steps, whatever the priority pattern.
-/

namespace HuyaOS

open Lib Function

/-- Threads, the one that runs, and those that wait in the ready queues. -/
structure ThreadSystem where
  count : Nat
  initialized : Bool
  current : Option Nat
  queues : Nat → List Nat
  threads : Nat → Thread

/-- The calls of the scheduler. -/
inductive Scheduler.Op
  | startUp
  | ready (that : Nat)
  | yield
  | exit
  | kill (that : Nat)
  | block
  | deblock (that : Nat)
  | setPriority (thread priority : Nat)
  deriving DecidableEq, Repr

open Scheduler (Op)

namespace ThreadSystem

variable {s s' : ThreadSystem} {t next : Nat}

def priority (s : ThreadSystem) (t : Nat) : Nat := (s.threads t).priority

def modify (s : ThreadSystem) (t : Nat) (f : Thread → Thread) : ThreadSystem :=
  { s with threads := update s.threads t (f (s.threads t)) }

/-- Append a thread to the queue of its priority. -/
def push (s : ThreadSystem) (t : Nat) : ThreadSystem :=
  { s with queues := update s.queues (s.priority t) (s.queues (s.priority t) ++ [t]) }

def drop (s : ThreadSystem) (t : Nat) : ThreadSystem :=
  { s with queues := update s.queues (s.priority t) ((s.queues (s.priority t)).erase t) }

def run (s : ThreadSystem) (t : Nat) : ThreadSystem := { s with current := some t }

def clamp (s : ThreadSystem) (priority : Nat) : Nat := min priority (s.count - 1)

/-- The first thread of some queue leaves it. -/
inductive Takes (s : ThreadSystem) (next : Nat) : ThreadSystem → Prop
  | mk {p : Nat} {rest : List Nat} (hp : p < s.count) (hqueue : s.queues p = next :: rest) :
      Takes s next { s with queues := update s.queues p rest }

inductive Step : ThreadSystem → Op → ThreadSystem → Prop
  | startUp {s s' : ThreadSystem} {next : Nat} (hinit : s.initialized = false)
      (htakes : Takes s next s') : Step s .startUp { s'.run next with initialized := true }
  | ready {s : ThreadSystem} {t : Nat} (hstarted : (s.threads t).started = false)
      (hp : s.priority t < s.count) :
      Step s (.ready t) ((s.push t).modify t ({ · with started := true }))
  | exit {s s' : ThreadSystem} {current next : Nat} (hinit : s.initialized = true)
      (hcurrent : s.current = some current) (htakes : Takes s next s') :
      Step s .exit ((s'.modify current ({ · with finished := true })).run next)
  | kill {s : ThreadSystem} {current t : Nat} (hinit : s.initialized = true)
      (hcurrent : s.current = some current) (hne : t ≠ current) (hp : s.priority t < s.count) :
      Step s (.kill t) ((s.drop t).modify t ({ · with finished := true }))
  | yieldAlone {s : ThreadSystem} (halone : ∀ p < s.count, s.queues p = []) : Step s .yield s
  | yield {s s' : ThreadSystem} {current next : Nat} (hinit : s.initialized = true)
      (hcurrent : s.current = some current) (htakes : Takes s next s')
      (hp : s.priority current < s.count) : Step s .yield ((s'.push current).run next)
  | block {s s' : ThreadSystem} {next : Nat} (hinit : s.initialized = true)
      (htakes : Takes s next s') : Step s .block (s'.run next)
  | deblock {s : ThreadSystem} {t : Nat} (hinit : s.initialized = true)
      (hp : s.priority t < s.count) : Step s (.deblock t) (s.push t)
  | setRunning {s : ThreadSystem} {t priority : Nat} (hcurrent : s.current = some t) :
      Step s (.setPriority t priority) (s.modify t ({ · with priority := s.clamp priority }))
  | setPriority {s : ThreadSystem} {t priority : Nat} (hcurrent : s.current ≠ some t)
      (hp : s.priority t < s.count) (hclamp : s.clamp priority < s.count) :
      Step s (.setPriority t priority)
        (((s.drop t).modify t ({ · with priority := s.clamp priority })).push t)

theorem Takes.fields (h : s.Takes next s') :
    s'.current = s.current ∧ s'.initialized = s.initialized ∧ s'.count = s.count ∧
      s'.threads = s.threads := by
  cases h
  exact ⟨rfl, rfl, rfl, rfl⟩

theorem Step.count_eq {op : Op} (h : s.Step op s') : s'.count = s.count := by
  cases h with
  | startUp _ htakes => exact htakes.fields.2.2.1
  | exit _ _ htakes => exact htakes.fields.2.2.1
  | yield _ _ htakes _ => exact htakes.fields.2.2.1
  | block _ htakes => exact htakes.fields.2.2.1
  | _ => rfl

end ThreadSystem

namespace Scheduler

variable {P : Type} {s s' : Scheduler P} {t index priority : Nat}

/-- What the scheduler looks like without its arrays and its pattern. -/
def view (s : Scheduler P) : ThreadSystem where
  count := s.queueCount
  initialized := s.initialized
  current := s.currentThread
  queues index := (s.readyQueues index).toArray
  threads := s.threads

theorem view_modify (s : Scheduler P) (t : Nat) (f : Thread → Thread) :
    (s.modify t f).view = s.view.modify t f := rfl

theorem view_update (s : Scheduler P) (index : Nat) (queue : ArrayBlockingQueue Nat) (pattern : P) :
    view { s with
      priority := pattern
      readyQueues := update s.readyQueues index queue } =
    { s.view with queues := update s.view.queues index queue.toArray } := by
  simp only [view, ThreadSystem.mk.injEq, true_and, and_true]
  funext p
  rw [update_apply, update_apply]
  split
  · rfl
  · rfl

theorem isThreadWaiting_eq_false :
    s.isThreadWaiting = false ↔ ∀ p < s.view.count, s.view.queues p = [] := by
  simp only [isThreadWaiting, List.any_eq_false, List.mem_range,
    view, ← ArrayBlockingQueue.isEmpty_iff]
  simp

theorem withQueue_spec {f : ArrayBlockingQueue Nat → Except Cpu.Stop (ArrayBlockingQueue Nat)}
    {g : List Nat → List Nat} (hfg : ∀ q q', f q = .ok q' → q'.toArray = g q.toArray)
    (hcall : s.withQueue index f = .ok s') :
    index < s.view.count ∧ s'.view =
      { s.view with queues := update s.view.queues index (g (s.view.queues index)) } := by
  unfold withQueue at hcall
  split at hcall
  · cases hcall
  · rename_i hindex
    obtain ⟨queue, hqueue, hresult⟩ := bind_eq_ok.mp hcall
    cases hresult
    refine ⟨not_le.mp hindex, ?_⟩
    rw [view_update, hfg _ _ hqueue]
    rfl

theorem push_spec (hcall : s.push t = .ok s') :
    s.view.priority t < s.view.count ∧ s'.view = s.view.push t :=
  withQueue_spec (g := (· ++ [t])) (fun _ _ hpush =>
    Except.ok.inj hpush ▸ ArrayBlockingQueue.toArray_push _ t)
    hcall

theorem remove_spec (hcall : s.remove t = .ok s') :
    s.view.priority t < s.view.count ∧ s'.view = s.view.drop t :=
  withQueue_spec (g := (·.erase t)) (fun _ _ => ArrayBlockingQueue.toArray_remove) hcall

variable {next rounds : Nat}

theorem dispatch_spec (hcall : s.dispatch next = .ok s') :
    s.initialized = true ∧ s'.view = s.view.run next := by
  unfold dispatch at hcall
  split at hcall
  · cases hcall
  · cases hcall
    exact ⟨Bool.not_eq_false _ ▸ ‹_›, rfl⟩

theorem dispatch_after {s₁ s₂ : Scheduler P} (htakes : s.view.Takes next s₁.view)
    (hinit : s₂.initialized = s₁.initialized) (hcall : s₂.dispatch next = .ok s') :
    s.view.initialized = true ∧ s'.view = s₂.view.run next := by
  obtain ⟨hinit', hview⟩ := dispatch_spec hcall
  rw [hinit] at hinit'
  exact ⟨htakes.fields.2.1.symm.trans hinit', hview⟩

theorem clamp_congr (hcount : s'.queueCount = s.queueCount) (priority : Nat) :
    s'.clamp priority = s.clamp priority := by
  unfold clamp getMaxPriority
  rw [hcount]

theorem clamp_eq (hwidth : s.queueCount ≤ 256) (priority : Nat) :
    s.clamp priority = s.view.clamp priority := by
  have hmax : (s.queueCount - 1) % 256 = s.queueCount - 1 := Nat.mod_eq_of_lt (by omega)
  simp only [clamp, getMaxPriority, ThreadSystem.clamp, view, hmax]
  by_cases hlt : s.queueCount - 1 < priority
  · rw [if_pos hlt, Nat.min_eq_right (le_of_lt hlt)]
  · rw [if_neg hlt, Nat.min_eq_left (not_lt.mp hlt)]

theorem ready_refines (hcall : s.ready t = .ok s') : s.view.Step (.ready t) s'.view := by
  unfold ready at hcall
  split at hcall
  · cases hcall
  · rename_i hstarted
    obtain ⟨s₁, hpush, hresult⟩ := bind_eq_ok.mp hcall
    obtain ⟨hp, hview⟩ := push_spec hpush
    cases hresult
    rw [view_modify, hview]
    exact .ready (Bool.eq_false_of_not_eq_true hstarted) hp

theorem kill_refines (hcall : s.kill t = .ok s') : s.view.Step (.kill t) s'.view := by
  unfold kill at hcall
  split at hcall
  · cases hcall
  · rename_i hinit
    split at hcall
    · cases hcall
    · rename_i current hsome
      split at hcall
      · cases hcall
      · rename_i hne
        obtain ⟨s₁, hremove, hresult⟩ := bind_eq_ok.mp hcall
        obtain ⟨hp, hview⟩ := remove_spec hremove
        cases hresult
        rw [view_modify, hview]
        exact .kill (Bool.eq_true_of_not_eq_false hinit) hsome hne hp

theorem deblock_refines (hcall : s.deblock t = .ok s') : s.view.Step (.deblock t) s'.view := by
  unfold deblock at hcall
  split at hcall
  · cases hcall
  · rename_i hinit
    obtain ⟨hp, hview⟩ := push_spec hcall
    rw [hview]
    exact .deblock (Bool.eq_true_of_not_eq_false hinit) hp

theorem setPriority_refines (hwidth : s.queueCount ≤ 256)
    (hcall : s.setPriority t priority = .ok s') :
    s.view.Step (.setPriority t priority) s'.view := by
  obtain ⟨⟨priority', s₁⟩, hchange, hresult⟩ := bind_eq_ok.mp hcall
  cases hresult
  unfold changePriority at hchange
  rw [view_modify]
  split at hchange
  · rename_i hcurrent
    cases hchange
    rw [clamp_eq hwidth]
    exact .setRunning hcurrent
  · rename_i hcurrent
    obtain ⟨s₂, hremove, hrest⟩ := bind_eq_ok.mp hchange
    obtain ⟨_, hpush, hlast⟩ := bind_eq_ok.mp hrest
    obtain ⟨hp, hview⟩ := remove_spec hremove
    obtain ⟨hlt, hview'⟩ := withQueue_spec (g := (· ++ [_]))
      (fun _ _ heq => Except.ok.inj heq ▸ ArrayBlockingQueue.toArray_push _ _) hpush
    cases hlast
    have hcount : s₂.queueCount = s.queueCount := congrArg ThreadSystem.count hview
    have hcount' : s₁.queueCount = s.queueCount := (congrArg ThreadSystem.count hview').trans hcount
    have hclamp := clamp_eq hwidth priority
    have hclamp₂ := clamp_congr hcount priority
    have hclamp₁ := clamp_congr hcount' priority
    rw [hclamp₂, hclamp] at hlt hview'
    rw [hclamp₁, hclamp, hview', hview]
    rw [hview] at hlt
    -- the thread is pushed into the queue of the priority that it gets afterwards
    have hpush' := ThreadSystem.Step.setPriority hcurrent hp hlt
    simpa only [ThreadSystem.push, ThreadSystem.modify, ThreadSystem.priority,
      update_self] using hpush'

variable [PriorityPattern P]

/-- A call that returns. The scheduler is started only once. -/
inductive Call : Scheduler P → Op → Scheduler P → Prop
  | startUp {s s' : Scheduler P} {rounds : Nat} (hinit : s.initialized = false)
      (hcall : s.startUp rounds = .ok s') : Call s .startUp s'
  | ready {s s' : Scheduler P} {that : Nat} (hcall : s.ready that = .ok s') : Call s
    (.ready that) s'
  | yield {s s' : Scheduler P} {rounds : Nat} (hcall : s.yield rounds = .ok s') : Call s .yield s'
  | exit {s s' : Scheduler P} {rounds : Nat} (hcall : s.exit rounds = .ok s') : Call s .exit s'
  | kill {s s' : Scheduler P} {that : Nat} (hcall : s.kill that = .ok s') : Call s (.kill that) s'
  | block {s s' : Scheduler P} {rounds : Nat} (hcall : s.block rounds = .ok s') : Call s .block s'
  | deblock {s s' : Scheduler P} {that : Nat} (hcall : s.deblock that = .ok s') :
      Call s (.deblock that) s'
  | setPriority {s s' : Scheduler P} {thread priority : Nat} (hpriority : priority < 256)
      (hcall : s.setPriority thread priority = .ok s') : Call s (.setPriority thread priority) s'

theorem findQueue_spec {pattern pattern' : P}
    (hcall : s.findQueue rounds pattern = .ok (index, pattern')) :
    index < s.queueCount ∧ (s.readyQueues index).isEmpty = false := by
  induction rounds generalizing pattern with
  | zero => cases hcall
  | succ rounds ih =>
    unfold findQueue at hcall
    simp only at hcall
    split at hcall
    · cases hcall
    · split at hcall
      · exact ih hcall
      · rename_i hlt hne
        cases hcall
        exact ⟨not_le.mp hlt, Bool.eq_false_of_not_eq_true hne⟩

theorem getNextThread_spec (hcall : s.getNextThread rounds = .ok (next, s')) :
    s.view.Takes next s'.view := by
  unfold getNextThread at hcall
  split at hcall
  · cases hcall
  · obtain ⟨⟨index, pattern⟩, hfind, hrest⟩ := bind_eq_ok.mp hcall
    obtain ⟨⟨next', queue⟩, hpop, hresult⟩ := bind_eq_ok.mp hrest
    obtain ⟨hlt, hne⟩ := findQueue_spec hfind
    obtain ⟨element, q', hpop', harray⟩ := ArrayBlockingQueue.pop_spec hne
    rw [hpop'] at hpop
    cases hpop
    cases hresult
    rw [view_update]
    exact .mk hlt harray

theorem startUp_refines (hinit : s.initialized = false) (hcall : s.startUp rounds = .ok s') :
    s.view.Step .startUp s'.view := by
  obtain ⟨⟨next, s₁⟩, hnext, hresult⟩ := bind_eq_ok.mp hcall
  cases hresult
  exact .startUp hinit (getNextThread_spec hnext)

theorem yield_refines (hcall : s.yield rounds = .ok s') : s.view.Step .yield s'.view := by
  unfold yield at hcall
  split at hcall
  · rename_i halone
    cases hcall
    exact .yieldAlone (isThreadWaiting_eq_false.mp halone)
  · obtain ⟨⟨next, s₁⟩, hnext, hrest⟩ := bind_eq_ok.mp hcall
    have htakes := getNextThread_spec hnext
    obtain ⟨hcurrent, hinit, hcount, hthreads⟩ := htakes.fields
    simp only at hrest
    split at hrest
    · cases hrest
    · rename_i current hsome
      obtain ⟨s₂, hpush, hdispatch⟩ := bind_eq_ok.mp hrest
      obtain ⟨hp, hview⟩ := push_spec hpush
      obtain ⟨hinit', hview'⟩ :=
        dispatch_after htakes (congrArg ThreadSystem.initialized hview) hdispatch
      rw [hview', hview]
      refine .yield hinit' (hcurrent.symm.trans hsome) htakes ?_
      rwa [ThreadSystem.priority, hthreads, hcount] at hp

theorem exit_refines (hcall : s.exit rounds = .ok s') : s.view.Step .exit s'.view := by
  unfold exit at hcall
  split at hcall
  · cases hcall
  · obtain ⟨⟨next, s₁⟩, hnext, hrest⟩ := bind_eq_ok.mp hcall
    have htakes := getNextThread_spec hnext
    simp only at hrest
    split at hrest
    · cases hrest
    · rename_i current hsome
      obtain ⟨hinit, hview⟩ := dispatch_after htakes (by rfl) hrest
      rw [hview]
      exact .exit hinit (htakes.fields.1.symm.trans hsome) htakes

theorem block_refines (hcall : s.block rounds = .ok s') : s.view.Step .block s'.view := by
  obtain ⟨⟨next, s₁⟩, hnext, hrest⟩ := bind_eq_ok.mp hcall
  have htakes := getNextThread_spec hnext
  obtain ⟨hinit, hview⟩ := dispatch_after htakes rfl hrest
  rw [hview]
  exact .block hinit htakes

theorem call_refines {op : Op} (hwidth : s.queueCount ≤ 256) (hcall : Call s op s') :
    s.view.Step op s'.view := by
  cases hcall with
  | startUp hinit hcall => exact startUp_refines hinit hcall
  | ready hcall => exact ready_refines hcall
  | yield hcall => exact yield_refines hcall
  | exit hcall => exact exit_refines hcall
  | kill hcall => exact kill_refines hcall
  | block hcall => exact block_refines hcall
  | deblock hcall => exact deblock_refines hcall
  | setPriority _ hcall => exact setPriority_refines hwidth hcall

end Scheduler

end HuyaOS
