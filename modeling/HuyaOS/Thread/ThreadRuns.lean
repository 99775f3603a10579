import HuyaOS.Thread.Finished

/-!
Runs of the scheduler. Two calls do not look at the life of the thread they are
given. `changePriority` puts a thread into a queue even if it was in none, and
`kill` takes a thread out of the queue of its priority only; a thread that was
killed elsewhere can still be started, deblocked or given another priority.
-/

namespace HuyaOS

open Lib
open Scheduler (Op)

/-- A scheduler with the history of its run: the threads that have blocked, and
the arrivals in the ready queues, beginning with the latest. -/
structure Session (P : Type) where
  scheduler : Scheduler P
  blocked : Finset Nat
  arrivals : List Nat

namespace Session

variable {P : Type}

def view (s : Session P) : ThreadSystem := s.scheduler.view

def life (s : Session P) (t : Nat) : Life := s.view.life s.blocked t

/-- Every thread is where it belongs. -/
def Unique (s : Session P) : Prop := s.view.Unique s.blocked

variable [PriorityPattern P]

def start (pattern : P) (threads : Nat → Thread) : Session P :=
  ⟨Scheduler.new pattern threads, ∅, []⟩

/-- A call that returns, with its effect on the history. -/
def Step (s : Session P) (op : Op) (s' : Session P) : Prop :=
  Scheduler.Call s.scheduler op s'.scheduler ∧
    s'.blocked = s.view.blockedAfter s.blocked op s'.view ∧
    s'.arrivals = s.view.arrival op ++ s.arrivals

/-- A call, with the arguments it expects. -/
def ExpectedStep (s : Session P) (op : Op) (s' : Session P) : Prop :=
  s.view.Expected s.blocked op ∧ Step s op s'

def SoundStep (s : Session P) (op : Op) (s' : Session P) : Prop :=
  s.view.Sound s.blocked op ∧ ExpectedStep s op s'

section Runs

variable {pattern : P} {threads : Nat → Thread} {s s' : Session P} {op : Op} {ops : List Op}

theorem Step.of_call {scheduler : Scheduler P} (hcall : Scheduler.Call s.scheduler op scheduler) :
    Step s op ⟨scheduler, s.view.blockedAfter s.blocked op scheduler.view,
      s.view.arrival op ++ s.arrivals⟩ := ⟨hcall, rfl, rfl⟩

/-- The threads are new, and their priorities are priorities of the scheduler. -/
def New (pattern : P) (threads : Nat → Thread) : Prop :=
  ∀ t, (threads t).priority < PriorityPattern.getPriorityCount pattern ∧
    (threads t).started = false ∧ (threads t).finished = false

/-- What carries uniqueness along a run. -/
structure Tracked (s : Session P) : Prop where
  view : s.view.Tracked s.blocked
  width : s.scheduler.queueCount ≤ 256

theorem contents_start (pattern : P) (threads : Nat → Thread) :
    (start pattern threads).view.contents = 0 := by
  have hwaiting : (start pattern threads).view.waiting = 0 := by
    apply Multiset.eq_zero_of_forall_notMem
    intro t ht
    obtain ⟨p, _, hmem⟩ := mem_pending.mp ht
    cases hmem
  rw [ThreadSystem.contents, hwaiting]
  rfl

theorem start_tracked (hnew : New pattern threads) : Tracked (start pattern threads) := by
  have hlife : ∀ t, (start pattern threads).life t = .unstarted :=
    fun t => ThreadSystem.life_eq_unstarted.mpr ⟨(hnew t).2.2, (hnew t).2.1⟩
  have hcontents := contents_start pattern threads
  refine ⟨⟨⟨?_, ?_, ?_⟩, fun t => (hnew t).1, rfl, ?_⟩,
    le_of_lt (PriorityPattern.priorityCount_lt pattern)⟩
  · rw [hcontents]
    exact Multiset.nodup_zero
  · intro t hready
    rw [show ThreadSystem.life _ _ t = _ from hlife t] at hready
    cases hready
  · intro t _
    rw [hcontents]
    exact Multiset.notMem_zero t
  · intro t ht
    exact absurd ht (Finset.notMem_empty t)

theorem Tracked.step (h : Tracked s) (hstep : ExpectedStep s op s') :
    (s.view.Sound s.blocked op ∧ Tracked s') ∨ (¬s.view.Sound s.blocked op ∧ ¬s'.Unique) := by
  obtain ⟨hexpected, hcall, hblocked, _⟩ := hstep
  have hrefines := Scheduler.call_refines h.width hcall
  have hcount : s'.scheduler.queueCount = s.scheduler.queueCount := hrefines.count_eq
  have hcases := h.view.step hexpected hrefines
  rw [Unique, hblocked]
  rcases hcases with ⟨hsound, htracked⟩ | hlost
  · refine .inl ⟨hsound, ?_, hcount ▸ h.width⟩
    rw [hblocked]
    exact htracked
  · exact .inr hlost

theorem run_tracked (hnew : New pattern threads)
    (hrun : Run SoundStep (start pattern threads) ops s) : Tracked s := by
  apply hrun.invariant _ (start_tracked hnew)
  intro s op s' h hstep
  rcases h.step hstep.2 with ⟨_, htracked⟩ | ⟨hunsound, _⟩
  · exact htracked
  · exact absurd hstep.1 hunsound

/-- As long as priorities are changed only for threads that are ready or running,
and no killed thread is started, every thread is where it belongs; and a call
that breaks the condition puts a thread where it does not belong. -/
theorem uniqueness_of_sound_run (hnew : New pattern threads)
    (hrun : Run SoundStep (start pattern threads) ops s) :
    s.Unique ∧ ∀ op s', ExpectedStep s op s' → (s'.Unique ↔ s.view.Sound s.blocked op) := by
  have h := run_tracked hnew hrun
  refine ⟨h.view.toUnique, ?_⟩
  intro op s' hstep
  rcases h.step hstep with ⟨hsound, htracked⟩ | ⟨hunsound, hlost⟩
  · exact ⟨fun _ => hsound, fun _ => htracked.view.toUnique⟩
  · exact ⟨fun hunique => absurd hunique hlost, fun hsound => absurd hsound hunsound⟩

def CarefulStep (s : Session P) (op : Op) (s' : Session P) : Prop :=
  s.view.Careful op ∧ Step s op s'

/-- What carries along a run that finished threads stay out. -/
structure Silent (s : Session P) : Prop where
  quiet : s.view.Quiet
  width : s.scheduler.queueCount ≤ 256

theorem Silent.step_iff (h : Silent s) (hstep : Step s op s') : s'.view.Quiet ↔ s.view.Careful op :=
  h.quiet.step_iff (Scheduler.call_refines h.width hstep.1)

theorem Silent.step (h : Silent s) (hstep : CarefulStep s op s') : Silent s' := by
  obtain ⟨hcareful, hone⟩ := hstep
  have hcount : s'.scheduler.queueCount = s.scheduler.queueCount :=
    (Scheduler.call_refines h.width hone.1).count_eq
  exact ⟨(h.step_iff hone).mpr hcareful, hcount ▸ h.width⟩

theorem start_silent (pattern : P) (threads : Nat → Thread) : Silent (start pattern threads) := by
  refine ⟨?_, le_of_lt (PriorityPattern.priorityCount_lt pattern)⟩
  intro t ht
  rw [contents_start] at ht
  exact absurd ht (Multiset.notMem_zero t)

theorem Silent.finished_step (h : Silent s) (hstep : CarefulStep s op s') {t : Nat}
    (ht : (s.scheduler.threads t).finished = true) : (s'.scheduler.threads t).finished = true :=
  (Scheduler.call_refines h.width hstep.2.1).finished ht

/-- As long as the calls meet the condition, a thread that has finished is never
made the running thread again; and exactly such calls keep finished threads out
of the queues. -/
theorem finished_never_runs (hrun : Run CarefulStep (start pattern threads) ops s) :
    (∀ t ops' s', (s.scheduler.threads t).finished = true → Run CarefulStep s ops' s' →
      s'.scheduler.currentThread ≠ some t) ∧
    ∀ op s', Step s op s' → (s'.view.Quiet ↔ s.view.Careful op) := by
  have h : Silent s :=
    hrun.invariant (fun _ _ _ h hstep => h.step hstep) (start_silent pattern threads)
  refine ⟨?_, fun op s' hstep => h.step_iff hstep⟩
  intro t ops' s' ht hrun' hcurrent
  have hlast : Silent s' ∧ (s'.scheduler.threads t).finished = true := by
    apply hrun'.invariant _ ⟨h, ht⟩
    rintro s₁ op s₂ ⟨hsilent, hfinished⟩ hstep
    exact ⟨hsilent.step hstep, hsilent.finished_step hstep hfinished⟩
  have hunfinished : (s'.scheduler.threads t).finished = false :=
    hlast.1.quiet t (ThreadSystem.mem_contents.mpr (.inl hcurrent))
  rw [hlast.2] at hunfinished
  cases hunfinished

end Runs

/-- Threads with the default priority. -/
def newThreads : Nat → Thread := fun _ => ⟨2, false, false⟩

theorem newThreads_new : New (AccessArrayPriorityPattern.new 5) newThreads :=
  fun _ => ⟨show 2 < 5 by decide, rfl, rfl⟩

theorem uniqueness_of_sound_run_two_threads :
    ∃ s, Run SoundStep (start (AccessArrayPriorityPattern.new 5) newThreads)
      [.ready 0, .ready 1, .startUp, .setPriority 1 4, .yield] s ∧ s.Unique := by
  have hrun : ∃ s, Run SoundStep (start (AccessArrayPriorityPattern.new 5) newThreads)
      [.ready 0, .ready 1, .startUp, .setPriority 1 4, .yield] s := by
    refine ⟨_, .next ⟨rfl, trivial, .of_call (.ready rfl)⟩
      (.next ⟨rfl, trivial, .of_call (.ready rfl)⟩
      (.next ⟨trivial, trivial, .of_call (.startUp rfl (show Scheduler.startUp 11 _ = _ from rfl))⟩
      (.next ⟨.inl ?_, trivial, .of_call (.setPriority (by decide) rfl)⟩
      (.next ⟨trivial, trivial, .of_call (.yield (show Scheduler.yield 11 _ = _ from rfl))⟩
      (.done _)))))⟩
    rfl
  obtain ⟨s, hrun⟩ := hrun
  exact ⟨s, hrun, (uniqueness_of_sound_run newThreads_new hrun).1⟩

/-- A thread that has not been started gets another priority, and is in a ready
queue. -/
theorem uniqueness_fails_for_unstarted_thread :
    ∃ s, Run ExpectedStep (start (AccessArrayPriorityPattern.new 5) newThreads)
      [.setPriority 0 3] s ∧
      s.life 0 = .unstarted ∧ s.view.queues 3 = [0] ∧ ¬s.Unique := by
  refine ⟨_, .next ⟨trivial, .of_call (.setPriority (by decide) rfl)⟩ (.done _), rfl, rfl, ?_⟩
  intro hunique
  apply hunique.absent 0 (.inl rfl)
  exact ThreadSystem.mem_contents.mpr (.inr (mem_pending.mpr ⟨3, by decide, List.mem_cons_self⟩))

theorem finished_never_runs_after_exit :
    ∃ s, Run CarefulStep (start (AccessArrayPriorityPattern.new 5) newThreads)
      [.ready 0, .ready 1, .startUp, .exit] s ∧ (s.scheduler.threads 0).finished = true ∧
      ∀ ops s', Run CarefulStep s ops s' → s'.scheduler.currentThread ≠ some 0 := by
  have hrun : ∃ s, Run CarefulStep (start (AccessArrayPriorityPattern.new 5) newThreads)
      [.ready 0, .ready 1, .startUp, .exit] s ∧ (s.scheduler.threads 0).finished = true := by
    refine ⟨_, .next ⟨rfl, .of_call (.ready rfl)⟩ (.next ⟨rfl, .of_call (.ready rfl)⟩
      (.next ⟨trivial, .of_call (.startUp rfl (show Scheduler.startUp 11 _ = _ from rfl))⟩
      (.next ⟨?_, .of_call (.exit (show Scheduler.exit 11 _ = _ from rfl))⟩ (.done _)))), rfl⟩
    intro t ht hmem
    cases ht
    obtain ⟨p, hp, hin⟩ := mem_pending.mp hmem
    have hp' : p < 5 := hp
    interval_cases p <;> revert hin <;> decide
  obtain ⟨s, hrun, hfinished⟩ := hrun
  exact ⟨s, hrun, hfinished,
    fun ops s' hrun' => (finished_never_runs hrun).1 0 ops s' hfinished hrun'⟩

/-- A thread that was killed while it was blocked is deblocked, and runs again. -/
theorem finished_runs_after_deblock :
    ∃ s, Run Step (start (AccessArrayPriorityPattern.new 5) newThreads)
      [.ready 0, .ready 1, .startUp, .block, .kill 0, .deblock 0, .yield] s ∧
      (s.scheduler.threads 0).finished = true ∧ s.scheduler.currentThread = some 0 :=
  ⟨_, .next (.of_call (.ready rfl)) (.next (.of_call (.ready rfl))
    (.next (.of_call (.startUp rfl (show Scheduler.startUp 11 _ = _ from rfl)))
    (.next (.of_call (.block (show Scheduler.block 11 _ = _ from rfl)))
    (.next (.of_call (.kill rfl)) (.next (.of_call (.deblock rfl))
    (.next (.of_call (.yield (show Scheduler.yield 11 _ = _ from rfl))) (.done _))))))), rfl, rfl⟩

end Session

end HuyaOS
