import HuyaOS.Thread.ThreadRuns

/-!
Conservation and order. As long as the calls get threads in the life they are
meant for and no priority changes, no thread is lost or duplicated, and the
queues hand out the threads of a priority in the order of their arrival. The
priority pattern only chooses among the queues.
-/

namespace HuyaOS

open Lib
open Scheduler (Op)

namespace ThreadSystem

variable {s s' : ThreadSystem} {b : Finset Nat} {arrivals : List Nat} {t next : Nat} {op : Op}

/-- `ready` starts an unstarted thread, `kill` ends a ready one, `deblock` a
blocked one gets ready, and priorities do not change. -/
def Plain (s : ThreadSystem) (b : Finset Nat) : Op → Prop
  | .ready t => s.life b t = .unstarted
  | .kill t => s.life b t = .ready
  | .deblock t => s.life b t = .blocked
  | .setPriority _ _ => False
  | .startUp | .yield | .exit | .block => True

theorem Plain.sound (h : s.Plain b op) : s.Sound b op ∧ s.Expected b op := by
  cases op with
  | ready t => exact ⟨(life_eq_unstarted.mp h).1, trivial⟩
  | deblock t => exact ⟨trivial, h⟩
  | setPriority t priority => exact h.elim
  | _ => exact ⟨trivial, trivial⟩

/-- The running thread and the ready queues change by the thread named in the
call. -/
def Conserved (s : ThreadSystem) (op : Op) (s' : ThreadSystem) : Prop :=
  match op with
  | .ready t | .deblock t => s'.contents = t ::ₘ s.contents
  | .kill t => s.contents = t ::ₘ s'.contents
  | .exit | .block => ∃ t, s.current = some t ∧ s.contents = t ::ₘ s'.contents
  | .startUp | .yield | .setPriority _ _ => s'.contents = s.contents

theorem Tracked.conserved (h : Tracked s b) (hplain : s.Plain b op) (hstep : s.Step op s') :
    s.Conserved op s' := by
  cases hstep with
  | startUp hinit htakes =>
    refine htakes.contents.trans ?_
    rw [contents, h.current_none hinit]
    exact (zero_add _).symm
  | ready hstarted hp => exact contents_push_modify hp _
  | exit hinit hcurrent htakes =>
    refine ⟨_, hcurrent, ?_⟩
    rw [contents_of_current hcurrent]
    exact congrArg _ htakes.contents.symm
  | kill hinit hcurrent hne hp => exact contents_drop hp (h.queued _ hplain)
  | yieldAlone halone => rfl
  | yield hinit hcurrent htakes hp => exact htakes.contents_yield hcurrent hp
  | block hinit htakes =>
    obtain ⟨current, hcurrent⟩ := h.current_some hinit
    refine ⟨current, hcurrent, ?_⟩
    rw [contents_of_current hcurrent, htakes.contents]
  | deblock hinit hp => exact contents_push hp
  | setRunning hcurrent => exact hplain.elim
  | setPriority hcurrent hp hclamp => exact hplain.elim

/-- In every queue the threads stand in the order of their last arrival. -/
def InOrder (s : ThreadSystem) (arrivals : List Nat) : Prop :=
  ∀ p < s.count, Lib.InOrder arrivals (s.queues p)

theorem InOrder.push (h : s.InOrder arrivals) (ht : t ∉ s.waiting) :
    (s.push t).InOrder (t :: arrivals) := by
  intro p hp
  have hout : ∀ p < s.count, t ∉ s.queues p := fun p hp hmem => ht (mem_pending.mpr ⟨p, hp, hmem⟩)
  simp only [ThreadSystem.push, Function.update_apply]
  split
  · rename_i heq
    rw [← heq]
    exact (h p hp).push (hout p hp)
  · exact (h p hp).arrival (hout p hp)

theorem InOrder.drop (h : s.InOrder arrivals) (t : Nat) : (s.drop t).InOrder arrivals := by
  intro p hp
  simp only [ThreadSystem.drop, Function.update_apply]
  split
  · rename_i heq
    rw [← heq]
    exact (h p hp).sublist List.erase_sublist
  · exact h p hp

theorem InOrder.takes (h : s.InOrder arrivals) (htakes : s.Takes next s') :
    s'.InOrder arrivals := by
  cases htakes with
  | mk hq hqueue =>
    intro p hp
    simp only [Function.update_apply]
    split
    · rename_i heq
      have hfirst := h p hp
      rw [heq, hqueue] at hfirst
      exact hfirst.sublist (List.sublist_cons_self _ _)
    · exact h p hp

theorem Tracked.inOrder (h : Tracked s b) (hplain : s.Plain b op) (hstep : s.Step op s')
    (horder : s.InOrder arrivals) : s'.InOrder (s.arrival op ++ arrivals) := by
  have habsent : ∀ t, t ∉ s.contents → t ∉ s.waiting :=
    fun t ht hmem => ht (mem_contents.mpr (.inr hmem))
  cases hstep with
  | startUp hinit htakes =>
    have htaken := horder.takes htakes
    exact htaken
  | ready hstarted hp =>
    have hpushed := horder.push (habsent _ (h.absent _ (.inl hplain)))
    exact hpushed
  | exit hinit hcurrent htakes =>
    have htaken := horder.takes htakes
    exact htaken
  | kill hinit hcurrent hne hp => exact horder.drop _
  | yieldAlone halone =>
    have hnone : s.waiting = 0 := by
      apply Multiset.eq_zero_of_forall_notMem
      intro t ht
      obtain ⟨p, hp, hmem⟩ := mem_pending.mp ht
      rw [halone p hp] at hmem
      cases hmem
    rw [arrival, if_pos hnone]
    exact horder
  | yield hinit hcurrent htakes hp =>
    rename_i s₁ current next
    have hsome : s.waiting ≠ 0 := by
      rw [htakes.waiting]
      exact Multiset.cons_ne_zero
    have hleft : current ∉ s₁.waiting := by
      intro hmem
      apply (h.current_running hcurrent).2
      rw [htakes.waiting]
      exact Multiset.mem_cons_of_mem hmem
    rw [arrival, if_neg hsome, hcurrent]
    have hpushed := (horder.takes htakes).push hleft
    exact hpushed
  | block hinit htakes =>
    have htaken := horder.takes htakes
    exact htaken
  | deblock hinit hp => exact horder.push (habsent _ (h.absent _ (.inr (.inl hplain))))
  | setRunning hcurrent => exact hplain.elim
  | setPriority hcurrent hp hclamp => exact hplain.elim

/-- Where the running thread changes, a thread has been taken from a queue. -/
theorem Step.takes (hstep : s.Step op s') (hnext : s'.current = some next)
    (hold : s.current ≠ some next) : ∃ s₁, s.Takes next s₁ := by
  cases hstep with
  | startUp hinit htakes => exact ⟨_, Option.some.inj hnext ▸ htakes⟩
  | exit hinit hcurrent htakes => exact ⟨_, Option.some.inj hnext ▸ htakes⟩
  | yield hinit hcurrent htakes hp => exact ⟨_, Option.some.inj hnext ▸ htakes⟩
  | block hinit htakes => exact ⟨_, Option.some.inj hnext ▸ htakes⟩
  | _ => exact absurd hnext hold

/-- The thread that is taken has waited longest among those of its priority. -/
theorem Tracked.taken_first (h : Tracked s b) (horder : s.InOrder arrivals)
    (htakes : s.Takes next s') (ht : t ∈ s.waiting) (hpriority : s.priority t = s.priority next)
    (hne : t ≠ next) :
    arrivals.idxOf t < arrivals.idxOf next := by
  have honce : s.waiting.Nodup := Multiset.nodup_of_le (Multiset.le_add_left _ _) h.once
  have hnext := h.queued next (h.next_ready htakes).1
  have hready : s.life b t = .ready := by
    rcases h.active (mem_contents.mpr (.inr ht)) with hready | hrunning
    · exact hready
    · exact absurd ht (h.current_running (life_eq_running.mp hrunning).2.2).2
  have hqueue := h.queued t hready
  cases htakes with
  | mk hp hfirst =>
    rename_i p rest
    have hindex : s.priority next = p :=
      index_unique honce hp (h.priority_lt next) (by rw [hfirst]; exact List.mem_cons_self) hnext
    rw [hpriority, hindex, hfirst] at hqueue
    have hsorted := horder p hp
    rw [hfirst] at hsorted
    exact hsorted.head ((List.mem_cons.mp hqueue).resolve_left hne)

end ThreadSystem

namespace Session

variable {P : Type} [PriorityPattern P] {pattern : P} {threads : Nat → Thread} {s s' : Session P}
  {op : Op} {ops : List Op}

def PlainStep (s : Session P) (op : Op) (s' : Session P) : Prop :=
  s.view.Plain s.blocked op ∧ Step s op s'

theorem run_inOrder (hnew : New pattern threads)
    (hrun : Run PlainStep (start pattern threads) ops s) :
    Tracked s ∧ s.view.InOrder s.arrivals := by
  apply hrun.invariant _ ⟨start_tracked hnew, fun p _ => Lib.InOrder.nil _⟩
  rintro s op s' ⟨h, horder⟩ ⟨hplain, hstep⟩
  obtain ⟨hsound, hexpected⟩ := hplain.sound
  have hrefines := Scheduler.call_refines h.width hstep.1
  refine ⟨?_, ?_⟩
  · rcases h.step ⟨hexpected, hstep⟩ with ⟨_, htracked⟩ | ⟨hunsound, _⟩
    · exact htracked
    · exact absurd hsound hunsound
  · rw [hstep.2.2]
    exact h.view.inOrder hplain hrefines horder

/-- Whatever the pattern and the number of priorities: a call changes the running
thread and the ready queues by the thread that it names, and a thread that is
dispatched has been enqueued before all others of its priority that wait. -/
theorem conserved_and_in_order (hnew : New pattern threads)
    (hrun : Run PlainStep (start pattern threads) ops s) (hstep : PlainStep s op s') :
    s.view.Conserved op s'.view ∧
      ∀ next, s'.scheduler.currentThread = some next → s.scheduler.currentThread ≠ some next →
        ∀ t ∈ s.view.waiting, s.view.priority t = s.view.priority next → t ≠ next →
          s.arrivals.idxOf t < s.arrivals.idxOf next := by
  obtain ⟨h, horder⟩ := run_inOrder hnew hrun
  obtain ⟨hplain, hcall, _⟩ := hstep
  have hrefines := Scheduler.call_refines h.width hcall
  refine ⟨h.view.conserved hplain hrefines, ?_⟩
  intro next hnext hold t ht hpriority hne
  obtain ⟨s₁, htakes⟩ := hrefines.takes hnext hold
  exact h.view.taken_first horder htakes ht hpriority hne

/-- Three threads of one priority. When the first one yields, the second one is
dispatched, which came before the third. -/
theorem conserved_and_in_order_three_threads :
    ∃ s s', Run PlainStep (start (AccessArrayPriorityPattern.new 5) newThreads)
      [.ready 0, .ready 1, .ready 2, .startUp] s ∧ PlainStep s .yield s' ∧
      s'.scheduler.currentThread = some 1 ∧ s'.view.contents = s.view.contents ∧
      s.arrivals.idxOf 2 < s.arrivals.idxOf 1 := by
  have hrun : ∃ s s', Run PlainStep (start (AccessArrayPriorityPattern.new 5) newThreads)
      [.ready 0, .ready 1, .ready 2, .startUp] s ∧ PlainStep s .yield s' ∧
      s.scheduler.currentThread = some 0 ∧ s'.scheduler.currentThread = some 1 ∧
      2 ∈ s.view.queues 2 ∧ s.view.count = 5 ∧ s.view.priority 1 = s.view.priority 2 := by
    refine ⟨_, _, .next ⟨rfl, .of_call (.ready rfl)⟩ (.next ⟨rfl, .of_call (.ready rfl)⟩
      (.next ⟨rfl, .of_call (.ready rfl)⟩
      (.next ⟨trivial, .of_call (.startUp rfl (show Scheduler.startUp 11 _ = _ from rfl))⟩
        (.done _)))),
      ⟨trivial, .of_call (.yield (show Scheduler.yield 11 _ = _ from rfl))⟩, rfl, rfl, ?_, rfl, rfl⟩
    decide
  obtain ⟨s, s', hrun, hstep, hfirst, hnext, hmem, hcount, hpriority⟩ := hrun
  obtain ⟨hconserved, horder⟩ := conserved_and_in_order newThreads_new hrun hstep
  refine ⟨s, s', hrun, hstep, hnext, hconserved, ?_⟩
  apply horder 1 hnext _ 2 _ hpriority.symm (by decide)
  · rw [hfirst]
    decide
  · exact mem_pending.mpr ⟨2, by rw [hcount]; decide, hmem⟩

end Session

end HuyaOS
