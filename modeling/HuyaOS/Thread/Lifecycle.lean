import HuyaOS.Lib.Transition
import HuyaOS.Thread.ThreadSystem

/-!
The lives of threads. A thread is started, runs, waits in the queue of its
priority, blocks and finishes. That it is blocked is recorded nowhere, so the
runs carry this along, together with the order of arrival in the queues.
-/

namespace HuyaOS

open Lib Function Multiset Option Unique
open Scheduler (Op)

inductive Life
  | unstarted
  | ready
  | running
  | blocked
  | finished
  deriving DecidableEq, Repr

namespace ThreadSystem

variable {s s' s'' : ThreadSystem} {b b' : Finset Nat} {t u p next : Nat}

def waiting (s : ThreadSystem) : Multiset Nat := pending s.count s.queues

def contents (s : ThreadSystem) : Multiset Nat := (s.current.toList : Multiset Nat) + s.waiting

theorem contents_of_current (hcurrent : s.current = some t) : s.contents = t ::ₘ s.waiting := by
  rw [contents, hcurrent, toList_some, coe_singleton, singleton_add]

theorem mem_contents : t ∈ s.contents ↔ s.current = some t ∨ t ∈ s.waiting := by
  rw [contents, mem_add, mem_coe, Option.mem_toList]

section

variable (hp : s.priority t < s.count)

include hp

theorem waiting_push : (s.push t).waiting = t ::ₘ s.waiting :=
  pending_push hp t

theorem contents_push : (s.push t).contents = t ::ₘ s.contents := by
  rw [contents, waiting_push hp, add_cons]
  rfl

theorem contents_push_modify (f : Thread → Thread) :
    ((s.push t).modify t f).contents = t ::ₘ s.contents := by
  rw [← contents_push hp]
  rfl

theorem waiting_drop (ht : t ∈ s.queues (s.priority t)) : s.waiting = t ::ₘ (s.drop t).waiting :=
  pending_erase hp ht

theorem contents_drop (ht : t ∈ s.queues (s.priority t)) :
    s.contents = t ::ₘ (s.drop t).contents := by
  rw [contents, waiting_drop hp ht, add_cons]
  rfl

end

theorem drop_of_notMem (ht : t ∉ s.queues (s.priority t)) : s.drop t = s := by
  rw [drop, List.erase_of_not_mem ht, update_eq_self]

theorem Takes.waiting (h : s.Takes next s') : s.waiting = next ::ₘ s'.waiting := by
  cases h with
  | mk hp hqueue => exact pending_pop hp hqueue

theorem Takes.contents (h : s.Takes next s') : (s'.run next).contents = s.waiting := by
  rw [h.waiting]
  exact contents_of_current rfl

theorem Takes.priority (h : s.Takes next s') : s'.priority u = s.priority u := by
  rw [ThreadSystem.priority, h.fields.2.2.2]
  rfl

variable {f : Thread → Thread} {current : Nat}

theorem Takes.contents_yield (h : s.Takes next s') (hcurrent : s.current = some current)
    (hp : s.priority current < s.count) : ((s'.push current).run next).contents = s.contents := by
  have hp' : s'.priority current < s'.count := by
    rw [h.priority, h.fields.2.2.1]
    exact hp
  rw [contents_of_current hcurrent, h.waiting, cons_swap, ← waiting_push hp']
  exact contents_of_current rfl

theorem mem_queues_push : u ∈ (s.push t).queues p ↔ u ∈ s.queues p ∨ p = s.priority t ∧ u = t := by
  simp only [push, update_apply]
  split
  · rename_i heq
    simp [heq]
  · rename_i hne
    simp [hne]

theorem mem_queues_drop (hne : u ≠ t) : u ∈ (s.drop t).queues p ↔ u ∈ s.queues p := by
  simp only [drop, update_apply]
  split
  · rename_i heq
    rw [List.mem_erase_of_ne hne, heq]
  · rfl

theorem Takes.mem_queues (h : s.Takes next s') (hne : u ≠ next) :
    u ∈ s'.queues p ↔ u ∈ s.queues p := by
  cases h with
  | mk hp hqueue =>
    simp only [update_apply]
    split
    · rename_i heq
      rw [heq, hqueue, List.mem_cons, or_iff_right hne]
    · rfl

/-- Where a thread is in its life, if the threads in `b` have blocked. -/
def life (s : ThreadSystem) (b : Finset Nat) (t : Nat) : Life :=
  if (s.threads t).finished then .finished
  else if (s.threads t).started = false then .unstarted
  else if s.current = some t then .running
  else if t ∈ b then .blocked
  else .ready

theorem life_eq_finished : s.life b t = .finished ↔ (s.threads t).finished = true := by
  unfold life
  split_ifs <;> simp_all

theorem life_eq_ready : s.life b t = .ready ↔ (s.threads t).finished = false ∧
    (s.threads t).started = true ∧ s.current ≠ some t ∧ t ∉ b := by
  unfold life
  split_ifs <;> simp_all

theorem life_eq_running : s.life b t = .running ↔ (s.threads t).finished = false ∧
    (s.threads t).started = true ∧ s.current = some t := by
  unfold life
  split_ifs <;> simp_all

theorem life_eq_blocked : s.life b t = .blocked ↔ (s.threads t).finished = false ∧
    (s.threads t).started = true ∧ s.current ≠ some t ∧ t ∈ b := by
  unfold life
  split_ifs <;> simp_all

theorem life_eq_unstarted : s.life b t = .unstarted ↔ (s.threads t).finished = false ∧
    (s.threads t).started = false := by
  unfold life
  split_ifs <;> simp_all

theorem life_congr (hfinished : (s'.threads u).finished = (s.threads u).finished)
    (hstarted : (s'.threads u).started = (s.threads u).started)
    (hcurrent : s'.current = some u ↔ s.current = some u) (hblocked : u ∈ b' ↔ u ∈ b) :
    s'.life b' u = s.life b u := by
  unfold life
  simp only [hfinished, hstarted, hcurrent, hblocked]

theorem life_of_thread_eq (hthread : s'.threads u = s.threads u)
    (hcurrent : s'.current = some u ↔ s.current = some u) (hblocked : u ∈ b' ↔ u ∈ b) :
    s'.life b' u = s.life b u := by
  apply life_congr _ _ hcurrent hblocked
  · rw [hthread]
  · rw [hthread]

theorem life_of_waits (hthread : s'.threads u = s.threads u) (hnext : s'.current = some next)
    (hne : u ≠ next) (hcurrent : s.current ≠ some u) (hblocked : u ∈ b' ↔ u ∈ b) :
    s'.life b' u = s.life b u := by
  apply life_of_thread_eq hthread _ hblocked
  apply iff_of_false _ hcurrent
  rw [hnext]
  exact fun heq => hne (some.inj heq).symm

/-- Every thread occurs at most once. One that is ready sits in the queue of its
priority, and one that is unstarted, blocked or finished occurs nowhere. -/
structure Unique (s : ThreadSystem) (b : Finset Nat) : Prop where
  once : s.contents.Nodup
  queued : ∀ t, s.life b t = .ready → t ∈ s.queues (s.priority t)
  absent : ∀ t, s.life b t = .unstarted ∨ s.life b t = .blocked ∨ s.life b t = .finished →
    t ∉ s.contents

/-- What carries uniqueness from step to step. -/
structure Tracked (s : ThreadSystem) (b : Finset Nat) : Prop extends Unique s b where
  priority_lt : ∀ t, s.priority t < s.count
  initialized_eq : s.initialized = s.current.isSome
  blocked_started : ∀ t ∈ b, (s.threads t).started = true ∧ s.current ≠ some t

theorem Unique.active (h : Unique s b) (ht : t ∈ s.contents) :
    s.life b t = .ready ∨ s.life b t = .running := by
  have habsent := fun hlife => h.absent t hlife ht
  cases hlife : s.life b t with
  | ready => exact .inl rfl
  | running => exact .inr rfl
  | unstarted => exact absurd (.inl hlife) habsent
  | blocked => exact absurd (.inr (.inl hlife)) habsent
  | finished => exact absurd (.inr (.inr hlife)) habsent

theorem Unique.of_active (honce : s.contents.Nodup)
    (hqueued : ∀ t, s.life b t = .ready → t ∈ s.queues (s.priority t))
    (hactive : ∀ t ∈ s.contents, s.life b t = .ready ∨ s.life b t = .running) : Unique s b where
  once := honce
  queued := hqueued
  absent t hlife ht := by
    rcases hactive t ht with heq | heq <;> rw [heq] at hlife <;> simp at hlife

theorem Unique.of_running (hnext : s.life b next = .running) (honce : s.contents.Nodup)
    (hqueued : ∀ t ≠ next, s.life b t = .ready → t ∈ s.queues (s.priority t))
    (hactive : ∀ t ∈ s.contents, t ≠ next → s.life b t = .ready ∨ s.life b t = .running) :
    Unique s b := by
  apply of_active honce
  · intro t hready
    apply hqueued t _ hready
    rintro rfl
    rw [hnext] at hready
    cases hready
  · intro t ht
    by_cases heq : t = next
    · rw [heq]
      exact .inr hnext
    · exact hactive t ht heq

theorem threads_modify_of_ne (hne : u ≠ t) : (s.modify t f).threads u = s.threads u :=
  update_of_ne hne _ _

theorem threads_modify_self : (s.modify t f).threads t = f (s.threads t) :=
  update_self _ _ _

theorem life_modify_of_ne (hne : u ≠ t) (hblocked : u ∈ b' ↔ u ∈ b) :
    (s.modify t f).life b' u = s.life b u :=
  life_of_thread_eq (threads_modify_of_ne hne) Iff.rfl hblocked

theorem modify_id : s.modify t id = s := by
  rw [modify, id_eq, update_eq_self]

theorem priority_modify (hf : ∀ thread, (f thread).priority = thread.priority) :
    (s.modify t f).priority u = s.priority u := by
  unfold priority
  by_cases hu : u = t
  · rw [hu, threads_modify_self, hf]
  · rw [threads_modify_of_ne hu]

theorem priority_setPriority_lt {n priority : Nat} (hold : s.priority u < n)
    (hpriority : priority < n) :
    (s.modify t ({ · with priority })).priority u < n := by
  unfold ThreadSystem.priority
  by_cases hut : u = t
  · rw [hut, threads_modify_self]
    exact hpriority
  · rw [threads_modify_of_ne hut]
    exact hold

section

variable (h : Unique s b)

include h

theorem Unique.next_ready (htakes : s.Takes next s') :
    s.life b next = .ready ∧ s.current ≠ some next := by
  have hmem : next ∈ s.waiting := by
    rw [htakes.waiting]
    exact mem_cons_self _ _
  have hcurrent : s.current ≠ some next := by
    intro hcurrent
    have honce := h.once
    rw [contents_of_current hcurrent, nodup_cons] at honce
    exact honce.1 hmem
  rcases h.active (mem_contents.mpr (.inr hmem)) with hready | hrunning
  · exact ⟨hready, hcurrent⟩
  · exact absurd (life_eq_running.mp hrunning).2.2 hcurrent

theorem Unique.next_running (htakes : s.Takes next s')
    (hthread : s''.threads next = s'.threads next) (hcurrent : s''.current = some next) :
    s''.life b' next = .running := by
  obtain ⟨hfinished, hstarted, _, _⟩ := life_eq_ready.mp (h.next_ready htakes).1
  rw [life_eq_running, hthread, htakes.fields.2.2.2]
  exact ⟨hfinished, hstarted, hcurrent⟩

theorem Unique.current_running (hcurrent : s.current = some t) :
    s.life b t = .running ∧ t ∉ s.waiting := by
  have honce := h.once
  rw [contents_of_current hcurrent, nodup_cons] at honce
  refine ⟨?_, honce.1⟩
  rcases h.active (mem_contents.mpr (.inl hcurrent)) with hready | hrunning
  · exact absurd hcurrent (life_eq_ready.mp hready).2.2.1
  · exact hrunning

theorem Unique.arrive (b' : Finset Nat) (hf : ∀ thread, (f thread).priority = thread.priority)
    (hp : s.priority t < s.count) (habsent : t ∉ s.contents)
    (hready : ((s.push t).modify t f).life b' t = .ready) (hb : ∀ u, u ≠ t → (u ∈ b' ↔ u ∈ b)) :
    Unique ((s.push t).modify t f) b' := by
  have hlife : ∀ u, u ≠ t → ((s.push t).modify t f).life b' u = s.life b u := by
    intro u hu
    exact life_modify_of_ne hu (hb u hu)
  have hcontents : ((s.push t).modify t f).contents = t ::ₘ s.contents := contents_push_modify hp f
  apply of_active
  · rw [hcontents]
    exact nodup_cons.mpr ⟨habsent, h.once⟩
  · intro u hu
    rw [priority_modify hf]
    by_cases hut : u = t
    · exact mem_queues_push.mpr (.inr ⟨by rw [hut]; rfl, hut⟩)
    · rw [hlife u hut] at hu
      exact mem_queues_push.mpr (.inl (h.queued u hu))
  · intro u hu
    rw [hcontents, mem_cons] at hu
    by_cases hut : u = t
    · rw [hut]
      exact .inl hready
    · rw [hlife u hut]
      exact h.active (hu.resolve_left hut)

theorem Unique.leave (b' : Finset Nat) (hcurrent : s.current = some current)
    (htakes : s.Takes next s') (hf : ∀ thread, (f thread).priority = thread.priority)
    (hgone : ((s'.modify current f).run next).life b' current ≠ .ready)
    (hb : ∀ u, u ≠ current → u ≠ next → (u ∈ b' ↔ u ∈ b)) :
    Unique ((s'.modify current f).run next) b' := by
  obtain ⟨_, hleft⟩ := h.current_running hcurrent
  obtain ⟨_, _, _, hthreads⟩ := htakes.fields
  have hdiff : next ≠ current :=
    fun heq => (h.next_ready htakes).2 (hcurrent.trans (congrArg some heq.symm))
  have hcontents : ((s'.modify current f).run next).contents = s.waiting := htakes.contents
  have hlife : ∀ u, u ≠ current → u ≠ next →
      ((s'.modify current f).run next).life b' u = s.life b u := by
    intro u hu hun
    apply life_of_waits _ rfl hun _ (hb u hu hun)
    · simp only [run, threads_modify_of_ne hu, hthreads]
    · rw [hcurrent]
      exact fun heq => hu (some.inj heq).symm
  have honce := h.once
  rw [contents_of_current hcurrent, nodup_cons] at honce
  have hrunning : ((s'.modify current f).run next).life b' next = .running :=
    h.next_running htakes (threads_modify_of_ne hdiff) rfl
  apply of_running hrunning
  · rw [hcontents]
    exact honce.2
  · intro u hun hu
    have huc : u ≠ current := by
      rintro rfl
      exact hgone hu
    rw [hlife u huc hun] at hu
    have hpriority : ((s'.modify current f).run next).priority u = s.priority u :=
      (priority_modify hf).trans htakes.priority
    rw [hpriority]
    exact (htakes.mem_queues hun).mpr (h.queued u hu)
  · intro u hu hun
    rw [hcontents] at hu
    have huc : u ≠ current := fun heq => hleft (heq ▸ hu)
    rw [hlife u huc hun]
    exact h.active (mem_contents.mpr (.inr hu))

theorem Unique.yield (hcurrent : s.current = some current) (htakes : s.Takes next s')
    (hp : s.priority current < s.count) (hfree : current ∉ b')
    (hb : ∀ u, u ≠ next → (u ∈ b' ↔ u ∈ b)) :
    Unique ((s'.push current).run next) b' := by
  obtain ⟨hlast, _⟩ := h.current_running hcurrent
  obtain ⟨hfinished, hstarted, _⟩ := life_eq_running.mp hlast
  obtain ⟨_, _, _, hthreads⟩ := htakes.fields
  have hdiff : current ≠ next :=
    fun heq => (h.next_ready htakes).2 (hcurrent.trans (congrArg some heq))
  have hcontents := htakes.contents_yield hcurrent hp
  have hready : ((s'.push current).run next).life b' current = .ready := by
    rw [life_eq_ready]
    simp only [run, push, hthreads, ne_eq, some.injEq]
    exact ⟨hfinished, hstarted, hdiff.symm, hfree⟩
  have hlife : ∀ u, u ≠ current → u ≠ next →
      ((s'.push current).run next).life b' u = s.life b u := by
    intro u hu hun
    apply life_of_waits _ rfl hun _ (hb u hun)
    · simp only [run, push, hthreads]
    · rw [hcurrent]
      exact fun heq => hu (some.inj heq).symm
  have hrunning : ((s'.push current).run next).life b' next = .running :=
    h.next_running htakes rfl rfl
  apply of_running hrunning
  · rw [hcontents]
    exact h.once
  · intro u hun hu
    by_cases huc : u = current
    · exact mem_queues_push.mpr (.inr ⟨by rw [huc]; rfl, huc⟩)
    · rw [hlife u huc hun] at hu
      have hin : u ∈ s'.queues (s'.priority u) := by
        rw [htakes.priority]
        exact (htakes.mem_queues hun).mpr (h.queued u hu)
      exact mem_queues_push.mpr (.inl hin)
  · intro u hu hun
    rw [hcontents] at hu
    by_cases huc : u = current
    · rw [huc]
      exact .inl hready
    · rw [hlife u huc hun]
      exact h.active hu

theorem Unique.startUp (hcurrent : s.current = none) (htakes : s.Takes next s')
    (hb : ∀ u, u ≠ next → (u ∈ b' ↔ u ∈ b)) :
    Unique { s'.run next with initialized := true } b' := by
  obtain ⟨_, _, _, hthreads⟩ := htakes.fields
  have hcontents : contents { s'.run next with initialized := true } = s.contents := by
    refine htakes.contents.trans ?_
    rw [contents, hcurrent, toList_none, coe_nil, zero_add]
  have hlife : ∀ u, u ≠ next → life { s'.run next with initialized := true } b' u = s.life b u := by
    intro u hun
    apply life_of_waits _ rfl hun _ (hb u hun)
    · simp only [run, hthreads]
    · rw [hcurrent]
      exact some_ne_none u ∘ Eq.symm
  have hrunning : life { s'.run next with initialized := true } b' next = .running :=
    h.next_running htakes rfl rfl
  apply of_running hrunning
  · rw [hcontents]
    exact h.once
  · intro u hun hu
    rw [hlife u hun] at hu
    have hin := (htakes.mem_queues hun).mpr (h.queued u hu)
    rwa [← htakes.priority] at hin
  · intro u hu hun
    rw [hcontents] at hu
    rw [hlife u hun]
    exact h.active hu

theorem Unique.drop_absent (hp : s.priority t < s.count) (hcurrent : s.current ≠ some t) :
    t ∉ (s.drop t).contents ∧ (s.drop t).contents.Nodup ∧ ∀ u ≠ t, u ∈ (s.drop t).contents ↔
      u ∈ s.contents := by
  by_cases ht : t ∈ s.queues (s.priority t)
  · have hcontents := contents_drop hp ht
    have honce := h.once
    rw [hcontents, nodup_cons] at honce
    refine ⟨honce.1, honce.2, fun u hu => ?_⟩
    rw [hcontents, mem_cons, or_iff_right hu]
  · rw [drop_of_notMem ht]
    refine ⟨fun hmem => ?_, h.once, fun _ _ => Iff.rfl⟩
    rcases h.active hmem with hready | hrunning
    · exact ht (h.queued t hready)
    · exact hcurrent (life_eq_running.mp hrunning).2.2

theorem Unique.kill (hp : s.priority t < s.count) (hcurrent : s.current ≠ some t) :
    Unique ((s.drop t).modify t ({ · with finished := true })) b := by
  obtain ⟨habsent, honce, hmem⟩ := h.drop_absent hp hcurrent
  have hfinished : ((s.drop t).modify t ({ · with finished := true })).life b t = .finished := by
    rw [life_eq_finished, threads_modify_self]
  have hlife : ∀ u, u ≠ t → ((s.drop t).modify t ({ · with finished := true })).life b u =
      s.life b u := by
    intro u hu
    exact life_modify_of_ne hu Iff.rfl
  apply of_active
  · exact honce
  · intro u hu
    have hut : u ≠ t := by
      rintro rfl
      rw [hfinished] at hu
      cases hu
    rw [hlife u hut] at hu
    have hpriority : ((s.drop t).modify t ({ · with finished := true })).priority u =
        s.priority u :=
      priority_modify fun _ => rfl
    rw [hpriority]
    exact (mem_queues_drop hut).mpr (h.queued u hu)
  · intro u hu
    have hut : u ≠ t := fun heq => habsent (heq ▸ hu)
    rw [hlife u hut]
    exact h.active ((hmem u hut).mp hu)

end

theorem life_setPriority (priority : Nat) :
    (s.modify t ({ · with priority })).life b u = s.life b u := by
  by_cases hu : u = t
  · apply life_congr
    · rw [hu, threads_modify_self]
    · rw [hu, threads_modify_self]
    · rfl
    · rfl
  · exact life_modify_of_ne hu Iff.rfl

theorem Unique.setRunning (h : Unique s b) (hcurrent : s.current = some t) (priority : Nat) :
    Unique (s.modify t ({ · with priority })) b := by
  obtain ⟨hrunning, _⟩ := h.current_running hcurrent
  have hlife := fun u => life_setPriority (s := s) (b := b) (t := t) (u := u) priority
  refine ⟨h.once, ?_, fun u hu => h.absent u (by rwa [hlife] at hu)⟩
  intro u hu
  rw [hlife] at hu
  have hut : u ≠ t := by
    rintro rfl
    rw [hrunning] at hu
    cases hu
  rw [ThreadSystem.priority, threads_modify_of_ne hut]
  exact h.queued u hu

theorem contents_setPriority {priority : Nat} (hpriority : priority < s.count) :
    (((s.drop t).modify t ({ · with priority })).push t).contents = t ::ₘ (s.drop t).contents := by
  apply contents_push
  rw [ThreadSystem.priority, threads_modify_self]
  exact hpriority

theorem Unique.setPriority (h : Unique s b) (hready : s.life b t = .ready)
    (hp : s.priority t < s.count) {priority : Nat} (hpriority : priority < s.count) :
    Unique (((s.drop t).modify t ({ · with priority })).push t) b := by
  obtain ⟨habsent, honce, hmem⟩ := h.drop_absent hp (life_eq_ready.mp hready).2.2.1
  have hlife : ∀ u, (((s.drop t).modify t ({ · with priority })).push t).life b u = s.life b u :=
    fun u => life_setPriority priority
  have hcontents := contents_setPriority (t := t) hpriority
  apply of_active
  · rw [hcontents]
    exact nodup_cons.mpr ⟨habsent, honce⟩
  · intro u hu
    rw [hlife] at hu
    by_cases hut : u = t
    · exact mem_queues_push.mpr (.inr ⟨by rw [hut]; rfl, hut⟩)
    · have hsame : ((s.drop t).modify t ({ · with priority })).priority u = s.priority u := by
        rw [ThreadSystem.priority, threads_modify_of_ne hut]
        rfl
      have hin : u ∈ (s.drop t).queues (s.priority u) := (mem_queues_drop hut).mpr (h.queued u hu)
      rw [← hsame] at hin
      exact mem_queues_push.mpr (.inl hin)
  · intro u hu
    rw [hlife]
    rw [hcontents, mem_cons] at hu
    by_cases hut : u = t
    · rw [hut]
      exact .inl hready
    · exact h.active ((hmem u hut).mp (hu.resolve_left hut))

/-- The threads that have blocked, after a step. A thread that runs again has
not. -/
def blockedAfter (s : ThreadSystem) (b : Finset Nat) (op : Op) (s' : ThreadSystem) : Finset Nat :=
  match op with
  | .startUp | .yield | .exit => b.filter fun t => s'.current ≠ some t
  | .block => (b ∪ s.current.toFinset).filter fun t => s'.current ≠ some t
  | .deblock t => b.erase t
  | .ready _ | .kill _ | .setPriority _ _ => b

/-- Who enters a ready queue in a step. -/
def arrival (s : ThreadSystem) : Op → List Nat
  | .ready t | .deblock t => [t]
  | .yield => if s.waiting = 0 then [] else s.current.toList
  | .setPriority t _ => if s.current = some t then [] else [t]
  | .startUp | .exit | .kill _ | .block => []

/-- Calls whose arguments are as the calls expect them: only a thread that is
blocked is deblocked. -/
def Expected (s : ThreadSystem) (b : Finset Nat) : Op → Prop
  | .deblock t => s.life b t = .blocked
  | _ => True

/-- The priority is changed only for threads that are ready or running, and a
thread that was killed is not started. -/
def Sound (s : ThreadSystem) (b : Finset Nat) : Op → Prop
  | .ready t => (s.threads t).finished = false
  | .setPriority t _ => s.life b t = .ready ∨ s.life b t = .running
  | _ => True

section Steps

variable {op : Op}

theorem mem_filter_ne : (u ∈ b.filter fun t => some next ≠ some t) ↔ u ∈ b ∧ u ≠ next := by
  rw [Finset.mem_filter, ne_eq, some.injEq, ne_comm]

theorem mem_filter_of_ne (hne : u ≠ next) : (u ∈ b.filter fun t => some next ≠ some t) ↔ u ∈ b :=
  mem_filter_ne.trans (and_iff_left hne)

theorem Unique.not_of_mem (ht : t ∈ s.contents)
    (hlife : s.life b t ≠ .ready) (hlife' : s.life b t ≠ .running) : ¬Unique s b :=
  fun h => (h.active ht).elim hlife hlife'

section

variable (h : Tracked s b)

include h

theorem Tracked.current_some (hinit : s.initialized = true) :
    ∃ current, s.current = some current := by
  rw [h.initialized_eq] at hinit
  exact isSome_iff_exists.mp hinit

theorem Tracked.current_none (hinit : s.initialized = false) : s.current = none := by
  rw [h.initialized_eq] at hinit
  exact isNone_iff_eq_none.mp (isSome_eq_false_iff.mp hinit)

theorem Tracked.dispatch (hthreads : ∀ u, (s''.threads u).started = (s.threads u).started)
    (hpriority : ∀ u, s''.priority u = s.priority u) (hcount : s''.count = s.count)
    (hcurrent : s''.current = some next) (hinit : s''.initialized = true) (hunique : Unique s'' b')
    (hb : ∀ u ∈ b', (u ∈ b ∨ s.current = some u) ∧ u ≠ next) :
    Tracked s'' b' := by
  refine ⟨hunique, ?_, ?_, ?_⟩
  · intro u
    rw [hpriority, hcount]
    exact h.priority_lt u
  · rw [hinit, hcurrent]
    rfl
  · intro u hu
    obtain ⟨hold, hne⟩ := hb u hu
    rw [hthreads, hcurrent]
    refine ⟨?_, fun heq => hne (some.inj heq).symm⟩
    rcases hold with hin | hrunning
    · exact (h.blocked_started u hin).1
    · exact (life_eq_running.mp (h.current_running hrunning).1).2.1

theorem Tracked.stay (hunique : Unique s' b') (hcount : s'.count = s.count)
    (hpriority : ∀ u, s'.priority u < s.count) (hinit : s'.initialized = s.initialized)
    (hcurrent : s'.current = s.current)
    (hb : ∀ u ∈ b', u ∈ b ∧ (s'.threads u).started = (s.threads u).started) : Tracked s' b' := by
  refine ⟨hunique, ?_, ?_, ?_⟩
  · intro u
    rw [hcount]
    exact hpriority u
  · rw [hinit, hcurrent]
    exact h.initialized_eq
  · intro u hu
    obtain ⟨hin, hstarted⟩ := hb u hu
    rw [hstarted, hcurrent]
    exact h.blocked_started u hin

theorem Tracked.ready (hstarted : (s.threads t).started = false)
    (hfinished : (s.threads t).finished = false) (hp : s.priority t < s.count) :
    Tracked ((s.push t).modify t ({ · with started := true })) b := by
  have habsent := h.absent t (.inl (life_eq_unstarted.mpr ⟨hfinished, hstarted⟩))
  have hblocked : t ∉ b := by
    intro hin
    rw [(h.blocked_started t hin).1] at hstarted
    cases hstarted
  refine h.stay ?_ rfl ?_ rfl rfl ?_
  · refine h.toUnique.arrive b (fun _ => rfl) hp habsent ?_ fun _ _ => Iff.rfl
    rw [life_eq_ready, threads_modify_self]
    exact ⟨hfinished, rfl, fun hcurrent => habsent (mem_contents.mpr (.inl hcurrent)), hblocked⟩
  · intro u
    exact lt_of_eq_of_lt (priority_modify fun _ => rfl) (h.priority_lt u)
  · intro u hu
    have hut : u ≠ t := fun heq => hblocked (heq ▸ hu)
    rw [threads_modify_of_ne hut]
    exact ⟨hu, rfl⟩

theorem Tracked.deblock (hlife : s.life b t = .blocked) (hp : s.priority t < s.count) :
    Tracked (s.push t) (b.erase t) := by
  have habsent := h.absent t (.inr (.inl hlife))
  obtain ⟨hfinished, hstarted, hcurrent, _⟩ := life_eq_blocked.mp hlife
  refine h.stay ?_ rfl h.priority_lt rfl rfl ?_
  · have harrive := h.toUnique.arrive (b.erase t) (f := id) (fun _ => rfl) hp habsent
    rw [modify_id] at harrive
    apply harrive
    · rw [life_eq_ready]
      exact ⟨hfinished, hstarted, hcurrent, Finset.notMem_erase t b⟩
    · intro u hu
      rw [Finset.mem_erase, and_iff_right hu]
  · intro u hu
    exact ⟨Finset.mem_of_mem_erase hu, rfl⟩

theorem Tracked.kill (hcurrent : s.current ≠ some t) (hp : s.priority t < s.count) :
    Tracked ((s.drop t).modify t ({ · with finished := true })) b := by
  refine h.stay (h.toUnique.kill hp hcurrent) rfl ?_ rfl rfl ?_
  · intro u
    exact lt_of_eq_of_lt (priority_modify fun _ => rfl) (h.priority_lt u)
  · intro u hu
    refine ⟨hu, ?_⟩
    by_cases hut : u = t
    · rw [hut, threads_modify_self]
      rfl
    · rw [threads_modify_of_ne hut]
      rfl

theorem Tracked.setRunning (hcurrent : s.current = some t) {priority : Nat}
    (hpriority : priority < s.count) :
    Tracked (s.modify t ({ · with priority })) b := by
  refine h.stay (h.toUnique.setRunning hcurrent priority) rfl ?_ rfl rfl ?_
  · intro u
    exact priority_setPriority_lt (h.priority_lt u) hpriority
  · intro u hu
    refine ⟨hu, ?_⟩
    have hut : u ≠ t := fun heq => (h.blocked_started u hu).2 (heq ▸ hcurrent)
    rw [threads_modify_of_ne hut]

theorem Tracked.setPriority (hready : s.life b t = .ready) {priority : Nat}
    (hp : s.priority t < s.count) (hpriority : priority < s.count) :
    Tracked (((s.drop t).modify t ({ · with priority })).push t) b := by
  refine h.stay (h.toUnique.setPriority hready hp hpriority) rfl ?_ rfl rfl ?_
  · intro u
    exact priority_setPriority_lt (h.priority_lt u) hpriority
  · intro u hu
    refine ⟨hu, ?_⟩
    have hut : u ≠ t := fun heq => (life_eq_ready.mp hready).2.2.2 (heq ▸ hu)
    simp only [push, threads_modify_of_ne hut]
    rfl

theorem Tracked.startUp (hinit : s.initialized = false) (htakes : s.Takes next s') :
    Tracked { s'.run next with initialized := true } (b.filter fun t => some next ≠ some t) := by
  obtain ⟨_, _, hcount, hthreads⟩ := htakes.fields
  refine h.dispatch ?_ (fun u => htakes.priority) hcount rfl rfl ?_ ?_
  · intro u
    simp only [run, hthreads]
  · apply h.toUnique.startUp (h.current_none hinit) htakes
    exact fun u hu => mem_filter_of_ne hu
  · intro u hu
    obtain ⟨hin, hne⟩ := mem_filter_ne.mp hu
    exact ⟨.inl hin, hne⟩

section

variable {current : Nat} (hcurrent : s.current = some current) (hinit : s.initialized = true)
  (htakes : s.Takes next s')

include hcurrent hinit htakes

theorem Tracked.yield (hp : s.priority current < s.count) :
    Tracked ((s'.push current).run next) (b.filter fun t => some next ≠ some t) := by
  obtain ⟨_, hinit', hcount, hthreads⟩ := htakes.fields
  refine h.dispatch ?_ (fun u => htakes.priority) hcount rfl (hinit'.trans hinit) ?_ ?_
  · intro u
    simp only [run, push, hthreads]
  · apply h.toUnique.yield hcurrent htakes hp
    · intro hmem
      exact (h.blocked_started current (mem_filter_ne.mp hmem).1).2 hcurrent
    · exact fun u hu => mem_filter_of_ne hu
  · intro u hu
    obtain ⟨hin, hne⟩ := mem_filter_ne.mp hu
    exact ⟨.inl hin, hne⟩

theorem Tracked.exit : Tracked ((s'.modify current ({ · with finished := true })).run next)
      (b.filter fun t => some next ≠ some t) := by
  obtain ⟨_, hinit', hcount, hthreads⟩ := htakes.fields
  refine h.dispatch ?_ ?_ hcount rfl (hinit'.trans hinit) ?_ ?_
  · intro u
    by_cases hut : u = current
    · simp only [run, hut, threads_modify_self, hthreads]
    · simp only [run, threads_modify_of_ne hut, hthreads]
  · intro u
    refine Eq.trans ?_ htakes.priority
    exact priority_modify (f := ({ · with finished := true })) fun _ => rfl
  · refine h.toUnique.leave _ hcurrent htakes (fun _ => rfl) ?_ ?_
    · rw [ne_eq, life_eq_ready]
      simp only [run, threads_modify_self]
      rintro ⟨⟨⟩, _⟩
    · exact fun u _ hu => mem_filter_of_ne hu
  · intro u hu
    obtain ⟨hin, hne⟩ := mem_filter_ne.mp hu
    exact ⟨.inl hin, hne⟩

theorem Tracked.block :
    Tracked (s'.run next) ((b ∪ s.current.toFinset).filter fun t => some next ≠ some t) := by
  obtain ⟨_, hinit', hcount, hthreads⟩ := htakes.fields
  have hmem : ∀ u, (u ∈ b ∪ s.current.toFinset) ↔ u ∈ b ∨ u = current := by
    intro u
    rw [hcurrent, Finset.mem_union, mem_toFinset, mem_some_iff]
    exact or_congr_right eq_comm
  have hdiff : current ≠ next :=
    fun heq => (h.toUnique.next_ready htakes).2 (hcurrent.trans (congrArg some heq))
  refine h.dispatch ?_ (fun u => htakes.priority) hcount rfl (hinit'.trans hinit) ?_ ?_
  · intro u
    simp only [run, hthreads]
  · have hleave := h.toUnique.leave ((b ∪ s.current.toFinset).filter fun t => some next ≠ some t)
      (f := id) hcurrent htakes fun _ => rfl
    rw [modify_id] at hleave
    apply hleave
    · rw [ne_eq, life_eq_ready]
      rintro ⟨_, _, _, hfree⟩
      exact hfree (mem_filter_ne.mpr ⟨(hmem current).mpr (.inr rfl), hdiff⟩)
    · intro u hu hun
      rw [mem_filter_ne, hmem, or_iff_left hu, and_iff_left hun]
  · intro u hu
    obtain ⟨hin, hne⟩ := mem_filter_ne.mp hu
    refine ⟨?_, hne⟩
    rcases (hmem u).mp hin with hold | rfl
    · exact .inl hold
    · exact .inr hcurrent

end

/-- A step that meets the condition keeps every thread in its place, and one that
does not puts a thread where it must not be. -/
theorem Tracked.step (hexpected : s.Expected b op) (hstep : s.Step op s') :
    (s.Sound b op ∧ Tracked s' (s.blockedAfter b op s')) ∨
      (¬s.Sound b op ∧ ¬Unique s' (s.blockedAfter b op s')) := by
  cases hstep with
  | startUp hinit htakes => exact .inl ⟨trivial, h.startUp hinit htakes⟩
  | ready hstarted hp =>
    rename_i t
    cases hfinished : (s.threads t).finished with
    | false => exact .inl ⟨hfinished, h.ready hstarted hfinished hp⟩
    | true =>
      have hlife : ((s.push t).modify t ({ · with started := true })).life b t = .finished := by
        rw [life_eq_finished, threads_modify_self]
        exact hfinished
      have hmem : t ∈ ((s.push t).modify t ({ · with started := true })).contents := by
        rw [contents_push_modify hp]
        exact mem_cons_self t _
      refine .inr ⟨fun hsound => ?_, fun hunique => hunique.absent t (.inr (.inr hlife)) hmem⟩
      rw [Sound, hfinished] at hsound
      cases hsound
  | exit hinit hcurrent htakes => exact .inl ⟨trivial, h.exit hcurrent hinit htakes⟩
  | kill hinit hcurrent hne hp =>
    refine .inl ⟨trivial, h.kill (fun heq => hne ?_) hp⟩
    exact some.inj (heq.symm.trans hcurrent)
  | yieldAlone halone =>
    have hsame : (b.filter fun t => s.current ≠ some t) = b :=
      Finset.filter_true_of_mem fun t ht => (h.blocked_started t ht).2
    refine .inl ⟨trivial, ?_⟩
    rw [blockedAfter, hsame]
    exact h
  | yield hinit hcurrent htakes hp => exact .inl ⟨trivial, h.yield hcurrent hinit htakes hp⟩
  | block hinit htakes =>
    obtain ⟨current, hcurrent⟩ := h.current_some hinit
    exact .inl ⟨trivial, h.block hcurrent hinit htakes⟩
  | deblock hinit hp => exact .inl ⟨trivial, h.deblock hexpected hp⟩
  | setRunning hcurrent =>
    rename_i t priority
    have hpriority : s.clamp priority < s.count := by
      have hp := h.priority_lt t
      unfold clamp
      omega
    exact .inl ⟨.inr (h.current_running hcurrent).1, h.setRunning hcurrent hpriority⟩
  | setPriority hcurrent hp hclamp =>
    rename_i t priority
    by_cases hready : s.life b t = .ready
    · exact .inl ⟨.inl hready, h.setPriority hready hp hclamp⟩
    · have hrunning : s.life b t ≠ .running := fun hlife => hcurrent (life_eq_running.mp hlife).2.2
      refine .inr ⟨fun hsound => hsound.elim hready hrunning, ?_⟩
      have hlife := life_setPriority (s := s.drop t) (b := b) (t := t) (u := t) (s.clamp priority)
      apply Unique.not_of_mem
      · rw [contents_setPriority hclamp]
        exact mem_cons_self t _
      · exact fun heq => hready (hlife.symm.trans heq)
      · exact fun heq => hrunning (hlife.symm.trans heq)

end

end Steps

end ThreadSystem

end HuyaOS
