import HuyaOS.Thread.Lifecycle

/-!
Threads that have finished. `kill` removes a thread once, from the queue of its
priority, so a thread that is in a queue twice or in another queue stays there.
-/

namespace HuyaOS.ThreadSystem

open Lib Function
open Scheduler (Op)

variable {s s' : ThreadSystem} {t : Nat} {op : Op}

/-- No thread that runs or occurs in a queue is finished. -/
def Quiet (s : ThreadSystem) : Prop := ∀ t ∈ s.contents, (s.threads t).finished = false

/-- `ready`, `deblock` and `setPriority` are not used for a finished thread, a
thread that is killed occurs at most in the queue of its priority and there once,
and a thread that exits is in no queue. -/
def Careful (s : ThreadSystem) : Op → Prop
  | .ready t | .deblock t => (s.threads t).finished = false
  | .setPriority t _ => s.current = some t ∨ (s.threads t).finished = false
  | .kill t => (s.queues (s.priority t)).count t ≤ 1 ∧
      ∀ p < s.count, p ≠ s.priority t → t ∉ s.queues p
  | .exit => ∀ t, s.current = some t → t ∉ s.waiting
  | .startUp | .yield | .block => True

theorem Quiet.of_subset (h : Quiet s) (hcontents : ∀ u ∈ s'.contents, u ∈ s.contents)
    (hthreads : ∀ u, (s'.threads u).finished = (s.threads u).finished) : Quiet s' := by
  intro u hu
  rw [hthreads]
  exact h u (hcontents u hu)

theorem Quiet.enter_iff (h : Quiet s) (rest : Multiset Nat) (hcontents : s'.contents = t ::ₘ rest)
    (hrest : ∀ u ∈ rest, u ∈ s.contents)
    (hthreads : ∀ u, (s'.threads u).finished = (s.threads u).finished) :
    Quiet s' ↔ (s.threads t).finished = false := by
  constructor
  · intro h'
    rw [← hthreads]
    apply h'
    rw [hcontents]
    exact Multiset.mem_cons_self t rest
  · intro ht u hu
    rw [hthreads]
    rw [hcontents, Multiset.mem_cons] at hu
    rcases hu with rfl | hin
    · exact ht
    · exact h u (hrest u hin)

theorem Quiet.finish_iff (h : Quiet s) (s' : ThreadSystem)
    (hcontents : ∀ u ∈ s'.contents, u ∈ s.contents)
    (hthreads : s'.threads = update s.threads t { s.threads t with finished := true }) :
    Quiet s' ↔ t ∉ s'.contents := by
  constructor
  · intro h' ht
    have hfinished := h' t ht
    rw [hthreads, update_self] at hfinished
    cases hfinished
  · intro ht u hu
    have hut : u ≠ t := fun heq => ht (heq ▸ hu)
    rw [hthreads, update_of_ne hut]
    exact h u (hcontents u hu)

theorem mem_contents_drop {u : Nat} (hu : u ∈ (s.drop t).contents) : u ∈ s.contents := by
  rcases mem_contents.mp hu with hcurrent | hwaiting
  · exact mem_contents.mpr (.inl hcurrent)
  · obtain ⟨p, hp, hmem⟩ := mem_pending.mp hwaiting
    refine mem_contents.mpr (.inr (mem_pending.mpr ⟨p, hp, ?_⟩))
    simp only [drop, update_apply] at hmem
    split at hmem
    · rename_i heq
      rw [heq]
      exact List.mem_of_mem_erase hmem
    · exact hmem

theorem notMem_waiting_drop (hp : s.priority t < s.count) :
    t ∉ (s.drop t).waiting ↔ (s.queues (s.priority t)).count t ≤ 1 ∧
      ∀ p < s.count, p ≠ s.priority t → t ∉ s.queues p := by
  have hself : t ∉ (s.drop t).queues (s.priority t) ↔ (s.queues (s.priority t)).count t ≤ 1 := by
    simp only [drop, update_self]
    rw [← List.count_eq_zero, List.count_erase_self]
    omega
  have hother : ∀ p, p ≠ s.priority t → (s.drop t).queues p = s.queues p :=
    fun p hne => update_of_ne hne _ _
  rw [← hself]
  constructor
  · intro ht
    refine ⟨fun hmem => ht (mem_pending.mpr ⟨_, hp, hmem⟩), fun p hlt hne hmem => ?_⟩
    rw [← hother p hne] at hmem
    exact ht (mem_pending.mpr ⟨p, hlt, hmem⟩)
  · rintro ⟨hown, hothers⟩ ht
    obtain ⟨p, hlt, hmem⟩ := mem_pending.mp ht
    by_cases hpt : p = s.priority t
    · exact hown (hpt ▸ hmem)
    · rw [hother p hpt] at hmem
      exact hothers p hlt hpt hmem

theorem Quiet.step_iff (h : Quiet s) (hstep : s.Step op s') : Quiet s' ↔ s.Careful op := by
  have hwaiting : ∀ u ∈ s.waiting, u ∈ s.contents := fun u hu => mem_contents.mpr (.inr hu)
  cases hstep with
  | startUp hinit htakes =>
    refine iff_of_true (h.of_subset (fun u hu => hwaiting u ?_) fun u => ?_) trivial
    · rwa [← htakes.contents]
    · simp only [run, htakes.fields.2.2.2]
  | ready hstarted hp =>
    rename_i t
    refine h.enter_iff s.contents (contents_push_modify hp _) (fun _ hu => hu) fun u => ?_
    by_cases hut : u = t
    · rw [hut, threads_modify_self]
      rfl
    · rw [threads_modify_of_ne hut]
      rfl
  | exit hinit hcurrent htakes =>
    rename_i s₁ current next
    have hcontents :
        ((s₁.modify current ({ · with finished := true })).run next).contents = s.waiting :=
      htakes.contents
    have hfinish :=
      h.finish_iff (t := current) ((s₁.modify current ({ · with finished := true })).run next)
      (fun u hu => hwaiting u (hcontents ▸ hu)) (by simp only [run, modify, htakes.fields.2.2.2])
    rw [hfinish, hcontents]
    constructor
    · intro hleft t ht
      rw [hcurrent] at ht
      rwa [← Option.some.inj ht]
    · intro hcareful
      exact hcareful current hcurrent
  | kill hinit hcurrent hne hp =>
    rename_i current t
    have hfinish := h.finish_iff ((s.drop t).modify t ({ · with finished := true }))
      (fun u hu => mem_contents_drop hu) rfl
    rw [hfinish, Careful, ← notMem_waiting_drop hp]
    have hrunning : s.current ≠ some t := fun heq => hne (Option.some.inj (heq.symm.trans hcurrent))
    exact not_congr (mem_contents.trans (or_iff_right hrunning))
  | yieldAlone halone => exact iff_of_true h trivial
  | yield hinit hcurrent htakes hp =>
    refine iff_of_true (h.of_subset (fun u hu => ?_) fun u => ?_) trivial
    · rwa [htakes.contents_yield hcurrent hp] at hu
    · simp only [run, push, htakes.fields.2.2.2]
  | block hinit htakes =>
    refine iff_of_true (h.of_subset (fun u hu => hwaiting u ?_) fun u => ?_) trivial
    · rwa [← htakes.contents]
    · simp only [run, htakes.fields.2.2.2]
  | deblock hinit hp =>
    exact h.enter_iff s.contents (contents_push hp) (fun _ hu => hu) fun _ => rfl
  | setRunning hcurrent =>
    rename_i t priority
    refine iff_of_true (h.of_subset (fun _ hu => hu) fun u => ?_) (.inl hcurrent)
    by_cases hut : u = t
    · rw [hut, threads_modify_self]
    · rw [threads_modify_of_ne hut]
  | setPriority hcurrent hp hclamp =>
    rename_i t priority
    refine (h.enter_iff _ (contents_setPriority hclamp) (fun _ hu => mem_contents_drop hu) fun u =>
      ?_).trans
      (or_iff_right hcurrent).symm
    by_cases hut : u = t
    · simp only [push, hut, threads_modify_self]
      rfl
    · simp only [push, threads_modify_of_ne hut]
      rfl

theorem finished_modify {f : Thread → Thread}
    (hf : ∀ thread, thread.finished = true → (f thread).finished = true) {u : Nat}
    (hu : (s.threads u).finished = true) : ((s.modify t f).threads u).finished = true := by
  by_cases hut : u = t
  · rw [hut, threads_modify_self]
    exact hf _ (hut ▸ hu)
  · rw [threads_modify_of_ne hut]
    exact hu

theorem Step.finished (hstep : s.Step op s') (ht : (s.threads t).finished = true) :
    (s'.threads t).finished = true := by
  have htaken : ∀ next s₁, s.Takes next s₁ → (s₁.threads t).finished = true := by
    intro next s₁ htakes
    rw [htakes.fields.2.2.2]
    exact ht
  cases hstep with
  | startUp _ htakes =>
    have hfinished := htaken _ _ htakes
    exact hfinished
  | ready _ _ =>
    apply finished_modify
    · exact fun _ hfinished => hfinished
    · exact ht
  | exit _ _ htakes =>
    simp only [run]
    apply finished_modify
    · exact fun _ _ => rfl
    · exact htaken _ _ htakes
  | kill _ _ _ _ =>
    apply finished_modify
    · exact fun _ _ => rfl
    · exact ht
  | yieldAlone _ => exact ht
  | yield _ _ htakes _ =>
    have hfinished := htaken _ _ htakes
    exact hfinished
  | block _ htakes =>
    have hfinished := htaken _ _ htakes
    exact hfinished
  | deblock _ _ => exact ht
  | setRunning _ =>
    apply finished_modify
    · exact fun _ hfinished => hfinished
    · exact ht
  | setPriority _ _ _ =>
    simp only [push]
    apply finished_modify
    · exact fun _ hfinished => hfinished
    · exact ht

end HuyaOS.ThreadSystem
