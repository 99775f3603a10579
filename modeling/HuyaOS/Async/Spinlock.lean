import HuyaOS.Lib.Transition

/-!
`Spinlock` over `Atomic<uint8_t>`, at the granularity of its machine steps.
`getAndSet` is not one instruction: it loads the variable to obtain the
expected operand and then runs `lock cmpxchg`, which returns the value it
found whether or not it stored anything. A thread that loaded a held lock can
therefore see it released by its `cmpxchg`, store nothing, and go on as if it
had taken the lock. Apart from such stale operands the lock is correct, for
any number of threads.
-/

namespace HuyaOS.Atomic

variable {V : Type*}

/-- `lock cmpxchg`: the returned value and the variable afterwards. The
accumulator starts as `oldValue` and receives the variable if they differ. -/
def compareAndExchange [DecidableEq V] (value oldValue newValue : V) : V × V :=
  if value = oldValue then (oldValue, newValue) else (value, value)

/-- `lock xchg`: the variable afterwards. -/
def exchange (_value newValue : V) : V := newValue

theorem compareAndExchange_fst [DecidableEq V] (value oldValue newValue : V) :
    (compareAndExchange value oldValue newValue).1 = value := by
  unfold compareAndExchange
  split
  · rename_i heq
    exact heq.symm
  · rfl

end HuyaOS.Atomic

namespace HuyaOS.Spinlock

open Lib Atomic

abbrev SPINLOCK_UNLOCK : UInt8 := 0x00

abbrev SPINLOCK_LOCK : UInt8 := 0x01

/-- The two operations that run `getAndSet(SPINLOCK_LOCK)`. -/
inductive Call
  | acquire
  | tryAcquire
  deriving DecidableEq, Repr

/-- Where a thread is in the code of the lock. -/
inductive Pc
  /-- Outside, without the lock. -/
  | idle
  /-- In `getAndSet`, before the load of the expected operand. -/
  | load (call : Call)
  /-- In `getAndSet`, before the `cmpxchg`. -/
  | cmpxchg (call : Call) (expected : UInt8)
  /-- `acquire` returned, or `tryAcquire` returned true. -/
  | holding
  /-- In `release`, before the `xchg`. -/
  | releasing
  deriving DecidableEq, Repr

/-- Between a successful acquisition and the release. -/
def Pc.Inside (pc : Pc) : Prop := pc = .holding ∨ pc = .releasing

instance (pc : Pc) : Decidable pc.Inside := inferInstanceAs (Decidable (_ ∨ _))

/-- The lock variable and the position of every thread. -/
structure State (T : Type*) where
  lockVar : UInt8
  pc : T → Pc

/-- What a thread does next. -/
inductive Action
  | call (call : Call)
  | load
  | cmpxchg
  | release
  | xchg
  deriving DecidableEq, Repr

/-- How a thread continues when `getAndSet` has returned `ret`: `acquire`
tries again while the lock was held, `tryAcquire` gives up. -/
def afterGetAndSet (call : Call) (ret : UInt8) : Pc :=
  if ret = SPINLOCK_UNLOCK then .holding
  else match call with
    | .acquire => .load .acquire
    | .tryAcquire => .idle

section Model

variable {T : Type*} {call : Call} {e : UInt8}

def initial (T : Type*) : State T := ⟨SPINLOCK_UNLOCK, fun _ => .idle⟩

def isLocked (s : State T) : Bool := s.lockVar = SPINLOCK_LOCK

/-- At most one thread is between its acquisition and its release. -/
def MutualExclusion (s : State T) : Prop :=
  ∀ t u, (s.pc t).Inside → (s.pc u).Inside → t = u

/-- The thread loaded a held lock as its expected operand, and the lock has
been released since. -/
def Stale (s : State T) (t : T) : Prop :=
  (∃ call, s.pc t = .cmpxchg call SPINLOCK_LOCK) ∧ s.lockVar = SPINLOCK_UNLOCK

/-- The lock variable tells whether some thread is inside, there is at most
one, and expected operands are values the variable can have. -/
structure LockInv (s : State T) : Prop where
  expected : ∀ t call e, s.pc t = .cmpxchg call e → e = SPINLOCK_UNLOCK ∨ e = SPINLOCK_LOCK
  state : (s.lockVar = SPINLOCK_UNLOCK ∧ ∀ t, ¬(s.pc t).Inside) ∨
    (s.lockVar = SPINLOCK_LOCK ∧ ∃ t, (s.pc t).Inside ∧ ∀ u, (s.pc u).Inside → u = t)

theorem lockInv_initial : LockInv (initial T) where
  expected := by simp [initial]
  state := .inl ⟨rfl, by simp [initial, Pc.Inside]⟩

variable {s : State T} {t : T} {next : Pc} {u : T}

theorem LockInv.mutualExclusion (hinv : LockInv s) : MutualExclusion s := by
  intro t u ht hu
  rcases hinv.state with ⟨_, hnone⟩ | ⟨_, owner, _, hunique⟩
  · exact absurd ht (hnone t)
  · exact (hunique t ht).trans (hunique u hu).symm

theorem LockInv.isLocked_iff (hinv : LockInv s) : isLocked s = true ↔ ∃ t, (s.pc t).Inside := by
  rcases hinv.state with ⟨hfree, hnone⟩ | ⟨hheld, owner, howner, _⟩
  · have hne : SPINLOCK_UNLOCK ≠ SPINLOCK_LOCK := by decide
    simp [isLocked, hfree, hnone, hne]
  · simp only [isLocked, hheld, decide_true, true_iff]
    exact ⟨owner, howner⟩

variable [DecidableEq T]

/-- Move one thread. -/
def State.goto (s : State T) (t : T) (next : Pc) : State T :=
  { s with pc := Function.update s.pc t next }

@[simp] theorem State.goto_lockVar (s : State T) (t : T) (next : Pc) :
    (s.goto t next).lockVar = s.lockVar := rfl

@[simp] theorem State.goto_self (s : State T) (t : T) (next : Pc) :
    (s.goto t next).pc t = next := by
  simp [State.goto]

theorem State.goto_of_ne (s : State T) (next : Pc) (hne : u ≠ t) :
    (s.goto t next).pc u = s.pc u := by
  simp [State.goto, Function.update_of_ne hne]

/-- One machine step of one thread. Only a thread that holds the lock calls
`release`. -/
inductive Step : State T → T × Action → State T → Prop
  | call {s : State T} {t : T} (call : Call) (hpc : s.pc t = .idle) :
      Step s (t, .call call) (s.goto t (.load call))
  | load {s : State T} {t : T} {call : Call} (hpc : s.pc t = .load call) :
      Step s (t, .load) (s.goto t (.cmpxchg call s.lockVar))
  | cmpxchg {s : State T} {t : T} {call : Call} {expected : UInt8}
      (hpc : s.pc t = .cmpxchg call expected) :
      Step s (t, .cmpxchg)
        (State.goto { s with lockVar := (compareAndExchange s.lockVar expected SPINLOCK_LOCK).2 } t
          (afterGetAndSet call (compareAndExchange s.lockVar expected SPINLOCK_LOCK).1))
  | release {s : State T} {t : T} (hpc : s.pc t = .holding) :
      Step s (t, .release) (s.goto t .releasing)
  | xchg {s : State T} {t : T} (hpc : s.pc t = .releasing) :
      Step s (t, .xchg)
        (State.goto { s with lockVar := exchange s.lockVar SPINLOCK_UNLOCK } t .idle)

/-- A step that is not the `cmpxchg` of a stale operand. -/
def FreshStep (s : State T) (a : T × Action) (s' : State T) : Prop :=
  Step s a s' ∧ ¬(a.2 = .cmpxchg ∧ Stale s a.1)

theorem inside_goto (hsame : next.Inside ↔ (s.pc t).Inside) (u : T) :
    ((s.goto t next).pc u).Inside ↔ (s.pc u).Inside := by
  by_cases hu : u = t
  · subst hu
    simpa using hsame
  · rw [s.goto_of_ne next hu]

theorem LockInv.expected_goto (hinv : LockInv s) (lockVar : UInt8)
    (hnext : ∀ call e, next = .cmpxchg call e → e = SPINLOCK_UNLOCK ∨ e = SPINLOCK_LOCK)
    (hpc : (State.goto { s with lockVar := lockVar } t next).pc u = .cmpxchg call e) :
    e = SPINLOCK_UNLOCK ∨ e = SPINLOCK_LOCK := by
  by_cases hu : u = t
  · subst hu
    exact hnext call e (by simpa using hpc)
  · rw [State.goto_of_ne _ next hu] at hpc
    exact hinv.expected u call e hpc

theorem LockInv.move (hinv : LockInv s) (hsame : next.Inside ↔ (s.pc t).Inside)
    (hnext : ∀ call e, next = .cmpxchg call e → e = SPINLOCK_UNLOCK ∨ e = SPINLOCK_LOCK) :
    LockInv (s.goto t next) where
  expected := fun _ _ _ hpc => hinv.expected_goto s.lockVar hnext hpc
  state := by
    simp only [inside_goto hsame]
    exact hinv.state

theorem afterGetAndSet_ne_cmpxchg (call call' : Call) (ret e : UInt8) :
    afterGetAndSet call ret ≠ .cmpxchg call' e := by
  unfold afterGetAndSet
  split
  · simp
  · cases call <;> simp

/-- The `cmpxchg` of a fresh operand takes a free lock and leaves a held one
alone. -/
theorem LockInv.cmpxchg (hinv : LockInv s) (hpc : s.pc t = .cmpxchg call e) (hfresh : ¬Stale s t) :
    LockInv (State.goto { s with lockVar := (compareAndExchange s.lockVar e SPINLOCK_LOCK).2 } t
      (afterGetAndSet call (compareAndExchange s.lockVar e SPINLOCK_LOCK).1)) where
  expected := fun _ _ _ hu => hinv.expected_goto _ (fun _ _ heq =>
    absurd heq (afterGetAndSet_ne_cmpxchg _ _ _ _)) hu
  state := by
    rw [compareAndExchange_fst]
    rcases hinv.state with ⟨hfree, hnone⟩ | ⟨hheld, owner, howner, hunique⟩
    · -- The operand cannot be `SPINLOCK_LOCK`, so the exchange stores.
      have he : e = SPINLOCK_UNLOCK := by
        rcases hinv.expected t call e hpc with he | he
        · exact he
        · exact absurd ⟨⟨call, he ▸ hpc⟩, hfree⟩ hfresh
      refine .inr ⟨by simp [compareAndExchange, hfree, he], t, ?_, ?_⟩
      · rw [State.goto_self, hfree]
        exact .inl rfl
      · intro u hu
        by_contra hne
        rw [State.goto_of_ne _ _ hne] at hu
        exact hnone u hu
    · have hvar : (compareAndExchange s.lockVar e SPINLOCK_LOCK).2 = SPINLOCK_LOCK := by
        unfold compareAndExchange
        split
        · rfl
        · exact hheld
      have hout : ¬(s.pc t).Inside := by simp [hpc, Pc.Inside]
      have hsame : (afterGetAndSet call s.lockVar).Inside ↔ (s.pc t).Inside := by
        refine iff_of_false ?_ hout
        rw [hheld]
        cases call <;> decide
      refine .inr ⟨hvar, owner, (inside_goto hsame owner).mpr howner, ?_⟩
      intro u hu
      exact hunique u ((inside_goto hsame u).mp hu)

theorem LockInv.xchg (hinv : LockInv s) (hpc : s.pc t = .releasing) :
    LockInv (State.goto { s with lockVar := exchange s.lockVar SPINLOCK_UNLOCK } t .idle) where
  expected := fun _ _ _ hu => hinv.expected_goto _ (by simp) hu
  state := by
    have hinside : (s.pc t).Inside := .inr hpc
    refine .inl ⟨rfl, ?_⟩
    intro u hu
    rcases hinv.state with ⟨_, hnone⟩ | ⟨_, owner, _, hunique⟩
    · exact hnone t hinside
    · by_cases heq : u = t
      · subst heq
        rw [State.goto_self] at hu
        exact absurd hu (by decide)
      · rw [State.goto_of_ne _ _ heq] at hu
        exact heq ((hunique u hu).trans (hunique t hinside).symm)

theorem lockInv_step (s : State T) (a : T × Action) (s' : State T) (hinv : LockInv s)
    (hstep : FreshStep s a s') : LockInv s' := by
  obtain ⟨hstep, hfresh⟩ := hstep
  cases hstep with
  | call call hpc =>
    refine hinv.move ?_ (by simp)
    simp [hpc, Pc.Inside]
  | load hpc =>
    refine hinv.move ?_ ?_
    · simp [hpc, Pc.Inside]
    · intro call' e heq
      cases heq
      rcases hinv.state with ⟨hfree, _⟩ | ⟨hheld, _⟩
      · exact .inl hfree
      · exact .inr hheld
  | cmpxchg hpc => exact hinv.cmpxchg hpc fun hstale => hfresh ⟨rfl, hstale⟩
  | release hpc =>
    refine hinv.move ?_ (by simp)
    simp [hpc, Pc.Inside]
  | xchg hpc => exact hinv.xchg hpc

theorem enters_free_lock (hfree : s.lockVar = SPINLOCK_UNLOCK) (hpc : s.pc u = .idle) :
    ∃ s', Run Step s [(u, .call .acquire), (u, .load), (u, .cmpxchg)] s' ∧
      (s'.pc u).Inside ∧ ∀ t, t ≠ u → s'.pc t = s.pc t := by
  refine ⟨_, .next (.call .acquire hpc) (.next (.load (State.goto_self _ _ _))
    (.next (.cmpxchg (State.goto_self _ _ _)) (.done _))), ?_, ?_⟩
  · rw [State.goto_self, State.goto_lockVar, State.goto_lockVar, hfree]
    exact .inl rfl
  · intro t ht
    rw [State.goto_of_ne _ _ ht]
    exact (State.goto_of_ne _ _ ht).trans (State.goto_of_ne _ _ ht)

/-- A stale `cmpxchg` lets its thread pass without taking the lock. -/
theorem stale_passes {s' : State T} (hstale : Stale s t) (hstep : Step s (t, .cmpxchg) s') :
    s'.lockVar = SPINLOCK_UNLOCK ∧ (s'.pc t).Inside ∧ ∀ u, u ≠ t → s'.pc u = s.pc u := by
  obtain ⟨⟨call, hpc⟩, hfree⟩ := hstale
  cases hstep with
  | @cmpxchg _ call' expected hpc' =>
    obtain ⟨rfl, rfl⟩ : call = call' ∧ SPINLOCK_LOCK = expected := by
      rw [hpc] at hpc'
      simpa using hpc'
    refine ⟨?_, ?_, ?_⟩
    · rw [hfree]
      rfl
    · rw [State.goto_self, hfree]
      exact .inl rfl
    · intro u hu
      rw [State.goto_of_ne _ _ hu]

/-- Runs without stale `cmpxchg` steps keep mutual exclusion, and the lock
variable tells whether a thread is inside. The condition is needed: after the
first stale `cmpxchg` any idle thread can join the one that passed. -/
theorem mutualExclusion_of_fresh_run {acts : List (T × Action)} {s : State T}
    (hrun : Run FreshStep (initial T) acts s) :
    MutualExclusion s ∧ (isLocked s = true ↔ ∃ t, (s.pc t).Inside) ∧
      ∀ t s', Stale s t → Step s (t, .cmpxchg) s' → ∀ u, u ≠ t → s.pc u = .idle →
        ∃ acts' s'', Run Step s' acts' s'' ∧ ¬MutualExclusion s'' := by
  have hinv : LockInv s := hrun.invariant lockInv_step lockInv_initial
  refine ⟨hinv.mutualExclusion, hinv.isLocked_iff, ?_⟩
  intro t s' hstale hstep u hne hidle
  obtain ⟨hfree, hinside, hothers⟩ := stale_passes hstale hstep
  obtain ⟨s'', hrun', hu, hkept⟩ := enters_free_lock hfree ((hothers u hne).trans hidle)
  refine ⟨_, s'', hrun', fun hmutex => hne (hmutex u t hu ?_)⟩
  rw [hkept t hne.symm]
  exact hinside

theorem mutualExclusion_of_fresh_run_pair :
    ∃ s : State Bool,
      Run FreshStep (initial Bool)
        [(true, .call .acquire), (true, .load), (true, .cmpxchg), (false, .call .tryAcquire)] s ∧
      (s.pc true).Inside ∧ MutualExclusion s := by
  have hrun : ∃ s : State Bool, Run FreshStep (initial Bool)
      [(true, .call .acquire), (true, .load), (true, .cmpxchg), (false, .call .tryAcquire)] s ∧
      (s.pc true).Inside := by
    refine ⟨_, .next ⟨.call .acquire rfl, ?_⟩ (.next ⟨.load rfl, ?_⟩ (.next ⟨.cmpxchg rfl, ?_⟩
      (.next ⟨.call .tryAcquire rfl, ?_⟩ (.done _)))), ?_⟩
    · simp
    · simp
    · rintro ⟨_, ⟨call, hpc⟩, _⟩
      simp only [State.goto_self, Pc.cmpxchg.injEq] at hpc
      exact absurd hpc.2 (by decide)
    · simp
    · decide
  obtain ⟨s, hrun, hinside⟩ := hrun
  exact ⟨s, hrun, hinside, (mutualExclusion_of_fresh_run hrun).1⟩

/-- Two threads inside at once: the second loads the held lock, the first
releases it, the second passes on the value found by its failing `cmpxchg`,
and the first takes the lock again. -/
theorem mutualExclusion_fails :
    ∃ s : State Bool,
      Run Step (initial Bool)
        [(true, .call .acquire), (true, .load), (true, .cmpxchg), (false, .call .acquire),
          (false, .load), (true, .release), (true, .xchg), (false, .cmpxchg),
          (true, .call .acquire), (true, .load), (true, .cmpxchg)] s ∧
      (s.pc true).Inside ∧ (s.pc false).Inside := by
  refine ⟨_, .next (.call .acquire rfl) (.next (.load rfl) (.next (.cmpxchg rfl)
    (.next (.call .acquire rfl) (.next (.load rfl) (.next (.release rfl) (.next (.xchg rfl)
    (.next (.cmpxchg rfl) (.next (.call .acquire rfl) (.next (.load rfl) (.next (.cmpxchg rfl)
    (.done _))))))))))), ?_, ?_⟩
  · decide
  · decide

end Model

end HuyaOS.Spinlock
