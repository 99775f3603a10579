import Mathlib.Tactic

/-!
Runs of a labelled transition relation, and the rule that carries an
invariant from the first state of a run to its last.

A machine that answers every call is a function; its runs are executed, and two
machines are compared by their answers.
-/

namespace HuyaOS.Lib

open List

variable {σ α : Type*} {condition : α → Prop} {calls : List α}

/-- `Run step s labels s'`: the labels lead from `s` to `s'` in order. -/
inductive Run (step : σ → α → σ → Prop) : σ → List α → σ → Prop
  | done (s : σ) : Run step s [] s
  | next {s s' s'' : σ} {label : α} {labels : List α} :
      step s label s' → Run step s' labels s'' → Run step s (label :: labels) s''

namespace Run

variable {step : σ → α → σ → Prop}

/-- A property that every step preserves holds at the end of a run that
starts with it. -/
theorem invariant {Inv : σ → Prop} (hstep : ∀ s label s', Inv s → step s label s' → Inv s')
    {s s' : σ} {labels : List α} (hrun : Run step s labels s') (hinit : Inv s) :
    Inv s' := by
  induction hrun with
  | done s => exact hinit
  | next hone _ ih => exact ih (hstep _ _ _ hinit hone)

/-- A property of the state and of the labels that have led to it. -/
theorem history {Inv : List α → σ → Prop}
    (hstep : ∀ past s label s', Inv past s → step s label s' → Inv (past ++ [label]) s') {s s' : σ}
    {labels : List α} (hrun : Run step s labels s') {past : List α} (hinit : Inv past s) :
    Inv (past ++ labels) s' := by
  induction hrun generalizing past with
  | done s => exact (append_nil past).symm ▸ hinit
  | @next s _ _ label labels hone _ ih =>
    rw [← singleton_append, ← append_assoc]
    exact ih (hstep _ _ _ _ hinit hone)

/-- If every step can be followed by a related state, so can every run. -/
theorem follow {τ : Type*} {step' : τ → α → τ → Prop} {R : σ → τ → Prop}
    (hstep : ∀ s label s' t, R s t → step s label s' → ∃ t', step' t label t' ∧ R s' t')
    {s s' : σ} {labels : List α} (hrun : Run step s labels s') {t : τ} (hinit : R s t) :
    ∃ t', Run step' t labels t' ∧ R s' t' := by
  induction hrun generalizing t with
  | done s => exact ⟨t, .done t, hinit⟩
  | next hone _ ih =>
    obtain ⟨t', hone', hrelated⟩ := hstep _ _ _ t hinit hone
    obtain ⟨t'', hrest, hlast⟩ := ih hrelated
    exact ⟨t'', .next hone' hrest, hlast⟩

/-- If every step from a state with the invariant is also a step between the
images of the states, so is every run. -/
theorem simulate {τ : Type*} {step' : τ → α → τ → Prop} {Inv : σ → Prop} {f : σ → τ}
    (hstep : ∀ s label s', Inv s → step s label s' → step' (f s) label (f s') ∧ Inv s')
    {s s' : σ} {labels : List α} (hrun : Run step s labels s') (hinit : Inv s) :
    Run step' (f s) labels (f s') ∧ Inv s' := by
  have hfollow : ∀ s label s' t, (f s = t ∧ Inv s) → step s label s' →
      ∃ t', step' t label t' ∧ f s' = t' ∧ Inv s' := by
    rintro s label s' _ ⟨rfl, hinv⟩ hone
    obtain ⟨himage, hinv'⟩ := hstep s label s' hinv hone
    exact ⟨f s', himage, rfl, hinv'⟩
  obtain ⟨_, himage, rfl, hinv⟩ := hrun.follow hfollow ⟨rfl, hinit⟩
  exact ⟨himage, hinv⟩

end Run

variable {τ β : Type*} {step : σ → α → σ × β} {step' : τ → α → τ × β}

/-- The state after the calls, and the answers to them. -/
def execute (step : σ → α → σ × β) : σ → List α → σ × List β
  | s, [] => (s, [])
  | s, call :: calls =>
      let rest := execute step (step s call).1 calls
      (rest.1, (step s call).2 :: rest.2)

theorem execute_concat (s : σ) (calls : List α) (call : α) :
    execute step s (calls ++ [call]) =
      ((step (execute step s calls).1 call).1,
        (execute step s calls).2 ++ [(step (execute step s calls).1 call).2]) := by
  induction calls generalizing s with
  | nil => rfl
  | cons first calls ih => rw [cons_append, execute, ih, execute, cons_append]

/-- Every call is made in a state that meets the condition. -/
def AllMet (step : σ → α → σ × β) (condition : σ → α → Prop) : σ → List α → Prop
  | _, [] => True
  | s, call :: calls => condition s call ∧ AllMet step condition (step s call).1 calls

instance AllMet.decidable {condition : σ → α → Prop} [∀ s call, Decidable (condition s call)] :
    ∀ s calls, Decidable (AllMet step condition s calls)
  | _, [] => isTrue trivial
  | s, call :: calls => @instDecidableAnd _ _ _ (AllMet.decidable (step s call).1 calls)

/-- Machines that answer each call in the same way and stay related give the same
answers in every run. -/
theorem execute_simulates {condition : σ → α → Prop} {R : σ → τ → Prop}
    (hstep : ∀ s t call, R s t → condition s call →
      R (step s call).1 (step' t call).1 ∧ (step s call).2 = (step' t call).2)
    {s : σ} {t : τ} (hinit : R s t) (calls : List α) (hall : AllMet step condition s calls) :
    R (execute step s calls).1 (execute step' t calls).1 ∧
      (execute step s calls).2 = (execute step' t calls).2 := by
  induction calls generalizing s t with
  | nil => exact ⟨hinit, rfl⟩
  | cons call calls ih =>
    obtain ⟨hrelated, hanswer⟩ := hstep s t call hinit hall.1
    obtain ⟨hlast, hanswers⟩ := ih hrelated hall.2
    exact ⟨hlast, congrArg₂ cons hanswer hanswers⟩

/-- Machines whose answers agree exactly as long as the second one meets a condition. -/
theorem execute_agree_iff {condition : τ → α → Prop} {R : σ → τ → Prop} (Final : σ → τ → Prop)
    (hmet : ∀ s t call, R s t → condition t call →
      R (step s call).1 (step' t call).1 ∧ (step s call).2 = (step' t call).2)
    (hnot : ∀ s t call, R s t → ¬condition t call → (step s call).2 ≠ (step' t call).2)
    (hfinal : ∀ s t, R s t → Final s t) {s : σ} {t : τ} (hinit : R s t) (calls : List α) :
    ((execute step s calls).2 = (execute step' t calls).2 ∧
      Final (execute step s calls).1 (execute step' t calls).1) ↔
        AllMet step' condition t calls := by
  induction calls generalizing s t with
  | nil => exact iff_of_true ⟨rfl, hfinal s t hinit⟩ trivial
  | cons call calls ih =>
    by_cases hcall : condition t call
    · obtain ⟨hrelated, hanswer⟩ := hmet s t call hinit hcall
      simp only [execute, AllMet, hanswer, cons.injEq, true_and, hcall]
      exact ih hrelated
    · simp only [execute, AllMet, cons.injEq, hnot s t call hinit hcall, hcall, false_and]

/-- The answers to the calls that are `own`. -/
def answersTo (own : α → Bool) (calls : List α) (answers : List β) : List β :=
  ((calls.zip answers).filter fun answered => own answered.1).map Prod.snd

theorem answersTo_cons (own : α → Bool) (call : α) (calls : List α) (answer : β)
    (answers : List β) :
    answersTo own (call :: calls) (answer :: answers) =
      if own call then answer :: answersTo own calls answers else answersTo own calls answers := by
  unfold answersTo
  rw [zip_cons_cons, filter_cons]
  split <;> rfl

/-- If the other calls cannot be told from no call, the own calls are answered as if
there were no others. -/
theorem execute_purge {R : σ → σ → Prop} {own : α → Bool}
    (hown : ∀ s t call, own call = true → condition call → R s t →
      R (step s call).1 (step t call).1 ∧ (step s call).2 = (step t call).2)
    (hother : ∀ s t call, own call = false → condition call → R s t → R (step s call).1 t)
    {s t : σ} (hinit : R s t) (hall : ∀ call ∈ calls, condition call) :
    R (execute step s calls).1 (execute step t (calls.filter own)).1 ∧
      answersTo own calls (execute step s calls).2 = (execute step t (calls.filter own)).2 := by
  induction calls generalizing s t with
  | nil => exact ⟨hinit, rfl⟩
  | cons call calls ih =>
    obtain ⟨hcall, hcalls⟩ := forall_mem_cons.mp hall
    cases hcase : own call with
    | true =>
      obtain ⟨hrelated, hanswer⟩ := hown s t call hcase hcall hinit
      obtain ⟨hlast, hanswers⟩ := ih hrelated hcalls
      rw [filter_cons_of_pos hcase]
      refine ⟨hlast, ?_⟩
      rw [execute, answersTo_cons, if_pos hcase]
      exact congrArg₂ cons hanswer hanswers
    | false =>
      have hnot : ¬own call = true := by rw [hcase]; exact Bool.false_ne_true
      obtain ⟨hlast, hanswers⟩ := ih (hother s t call hcase hcall hinit) hcalls
      rw [filter_cons_of_neg hnot]
      refine ⟨hlast, ?_⟩
      rw [execute, answersTo_cons, if_neg hnot]
      exact hanswers

theorem allMet_iff_forall {s : σ} :
    AllMet step (fun _ call => condition call) s calls ↔ ∀ call ∈ calls, condition call := by
  induction calls generalizing s with
  | nil => exact iff_of_true trivial (forall_mem_nil _)
  | cons call calls ih => rw [AllMet, ih, forall_mem_cons]

end HuyaOS.Lib
