import Mathlib.Tactic

/-!
Evaluation of infix expressions with a stack of values and a stack of operators. An
operator first reduces the operators on the stack that bind at least as tightly; a
closing parenthesis reduces down to its partner.

An expression is a tree whose operators lie in it as precedence and association to
the left demand. Reading it leaves operators on the stack that have not been reduced;
whatever reduces them all gives the value of the tree.
-/

namespace HuyaOS.Lib.OperatorStack

open List

universe u

/-- `parenthesis` is the operator that stands for an opening parenthesis on the stack. -/
structure Signature (V O ε : Type u) where
  precedence : O → Nat
  apply : O → V → V → Except ε V
  parenthesis : O
  underflow : ε

variable {V O ε : Type u} {sig : Signature V O ε}

section Reducing

variable (sig) in
def reduceTop (op : O) : List V → Except ε (List V)
  | b :: a :: values => do
      let v ← sig.apply op a b
      return v :: values
  | _ => .error sig.underflow

variable (sig) in
/-- Reduces as long as the operator on the top meets the condition. -/
def reduceWhile (condition : O → Bool) : List V → List O → Except ε (List V × List O)
  | values, [] => .ok (values, [])
  | values, op :: ops =>
      if condition op then do
        let values ← reduceTop sig op values
        reduceWhile condition values ops
      else .ok (values, op :: ops)

theorem reduceWhile_stop {condition : O → Bool} (values : List V) {ops : List O}
    (h : ∀ op ∈ ops.head?, condition op = false) :
    reduceWhile sig condition values ops = .ok (values, ops) := by
  cases ops with
  | nil => rfl
  | cons op ops =>
    have hop : condition op = false := h op rfl
    rw [reduceWhile, hop, if_neg Bool.false_ne_true]

variable (sig) in
/-- The operators `pending` on the top of the stack reduce the values `operands` to `v`. -/
def Reduces (operands : List V) (pending : List O) (v : V) : Prop :=
  ∀ (condition : O → Bool) (values : List V) (ops : List O), (∀ op ∈ pending, condition op = true) →
    reduceWhile sig condition (operands ++ values) (pending ++ ops) =
      reduceWhile sig condition (v :: values) ops

theorem Reduces.nil (v : V) : Reduces sig [v] [] v := fun _ _ _ _ => rfl

theorem Reduces.binary {operands : List V} {pending : List O} {o : O} {a b v : V}
    (h : Reduces sig operands pending b) (hv : sig.apply o a b = .ok v) :
    Reduces sig (operands ++ [a]) (pending ++ [o]) v := by
  intro condition values ops hall
  obtain ⟨hpending, ho⟩ := forall_mem_append.mp hall
  rw [append_assoc, append_assoc, h condition _ _ hpending, singleton_append, singleton_append,
    reduceWhile, if_pos (ho o (mem_singleton_self o)), reduceTop, hv]
  rfl

end Reducing

inductive Token (V O : Type u)
  | value (v : V)
  | operator (o : O)
  | opening
  | closing

inductive Expr (V O : Type u)
  | literal (v : V)
  | binary (o : O) (left right : Expr V O)
  | group (e : Expr V O)

namespace Expr

def tokens : Expr V O → List (Token V O)
  | literal v => [.value v]
  | binary o left right => left.tokens ++ [.operator o] ++ right.tokens
  | group e => .opening :: e.tokens ++ [.closing]

variable (sig) in
def value : Expr V O → Except ε V
  | literal v => .ok v
  | binary o left right => do
      let a ← left.value
      let b ← right.value
      sig.apply o a b
  | group e => e.value

/-- The operators of the expression outside its groups bind at least at this level. -/
def Binds (precedence : O → Nat) (level : Nat) : Expr V O → Prop
  | binary o _ _ => level ≤ precedence o
  | _ => True

/-- The tree that precedence and association to the left give. The operators bind more
tightly than `weakest`. -/
def WellFormed (precedence : O → Nat) (weakest : Nat) : Expr V O → Prop
  | literal _ => True
  | binary o left right => weakest < precedence o ∧ left.Binds precedence (precedence o) ∧
      right.Binds precedence (precedence o + 1) ∧ left.WellFormed precedence weakest ∧
        right.WellFormed precedence weakest
  | group e => e.WellFormed precedence weakest

instance Binds.decidable (precedence : O → Nat) (level : Nat) :
    ∀ e : Expr V O, Decidable (e.Binds precedence level)
  | literal _ => isTrue trivial
  | binary o _ _ => Nat.decLe level (precedence o)
  | group _ => isTrue trivial

instance WellFormed.decidable (precedence : O → Nat) (weakest : Nat) :
    ∀ e : Expr V O, Decidable (e.WellFormed precedence weakest)
  | literal _ => isTrue trivial
  | binary _ left right =>
      have := WellFormed.decidable precedence weakest left
      have := WellFormed.decidable precedence weakest right
      inferInstanceAs (Decidable (_ ∧ _ ∧ _ ∧ _ ∧ _))
  | group e => WellFormed.decidable precedence weakest e

theorem WellFormed.binds {precedence : O → Nat} {weakest : Nat} {e : Expr V O}
    (h : e.WellFormed precedence weakest) :
    e.Binds precedence (weakest + 1) := by
  cases e with
  | literal v => trivial
  | binary o left right => exact h.1
  | group e => trivial

section Map

variable {W P : Type u} (f : W → V) (g : P → O)

def map : Expr W P → Expr V O
  | literal w => literal (f w)
  | binary p left right => binary (g p) left.map right.map
  | group e => group e.map

variable {f g} {precedence : O → Nat} {precedence' : P → Nat}
  (h : ∀ p, precedence (g p) = precedence' p)
include h

theorem Binds.map {level : Nat} {e : Expr W P} (hbinds : e.Binds precedence' level) :
    (e.map f g).Binds precedence level := by
  cases e with
  | literal w => trivial
  | binary p left right => exact hbinds.trans (h p).ge
  | group e => trivial

theorem WellFormed.map {weakest : Nat} {e : Expr W P} (hwf : e.WellFormed precedence' weakest) :
    (e.map f g).WellFormed precedence weakest := by
  induction e with
  | literal w => trivial
  | binary p left right ihl ihr =>
    obtain ⟨hweakest, hleft, hright, hwfl, hwfr⟩ := hwf
    rw [← h p] at hweakest hleft hright
    exact ⟨hweakest, hleft.map h, hright.map h, ihl hwfl, ihr hwfr⟩
  | group e ih => exact ih hwf

end Map

end Expr

section Reading

variable [DecidableEq O]

variable (sig) in
def step (s : List V × List O) : Token V O → Except ε (List V × List O)
  | .value v => .ok (v :: s.1, s.2)
  | .opening => .ok (s.1, sig.parenthesis :: s.2)
  | .closing => do
      let (values, ops) ← reduceWhile sig (· ≠ sig.parenthesis) s.1 s.2
      return (values, ops.tail)
  | .operator o => do
      let (values, ops) ← reduceWhile sig (sig.precedence o ≤ sig.precedence ·) s.1 s.2
      return (values, o :: ops)

variable (sig) in
def run (s : List V × List O) (tokens : List (Token V O)) : Except ε (List V × List O) :=
  tokens.foldlM (step sig) s

variable (sig) in
def top : List V → Except ε V
  | v :: _ => .ok v
  | [] => .error sig.underflow

variable (sig) in
def finish (s : List V × List O) : Except ε V := do
  let s ← reduceWhile sig (fun _ => true) s.1 s.2
  top sig s.1

variable (sig) in
def calculate (tokens : List (Token V O)) : Except ε V := do
  let s ← run sig ([], []) tokens
  finish sig s

theorem run_append {s s' : List V × List O} {tokens : List (Token V O)}
    (h : run sig s tokens = .ok s') (rest : List (Token V O)) :
    run sig s (tokens ++ rest) = run sig s' rest := by
  unfold run at h ⊢
  rw [foldlM_append, h]
  rfl

variable (sig) in
/-- What reading an expression with the value `v` does to the stacks when the operator
on the top binds less tightly than `level`. -/
def Reads (level : Nat) (tokens : List (Token V O)) (v : V) : Prop :=
  ∀ (values : List V) (ops : List O), (∀ op ∈ ops.head?, sig.precedence op < level) →
    ∃ operands pending, run sig (values, ops) tokens = .ok (operands ++ values, pending ++ ops) ∧
      (∀ op ∈ pending, level ≤ sig.precedence op) ∧ Reduces sig operands pending v

/-- A closing parenthesis reduces what its group has left on the stack. -/
theorem run_group {tokens : List (Token V O)} {v : V}
    (h : Reads sig (sig.precedence sig.parenthesis + 1) tokens v) (values : List V) (ops : List O) :
    run sig (values, ops) (.opening :: tokens ++ [.closing]) = .ok (v :: values, ops) := by
  obtain ⟨operands, pending, hrun, hbinds, hreduces⟩ := h values (sig.parenthesis :: ops) (by
    rintro op ⟨⟩
    exact Nat.lt_succ_self _)
  have hopen : run sig (values, ops) (.opening :: tokens) =
      .ok (operands ++ values, pending ++ sig.parenthesis :: ops) := hrun
  have hpending : ∀ op ∈ pending, decide (op ≠ sig.parenthesis) = true := by
    intro op hop
    refine decide_eq_true fun heq => ?_
    have := hbinds op hop
    rw [heq] at this
    omega
  have hstop : reduceWhile sig (· ≠ sig.parenthesis) (v :: values) (sig.parenthesis :: ops) =
      .ok (v :: values, sig.parenthesis :: ops) := by
    apply reduceWhile_stop
    rintro op ⟨⟩
    exact decide_eq_false (not_not.mpr rfl)
  rw [run_append hopen]
  simp only [run, foldlM_cons, step, hreduces _ _ _ hpending, hstop]
  rfl

theorem run_operator {tokens : List (Token V O)} {o : O} {a : V}
    (h : Reads sig (sig.precedence o) tokens a) (values : List V) {ops : List O}
    (hops : ∀ op ∈ ops.head?, sig.precedence op < sig.precedence o) :
    run sig (values, ops) (tokens ++ [.operator o]) = .ok (a :: values, o :: ops) := by
  obtain ⟨operands, pending, hrun, hbinds, hreduces⟩ := h values ops hops
  have hstop : reduceWhile sig (sig.precedence o ≤ sig.precedence ·) (a :: values) ops =
      .ok (a :: values, ops) :=
    reduceWhile_stop _ fun op hop => decide_eq_false (not_le.mpr (hops op hop))
  rw [run_append hrun]
  simp only [run, foldlM_cons, step, hreduces _ _ _ fun op hop => decide_eq_true (hbinds op hop),
    hstop]
  rfl

theorem reads_tokens {e : Expr V O} {v : V} {level : Nat}
    (hwf : e.WellFormed sig.precedence (sig.precedence sig.parenthesis))
    (hlevel : e.Binds sig.precedence level) (hv : e.value sig = .ok v) :
    Reads sig level e.tokens v := by
  induction e generalizing v level with
  | literal w =>
    intro values ops _
    cases hv
    exact ⟨[w], [], rfl, fun op hop => absurd hop not_mem_nil, .nil w⟩
  | group e ih =>
    have hwf : e.WellFormed sig.precedence _ := hwf
    intro values ops _
    exact ⟨[v], [], run_group (ih hwf hwf.binds hv) values ops,
      fun op hop => absurd hop not_mem_nil, .nil v⟩
  | binary o left right ihl ihr =>
    obtain ⟨-, hleft, hright, hwfl, hwfr⟩ := hwf
    intro values ops hops
    cases ha : left.value sig with
    | error e => rw [Expr.value, ha] at hv; cases hv
    | ok a =>
      cases hb : right.value sig with
      | error e => rw [Expr.value, ha, hb] at hv; cases hv
      | ok b =>
        rw [Expr.value, ha, hb] at hv
        have hpast := run_operator (ihl hwfl hleft ha) values fun op hop =>
          (hops op hop).trans_le hlevel
        -- the right operand is read above its operator
        obtain ⟨operands, pending, hrun, hbinds, hreduces⟩ :=
          ihr hwfr hright hb (a :: values) (o :: ops) (by
          rintro op ⟨⟩
          exact Nat.lt_succ_self _)
        refine ⟨operands ++ [a], pending ++ [o], ?_, ?_, hreduces.binary hv⟩
        · rw [Expr.tokens, run_append hpast, hrun, append_assoc, append_assoc]
          rfl
        · exact forall_mem_append.mpr ⟨fun op hop =>
            hlevel.trans (Nat.le_of_succ_le (hbinds op hop)), forall_mem_singleton.mpr hlevel⟩

/-- Reading the tokens of an expression gives its value. -/
theorem calculate_tokens {e : Expr V O} {v : V}
    (hwf : e.WellFormed sig.precedence (sig.precedence sig.parenthesis))
    (hv : e.value sig = .ok v) :
    calculate sig e.tokens = .ok v := by
  obtain ⟨operands, pending, hrun, -, hreduces⟩ := reads_tokens hwf hwf.binds hv [] [] fun op hop =>
    absurd hop (Option.not_mem_none op)
  have hall := hreduces (fun _ => true) [] [] fun _ _ => rfl
  unfold calculate
  rw [hrun]
  change finish sig (operands ++ [], pending ++ []) = .ok v
  unfold finish
  rw [hall]
  rfl

end Reading

end HuyaOS.Lib.OperatorStack
