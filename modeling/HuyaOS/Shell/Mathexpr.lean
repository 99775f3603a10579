import HuyaOS.Lib.OperatorStack
import HuyaOS.Util.ArrayListRuns
import HuyaOS.Util.String

/-!
The shell command `mathexpr`. `calculateExpression` reads an infix expression once and
keeps values and operators in two lists that it uses as stacks.
-/

namespace HuyaOS.Mathexpr

open Lib List Except ArrayList OperatorStack

variable {s : Stacks} {op : UInt8} {ops : List UInt8} {rounds : Nat}

def precedence (op : UInt8) : Nat :=
  if op = '+'.toUInt8 ∨ op = '-'.toUInt8 then 1
  else if op = '%'.toUInt8 then 2
  else if op = '*'.toUInt8 ∨ op = '/'.toUInt8 then 3
  else 0

/-- The processor has no quotient for these. -/
def isDivideError (a b : Int32) : Bool := b = 0 ∨ (a = Int32.minValue ∧ b = -1)

def applyOperation (a b : Int32) (op : UInt8) : Except Cpu.Stop Int32 :=
  if op = '+'.toUInt8 then .ok (a + b)
  else if op = '-'.toUInt8 then .ok (a - b)
  else if op = '*'.toUInt8 then .ok (a * b)
  else if op = '/'.toUInt8 then if isDivideError a b then .error .divideError else .ok (a / b)
  else if op = '%'.toUInt8 then if isDivideError a b then .error .divideError else .ok (a % b)
  else .ok 0

structure Stacks where
  values : ArrayList Int32
  ops : ArrayList UInt8

/-- The body of the three loops that reduce. -/
def reduceTop (s : Stacks) : Except Cpu.Stop Stacks := do
  let val2 ← s.values.get (s.values.size - 1)
  let (_, values) ← s.values.removeAt (s.values.size - 1)
  let val1 ← values.get (values.size - 1)
  let (_, values) ← values.removeAt (values.size - 1)
  let op ← s.ops.get (s.ops.size - 1)
  let (_, ops) ← s.ops.removeAt (s.ops.size - 1)
  let v ← applyOperation val1 val2 op
  return ⟨values.add v, ops⟩

/-- Every round removes an operator, so there are no more rounds than operators. -/
def reduceWhile (condition : UInt8 → Bool) : Nat → Stacks → Except Cpu.Stop Stacks
  | 0, s => .ok s
  | rounds + 1, s =>
      if s.ops.isEmpty then .ok s
      else do
        let op ← s.ops.get (s.ops.size - 1)
        if condition op then do
          let s ← reduceTop s
          reduceWhile condition rounds s
        else .ok s

def isDigit (c : UInt8) : Bool := 48 ≤ c ∧ c ≤ 57

/-- The loop over the digits of a number, with the characters behind them. -/
def readNumber (val : Int32) : List UInt8 → Int32 × List UInt8
  | [] => (val, [])
  | c :: rest =>
      if isDigit c then readNumber (val * 10 + Int32.ofNat (c.toNat - 48)) rest
      else (val, c :: rest)

/-- One round of the loop over the characters, with the characters that are left. -/
def readToken (c : UInt8) (rest : List UInt8) (s : Stacks) :
    Except Cpu.Stop (List UInt8 × Stacks) :=
  if c = '('.toUInt8 then .ok (rest, { s with ops := s.ops.add c })
  else if isDigit c then
    let (val, rest) := readNumber 0 (c :: rest)
    .ok (rest, { s with values := s.values.add val })
  else if c = ')'.toUInt8 then do
    let s ← reduceWhile (· ≠ '('.toUInt8) s.ops.size s
    if s.ops.isEmpty then return (rest, s)
    else
      let (_, ops) ← s.ops.removeAt (s.ops.size - 1)
      return (rest, { s with ops })
  else do
    let s ← reduceWhile (precedence c ≤ precedence ·) s.ops.size s
    return (rest, { s with ops := s.ops.add c })

/-- Every round takes a character, so there are no more rounds than characters. -/
def readTokens : Nat → List UInt8 → Stacks → Except Cpu.Stop Stacks
  | rounds + 1, c :: rest, s => do
      let (rest, s) ← readToken c rest s
      readTokens rounds rest s
  | _, _, s => .ok s

def calculateExpression (tokens : String) : Except Cpu.Stop Int32 := do
  let s ← readTokens tokens.len tokens.chars ⟨ArrayList.new (fun _ => 0) 0,
    ArrayList.new (fun _ => 0) 0⟩
  let s ← reduceWhile (fun _ => true) s.ops.size s
  s.values.get (s.values.size - 1)

def signature : OperatorStack.Signature Int32 UInt8 Cpu.Stop where
  precedence := precedence
  apply op a b := applyOperation a b op
  parenthesis := '('.toUInt8
  underflow := .throwException .OUT_OF_BOUNDS

def Stacks.contents (s : Stacks) : List Int32 × List UInt8 :=
  (s.values.toArray.reverse, s.ops.toArray.reverse)

theorem reverse_toArray_add {T : Type} [Inhabited T] (l : ArrayList T) (x : T) :
    (l.add x).toArray.reverse = x :: l.toArray.reverse := by
  rw [toArray_add, reverse_append, reverse_singleton, singleton_append]

theorem reduceTop_contents (h : s.ops.toArray.reverse = op :: ops) :
    (reduceTop s).map Stacks.contents =
      (OperatorStack.reduceTop signature op s.values.toArray.reverse).map (·, ops) := by
  obtain ⟨hop, ops', hops', hrest⟩ := get_last h
  unfold reduceTop
  match hvalues : s.values.toArray.reverse with
  | [] =>
    rw [get_empty hvalues]
    rfl
  | [b] =>
    obtain ⟨hb, values, hremove, hvalues'⟩ := get_last hvalues
    rw [hb, hremove]
    change Except.map _ (values.get (values.size - 1) >>= _) = _
    rw [get_empty hvalues']
    rfl
  | b :: a :: rest =>
    obtain ⟨hb, values, hremove, hvalues'⟩ := get_last hvalues
    obtain ⟨ha, values', hremove', hvalues''⟩ := get_last hvalues'
    rw [hb, hremove]
    change Except.map _ (values.get (values.size - 1) >>= _) = _
    rw [ha, hremove', hop, hops']
    change Except.map _ (applyOperation a b op >>= _) = Except.map _ (applyOperation a b op >>= _)
    cases applyOperation a b op with
    | error stop => rfl
    | ok v =>
      have hadd := reverse_toArray_add values' v
      rw [hvalues''] at hadd
      exact congrArg ok (Prod.ext hadd hrest)

theorem ops_reduceTop {s' : Stacks} (h : s.contents.2 = op :: ops)
    (hs' : reduceTop s = .ok s') : s'.contents.2 = ops := by
  have htop := reduceTop_contents h
  rw [hs'] at htop
  cases hvalues : OperatorStack.reduceTop signature op s.values.toArray.reverse with
  | error stop => rw [hvalues] at htop; cases htop
  | ok values =>
    rw [hvalues] at htop
    exact congrArg Prod.snd (ok.inj htop)

theorem size_ops (s : Stacks) : s.ops.size = s.contents.2.length := by
  rw [Stacks.contents, length_reverse, length_toArray]
  rfl

theorem isEmpty_ops (s : Stacks) : s.ops.isEmpty = s.contents.2.isEmpty := by
  rw [Bool.eq_iff_iff, ArrayList.isEmpty_iff, List.isEmpty_iff, Stacks.contents,
    List.reverse_eq_nil_iff]

theorem reduceWhile_contents (condition : UInt8 → Bool) (h : s.ops.size ≤ rounds) :
    (reduceWhile condition rounds s).map Stacks.contents =
      OperatorStack.reduceWhile signature condition s.contents.1 s.contents.2 := by
  induction rounds generalizing s with
  | zero =>
    have hnil : s.contents.2 = [] := by
      rw [size_ops] at h
      exact length_eq_zero_iff.mp (Nat.le_zero.mp h)
    rw [hnil, OperatorStack.reduceWhile, ← hnil]
    rfl
  | succ rounds ih =>
    unfold reduceWhile
    cases hops : s.contents.2 with
    | nil =>
      rw [isEmpty_ops, hops, if_pos (by rfl), OperatorStack.reduceWhile, ← hops]
      rfl
    | cons op ops =>
      rw [isEmpty_ops, hops, if_neg (by exact Bool.false_ne_true), (get_last hops).1,
        OperatorStack.reduceWhile]
      change Except.map _ (if condition op = true then reduceTop s >>= _ else _) = _
      split
      · have hrounds : ∀ s', reduceTop s = .ok s' → s'.ops.size ≤ rounds := by
          intro s' hs'
          rw [size_ops, ops_reduceTop hops hs']
          rw [size_ops, hops] at h
          exact Nat.le_of_succ_le_succ h
        calc
          _ = ((OperatorStack.reduceTop signature op s.contents.1).map (·, ops) >>= fun t =>
                OperatorStack.reduceWhile signature condition t.1 t.2) :=
            map_bind_eq (reduceTop_contents hops) fun s' hs' => ih (hrounds s' hs')
          _ = _ := by cases OperatorStack.reduceTop signature op s.contents.1 <;> rfl
      · rw [← hops]
        rfl

/-- The token that begins with the character `c`, and the characters behind it. -/
def token (c : UInt8) (rest : List UInt8) : OperatorStack.Token Int32 UInt8 × List UInt8 :=
  if c = '('.toUInt8 then (.opening, rest)
  else if isDigit c then (.value (readNumber 0 (c :: rest)).1, (readNumber 0 (c :: rest)).2)
  else if c = ')'.toUInt8 then (.closing, rest)
  else (.operator c, rest)

def tokenize : Nat → List UInt8 → List (OperatorStack.Token Int32 UInt8)
  | rounds + 1, c :: rest => (token c rest).1 :: tokenize rounds (token c rest).2
  | _, _ => []

theorem tokenize_cons {c : UInt8} {rest : List UInt8} (h : (c :: rest).length ≤ rounds) :
    ∃ left, rest.length ≤ left ∧ tokenize rounds (c :: rest) =
      (token c rest).1 :: tokenize left (token c rest).2 := by
  cases rounds with
  | zero => exact absurd h (Nat.not_succ_le_zero _)
  | succ left => exact ⟨left, Nat.le_of_succ_le_succ h, rfl⟩

theorem removeParenthesis_contents (rest : List UInt8) (s : Stacks) :
    (if s.ops.isEmpty then .ok (rest, s)
      else do
        let (_, ops) ← s.ops.removeAt (s.ops.size - 1)
        return (rest, { s with ops }) : Except Cpu.Stop (List UInt8 × Stacks)).map
          (Prod.map id Stacks.contents) =
      .ok (rest, s.contents.1, s.contents.2.tail) := by
  rw [isEmpty_ops]
  match hops : s.contents.2 with
  | [] =>
    rw [if_pos (by rfl), tail_nil, ← hops]
    rfl
  | op :: ops =>
    obtain ⟨ops', hremove, hops'⟩ := (get_last hops).2
    rw [if_neg (by exact Bool.false_ne_true), hremove]
    exact congrArg (fun ops => ok (rest, s.contents.1, ops)) hops'

theorem readToken_contents (c : UInt8) (rest : List UInt8) (s : Stacks) :
    (readToken c rest s).map (Prod.map id Stacks.contents) =
      (step signature s.contents (token c rest).1).map ((token c rest).2, ·) := by
  unfold readToken token
  split
  · rename_i hc
    rw [hc]
    exact congrArg (fun ops => ok (rest, s.contents.1, ops)) (reverse_toArray_add s.ops _)
  split
  · exact congrArg (fun values => ok (_, values, s.contents.2)) (reverse_toArray_add s.values _)
  split
  · calc
      _ = (OperatorStack.reduceWhile signature (· ≠ '('.toUInt8) s.contents.1 s.contents.2 >>=
        fun t =>
            .ok (rest, t.1, t.2.tail)) :=
        map_bind_eq (reduceWhile_contents _ le_rfl) fun s' _ => removeParenthesis_contents rest s'
      _ = _ := by
        rw [step]
        change _ = Except.map _ (OperatorStack.reduceWhile signature
          (· ≠ '('.toUInt8) s.contents.1 s.contents.2 >>= _)
        cases OperatorStack.reduceWhile signature (· ≠ '('.toUInt8) s.contents.1 s.contents.2 <;>
          rfl
  · have hpush : ∀ s' : Stacks, (ok (rest, { s' with ops := s'.ops.add c }) : Except Cpu.Stop _).map
        (Prod.map id Stacks.contents) = .ok (rest, s'.contents.1, c :: s'.contents.2) := fun s' =>
      congrArg (fun ops => ok (rest, s'.contents.1, ops)) (reverse_toArray_add s'.ops c)
    calc
      _ = (OperatorStack.reduceWhile signature (precedence c ≤ precedence ·) s.contents.1
        s.contents.2 >>= fun t =>
            .ok (rest, t.1, c :: t.2)) := map_bind_eq (reduceWhile_contents _ le_rfl) fun s' _ =>
              hpush s'
      _ = _ := by
        rw [step]
        change _ = Except.map _
          (OperatorStack.reduceWhile signature (precedence c ≤ precedence ·) s.contents.1
            s.contents.2 >>= _)
        cases OperatorStack.reduceWhile signature (precedence c ≤ precedence ·) s.contents.1
          s.contents.2 <;> rfl

/-- The loop of the program reads the tokens as the stacks do. -/
theorem readTokens_contents (rounds : Nat) (chars : List UInt8) (s : Stacks) :
    (readTokens rounds chars s).map Stacks.contents =
      run signature s.contents (tokenize rounds chars) := by
  induction rounds generalizing chars s with
  | zero => rfl
  | succ rounds ih =>
    cases chars with
    | nil => rfl
    | cons c rest =>
      unfold readTokens
      calc
        _ = ((step signature s.contents (token c rest).1).map ((token c rest).2, ·) >>= fun t =>
              run signature t.2 (tokenize rounds t.1)) :=
          map_bind_eq (readToken_contents c rest s) fun r _ => ih r.1 r.2
        _ = _ := by
          rw [tokenize, run, foldlM_cons]
          cases step signature s.contents (token c rest).1 <;> rfl

theorem map_id_get_last (s : Stacks) :
    (s.values.get (s.values.size - 1)).map id = top signature s.contents.1 := by
  match hvalues : s.contents.1 with
  | [] =>
    rw [get_empty hvalues]
    rfl
  | v :: values =>
    rw [(get_last hvalues).1]
    rfl

theorem calculateExpression_eq (tokens : String) :
    calculateExpression tokens = calculate signature (tokenize tokens.len tokens.chars) := by
  have hid : ∀ result : Except Cpu.Stop Int32, result.map id = result := by
    rintro (_ | _) <;> rfl
  have hfinish : ∀ s : Stacks, (do
      let s ← reduceWhile (fun _ => true) s.ops.size s
      s.values.get (s.values.size - 1)).map id = finish signature s.contents := fun s =>
    map_bind_eq (reduceWhile_contents _ le_rfl) fun s' _ => map_id_get_last s'
  rw [← hid (calculateExpression tokens)]
  exact map_bind_eq (readTokens_contents _ _ _) fun s _ => hfinish s

/-- A number in decimal digits. -/
structure Literal where
  digits : List (Fin 10)
  nonempty : digits ≠ []

namespace Literal

def digit (d : Fin 10) : UInt8 := UInt8.ofNat (48 + d.val)

def chars (l : Literal) : List UInt8 := l.digits.map digit

/-- The number that goes on with the digits. -/
def numberFrom (n : Nat) (digits : List (Fin 10)) : Nat :=
  digits.foldl (fun n d => n * 10 + d.val) n

def number (l : Literal) : Nat := numberFrom 0 l.digits

def value (l : Literal) : Int32 := Int32.ofNat l.number

end Literal

inductive Operation
  | add | sub | mul | div | rem
  deriving DecidableEq

namespace Operation

def symbol : Operation → UInt8
  | add => '+'.toUInt8
  | sub => '-'.toUInt8
  | mul => '*'.toUInt8
  | div => '/'.toUInt8
  | rem => '%'.toUInt8

def level : Operation → Nat
  | add | sub => 1
  | rem => 2
  | mul | div => 3

/-- The operation on numbers of 32 bits that wrap around. -/
def apply (a b : Int32) : Operation → Int32
  | add => a + b
  | sub => a - b
  | mul => a * b
  | div => a / b
  | rem => a % b

def divides : Operation → Bool
  | div | rem => true
  | _ => false

end Operation

abbrev Expression := OperatorStack.Expr Literal Operation

namespace Expression

open OperatorStack

def render : Expression → List UInt8
  | .literal l => l.chars
  | .binary o left right => render left ++ o.symbol :: render right
  | .group e => '('.toUInt8 :: render e ++ [')'.toUInt8]

def value : Expression → Int32
  | .literal l => l.value
  | .binary o left right => o.apply (value left) (value right)
  | .group e => value e

/-- A property of every operation in the expression and its operands. -/
def Everywhere (P : Operation → Int32 → Int32 → Prop) : Expression → Prop
  | .literal _ => True
  | .binary o left right => P o (value left) (value right) ∧ Everywhere P left ∧ Everywhere P right
  | .group e => Everywhere P e

instance Everywhere.decidable (P : Operation → Int32 → Int32 → Prop)
    [∀ o a b, Decidable (P o a b)] :
    ∀ e, Decidable (Everywhere P e)
  | .literal _ => isTrue trivial
  | .binary _ left right =>
      have := Everywhere.decidable P left
      have := Everywhere.decidable P right
      inferInstanceAs (Decidable (_ ∧ _ ∧ _))
  | .group e => Everywhere.decidable P e

def NoZeroDivision : Expression → Prop := Everywhere fun o _ b => o.divides = true → b ≠ 0

def NoOverflow : Expression → Prop :=
  Everywhere fun o a b => o.divides = true → ¬(a = Int32.minValue ∧ b = -1)

/-- Operators bind as their levels say and associate to the left. -/
def WellFormed (e : Expression) : Prop := Expr.WellFormed Operation.level 0 e

instance (e : Expression) : Decidable (NoZeroDivision e) :=
  inferInstanceAs (Decidable (Everywhere _ e))

instance (e : Expression) : Decidable (NoOverflow e) := inferInstanceAs (Decidable (Everywhere _ e))

instance (e : Expression) : Decidable (WellFormed e) :=
  inferInstanceAs (Decidable (Expr.WellFormed _ _ e))

theorem isDigit_digit (d : Fin 10) : isDigit (Literal.digit d) = true ∧
    (Literal.digit d).toNat - 48 = d.val ∧ Literal.digit d ≠ '('.toUInt8 := by
  revert d
  decide

theorem token_symbol (o : Operation) (rest : List UInt8) :
    token o.symbol rest = (.operator o.symbol, rest) := by
  cases o <;> rfl

theorem isDigit_symbol (o : Operation) : isDigit o.symbol = false := by cases o <;> rfl

variable {rest : List UInt8}

theorem readNumber_digits (digits : List (Fin 10)) (h : ∀ c ∈ rest.head?, isDigit c = false)
    (n : Nat) :
    readNumber (Int32.ofNat n) (digits.map Literal.digit ++ rest) =
      (Int32.ofNat (Literal.numberFrom n digits), rest) := by
  induction digits generalizing n with
  | nil =>
    cases rest with
    | nil => rfl
    | cons c rest =>
      have hc : isDigit c = false := h c rfl
      rw [map_nil, nil_append, readNumber, hc, if_neg Bool.false_ne_true]
      rfl
  | cons d digits ih =>
    obtain ⟨hdigit, hvalue, -⟩ := isDigit_digit d
    rw [map_cons, cons_append, readNumber, hdigit, if_pos rfl, hvalue]
    have hnext : Int32.ofNat n * 10 + Int32.ofNat d.val = Int32.ofNat (n * 10 + d.val) := by
      rw [Int32.ofNat_add, Int32.ofNat_mul]
      rfl
    rw [hnext]
    exact ih _

theorem token_literal (l : Literal) (h : ∀ c ∈ rest.head?, isDigit c = false) :
    ∃ c cs, l.chars = c :: cs ∧ token c (cs ++ rest) = (.value l.value, rest) := by
  obtain ⟨digits, hne⟩ := l
  cases digits with
  | nil => exact absurd rfl hne
  | cons d digits =>
    obtain ⟨hdigit, -, hparenthesis⟩ := isDigit_digit d
    refine ⟨_, _, rfl, ?_⟩
    rw [token, if_neg hparenthesis, hdigit, if_pos rfl]
    have hnumber : readNumber 0 (Literal.digit d :: (digits.map Literal.digit ++ rest)) = _ :=
      readNumber_digits (d :: digits) h 0
    rw [hnumber]
    rfl

/-- The tokens of a rendering that is followed by no digit. There are enough rounds
left for what follows. -/
theorem tokenize_render (e : Expression) (h : ∀ c ∈ rest.head?, isDigit c = false) {rounds : Nat}
    (hrounds : (render e ++ rest).length ≤ rounds) : ∃ left, rest.length ≤ left ∧
      tokenize rounds (render e ++ rest) = (e.map Literal.value Operation.symbol).tokens ++
        tokenize left rest := by
  induction e generalizing rest rounds with
  | literal l =>
    obtain ⟨c, cs, hchars, htoken⟩ := token_literal l h
    rw [render, hchars, cons_append] at hrounds ⊢
    obtain ⟨left, hleft, htokens⟩ := tokenize_cons hrounds
    refine ⟨left, (Nat.le_add_left ..).trans (length_append ▸ hleft), ?_⟩
    rw [htokens, htoken]
    rfl
  | binary o left right ihl ihr =>
    have hsymbol : ∀ c ∈ (o.symbol :: (render right ++ rest)).head?, isDigit c = false := by
      rintro c ⟨⟩
      exact isDigit_symbol o
    rw [render, append_assoc, cons_append] at hrounds ⊢
    obtain ⟨left₁, hleft₁, htokens₁⟩ := ihl hsymbol hrounds
    obtain ⟨left₂, hleft₂, htokens₂⟩ := tokenize_cons hleft₁
    obtain ⟨left₃, hleft₃, htokens₃⟩ := ihr h hleft₂
    refine ⟨left₃, hleft₃, ?_⟩
    rw [htokens₁, htokens₂, token_symbol, htokens₃, Expr.map, Expr.tokens, append_assoc,
      append_assoc]
    rfl
  | group e ih =>
    have hclosing : ∀ c ∈ (')'.toUInt8 :: rest).head?, isDigit c = false := by
      rintro c ⟨⟩
      rfl
    rw [render, cons_append, cons_append, append_assoc, cons_append, nil_append] at hrounds ⊢
    obtain ⟨left₁, hleft₁, htokens₁⟩ := tokenize_cons hrounds
    obtain ⟨left₂, hleft₂, htokens₂⟩ := ih hclosing hleft₁
    obtain ⟨left₃, hleft₃, htokens₃⟩ := tokenize_cons hleft₂
    refine ⟨left₃, hleft₃, ?_⟩
    calc
      _ = Token.opening :: tokenize left₁ (render e ++ ')'.toUInt8 :: rest) := htokens₁
      _ = _ := by
        rw [htokens₂, htokens₃, Expr.map, Expr.tokens, cons_append, cons_append, append_assoc]
        rfl

theorem calculateExpression_render (e : Expression) :
    calculateExpression (String.ofChars (render e)) =
    calculate signature (e.map Literal.value Operation.symbol).tokens := by
  have hend : ∀ c ∈ ([] : List UInt8).head?, isDigit c = false :=
    fun c hc => absurd hc (Option.not_mem_none c)
  obtain ⟨left, -, htokens⟩ := tokenize_render e hend le_rfl
  have hnil : tokenize left [] = [] := by cases left <;> rfl
  rw [hnil, append_nil, append_nil] at htokens
  rw [calculateExpression_eq, ← htokens]
  rfl

theorem applyOperation_symbol {o : Operation} {a b : Int32} (hzero : o.divides = true → b ≠ 0)
    (hfits : o.divides = true → ¬(a = Int32.minValue ∧ b = -1)) :
    applyOperation a b o.symbol = .ok (o.apply a b) := by
  have hdivide : o.divides = true → isDivideError a b = false := fun h =>
    decide_eq_false (not_or.mpr ⟨hzero h, hfits h⟩)
  cases o with
  | add => rfl
  | sub => rfl
  | mul => rfl
  | div =>
    change (if isDivideError a b then _ else _) = _
    rw [hdivide rfl]
    rfl
  | rem =>
    change (if isDivideError a b then _ else _) = _
    rw [hdivide rfl]
    rfl

theorem value_map {e : Expression} (hzero : NoZeroDivision e) (hfits : NoOverflow e) :
    (e.map Literal.value Operation.symbol).value signature = .ok (value e) := by
  induction e with
  | literal l => rfl
  | binary o left right ihl ihr =>
    obtain ⟨hzero, hzerol, hzeror⟩ := hzero
    obtain ⟨hfits, hfitsl, hfitsr⟩ := hfits
    rw [Expr.map, Expr.value, ihl hzerol hfitsl, ihr hzeror hfitsr]
    exact applyOperation_symbol hzero hfits
  | group e ih => exact ih hzero hfits

theorem precedence_symbol (o : Operation) : precedence o.symbol = o.level := by cases o <;> rfl

/-- Every expression that is rendered without spaces is evaluated with its value, if
nothing is divided by zero and the smallest number is not divided by minus one. -/
theorem calculateExpression_value {e : Expression} (hwf : WellFormed e) (hzero : NoZeroDivision e)
    (hfits : NoOverflow e) : calculateExpression (String.ofChars (render e)) = .ok (value e) := by
  rw [calculateExpression_render]
  exact calculate_tokens (Expr.WellFormed.map precedence_symbol hwf) (value_map hzero hfits)

def number (d : Fin 10) (digits : List (Fin 10)) : Expression :=
  .literal ⟨d :: digits, List.cons_ne_nil d digits⟩

/-- `7-2*3%4` -/
def mixed : Expression :=
  .binary .sub (number 7 []) (.binary .rem (.binary .mul (number 2 []) (number 3 [])) (number 4 []))

theorem calculateExpression_value_mixed :
    WellFormed mixed ∧ NoZeroDivision mixed ∧ NoOverflow mixed ∧
    calculateExpression (String.ofChars (render mixed)) = .ok 5 := by
  have hwf : WellFormed mixed := by decide
  have hzero : NoZeroDivision mixed := by decide
  have hfits : NoOverflow mixed := by decide
  exact ⟨hwf, hzero, hfits, calculateExpression_value hwf hzero hfits⟩

/-- `(0-2147483648)/(0-1)` -/
def smallestByMinusOne : Expression :=
  .binary .div (.group (.binary .sub (number 0 []) (number 2 [1, 4, 7, 4, 8, 3, 6, 4, 8])))
    (.group (.binary .sub (number 0 []) (number 1 [])))

/-- The value exists, and the program does not get to it. -/
theorem smallestByMinusOne_stops :
    WellFormed smallestByMinusOne ∧ NoZeroDivision smallestByMinusOne ∧
    value smallestByMinusOne = Int32.minValue ∧
    calculateExpression (String.ofChars (render smallestByMinusOne)) = .error .divideError := by
  refine ⟨by decide, by decide, by decide, ?_⟩
  rw [calculateExpression_render]
  rfl

end Expression

end HuyaOS.Mathexpr
