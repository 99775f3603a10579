import HuyaOS.Util.String

/-!
`Filesystem::parsePath`, the canonical form of a path. The tokens between the
separators are walked with a list of the directories entered so far; the list is
then put together again. The tests for "." and ".." compare C strings, so they
depend on the zero byte behind the tokens of `split`.

Whatever memory the tokens are allocated in, the result is the canonical path of
the path algebra. Canonical paths do not change, and a part of a path can be
made canonical before the rest is appended.
-/

namespace HuyaOS.Filesystem

open Lib List HuyaOS.String ArrayList

variable {parsedToken : ArrayList String} {stack : List (List UInt8)}

def slash : UInt8 := 47

def dot : List UInt8 := [46]
def dotDot : List UInt8 := [46, 46]

def SEPARATOR : String := .ofChars [slash]

/-- One round of the loop of `parsePath`. The test for ".." is only made when the
test for "." has failed. -/
def parseToken (parsedToken : ArrayList String) (token : String) :
    Except Cpu.Stop (ArrayList String) := do
  if ← token.equals (.ofChars dot) then return parsedToken
  else if ← token.equals (.ofChars dotDot) then
    if parsedToken.isEmpty then return parsedToken
    else return (← parsedToken.removeAt (parsedToken.size - 1)).2
  else return parsedToken.add token.copy

/-- `parsePath`; `fresh` is what the memory holds behind the tokens. -/
def parsePath (fresh : Nat → UInt8) (path : String) : Except Cpu.Stop String := do
  let token ← path.split SEPARATOR 0 fresh
  let parsedToken ← token.foldlM parseToken (ArrayList.new (fun _ => default) 0)
  if parsedToken.isEmpty then return .ofChars []
  else return SEPARATOR.plus (← String.join SEPARATOR parsedToken.toArray)

/-- The tests of the loop, which end at a zero byte. -/
def isDot (token : List UInt8) : Bool := String.cString token == dot
def isDotDot (token : List UInt8) : Bool := String.cString token == dotDot

/-- A round of the loop is a step of the path algebra. -/
theorem parseToken_refines
    (hstack : parsedToken.toArray = stack.map .ofChars) (token : List UInt8) :
    ∃ parsedToken', parseToken parsedToken (.ofChars token) = .ok parsedToken' ∧
      parsedToken'.toArray = (walk isDot isDotDot stack token).map .ofChars := by
  have hdot : (ofChars token).equals (.ofChars dot) = .ok (isDot token) := equals_ofChars _ _
  have hdotDot : (ofChars token).equals (.ofChars dotDot) = .ok (isDotDot token) :=
    equals_ofChars _ _
  unfold parseToken walk
  rw [hdot, hdotDot]
  cases isDot token with
  | true => exact ⟨parsedToken, rfl, hstack⟩
  | false =>
    cases isDotDot token with
    | true =>
      cases hempty : parsedToken.isEmpty with
      | true =>
        rw [ArrayList.isEmpty_iff, hstack, map_eq_nil_iff] at hempty
        subst hempty
        exact ⟨parsedToken, rfl, hstack⟩
      | false =>
        have hlen : parsedToken.length = stack.length := by
          rw [← length_toArray, hstack, length_map]
        have hne : parsedToken.length ≠ 0 := by simpa [ArrayList.isEmpty] using hempty
        obtain ⟨parsedToken', hremove, harray⟩ := removeAt_spec (Nat.sub_one_lt hne)
        refine ⟨parsedToken', by rw [size, hremove]; rfl, ?_⟩
        rw [harray, hstack, hlen, eraseIdx_map, eraseIdx_length_sub_one]
        rfl
    | false =>
      refine ⟨parsedToken.add (.ofChars token), rfl, ?_⟩
      rw [toArray_add, hstack]
      simp

theorem foldlM_parseToken (tokens : List (List UInt8))
    (hstack : parsedToken.toArray = stack.map .ofChars) :
    ∃ parsedToken', (tokens.map String.ofChars).foldlM parseToken parsedToken = .ok parsedToken' ∧
      parsedToken'.toArray = (tokens.foldl (walk isDot isDotDot) stack).map .ofChars := by
  induction tokens generalizing parsedToken stack with
  | nil => exact ⟨parsedToken, rfl, hstack⟩
  | cons token tokens ih =>
    obtain ⟨next, hnext, hwalk⟩ := parseToken_refines hstack token
    obtain ⟨last, hlast, harray⟩ := ih hwalk
    refine ⟨last, ?_, harray⟩
    rw [map_cons, foldlM_cons, hnext]
    exact hlast

theorem parsePath_eq (fresh : Nat → UInt8) (path : String) :
    parsePath fresh path = .ok (.ofChars (canonical slash isDot isDotDot path.chars)) := by
  have hempty : (new (fun _ => (default : String)) 0).toArray = ([]).map .ofChars := rfl
  obtain ⟨parsedToken, hfold, harray⟩ := foldlM_parseToken (components slash path.chars) hempty
  change parsedToken.toArray = (resolve isDot isDotDot (components slash path.chars)).map
    .ofChars at harray
  unfold parsePath canonical
  rw [SEPARATOR, split_char]
  simp only [bind, Except.bind, hfold]
  cases hstack : resolve isDot isDotDot (components slash path.chars) with
  | nil =>
    rw [hstack] at harray
    rw [if_pos ((isEmpty_iff parsedToken).mpr harray)]
    rfl
  | cons directory rest =>
    rw [hstack] at harray
    have hne : ¬parsedToken.isEmpty = true := by
      rw [ArrayList.isEmpty_iff, harray]
      exact cons_ne_nil _ _
    rw [if_neg hne, harray, join_ofChars _ (cons_ne_nil _ _)]
    rfl

-- "/a/./../b//" with bytes other than zero behind the tokens
example : parsePath (fun _ => 255) (.ofChars [47, 97, 47, 46, 47, 46, 46, 47, 98, 47, 47]) =
    .ok (.ofChars [47, 98]) := rfl

/-- What a function has to do that makes paths canonical, whatever the memory
holds when it is called. -/
structure Canonicalises (parse : (Nat → UInt8) → String → Except Cpu.Stop String) : Prop where
  /-- The result is empty, or a separator and then components with single
  separators between them, each of which names a directory. -/
  form : ∀ fresh path, ∃ directories, parse fresh path = .ok (.ofChars (render slash directories)) ∧
    ∀ c ∈ directories, c ≠ [] ∧ slash ∉ c ∧ c ≠ dot ∧ c ≠ dotDot
  /-- The directories are those that are left of the components of the path when
  "." is skipped and ".." leaves the directory entered last. -/
  resolves : ∀ fresh path, parse fresh path =
    .ok (.ofChars (render slash (resolve isDot isDotDot (components slash path.chars))))
  /-- Leading ".." lead nowhere but to the root. -/
  root : ∀ fresh fresh' lead path, (∀ c ∈ components slash lead.chars, c = dot ∨ c = dotDot) →
    parse fresh lead = .ok (.ofChars []) ∧ parse fresh ((lead.plus SEPARATOR).plus path) =
      parse fresh' path
  idempotent : ∀ fresh fresh' fresh'' path, (parse fresh path >>= parse fresh') = parse fresh'' path
  compositional : ∀ fresh fresh' fresh'' a b,
    parse fresh ((a.plus SEPARATOR).plus b) =
      parse fresh' a >>= fun a => parse fresh'' ((a.plus SEPARATOR).plus b)

theorem chars_plus_separator (a b : String) :
    ((a.plus SEPARATOR).plus b).chars = a.chars ++ slash :: b.chars := by
  simp [SEPARATOR]

theorem parsePath_canonicalises : Canonicalises parsePath where
  form fresh path := by
    refine ⟨_, parsePath_eq fresh path, ?_⟩
    intro c hc
    obtain ⟨⟨hne, hslash⟩, hdot, hdotDot⟩ := isEntered_of_mem_resolve hc
    refine ⟨hne, hslash, ?_, ?_⟩
    · rintro rfl
      cases hdot
    · rintro rfl
      cases hdotDot
  resolves := parsePath_eq
  root fresh fresh' lead path hlead := by
    have hleads : ∀ c ∈ components slash lead.chars, isDot c = true ∨ isDotDot c = true := by
      intro c hc
      rcases hlead c hc with rfl | rfl
      · exact .inl rfl
      · exact .inr rfl
    obtain ⟨hroot, hrest⟩ := canonical_root hleads
    constructor
    · rw [parsePath_eq, hroot]
    · rw [parsePath_eq, parsePath_eq, chars_plus_separator, hrest]
  idempotent fresh fresh' fresh'' path := by
    rw [parsePath_eq, parsePath_eq]
    exact (parsePath_eq _ _).trans (congrArg (Except.ok ∘ ofChars) (canonical_idempotent _))
  compositional fresh fresh' fresh'' a b := by
    rw [parsePath_eq, parsePath_eq, chars_plus_separator]
    apply Eq.symm
    apply (parsePath_eq _ _).trans
    rw [chars_plus_separator]
    exact congrArg (Except.ok ∘ ofChars) (canonical_append a.chars b.chars)

end HuyaOS.Filesystem
