import HuyaOS.Libc.Snprintf

/-!
`snprintf` as a `sprintf` with a limit. It is one for a call that reaches no `u`, does not go on
behind a text that is cut off, and whose text is cut off or ends with a directive that closes it.
-/

namespace HuyaOS.Libc

open Lib Elf Snprintf List Nat

/-- There is an argument for every directive, and none of the characters is zero. -/
def Matching : List Item → List UInt32 → Prop
  | [], args => args = []
  | .literal _ :: format, args => Matching format args
  | .directive _ _ :: _, [] => False
  | .directive _ kind :: format, i :: args => (kind = .c → i.toUInt8 ≠ 0) ∧ Matching format args

/-- The buffer has `nmax` bytes and holds the text, or a part from its beginning if the text is
too long. -/
structure Bounded (out : Out) (nmax : Nat) (text : List UInt8) : Prop where
  inside : ∀ i ∈ out.touched, 0 ≤ i ∧ i < nmax
  holds : ∃ s : List UInt8, 0 ∉ s ∧ s.length < nmax ∧ out.chars s.length = s ∧
    out.strout s.length = 0 ∧ if text.length ≤ nmax - 1 then s = text else s <+: text

variable {m : Mem} {f : List Item} {args : List UInt32}

theorem zero_not_mem_text (h : Matching f args) (padding : Nat) : 0 ∉ text m f padding args := by
  induction f generalizing args padding with
  | nil => exact not_mem_nil
  | cons item f ih =>
    cases item with
    | literal c =>
      rw [text, mem_cons, not_or]
      exact ⟨c.2.2.symm, ih h padding⟩
    | directive own kind =>
      cases args with
      | nil => exact h.elim
      | cons i args =>
        rw [text, mem_append, not_or]
        exact ⟨zero_not_mem_piece h.1 _, ih h.2 _⟩

section Bounds

variable {before : Int → UInt8} {out : Out} {t : List UInt8} {closed : Bool} {nmax : UInt32}

theorem intOf_cases (h : nmax ≠ 0) :
    (0 < intOf nmax ∧ intOf nmax = nmax.toNat) ∨ (intOf nmax ≤ 0 ∧ 2 ^ 31 ≤ nmax.toNat) := by
  have hlt := nmax.toNat_lt
  have hpos : nmax.toNat ≠ 0 := fun hzero => h (UInt32.toNat_inj.mp hzero)
  unfold intOf negative
  by_cases hle : 2 ^ 31 ≤ nmax.toNat
  · omega
  · rw [if_neg (by simpa using hle)]
    omega

theorem Bounded.terminated {nmax : Nat} (h : Bounded out nmax t) (hfits : t.length ≤ nmax - 1) :
    out.strout t.length = 0 := by
  obtain ⟨s, -, -, -, hend, hall⟩ := h.holds
  rw [if_pos hfits] at hall
  rw [← hall]
  exact hend

theorem Bounded.first (h : Bounded out 2 t) (hlong : 2 ≤ t.length) :
    out.strout 0 = 0 ∨ out.strout 0 = t.headD 0 := by
  obtain ⟨s, -, hshort, hchars, hend, hpart⟩ := h.holds
  rw [if_neg (by omega)] at hpart
  obtain ⟨rest, rfl⟩ := hpart
  cases s with
  | nil => exact .inl hend
  | cons c s =>
    have hs : s = [] := eq_nil_of_length_eq_zero (by rw [length_cons] at hshort; omega)
    subst hs
    exact .inr (cons.inj hchars).1

theorem bounded_of_outcome (hnmax : nmax ≠ 0) (hzero : 0 ∉ t) (hlength : t.length < 2 ^ 31)
    (h : Outcome before (intOf nmax) out t closed)
    (hclosed : nmax.toNat ≤ t.length ∨ closed = true) :
    Bounded out nmax.toNat t := by
  have hint := intOf_cases hnmax
  rcases h with ⟨hroom, hholds⟩ | ⟨limit, hlimit, -, hstopped⟩
  · have hfits : t.length < nmax.toNat := by
      unfold Room at hroom
      omega
    obtain rfl : closed = true := hclosed.resolve_left (by omega)
    refine ⟨fun i hi => ?_, t, hzero, hfits, hholds.chars_eq, hholds.terminated rfl, ?_⟩
    · have := hholds.touched i hi
      simp only [Bool.toNat_true] at this
      omega
    · rw [if_pos (by omega)]
  · have hle := hstopped.limit_le
    have htake : (t.take limit).length = limit := length_take_of_le hle
    refine ⟨fun i hi => ?_, t.take limit, fun hmem => hzero (mem_of_mem_take hmem), by omega,
      ?_, ?_, ?_⟩
    · have := hstopped.touched i hi
      omega
    · rw [htake]
      exact hstopped.chars_eq
    · rw [htake]
      exact hstopped.terminated
    · split_ifs with hshort
      · exact take_of_length_le (by omega)
      · exact take_prefix limit t

theorem kept_of_outcome (hnmax : nmax ≠ 0) (h : Outcome before (intOf nmax) out t false)
    (hfits : t.length < nmax.toNat) : out.strout t.length = before t.length := by
  have hint := intOf_cases hnmax
  rcases h with ⟨-, hholds⟩ | ⟨limit, hlimit, hcut | hclosed, -⟩
  · exact hholds.beyond t.length le_rfl
  · omega
  · exact absurd hclosed Bool.false_ne_true

theorem bounded_of_single (hzero : 0 ∉ t) (h : Single before out t true) : Bounded out 2 t := by
  refine ⟨h.touched, ?_⟩
  have hend := h.terminated rfl
  cases t with
  | nil => exact ⟨[], not_mem_nil, two_pos, rfl, hend, rfl⟩
  | cons c t =>
    have hfirst : out.strout 0 = c := h.first (cons_ne_nil c t)
    have hc : c ≠ 0 := fun heq => hzero (mem_cons.mpr (.inl heq.symm))
    refine ⟨[c], fun hmem => hc (mem_singleton.mp hmem).symm, one_lt_two,
      congrArg (· :: []) hfirst, hend, ?_⟩
    split_ifs with hshort
    · have hempty : t = [] := eq_nil_of_length_eq_zero (by rw [length_cons] at hshort; omega)
      rw [hempty]
    · exact ⟨t, rfl⟩

end Bounds

section Calls

variable {nmax : UInt32} (hnmax : nmax ≠ 0) (hmatching : Matching f args)
  (hlength : (text m f 0 args).length < 2 ^ 31)
  (hknown : Known m (nmax.toNat - 1) 0 f 0 args)

include hnmax hlength hknown

theorem snprintf_outcome (htwo : nmax ≠ 2) (before : Int → UInt8) :
    Outcome before (intOf nmax) (snprintf m before nmax (bytes f) args) (text m f 0 args)
      (closesText false f) := by
  have hint := intOf_cases hnmax
  have hne : intOf nmax ≠ 2 := by
    intro heq
    exact htwo (UInt32.toNat_inj.mp (by change nmax.toNat = 2; omega))
  have hroom : Room (intOf nmax) ([] : List UInt8).length := by
    unfold Room
    simp only [length_nil]
    omega
  refine vsnprintf_cases f hne (Out.Holds.start before) hroom 0 args ?_ hknown
  rw [nil_append]
  change _ ∨ _ ∧ (text m f 0 args).length ≤ _
  omega

omit hlength in
theorem snprintf_single (htwo : nmax = 2) (hstays : FirstStays m f 0 args) (before : Int → UInt8) :
    Single before (snprintf m before nmax (bytes f) args) (text m f 0 args)
      (closesText false f || 2 ≤ (text m f 0 args).length) := by
  subst htwo
  exact vsnprintf_single f (Single.start before) rfl rfl 0 args hknown hstays

end Calls

/-- A call that reaches no `u` and does not go on behind a text that has been cut off: it is a
`sprintf` with a limit, whatever the buffer held before, exactly if the text is cut off or its
last item is a directive other than `c`. The length of a text is an `int`. -/
theorem snprintf_bounded_iff {nmax : UInt32} (hnmax : nmax ≠ 0) (hmatching : Matching f args)
    (hlength : (text m f 0 args).length < 2 ^ 31)
    (hknown : Known m (nmax.toNat - 1) 0 f 0 args)
    (hstays : nmax = 2 → FirstStays m f 0 args) :
    (∀ before, Bounded (snprintf m before nmax (bytes f) args) nmax.toNat
        (sprintfText m before (bytes f) args)) ↔
      nmax.toNat ≤ (text m f 0 args).length ∨ closesText false f = true := by
  simp only [sprintfText_bytes]
  have hzero := zero_not_mem_text (m := m) hmatching 0
  constructor
  · intro hall
    by_contra hopen
    obtain ⟨hfits, hclosed⟩ := not_or.mp hopen
    rw [Bool.not_eq_true] at hclosed
    have hend := (hall fun _ => 1).terminated (by omega)
    have hkept :
        (snprintf m (fun _ => 1) nmax (bytes f) args).strout (text m f 0 args).length = 1 := by
      by_cases htwo : nmax = 2
      · have hsingle := snprintf_single hnmax hknown htwo (hstays htwo) fun _ => 1
        subst htwo
        have hshort : (text m f 0 args).length ≤ 1 := Nat.le_of_lt_succ (not_le.mp hfits)
        rw [hclosed, decide_eq_false (by omega)] at hsingle
        exact hsingle.kept rfl hshort
      · have hrun := snprintf_outcome hnmax hlength hknown htwo fun _ => 1
        rw [hclosed] at hrun
        exact kept_of_outcome hnmax hrun (by omega)
    exact absurd (hend.symm.trans hkept) (by decide)
  · intro hclosed before
    by_cases htwo : nmax = 2
    · have hsingle := snprintf_single hnmax hknown htwo (hstays htwo) before
      subst htwo
      have htrue : (closesText false f || 2 ≤ (text m f 0 args).length) = true := by
        rw [Bool.or_eq_true, decide_eq_true_eq]
        exact hclosed.symm
      rw [htrue] at hsingle
      exact bounded_of_single hzero hsingle
    · exact bounded_of_outcome hnmax hzero hlength
        (snprintf_outcome hnmax hlength hknown htwo before)
        hclosed

/-- Two numbers that fit; a number cut off in a buffer of three bytes, with a `u` behind it; and
one in a buffer of two bytes. -/
theorem snprintf_bounded_iff_numbers :
    let d := Item.directive none .d
    let u := Item.directive none .u
    Bounded (snprintf (fun _ => 0) (fun _ => 1) 16 (bytes [d, d]) [12, 34]) 16
        (sprintfText (fun _ => 0) (fun _ => 1) (bytes [d, d]) [12, 34]) ∧
      Bounded (snprintf (fun _ => 0) (fun _ => 1) 3 (bytes [d, u]) [1234, 5]) 3
        (sprintfText (fun _ => 0) (fun _ => 1) (bytes [d, u]) [1234, 5]) ∧
      Bounded (snprintf (fun _ => 0) (fun _ => 1) 2 (bytes [d]) [1234]) 2
        (sprintfText (fun _ => 0) (fun _ => 1) (bytes [d]) [1234]) := by
  have hc : ∀ i : UInt32, Kind.d = .c → i.toUInt8 ≠ 0 := fun _ h => absurd h (by decide)
  have hu : ∀ n : Nat, Kind.d = .u → n ≤ 0 := fun _ h => absurd h (by decide)
  refine ⟨?_, ?_, ?_⟩
  · refine (snprintf_bounded_iff (by decide) ?_ (by decide +kernel) ?_ ?_).mpr (.inr rfl) _
    · exact ⟨hc 12, hc 34, rfl⟩
    · exact ⟨hu 15, fun h => absurd h (by decide), trivial⟩
    · exact fun h => absurd h (by decide)
  · refine (snprintf_bounded_iff (by decide) ?_ (by decide +kernel) ?_ ?_).mpr (.inr rfl) _
    · exact ⟨hc 1234, fun h => absurd h (by decide), rfl⟩
    · exact ⟨hu 2, fun _ => by decide +kernel, trivial⟩
    · exact fun h => absurd h (by decide)
  · refine (snprintf_bounded_iff (by decide) ?_ (by decide +kernel) ?_ ?_).mpr (.inr rfl) _
    · exact ⟨hc 1234, rfl⟩
    · exact ⟨hu 1, trivial⟩
    · exact fun _ => .inr (.inl rfl)

/-- Three calls that do otherwise: `"%u"` writes nothing, `"a"` is not closed, and
`"%d%d"` in a buffer of two bytes leaves the first digit of the second number. -/
theorem snprintf_differs :
    ¬Bounded (snprintf (fun _ => 0) (fun _ => 1) 16 [0x25, 0x75] [7]) 16
        (sprintfText (fun _ => 0) (fun _ => 1) [0x25, 0x75] [7]) ∧
      ¬Bounded (snprintf (fun _ => 0) (fun _ => 1) 16 [0x61] []) 16
        (sprintfText (fun _ => 0) (fun _ => 1) [0x61] []) ∧
      ¬Bounded (snprintf (fun _ => 0) (fun _ => 1) 2 [0x25, 0x64, 0x25, 0x64] [12, 34]) 2
        (sprintfText (fun _ => 0) (fun _ => 1) [0x25, 0x64, 0x25, 0x64] [12, 34]) := by
  refine ⟨fun h => ?_, fun h => ?_, fun h => ?_⟩
  · exact absurd (h.terminated (by decide +kernel)) (by decide +kernel)
  · exact absurd (h.terminated (by decide +kernel)) (by decide +kernel)
  · exact absurd (h.first (by decide +kernel)) (by decide +kernel)

end HuyaOS.Libc
