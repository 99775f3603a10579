import HuyaOS.Lib.Transition
import HuyaOS.Libc.CStrings

/-!
`flush` of `AnsiOutputStream`. An escape sequence may begin in one call and end in a later one, so
its bytes are kept in an array of 16. What a store behind the array overwrites is not modelled.
-/

namespace HuyaOS

open Lib Libc List

/-- The terminal colours from black to white. -/
structure TermColor where
  hue : Nat
  bright : Bool := false
  deriving DecidableEq

structure AnsiOutputStream where
  fgColor : TermColor := ⟨7, false⟩
  bgColor : TermColor := ⟨0, false⟩
  isEscapeActive : Bool := false
  currentEscapeCode : Nat → UInt8
  escapeCodeIndex : UInt8 := 0

namespace AnsiOutputStream

def ESCAPE : UInt8 := 0x1B

def ESCAPE_END : UInt8 := 0x6D

/-- A store into `currentEscapeCode`, and the calls of the text driver. -/
inductive Effect
  | store (index : UInt8)
  | show (fgColor bgColor : TermColor)
  | putc (c : UInt8) (fgColor bgColor : TermColor)
  deriving DecidableEq

def getColor (colorCode : Nat) (bright : Bool) : TermColor :=
  if colorCode / 10 ∈ [3, 4] ∧ colorCode % 10 < 8 then ⟨colorCode % 10, bright⟩
  else ⟨if colorCode < 40 then 7 else 0, false⟩

/-- A complete sequence selects a colour. -/
def select (s : AnsiOutputStream) (bright : Bool) : AnsiOutputStream :=
  let color := [s.currentEscapeCode 2, if 3 < s.escapeCodeIndex then s.currentEscapeCode 3 else 0]
  let colorCode := (strtoint (color.takeWhile (· ≠ 0))).toNat
  if colorCode = 0 then { s with fgColor := ⟨7, false⟩, bgColor := ⟨0, false⟩ }
  else if colorCode < 40 then { s with fgColor := getColor colorCode bright }
  else { s with bgColor := getColor colorCode bright }

/-- The body of the loop in `flush`. -/
def accept : AnsiOutputStream × Bool → UInt8 → (AnsiOutputStream × Bool) × List Effect
  | (s, bright), c =>
      if s.isEscapeActive || c = ESCAPE then
        if c = ESCAPE_END then
          let bright := bright || s.currentEscapeCode 4 = 0x3B
          (({ s.select bright with isEscapeActive := false, escapeCodeIndex := 0 }, bright), [])
        else
          (({ s with
              isEscapeActive := true
              currentEscapeCode := Function.update s.currentEscapeCode s.escapeCodeIndex.toNat c
              escapeCodeIndex := s.escapeCodeIndex + 1 }, bright), [.store s.escapeCodeIndex])
      else
        ((s, bright), (if c = 0x0A then [.show s.fgColor s.bgColor] else []) ++
          [.putc c s.fgColor s.bgColor])

def flush (s : AnsiOutputStream) (buffer : List UInt8) : AnsiOutputStream × List Effect :=
  let run := execute accept (s, false) buffer
  (run.1.1, run.2.flatten)

/-- An escape byte is followed by the end of its sequence before 16 other bytes. -/
def Ends (bytes : List UInt8) : Prop :=
  ∀ rest, ESCAPE :: rest <:+ bytes → 16 ≤ rest.length → ESCAPE_END ∈ rest.take 16

/-- All stores are inside the array. -/
def Small (effects : List Effect) : Prop := ∀ index, .store index ∈ effects → index < 16

/-- The bytes of a sequence that has begun are in the array. -/
structure Ready (s : AnsiOutputStream) : Prop where
  start : s.isEscapeActive = false → s.escapeCodeIndex = 0
  inside : s.isEscapeActive = true → s.escapeCodeIndex.toNat ≤ 16

/-- The bytes that come end the sequence that has begun before it leaves the array. -/
@[mk_iff]
structure Fits (s : AnsiOutputStream) (bytes : List UInt8) : Prop where
  ends : Ends bytes
  room : s.isEscapeActive = true → 16 < s.escapeCodeIndex.toNat + bytes.length →
    ESCAPE_END ∈ bytes.take (17 - s.escapeCodeIndex.toNat)

theorem ends_cons_iff {c : UInt8} {bytes : List UInt8} :
    Ends (c :: bytes) ↔ (c = ESCAPE → 16 ≤ bytes.length → ESCAPE_END ∈ bytes.take 16) ∧
      Ends bytes := by
  simp only [Ends, suffix_cons_iff, cons.injEq, or_imp, forall_and, and_imp]
  refine and_congr_left' ⟨fun h hc => h bytes hc.symm rfl, ?_⟩
  rintro h rest rfl rfl
  exact h rfl

theorem toNat_index_succ {index : UInt8} (h : index < 16) :
    (index + 1).toNat = index.toNat + 1 := by
  have hlt : index.toNat < 16 := UInt8.lt_iff_toNat_lt.mp h
  exact (UInt8.toNat_add _ _).trans (Nat.mod_eq_of_lt (by simp; omega))

namespace Ready

variable {s : AnsiOutputStream} (h : s.Ready) {c : UInt8} {bytes : List UInt8} {bright : Bool}

include h

theorem accept (hsmall : Small (accept (s, bright) c).2) : (accept (s, bright) c).1.1.Ready := by
  rw [AnsiOutputStream.accept] at hsmall ⊢
  split_ifs at hsmall ⊢ with hactive hend
  · exact ⟨fun _ => rfl, nofun⟩
  · have hindex : s.escapeCodeIndex < 16 := hsmall _ mem_cons_self
    refine ⟨nofun, fun _ => (toNat_index_succ hindex).trans_le ?_⟩
    exact UInt8.lt_iff_toNat_lt.mp hindex
  all_goals exact h

/-- A byte of the sequence fits if there is room for it, and the rest has one place less. -/
theorem fits_cons_of_stored (hactive : s.isEscapeActive = true ∨ c = ESCAPE)
    (hend : c ≠ ESCAPE_END) :
    s.Fits (c :: bytes) ↔ s.escapeCodeIndex.toNat < 16 ∧ Ends bytes ∧
      (16 ≤ s.escapeCodeIndex.toNat + bytes.length →
        ESCAPE_END ∈ bytes.take (16 - s.escapeCodeIndex.toNat)) := by
  rw [fits_iff, ends_cons_iff, length_cons]
  constructor
  · rintro ⟨⟨hfirst, hends⟩, hroom⟩
    cases hbefore : s.isEscapeActive with
    | false =>
      have hescape : c = ESCAPE := hactive.resolve_left (by simp [hbefore])
      rw [h.start hbefore]
      exact ⟨by decide, hends, fun hlength => hfirst hescape (by simpa using hlength)⟩
    | true =>
      have hinside := h.inside hbefore
      have hlt : s.escapeCodeIndex.toNat < 16 := by
        by_contra hfull
        have hmem := hroom hbefore (by omega)
        rw [show 17 - s.escapeCodeIndex.toNat =
          0 + 1 by omega, take_succ_cons, take_zero, mem_singleton] at hmem
        exact hend hmem.symm
      refine ⟨hlt, hends, fun hlength => ?_⟩
      have hmem := hroom hbefore (by omega)
      rw [show 17 - s.escapeCodeIndex.toNat =
        16 - s.escapeCodeIndex.toNat + 1 by omega, take_succ_cons] at hmem
      exact (mem_cons.mp hmem).resolve_left hend.symm
  · rintro ⟨hlt, hends, hroom⟩
    refine ⟨⟨fun _ hlength => ?_, hends⟩, fun _ hlength => ?_⟩
    · exact (take_subset_take_left bytes (Nat.sub_le 16 _)) (hroom (by omega))
    · rw [show 17 - s.escapeCodeIndex.toNat =
        16 - s.escapeCodeIndex.toNat + 1 by omega, take_succ_cons]
      exact mem_cons_of_mem c (hroom (by omega))

theorem fits_cons_iff : s.Fits (c :: bytes) ↔
    Small (AnsiOutputStream.accept (s, bright) c).2 ∧
      (AnsiOutputStream.accept (s, bright) c).1.1.Fits bytes := by
  rw [AnsiOutputStream.accept]
  split_ifs with hactive hend
  · -- the sequence ends
    have hescape : c ≠ ESCAPE := by
      rw [hend]
      decide
    have hbefore : s.isEscapeActive = true := by simpa [hescape] using hactive
    obtain ⟨room, hroom⟩ : ∃ room, 17 - s.escapeCodeIndex.toNat = room + 1 :=
      ⟨16 - s.escapeCodeIndex.toNat, by have := h.inside hbefore; omega⟩
    rw [fits_iff, fits_iff, ends_cons_iff, hroom, hend]
    simp [Small, ESCAPE_END, ESCAPE]
  · rw [h.fits_cons_of_stored (by simpa using hactive) hend, fits_iff]
    simp only [Small, mem_singleton, Effect.store.injEq, forall_eq, UInt8.lt_iff_toNat_lt,
      forall_const]
    refine and_congr_right fun hlt => and_congr_right fun _ => ?_
    rw [toNat_index_succ (UInt8.lt_iff_toNat_lt.mpr hlt)]
    have hleft : 17 - (s.escapeCodeIndex.toNat + 1) = 16 - s.escapeCodeIndex.toNat := by omega
    rw [hleft]
    exact imp_congr_left (by omega)
  all_goals
    obtain ⟨hinactive, hescape⟩ : s.isEscapeActive = false ∧ c ≠ ESCAPE := by simpa using hactive
    simp [fits_iff, ends_cons_iff, Small, hinactive, hescape]

/-- The calls of `flush` divide the bytes, but not the sequences. -/
theorem flush (buffer bytes : List UInt8) :
    (s.Fits (buffer ++ bytes) ↔ Small (s.flush buffer).2 ∧ (s.flush buffer).1.Fits bytes) ∧
      (Small (s.flush buffer).2 → (s.flush buffer).1.Ready) := by
  unfold AnsiOutputStream.flush
  generalize false = bright
  induction buffer generalizing s bright with
  | nil => exact ⟨(and_iff_right nofun).symm, fun _ => h⟩
  | cons c buffer ih =>
    have hsplit : Small (execute AnsiOutputStream.accept (s, bright) (c :: buffer)).2.flatten ↔
        Small (AnsiOutputStream.accept (s, bright) c).2 ∧
          Small (execute AnsiOutputStream.accept (AnsiOutputStream.accept (s, bright) c).1
            buffer).2.flatten := by
      simp only [Small, execute, flatten_cons, mem_append, or_imp, forall_and]
    rw [cons_append, h.fits_cons_iff, hsplit, and_assoc]
    by_cases hsmall : Small (AnsiOutputStream.accept (s, bright) c).2
    · obtain ⟨hfits, hready⟩ := ih (h.accept hsmall) (AnsiOutputStream.accept (s, bright) c).1.2
      exact ⟨and_congr_right fun _ => hfits, fun hall => hready hall.2⟩
    · exact ⟨iff_of_false (fun hall => hsmall hall.1) fun hall => hsmall hall.1,
        fun hall => absurd hall.1 hsmall⟩

theorem flushes (flushes : List (List UInt8)) :
    (∀ effects ∈ (execute AnsiOutputStream.flush s flushes).2, Small effects) ↔
      s.Fits flushes.flatten := by
  induction flushes generalizing s with
  | nil =>
    refine iff_of_true (fun effects heffects => absurd heffects not_mem_nil) ⟨?_, ?_⟩
    · exact fun rest hsuffix => absurd (suffix_nil.mp hsuffix) (cons_ne_nil _ _)
    · exact fun hactive hlength => absurd (h.inside hactive) (not_le.mpr hlength)
  | cons buffer flushes ih =>
    obtain ⟨hfits, hready⟩ := h.flush buffer flushes.flatten
    rw [flatten_cons, hfits]
    exact forall_mem_cons.trans (and_congr_right fun hsmall => ih (hready hsmall))

end Ready

/-- However the bytes are distributed over the calls, all stores are inside the array exactly if
every escape byte is followed by the end of its sequence. -/
theorem stores_inside_iff (currentEscapeCode : Nat → UInt8) (flushes : List (List UInt8)) :
    (∀ effects ∈ (execute flush { currentEscapeCode } flushes).2,
      ∀ index, .store index ∈ effects → index < 16) ↔ Ends flushes.flatten := by
  have hready : Ready { currentEscapeCode } := ⟨fun _ => rfl, nofun⟩
  rw [show Ends flushes.flatten ↔ Fits { currentEscapeCode } flushes.flatten from
    ⟨fun hends => ⟨hends, nofun⟩, Fits.ends⟩]
  exact hready.flushes flushes

/-- A sequence that two calls share. -/
theorem stores_inside_iff_shared :
    ∀ effects ∈ (execute flush { currentEscapeCode := fun _ => 0 }
      [[ESCAPE, 0x30], ESCAPE_END :: replicate 16 0x41]).2,
        ∀ index, .store index ∈ effects → index < 16 := by
  refine (stores_inside_iff _ _).mpr fun rest hsuffix _ => ?_
  rcases suffix_cons_iff.mp hsuffix with hwhole | hsuffix
  · simp [(cons.inj hwhole).2]
  · exact absurd (hsuffix.mem mem_cons_self) (by decide)

/-- A sequence that does not end. -/
theorem store_behind_array :
    .store 16 ∈ (flush { currentEscapeCode := fun _ => 0 } (ESCAPE :: replicate 16 0x30)).2 := by
  decide

end AnsiOutputStream

end HuyaOS
