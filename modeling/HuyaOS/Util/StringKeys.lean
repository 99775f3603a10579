import HuyaOS.Util.HashMapRuns
import HuyaOS.Util.StringRuns

/-!
Hash maps whose keys are strings, or pairs of an address and a string. C strings are
told apart by their characters, so the numbers that keys are cast to do not matter.
-/

namespace HuyaOS

open Lib

theorem wellFormed_beq {a b : String} (ha : a.WellFormed) (hb : b.WellFormed) :
    (a == b) = true ↔ a = b := by
  rw [String.beq_of_equals (ha.equals hb), beq_iff_eq]
  constructor
  · intro h
    rw [ha.eq_ofChars, hb.eq_ofChars, h]
  · rintro rfl
    rfl

theorem stringTest (code : String → Nat) : KeyTest String.WellFormed code :=
  .of_eq wellFormed_beq code

/-- `Pair<T*, String>` -/
theorem wellFormed_pair_beq {a b : Nat × String} (ha : a.2.WellFormed) (hb : b.2.WellFormed) :
    (a == b) = true ↔ a = b := by
  change (a.1 == b.1 && a.2 == b.2) = true ↔ a = b
  rw [Bool.and_eq_true, beq_iff_eq, wellFormed_beq ha hb, Prod.ext_iff]

theorem pairTest (code : Nat × String → Nat) :
    KeyTest (fun k : Nat × String => k.2.WellFormed) code :=
  .of_eq wellFormed_pair_beq code

theorem represents_put_chars {V : Type} {code : String → Nat} {map : HashMap String V}
    {m : List UInt8 → Option V}
    (h : HashMap.Represents String.WellFormed code map fun s => m s.chars) {chars : List UInt8}
    (hchars : 0 ∉ chars) (value : V) :
    HashMap.Represents String.WellFormed code (map.put code (.ofChars chars) value) fun s =>
      PartialMap.insert m chars value s.chars := by
  have hwell : (String.ofChars chars).WellFormed := String.wellFormed_ofChars.mpr hchars
  have hput := h.put (stringTest code) hwell value
  refine ⟨hput.size_pos, hput.chained, fun k hk => (hput.lookup k hk).trans ?_⟩
  have hkey : (k == String.ofChars chars) = (k.chars == chars) := by
    rw [Bool.eq_iff_iff, wellFormed_beq hk hwell, beq_iff_eq]
    exact ⟨fun heq => heq ▸ rfl, fun heq => heq ▸ hk.eq_ofChars⟩
  rw [PartialMap.insert, PartialMap.insert, hkey]

section Keys

variable {V : Type} {code : String → Nat} {map : HashMap String V} {m : String → Option V}
  (hm : HashMap.Represents String.WellFormed code map m)

include hm

theorem mem_keySet_iff {key : String} :
    key ∈ map.keySet ↔ key.WellFormed ∧ (m key).isSome = true := by
  constructor
  · intro hmem
    have hkey := hm.used_of_mem_keySet hmem
    exact ⟨hkey, (hm.isSome_iff (stringTest code) hkey).mpr ⟨key, hmem,
      (wellFormed_beq hkey hkey).mpr rfl⟩⟩
  · rintro ⟨hkey, hsome⟩
    obtain ⟨k, hmem, heq⟩ := (hm.isSome_iff (stringTest code) hkey).mp hsome
    exact (wellFormed_beq (hm.used_of_mem_keySet hmem) hkey).mp heq ▸ hmem

theorem nodup_keySet : map.keySet.Nodup := by
  rw [List.nodup_iff_sublist]
  intro key hsub
  have hkey := hm.used_of_mem_keySet (hsub.subset List.mem_cons_self)
  have hself : (key == key) = true := (wellFormed_beq hkey hkey).mpr rfl
  have hcount := hsub.countP_le (p := (· == key))
  have htwo : [key, key].countP (· == key) = 2 := by simp [hself]
  rw [hm.countP_keySet (stringTest code) hkey] at hcount
  split at hcount <;> omega

end Keys

end HuyaOS
