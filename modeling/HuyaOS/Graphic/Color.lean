import Mathlib.Tactic
import Mathlib.Logic.Function.Basic

/-!
`Color`: four components, and a cached value for every encoding. The caches are signed fields, in
which -1 stands for an empty cache. A value whose bits are all set looks empty and is calculated
again, so no cache ever holds a wrong value. The encodings lose information, but only two of the
ways from a value to a colour and back do.
-/

namespace HuyaOS

open Nat

/-- The encodings, named after the cached fields. -/
inductive Encoding
  | rgb32
  | rgb24
  | rgb16
  | rgb15
  | rgb8
  | rgb4
  | rgb2
  | rgb1
  deriving DecidableEq

namespace Encoding

/-- The width of the cached field, which is also that of the value. -/
def field : Encoding → Nat
  | rgb32 | rgb24 => 32
  | rgb16 | rgb15 => 16
  | rgb8 | rgb4 | rgb2 | rgb1 => 8

def depth : Encoding → Nat
  | rgb32 => 32
  | rgb24 => 24
  | rgb16 => 16
  | rgb15 => 15
  | rgb8 => 8
  | rgb4 => 4
  | rgb2 => 2
  | rgb1 => 1

/-- `switch (depth)`, whose default is the case of 32 bits -/
def ofDepth (depth : Nat) : Encoding :=
  ([rgb24, rgb16, rgb15, rgb8, rgb4, rgb2, rgb1].find? fun e => e.depth = depth).getD rgb32

end Encoding

open Encoding

structure Components where
  red : UInt8
  green : UInt8
  blue : UInt8
  alpha : UInt8

namespace Components

/-- `calcRGB4`, with its special cases for gray and light gray -/
def calcRGB4 (red green blue : Nat) : Nat :=
  let ret := blue >>> 7 ||| (green >>> 7) <<< 1 ||| (red >>> 7) <<< 2
  let brightness := (red + green + blue) / 3
  if ret = 0 ∧ 42 < brightness then ret + 8
  else if ret = 7 ∧ brightness < 212 then ret
  else if 127 < brightness then ret + 8
  else ret

def calcRGB2 (red green blue : Nat) : Nat :=
  let (red, green, blue) := (red >>> 7, green >>> 7, blue >>> 7)
  if blue = 0 ∧ green = 0 ∧ red = 0 then 0
  else if (blue ≠ 0 ∨ green ≠ 0) ∧ red = 0 then 1
  else if (blue ≠ 0 ∨ red ≠ 0) ∧ green = 0 then 2
  else 3

/-- `calcRGB32` to `calcRGB1`. The result is cast to the type of the value. -/
def calcRGB (e : Encoding) (c : Components) : Nat :=
  let (red, green, blue) := (c.red.toNat, c.green.toNat, c.blue.toNat)
  (match e with
    | rgb32 => c.alpha.toNat <<< 24 + red <<< 16 + green <<< 8 + blue
    | rgb24 => red <<< 16 + green <<< 8 + blue
    | rgb16 => blue >>> 3 ||| (green >>> 2) <<< 5 ||| (red >>> 3) <<< 11
    | rgb15 => blue >>> 3 ||| (green >>> 3) <<< 5 ||| (red >>> 3) <<< 10
    | rgb8 => blue >>> 6 ||| (green >>> 5) <<< 2 ||| (red >>> 5) <<< 5
    | rgb4 => calcRGB4 red green blue
    | rgb2 => calcRGB2 red green blue
    | rgb1 => if red >>> 7 ≠ 0 ∨ green >>> 7 ≠ 0 ∨ blue >>> 7 ≠ 0 then 1 else 0) % 2 ^ e.field

def ofRGB (e : Encoding) (rgb : Nat) : Components :=
  match e with
  | rgb32 =>
      ⟨.ofNat (rgb >>> 16), .ofNat ((rgb &&& 65280) >>> 8), .ofNat (rgb &&& 255),
        .ofNat (rgb >>> 24)⟩
  | rgb24 => ⟨.ofNat (rgb >>> 16), .ofNat ((rgb &&& 65280) >>> 8), .ofNat (rgb &&& 255), 255⟩
  | rgb16 => ⟨.ofNat ((rgb >>> 11) * (256 / 32)), .ofNat (((rgb &&& 2016) >>> 5) * (256 / 64)),
      .ofNat ((rgb &&& 31) * (256 / 32)), 255⟩
  | rgb15 => ⟨.ofNat ((rgb >>> 10) * (256 / 32)), .ofNat (((rgb &&& 992) >>> 5) * (256 / 32)),
      .ofNat ((rgb &&& 31) * (256 / 32)), 255⟩
  | rgb8 => ⟨.ofNat ((rgb >>> 5) * (256 / 8)), .ofNat (((rgb &&& 28) >>> 2) * (256 / 8)),
      .ofNat ((rgb &&& 3) * (256 / 4)), 255⟩
  | rgb4 =>
      if rgb &&& 8 ≠ 0 then ⟨85, 85, 85, 255⟩
      else ⟨if rgb &&& 4 ≠ 0 then 170 else 0, if rgb &&& 2 ≠ 0 then 170 else 0,
        if rgb &&& 1 ≠ 0 then 170 else 0, 255⟩
  | rgb2 => ⟨if rgb &&& 2 ≠ 0 then 170 else 0, if rgb &&& 1 ≠ 0 then 170 else 0,
      if rgb &&& 1 ||| rgb &&& 2 ≠ 0 then 170 else 0, 255⟩
  | rgb1 => let red := if rgb ≠ 0 then 255 else 0; ⟨red, red, red, 255⟩

end Components

structure Color extends Components where
  cache : Encoding → Int

namespace Color

open Components

/-- New components and `invalidate`; also what a constructor leaves behind. -/
def fresh (c : Components) : Color := { c with cache := fun _ => -1 }

/-- `Color(rgb, depth)`. The value is cast to the parameter type of the setter. -/
def ofRGB (rgb depth : Nat) : Color :=
  fresh (.ofRGB (ofDepth depth) (rgb % 2 ^ (ofDepth depth).field))

/-- `setRGB(rgb, depth)`. The case of 32 bits has no `break` and goes on with that of 24 bits. -/
def setRGB (_ : Color) (rgb depth : Nat) : Color :=
  if depth = 32 then fresh (.ofRGB rgb24 rgb)
  else fresh (.ofRGB (ofDepth depth) (rgb % 2 ^ (ofDepth depth).field))

def getRGB (c : Color) (e : Encoding) : Nat × Color :=
  let cell := if c.cache e = -1 then (calcRGB e c.toComponents : Int).bmod (2 ^ e.field)
    else c.cache e
  ((cell % (2 ^ e.field : Nat)).toNat, { c with cache := Function.update c.cache e cell })

def getColorForDepth (c : Color) (depth : Nat) : Nat × Color := c.getRGB (ofDepth depth)

/-- What can be called. The copy of the other colour that `blendWith` gets is only read. -/
inductive Op
  | setRed (red : UInt8)
  | setGreen (green : UInt8)
  | setBlue (blue : UInt8)
  | setAlpha (alpha : UInt8)
  | setRGB (red green blue : UInt8)
  | setRGBA (red green blue alpha : UInt8)
  | setRGBForDepth (rgb depth : Nat)
  | setRGBn (e : Encoding) (rgb : Nat)
  | blendWith (color : Components)
  | getRGB (e : Encoding)

/-- `mix` is the result of the floating-point arithmetic in `blendWith`. `setRGBA` does not use its
last argument. -/
def exec (mix : Components → Components → Components) (c : Color) : Op → Color
  | .setRed red => fresh { c.toComponents with red }
  | .setGreen green => fresh { c.toComponents with green }
  | .setBlue blue => fresh { c.toComponents with blue }
  | .setAlpha alpha => fresh { c.toComponents with alpha }
  | .setRGB red green blue => fresh { c.toComponents with red, green, blue }
  | .setRGBA red green blue _ => fresh ⟨red, green, blue, 0⟩
  | .setRGBForDepth rgb depth => c.setRGB rgb depth
  | .setRGBn e rgb => fresh (.ofRGB e rgb)
  | .blendWith color =>
      if color.alpha = 0 then c
      else if c.alpha = 0 ∨ color.alpha = 255 then fresh color
      else fresh (mix c.toComponents color)
  | .getRGB e => (c.getRGB e).2

/-- A cache is empty or holds the value, as a number of the type of the field. -/
def Coherent (c : Color) : Prop :=
  ∀ e, c.cache e = -1 ∨ c.cache e = (calcRGB e c.toComponents : Int).bmod (2 ^ e.field)

theorem coherent_fresh (c : Components) : (fresh c).Coherent := fun _ => .inl rfl

section

variable {c : Color} (h : c.Coherent)

include h

/-- The field after a call, whether or not its content looked empty. -/
theorem Coherent.cell (e : Encoding) :
    (if c.cache e = -1 then (calcRGB e c.toComponents : Int).bmod (2 ^ e.field) else c.cache e) =
      (calcRGB e c.toComponents : Int).bmod (2 ^ e.field) := by
  split
  · rfl
  · exact (h e).resolve_left ‹_›

theorem Coherent.getRGB_fst (e : Encoding) : (c.getRGB e).1 = calcRGB e c.toComponents := by
  have hlt : calcRGB e c.toComponents < 2 ^ e.field := Nat.mod_lt _ (Nat.two_pow_pos _)
  unfold getRGB
  dsimp only
  rw [h.cell, Int.bmod_emod, ← Int.natCast_mod, Int.toNat_natCast, Nat.mod_eq_of_lt hlt]

theorem Coherent.getRGB_snd (e : Encoding) : (c.getRGB e).2.Coherent := by
  intro e'
  by_cases heq : e' = e
  · subst heq
    exact .inr ((Function.update_self ..).trans (h.cell e'))
  · have hother : (c.getRGB e).2.cache e' = c.cache e' := Function.update_of_ne heq ..
    rw [hother]
    exact h e'

theorem Coherent.exec (mix : Components → Components → Components) (op : Op) :
    (c.exec mix op).Coherent := by
  cases op with
  | getRGB e => exact h.getRGB_snd e
  | blendWith color =>
    rw [Color.exec]
    split_ifs
    · exact h
    all_goals exact coherent_fresh _
  | setRGBForDepth rgb depth =>
    rw [Color.exec, Color.setRGB]
    split_ifs <;> exact coherent_fresh _
  | _ => exact coherent_fresh _

end

/-- After any calls, a getter returns what it would calculate. -/
theorem getRGB_eq_calcRGB (mix : Components → Components → Components) (c : Components)
    (ops : List Op) (e : Encoding) :
    ((ops.foldl (exec mix) (fresh c)).getRGB e).1 =
      calcRGB e (ops.foldl (exec mix) (fresh c)).toComponents := by
  apply Coherent.getRGB_fst
  exact List.foldlRecOn ops (exec mix) (coherent_fresh c) fun c h op _ => h.exec mix op

theorem or_shiftLeft_or_shiftLeft {a b i k : Nat} (ha : a < 2 ^ i) (hb : a + b * 2 ^ i < 2 ^ k)
    (c : Nat) :
    a ||| b <<< i ||| c <<< k = a + b * 2 ^ i + c * 2 ^ k := by
  have hlow : a ||| b <<< i = a + b * 2 ^ i := by
    rw [Nat.or_comm, ← Nat.shiftLeft_add_eq_or_of_lt ha, Nat.shiftLeft_eq, Nat.add_comm]
  rw [hlow, Nat.or_comm, ← Nat.shiftLeft_add_eq_or_of_lt hb, Nat.shiftLeft_eq, Nat.add_comm]

theorem and_div (rgb i k : Nat) : (rgb &&& (2 ^ k - 1) <<< i) / 2 ^ i = rgb / 2 ^ i % 2 ^ k := by
  rw [← shiftRight_eq_div_pow, shiftRight_and_distrib, shiftLeft_shiftRight,
    and_two_pow_sub_one_eq_mod, shiftRight_eq_div_pow]

section

variable (rgb : Nat)

theorem green_bits :
    (rgb &&& 65280) / 2 ^ 8 = rgb / 256 % 256 ∧ (rgb &&& 2016) / 2 ^ 5 = rgb / 32 % 64 ∧
    (rgb &&& 992) / 2 ^ 5 = rgb / 32 % 32 ∧ (rgb &&& 28) / 2 ^ 2 = rgb / 4 % 8 :=
  ⟨and_div rgb 8 8, and_div rgb 5 6, and_div rgb 5 5, and_div rgb 2 3⟩

theorem blue_bits : rgb &&& 255 = rgb % 256 ∧ rgb &&& 31 = rgb % 32 ∧ rgb &&& 3 = rgb % 4 :=
  ⟨and_two_pow_sub_one_eq_mod rgb 8, and_two_pow_sub_one_eq_mod rgb 5,
    and_two_pow_sub_one_eq_mod rgb 2⟩

end

theorem calcRGB_ofRGB {rgb : Nat} (e : Encoding) (h : rgb < 2 ^ e.depth) :
    calcRGB e (.ofRGB e rgb) = rgb ↔ (e = rgb4 → rgb ≤ 8) := by
  cases e with
  | rgb4 | rgb2 | rgb1 =>
    revert rgb
    decide
  | rgb32 | rgb24 =>
    refine iff_of_true ?_ nofun
    simp only [calcRGB, Components.ofRGB, green_bits, blue_bits, UInt8.toNat_ofNat',
      shiftRight_eq_div_pow, Nat.shiftLeft_eq, field, depth] at h ⊢
    omega
  | rgb16 | rgb15 | rgb8 =>
    refine iff_of_true ?_ nofun
    simp only [calcRGB, Components.ofRGB, green_bits, blue_bits, UInt8.toNat_ofNat',
      shiftRight_eq_div_pow, field, depth] at h ⊢
    rw [or_shiftLeft_or_shiftLeft (by omega) (by omega)]
    omega

/-- Without a `break`, the first eight bits are lost. -/
theorem calcRGB_ofRGB24 {rgb : Nat} (h : rgb < 2 ^ 32) :
    calcRGB rgb32 (.ofRGB rgb24 rgb) = rgb ↔ rgb / 2 ^ 24 = 255 := by
  have halpha : (255 : UInt8).toNat = 255 := rfl
  simp only [calcRGB, Components.ofRGB, green_bits, blue_bits, UInt8.toNat_ofNat',
    shiftRight_eq_div_pow, Nat.shiftLeft_eq, field, halpha]
  omega

/-- A value is read back from the colour that it was made into, except for bright values of four
bits, and except for the alpha of a value of 32 bits that is set. -/
theorem getColorForDepth_iff {rgb : Nat} (e : Encoding) (h : rgb < 2 ^ e.depth) :
    (((ofRGB rgb e.depth).getColorForDepth e.depth).1 = rgb ∧
        ∀ c : Color, ((c.setRGB rgb e.depth).getColorForDepth e.depth).1 = rgb) ↔
      (e = rgb4 → rgb ≤ 8) ∧ (e = rgb32 → rgb / 2 ^ 24 = 255) := by
  have hdepth : ofDepth e.depth = e := by cases e <;> rfl
  have hle : e.depth ≤ e.field := by cases e <;> decide
  have hcast : rgb % 2 ^ e.field = rgb :=
    Nat.mod_eq_of_lt (h.trans_le (Nat.pow_le_pow_right Nat.two_pos hle))
  have hfresh : ∀ c, ((fresh c).getColorForDepth e.depth).1 = calcRGB e c := fun c => by
    rw [getColorForDepth, hdepth]
    exact (coherent_fresh c).getRGB_fst e
  unfold ofRGB setRGB
  rw [hdepth, hcast, hfresh, calcRGB_ofRGB e h]
  by_cases h32 : e = rgb32
  · subst h32
    rw [if_pos (show rgb32.depth = 32 from rfl), hfresh, calcRGB_ofRGB24 h]
    exact and_congr_right fun _ => ⟨fun hset _ => hset (fresh ⟨0, 0, 0, 0⟩), fun hset _ => hset rfl⟩
  · have hne : e.depth ≠ 32 := by
      cases e <;> first | decide | exact absurd rfl h32
    rw [if_neg hne, hfresh, calcRGB_ofRGB e h]
    exact and_congr_right fun hmade => iff_of_true (fun _ => hmade) fun heq => absurd heq h32

theorem getColorForDepth_iff_gray :
    ((ofRGB 8 4).getColorForDepth 4).1 = 8 ∧ ∀ c : Color,
      ((c.setRGB 8 4).getColorForDepth 4).1 = 8 :=
  (getColorForDepth_iff rgb4 (by decide)).mpr (by decide)

/-- A bright blue becomes gray, and a value without alpha becomes opaque. -/
theorem getColorForDepth_differs : ((ofRGB 9 4).getColorForDepth 4).1 = 8 ∧
    (((fresh ⟨0, 0, 0, 0⟩).setRGB 0 32).getColorForDepth 32).1 = 0xFF000000 := by
  decide

end Color

end HuyaOS
