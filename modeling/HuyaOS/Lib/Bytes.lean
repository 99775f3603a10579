import Mathlib.Tactic

/-!
A flat byte-addressed memory with little-endian words of 32 and 16 bits. The
lemmas say how a store is seen by a later load: at its own address it returns the
stored word, at a disjoint one it is invisible. Nothing here assumes alignment, so
overlapping words behave as they do on the hardware.
-/

namespace HuyaOS.Lib

variable {m' s : Mem} {dst src : Nat}

abbrev Mem := Nat → UInt8

def load32 (m : Mem) (a : Nat) : Nat :=
  (m a).toNat + 2 ^ 8 * (m (a + 1)).toNat + 2 ^ 16 * (m (a + 2)).toNat + 2 ^ 24 * (m (a + 3)).toNat

def store32 (m : Mem) (a v : Nat) : Mem := fun x =>
  if x = a then UInt8.ofNat v
  else if x = a + 1 then UInt8.ofNat (v / 2 ^ 8)
  else if x = a + 2 then UInt8.ofNat (v / 2 ^ 16)
  else if x = a + 3 then UInt8.ofNat (v / 2 ^ 24)
  else m x

def load16 (m : Mem) (a : Nat) : Nat := (m a).toNat + 2 ^ 8 * (m (a + 1)).toNat

def store16 (m : Mem) (a v : Nat) : Mem := fun x =>
  if x = a then UInt8.ofNat v
  else if x = a + 1 then UInt8.ofNat (v / 2 ^ 8)
  else m x

def overlay (m : Mem) (a n : Nat) (s : Mem) : Mem := fun x =>
  if a ≤ x ∧ x < a + n then s x else m x

/-- Copy `n` bytes from `src` to `dst`, lowest address first. -/
def copyBytes (m : Mem) (dst src : Nat) : Nat → Mem
  | 0 => m
  | n + 1 => fun x =>
      if x = dst + n then copyBytes m dst src n (src + n)
      else copyBytes m dst src n x

theorem load32_lt (m : Mem) (a : Nat) : load32 m a < 2 ^ 32 := by
  have h0 := (m a).toNat_lt
  have h1 := (m (a + 1)).toNat_lt
  have h2 := (m (a + 2)).toNat_lt
  have h3 := (m (a + 3)).toNat_lt
  unfold load32
  omega

variable {m : Mem} {a v x b n : Nat}

theorem load32_congr (h : ∀ x, a ≤ x → x < a + 4 → m' x = m x) : load32 m' a = load32 m a := by
  unfold load32
  rw [h a (by omega) (by omega), h (a + 1) (by omega) (by omega),
    h (a + 2) (by omega) (by omega), h (a + 3) (by omega) (by omega)]

theorem load32_within {d : Nat} (h : ∀ x, a ≤ x → x < a + n → m' x = m x) (hd : d + 4 ≤ n) :
    load32 m' (a + d) = load32 m (a + d) :=
  load32_congr fun x hlo hhi => h x (by omega) (by omega)

theorem load32_store32_self (m : Mem) (a v : Nat) : load32 (store32 m a v) a = v % 2 ^ 32 := by
  simp only [load32, store32, Nat.add_eq_left, Nat.add_right_inj, ↓reduceIte,
    OfNat.ofNat_ne_zero, one_ne_zero, OfNat.ofNat_ne_one, Nat.reduceEqDiff,
    UInt8.toNat_ofNat']
  omega

theorem store32_of_outside (h : x < a ∨ a + 4 ≤ x) : store32 m a v x = m x := by
  unfold store32
  rw [if_neg (by omega), if_neg (by omega), if_neg (by omega), if_neg (by omega)]

theorem load32_store32_of_disjoint (h : a + 4 ≤ b ∨ b + 4 ≤ a) :
    load32 (store32 m a v) b = load32 m b :=
  load32_congr fun _ hlo hhi => store32_of_outside (by omega)

theorem store32_comm {w : Nat} (h : a + 4 ≤ b ∨ b + 4 ≤ a) :
    store32 (store32 m a v) b w = store32 (store32 m b w) a v := by
  funext x
  by_cases hx : x < a ∨ a + 4 ≤ x
  · rw [store32_of_outside hx]
    unfold store32
    rw [if_neg (c := x = a) (by omega), if_neg (c := x = a + 1) (by omega),
      if_neg (c := x = a + 2) (by omega), if_neg (c := x = a + 3) (by omega)]
  · rw [store32_of_outside (by omega)]
    unfold store32
    rw [if_neg (c := x = b) (by omega), if_neg (c := x = b + 1) (by omega),
      if_neg (c := x = b + 2) (by omega), if_neg (c := x = b + 3) (by omega)]

theorem load16_congr (h : ∀ x, a ≤ x → x < a + 2 → m' x = m x) : load16 m' a = load16 m a := by
  unfold load16
  rw [h a (by omega) (by omega), h (a + 1) (by omega) (by omega)]

theorem load16_store16_self (m : Mem) (a v : Nat) : load16 (store16 m a v) a = v % 2 ^ 16 := by
  simp only [load16, store16, Nat.add_eq_left, ↓reduceIte, one_ne_zero, UInt8.toNat_ofNat']
  omega

theorem store16_of_outside (h : x < a ∨ a + 2 ≤ x) : store16 m a v x = m x := by
  unfold store16
  rw [if_neg (by omega), if_neg (by omega)]

theorem load16_store16_of_disjoint (h : a + 2 ≤ b ∨ b + 2 ≤ a) :
    load16 (store16 m a v) b = load16 m b :=
  load16_congr fun _ hlo hhi => store16_of_outside (by omega)

theorem load16_store32_of_disjoint (h : a + 4 ≤ b ∨ b + 2 ≤ a) :
    load16 (store32 m a v) b = load16 m b :=
  load16_congr fun _ hlo hhi => store32_of_outside (by omega)

theorem load16_update_of_outside {v : UInt8} (h : a < b ∨ b + 2 ≤ a) :
    load16 (Function.update m a v) b = load16 m b :=
  load16_congr fun _ hlo hhi => Function.update_of_ne (by omega) _ _

theorem overlay_of_outside (h : x < a ∨ a + n ≤ x) : overlay m a n s x = m x :=
  if_neg (by omega)

theorem overlay_of_inside (hlo : a ≤ x) (hhi : x < a + n) : overlay m a n s x = s x :=
  if_pos ⟨hlo, hhi⟩

theorem copyBytes_of_outside (h : x < dst ∨ dst + n ≤ x) : copyBytes m dst src n x = m x := by
  induction n with
  | zero => rfl
  | succ n ih =>
    unfold copyBytes
    rw [if_neg (by omega)]
    exact ih (by omega)

theorem copyBytes_of_inside {i : Nat} (hi : i < n) (hdisjoint : dst + n ≤ src ∨ src + n ≤ dst) :
    copyBytes m dst src n (dst + i) = m (src + i) := by
  induction n with
  | zero => omega
  | succ n ih =>
    unfold copyBytes
    by_cases hlast : i = n
    · subst hlast
      rw [if_pos rfl]
      exact copyBytes_of_outside (by omega)
    · rw [if_neg (by omega)]
      exact ih (by omega) (by omega)

end HuyaOS.Lib
