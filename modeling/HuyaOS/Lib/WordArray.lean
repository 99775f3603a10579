import HuyaOS.Lib.Bytes

/-!
Arrays of 32-bit words in byte memory. An array is given by its address; two
arrays of the same length are apart when they do not overlap, and then a write
to one of them is invisible to the other.
-/

namespace HuyaOS.Lib

def getWord (m : Mem) (a i : Nat) : Nat := load32 m (a + 4 * i)

def setWord (m : Mem) (a i v : Nat) : Mem := store32 m (a + 4 * i) v

def clear (m : Mem) (a n : Nat) : Mem := overlay m a n (fun _ => 0)

def Apart (n a b : Nat) : Prop := a + 4 * n ≤ b ∨ b + 4 * n ≤ a

section WordArray

variable {m : Mem} {n a b i j v : Nat}

theorem Apart.symm (h : Apart n a b) : Apart n b a := Or.symm h

theorem getWord_lt : getWord m a i < 2 ^ 32 := load32_lt _ _

@[simp] theorem getWord_setWord_self : getWord (setWord m a i v) a i = v % 2 ^ 32 :=
  load32_store32_self _ _ _

theorem getWord_setWord_ne (h : i ≠ j) : getWord (setWord m a i v) a j = getWord m a j :=
  load32_store32_of_disjoint (by omega)

theorem getWord_setWord_apart (h : Apart n a b) (hi : i < n) (hj : j < n) :
    getWord (setWord m a i v) b j = getWord m b j :=
  load32_store32_of_disjoint (by unfold Apart at h; omega)

theorem getWord_clear_apart {k : Nat} (h : Apart n a b) (hj : j < n) (hk : k ≤ 4 * n) :
    getWord (clear m a k) b j = getWord m b j :=
  load32_congr fun _ hlo hhi => overlay_of_outside (by unfold Apart at h; omega)

theorem getWord_clear_inside {k : Nat} (hlo : a ≤ b + 4 * j) (hhi : b + 4 * j + 4 ≤ a + k) :
    getWord (clear m a k) b j = 0 := by
  unfold getWord load32 clear
  rw [overlay_of_inside (by omega) (by omega), overlay_of_inside (by omega) (by omega),
    overlay_of_inside (by omega) (by omega), overlay_of_inside (by omega) (by omega)]
  rfl

theorem clear_clear (m : Mem) (a k : Nat) : clear (clear m a k) a k = clear m a k := by
  funext x
  unfold clear overlay
  split <;> rfl

end WordArray

end HuyaOS.Lib
