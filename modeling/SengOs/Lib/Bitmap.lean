import Mathlib.Data.Finset.Erase
import Mathlib.Data.Finset.Insert
import Mathlib.Data.Finset.Range
import Mathlib.Data.Finset.Filter
import Mathlib.Logic.Function.Basic
import Mathlib.Tactic.Common

/-!
# Bitmaps in an array of words

Bit `n` of a bitmap over `w`-bit words is bit `n % w` of word `n / w`. `test`, `set` and
`clear` are the usual shift-and-mask expressions; `test_set` and `test_clear` say that
they read and write one bit and nothing else.
-/

namespace SengOs.Bitmap

variable {w : Nat}

/-- `(map[n / w] >> (n % w)) & 1` -/
def test (map : Nat → BitVec w) (n : Nat) : Bool :=
  ((map (n / w) >>> (n % w)) &&& 1#w) != 0#w

/-- The word `map[n / w] | (1 << (n % w))`. -/
def setWord (map : Nat → BitVec w) (n : Nat) : BitVec w :=
  map (n / w) ||| (1#w <<< (n % w))

/-- The word `map[n / w] & ~(1 << (n % w))`. -/
def clearWord (map : Nat → BitVec w) (n : Nat) : BitVec w :=
  map (n / w) &&& ~~~(1#w <<< (n % w))

def set (map : Nat → BitVec w) (n : Nat) : Nat → BitVec w :=
  Function.update map (n / w) (setWord map n)

def clear (map : Nat → BitVec w) (n : Nat) : Nat → BitVec w :=
  Function.update map (n / w) (clearWord map n)

theorem test_eq_getLsbD (hw : 0 < w) (map : Nat → BitVec w) (n : Nat) :
    test map n = (map (n / w)).getLsbD (n % w) := by
  have hone : ∀ x : BitVec w, (x &&& 1#w != 0#w) = x.getLsbD 0 := by
    intro x
    cases hx : x.getLsbD 0 with
    | false =>
      have hzero : x &&& 1#w = 0#w := by
        apply BitVec.eq_of_getLsbD_eq
        intro i hi
        by_cases hi0 : i = 0
        · subst hi0; simp [hx]
        · simp [hi0]
      simp [hzero]
    | true =>
      have hne : x &&& 1#w ≠ 0#w := by
        intro h
        have h0 : (x &&& 1#w).getLsbD 0 = false := by rw [h, BitVec.getLsbD_zero]
        rw [BitVec.getLsbD_and, BitVec.getLsbD_one, hx] at h0
        simp [hw] at h0
      simpa using hne
  rw [test, hone, BitVec.getLsbD_ushiftRight, Nat.add_zero]

theorem getLsbD_setWord (hw : 0 < w) (map : Nat → BitVec w) (n j : Nat) :
    (setWord map n).getLsbD j = (decide (j = n % w) || (map (n / w)).getLsbD j) := by
  have hn : n % w < w := Nat.mod_lt n hw
  rw [setWord, BitVec.getLsbD_or, BitVec.getLsbD_shiftLeft, BitVec.getLsbD_one]
  by_cases hj : j = n % w
  · subst hj; simp [hn, hw]
  · by_cases hlt : j < n % w
    · simp [hj, hlt]
    · have hsub : j - n % w ≠ 0 := by omega
      simp [hj, hsub]

theorem getLsbD_clearWord (hw : 0 < w) (map : Nat → BitVec w) (n j : Nat) :
    (clearWord map n).getLsbD j = (!decide (j = n % w) && (map (n / w)).getLsbD j) := by
  have hn : n % w < w := Nat.mod_lt n hw
  rw [clearWord, BitVec.getLsbD_and, BitVec.getLsbD_not, BitVec.getLsbD_shiftLeft,
    BitVec.getLsbD_one]
  by_cases hj : j = n % w
  · subst hj; simp [hn, hw]
  · by_cases hjw : j < w
    · by_cases hlt : j < n % w
      · simp [hj, hlt, hjw]
      · have hsub : j - n % w ≠ 0 := by omega
        simp [hj, hsub, hjw]
    · simp [BitVec.getLsbD_of_ge _ _ (Nat.le_of_not_lt hjw)]

theorem div_mod_ext {n k : Nat} (hd : k / w = n / w) (hm : k % w = n % w) : k = n := by
  rw [← Nat.div_add_mod k w, ← Nat.div_add_mod n w, hd, hm]

@[simp] theorem test_set (hw : 0 < w) (map : Nat → BitVec w) (n k : Nat) :
    test (set map n) k = (decide (k = n) || test map k) := by
  rw [test_eq_getLsbD hw, test_eq_getLsbD hw, set]
  by_cases hd : k / w = n / w
  · rw [hd, Function.update_self, getLsbD_setWord hw]
    congr 1
    exact decide_eq_decide.mpr ⟨fun hm => div_mod_ext hd hm, fun h => by rw [h]⟩
  · have hne : k ≠ n := fun h => hd (by rw [h])
    simp [Function.update_of_ne hd, hne]

@[simp] theorem test_clear (hw : 0 < w) (map : Nat → BitVec w) (n k : Nat) :
    test (clear map n) k = (!decide (k = n) && test map k) := by
  rw [test_eq_getLsbD hw, test_eq_getLsbD hw, clear]
  by_cases hd : k / w = n / w
  · rw [hd, Function.update_self, getLsbD_clearWord hw]
    congr 2
    exact decide_eq_decide.mpr ⟨fun hm => div_mod_ext hd hm, fun h => by rw [h]⟩
  · have hne : k ≠ n := fun h => hd (by rw [h])
    simp [Function.update_of_ne hd, hne]

/-- A bit depends on its own word only. -/
theorem test_congr {map map' : Nat → BitVec w} {n : Nat} (h : map (n / w) = map' (n / w)) :
    test map n = test map' n := by
  rw [test, test, h]

/-- A word is determined by its bits. -/
theorem word_eq_of_test (hw : 0 < w) (map map' : Nat → BitVec w) {k : Nat}
    (h : ∀ j < w, test map (w * k + j) = test map' (w * k + j)) : map k = map' k := by
  apply BitVec.eq_of_getLsbD_eq
  intro j hj
  have hbit := h j hj
  rwa [test_eq_getLsbD hw, test_eq_getLsbD hw, Nat.mul_add_div hw, Nat.div_eq_of_lt hj,
    Nat.add_zero, Nat.mul_add_mod, Nat.mod_eq_of_lt hj] at hbit

/-- Clearing a bit undoes setting it when it was clear. -/
theorem clear_set (hw : 0 < w) (map : Nat → BitVec w) {n : Nat} (hn : test map n = false) :
    clear (set map n) n = map := by
  funext i
  unfold clear
  rcases eq_or_ne i (n / w) with rfl | hi
  · rw [Function.update_self]
    apply BitVec.eq_of_getLsbD_eq
    intro j _
    rw [getLsbD_clearWord hw, set, Function.update_self, getLsbD_setWord hw]
    rcases eq_or_ne j (n % w) with rfl | hj
    · rw [← test_eq_getLsbD hw, hn]
      simp
    · simp [hj]
  · rw [Function.update_of_ne hi, set, Function.update_of_ne hi]

/-! ## The clear bits -/

/-- The indices below `n` whose bit is clear. -/
def zeros (map : Nat → BitVec w) (n : Nat) : Finset Nat :=
  (Finset.range n).filter fun k => test map k = false

theorem mem_zeros {map : Nat → BitVec w} {n k : Nat} :
    k ∈ zeros map n ↔ k < n ∧ test map k = false := by
  rw [zeros, Finset.mem_filter, Finset.mem_range]

theorem zeros_clear (hw : 0 < w) (map : Nat → BitVec w) {n k : Nat} (hk : k < n) :
    zeros (clear map k) n = insert k (zeros map n) := by
  ext j
  rw [Finset.mem_insert, mem_zeros, mem_zeros, test_clear hw]
  by_cases hj : j = k
  · subst hj; simp [hk]
  · simp [hj]

theorem zeros_set (hw : 0 < w) (map : Nat → BitVec w) (n k : Nat) :
    zeros (set map k) n = (zeros map n).erase k := by
  ext j
  rw [Finset.mem_erase, mem_zeros, mem_zeros, test_set hw]
  by_cases hj : j = k
  · subst hj; simp
  · simp [hj]

end SengOs.Bitmap
