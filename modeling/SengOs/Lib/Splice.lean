import Mathlib.Data.List.Basic
import Mathlib.Tactic.Common

/-!
# Overwriting part of a list

`splice l off xs` is the content `l` after the bytes `xs` were written at offset `off`: they
overwrite what was there and extend the content where they run past its end. Writing in two
pieces is writing once (`splice_splice`).
-/

namespace SengOs

variable {α : Type*}

def splice (l : List α) (off : Nat) (xs : List α) : List α :=
  l.take off ++ xs ++ l.drop (off + xs.length)

theorem length_splice {l : List α} {off : Nat} (h : off ≤ l.length) (xs : List α) :
    (splice l off xs).length = max l.length (off + xs.length) := by
  simp only [splice, List.length_append, List.length_take, List.length_drop]
  omega

theorem getElem?_splice {l : List α} {off : Nat} (h : off ≤ l.length) (xs : List α) (p : Nat) :
    (splice l off xs)[p]? =
      if off ≤ p ∧ p < off + xs.length then xs[p - off]? else l[p]? := by
  have htake : (l.take off).length = off := by simp [h]
  have hpre : (l.take off ++ xs).length = off + xs.length := by
    rw [List.length_append, htake]
  unfold splice
  by_cases hlt : p < off
  · rw [if_neg (by omega), List.getElem?_append_left (by omega),
      List.getElem?_append_left (by omega), List.getElem?_take, if_pos hlt]
  · by_cases hin : p < off + xs.length
    · rw [if_pos ⟨by omega, hin⟩, List.getElem?_append_left (by omega),
        List.getElem?_append_right (by omega), htake]
    · rw [if_neg (by omega), List.getElem?_append_right (by omega), hpre, List.getElem?_drop]
      congr 1
      omega

@[simp] theorem splice_nil (l : List α) (off : Nat) : splice l off [] = l := by
  simp [splice]

theorem splice_splice {l : List α} {off : Nat} (h : off ≤ l.length) (xs ys : List α) :
    splice (splice l off xs) (off + xs.length) ys = splice l off (xs ++ ys) := by
  have hlen : off + xs.length ≤ (splice l off xs).length := by
    rw [length_splice h]; omega
  apply List.ext_getElem?
  intro p
  rw [getElem?_splice hlen, getElem?_splice h, getElem?_splice h, List.length_append]
  by_cases hy : off + xs.length ≤ p ∧ p < off + xs.length + ys.length
  · rw [if_pos hy, if_pos (by omega), List.getElem?_append_right (by omega)]
    congr 1
    omega
  · rw [if_neg hy]
    by_cases hx : off ≤ p ∧ p < off + xs.length
    · rw [if_pos hx, if_pos (by omega), List.getElem?_append_left (by omega)]
    · rw [if_neg hx, if_neg (by omega)]

end SengOs
