import Mathlib.Tactic.Common

/-!
# Round robin

`scan n c` are the other places on a circle of `n`, in the order in which one meets them after
`c`, and `ahead n c p` is how far `p` is ahead of `c`. Moving on to the first eligible place
brings every eligible place that is not taken strictly closer (`ahead_lt_of_find`), since it
is not passed over.
-/

namespace SengOs.RoundRobin

def scan (n c : Nat) : List Nat := (List.range' 1 (n - 1)).map fun i => (c + i) % n

def ahead (n c p : Nat) : Nat := if c ≤ p then p - c else p + n - c

variable {n c p r : Nat} {P : Nat → Bool}

theorem add_mod_eq {i : Nat} (hc : c < n) (hi : i < n) :
    (c + i) % n = if c + i < n then c + i else c + i - n := by
  split
  · rename_i h
    exact Nat.mod_eq_of_lt h
  · rename_i h
    rw [Nat.mod_eq_sub_mod (Nat.not_lt.mp h), Nat.mod_eq_of_lt (by omega)]

theorem ahead_lt (hc : c < n) (hp : p < n) : ahead n c p < n := by
  unfold ahead
  split <;> omega

theorem ahead_pos (hc : c < n) (hne : p ≠ c) : 0 < ahead n c p := by
  unfold ahead
  split <;> omega

/-- The place that is `ahead n c p` after `c` is `p`. -/
theorem add_ahead (hc : c < n) (hp : p < n) : (c + ahead n c p) % n = p := by
  rw [add_mod_eq hc (ahead_lt hc hp)]
  unfold ahead
  split <;> split <;> omega

theorem find_scan_some (h : (scan n c).find? P = some r) :
    ∃ i, 1 ≤ i ∧ i < n ∧ r = (c + i) % n ∧ P r = true ∧
      ∀ j, 1 ≤ j → j < i → P ((c + j) % n) = false := by
  rw [scan, List.find?_map] at h
  obtain ⟨i, hi, rfl⟩ := Option.map_eq_some_iff.mp h
  obtain ⟨hP, hmem, hbefore⟩ := List.find?_range'_eq_some.mp hi
  obtain ⟨hpos, hlt⟩ := List.mem_range'_1.mp hmem
  refine ⟨i, hpos, by omega, rfl, hP, fun j hj hji => ?_⟩
  exact Bool.not_eq_true' _ |>.mp (hbefore j hj hji)

/-- An eligible place that is not the first one gets closer. -/
theorem ahead_lt_of_find (hc : c < n) (hp : p < n) (h : (scan n c).find? P = some r)
    (hP : P p = true) (hpc : p ≠ c) (hpr : p ≠ r) : ahead n r p < ahead n c p := by
  obtain ⟨i, hpos, hi, rfl, -, hbefore⟩ := find_scan_some h
  have hpast : i < ahead n c p := by
    by_contra hle
    rcases Nat.lt_or_eq_of_le (Nat.not_lt.mp hle) with hlt | heq
    · have hnot := hbefore _ (ahead_pos hc hpc) hlt
      rw [add_ahead hc hp, hP] at hnot
      cases hnot
    · rw [← heq, add_ahead hc hp] at hpr
      exact hpr rfl
  rw [add_mod_eq hc hi]
  unfold ahead at hpast ⊢
  split at hpast
  · split <;> split <;> omega
  · split <;> split <;> omega

end SengOs.RoundRobin
