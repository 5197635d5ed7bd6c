import Mathlib.Data.List.Range
import Mathlib.Logic.Function.Basic

/-!
# First-fit allocation from a bitmap

A bitmap is a function from positions to bits, and a set bit is a position in use. The clear
positions of a range form a list, lowest first; taking the first clear position removes the
head of that list and nothing else.
-/

namespace SengOs.FirstFit

variable {bit : Nat → Bool} {lo n b : Nat}

/-- The clear positions of `lo ≤ b < lo + n`, lowest first. -/
def clear (bit : Nat → Bool) (lo n : Nat) : List Nat :=
  (List.range' lo n).filter fun b => !bit b

theorem mem_clear : b ∈ clear bit lo n ↔ (lo ≤ b ∧ b < lo + n) ∧ bit b = false := by
  simp only [clear, List.mem_filter, List.mem_range'_1, Bool.not_eq_true']

theorem clear_eq_nil (h : ∀ b, lo ≤ b → b < lo + n → bit b = true) : clear bit lo n = [] := by
  refine List.eq_nil_iff_forall_not_mem.mpr fun b hb => ?_
  obtain ⟨⟨hlo, hhi⟩, hbit⟩ := mem_clear.mp hb
  rw [h b hlo hhi] at hbit
  cases hbit

theorem nodup_clear : (clear bit lo n).Nodup := (List.nodup_range' ..).filter _

/-- The range around one of its positions. -/
theorem range'_split (hlo : lo ≤ b) (hhi : b < lo + n) :
    List.range' lo n = List.range' lo (b - lo) ++ b :: List.range' (b + 1) (lo + n - (b + 1)) := by
  have hn : n = (b - lo) + (lo + n - b) := by omega
  have hrest : lo + n - b = (lo + n - (b + 1)) + 1 := by omega
  have hb : lo + (b - lo) = b := by omega
  conv_lhs => rw [hn, ← List.range'_append_1, hb, hrest, List.range'_succ]

/-- The first clear position is the head of the list, and setting its bit leaves the tail. -/
theorem clear_eq_cons (hlo : lo ≤ b) (hhi : b < lo + n) (hbit : bit b = false)
    (hlow : ∀ c, lo ≤ c → c < b → bit c = true) :
    clear bit lo n = b :: clear (Function.update bit b true) lo n := by
  have hbefore : ∀ f : Nat → Bool, (∀ c, lo ≤ c → c < b → f c = true) →
      (List.range' lo (b - lo)).filter (fun c => !f c) = [] := by
    intro f hf
    refine List.filter_eq_nil_iff.mpr fun c hc => ?_
    obtain ⟨hlo', hhi'⟩ := List.mem_range'_1.mp hc
    rw [hf c hlo' (by omega)]
    decide
  have hafter : ∀ c ∈ List.range' (b + 1) (lo + n - (b + 1)),
      (!Function.update bit b true c) = !bit c := by
    intro c hc
    have := (List.mem_range'_1.mp hc).1
    rw [Function.update_of_ne (by omega)]
  have hold : ∀ c, lo ≤ c → c < b → Function.update bit b true c = true := by
    intro c hc hcb
    rw [Function.update_of_ne (by omega), hlow c hc hcb]
  rw [clear, clear, range'_split hlo hhi, List.filter_append, List.filter_append,
    hbefore bit hlow, hbefore _ hold, List.filter_cons_of_pos (by rw [hbit]; rfl),
    List.filter_cons_of_neg (by rw [Function.update_self]; decide), List.filter_congr hafter]
  rfl

end SengOs.FirstFit
