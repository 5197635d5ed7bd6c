import Mathlib.Data.List.Induction
import Mathlib.Data.Nat.Digits.Defs
import SengOs.Lib.ByteMemory

/-!
# Decimal numerals in ASCII

`numeral n` is the text of the number `n`, and `value` the number that a text of digits
denotes. A numeral that is followed by something other than a digit can be read off the text.
-/

namespace SengOs.Decimal

open ByteMemory

/-- `'0' <= c && c <= '9'` -/
def isDigit (c : Byte) : Bool := 0x30 ≤ c.toNat && c.toNat ≤ 0x39

/-- The number that a digit stands for. -/
def digitValue (c : Byte) : Nat := c.toNat - 0x30

def digit (n : Nat) : Byte := BitVec.ofNat 8 (0x30 + n)

/-- The number of a text of digits, the first one first. -/
def value (ds : List Byte) : Nat := Nat.ofDigits 10 (ds.reverse.map digitValue)

/-- The text of a number. -/
def numeral (n : Nat) : List Byte :=
  if n = 0 then [digit 0] else (Nat.digits 10 n).reverse.map digit

theorem toNat_digit {n : Nat} (hn : n < 10) : (digit n).toNat = 0x30 + n := by
  rw [digit, BitVec.toNat_ofNat, Nat.mod_eq_of_lt (by omega)]

theorem isDigit_digit {n : Nat} (hn : n < 10) : isDigit (digit n) = true := by
  rw [isDigit, toNat_digit hn, Bool.and_eq_true, decide_eq_true_eq, decide_eq_true_eq]
  omega

theorem digitValue_digit {n : Nat} (hn : n < 10) : digitValue (digit n) = n := by
  rw [digitValue, toNat_digit hn, Nat.add_sub_cancel_left]

theorem numeral_ne_nil (n : Nat) : numeral n ≠ [] := by
  unfold numeral
  split
  · simp
  · rename_i h
    simpa [Nat.digits_eq_nil_iff_eq_zero] using h

theorem isDigit_of_mem_numeral {n : Nat} {c : Byte} (h : c ∈ numeral n) : isDigit c = true := by
  unfold numeral at h
  split at h
  · rw [List.mem_singleton.mp h]
    exact isDigit_digit (by decide)
  · obtain ⟨d, hd, rfl⟩ := List.mem_map.mp h
    exact isDigit_digit (Nat.digits_lt_base (by decide) (List.mem_reverse.mp hd))

theorem value_numeral (n : Nat) : value (numeral n) = n := by
  unfold numeral
  split
  · rename_i h
    rw [h]
    rfl
  · rw [value, ← List.map_reverse, List.reverse_reverse, List.map_map]
    have hmap : (Nat.digits 10 n).map (digitValue ∘ digit) = Nat.digits 10 n := by
      refine (List.map_congr_left fun d hd => ?_).trans (List.map_id _)
      exact digitValue_digit (Nat.digits_lt_base (by decide) hd)
    rw [hmap, Nat.ofDigits_digits]

theorem numeral_injective {m n : Nat} (h : numeral m = numeral n) : m = n := by
  rw [← value_numeral m, ← value_numeral n, h]

/-- The digits at the beginning of a text are a numeral that nothing but a non-digit follows. -/
theorem takeWhile_numeral_append {n : Nat} {s : List Byte} (hs : ∀ c ∈ s.head?, isDigit c = false) :
    (numeral n ++ s).takeWhile isDigit = numeral n := by
  rw [List.takeWhile_append_of_pos fun c hc => isDigit_of_mem_numeral hc]
  cases s with
  | nil => simp
  | cons c s => rw [List.takeWhile_cons_of_neg (by simpa using hs c rfl), List.append_nil]

theorem numeral_append_inj {m n : Nat} {s t : List Byte} (hs : ∀ c ∈ s.head?, isDigit c = false)
    (ht : ∀ c ∈ t.head?, isDigit c = false) (h : numeral m ++ s = numeral n ++ t) : m = n := by
  apply numeral_injective
  rw [← takeWhile_numeral_append hs, h, takeWhile_numeral_append ht]

theorem numeral_append_ne_cons {n : Nat} {c : Byte} {s t : List Byte} (hc : isDigit c = false) :
    numeral n ++ s ≠ c :: t := by
  intro h
  obtain ⟨d, ds, hd⟩ := List.exists_cons_of_ne_nil (numeral_ne_nil n)
  rw [hd, List.cons_append] at h
  have hdigit : isDigit d = true := isDigit_of_mem_numeral (hd ▸ List.mem_cons_self)
  rw [(List.cons.inj h).1, hc] at hdigit
  cases hdigit

theorem value_append_digit (ds : List Byte) (c : Byte) :
    value (ds ++ [c]) = value ds * 10 + digitValue c := by
  rw [value, List.reverse_append, List.reverse_singleton, List.singleton_append, List.map_cons,
    Nat.ofDigits_cons, value]
  show digitValue c + 10 * _ = _
  omega

/-- Reading digits with the arithmetic of a machine word gives the number modulo its size. -/
theorem foldl_mod (ds : List Byte) (m : Nat) :
    ds.foldl (fun n c => (n * 10 + digitValue c) % m) 0 = value ds % m := by
  induction ds using List.reverseRecOn with
  | nil => simp [value]
  | append_singleton ds c ih =>
    rw [List.foldl_append, List.foldl_cons, List.foldl_nil, ih, value_append_digit,
      Nat.add_mod, Nat.mul_mod, Nat.mod_mod, ← Nat.mul_mod, ← Nat.add_mod]

end SengOs.Decimal
