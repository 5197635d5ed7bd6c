import Mathlib.Data.Nat.Digits.Lemmas
import SengOs.Lib.Decimal

/-!
# Numerals in a base up to 36

`numeral b n` is the text of `n` in base `b`, with the letters from `a` on as the digits
from ten on. It has no leading zeros, since `Nat.digits` has none.
-/

namespace SengOs.Numeral

open ByteMemory

/-- The character of a digit. -/
def digitByte (d : Nat) : Byte := BitVec.ofNat 8 (if d < 10 then 0x30 + d else 0x61 + d - 10)

def numeral (b n : Nat) : List Byte :=
  if n = 0 then [digitByte 0] else (Nat.digits b n).reverse.map digitByte

/-- The text of an integer in decimal. -/
def signed (v : Int) : List Byte :=
  if v < 0 then 0x2D :: numeral 10 v.natAbs else numeral 10 v.natAbs

theorem numeral_ten (n : Nat) : numeral 10 n = Decimal.numeral n := by
  unfold numeral Decimal.numeral
  split
  · rfl
  · apply List.map_congr_left
    intro d hd
    rw [digitByte, if_pos (Nat.digits_lt_base (by decide) (List.mem_reverse.mp hd)),
      Decimal.digit]

/-- The digits of a number below `b ^ k` are at most `k`. -/
theorem length_digits_le {b k n : Nat} (hb : 1 < b) (h : n < b ^ k) :
    (Nat.digits b n).length ≤ k :=
  (Nat.digits_length_le_iff hb n).mpr h

end SengOs.Numeral
