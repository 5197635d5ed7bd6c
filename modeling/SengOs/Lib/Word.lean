import Mathlib.Algebra.Group.Nat.Defs
import Mathlib.Tactic.Common

/-!
# 32-bit arithmetic

Unsigned machine arithmetic on natural numbers: a computation wraps where its result is cut
to the width of its type.
-/

namespace SengOs

/-- The value of a `uint32_t` computation. -/
@[simp] def u32 (n : Nat) : Nat := n % 2 ^ 32

theorem u32_of_lt {n : Nat} (h : n < 2 ^ 32) : u32 n = n := Nat.mod_eq_of_lt h

end SengOs
