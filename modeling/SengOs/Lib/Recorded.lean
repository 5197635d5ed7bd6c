import Mathlib.Logic.Function.Basic
import Mathlib.Data.List.Basic

/-!
# Memories with a record of their writes

A `Recorded` memory holds a value at every place and remembers the places written, in order.
A place outside an array is a place like any other: that a program writes inside its arrays is
a statement about the record, `Within P`.
-/

namespace SengOs

structure Recorded (ι α : Type*) where
  get : ι → α
  writes : List ι

namespace Recorded

variable {ι α : Type*} [DecidableEq ι]

def write (m : Recorded ι α) (i : ι) (a : α) : Recorded ι α :=
  ⟨Function.update m.get i a, m.writes ++ [i]⟩

@[simp] theorem get_write_self (m : Recorded ι α) (i : ι) (a : α) : (m.write i a).get i = a :=
  Function.update_self ..

@[simp] theorem get_write_of_ne (m : Recorded ι α) {i j : ι} (a : α) (h : j ≠ i) :
    (m.write i a).get j = m.get j :=
  Function.update_of_ne h ..

theorem get_write (m : Recorded ι α) (i j : ι) (a : α) :
    (m.write i a).get j = if j = i then a else m.get j :=
  Function.update_apply ..

@[simp] theorem writes_write (m : Recorded ι α) (i : ι) (a : α) :
    (m.write i a).writes = m.writes ++ [i] := rfl

/-- Every place written satisfies `P`. -/
def Within (P : ι → Prop) (m : Recorded ι α) : Prop := ∀ i ∈ m.writes, P i

theorem Within.write {P : ι → Prop} {m : Recorded ι α} (h : Within P m) {i : ι} (hi : P i)
    (a : α) : Within P (m.write i a) := by
  intro j hj
  rcases List.mem_append.mp hj with hj | hj
  · exact h j hj
  · rwa [List.mem_singleton.mp hj]

end Recorded

end SengOs
