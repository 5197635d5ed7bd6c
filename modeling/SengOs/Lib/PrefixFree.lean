import Mathlib.Data.List.Basic
import Mathlib.Data.List.Infix
import Mathlib.Data.List.Pairwise

/-!
# Prefix-free families of words

Where no word of a family begins with another one, at most one of them begins a given text. So a
chain of tests for the words has the same outcome in whatever order they are made.
-/

namespace SengOs

section Chain

variable {ι β : Type} {p : ι → Prop} [DecidablePred p] {f : ι → β} {d : β} {order : List ι} {i : ι}

/-- `if p i then f i else if p j then f j else … else d` -/
def chain (p : ι → Prop) [DecidablePred p] (f : ι → β) (d : β) : List ι → β
  | [] => d
  | i :: order => if p i then f i else chain p f d order

theorem chain_of_none (h : ∀ i ∈ order, ¬p i) : chain p f d order = d := by
  induction order with
  | nil => rfl
  | cons i order ih =>
    rw [chain, if_neg (h i List.mem_cons_self)]
    apply ih
    intro j hj
    exact h j (List.mem_cons_of_mem i hj)

/-- The only test that a value passes decides the chain, wherever it stands. -/
theorem chain_of_unique (hi : i ∈ order) (hp : p i) (h : ∀ j ∈ order, p j → j = i) :
    chain p f d order = f i := by
  induction order with
  | nil => cases hi
  | cons j order ih =>
    rw [chain]
    by_cases hj : p j
    · rw [if_pos hj, h j List.mem_cons_self hj]
    · rw [if_neg hj]
      apply ih
      · rcases List.mem_cons.mp hi with rfl | hmem
        · exact absurd hp hj
        · exact hmem
      · intro k hk
        exact h k (List.mem_cons_of_mem j hk)

end Chain

/-- No word begins with another one. -/
def PrefixFree {ι α : Type} (w : ι → List α) : Prop := ∀ i j, w i <+: w j → i = j

/-- A family is prefix-free if no two words of its list begin with each other. -/
theorem prefixFree_of_pairwise {ι α : Type} {w : ι → List α} {order : List ι}
    (hall : ∀ i, i ∈ order)
    (h : (order.map w).Pairwise fun u v => ¬u <+: v ∧ ¬v <+: u) : PrefixFree w := by
  intro i j hij
  by_contra hne
  have hpair := List.pairwise_map.mp h
  have hsymm : Std.Symm fun i j => ¬w i <+: w j ∧ ¬w j <+: w i := ⟨fun _ _ hnot => hnot.symm⟩
  exact (hpair.forall (hall i) (hall j) hne).1 hij

/-- At most one word begins a text. -/
theorem PrefixFree.unique {ι α : Type} {w : ι → List α} {s : List α} {i j : ι} (h : PrefixFree w)
    (hi : w i <+: s) (hj : w j <+: s) : i = j := by
  rcases List.prefix_or_prefix_of_prefix hi hj with hij | hji
  · exact h i j hij
  · exact (h j i hji).symm

end SengOs
