import Mathlib.Data.Finset.Sort

/-!
# Lowest first

A stock that answers each request with its least element, and with nothing when it is empty.
The answers are the sorted stock from its front on, then nothing (`Serves.answers_eq`), and what
was answered and what is left make up the stock (`Serves.union`).
-/

namespace SengOs.LowestFirst

variable {α : Type*} [LinearOrder α] {stock left : Finset α} {answers : List (Option α)}

/-- The requests on `stock` get `answers`, and `left` is left. -/
inductive Serves : Finset α → List (Option α) → Finset α → Prop
  | done (stock : Finset α) : Serves stock [] stock
  | least {stock left : Finset α} {answers : List (Option α)} {a : α} :
      a ∈ stock → (∀ b ∈ stock, a ≤ b) → Serves (stock.erase a) answers left →
      Serves stock (some a :: answers) left
  | empty {left : Finset α} {answers : List (Option α)} :
      Serves ∅ answers left → Serves ∅ (none :: answers) left

/-- The least element stands first. -/
theorem sort_of_least {a : α} (ha : a ∈ stock) (hleast : ∀ b ∈ stock, a ≤ b) :
    stock.sort = a :: (stock.erase a).sort := by
  have hsort := Finset.sort_insert (r := (· ≤ ·))
    (fun b hb => hleast b (Finset.mem_of_mem_erase hb)) (Finset.notMem_erase a stock)
  rwa [Finset.insert_erase ha] at hsort

theorem Serves.answers_eq (h : Serves stock answers left) :
    answers = (stock.sort.take answers.length).map some ++
      List.replicate (answers.length - stock.card) none := by
  induction h with
  | done stock => simp
  | @least stock left answers a ha hleast _ ih =>
    have hcard : stock.card = (stock.erase a).card + 1 := (Finset.card_erase_add_one ha).symm
    rw [sort_of_least ha hleast, hcard, List.length_cons, List.take_succ_cons, List.map_cons,
      List.cons_append, Nat.add_sub_add_right, ← ih]
  | @empty left answers _ ih =>
    have hsort : (∅ : Finset α).sort = [] := Finset.sort_empty _
    rw [hsort, List.take_nil, List.map_nil, List.nil_append, Finset.card_empty, Nat.sub_zero]
      at ih ⊢
    rw [List.length_cons, List.replicate_succ, ← ih]

/-- What is left is the sorted stock behind the answers. -/
theorem Serves.left_eq (h : Serves stock answers left) :
    left.sort = stock.sort.drop answers.length := by
  induction h with
  | done stock => rfl
  | least ha hleast _ ih =>
    rw [ih, sort_of_least ha hleast]
    rfl
  | empty _ ih =>
    rw [ih, Finset.sort_empty, List.drop_nil, List.drop_nil]

theorem Serves.card (h : Serves stock answers left) :
    left.card = stock.card - answers.length := by
  rw [← Finset.length_sort (· ≤ ·), h.left_eq, List.length_drop, Finset.length_sort]

/-- Nothing is lost: the stock is what was answered and what is left. -/
theorem Serves.union (h : Serves stock answers left) :
    (stock.sort.take answers.length).toFinset ∪ left = stock := by
  have hleft : left = (stock.sort.drop answers.length).toFinset := by
    rw [← h.left_eq, Finset.sort_toFinset]
  rw [hleft, ← List.toFinset_append, List.take_append_drop, Finset.sort_toFinset]

end SengOs.LowestFirst
