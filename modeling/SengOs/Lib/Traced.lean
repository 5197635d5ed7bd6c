import Mathlib.Data.List.Basic

/-!
# Computations with a record of their accesses

A `Traced` computation has a value and the list of the accesses it made, in order. Forgetting
the list gives the plain computation back (the `val_*` lemmas), and `All P` says that every
access satisfies `P`; it is proved along the computation, one rule for each way to build one.
-/

namespace SengOs

universe u

structure Traced (ε α : Type u) where
  val : α
  log : List ε

namespace Traced

variable {ε α β : Type u}

instance : Monad (Traced ε) where
  pure a := ⟨a, []⟩
  bind x f := ⟨(f x.val).val, x.log ++ (f x.val).log⟩

/-- Make the accesses `es`. -/
def access (es : List ε) : Traced ε PUnit := ⟨⟨⟩, es⟩

/-- The first element of `l` with `p`, where `es i` are the accesses of testing `i`. -/
def find? (p : α → Bool) (es : α → List ε) : List α → Traced ε (Option α)
  | [] => pure none
  | i :: l => do
    access (es i)
    if p i then pure (some i) else find? p es l

@[simp] theorem val_pure (a : α) : (pure a : Traced ε α).val = a := rfl

@[simp] theorem val_bind (x : Traced ε α) (f : α → Traced ε β) :
    (x >>= f).val = (f x.val).val := rfl

@[simp] theorem val_access (es : List ε) : (access es).val = ⟨⟩ := rfl

@[simp] theorem val_ite {c : Prop} [Decidable c] (x y : Traced ε α) :
    (if c then x else y).val = if c then x.val else y.val := apply_ite ..

@[simp] theorem val_find? (p : α → Bool) (es : α → List ε) (l : List α) :
    (find? p es l).val = l.find? p := by
  induction l with
  | nil => rfl
  | cons i l ih =>
    rw [find?, List.find?_cons]
    cases h : p i <;> simp [ih]

@[simp] theorem log_pure (a : α) : (pure a : Traced ε α).log = [] := rfl

@[simp] theorem log_bind (x : Traced ε α) (f : α → Traced ε β) :
    (x >>= f).log = x.log ++ (f x.val).log := rfl

@[simp] theorem log_access (es : List ε) : (access es).log = es := rfl

/-- Every access of `x` satisfies `P`. -/
def All (P : ε → Prop) (x : Traced ε α) : Prop := ∀ e ∈ x.log, P e

section All

variable {P Q : ε → Prop} {x : Traced ε α}

theorem All.pure (a : α) : All P (pure a : Traced ε α) := nofun

theorem All.bind {f : α → Traced ε β} (hx : All P x) (hf : All P (f x.val)) :
    All P (x >>= f) := by
  intro e he
  rcases List.mem_append.mp he with he | he
  · exact hx e he
  · exact hf e he

theorem All.access {es : List ε} (h : ∀ e ∈ es, P e) : All P (access es) := h

theorem All.mono (h : All P x) (hPQ : ∀ e, P e → Q e) : All Q x := fun e he => hPQ e (h e he)

theorem All.find? {p : α → Bool} {es : α → List ε} {l : List α}
    (h : ∀ i ∈ l, ∀ e ∈ es i, P e) : All P (find? p es l) := by
  induction l with
  | nil => exact .pure none
  | cons i l ih =>
    refine .bind (.access (h i (by simp))) ?_
    split
    · exact .pure _
    · exact ih fun j hj => h j (by simp [hj])

end All

end Traced

end SengOs
