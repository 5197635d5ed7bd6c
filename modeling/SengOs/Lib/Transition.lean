import Mathlib.Tactic.Common

/-!
# Transition systems

A system is a partial step function: `step s a` is the state after action `a`, if the system
can take it in state `s`. `Reaches step ok s s'` says that `s'` is reached from `s` by steps
that meet the condition `ok` on the state before the step and the action; with the condition
that always holds it is plain reachability. A property that every such step preserves holds in
all states so reached (`Reaches.invariant`). `run` takes a given list of actions. A `Path` is a
run with its steps, for properties of whole runs.
-/

namespace SengOs.Transition

variable {σ α : Type*}

inductive Reaches (step : σ → α → Option σ) (ok : σ → α → Prop) (s : σ) : σ → Prop
  | refl : Reaches step ok s s
  | tail {s' s'' : σ} {a : α} : Reaches step ok s s' → ok s' a → step s' a = some s'' →
      Reaches step ok s s''

/-- Every action is allowed. -/
def Always : σ → α → Prop := fun _ _ => True

instance (s : σ) (a : α) : Decidable (Always s a) := isTrue trivial

/-- The state after the actions, if each of them is allowed and can be taken. -/
def run (step : σ → α → Option σ) (ok : σ → α → Prop) [∀ s a, Decidable (ok s a)] (s : σ) :
    List α → Option σ
  | [] => some s
  | a :: as => if ok s a then (step s a).bind fun s' => run step ok s' as else none

variable {step : σ → α → Option σ} {ok : σ → α → Prop} {s s' s'' : σ}

theorem Reaches.trans (h : Reaches step ok s s') (h' : Reaches step ok s' s'') :
    Reaches step ok s s'' := by
  induction h' with
  | refl => exact h
  | tail _ hok hs ih => exact ih.tail hok hs

theorem Reaches.invariant {P : σ → Prop} (h : Reaches step ok s s') (h₀ : P s)
    (hstep : ∀ s a s', P s → ok s a → step s a = some s' → P s') : P s' := by
  induction h with
  | refl => exact h₀
  | tail _ hok hs ih => exact hstep _ _ _ ih hok hs

theorem Reaches.mono {ok' : σ → α → Prop} (h : Reaches step ok s s')
    (hok : ∀ s a, ok s a → ok' s a) : Reaches step ok' s s' := by
  induction h with
  | refl => exact .refl
  | tail _ ha hs ih => exact ih.tail (hok _ _ ha) hs

theorem Reaches.head {a : α} (hok : ok s a) (hs : step s a = some s')
    (h : Reaches step ok s' s'') : Reaches step ok s s'' :=
  (Reaches.refl.tail hok hs).trans h

/-- The end of a run is reached. -/
theorem reaches_of_run [∀ s a, Decidable (ok s a)] {as : List α}
    (h : run step ok s as = some s') : Reaches step ok s s' := by
  induction as generalizing s with
  | nil =>
    cases h
    exact .refl
  | cons a as ih =>
    unfold run at h
    split at h
    · rename_i hok
      obtain ⟨t, ht, hrest⟩ := Option.bind_eq_some_iff.mp h
      exact .head hok ht (ih hrest)
    · cases h

/-- A property of the end of a run that can be evaluated. -/
theorem reaches_of_any (step : σ → α → Option σ) (ok : σ → α → Prop)
    [∀ s a, Decidable (ok s a)] (s : σ) (as : List α) (P : σ → Bool)
    (h : (run step ok s as).any P = true) : ∃ s', Reaches step ok s s' ∧ P s' = true := by
  obtain ⟨s', hs', hP⟩ := Option.any_eq_true _ _ |>.mp h
  exact ⟨s', reaches_of_run hs', hP⟩

/-! ## Paths -/

/-- A finite run with its steps: the state before each, and its action. -/
inductive Path (step : σ → α → Option σ) (s : σ) : List (σ × α) → σ → Prop
  | nil : Path step s [] s
  | snoc {l : List (σ × α)} {s' s'' : σ} {a : α} : Path step s l s' → step s' a = some s'' →
      Path step s (l ++ [(s', a)]) s''

/-- The steps of the given actions and the state after them, if each can be taken. -/
def trace (step : σ → α → Option σ) (s : σ) : List α → Option (List (σ × α) × σ)
  | [] => some ([], s)
  | a :: as => (step s a).bind fun s' => (trace step s' as).map fun r => ((s, a) :: r.1, r.2)

variable {l : List (σ × α)}

theorem Path.reaches (h : Path step s l s') : Reaches step Always s s' := by
  induction h with
  | nil => exact .refl
  | snoc _ hs ih => exact ih.tail trivial hs

/-- The first state of a path. -/
theorem Path.head (h : Path step s l s') : l = [] ∧ s' = s ∨ ∃ a l', l = (s, a) :: l' := by
  induction h with
  | nil => exact .inl ⟨rfl, rfl⟩
  | snoc _ _ ih =>
    rename_i a _ _
    rcases ih with ⟨rfl, rfl⟩ | ⟨a', l', rfl⟩
    · exact .inr ⟨a, [], rfl⟩
    · exact .inr ⟨a', _, rfl⟩

theorem Path.cons {a : α} (hs : step s a = some s') (h : Path step s' l s'') :
    Path step s ((s, a) :: l) s'' := by
  induction h with
  | nil => exact Path.nil.snoc hs
  | snoc _ hs' ih => exact ih.snoc hs'

theorem path_of_trace {as : List α} (h : trace step s as = some (l, s')) :
    Path step s l s' := by
  induction as generalizing s l with
  | nil =>
    cases h
    exact .nil
  | cons a as ih =>
    obtain ⟨t, ht, hrest⟩ := Option.bind_eq_some_iff.mp h
    obtain ⟨r, hr, heq⟩ := Option.map_eq_some_iff.mp hrest
    cases heq
    exact .cons ht (ih hr)

/-- A property of a run that can be evaluated. -/
theorem path_of_any (step : σ → α → Option σ) (s : σ) (as : List α)
    (P : List (σ × α) × σ → Bool) (h : (trace step s as).any P = true) :
    ∃ l s', Path step s l s' ∧ P (l, s') = true := by
  obtain ⟨r, hr, hP⟩ := Option.any_eq_true _ _ |>.mp h
  exact ⟨r.1, r.2, path_of_trace hr, hP⟩

end SengOs.Transition
