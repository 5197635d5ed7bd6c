import Mathlib.Logic.Function.Basic
import Mathlib.Tactic.Common

/-!
# Tickets

Each place holds at most one ticket, and a ticket names a member of a set. `Covers` says that
every member is named somewhere, and `Ticketed` that the tickets and the members correspond:
every ticket names a member, and every member is named in exactly one place. Issuing a ticket to
a new member, passing one on to an empty place and redeeming one keep the correspondence.
-/

namespace SengOs

variable {X P : Type*}

/-- Every member is named by a ticket. -/
def Covers (ticket : X → Option P) (S : P → Prop) : Prop := ∀ p, S p → ∃ x, ticket x = some p

namespace Covers

variable {ticket ticket' : X → Option P} {S S' : P → Prop} {x y : X} {p : P}

/-- The tickets that name the remaining members are still there. -/
theorem keep (h : Covers ticket S) (hS : ∀ p, S' p → S p)
    (hkeep : ∀ x p, S' p → ticket x = some p → ticket' x = some p) : Covers ticket' S' := by
  intro p hp
  obtain ⟨x, hx⟩ := h p (hS p hp)
  exact ⟨x, hkeep x p hp hx⟩

variable [DecidableEq X]

theorem issue (h : Covers ticket S) (hx : ticket x = none) :
    Covers (Function.update ticket x (some p)) fun q => q = p ∨ S q := by
  rintro q (rfl | hq)
  · exact ⟨x, Function.update_self ..⟩
  · obtain ⟨y, hy⟩ := h q hq
    refine ⟨y, ?_⟩
    rw [Function.update_of_ne, hy]
    rintro rfl
    rw [hx] at hy
    cases hy

theorem redeem (h : Covers ticket S) (hx : ticket x = some p) :
    Covers (Function.update ticket x none) fun q => q ≠ p ∧ S q := by
  refine h.keep (fun q hq => hq.2) fun y q hq hy => ?_
  rw [Function.update_of_ne, hy]
  rintro rfl
  exact hq.1 (Option.some_inj.mp (hy.symm.trans hx))

theorem pass (h : Covers ticket S) (hx : ticket x = some p) (hy : ticket y = none) :
    Covers (Function.update (Function.update ticket x none) y (some p)) S := by
  have hne : y ≠ x := by
    rintro rfl
    rw [hx] at hy
    cases hy
  have hissue := (h.redeem hx).issue (x := y) (p := p) (by rw [Function.update_of_ne hne, hy])
  refine hissue.keep (fun q hq => ?_) fun _ _ _ => id
  rcases eq_or_ne q p with rfl | hqp
  · exact .inl rfl
  · exact .inr ⟨hqp, hq⟩

end Covers

structure Ticketed (ticket : X → Option P) (S : P → Prop) : Prop where
  sound : ∀ x p, ticket x = some p → S p
  unique : ∀ x y p, ticket x = some p → ticket y = some p → x = y
  covers : ∀ p, S p → ∃ x, ticket x = some p

namespace Ticketed

variable {ticket : X → Option P} {S S' : P → Prop} {x y : X} {p : P}

theorem congr (h : Ticketed ticket S) (hS : ∀ p, S' p ↔ S p) : Ticketed ticket S' where
  sound x p hx := (hS p).mpr (h.sound x p hx)
  unique := h.unique
  covers p hp := h.covers p ((hS p).mp hp)

variable [DecidableEq X]

theorem issue (h : Ticketed ticket S) (hx : ticket x = none) (hp : ¬S p) :
    Ticketed (Function.update ticket x (some p)) fun q => q = p ∨ S q := by
  have hother {y : X} {q : P} (hy : Function.update ticket x (some p) y = some q) :
      y = x ∧ q = p ∨ y ≠ x ∧ ticket y = some q := by
    rcases eq_or_ne y x with rfl | hne
    · rw [Function.update_self] at hy
      exact .inl ⟨rfl, (Option.some_inj.mp hy).symm⟩
    · rw [Function.update_of_ne hne] at hy
      exact .inr ⟨hne, hy⟩
  constructor
  · intro y q hy
    rcases hother hy with ⟨-, hq⟩ | ⟨-, hy⟩
    · exact .inl hq
    · exact .inr (h.sound y q hy)
  · intro y z q hy hz
    rcases hother hy with ⟨hyx, hq⟩ | ⟨-, hy⟩
    · rcases hother hz with ⟨hzx, -⟩ | ⟨-, hz⟩
      · exact hyx.trans hzx.symm
      · exact absurd (hq ▸ h.sound z q hz) hp
    · rcases hother hz with ⟨-, hq⟩ | ⟨-, hz⟩
      · exact absurd (hq ▸ h.sound y q hy) hp
      · exact h.unique y z q hy hz
  · exact Covers.issue h.covers hx

theorem redeem (h : Ticketed ticket S) (hx : ticket x = some p) :
    Ticketed (Function.update ticket x none) fun q => q ≠ p ∧ S q := by
  have hother {y : X} {q : P} (hy : Function.update ticket x none y = some q) :
      y ≠ x ∧ ticket y = some q := by
    rcases eq_or_ne y x with rfl | hne
    · rw [Function.update_self] at hy
      cases hy
    · rw [Function.update_of_ne hne] at hy
      exact ⟨hne, hy⟩
  constructor
  · intro y q hy
    obtain ⟨hne, hy⟩ := hother hy
    refine ⟨?_, h.sound y q hy⟩
    rintro rfl
    exact hne (h.unique y x q hy hx)
  · intro y z q hy hz
    exact h.unique y z q (hother hy).2 (hother hz).2
  · exact Covers.redeem h.covers hx

theorem pass (h : Ticketed ticket S) (hx : ticket x = some p) (hy : ticket y = none) :
    Ticketed (Function.update (Function.update ticket x none) y (some p)) S := by
  have hne : y ≠ x := by
    rintro rfl
    rw [hx] at hy
    cases hy
  have hissue := (h.redeem hx).issue (x := y) (p := p)
    (by rw [Function.update_of_ne hne, hy]) fun hp => hp.1 rfl
  refine hissue.congr fun q => ⟨fun hq => ?_, ?_⟩
  · rcases eq_or_ne q p with rfl | hqp
    · exact .inl rfl
    · exact .inr ⟨hqp, hq⟩
  · rintro (rfl | ⟨-, hq⟩)
    · exact h.sound x q hx
    · exact hq

end Ticketed

end SengOs
