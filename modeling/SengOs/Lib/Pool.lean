import Mathlib.Data.Finset.Card
import Mathlib.Data.Finset.Insert
import Mathlib.Data.List.Nodup

/-!
# A pool of resources

A `Pool` splits a stock of resources into the free ones and the ones handed out. Taking a
resource removes it from the free ones, giving one back makes it free again, and nothing
else happens. `Conserves` is the invariant of all runs: every resource of the stock is free
or held, none is both, and none is held twice.
-/

namespace SengOs

structure Pool (α : Type*) where
  free : Finset α
  held : List α

namespace Pool

variable {α : Type*} [DecidableEq α]

inductive Step : Pool α → Pool α → Prop
  | take {p : Pool α} {a : α} : a ∈ p.free → Step p ⟨p.free.erase a, a :: p.held⟩
  | exhausted {p : Pool α} : p.free = ∅ → Step p p
  | give {p : Pool α} {a : α} : a ∈ p.held → Step p ⟨insert a p.free, p.held.erase a⟩

/-- The resources of `p` are those of `stock`, each of them once. -/
structure Conserves (stock : Finset α) (p : Pool α) : Prop where
  mem_iff : ∀ a, a ∈ stock ↔ a ∈ p.free ∨ a ∈ p.held
  disjoint : ∀ a ∈ p.held, a ∉ p.free
  nodup : p.held.Nodup

variable {stock : Finset α} {p q : Pool α}

omit [DecidableEq α] in
theorem Conserves.full (stock : Finset α) : Conserves stock ⟨stock, []⟩ where
  mem_iff _ := by simp
  disjoint _ h := by simp at h
  nodup := List.nodup_nil

theorem Step.conserves (hs : Step p q) (h : Conserves stock p) : Conserves stock q := by
  cases hs with
  | @take a ha =>
    have hnot : a ∉ p.held := fun hheld => h.disjoint a hheld ha
    refine ⟨fun b => ?_, fun b hb => ?_, List.nodup_cons.mpr ⟨hnot, h.nodup⟩⟩
    · rw [h.mem_iff, Finset.mem_erase, List.mem_cons]
      by_cases hba : b = a
      · subst hba; simp [ha]
      · simp [hba]
    · rcases List.mem_cons.mp hb with rfl | hb
      · exact Finset.notMem_erase _ _
      · exact fun hfree => h.disjoint b hb (Finset.mem_of_mem_erase hfree)
  | exhausted _ => exact h
  | @give a ha =>
    refine ⟨fun b => ?_, fun b hb => ?_, h.nodup.erase a⟩
    · rw [h.mem_iff, Finset.mem_insert, h.nodup.mem_erase_iff]
      by_cases hba : b = a
      · subst hba; simp [ha]
      · simp [hba]
    · obtain ⟨hba, hb⟩ := h.nodup.mem_erase_iff.mp hb
      rw [Finset.mem_insert, not_or]
      exact ⟨hba, h.disjoint b hb⟩

/-- The numbers of free and of held resources add up to the stock. -/
theorem Conserves.card (h : Conserves stock p) : p.free.card + p.held.length = stock.card := by
  have hstock : stock = p.free ∪ p.held.toFinset := by
    ext a
    rw [h.mem_iff, Finset.mem_union, List.mem_toFinset]
  have hdisj : Disjoint p.free p.held.toFinset :=
    Finset.disjoint_right.mpr fun a ha => h.disjoint a (List.mem_toFinset.mp ha)
  rw [hstock, Finset.card_union_of_disjoint hdisj, List.toFinset_card_of_nodup h.nodup]

end Pool

end SengOs
