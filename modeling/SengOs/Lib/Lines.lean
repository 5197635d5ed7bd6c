import Mathlib.Data.List.Forall2

/-!
# Texts of lines

A text is cut into lines at a separator. `Lists` says that a text lists some items, one line
for each of them in their order; `Whole` is the invariant of a text that is printed line by
line.
-/

namespace SengOs.Lines

variable {α β : Type*} {nl : α} {P : List α → Prop} {Holds : β → List α → Prop}
  {items : List β} {l s t : List α}

/-- The text consists of whole lines with the property. -/
def Whole (nl : α) (P : List α → Prop) (s : List α) : Prop :=
  ∃ lines : List (List α), s = lines.flatMap (· ++ [nl]) ∧ ∀ l ∈ lines, nl ∉ l ∧ P l

theorem Whole.nil : Whole nl P [] := ⟨[], rfl, by simp⟩

theorem Whole.line (hl : nl ∉ l) (h : P l) : Whole nl P (l ++ [nl]) :=
  ⟨[l], by simp, by simpa using ⟨hl, h⟩⟩

theorem Whole.append (hs : Whole nl P s) (ht : Whole nl P t) : Whole nl P (s ++ t) := by
  obtain ⟨ls, rfl, hls⟩ := hs
  obtain ⟨lt, rfl, hlt⟩ := ht
  refine ⟨ls ++ lt, by rw [List.flatMap_append], fun l hl => ?_⟩
  exact (List.mem_append.mp hl).elim (hls l) (hlt l)

theorem exists_of_forall₂ {lines : List (List α)} (h : List.Forall₂ Holds items lines) {a : β}
    (ha : a ∈ items) : ∃ l ∈ lines, Holds a l := by
  induction h with
  | nil => cases ha
  | cons hb _ ih =>
    rcases List.mem_cons.mp ha with rfl | ha
    · exact ⟨_, List.mem_cons_self, hb⟩
    · obtain ⟨l, hl, hold⟩ := ih ha
      exact ⟨l, List.mem_cons_of_mem _ hl, hold⟩

variable [BEq α]

/-- The text has one line for each item, in their order, and no other line holds an item. -/
def Lists (nl : α) (Holds : β → List α → Prop) (items : List β) (s : List α) : Prop :=
  ∃ before lines after, s.splitOn nl = before ++ lines ++ after ∧
    List.Forall₂ Holds items lines ∧ ∀ a ∈ items, ∀ l ∈ before ++ after, ¬Holds a l

theorem lists_nil : Lists nl Holds [] s :=
  ⟨s.splitOn nl, [], [], by simp, .nil, by simp⟩

theorem Lists.exists_line (h : Lists nl Holds items s) {a : β} (ha : a ∈ items) :
    ∃ l ∈ s.splitOn nl, Holds a l := by
  obtain ⟨before, lines, after, heq, hlines, -⟩ := h
  obtain ⟨l, hl, hold⟩ := exists_of_forall₂ hlines ha
  refine ⟨l, ?_, hold⟩
  rw [heq]
  exact List.mem_append_left _ (List.mem_append_right _ hl)

variable [LawfulBEq α]

theorem splitOn_flatMap {lines : List (List α)} (h : ∀ l ∈ lines, nl ∉ l) :
    (lines.flatMap (· ++ [nl])).splitOn nl = lines ++ [[]] := by
  induction lines with
  | nil => simp
  | cons l lines ih =>
    rw [List.flatMap_cons, List.append_assoc, List.singleton_append,
      List.splitOn_append_cons_self_of_not_mem (h l List.mem_cons_self),
      ih fun l hl => h l (List.mem_cons_of_mem _ hl), List.cons_append]

/-- Behind the last separator stands an empty line. -/
theorem Whole.of_mem (h : Whole nl P s) (hl : l ∈ s.splitOn nl) : l = [] ∨ P l := by
  obtain ⟨lines, rfl, hlines⟩ := h
  rw [splitOn_flatMap fun l hl => (hlines l hl).1] at hl
  rcases List.mem_append.mp hl with hl | hl
  · exact Or.inr (hlines l hl).2
  · exact Or.inl (List.mem_singleton.mp hl)

end SengOs.Lines
