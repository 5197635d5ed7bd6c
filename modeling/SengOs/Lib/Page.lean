import Mathlib.Tactic.Common

/-!
# Text on a page without a lower edge

A `Page` has columns `0` to `cols - 1` and rows without end, and a cursor. Its operations move
the cursor or write at it; none of them scrolls. `pos` numbers the places row by row.
-/

namespace SengOs

structure Page (α : Type*) where
  text : Nat → Nat → α
  row : Nat
  col : Nat

namespace Page

variable {α : Type*}

/-- The page with `a` everywhere and the cursor in its corner. -/
def fresh (a : α) : Page α := ⟨fun _ _ => a, 0, 0⟩

def home (p : Page α) : Page α := { p with col := 0 }

def lineFeed (p : Page α) : Page α := { p with row := p.row + 1, col := 0 }

/-- One column to the left, unless the cursor is in the first one. -/
def left (p : Page α) : Page α := { p with col := p.col - 1 }

def moveTo (col : Nat) (p : Page α) : Page α := { p with col := col }

/-- A cursor behind the last column goes to the next row. -/
def wrap (cols : Nat) (p : Page α) : Page α := if p.col ≥ cols then p.lineFeed else p

/-- Write at the cursor. -/
def write (a : α) (p : Page α) : Page α :=
  { p with text := fun r c => if r = p.row ∧ c = p.col then a else p.text r c }

/-- Write at the cursor and go on to the next place. -/
def type (cols : Nat) (a : α) (p : Page α) : Page α :=
  ((p.write a).moveTo (p.col + 1)).wrap cols

@[simp] theorem text_home (p : Page α) : p.home.text = p.text := rfl
@[simp] theorem row_home (p : Page α) : p.home.row = p.row := rfl
@[simp] theorem col_home (p : Page α) : p.home.col = 0 := rfl
@[simp] theorem text_lineFeed (p : Page α) : p.lineFeed.text = p.text := rfl
@[simp] theorem row_lineFeed (p : Page α) : p.lineFeed.row = p.row + 1 := rfl
@[simp] theorem col_lineFeed (p : Page α) : p.lineFeed.col = 0 := rfl
@[simp] theorem text_left (p : Page α) : p.left.text = p.text := rfl
@[simp] theorem row_left (p : Page α) : p.left.row = p.row := rfl
@[simp] theorem col_left (p : Page α) : p.left.col = p.col - 1 := rfl
@[simp] theorem text_moveTo (col : Nat) (p : Page α) : (p.moveTo col).text = p.text := rfl
@[simp] theorem row_moveTo (col : Nat) (p : Page α) : (p.moveTo col).row = p.row := rfl
@[simp] theorem col_moveTo (col : Nat) (p : Page α) : (p.moveTo col).col = col := rfl
@[simp] theorem row_write (a : α) (p : Page α) : (p.write a).row = p.row := rfl
@[simp] theorem col_write (a : α) (p : Page α) : (p.write a).col = p.col := rfl

theorem text_write (a : α) (p : Page α) (r c : Nat) :
    (p.write a).text r c = if r = p.row ∧ c = p.col then a else p.text r c := rfl

@[simp] theorem text_wrap (cols : Nat) (p : Page α) : (p.wrap cols).text = p.text := by
  unfold wrap
  split <;> rfl

theorem col_wrap_lt {cols : Nat} (h : 0 < cols) (p : Page α) : (p.wrap cols).col < cols := by
  unfold wrap
  split
  · exact h
  · omega

@[simp] theorem text_type (cols : Nat) (a : α) (p : Page α) :
    (p.type cols a).text = (p.write a).text :=
  text_wrap ..

/-! ## Places in a row -/

/-- The number of the place under the cursor. -/
def pos (cols : Nat) (p : Page α) : Nat := p.row * cols + p.col

/-- What is written at the place with a number. -/
def textAt (cols : Nat) (p : Page α) (i : Nat) : α := p.text (i / cols) (i % cols)

theorem pos_type {cols : Nat} {p : Page α} (h : p.col < cols) (a : α) :
    (p.type cols a).pos cols = p.pos cols + 1 := by
  unfold type wrap
  split
  · rename_i hge
    have hcol : p.col + 1 = cols := Nat.le_antisymm h hge
    simp only [pos, row_lineFeed, col_lineFeed, row_moveTo, row_write, Nat.succ_mul]
    omega
  · rfl

theorem pos_left {cols : Nat} {p : Page α} (h : p.col ≠ 0) :
    p.left.pos cols + 1 = p.pos cols := by
  simp only [pos, row_left, col_left]
  omega

theorem textAt_write {cols : Nat} {p : Page α} (h : p.col < cols) (a : α) (i : Nat) :
    (p.write a).textAt cols i = if i = p.pos cols then a else p.textAt cols i := by
  have hplace : (i / cols = p.row ∧ i % cols = p.col) ↔ i = p.pos cols := by
    constructor
    · rintro ⟨hrow, hcol⟩
      rw [pos, ← hrow, ← hcol, Nat.mul_comm, Nat.div_add_mod]
    · rintro rfl
      have hpos : 0 < cols := Nat.zero_lt_of_lt h
      rw [pos, Nat.mul_comm]
      exact ⟨by rw [Nat.mul_add_div hpos, Nat.div_eq_of_lt h, Nat.add_zero],
        by rw [Nat.mul_add_mod, Nat.mod_eq_of_lt h]⟩
  simp only [textAt, text_write, hplace]

end Page

end SengOs
