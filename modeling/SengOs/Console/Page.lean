import SengOs.Console.Screen
import SengOs.Lib.Page

/-!
# The screen is a window on a page

`put` is what the characters mean on a page that never scrolls. After `vga_clear`, the screen
shows the last 25 rows that the page has reached, from row `top` on, and its cursor is at the
place of the page's cursor (`shows_putAll`). Inside `vga_putchar` the cursor may be in the row
below the screen; `Window` is the relation there, and `scroll_up` moves its top by one row.
-/

namespace SengOs.Console

open ByteMemory

/-- Place a character on a page of 80 columns. -/
def put (c : Byte) (p : Page Byte) : Page Byte :=
  if c = newline then p.lineFeed
  else if c = carriageReturn then p.home
  else if c = tab then (p.moveTo (p.col / 8 * 8 + 8)).wrap 80
  else if c = backspace then p.left.write blank
  else p.type 80 c

/-- A page after the characters `cs`. -/
def typeset (cs : List Byte) (p : Page Byte) : Page Byte := cs.foldl (fun p c => put c p) p

/-- The first row of the page that is on the screen. -/
def top (p : Page Byte) : Nat := p.row - 24

/-! ## Placing -/

/-- The screen shows the page from row `t` on, and below it the page is blank. -/
structure Window (t : Nat) (s : Screen) (p : Page Byte) : Prop where
  row : s.cursorRow = (p.row : Int) - t
  col : s.cursorCol = p.col
  col_lt : p.col < 80
  top_le : t ≤ p.row
  text : ∀ r c : Nat, r < 25 → c < 80 → (s.vga.get (r * vgaCols + c)).char = p.text (t + r) c
  below : ∀ r c : Nat, t + 25 ≤ r → p.text r c = blank

section Window

variable {t : Nat} {s : Screen} {p : Page Byte}

theorem Window.updateHwCursor (h : Window t s p) : Window t (updateHwCursor s) p :=
  ⟨h.row, h.col, h.col_lt, h.top_le, h.text, h.below⟩

theorem Window.home (h : Window t s p) : Window t { s with cursorCol := 0 } p.home :=
  ⟨h.row, rfl, by simp, h.top_le, h.text, h.below⟩

theorem Window.lineFeed (h : Window t s p) :
    Window t { s with cursorCol := 0, cursorRow := s.cursorRow + 1 } p.lineFeed where
  row := by
    simp only [h.row, Page.row_lineFeed]
    omega
  col := rfl
  col_lt := by simp
  top_le := Nat.le_succ_of_le h.top_le
  text := h.text
  below := h.below

/-- A cursor that moved to the right, where `place` wraps it. -/
theorem Window.wrap (h : Window t s p) (col : Nat) :
    Window t (wrap { s with cursorCol := col }) ((p.moveTo col).wrap 80) := by
  unfold Console.wrap Page.wrap
  by_cases hcol : col ≥ 80
  · have hcol' : (col : Int) ≥ vgaCols := by simpa [vgaCols] using hcol
    rw [if_pos hcol', if_pos (by simpa using hcol)]
    exact h.lineFeed
  · have hcol' : ¬ (col : Int) ≥ vgaCols := by simpa [vgaCols] using hcol
    rw [if_neg hcol', if_neg (by simpa using hcol)]
    exact ⟨h.row, rfl, by simpa using hcol, h.top_le, h.text, h.below⟩

theorem Window.left (h : Window t s p) :
    Window t { s with cursorCol := if s.cursorCol > 0 then s.cursorCol - 1 else s.cursorCol }
      p.left where
  row := h.row
  col := by
    simp only [h.col, Page.col_left]
    split <;> omega
  col_lt := Nat.lt_of_le_of_lt (Nat.sub_le _ _) h.col_lt
  top_le := h.top_le
  text := h.text
  below := h.below

theorem Window.write (h : Window t s p) (hrow : p.row ≤ t + 24) (c attr : Byte) :
    Window t { s with vga := vgaWriteCell s.cursorRow s.cursorCol c attr s.vga }
      (p.write c) where
  row := h.row
  col := h.col
  col_lt := h.col_lt
  top_le := h.top_le
  text r k hr hk := by
    have hplace : (r : Int) * vgaCols + k = s.cursorRow * vgaCols + s.cursorCol ↔
        t + r = p.row ∧ k = p.col := by
      have hcol := h.col_lt
      have htop := h.top_le
      rw [h.row, h.col]
      simp only [vgaCols]
      omega
    simp only [vgaWriteCell, Recorded.get_write, Page.text_write, hplace]
    split
    · simp
    · exact h.text r k hr hk
  below r k hr := by
    rw [Page.text_write, if_neg (by omega)]
    exact h.below r k hr

/-- What `vga_putchar` does before it scrolls. -/
theorem Window.place (h : Window t s p) (hrow : p.row ≤ t + 24) (c : Byte) :
    Window t (place c s) (put c p) := by
  unfold Console.place put
  by_cases h1 : c = newline
  · rw [if_pos h1, if_pos h1]
    exact h.lineFeed
  rw [if_neg h1, if_neg h1]
  by_cases h2 : c = carriageReturn
  · rw [if_pos h2, if_pos h2]
    exact h.home
  rw [if_neg h2, if_neg h2]
  by_cases h3 : c = tab
  · have htab : nextTab s.cursorCol = ((p.col / 8 * 8 + 8 : Nat) : Int) := by
      have hcol := h.col_lt
      rw [h.col, nextTab_eq (by omega) (by omega)]
      omega
    rw [if_pos h3, if_pos h3, htab]
    exact h.wrap _
  rw [if_neg h3, if_neg h3]
  by_cases h4 : c = backspace
  · rw [if_pos h4, if_pos h4]
    exact h.left.write hrow blank s.curAttr
  · rw [if_neg h4, if_neg h4]
    have hcol : s.cursorCol + 1 = ((p.col + 1 : Nat) : Int) := by simp [h.col]
    rw [hcol]
    exact (h.write hrow c s.curAttr).wrap _

theorem Window.scrollUp (h : Window t s p) (hrow : p.row = t + 25) :
    Window (t + 1) (scrollUp s) p where
  row := by
    simp only [Console.scrollUp, vgaRows, hrow]
    omega
  col := h.col
  col_lt := h.col_lt
  top_le := by omega
  text r c hr hc := by
    have hcols : vgaCols = 80 := rfl
    rw [get_scrollUp, hcols]
    by_cases hlast : r = 24
    · rw [if_pos (by omega), char_cell, h.below _ _ (by omega)]
    · have hbelow := h.text (r + 1) c (by omega) hc
      have hplace : (r : Int) * 80 + c + 80 = (r + 1 : Nat) * 80 + c := by omega
      rw [hcols] at hbelow
      rw [if_neg (by omega), if_pos (by omega), hplace, hbelow, Nat.add_right_comm t 1 r,
        Nat.add_assoc]
  below r c hr := h.below r c (by omega)

end Window

/-! ## Whole texts -/

/-- The screen shows the end of the page. -/
def Shows (s : Screen) (p : Page Byte) : Prop := Window (top p) s p

theorem row_put (c : Byte) (p : Page Byte) :
    p.row ≤ (put c p).row ∧ (put c p).row ≤ p.row + 1 := by
  unfold put Page.type Page.wrap
  repeat' split
  all_goals simp

theorem Shows.vgaPutchar {s : Screen} {p : Page Byte} (h : Shows s p) (c : Byte) :
    Shows (vgaPutchar c s) (put c p) := by
  have hplace : Window (top p) (place c s) (put c p) :=
    Window.place h (Nat.le_add_of_sub_le le_rfl) c
  have hrow := row_put c p
  apply Window.updateHwCursor
  by_cases hscroll : (put c p).row = top p + 25
  · have htop : top (put c p) = top p + 1 := by
      simp only [top] at *
      omega
    rw [if_pos (by rw [hplace.row, vgaRows]; omega), htop]
    exact hplace.scrollUp hscroll
  · have htop : top (put c p) = top p := by
      simp only [top] at *
      omega
    rw [if_neg (by simp only [hplace.row, vgaRows, top] at *; omega), htop]
    exact hplace

theorem shows_vgaClear (bg : VgaColor) (s : Screen) : Shows (vgaClear bg s) (Page.fresh blank) where
  row := rfl
  col := rfl
  col_lt := by simp [Page.fresh]
  top_le := le_rfl
  text r c hr hc := by
    have hin : 0 ≤ r * vgaCols + c ∧ r * vgaCols + c < 0 + ((vgaRows * vgaCols).toNat : Int) := by
      simp only [vgaRows, vgaCols]
      omega
    rw [vgaClear, updateHwCursor, get_fillCells, if_pos hin, char_cell]
    rfl
  below _ _ _ := rfl

theorem Shows.putAll {s : Screen} {p : Page Byte} (h : Shows s p) (cs : List Byte) :
    Shows (putAll cs s) (typeset cs p) :=
  List.foldl_rel h fun c _ _ _ h => h.vgaPutchar c

/-- After `vga_clear`, the screen is a window on an endless page: it shows the last 25 rows
reached, and its cursor stands where the page's does. -/
theorem shows_page (bg : VgaColor) (s : Screen) (cs : List Byte) :
    let s' := putAll cs (vgaClear bg s)
    let p := typeset cs (Page.fresh blank)
    (∀ r c : Nat, r < 25 → c < 80 →
      (s'.vga.get (r * vgaCols + c)).char = p.text (max 0 ((p.row : Int) - 24) + r).toNat c) ∧
    s'.cursorRow = p.row - max 0 ((p.row : Int) - 24) ∧ s'.cursorCol = p.col := by
  have h : Shows (putAll cs (vgaClear bg s)) (typeset cs (Page.fresh blank)) :=
    (shows_vgaClear bg s).putAll cs
  refine ⟨fun r c hr hc => ?_, ?_, h.col⟩
  · rw [h.text r c hr hc, top]
    congr 1
    omega
  · rw [h.row, top]
    omega

end SengOs.Console
