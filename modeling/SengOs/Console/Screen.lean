import Mathlib.Tactic.Common
import SengOs.Lib.ByteMemory
import SengOs.Lib.Recorded

/-!
# The text screen of `kernel/vga.c`

The frame buffer is a `Recorded` memory of cells, counted from `VGA_ADDR`. The row and the
column of the cursor are `int`s: nothing in the type keeps them on the screen, or a cell that
is written in the frame buffer.
-/

namespace SengOs.Console

open ByteMemory

def vgaCols : Int := 80
def vgaRows : Int := 25

/-- `vga_color_t` -/
inductive VgaColor where
  | black | blue | green | cyan | red | magenta | brown | lightGrey
  | darkGrey | lightBlue | lightGreen | lightCyan | lightRed | lightMagenta | yellow | white
  deriving DecidableEq

def VgaColor.value : VgaColor → BitVec 32
  | black => 0
  | blue => 1
  | green => 2
  | cyan => 3
  | red => 4
  | magenta => 5
  | brown => 6
  | lightGrey => 7
  | darkGrey => 8
  | lightBlue => 9
  | lightGreen => 10
  | lightCyan => 11
  | lightRed => 12
  | lightMagenta => 13
  | yellow => 14
  | white => 15

/-- `VGA_ATTR` -/
def vgaAttr (fg bg : VgaColor) : Byte := ((bg.value <<< 4) ||| fg.value).setWidth 8

def newline : Byte := 0x0A
def carriageReturn : Byte := 0x0D
def tab : Byte := 0x09
def backspace : Byte := 0x08
def blank : Byte := 0x20

/-- A cell of the frame buffer: a character and its attribute. -/
abbrev Cell := BitVec 16

/-- `(uint16_t)((attr << 8) | (uint8_t)c)` -/
def cell (c attr : Byte) : Cell := (attr.setWidth 16 <<< 8) ||| c.setWidth 16

/-- The character in a cell. -/
def Cell.char (x : Cell) : Byte := x.setWidth 8

@[simp] theorem char_cell (c attr : Byte) : (cell c attr).char = c := by
  apply BitVec.eq_of_getLsbD_eq
  intro i hi
  simp [cell, Cell.char, hi]

/-- The frame buffer and the variables of `vga.c`; `crtc` are the registers of the controller
that shows the cursor. -/
structure Screen where
  vga : Recorded Int Cell
  cursorRow : Int
  cursorCol : Int
  curAttr : Byte
  crtc : Byte → Byte

/-- `update_hw_cursor` -/
def updateHwCursor (s : Screen) : Screen :=
  let pos : BitVec 16 := BitVec.ofInt 16 (s.cursorRow * vgaCols + s.cursorCol)
  let low := Function.update s.crtc 0x0F (pos.setWidth 8)
  { s with crtc := Function.update low 0x0E ((pos >>> 8).setWidth 8) }

/-- `vga_write_cell` -/
def vgaWriteCell (row col : Int) (c attr : Byte) (vga : Recorded Int Cell) : Recorded Int Cell :=
  vga.write (row * vgaCols + col) (cell c attr)

/-! ## Scrolling -/

/-- Cells `0` to `n - 1` of row `r` become those of the row below. -/
def moveRow (r : Int) (vga : Recorded Int Cell) : Nat → Recorded Int Cell
  | 0 => vga
  | c + 1 => (moveRow r vga c).write (r * vgaCols + c)
      ((moveRow r vga c).get ((r + 1) * vgaCols + c))

/-- Each of the first `n` rows becomes the row below. -/
def moveRows (vga : Recorded Int Cell) : Nat → Recorded Int Cell
  | 0 => vga
  | r + 1 => moveRow r (moveRows vga r) vgaCols.toNat

/-- `n` cells from cell `start` on become `x`. -/
def fillCells (start : Int) (x : Cell) (vga : Recorded Int Cell) : Nat → Recorded Int Cell
  | 0 => vga
  | i + 1 => (fillCells start x vga i).write (start + i) x

/-- `scroll_up` -/
def scrollUp (s : Screen) : Screen :=
  { s with
    vga := fillCells ((vgaRows - 1) * vgaCols) (cell blank s.curAttr)
      (moveRows s.vga (vgaRows - 1).toNat) vgaCols.toNat
    cursorRow := vgaRows - 1 }

theorem get_moveRow (r : Int) (vga : Recorded Int Cell) {n : Nat} (hn : n ≤ 80) (i : Int) :
    (moveRow r vga n).get i =
      if r * vgaCols ≤ i ∧ i < r * vgaCols + n then vga.get (i + vgaCols) else vga.get i := by
  induction n generalizing i with
  | zero =>
    rw [if_neg (by omega)]
    rfl
  | succ n ih =>
    have hread := ih (by omega) ((r + 1) * vgaCols + n)
    rw [if_neg (by simp only [vgaCols]; omega)] at hread
    rw [moveRow, Recorded.get_write, hread, ih (by omega)]
    split
    · rename_i hi
      rw [if_pos (by omega)]
      congr 1
      simp only [vgaCols] at *
      omega
    · congr 1
      apply propext
      omega

theorem get_moveRows (vga : Recorded Int Cell) (n : Nat) (i : Int) :
    (moveRows vga n).get i =
      if 0 ≤ i ∧ i < n * vgaCols then vga.get (i + vgaCols) else vga.get i := by
  induction n generalizing i with
  | zero =>
    rw [if_neg (by omega)]
    rfl
  | succ n ih =>
    rw [moveRows, get_moveRow n _ (by decide), ih, ih]
    simp only [vgaCols] at *
    grind

theorem get_fillCells (start : Int) (x : Cell) (vga : Recorded Int Cell) (n : Nat) (i : Int) :
    (fillCells start x vga n).get i = if start ≤ i ∧ i < start + n then x else vga.get i := by
  induction n with
  | zero =>
    rw [if_neg (by omega)]
    rfl
  | succ n ih =>
    rw [fillCells, Recorded.get_write, ih]
    grind

/-- The rows move up by one, and the last one becomes blank. -/
theorem get_scrollUp (s : Screen) (i : Int) :
    (scrollUp s).vga.get i =
      if 1920 ≤ i ∧ i < 2000 then cell blank s.curAttr
      else if 0 ≤ i ∧ i < 1920 then s.vga.get (i + vgaCols)
      else s.vga.get i := by
  simp only [scrollUp, get_fillCells, get_moveRows]
  rfl

/-! ## Where the cells are written -/

/-- A cell of the frame buffer: 25 rows of 80. -/
def InFrame (i : Int) : Prop := 0 ≤ i ∧ i < vgaRows * vgaCols

theorem within_moveRow {r : Nat} {vga : Recorded Int Cell} (h : vga.Within InFrame) (hr : r < 25)
    {n : Nat} (hn : n ≤ 80) : (moveRow r vga n).Within InFrame := by
  induction n with
  | zero => exact h
  | succ n ih =>
    apply (ih (by omega)).write
    simp only [InFrame, vgaRows, vgaCols]
    omega

theorem within_moveRows {vga : Recorded Int Cell} (h : vga.Within InFrame) {n : Nat}
    (hn : n ≤ 25) : (moveRows vga n).Within InFrame := by
  induction n with
  | zero => exact h
  | succ n ih => exact within_moveRow (ih (by omega)) (by omega) (by decide)

theorem within_fillCells {start : Int} (x : Cell) {vga : Recorded Int Cell}
    (h : vga.Within InFrame) {n : Nat} (h0 : 0 ≤ start) (hn : start + n ≤ vgaRows * vgaCols) :
    (fillCells start x vga n).Within InFrame := by
  induction n with
  | zero => exact h
  | succ n ih =>
    apply (ih (by omega)).write
    constructor <;> omega

/-! ## The interface -/

/-- `vga_clear` -/
def vgaClear (bg : VgaColor) (s : Screen) : Screen :=
  let attr := vgaAttr .lightGrey bg
  updateHwCursor { s with
    curAttr := attr
    vga := fillCells 0 (cell blank attr) s.vga (vgaRows * vgaCols).toNat
    cursorRow := 0
    cursorCol := 0 }

/-- `vga_init` -/
def vgaInit (s : Screen) : Screen :=
  vgaClear .black { s with
    curAttr := vgaAttr .lightGrey .black, cursorRow := 0, cursorCol := 0 }

/-- `vga_set_color` -/
def vgaSetColor (fg bg : VgaColor) (s : Screen) : Screen := { s with curAttr := vgaAttr fg bg }

/-- `(cursor_col + 8) & ~7` -/
def nextTab (col : Int) : Int := (BitVec.ofInt 32 (col + 8) &&& ~~~7#32).toInt

theorem and_not_seven (x : BitVec 32) : x &&& ~~~7#32 = (x >>> 3) <<< 3 := by
  have hmask : ~~~7#32 = BitVec.allOnes 32 <<< 3 := by decide
  rw [hmask]
  apply BitVec.eq_of_getLsbD_eq
  intro i hi
  rw [BitVec.getLsbD_and, BitVec.getLsbD_shiftLeft, BitVec.getLsbD_allOnes,
    BitVec.getLsbD_shiftLeft, BitVec.getLsbD_ushiftRight]
  by_cases h3 : i < 3
  · simp [h3]
  · have hsub : 3 + (i - 3) = i := by omega
    simp [hi, h3, hsub, Nat.lt_of_le_of_lt (Nat.sub_le i 3) hi]

theorem nextTab_eq {col : Int} (h : 0 ≤ col) (hlt : col < 2 ^ 30) :
    nextTab col = (col + 8) / 8 * 8 := by
  obtain ⟨n, rfl⟩ := Int.eq_ofNat_of_zero_le h
  have hof : BitVec.ofInt 32 ((n : Int) + 8) = BitVec.ofNat 32 (n + 8) := by
    exact_mod_cast BitVec.ofInt_natCast 32 (n + 8)
  rw [nextTab, and_not_seven, hof]
  rw [BitVec.toInt_eq_toNat_of_lt]
  · simp [BitVec.toNat_ushiftRight, Nat.shiftRight_eq_div_pow, Nat.shiftLeft_eq]
    omega
  · simp [BitVec.toNat_ushiftRight, Nat.shiftRight_eq_div_pow, Nat.shiftLeft_eq]
    omega

/-- `if (cursor_col >= VGA_COLS) { cursor_col = 0; cursor_row++; }` -/
def wrap (s : Screen) : Screen :=
  if s.cursorCol ≥ vgaCols then { s with cursorCol := 0, cursorRow := s.cursorRow + 1 } else s

/-- What `vga_putchar` does before it scrolls. -/
def place (c : Byte) (s : Screen) : Screen :=
  if c = newline then { s with cursorCol := 0, cursorRow := s.cursorRow + 1 }
  else if c = carriageReturn then { s with cursorCol := 0 }
  else if c = tab then wrap { s with cursorCol := nextTab s.cursorCol }
  else if c = backspace then
    let col := if s.cursorCol > 0 then s.cursorCol - 1 else s.cursorCol
    { s with cursorCol := col, vga := vgaWriteCell s.cursorRow col blank s.curAttr s.vga }
  else
    wrap { s with
      vga := vgaWriteCell s.cursorRow s.cursorCol c s.curAttr s.vga
      cursorCol := s.cursorCol + 1 }

/-- `vga_putchar` -/
def vgaPutchar (c : Byte) (s : Screen) : Screen :=
  let s := place c s
  updateHwCursor (if s.cursorRow ≥ vgaRows then scrollUp s else s)

/-- `while (*str) vga_putchar(*str++);`, where `cs` are the characters before the NUL. -/
def putAll (cs : List Byte) (s : Screen) : Screen := cs.foldl (fun s c => vgaPutchar c s) s

/-- `vga_set_cursor` -/
def vgaSetCursor (row col : Int) (s : Screen) : Screen :=
  updateHwCursor { s with
    cursorRow := if row < 0 then 0 else if row ≥ vgaRows then vgaRows - 1 else row
    cursorCol := if col < 0 then 0 else if col ≥ vgaCols then vgaCols - 1 else col }

end SengOs.Console
