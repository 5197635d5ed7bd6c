import SengOs.Console.Printf
import SengOs.Console.Screen

/-!
# Output stays in the frame buffer

Between two calls the cursor is on the screen (`OnScreen`). Inside `vga_putchar` it may be in
the row below, but a cell is written before the cursor moves on, and then `scroll_up` brings it
back. So whatever is called, every cell that is written is one of the 2000 of the frame buffer
(`writes_in_frame`). The cursor that the controller shows is the one of the variables.
-/

namespace SengOs.Console

open ByteMemory Shell

/-! ## Calls -/

/-- The calls that print or move the cursor. The loops of those that read memory run for at
most `n` rounds. -/
inductive Call where
  | putchar (c : Byte)
  | puts (m : Ram) (str : BitVec 32) (n : Nat)
  | putsColor (m : Ram) (str : BitVec 32) (fg bg : VgaColor) (n : Nat)
  | printf (m : Ram) (junk : Nat → Nat → Byte) (fmt : BitVec 32) (va : Nat → BitVec 32) (n : Nat)
  | setColor (fg bg : VgaColor)
  | clear (bg : VgaColor)
  | setCursor (row col : Int)

/-- `vga_puts_color` -/
def vgaPutsColor (m : Ram) (str : BitVec 32) (fg bg : VgaColor) (n : Nat) (s : Screen) : Screen :=
  { putAll (vgaPuts m str n).text (vgaSetColor fg bg s) with curAttr := s.curAttr }

def Call.run : Call → Screen → Screen
  | putchar c, s => vgaPutchar c s
  | puts m str n, s => putAll (vgaPuts m str n).text s
  | putsColor m str fg bg n, s => vgaPutsColor m str fg bg n s
  | printf m junk fmt va n, s => putAll (vgaPrintf m junk fmt va n).val.text s
  | setColor fg bg, s => vgaSetColor fg bg s
  | clear bg, s => vgaClear bg s
  | setCursor row col, s => vgaSetCursor row col s

def runCalls (calls : List Call) (s : Screen) : Screen := calls.foldl (fun s c => c.run s) s

/-! ## One character -/

/-- The cursor shown by the controller is the one of the variables. -/
def Shown (s : Screen) : Prop :=
  s.crtc 0x0E ++ s.crtc 0x0F = BitVec.ofInt 16 (s.cursorRow * vgaCols + s.cursorCol)

theorem shown_updateHwCursor (s : Screen) : Shown (updateHwCursor s) := by
  unfold Shown updateHwCursor
  dsimp only
  rw [Function.update_self, Function.update_of_ne (by decide), Function.update_self]
  generalize BitVec.ofInt 16 (s.cursorRow * vgaCols + s.cursorCol) = pos
  apply BitVec.eq_of_getLsbD_eq
  intro i hi
  rw [BitVec.getLsbD_append]
  by_cases hlow : i < 8
  · simp [hlow]
  · have hsub : 8 + (i - 8) = i := by omega
    simp [hlow, hsub, Nat.sub_lt_left_of_lt_add (Nat.le_of_not_lt hlow) hi]

/-- What holds of the screen between two calls. -/
structure OnScreen (s : Screen) : Prop where
  row : 0 ≤ s.cursorRow ∧ s.cursorRow < vgaRows
  col : 0 ≤ s.cursorCol ∧ s.cursorCol < vgaCols
  writes : s.vga.Within InFrame
  shown : Shown s

/-- What holds before `vga_putchar` scrolls: the cursor may be in the row below. -/
structure BeforeScroll (s : Screen) : Prop where
  row : 0 ≤ s.cursorRow ∧ s.cursorRow ≤ vgaRows
  col : 0 ≤ s.cursorCol ∧ s.cursorCol < vgaCols
  writes : s.vga.Within InFrame

theorem first_row : (0 : Int) ≤ 0 ∧ 0 < vgaRows := by decide

theorem last_row : 0 ≤ vgaRows - 1 ∧ vgaRows - 1 < vgaRows := by decide

theorem first_col : (0 : Int) ≤ 0 ∧ 0 < vgaCols := by decide

section Step

variable {s : Screen}

theorem OnScreen.inFrame (h : OnScreen s) {col : Int} (h0 : 0 ≤ col) (hlt : col < vgaCols) :
    InFrame (s.cursorRow * vgaCols + col) := by
  have hrow := h.row
  simp only [InFrame, vgaRows, vgaCols] at *
  omega

/-- A cursor that moved to the right, by a whole tab at most. -/
theorem beforeScroll_wrap (hrow : 0 ≤ s.cursorRow ∧ s.cursorRow < vgaRows) (hcol : 0 ≤ s.cursorCol)
    (hwrites : s.vga.Within InFrame) : BeforeScroll (wrap s) := by
  unfold wrap
  split
  · exact ⟨⟨by simp only; omega, by simp only; omega⟩, first_col, hwrites⟩
  · exact ⟨⟨hrow.1, by omega⟩, ⟨hcol, by omega⟩, hwrites⟩

theorem OnScreen.place (h : OnScreen s) (c : Byte) : BeforeScroll (place c s) := by
  have hrow := h.row
  have hcol := h.col
  unfold Console.place
  split
  · exact ⟨⟨by simp only; omega, by simp only; omega⟩, first_col, h.writes⟩
  split
  · exact ⟨⟨hrow.1, by simp only; omega⟩, first_col, h.writes⟩
  split
  · apply beforeScroll_wrap
    · exact hrow
    · dsimp only
      rw [nextTab_eq hcol.1 (by simp only [vgaCols] at hcol; omega)]
      omega
    · exact h.writes
  split
  · dsimp only
    have hleft : 0 ≤ (if s.cursorCol > 0 then s.cursorCol - 1 else s.cursorCol) ∧
        (if s.cursorCol > 0 then s.cursorCol - 1 else s.cursorCol) < vgaCols := by
      split <;> omega
    exact ⟨⟨hrow.1, by simp only; omega⟩, hleft, h.writes.write (h.inFrame hleft.1 hleft.2) _⟩
  · apply beforeScroll_wrap
    · exact hrow
    · simp only
      omega
    · exact h.writes.write (h.inFrame hcol.1 hcol.2) _

theorem BeforeScroll.scroll (h : BeforeScroll s) :
    OnScreen (updateHwCursor (if s.cursorRow ≥ vgaRows then scrollUp s else s)) := by
  refine ⟨?_, ?_, ?_, shown_updateHwCursor _⟩
  · show 0 ≤ (ite _ _ _ : Screen).cursorRow ∧ (ite _ _ _ : Screen).cursorRow < vgaRows
    split
    · exact last_row
    · exact ⟨h.row.1, by omega⟩
  · show 0 ≤ (ite _ _ _ : Screen).cursorCol ∧ (ite _ _ _ : Screen).cursorCol < vgaCols
    split <;> exact h.col
  · show (ite _ _ _ : Screen).vga.Within InFrame
    split
    · exact within_fillCells _ (within_moveRows h.writes (by decide)) (by decide) (by decide)
    · exact h.writes

theorem OnScreen.vgaPutchar (h : OnScreen s) (c : Byte) : OnScreen (vgaPutchar c s) :=
  (h.place c).scroll

theorem OnScreen.putAll (h : OnScreen s) (cs : List Byte) : OnScreen (putAll cs s) :=
  List.foldlRecOn cs _ h fun _ h c _ => h.vgaPutchar c

/-! ## Whole calls -/

theorem onScreen_vgaClear (hwrites : s.vga.Within InFrame) (bg : VgaColor) :
    OnScreen (vgaClear bg s) :=
  ⟨first_row, first_col, within_fillCells _ hwrites le_rfl (by decide),
    shown_updateHwCursor _⟩

theorem clamp_bounds (x : Int) {n : Int} (hn : 0 < n) :
    0 ≤ (if x < 0 then 0 else if x ≥ n then n - 1 else x) ∧
      (if x < 0 then 0 else if x ≥ n then n - 1 else x) < n := by
  split_ifs <;> omega

theorem onScreen_vgaSetCursor (hwrites : s.vga.Within InFrame) (row col : Int) :
    OnScreen (vgaSetCursor row col s) :=
  ⟨clamp_bounds row first_row.2, clamp_bounds col first_col.2, hwrites,
    shown_updateHwCursor _⟩

theorem OnScreen.run (h : OnScreen s) (call : Call) : OnScreen (call.run s) := by
  cases call with
  | putchar c => exact h.vgaPutchar c
  | puts m str n => exact h.putAll _
  | putsColor m str fg bg n =>
    have hset : OnScreen (vgaSetColor fg bg s) := ⟨h.row, h.col, h.writes, h.shown⟩
    have hput := hset.putAll (vgaPuts m str n).text
    exact ⟨hput.row, hput.col, hput.writes, hput.shown⟩
  | printf m junk fmt va n => exact h.putAll _
  | setColor fg bg => exact ⟨h.row, h.col, h.writes, h.shown⟩
  | clear bg => exact onScreen_vgaClear h.writes bg
  | setCursor row col => exact onScreen_vgaSetCursor h.writes row col

theorem OnScreen.runCalls (h : OnScreen s) (calls : List Call) : OnScreen (runCalls calls s) :=
  List.foldlRecOn calls _ h fun _ h call _ => h.run call

end Step

/-- After `vga_init`, whatever is called: the cursor is on the screen between the calls, and
every cell written is in the frame buffer. -/
theorem writes_in_frame (cells : Int → Cell) (row col : Int) (attr : Byte) (crtc : Byte → Byte)
    (calls : List Call) :
    let s := runCalls calls (vgaInit ⟨⟨cells, []⟩, row, col, attr, crtc⟩)
    (0 ≤ s.cursorRow ∧ s.cursorRow < 25) ∧ (0 ≤ s.cursorCol ∧ s.cursorCol < 80) ∧
      ∀ i ∈ s.vga.writes, 0 ≤ i ∧ i < 2000 := by
  have h : OnScreen (runCalls calls (vgaInit ⟨⟨cells, []⟩, row, col, attr, crtc⟩)) :=
    (onScreen_vgaClear (fun _ hi => absurd hi List.not_mem_nil) .black).runCalls calls
  exact ⟨h.row, h.col, h.writes⟩

end SengOs.Console
