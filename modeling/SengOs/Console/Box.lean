import SengOs.Console.Bounds

/-!
# `vga_draw_box`

A box is drawn with `vga_write_cell` alone, which checks nothing. `draw_box_exact` says for all
boxes that fit between the left and the right end of the screen what is in every cell behind
the call, and that the rows alone decide whether the call stays in the frame buffer.
-/

namespace SengOs.Console

open ByteMemory

/-- `for (int x = start; x < start + n; x++)` -/
def forLoop (body : Int → Recorded Int Cell → Recorded Int Cell) (start : Int)
    (vga : Recorded Int Cell) : Nat → Recorded Int Cell
  | 0 => vga
  | n + 1 => body (start + n) (forLoop body start vga n)

/-- `vga_draw_box` -/
def vgaDrawBox (row col height width : Int) (color : VgaColor) (s : Screen) : Screen :=
  let saved := s.curAttr
  let s := vgaSetColor color .black s
  let vga := vgaWriteCell row col 0xC9 s.curAttr s.vga
  let vga := vgaWriteCell row (col + width - 1) 0xBB s.curAttr vga
  let vga := vgaWriteCell (row + height - 1) col 0xC8 s.curAttr vga
  let vga := vgaWriteCell (row + height - 1) (col + width - 1) 0xBC s.curAttr vga
  let vga := forLoop (fun c vga => vgaWriteCell (row + height - 1) c 0xCD s.curAttr
    (vgaWriteCell row c 0xCD s.curAttr vga)) (col + 1) vga (width - 2).toNat
  let vga := forLoop (fun r vga => vgaWriteCell r (col + width - 1) 0xBA s.curAttr
    (vgaWriteCell r col 0xBA s.curAttr vga)) (row + 1) vga (height - 2).toNat
  { s with vga, curAttr := saved }

/-- The character of a box in a cell, if it has one there. In a box of one row or one column the
corners that are drawn last stay. -/
def boxChar (row col height width r c : Int) : Option Byte :=
  let bottom := row + height - 1
  let right := col + width - 1
  if r = bottom ∧ c = right then some 0xBC
  else if r = bottom ∧ c = col then some 0xC8
  else if r = row ∧ c = right then some 0xBB
  else if r = row ∧ c = col then some 0xC9
  else if (r = row ∨ r = bottom) ∧ col < c ∧ c < right then some 0xCD
  else if (c = col ∨ c = right) ∧ row < r ∧ r < bottom then some 0xBA
  else none

section Cells

variable {r c r' c' : Int} {vga : Recorded Int Cell} {ch attr : Byte} {n : Nat} {start : Int}

/-- A column of the screen -/
def InRow (c : Int) : Prop := 0 ≤ c ∧ c < vgaCols

/-- Cells of the screen with different coordinates are different. -/
theorem get_vgaWriteCell (hc : InRow c) (hc' : InRow c') :
    (vgaWriteCell r' c' ch attr vga).get (r * vgaCols + c) =
      if r = r' ∧ c = c' then cell ch attr else vga.get (r * vgaCols + c) := by
  rw [vgaWriteCell, Recorded.get_write]
  apply if_congr _ rfl rfl
  simp only [InRow, vgaCols] at *
  omega

/-- What a loop writes to a cell, if round `x` writes to it in the case of `Q x`. -/
theorem get_forLoop {body : Int → Recorded Int Cell → Recorded Int Cell} {i : Int}
    (Q : Int → Prop) [DecidablePred Q] (x₀ : Cell)
    (hbody : ∀ x vga, start ≤ x → x < start + n →
      (body x vga).get i = if Q x then x₀ else vga.get i) :
    ((∃ x, start ≤ x ∧ x < start + n ∧ Q x) ∧ (forLoop body start vga n).get i = x₀) ∨
      ((∀ x, start ≤ x → x < start + n → ¬Q x) ∧
        (forLoop body start vga n).get i = vga.get i) := by
  induction n with
  | zero =>
    right
    refine ⟨fun x hx hlt => ?_, rfl⟩
    omega
  | succ n ih =>
    have hold := ih fun x vga hx hlt => hbody x vga hx (by omega)
    rw [forLoop, hbody _ _ (by omega) (by omega)]
    by_cases hq : Q (start + n)
    · left
      exact ⟨⟨start + n, by omega, by omega, hq⟩, if_pos hq⟩
    rw [if_neg hq]
    rcases hold with ⟨⟨x, hx, hlt, hQ⟩, hget⟩ | ⟨hnone, hget⟩
    · left
      exact ⟨⟨x, hx, by omega, hQ⟩, hget⟩
    · right
      refine ⟨fun x hx hlt => ?_, hget⟩
      rcases eq_or_ne x (start + n) with rfl | hne
      · exact hq
      · exact hnone x hx (by omega)

theorem within_forLoop {body : Int → Recorded Int Cell → Recorded Int Cell} {P : Int → Prop}
    (hbody : ∀ x vga, start ≤ x → x < start + n → vga.Within P → (body x vga).Within P)
    (h : vga.Within P) : (forLoop body start vga n).Within P := by
  induction n with
  | zero => exact h
  | succ n ih =>
    apply hbody _ _ (by omega) (by omega)
    apply ih
    intro x vga hx hlt
    exact hbody x vga hx (by omega)

/-- What a loop has written before stays on its record. -/
theorem writes_forLoop {body : Int → Recorded Int Cell → Recorded Int Cell} {i : Int}
    (hbody : ∀ x vga, i ∈ vga.writes → i ∈ (body x vga).writes) (h : i ∈ vga.writes) :
    i ∈ (forLoop body start vga n).writes := by
  induction n with
  | zero => exact h
  | succ n ih => exact hbody _ _ ih

end Cells

/-! ## The box -/

section Box

variable {row col height width r c : Int} {vga : Recorded Int Cell} {attr : Byte}

theorem get_horizontal (hc : InRow c) (hcol : 0 ≤ col) (hfit : col + width ≤ vgaCols) :
    (forLoop (fun c vga => vgaWriteCell (row + height - 1) c 0xCD attr
      (vgaWriteCell row c 0xCD attr vga)) (col + 1) vga (width - 2).toNat).get (r * vgaCols + c) =
    if (r = row ∨ r = row + height - 1) ∧ col < c ∧ c < col + width - 1 then cell 0xCD attr
    else vga.get (r * vgaCols + c) := by
  have hbody (x : Int) (vga : Recorded Int Cell) (hx : col + 1 ≤ x)
      (hlt : x < col + 1 + (width - 2).toNat) :
      (vgaWriteCell (row + height - 1) x 0xCD attr (vgaWriteCell row x 0xCD attr vga)).get
        (r * vgaCols + c) =
      if (r = row ∨ r = row + height - 1) ∧ c = x then cell 0xCD attr
      else vga.get (r * vgaCols + c) := by
    have hin : InRow x := by
      simp only [InRow, vgaCols] at *
      omega
    rw [get_vgaWriteCell hc hin, get_vgaWriteCell hc hin]
    by_cases hcx : c = x <;> by_cases hbottom : r = row + height - 1 <;>
      by_cases htop : r = row <;> simp [hcx, hbottom, htop]
  rcases get_forLoop _ _ hbody with ⟨⟨x, hx, hlt, hr, hcx⟩, hget⟩ | ⟨hnone, hget⟩
  · rw [hget, if_pos ⟨hr, by omega, by omega⟩]
  · rw [hget, if_neg]
    rintro ⟨hr, hlo, hhi⟩
    exact hnone c (by omega) (by omega) ⟨hr, rfl⟩

theorem get_vertical (hc : InRow c) (hwidth : 1 ≤ width) (hcol : 0 ≤ col)
    (hfit : col + width ≤ vgaCols) :
    (forLoop (fun r vga => vgaWriteCell r (col + width - 1) 0xBA attr
      (vgaWriteCell r col 0xBA attr vga)) (row + 1) vga (height - 2).toNat).get (r * vgaCols + c) =
    if (c = col ∨ c = col + width - 1) ∧ row < r ∧ r < row + height - 1 then cell 0xBA attr
    else vga.get (r * vgaCols + c) := by
  have hleft : InRow col := by
    simp only [InRow, vgaCols] at *
    omega
  have hright : InRow (col + width - 1) := by
    simp only [InRow, vgaCols] at *
    omega
  have hbody (x : Int) (vga : Recorded Int Cell) (_ : row + 1 ≤ x)
      (_ : x < row + 1 + (height - 2).toNat) :
      (vgaWriteCell x (col + width - 1) 0xBA attr (vgaWriteCell x col 0xBA attr vga)).get
        (r * vgaCols + c) =
      if (c = col ∨ c = col + width - 1) ∧ r = x then cell 0xBA attr
      else vga.get (r * vgaCols + c) := by
    rw [get_vgaWriteCell hc hright, get_vgaWriteCell hc hleft]
    by_cases hrx : r = x <;> by_cases hend : c = col + width - 1 <;>
      by_cases hstart : c = col <;> simp [hrx, hend, hstart]
  rcases get_forLoop _ _ hbody with ⟨⟨x, hx, hlt, hr, hcx⟩, hget⟩ | ⟨hnone, hget⟩
  · rw [hget, if_pos ⟨hr, by omega, by omega⟩]
  · rw [hget, if_neg]
    rintro ⟨hr, hlo, hhi⟩
    exact hnone r (by omega) (by omega) ⟨hr, rfl⟩

/-- What is in a cell behind the call. -/
theorem get_vgaDrawBox (color : VgaColor) (s : Screen) (hc : InRow c) (hwidth : 1 ≤ width)
    (hcol : 0 ≤ col) (hfit : col + width ≤ vgaCols) :
    (vgaDrawBox row col height width color s).vga.get (r * vgaCols + c) =
      ((boxChar row col height width r c).map fun ch => cell ch (vgaAttr color .black)).getD
        (s.vga.get (r * vgaCols + c)) := by
  have hleft : InRow col := by
    simp only [InRow, vgaCols] at *
    omega
  have hright : InRow (col + width - 1) := by
    simp only [InRow, vgaCols] at *
    omega
  unfold vgaDrawBox vgaSetColor
  dsimp only
  rw [get_vertical hc hwidth hcol hfit, get_horizontal hc hcol hfit, get_vgaWriteCell hc hright,
    get_vgaWriteCell hc hleft, get_vgaWriteCell hc hright, get_vgaWriteCell hc hleft]
  unfold boxChar
  dsimp only
  grind

/-- A cell of a row of the screen, in the frame buffer exactly if the row is. -/
theorem inFrame_iff (hc : InRow c) : InFrame (r * vgaCols + c) ↔ 0 ≤ r ∧ r < vgaRows := by
  simp only [InRow, InFrame, vgaRows, vgaCols] at *
  omega

theorem within_vgaDrawBox (color : VgaColor) {s : Screen} (hheight : 1 ≤ height)
    (hwidth : 1 ≤ width) (hcol : 0 ≤ col) (hfit : col + width ≤ vgaCols)
    (h : s.vga.Within InFrame) :
    (vgaDrawBox row col height width color s).vga.Within InFrame ↔
      0 ≤ row ∧ row + height ≤ vgaRows := by
  have hin {x : Int} (hlo : col ≤ x) (hhi : x < col + width) : InRow x := ⟨by omega, by omega⟩
  have hleft : InRow col := hin le_rfl (by omega)
  have hright : InRow (col + width - 1) := hin (by omega) (by omega)
  constructor
  · intro hwithin
    have hkept {i : Int} {vga : Recorded Int Cell} (hi : i ∈ vga.writes) (r c : Int)
        (ch attr : Byte) : i ∈ (vgaWriteCell r c ch attr vga).writes :=
      List.mem_append_left _ hi
    -- the corners on the left are on the record
    have htop : row * vgaCols + col ∈ (vgaDrawBox row col height width color s).vga.writes := by
      refine writes_forLoop (fun x vga hi => hkept (hkept hi ..) ..) ?_
      refine writes_forLoop (fun x vga hi => hkept (hkept hi ..) ..) ?_
      exact hkept (hkept (hkept (List.mem_append_right _ (List.mem_singleton_self _)) ..) ..) ..
    have hbottom : (row + height - 1) * vgaCols + col ∈
        (vgaDrawBox row col height width color s).vga.writes := by
      refine writes_forLoop (fun x vga hi => hkept (hkept hi ..) ..) ?_
      refine writes_forLoop (fun x vga hi => hkept (hkept hi ..) ..) ?_
      exact hkept (List.mem_append_right _ (List.mem_singleton_self _)) ..
    have hfirst := (inFrame_iff hleft).mp (hwithin _ htop)
    have hlast := (inFrame_iff hleft).mp (hwithin _ hbottom)
    omega
  · rintro ⟨h0, hrows⟩
    have hput {r c : Int} {vga : Recorded Int Cell} (hw : vga.Within InFrame) (hr : row ≤ r)
        (hr' : r < row + height) (hc : InRow c) (ch attr : Byte) :
        (vgaWriteCell r c ch attr vga).Within InFrame :=
      hw.write ((inFrame_iff hc).mpr ⟨by omega, by omega⟩) _
    refine within_forLoop (fun r vga hr hlt hw => ?_)
      (within_forLoop (fun c vga hc hlt hw => ?_) ?_)
    · apply hput _ (by omega) (by omega) hright
      exact hput hw (by omega) (by omega) hleft _ _
    · have hcin : InRow c := hin (by omega) (by omega)
      apply hput _ (by omega) (by omega) hcin
      exact hput hw le_rfl (by omega) hcin _ _
    · apply hput _ (by omega) (by omega) hright
      apply hput _ (by omega) (by omega) hleft
      apply hput _ le_rfl (by omega) hright
      exact hput h le_rfl (by omega) hleft _ _

theorem OnScreen.vgaDrawBox (color : VgaColor) {s : Screen} (h : OnScreen s)
    (hheight : 1 ≤ height) (hwidth : 1 ≤ width) (hcol : 0 ≤ col) (hfit : col + width ≤ vgaCols)
    (hrows : 0 ≤ row ∧ row + height ≤ vgaRows) :
    OnScreen (vgaDrawBox row col height width color s) :=
  ⟨h.row, h.col, (within_vgaDrawBox color hheight hwidth hcol hfit h.writes).mpr hrows, h.shown⟩

end Box

/-- A box that fits between the ends of the rows: every cell behind the call, the boxes whose
cells are all in the frame buffer, and that nothing but cells changes. -/
theorem draw_box_exact (row col height width : Int) (color : VgaColor) (s : Screen)
    (hheight : 1 ≤ height) (hwidth : 1 ≤ width) (hcol : 0 ≤ col) (hfit : col + width ≤ vgaCols)
    (h : s.vga.Within InFrame) :
    (∀ r c, InRow c → (vgaDrawBox row col height width color s).vga.get (r * vgaCols + c) =
      ((boxChar row col height width r c).map fun ch => cell ch (vgaAttr color .black)).getD
        (s.vga.get (r * vgaCols + c))) ∧
    ((vgaDrawBox row col height width color s).vga.Within InFrame ↔
      0 ≤ row ∧ row + height ≤ vgaRows) ∧
    vgaDrawBox row col height width color s =
      { s with vga := (vgaDrawBox row col height width color s).vga } :=
  ⟨fun _ _ hc => get_vgaDrawBox color s hc hwidth hcol hfit,
    within_vgaDrawBox color hheight hwidth hcol hfit h, rfl⟩

/-- The banner of the splash screen stays in the frame buffer. -/
theorem draw_box_banner :
    (vgaDrawBox 0 0 7 80 .lightMagenta (vgaInit ⟨⟨fun _ => 0, []⟩, 0, 0, 0, fun _ => 0⟩)).vga.Within
      InFrame :=
  (draw_box_exact 0 0 7 80 .lightMagenta _ (by decide) (by decide) (by decide) (by decide)
    (onScreen_vgaClear (fun _ hi => absurd hi List.not_mem_nil) .black).writes).2.1.mpr
      (by decide)

end SengOs.Console
