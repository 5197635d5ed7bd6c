import SengOs.Console.Page
import SengOs.Console.Readline

/-!
# The echo of a line

Here `kb_readline` types on the page that does not scroll. A printable character takes the
buffer and the cursor one place further, also at the end of a row. A backspace takes one
character from the buffer; but `vga_putchar` does not leave the first column to the left, so
that there the cursor stays (`pos_put_backspace`). Buffer and page are in step after each key
(`InStep`) if and only if no character is deleted with the cursor in the first column
(`echo_iff`).
-/

namespace SengOs.Console

open ByteMemory

def Printable (c : Byte) : Prop := 0x20 ≤ c.toNat ∧ c.toNat < 0x7F

/-- What is held after the characters. -/
def heldAfter (ks : List Byte) : List Byte := ks.foldl edit []

/-- The line after the characters, before it is terminated. -/
def lineAfter (buf : Int → Byte) (p : Page Byte) (ks : List Byte) : Line (Page Byte) :=
  ks.foldl (lineChar put) ⟨0, ⟨buf, []⟩, p⟩

theorem heldAfter_concat (ks : List Byte) (c : Byte) :
    heldAfter (ks ++ [c]) = edit (heldAfter ks) c := by
  rw [heldAfter, List.foldl_append]
  rfl

theorem lineAfter_concat (buf : Int → Byte) (p : Page Byte) (ks : List Byte) (c : Byte) :
    lineAfter buf p (ks ++ [c]) = lineChar put (lineAfter buf p ks) c := by
  rw [lineAfter, List.foldl_append]
  rfl

theorem length_heldAfter_le (ks : List Byte) : (heldAfter ks).length ≤ ks.length := by
  induction ks using List.reverseRecOn with
  | nil => exact le_rfl
  | append_singleton ks c ih =>
    rw [heldAfter_concat, List.length_append, List.length_singleton]
    exact (length_edit_le _ c).trans (Nat.succ_le_succ ih)

theorem holds_lineAfter (buf : Int → Byte) (p : Page Byte) {ks : List Byte} {limit : Nat}
    (hks : ∀ c ∈ ks, c ≠ 0) (hlimit : ks.length ≤ limit) :
    Holds limit (lineAfter buf p ks) (heldAfter ks) := by
  induction ks using List.reverseRecOn with
  | nil => exact holds_nil limit buf p
  | append_singleton ks c ih =>
    rw [List.length_append, List.length_singleton] at hlimit
    have hheld := ih (fun d hd => hks d (List.mem_append_left _ hd)) (by omega)
    rw [lineAfter_concat, heldAfter_concat]
    exact hheld.lineChar ((length_heldAfter_le ks).trans_lt hlimit) (hks c (by simp))

/-! ## Keys on the page -/

theorem Printable.ne {c d : Byte} (h : Printable c) (hd : d.toNat < 0x20) : c ≠ d := by
  rintro rfl
  exact absurd h.1 (Nat.not_le.mpr hd)

/-- The keys of a line are no other control characters than the backspace. -/
theorem ne_of_key {c d : Byte} (hc : Printable c ∨ c = backspace) (hd : d.toNat < 0x20)
    (hne : backspace ≠ d) : c ≠ d := by
  rcases hc with hc | rfl
  · exact hc.ne hd
  · exact hne

theorem Printable.put {c : Byte} (h : Printable c) (p : Page Byte) : put c p = p.type 80 c := by
  rw [Console.put, if_neg (h.ne (by decide)), if_neg (h.ne (by decide)),
    if_neg (h.ne (by decide)), if_neg (h.ne (by decide))]

theorem put_backspace (p : Page Byte) : put backspace p = p.left.write blank := by
  rw [put, if_neg (by decide), if_neg (by decide), if_neg (by decide), if_pos rfl]

theorem col_put_lt {p : Page Byte} (h : p.col < 80) {c : Byte} (hc : Printable c ∨ c = backspace) :
    (put c p).col < 80 := by
  rcases hc with hc | rfl
  · rw [hc.put]
    exact Page.col_wrap_lt (by decide) _
  · rw [put_backspace]
    exact (Nat.sub_le _ _).trans_lt h

/-- In the first column, a backspace leaves the cursor where it is. -/
theorem pos_put_backspace {p : Page Byte} (h : p.col = 0) :
    (put backspace p).pos 80 = p.pos 80 := by
  rw [put_backspace]
  simp [Page.pos, h]

theorem col_lineAfter (buf : Int → Byte) {p : Page Byte} (hcol : p.col < 80) {ks : List Byte}
    (hks : ∀ c ∈ ks, Printable c ∨ c = backspace) : (lineAfter buf p ks).display.col < 80 := by
  induction ks using List.reverseRecOn with
  | nil => exact hcol
  | append_singleton ks c ih =>
    have hlt := ih fun d hd => hks d (List.mem_append_left _ hd)
    rw [lineAfter_concat, lineChar]
    split
    · split
      · exact col_put_lt hlt (.inr rfl)
      · exact hlt
    · exact col_put_lt hlt (hks c (by simp))

/-! ## In step -/

/-- The page shows what is held from the place of the cursor of `p` on, and what was held
before is blank. -/
structure Echoed (p d : Page Byte) (ks : List Byte) : Prop where
  pos : d.pos 80 = p.pos 80 + (heldAfter ks).length
  text : ∀ j < (heldAfter ks).length, (heldAfter ks)[j]? = some (d.textAt 80 (p.pos 80 + j))
  blanks : ∀ ks', ks' <+: ks → ∀ j, (heldAfter ks).length ≤ j → j < (heldAfter ks').length →
    d.textAt 80 (p.pos 80 + j) = blank

section Echo

variable {p d : Page Byte} {ks : List Byte}

theorem Echoed.push (h : Echoed p d ks) (hcol : d.col < 80) {c : Byte} (hc : c ≠ backspace) :
    Echoed p (d.type 80 c) (ks ++ [c]) := by
  have hheld : heldAfter (ks ++ [c]) = heldAfter ks ++ [c] := by
    rw [heldAfter_concat, edit, if_neg hc]
  have htext (j : Nat) : (d.type 80 c).textAt 80 (p.pos 80 + j) =
      if j = (heldAfter ks).length then c else d.textAt 80 (p.pos 80 + j) := by
    rw [Page.textAt, Page.text_type, ← Page.textAt, Page.textAt_write hcol, h.pos]
    simp
  refine ⟨?_, fun j hj => ?_, fun ks' hks' j hj hlt => ?_⟩
  · rw [Page.pos_type hcol, h.pos, hheld, List.length_append]
    rfl
  · rw [htext, hheld]
    split
    · rename_i hlast
      simp [hlast]
    · rename_i hne
      rw [hheld, List.length_append, List.length_singleton] at hj
      rw [List.getElem?_append_left (by omega)]
      exact h.text j (by omega)
  · rcases List.prefix_concat_iff.mp hks' with rfl | hks'
    · omega
    · rw [hheld, List.length_append, List.length_singleton] at hj
      rw [htext, if_neg (by omega)]
      exact h.blanks ks' hks' j (by omega) hlt

/-- A character that is deleted behind the first column. -/
theorem Echoed.pop (h : Echoed p d ks) (hcol : d.col < 80) (hfirst : d.col ≠ 0)
    (hne : heldAfter ks ≠ []) :
    Echoed p (d.left.write blank) (ks ++ [backspace]) := by
  have hpos := List.length_pos_iff.mpr hne
  have hheld : heldAfter (ks ++ [backspace]) = (heldAfter ks).dropLast := by
    rw [heldAfter_concat, edit, if_pos rfl]
  have hleft : d.left.pos 80 + 1 = d.pos 80 := Page.pos_left hfirst
  have hlt : d.left.col < 80 := (Nat.sub_le _ _).trans_lt hcol
  have htext (j : Nat) : (d.left.write blank).textAt 80 (p.pos 80 + j) =
      if j + 1 = (heldAfter ks).length then blank else d.textAt 80 (p.pos 80 + j) := by
    have hplace : p.pos 80 + j = d.left.pos 80 ↔ j + 1 = (heldAfter ks).length := by
      rw [h.pos] at hleft
      omega
    rw [Page.textAt_write hlt]
    simp only [hplace]
    rfl
  refine ⟨?_, fun j hj => ?_, fun ks' hks' j hj hshort => ?_⟩
  · rw [hheld, List.length_dropLast]
    rw [h.pos] at hleft
    show d.left.pos 80 = _
    omega
  · rw [hheld, List.length_dropLast] at hj
    rw [htext, if_neg (by omega), hheld, List.getElem?_dropLast, if_pos hj]
    exact h.text j (by omega)
  · rw [hheld, List.length_dropLast] at hj
    rw [htext]
    split
    · rfl
    · rcases List.prefix_concat_iff.mp hks' with rfl | hks'
      · rw [hheld, List.length_dropLast] at hshort
        omega
      · exact h.blanks ks' hks' j (by omega) hshort

theorem Echoed.nothing (h : Echoed p d ks) (hempty : heldAfter ks = []) :
    Echoed p d (ks ++ [backspace]) := by
  have hheld : heldAfter (ks ++ [backspace]) = heldAfter ks := by
    rw [heldAfter_concat, edit, if_pos rfl, hempty]
    rfl
  refine ⟨by rw [hheld]; exact h.pos, by rw [hheld]; exact h.text, fun ks' hks' j hj hlt => ?_⟩
  rcases List.prefix_concat_iff.mp hks' with rfl | hks'
  · omega
  · exact h.blanks ks' hks' j (by rwa [hheld] at hj) hlt

/-- The column of a page that is in step. -/
theorem Echoed.col (h : Echoed p d ks) (hcol : d.col < 80) :
    d.col = (p.col + (heldAfter ks).length) % 80 := by
  have hpos := h.pos
  simp only [Page.pos] at hpos
  omega

end Echo

/-- No character is deleted with the cursor in the first column of a row. -/
def NoDeletionAtColumn0 (p : Page Byte) (ks : List Byte) : Prop :=
  ∀ pre post, ks = pre ++ backspace :: post → heldAfter pre ≠ [] →
    (p.col + (heldAfter pre).length) % 80 ≠ 0

theorem echoed_lineAfter (buf : Int → Byte) {p : Page Byte} (hcol : p.col < 80) {ks : List Byte}
    (hks : ∀ c ∈ ks, Printable c ∨ c = backspace) (h : NoDeletionAtColumn0 p ks) :
    Echoed p (lineAfter buf p ks).display ks := by
  induction ks using List.reverseRecOn with
  | nil =>
    exact ⟨rfl, fun j hj => absurd hj (Nat.not_lt_zero j), fun ks' hks' j _ hlt => by
      rw [List.prefix_nil.mp hks'] at hlt
      exact absurd hlt (Nat.not_lt_zero j)⟩
  | append_singleton ks c ih =>
    have hinit : ∀ d ∈ ks, Printable d ∨ d = backspace :=
      fun d hd => hks d (List.mem_append_left _ hd)
    have hechoed := ih hinit fun pre post hpre => h pre (post ++ [c]) (by simp [hpre])
    have hlt := col_lineAfter buf hcol hinit
    have hnul : ∀ d ∈ ks, d ≠ 0 := fun d hd => ne_of_key (hinit d hd) (by decide) (by decide)
    have hindex := (holds_lineAfter buf p hnul le_rfl).index
    rw [lineAfter_concat, lineChar]
    by_cases hc : c = backspace
    · subst hc
      rw [if_pos rfl]
      by_cases hempty : heldAfter ks = []
      · rw [if_neg (by simp [hindex, hempty])]
        exact hechoed.nothing hempty
      · have hpos := List.length_pos_iff.mpr hempty
        rw [if_pos (by rw [hindex]; omega), put_backspace]
        refine hechoed.pop hlt ?_ hempty
        rw [hechoed.col hlt]
        exact h ks [] rfl hempty
    · rw [if_neg hc]
      have hprint : Printable c := (hks c (by simp)).resolve_right hc
      simp only [hprint.put]
      exact hechoed.push hlt hc

/-! ## The call -/

section Call

variable {δ : Type} (put : Byte → δ → δ) (len : Int) {n : Nat} {shift : Bool}

/-- A call that is not at the end of its line has made the rounds for the characters, and has
perhaps terminated the line. -/
theorem readlineLoop_line (l : Line δ) {codes : List Byte} (hn : codes.length < n)
    (hline : ∀ c ∈ decode shift codes, c ≠ newline)
    (hroom : ∀ pre c post, decode shift codes = pre ++ c :: post →
      (pre.foldl (lineChar put) l).i < len - 1) :
    let r := readlineLoop put len n l shift codes
    let l' := (decode shift codes).foldl (lineChar put) l
    r.line = l' ∨ r.line = terminate l' := by
  induction n generalizing l shift codes with
  | zero => cases hn
  | succ n ih =>
    rw [readlineLoop]
    by_cases hlt : l.i < len - 1
    · rw [if_pos hlt]
      cases hget : kbGetchar shift codes with
      | mk c r =>
      obtain ⟨shift', rest⟩ := r
      cases c with
      | none =>
        rw [(kbGetchar_none hget).2.1]
        exact .inl rfl
      | some c =>
        obtain ⟨pre, sc, rfl, hpre, hsc⟩ := kbGetchar_some hget
        obtain ⟨hchar, hshift⟩ := decode_getchar hpre hsc
        have hdecode : decode shift (pre ++ sc :: rest) = c :: decode shift' rest := by
          rw [List.append_cons, decode_append, hchar, hshift, List.singleton_append]
        rw [hdecode] at hline hroom ⊢
        have hc : ¬ (c = newline ∨ c = carriageReturn) :=
          not_or.mpr ⟨hline c List.mem_cons_self, ne_carriageReturn hsc⟩
        dsimp only
        rw [if_neg hc]
        apply ih
        · simp only [List.length_append, List.length_cons] at hn
          omega
        · exact fun d hd => hline d (List.mem_cons_of_mem c hd)
        · exact fun pre' d post hpost => hroom (c :: pre') d post (by simp [hpost])
    · rw [if_neg hlt]
      cases hdecode : decode shift codes with
      | nil => exact .inr rfl
      | cons c cs => exact absurd (hroom [] c cs hdecode) hlt

end Call

/-- The characters of a part of the stream. -/
theorem exists_prefix {shift : Bool} {codes pre post : List Byte}
    (h : decode shift codes = pre ++ post) :
    ∃ typed, typed <+: codes ∧ decode shift typed = pre := by
  induction codes generalizing shift pre with
  | nil =>
    obtain ⟨rfl, -⟩ := List.append_eq_nil_iff.mp h.symm
    exact ⟨[], List.nil_prefix, rfl⟩
  | cons sc codes ih =>
    cases pre with
    | nil => exact ⟨[], List.nil_prefix, rfl⟩
    | cons c pre =>
      rw [decode] at h
      cases hc : (kbStep shift sc).2 with
      | none =>
        rw [hc] at h
        obtain ⟨typed, htyped, hpre⟩ := ih h
        refine ⟨sc :: typed, (List.prefix_cons_inj sc).mpr htyped, ?_⟩
        rw [decode, hc]
        exact hpre
      | some d =>
        rw [hc] at h
        obtain ⟨rfl, htail⟩ := List.cons.inj h
        obtain ⟨typed, htyped, hpre⟩ := ih htail
        refine ⟨sc :: typed, (List.prefix_cons_inj sc).mpr htyped, ?_⟩
        rw [decode, hc, hpre]
        rfl

/-- `kb_readline` after the scan codes `typed`: the page shows the buffer between the place where
the input began and the cursor, and blanks where there was input before. -/
structure InStep (len : Int) (buf : Int → Byte) (p : Page Byte) (shift : Bool)
    (typed : List Byte) : Prop where
  cursor : ((kbReadline put len buf p shift typed).line.display.pos 80 : Int) =
    p.pos 80 + (kbReadline put len buf p shift typed).line.i
  text : ∀ j : Nat, (j : Int) < (kbReadline put len buf p shift typed).line.i →
    (kbReadline put len buf p shift typed).line.display.textAt 80 (p.pos 80 + j) =
      (kbReadline put len buf p shift typed).line.buf.get j
  blanks : ∀ earlier, earlier <+: typed → ∀ j : Nat,
    (kbReadline put len buf p shift typed).line.i ≤ j →
    (j : Int) < (kbReadline put len buf p shift earlier).line.i →
    (kbReadline put len buf p shift typed).line.display.textAt 80 (p.pos 80 + j) = blank

section Echo

variable {len : Int} {buf : Int → Byte} {p : Page Byte} {shift : Bool} {codes : List Byte}

/-- The keys are printable or backspaces, and one call reads all of them. -/
structure Typed (len : Int) (shift : Bool) (codes : List Byte) : Prop where
  keys : ∀ c ∈ decode shift codes, Printable c ∨ c = backspace
  room : ∀ pre c post, decode shift codes = pre ++ c :: post →
    ((heldAfter pre).length : Int) < len - 1

theorem Typed.ne_zero (h : Typed len shift codes) : ∀ c ∈ decode shift codes, c ≠ 0 :=
  fun c hc => ne_of_key (h.keys c hc) (by decide) (by decide)

theorem Typed.ne_newline (h : Typed len shift codes) :
    ∀ c ∈ decode shift codes, c ≠ newline :=
  fun c hc => ne_of_key (h.keys c hc) (by decide) (by decide)

theorem Typed.mono (h : Typed len shift codes) {typed : List Byte} (hpre : typed <+: codes) :
    Typed len shift typed := by
  obtain ⟨rest, rfl⟩ := hpre
  refine ⟨fun c hc => ?_, fun pre c post hdecode => ?_⟩
  · apply h.keys
    rw [decode_append]
    exact List.mem_append_left _ hc
  · apply h.room pre c (post ++ decode (shiftAfter shift typed) rest)
    rw [decode_append, hdecode]
    simp

/-- The line of the call, up to the NUL at its end. -/
theorem Typed.line (h : Typed len shift codes) (buf : Int → Byte) (p : Page Byte) :
    let l := (kbReadline put len buf p shift codes).line
    let ks := decode shift codes
    l.i = (heldAfter ks).length ∧ l.display = (lineAfter buf p ks).display ∧
      ∀ j < (heldAfter ks).length, (heldAfter ks)[j]? = some (l.buf.get (j : Nat)) := by
  have hheld := holds_lineAfter buf p h.ne_zero le_rfl
  have hroom : ∀ pre c post, decode shift codes = pre ++ c :: post →
      (lineAfter buf p pre).i < len - 1 := by
    intro pre c post hdecode
    have hnul : ∀ d ∈ pre, d ≠ 0 := fun d hd => h.ne_zero d (by simp [hdecode, hd])
    rw [(holds_lineAfter buf p hnul le_rfl).index]
    exact h.room pre c post hdecode
  have hline := readlineLoop_line put len ⟨0, ⟨buf, []⟩, p⟩ (Nat.lt_succ_self codes.length)
    h.ne_newline hroom
  rcases hline with hline | hline
  · rw [kbReadline, hline]
    exact ⟨hheld.index, rfl, hheld.bytes⟩
  · rw [kbReadline, hline]
    refine ⟨hheld.index, rfl, fun j hj => ?_⟩
    have hne : (j : Int) ≠ (lineAfter buf p (decode shift codes)).i := by
      rw [hheld.index]
      omega
    rw [hheld.bytes j hj]
    exact congrArg some (Recorded.get_write_of_ne _ _ hne).symm

theorem inStep_of_echoed (h : Typed len shift codes)
    (hechoed : Echoed p (lineAfter buf p (decode shift codes)).display (decode shift codes)) :
    InStep len buf p shift codes := by
  obtain ⟨hindex, hdisplay, hbytes⟩ := h.line buf p
  refine ⟨?_, fun j hj => ?_, fun earlier hearlier j hj hlt => ?_⟩
  · rw [hdisplay, hindex, hechoed.pos]
    push_cast
    rfl
  · rw [hindex] at hj
    have hj' : j < (heldAfter (decode shift codes)).length := by omega
    rw [hdisplay]
    exact Option.some.inj ((hechoed.text j hj').symm.trans (hbytes j hj'))
  · obtain ⟨hearly, -, -⟩ := (h.mono hearlier).line buf p
    rw [hindex] at hj
    rw [hearly] at hlt
    rw [hdisplay]
    apply hechoed.blanks (decode shift earlier) _ j (by omega) (by omega)
    obtain ⟨rest, rfl⟩ := hearlier
    rw [decode_append]
    exact List.prefix_append ..

/-- What is on the page is what is in the buffer after each key, if and only if no character is
deleted with the cursor in the first column. -/
theorem echo_iff (buf : Int → Byte) (hcol : p.col < 80) (h : Typed len shift codes) :
    (∀ typed, typed <+: codes → InStep len buf p shift typed) ↔
      NoDeletionAtColumn0 p (decode shift codes) := by
  constructor
  · intro hstep pre post hpost hne hfirst
    have hsnoc : decode shift codes = (pre ++ [backspace]) ++ post := by simp [hpost]
    obtain ⟨before, hbefore, hpre⟩ := exists_prefix hpost
    obtain ⟨after, hafter, hdeleted⟩ := exists_prefix hsnoc
    obtain ⟨hi, hd, -⟩ := (h.mono hbefore).line buf p
    obtain ⟨hi', hd', -⟩ := (h.mono hafter).line buf p
    have hcursor := (hstep before hbefore).cursor
    have hcursor' := (hstep after hafter).cursor
    have hcol' := col_lineAfter buf hcol (h.mono hbefore).keys
    have hindex := (holds_lineAfter buf p (h.mono hbefore).ne_zero le_rfl).index
    have hpos := List.length_pos_iff.mpr hne
    rw [hpre] at hi hd hcol' hindex
    rw [hdeleted, heldAfter_concat, edit, if_pos rfl, List.length_dropLast] at hi'
    rw [hdeleted, lineAfter_concat, lineChar, if_pos rfl, if_pos (by rw [hindex]; omega)] at hd'
    rw [hi, hd] at hcursor
    have hcol0 : (lineAfter buf p pre).display.col = 0 := by
      simp only [Page.pos] at hcursor
      omega
    -- The cursor has not moved, and the buffer is shorter.
    rw [hi', hd', pos_put_backspace hcol0] at hcursor'
    omega
  · intro hno typed htyped
    have hpart := h.mono htyped
    apply inStep_of_echoed hpart
    apply echoed_lineAfter buf hcol hpart.keys
    intro pre post hpost
    obtain ⟨rest, rfl⟩ := htyped
    apply hno pre (post ++ decode (shiftAfter shift typed) rest)
    rw [decode_append, hpost]
    simp

end Echo

/-- `a` and a backspace, from the corner of the page -/
theorem echo_iff_corner :
    (∀ typed, typed <+: [0x1E, 0x0E] →
      InStep 256 (fun _ => 0) (Page.fresh blank) false typed) ↔
      NoDeletionAtColumn0 (Page.fresh blank) (decode false [0x1E, 0x0E]) := by
  apply echo_iff _ (by decide)
  have hdecode : decode false [0x1E, 0x0E] = [0x61, backspace] := by decide
  refine ⟨fun c hc => ?_, fun pre c post h => ?_⟩
  · rw [hdecode] at hc
    simp only [List.mem_cons, List.not_mem_nil, or_false] at hc
    rcases hc with rfl | rfl
    · exact .inl ⟨by decide, by decide⟩
    · exact .inr rfl
  · have hlen := congrArg List.length h
    have hle := length_heldAfter_le pre
    rw [hdecode] at hlen
    simp only [List.length_append, List.length_cons, List.length_nil] at hlen
    omega

/-- The same keys from the last column of the first row: the line is empty again, and the cursor
is left in the second row. -/
theorem echo_wrapped :
    ¬ ∀ typed, typed <+: [0x1E, 0x0E] →
      InStep 256 (fun _ => 0) ⟨fun _ _ => blank, 0, 79⟩ false typed := by
  intro h
  have hcursor := (h _ List.prefix_rfl).cursor
  revert hcursor
  decide

end SengOs.Console
