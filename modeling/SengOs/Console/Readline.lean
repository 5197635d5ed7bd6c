import SengOs.Console.Keyboard
import SengOs.Lib.CString

/-!
# What `kb_readline` reads

`lineOf` is a line of a stream of characters: they are appended to what is held, a backspace
takes the last one away, and the line ends behind a newline or when `limit` characters are
held. `kb_readline` stores that line, and it takes the scan codes up to the one that ends it
(`readlineLoop_ends`), or waits when they do not end a line (`readlineLoop_waits`). So
successive calls divide the stream of characters between them.
-/

namespace SengOs.Console

open ByteMemory CString

/-- A character on a line. -/
def edit (held : List Byte) (c : Byte) : List Byte :=
  if c = backspace then held.dropLast else held ++ [c]

/-- The line that begins with the characters `held`, and the characters behind it. -/
def lineOf (limit : Nat) : List Byte → List Byte → Option (List Byte × List Byte)
  | held, [] => if limit ≤ held.length then some (held, []) else none
  | held, c :: cs =>
    if limit ≤ held.length then some (held, c :: cs)
    else if c = newline then some (held, cs)
    else lineOf limit (edit held c) cs

theorem lineOf_full {limit : Nat} {held : List Byte} (h : limit ≤ held.length)
    (cs : List Byte) : lineOf limit held cs = some (held, cs) := by
  cases cs <;> exact if_pos h

theorem lineOf_room {limit : Nat} {held : List Byte} (h : held.length < limit) :
    lineOf limit held [] = none := if_neg (Nat.not_le.mpr h)

theorem lineOf_newline {limit : Nat} {held : List Byte} (h : held.length < limit)
    (cs : List Byte) : lineOf limit held (newline :: cs) = some (held, cs) := by
  rw [lineOf, if_neg (Nat.not_le.mpr h), if_pos rfl]

theorem lineOf_cons {limit : Nat} {held : List Byte} (h : held.length < limit) {c : Byte}
    (hc : c ≠ newline) (cs : List Byte) :
    lineOf limit held (c :: cs) = lineOf limit (edit held c) cs := by
  rw [lineOf, if_neg (Nat.not_le.mpr h), if_neg hc]

theorem length_edit_le (held : List Byte) (c : Byte) :
    (edit held c).length ≤ held.length + 1 := by
  unfold edit
  split
  · rw [List.length_dropLast]
    omega
  · simp

/-- What is behind a line does not matter for it. -/
theorem lineOf_append {limit : Nat} {held cs rest text : List Byte}
    (h : lineOf limit held cs = some (text, rest)) (more : List Byte) :
    lineOf limit held (cs ++ more) = some (text, rest ++ more) := by
  fun_induction lineOf limit held cs with
  | case1 held hfull =>
    cases h
    exact lineOf_full hfull more
  | case2 held hroom => cases h
  | case3 held c cs hfull =>
    cases h
    exact lineOf_full hfull _
  | case4 held cs hroom =>
    cases h
    exact lineOf_newline (Nat.not_le.mp hroom) _
  | case5 held c cs hroom hc ih =>
    rw [List.cons_append, lineOf_cons (Nat.not_le.mp hroom) hc]
    exact ih h

/-! ## The buffer -/

/-- The places of a buffer for `limit` characters and the NUL. -/
def InBuffer (limit : Nat) (i : Int) : Prop := 0 ≤ i ∧ i ≤ limit

/-- The buffer holds the characters `held`, and has been written at places up to `limit`. -/
structure Holds {δ : Type} (limit : Nat) (l : Line δ) (held : List Byte) : Prop where
  index : l.i = held.length
  le : held.length ≤ limit
  bytes : ∀ j < held.length, held[j]? = some (l.buf.get (j : Nat))
  noNul : ∀ c ∈ held, c ≠ 0
  writes : l.buf.Within (InBuffer limit)

section Holds

variable {δ : Type} {put : Byte → δ → δ} {limit : Nat} {l : Line δ} {held : List Byte}

/-- A call begins with nothing held. -/
theorem holds_nil (limit : Nat) (buf : Int → Byte) (d : δ) :
    Holds limit (⟨0, ⟨buf, []⟩, d⟩ : Line δ) [] where
  index := rfl
  le := Nat.zero_le limit
  bytes j hj := absurd hj (Nat.not_lt_zero j)
  noNul _ hc := absurd hc List.not_mem_nil
  writes _ hi := absurd hi List.not_mem_nil

theorem Holds.push (h : Holds limit l held) (hroom : held.length < limit) {c : Byte}
    (h0 : c ≠ 0) (d : δ) :
    Holds limit ⟨l.i + 1, l.buf.write l.i c, d⟩ (held ++ [c]) where
  index := by simp [h.index]
  le := by simpa using hroom
  bytes j hj := by
    by_cases hlast : j = held.length
    · simp [h.index, hlast]
    · have hlt : j < held.length := by
        simp only [List.length_append, List.length_singleton] at hj
        omega
      have hne : (j : Int) ≠ l.i := by
        rw [h.index]
        omega
      rw [List.getElem?_append_left hlt, h.bytes j hlt]
      simp [hne]
  noNul b hb := by
    rcases List.mem_append.mp hb with hb | hb
    · exact h.noNul b hb
    · exact List.mem_singleton.mp hb ▸ h0
  writes := h.writes.write ⟨by rw [h.index]; omega, by rw [h.index]; omega⟩ c

theorem Holds.pop (h : Holds limit l held) (hne : held ≠ []) (d : δ) :
    Holds limit ⟨l.i - 1, l.buf, d⟩ held.dropLast where
  index := by
    have hpos := List.length_pos_iff.mpr hne
    show l.i - 1 = _
    rw [h.index, List.length_dropLast]
    omega
  le := by
    rw [List.length_dropLast]
    exact (Nat.sub_le _ _).trans h.le
  bytes j hj := by
    rw [List.length_dropLast] at hj
    rw [List.getElem?_dropLast, if_pos hj]
    exact h.bytes j (by omega)
  noNul c hc := h.noNul c (List.mem_of_mem_dropLast hc)
  writes := h.writes

theorem Holds.lineChar (h : Holds limit l held) (hroom : held.length < limit) {c : Byte}
    (h0 : c ≠ 0) : Holds limit (lineChar put l c) (edit held c) := by
  unfold Console.lineChar edit
  by_cases hc : c = backspace
  · rw [if_pos hc, if_pos hc]
    by_cases hne : held = []
    · subst hne
      rw [if_neg (by simp [h.index])]
      exact h
    · have hpos := List.length_pos_iff.mpr hne
      rw [if_pos (by rw [h.index]; omega)]
      exact h.pop hne _
  · rw [if_neg hc, if_neg hc]
    exact h.push hroom h0 _

/-- What a call that has read `text` has returned and stored. -/
structure Returned (limit : Nat) (l : Line δ) (text : List Byte) : Prop where
  index : l.i = text.length
  le : text.length ≤ limit
  spells : Spells (fun j : Nat => l.buf.get j) text
  noNul : ∀ c ∈ text, c ≠ 0
  writes : l.buf.Within (InBuffer limit)

theorem Holds.returned (h : Holds limit l held) : Returned limit (terminate l) held where
  index := h.index
  le := h.le
  spells := by
    rw [spells_iff]
    refine ⟨fun j hj => ?_, ?_⟩
    · have hne : (j : Int) ≠ l.i := by
        rw [h.index]
        omega
      rw [h.bytes j hj]
      simp [terminate, hne]
    · simp [terminate, h.index]
  noNul := h.noNul
  writes := h.writes.write ⟨by rw [h.index]; omega, by rw [h.index]; exact_mod_cast h.le⟩ 0

end Holds

/-! ## The loop -/

/-- A call has taken the scan codes `used`: they end the line `text`, and without the last one
they do not. -/
structure Ends (limit : Nat) (held : List Byte) (shift : Bool) (used text : List Byte) :
    Prop where
  ends : lineOf limit held (decode shift used) = some (text, [])
  least : used = [] ∨ ∃ pre sc, used = pre ++ [sc] ∧ lineOf limit held (decode shift pre) = none

theorem decode_getchar {shift shift' : Bool} {pre : List Byte} {sc c : Byte}
    (hpre : decode shift pre = []) (hsc : kbStep (shiftAfter shift pre) sc = (shift', some c)) :
    decode shift (pre ++ [sc]) = [c] ∧ shiftAfter shift (pre ++ [sc]) = shift' := by
  rw [decode_append, hpre, decode, hsc, shiftAfter_append, shiftAfter, List.foldl_cons, hsc]
  exact ⟨rfl, rfl⟩

section Loop

variable {δ : Type} (put : Byte → δ → δ) {limit n : Nat} {l : Line δ} {held : List Byte}
  {shift shift' : Bool} {pre : List Byte} {sc c : Byte}

theorem Ends.newline (hroom : held.length < limit) (hpre : decode shift pre = [])
    (hsc : kbStep (shiftAfter shift pre) sc = (shift', some newline)) :
    Ends limit held shift (pre ++ [sc]) held where
  ends := by rw [(decode_getchar hpre hsc).1, lineOf_newline hroom]
  least := .inr ⟨pre, sc, rfl, hpre ▸ lineOf_room hroom⟩

theorem Ends.char (hroom : held.length < limit) (hpre : decode shift pre = [])
    (hsc : kbStep (shiftAfter shift pre) sc = (shift', some c)) (hc : c ≠ Console.newline)
    {used text : List Byte} (h : Ends limit (edit held c) shift' used text) :
    Ends limit held shift (pre ++ [sc] ++ used) text := by
  obtain ⟨hdecode, hshift⟩ := decode_getchar hpre hsc
  have hmore (codes : List Byte) : lineOf limit held (decode shift (pre ++ [sc] ++ codes)) =
      lineOf limit (edit held c) (decode shift' codes) := by
    rw [decode_append, hdecode, hshift, List.singleton_append, lineOf_cons hroom hc]
  refine ⟨(hmore used).trans h.ends, .inr ?_⟩
  rcases h.least with rfl | ⟨pre', sc', rfl, hnone⟩
  · exact ⟨pre, sc, by simp, hpre ▸ lineOf_room hroom⟩
  · exact ⟨pre ++ [sc] ++ pre', sc', by simp, (hmore pre').trans hnone⟩

/-- The loop waits for a line that does not end, and returns a line that ends. -/
theorem readlineLoop_spec (shift : Bool) {codes : List Byte} (h : Holds limit l held)
    (hn : codes.length < n) :
    let r := readlineLoop put (limit + 1) n l shift codes
    (r.done = false ∧ r.codes = [] ∧ r.line.buf.Within (InBuffer limit) ∧
      lineOf limit held (decode shift codes) = none) ∨
    ∃ text used, r.done = true ∧ Returned limit r.line text ∧ codes = used ++ r.codes ∧
      r.shift = shiftAfter shift used ∧ Ends limit held shift used text := by
  induction n generalizing l held shift codes with
  | zero => cases hn
  | succ n ih =>
    rw [readlineLoop]
    by_cases hroom : held.length < limit
    · rw [if_pos (by rw [h.index]; omega)]
      cases hget : kbGetchar shift codes with
      | mk c r =>
      obtain ⟨shift', rest⟩ := r
      cases c with
      | none =>
        obtain ⟨hrest, hdecode, -⟩ := kbGetchar_none hget
        exact .inl ⟨rfl, hrest, h.writes, hdecode ▸ lineOf_room hroom⟩
      | some c =>
        obtain ⟨pre, sc, rfl, hpre, hsc⟩ := kbGetchar_some hget
        obtain ⟨hdecode, hshift⟩ := decode_getchar hpre hsc
        have hcr : c ≠ carriageReturn := ne_carriageReturn hsc
        dsimp only
        by_cases hc : c = newline
        · subst hc
          rw [if_pos (.inl rfl)]
          exact .inr ⟨held, pre ++ [sc], rfl, Holds.returned ⟨h.1, h.2, h.3, h.4, h.5⟩,
            List.append_cons .., hshift.symm, .newline hroom hpre hsc⟩
        · rw [if_neg (not_or.mpr ⟨hc, hcr⟩)]
          have hedit : Holds limit (lineChar put l c) (edit held c) :=
            h.lineChar hroom (kbStep_some hsc).2.2.2
          have hlt : rest.length < n := by
            simp only [List.length_append, List.length_cons] at hn
            omega
          rcases ih shift' hedit hlt with ⟨hdone, hempty, hwrites, hnone⟩ | ⟨text, used, hdone,
            hret, hused, hshift', hends⟩
          · refine .inl ⟨hdone, hempty, hwrites, ?_⟩
            rw [List.append_cons, decode_append, hdecode, hshift, List.singleton_append,
              lineOf_cons hroom hc]
            exact hnone
          · refine .inr ⟨text, pre ++ [sc] ++ used, hdone, hret, ?_, ?_,
              hends.char hroom hpre hsc hc⟩
            · rw [List.append_cons, List.append_assoc (pre ++ [sc]) used, ← hused]
            · rw [shiftAfter_append, hshift]
              exact hshift'
    · have hfull : held.length = limit := Nat.le_antisymm h.le (Nat.not_lt.mp hroom)
      rw [if_neg (by rw [h.index]; omega)]
      exact .inr ⟨held, [], rfl, h.returned, rfl, rfl, lineOf_full hfull.ge _, .inl rfl⟩

end Loop

/-! ## Two displays -/

section Displays

variable {δ ε : Type} {R : δ → ε → Prop}

/-- Two calls have come equally far, whatever they have put on their displays. -/
structure Readline.Alike (R : δ → ε → Prop) (r : Readline δ) (q : Readline ε) : Prop where
  i : r.line.i = q.line.i
  buf : r.line.buf = q.line.buf
  display : R r.line.display q.line.display
  shift : r.shift = q.shift
  codes : r.codes = q.codes
  done : r.done = q.done

/-- What a call does with its display does not matter for what it reads. -/
theorem readlineLoop_alike {put : Byte → δ → δ} {put' : Byte → ε → ε}
    (hput : ∀ c d e, R d e → R (put c d) (put' c e)) (len : Int) (n : Nat) (i : Int)
    (buf : Recorded Int Byte) {d : δ} {e : ε} (shift : Bool) (codes : List Byte) (h : R d e) :
    (readlineLoop put len n ⟨i, buf, d⟩ shift codes).Alike R
      (readlineLoop put' len n ⟨i, buf, e⟩ shift codes) := by
  induction n generalizing i buf d e shift codes with
  | zero => exact ⟨rfl, rfl, h, rfl, rfl, rfl⟩
  | succ n ih =>
    rw [readlineLoop, readlineLoop]
    by_cases hroom : i < len - 1
    · rw [if_pos hroom, if_pos hroom]
      rcases kbGetchar shift codes with ⟨c, shift', rest⟩
      cases c with
      | none => exact ⟨rfl, rfl, h, rfl, rfl, rfl⟩
      | some c =>
        dsimp only
        by_cases hend : c = newline ∨ c = carriageReturn
        · rw [if_pos hend, if_pos hend]
          exact ⟨rfl, rfl, hput newline d e h, rfl, rfl, rfl⟩
        · rw [if_neg hend, if_neg hend]
          by_cases hback : c = backspace
          · rw [lineChar, lineChar, if_pos hback, if_pos hback]
            by_cases hpos : i > 0
            · rw [if_pos hpos, if_pos hpos]
              exact ih _ _ _ _ (hput backspace d e h)
            · rw [if_neg hpos, if_neg hpos]
              exact ih _ _ _ _ h
          · rw [lineChar, lineChar, if_neg hback, if_neg hback]
            exact ih _ _ _ _ (hput c d e h)
    · rw [if_neg hroom, if_neg hroom]
      exact ⟨rfl, rfl, h, rfl, rfl, rfl⟩

end Displays

/-! ## Successive calls -/

/-- The arguments of a call of `kb_readline`, with the contents of its buffer and the display
that it begins with. -/
structure ReadlineCall (δ : Type) where
  len : Int
  buf : Int → Byte
  display : δ

/-- The most characters that a call may hold. -/
def ReadlineCall.limit {δ : Type} (call : ReadlineCall δ) : Nat := (call.len - 1).toNat

section Calls

variable {δ : Type} (put : Byte → δ → δ)

def ReadlineCall.run (call : ReadlineCall δ) (shift : Bool) (codes : List Byte) : Readline δ :=
  kbReadline put call.len call.buf call.display shift codes

/-- Calls one after the other: each with its line, and `shift_held` and the scan codes left
behind the last one, if all of them return. -/
def readlines : List (ReadlineCall δ) → Bool → List Byte →
    Option (List (ReadlineCall δ × Line δ) × Bool × List Byte)
  | [], shift, codes => some ([], shift, codes)
  | call :: calls, shift, codes =>
    let r := call.run put shift codes
    if r.done then
      (readlines calls r.shift r.codes).map fun rest => ((call, r.line) :: rest.1, rest.2)
    else none

theorem ReadlineCall.run_spec (call : ReadlineCall δ) (hlen : 2 ≤ call.len) (shift : Bool)
    (codes : List Byte) :
    let r := call.run put shift codes
    (r.done = false ∧ r.codes = [] ∧ r.line.buf.Within (InBuffer call.limit) ∧
      lineOf call.limit [] (decode shift codes) = none) ∨
    ∃ text used, r.done = true ∧ Returned call.limit r.line text ∧ codes = used ++ r.codes ∧
      r.shift = shiftAfter shift used ∧ Ends call.limit [] shift used text := by
  have hlimit : call.len = (call.limit : Int) + 1 := by
    rw [ReadlineCall.limit]
    omega
  rw [ReadlineCall.run, kbReadline, hlimit]
  exact readlineLoop_spec put shift (holds_nil call.limit call.buf call.display)
    (Nat.lt_succ_self _)

variable {put} {shift shift' : Bool} {codes rest : List Byte}

/-- The characters that a call has taken, as the line that it returned. -/
def Takes (x : ReadlineCall δ × Line δ) (chunk : List Byte) : Prop :=
  ∃ text, lineOf x.1.limit [] chunk = some (text, []) ∧ Returned x.1.limit x.2 text

theorem readlines_chunks {calls : List (ReadlineCall δ)} {lines : List (ReadlineCall δ × Line δ)}
    (hlen : ∀ call ∈ calls, 2 ≤ call.len)
    (h : readlines put calls shift codes = some (lines, shift', rest)) :
    ∃ chunks, decode shift codes = chunks.flatten ++ decode shift' rest ∧
      List.Forall₂ Takes lines chunks := by
  induction calls generalizing shift codes lines with
  | nil =>
    cases h
    exact ⟨[], rfl, .nil⟩
  | cons call calls ih =>
    rw [readlines] at h
    split at h
    · rename_i hdone
      obtain ⟨⟨lines', shift'', rest'⟩, hrest, heq⟩ := Option.map_eq_some_iff.mp h
      cases heq
      rcases call.run_spec put (hlen call List.mem_cons_self) shift codes with
        ⟨hwait, -⟩ | ⟨text, used, -, hret, hused, hshift, hends⟩
      · rw [hdone] at hwait
        cases hwait
      · obtain ⟨chunks, hchunks, hall⟩ :=
          ih (fun c hc => hlen c (List.mem_cons_of_mem call hc)) hrest
        refine ⟨decode shift used :: chunks, ?_, .cons ⟨text, hends.ends, hret⟩ hall⟩
        rw [List.flatten_cons, List.append_assoc, ← hchunks, hshift, ← decode_append, ← hused]
    · cases h

end Calls

/-- `kb_readline` reads the line of the decoded characters, and takes just the scan codes up to
the one that ends it. Successive calls divide the characters between them. -/
theorem readline_exact {δ : Type} (put : Byte → δ → δ) (shift : Bool) (codes : List Byte) :
    (∀ call : ReadlineCall δ, 2 ≤ call.len →
      let r := call.run put shift codes
      match lineOf call.limit [] (decode shift codes) with
      | none => r.done = false ∧ r.codes = [] ∧ r.line.buf.Within (InBuffer call.limit)
      | some (text, rest) =>
        r.done = true ∧ Returned call.limit r.line text ∧ decode r.shift r.codes = rest ∧
        ∃ pre sc, codes = pre ++ sc :: r.codes ∧ lineOf call.limit [] (decode shift pre) = none ∧
          lineOf call.limit [] (decode shift (pre ++ [sc])) = some (text, [])) ∧
    ∀ calls lines shift' rest, (∀ call ∈ calls, 2 ≤ call.len) →
      readlines put calls shift codes = some (lines, shift', rest) →
      ∃ chunks, decode shift codes = chunks.flatten ++ decode shift' rest ∧
        List.Forall₂ Takes lines chunks := by
  refine ⟨fun call hlen => ?_, fun calls lines shift' rest => readlines_chunks⟩
  rcases call.run_spec put hlen shift codes with
    ⟨hdone, hempty, hwrites, hnone⟩ | ⟨text, used, hdone, hret, hused, hshift, hends⟩
  · rw [hnone]
    exact ⟨hdone, hempty, hwrites⟩
  · have hline : lineOf call.limit [] (decode shift codes) =
        some (text, decode (call.run put shift codes).shift (call.run put shift codes).codes) := by
      rw [hshift, ← List.nil_append (decode _ _)]
      conv_lhs => rw [hused, decode_append]
      exact lineOf_append hends.ends _
    rw [hline]
    refine ⟨hdone, hret, rfl, ?_⟩
    rcases hends.least with rfl | ⟨pre, sc, rfl, hnone⟩
    · have hroom : ([] : List Byte).length < call.limit := by
        simp only [ReadlineCall.limit, List.length_nil]
        omega
      have hends' := hends.ends
      rw [decode, lineOf_room hroom] at hends'
      cases hends'
    · exact ⟨pre, sc, by simpa using hused, hnone, hends.ends⟩

/-- The keys `a` and Enter, and a `b` that is left for the next call -/
theorem readline_exact_enter :
    let call : ReadlineCall Unit := ⟨256, fun _ => 0, ()⟩
    let r := call.run (fun _ d => d) false [0x1E, 0x9E, 0x1C, 0x30]
    r.done = true ∧ Returned call.limit r.line [0x61] ∧ decode r.shift r.codes = [0x62] := by
  intro call r
  have hread := (readline_exact (fun _ d => d) false [0x1E, 0x9E, 0x1C, 0x30]).1 call (by decide)
  have hline : lineOf call.limit [] (decode false [0x1E, 0x9E, 0x1C, 0x30]) =
      some ([0x61], [0x62]) := by decide
  simp only [hline] at hread
  exact ⟨hread.1, hread.2.1, hread.2.2.1⟩

end SengOs.Console
