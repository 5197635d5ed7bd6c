import SengOs.Console.Screen
import SengOs.Shell.Vga

/-!
# `kernel/keyboard.c`

The keyboard delivers a stream of scan codes. A call that needs more of them than there are
waits: `kbGetchar` then has no character, and `kbReadline` is not `done`. `shift` is
`shift_held`, which the calls hand on. The echo goes to any display that has a
`vga_putchar`; the index and the places of the buffer are `int`s.
-/

namespace SengOs.Console

open ByteMemory Shell

/-! ## Scan codes -/

/-- The entries of `sc_ascii`; the others are zero. -/
def scAsciiEntries : List Byte :=
  [0, 27] ++ ['1', '2', '3', '4', '5', '6', '7', '8', '9', '0', '-', '='].map char ++
    [backspace, tab] ++ ['q', 'w', 'e', 'r', 't', 'y', 'u', 'i', 'o', 'p', '[', ']'].map char ++
    [newline, 0] ++ ['a', 's', 'd', 'f', 'g', 'h', 'j', 'k', 'l', ';'].map char ++
    [0x27, 0x60, 0, 0x5C] ++ ['z', 'x', 'c', 'v', 'b', 'n', 'm', ',', '.', '/'].map char ++
    [0, char '*', 0, char ' ', 0] ++ List.replicate 10 0 ++ [0, 0] ++
    ['7', '8', '9', '-', '4', '5', '6', '+', '1', '2', '3', '0', '.'].map char

/-- The entries of `sc_ascii_shift`; the others are zero. -/
def scAsciiShiftEntries : List Byte :=
  [0, 27] ++ ['!', '@', '#', '$', '%', '^', '&', '*', '(', ')', '_', '+'].map char ++
    [backspace, tab] ++ ['Q', 'W', 'E', 'R', 'T', 'Y', 'U', 'I', 'O', 'P', '{', '}'].map char ++
    [newline, 0] ++ ['A', 'S', 'D', 'F', 'G', 'H', 'J', 'K', 'L', ':'].map char ++
    [0x22, char '~', 0, char '|'] ++ ['Z', 'X', 'C', 'V', 'B', 'N', 'M', '<', '>', '?'].map char ++
    [0, char '*', 0, char ' ', 0]

def scAscii (sc : Byte) : Byte := scAsciiEntries.getD sc.toNat 0

def scAsciiShift (sc : Byte) : Byte := scAsciiShiftEntries.getD sc.toNat 0

/-- A round of the loop in `kb_getchar`: the new `shift_held`, and the character to return. -/
def kbStep (shift : Bool) (sc : Byte) : Bool × Option Byte :=
  if sc &&& 0x80 ≠ 0 then
    let release := sc &&& 0x7F
    if release = 0x2A ∨ release = 0x36 then (false, none) else (shift, none)
  else if sc = 0x2A ∨ sc = 0x36 then (true, none)
  else
    let c := if shift then scAsciiShift sc else scAscii sc
    if c ≠ 0 then (shift, some c) else (shift, none)

/-- `kb_getchar`: the character, `shift_held` and the scan codes left. -/
def kbGetchar (shift : Bool) : List Byte → Option Byte × Bool × List Byte
  | [] => (none, shift, [])
  | sc :: codes =>
    match kbStep shift sc with
    | (shift, some c) => (some c, shift, codes)
    | (shift, none) => kbGetchar shift codes

/-! ## Lines -/

/-- The index, the buffer and the display of `kb_readline`. -/
structure Line (δ : Type) where
  i : Int
  buf : Recorded Int Byte
  display : δ

/-- A call of `kb_readline`: its line, `shift_held`, the scan codes left, and whether it has
returned. What it returns is the index. -/
structure Readline (δ : Type) where
  line : Line δ
  shift : Bool
  codes : List Byte
  done : Bool

section Readline

variable {δ : Type} (put : Byte → δ → δ)

/-- A round of the loop in `kb_readline` on a character that does not end the line. -/
def lineChar (l : Line δ) (c : Byte) : Line δ :=
  if c = backspace then
    if l.i > 0 then { l with i := l.i - 1, display := put backspace l.display } else l
  else { i := l.i + 1, buf := l.buf.write l.i c, display := put c l.display }

/-- `buf[i] = '\0'; return i;` -/
def terminate (l : Line δ) : Line δ := { l with buf := l.buf.write l.i 0 }

/-- The loop of `kb_readline`. Every round takes a scan code at least. -/
def readlineLoop (len : Int) : Nat → Line δ → Bool → List Byte → Readline δ
  | 0, l, shift, codes => ⟨l, shift, codes, false⟩
  | n + 1, l, shift, codes =>
    if l.i < len - 1 then
      match kbGetchar shift codes with
      | (none, shift, codes) => ⟨l, shift, codes, false⟩
      | (some c, shift, codes) =>
        if c = newline ∨ c = carriageReturn then
          ⟨terminate { l with display := put newline l.display }, shift, codes, true⟩
        else readlineLoop len n (lineChar put l c) shift codes
    else ⟨terminate l, shift, codes, true⟩

/-- `kb_readline` -/
def kbReadline (len : Int) (buf : Int → Byte) (display : δ) (shift : Bool)
    (codes : List Byte) : Readline δ :=
  readlineLoop put len (codes.length + 1) ⟨0, ⟨buf, []⟩, display⟩ shift codes

end Readline

/-! ## Decoding -/

/-- The characters of a stream of scan codes. -/
def decode : Bool → List Byte → List Byte
  | _, [] => []
  | shift, sc :: codes => (kbStep shift sc).2.toList ++ decode (kbStep shift sc).1 codes

/-- `shift_held` after the scan codes. -/
def shiftAfter (shift : Bool) (codes : List Byte) : Bool :=
  codes.foldl (fun shift sc => (kbStep shift sc).1) shift

theorem decode_append (shift : Bool) (s t : List Byte) :
    decode shift (s ++ t) = decode shift s ++ decode (shiftAfter shift s) t := by
  induction s generalizing shift with
  | nil => rfl
  | cons sc s ih => rw [List.cons_append, decode, decode, ih, List.append_assoc, shiftAfter,
      shiftAfter, List.foldl_cons]

theorem shiftAfter_append (shift : Bool) (s t : List Byte) :
    shiftAfter shift (s ++ t) = shiftAfter (shiftAfter shift s) t :=
  List.foldl_append ..

/-- A code that neither releases a key nor belongs to a shift key. -/
def IsPress (sc : Byte) : Prop := sc &&& 0x80 = 0 ∧ sc ≠ 0x2A ∧ sc ≠ 0x36

/-- What a code that gives a character is. -/
theorem kbStep_some {shift shift' : Bool} {sc c : Byte} (h : kbStep shift sc = (shift', some c)) :
    shift' = shift ∧ IsPress sc ∧ c = (if shift then scAsciiShift sc else scAscii sc) ∧
      c ≠ 0 := by
  unfold kbStep at h
  by_cases hrelease : sc &&& 0x80 ≠ 0
  · rw [if_pos hrelease] at h
    dsimp only at h
    split at h <;> cases h
  rw [if_neg hrelease] at h
  by_cases hkey : sc = 0x2A ∨ sc = 0x36
  · rw [if_pos hkey] at h
    cases h
  rw [if_neg hkey] at h
  by_cases h0 : (if shift then scAsciiShift sc else scAscii sc) ≠ 0
  · rw [if_pos h0] at h
    cases h
    exact ⟨rfl, ⟨not_not.mp hrelease, fun h => hkey (.inl h), fun h => hkey (.inr h)⟩, rfl, h0⟩
  · rw [if_neg h0] at h
    cases h

theorem kbStep_of_press {shift : Bool} {sc : Byte} (h : IsPress sc)
    (h0 : (if shift then scAsciiShift sc else scAscii sc) ≠ 0) :
    kbStep shift sc = (shift, some (if shift then scAsciiShift sc else scAscii sc)) := by
  unfold kbStep
  rw [if_neg (not_not.mpr h.1), if_neg (not_or.mpr h.2)]
  exact if_pos h0

/-- The codes of a table are compared as numbers: a search among words is slow to evaluate. -/
theorem getD_ne {table : List Byte} {a : Byte} (h : a.toNat ∉ table.map BitVec.toNat)
    (h0 : 0 ≠ a) (i : Nat) : table.getD i 0 ≠ a := by
  rw [List.getD_eq_getElem?_getD]
  cases hi : table[i]? with
  | none => exact h0
  | some c =>
    rintro rfl
    exact h (List.mem_map_of_mem (List.mem_of_getElem? hi))

/-- The tables have no carriage return. -/
theorem ne_carriageReturn {shift shift' : Bool} {sc c : Byte}
    (h : kbStep shift sc = (shift', some c)) : c ≠ carriageReturn := by
  obtain ⟨-, -, rfl, -⟩ := kbStep_some h
  cases shift with
  | true => exact getD_ne (by decide) (by decide) _
  | false => exact getD_ne (by decide) (by decide) _

theorem kbGetchar_skip {shift shift' : Bool} {sc : Byte} (h : kbStep shift sc = (shift', none))
    (codes : List Byte) : kbGetchar shift (sc :: codes) = kbGetchar shift' codes := by
  rw [kbGetchar, h]

theorem kbGetchar_char {shift shift' : Bool} {sc c : Byte}
    (h : kbStep shift sc = (shift', some c)) (codes : List Byte) :
    kbGetchar shift (sc :: codes) = (some c, shift', codes) := by
  rw [kbGetchar, h]

/-- What a call of `kb_getchar` that returns has read. -/
theorem kbGetchar_some {shift shift' : Bool} {codes rest : List Byte} {c : Byte}
    (h : kbGetchar shift codes = (some c, shift', rest)) :
    ∃ pre sc, codes = pre ++ sc :: rest ∧ decode shift pre = [] ∧
      kbStep (shiftAfter shift pre) sc = (shift', some c) := by
  induction codes generalizing shift with
  | nil => cases h
  | cons sc codes ih =>
    rw [kbGetchar] at h
    split at h
    · rename_i s d hstep
      cases h
      exact ⟨[], sc, rfl, rfl, hstep⟩
    · rename_i s hstep
      obtain ⟨pre, sc', rfl, hnone, hsome⟩ := ih h
      refine ⟨sc :: pre, sc', rfl, ?_, ?_⟩
      · rw [decode, hstep]
        exact hnone
      · rw [shiftAfter, List.foldl_cons, hstep]
        exact hsome

/-- A call of `kb_getchar` that waits has read everything. -/
theorem kbGetchar_none {shift shift' : Bool} {codes rest : List Byte}
    (h : kbGetchar shift codes = (none, shift', rest)) :
    rest = [] ∧ decode shift codes = [] ∧ shift' = shiftAfter shift codes := by
  induction codes generalizing shift with
  | nil =>
    cases h
    exact ⟨rfl, rfl, rfl⟩
  | cons sc codes ih =>
    rw [kbGetchar] at h
    split at h
    · cases h
    · rename_i s hstep
      obtain ⟨hrest, hnone, hshift⟩ := ih h
      refine ⟨hrest, ?_, ?_⟩
      · rw [decode, hstep]
        exact hnone
      · rw [shiftAfter, List.foldl_cons, hstep]
        exact hshift

end SengOs.Console
