import SengOs.Shell.Boot
import SengOs.Shell.RoundTrip

/-!
# Typing

`strokes` are the keys that one presses for a character: its key, with a shift key held if it
takes one. The driver decodes a typed text to that text (`decode_typed`), so that a file can be
written and read back from the keyboard (`typed_file_round_trip`).
-/

namespace SengOs.Shell

open ByteMemory CString Fs
open Console (decode shiftAfter decode_append shiftAfter_append kbStep scAsciiEntries
  scAsciiShiftEntries scAscii scAsciiShift backspace edit)

/-! ## Keys -/

/-- The key of a character in a table. -/
def keyOf (table : List Byte) (c : Byte) : Option Byte :=
  (table.findIdx? (· == c)).map (BitVec.ofNat 8)

/-- Press and release of a key -/
def tap (sc : Byte) : List Byte := [sc, sc ||| 0x80]

def strokes (c : Byte) : List Byte :=
  match keyOf scAsciiEntries c with
  | some sc => tap sc
  | none =>
    match keyOf scAsciiShiftEntries c with
    | some sc => 0x2A :: tap sc ++ [0xAA]
    | none => []

def typed (text : List Byte) : List Byte := text.flatMap strokes

/-- A character that there are keys for -/
def Typable (c : Byte) : Prop := c ≠ 0 ∧ (c ∈ scAsciiEntries ∨ c ∈ scAsciiShiftEntries)

section Keys

variable {c sc : Byte} {shift : Bool} {table : List Byte}

theorem keyOf_some (h : keyOf table c = some sc) (hlen : table.length ≤ 84) :
    sc.toNat < 84 ∧ table.getD sc.toNat 0 = c := by
  obtain ⟨i, hi, rfl⟩ := Option.map_eq_some_iff.mp h
  obtain ⟨hlt, hc, -⟩ := List.findIdx?_eq_some_iff_getElem.mp hi
  have hi' : (BitVec.ofNat 8 i).toNat = i := by
    rw [BitVec.toNat_ofNat]
    omega
  rw [hi']
  refine ⟨by omega, ?_⟩
  rw [List.getD_eq_getElem?_getD, List.getElem?_eq_getElem hlt]
  exact beq_iff_eq.mp hc

theorem keyOf_isSome (h : c ∈ table) : ∃ sc, keyOf table c = some sc := by
  cases hfind : table.findIdx? (· == c) with
  | none =>
    have hnot := List.findIdx?_eq_none_iff.mp hfind c h
    simp at hnot
  | some i => exact ⟨_, congrArg _ hfind⟩

/-- A key with a code of the tables, pressed and released. -/
theorem key_bits (hsc : sc.toNat < 84) :
    sc &&& 0x80 = 0 ∧ (sc ||| 0x80) &&& 0x80 ≠ 0 ∧ (sc ||| 0x80) &&& 0x7F = sc := by
  have hall : ∀ i < 84, BitVec.ofNat 8 i &&& 0x80 = 0 ∧
      (BitVec.ofNat 8 i ||| 0x80) &&& 0x80 ≠ 0 ∧
      (BitVec.ofNat 8 i ||| 0x80) &&& 0x7F = BitVec.ofNat 8 i := by decide
  have hof : BitVec.ofNat 8 sc.toNat = sc := by simp
  rw [← hof]
  exact hall sc.toNat hsc

/-- No character is on the shift keys. -/
theorem key_not_shift (h : (if shift then scAsciiShift sc else scAscii sc) ≠ 0) :
    sc ≠ 0x2A ∧ sc ≠ 0x36 := by
  constructor
  · rintro rfl
    cases shift <;> exact h rfl
  · rintro rfl
    cases shift <;> exact h rfl

/-- A tap on the key of a character gives the character, and leaves shift as it is. -/
theorem decode_tap (hsc : sc.toNat < 84) (h0 : c ≠ 0)
    (hc : (if shift then scAsciiShift sc else scAscii sc) = c) :
    decode shift (tap sc) = [c] ∧ shiftAfter shift (tap sc) = shift := by
  obtain ⟨hpress, hrelease, hkey⟩ := key_bits hsc
  have hne : (if shift then scAsciiShift sc else scAscii sc) ≠ 0 := by rwa [hc]
  obtain ⟨hleft, hright⟩ := key_not_shift hne
  have hdown : kbStep shift sc = (shift, some c) := by
    rw [Console.kbStep_of_press ⟨hpress, hleft, hright⟩ hne, hc]
  have hup : kbStep shift (sc ||| 0x80) = (shift, none) := by
    unfold kbStep
    rw [if_pos hrelease]
    dsimp only
    rw [hkey, if_neg (not_or.mpr ⟨hleft, hright⟩)]
  constructor
  · simp only [tap, decode, hdown, hup, Option.toList_some, Option.toList_none, List.append_nil]
  · simp only [tap, shiftAfter, List.foldl_cons, List.foldl_nil, hdown, hup]

theorem decode_strokes (h : Typable c) :
    decode false (strokes c) = [c] ∧ shiftAfter false (strokes c) = false := by
  unfold strokes
  cases hplain : keyOf scAsciiEntries c with
  | some sc =>
    obtain ⟨hsc, hc⟩ := keyOf_some hplain (by decide)
    exact decode_tap hsc h.1 hc
  | none =>
    have hshifted : c ∈ scAsciiShiftEntries := by
      refine h.2.resolve_left fun hmem => ?_
      obtain ⟨sc, hsome⟩ := keyOf_isSome hmem
      rw [hplain] at hsome
      cases hsome
    obtain ⟨sc, hsome⟩ := keyOf_isSome hshifted
    obtain ⟨hsc, hc⟩ := keyOf_some hsome (by decide)
    have htap : decode true (tap sc) = [c] ∧ shiftAfter true (tap sc) = true :=
      decode_tap hsc h.1 hc
    obtain ⟨hdecode, hshift⟩ := htap
    rw [hsome]
    dsimp only
    have hdown : kbStep false 0x2A = (true, none) := rfl
    have hup : kbStep true 0xAA = (false, none) := rfl
    constructor
    · rw [List.cons_append, decode, hdown, decode_append, hdecode, hshift]
      rfl
    · rw [List.cons_append, shiftAfter, List.foldl_cons, hdown, List.foldl_append]
      exact (congrArg (fun shift => shiftAfter shift [0xAA]) hshift).trans rfl

/-- What is typed is decoded to the text, and shift is released behind it. -/
theorem decode_typed {text : List Byte} (h : ∀ c ∈ text, Typable c) :
    decode false (typed text) = text ∧ shiftAfter false (typed text) = false := by
  induction text with
  | nil => exact ⟨rfl, rfl⟩
  | cons c text ih =>
    obtain ⟨hc, hshift⟩ := decode_strokes (h c List.mem_cons_self)
    obtain ⟨htext, hrest⟩ := ih fun d hd => h d (List.mem_cons_of_mem c hd)
    unfold typed at htext hrest ⊢
    rw [List.flatMap_cons]
    constructor
    · rw [decode_append, hc, hshift, htext]
      rfl
    · rw [shiftAfter_append, hshift, hrest]

end Keys

/-! ## Files -/

instance (c : Byte) : Decidable (Typable c) := inferInstanceAs (Decidable (_ ∧ _))

/-- There are keys for the characters, and none of them ends the line or takes one back. -/
def Plain (text : List Byte) : Prop :=
  ∀ c ∈ text, Typable c ∧ c ≠ Console.newline ∧ c ≠ backspace

instance (text : List Byte) : Decidable (Plain text) :=
  inferInstanceAs (Decidable (∀ c ∈ text, Typable c ∧ c ≠ Console.newline ∧ c ≠ backspace))

theorem Plain.append {text more : List Byte} (h : Plain text) (h' : Plain more) :
    Plain (text ++ more) := by
  intro c hc
  rcases List.mem_append.mp hc with hc | hc
  · exact h c hc
  · exact h' c hc

/-- A line that is typed as it is. -/
theorem typedLines_plain {limit : Nat} {held text rest : List Byte} (h : Plain text)
    (hlen : held.length + text.length < limit) :
    typedLines limit held (text ++ Console.newline :: rest) =
      (held ++ text) :: typedLines limit [] rest := by
  induction text generalizing held with
  | nil => rw [List.append_nil, List.nil_append, typedLines, if_pos rfl]
  | cons c text ih =>
    obtain ⟨-, hnewline, hbackspace⟩ := h c List.mem_cons_self
    have hedit : edit held c = held ++ [c] := if_neg hbackspace
    rw [List.length_cons] at hlen
    rw [List.cons_append, typedLines, if_neg hnewline, hedit, if_neg, ih, List.append_assoc,
      List.singleton_append]
    · exact fun d hd => h d (List.mem_cons_of_mem c hd)
    · rw [List.length_append, List.length_singleton]
      omega
    · rw [List.length_append, List.length_singleton]
      omega

theorem plain_of_words : Plain (chars "write ") ∧ Plain (chars "cat ") ∧ Plain [space] := by
  decide

theorem typable_newline : Typable Console.newline := by
  decide

section RoundTrip

variable {name text : CString}

/-- The two lines that are typed: one that writes a file and one that prints it. -/
def writeLine (name text : CString) : List Byte :=
  chars "write " ++ (name.bytes ++ [space] ++ text.bytes)

def catLine (name : CString) : List Byte := chars "cat " ++ name.bytes

def writeThenCat (name text : CString) : List Byte :=
  writeLine name text ++ Console.newline :: (catLine name ++ [Console.newline])

/-- The lines of the session are the two lines. -/
theorem typed_lines (hplain : Plain (name.bytes ++ text.bytes))
    (hfits : name.bytes.length + text.bytes.length ≤ 247) :
    decode false (typed (writeThenCat name text)) = writeThenCat name text ∧
      typedLines 255 [] (writeThenCat name text) = [writeLine name text, catLine name] := by
  obtain ⟨hwrite, hcat, hspace⟩ := plain_of_words
  have hname : Plain name.bytes := fun c hc => hplain c (List.mem_append_left _ hc)
  have htext : Plain text.bytes := fun c hc => hplain c (List.mem_append_right _ hc)
  have hfirst : Plain (writeLine name text) := hwrite.append ((hname.append hspace).append htext)
  have hsecond : Plain (catLine name) := hcat.append hname
  have hlen : (chars "write ").length = 6 ∧ (chars "cat ").length = 4 := by decide
  constructor
  · refine (decode_typed fun c hc => ?_).1
    rcases List.mem_append.mp hc with hc | hc
    · exact (hfirst c hc).1
    rcases List.mem_cons.mp hc with rfl | hc
    · exact typable_newline
    rcases List.mem_append.mp hc with hc | hc
    · exact (hsecond c hc).1
    · exact List.mem_singleton.mp hc ▸ typable_newline
  · rw [writeThenCat, typedLines_plain hfirst, typedLines_plain hsecond]
    · rfl
    · simp only [catLine, List.length_append, hlen.2, List.length_nil]
      omega
    · simp only [writeLine, List.length_append, hlen.1, List.length_nil, List.length_singleton]
      omega

end RoundTrip

/-- From the keyboard to the screen: in a session whose files are as commands leave them, with
nothing typed on the line, typing a line `write name text` for which there is room and then
`cat name` prints how much was written and then the text, and it changes that file alone. -/
theorem typed_file_round_trip (program : Program) (ambient : Nat → Ambient) (s : Session)
    (name text : CString) (hquiet : Quiet s.fs) (hname : name.bytes ≠ [])
    (hlen : name.bytes.length ≤ 23) (hspace : space ∉ name.bytes) (htext : text.bytes ≠ [])
    (hstart : text.bytes.head? ≠ some space) (hplain : Plain (name.bytes ++ text.bytes))
    (hfits : name.bytes.length + text.bytes.length ≤ 247)
    (hroom : FileExists s.fs.ramdisk name ∨ fileCount s.fs.ramdisk < 63) (before : List Byte)
    (hbefore : decode s.shift before = [] ∧ shiftAfter s.shift before = false)
    (hcodes : s.codes = before ++ typed (writeThenCat name text)) :
    let t := shellRun program ambient s
    ∃ r₁ r₂, t.1 = [r₁, r₂] ∧
      printedBy r₁.printed = printWrote text.bytes.length ∧
      printedBy r₂.printed = chars "  " ++ text.bytes ++ chars "\n" ∧
      t.2.fs.abs = s.fs.abs.setFile name.bytes (some text.bytes) := by
  intro t
  have hran : RanAll program ambient s t := ranAll_shellRun program ambient s
  obtain ⟨hdecode, hlines⟩ := typed_lines hplain hfits
  have hchars : decode s.shift s.codes = writeThenCat name text := by
    rw [hcodes, decode_append, hbefore.1, hbefore.2, hdecode]
    rfl
  have htyped := hran.typed
  rw [hchars, hlines] at htyped
  -- there are two rounds
  obtain ⟨r₁, r₂, hrounds⟩ : ∃ r₁ r₂, t.1 = [r₁, r₂] := by
    have htwo := congrArg List.length htyped
    rw [List.length_map] at htwo
    exact List.length_eq_two.mp htwo
  rw [hrounds, List.map_cons, List.map_cons, List.map_nil] at htyped
  obtain ⟨hline₁, hrest⟩ := List.cons.inj htyped
  obtain ⟨hline₂, -⟩ := List.cons.inj hrest
  obtain ⟨s', hrun, hquiet', habs⟩ :=
    hquiet.runLine_write hname hlen hspace htext hstart hroom hline₁ r₁.ambient.stack
  have hfile : s'.abs.files name.bytes = some text.bytes := by
    rw [habs, FileStore.setFile_files_self]
  have hcat := hquiet'.runLine_cat hname hspace hfile hline₂ r₂.ambient.stack
  obtain ⟨args, hwriteArgs, -⟩ := dispatch_write hname hspace hline₁
  have hcatName := dispatch_cat hname hspace hline₂
  have hprinted₁ := hran.printed 0 r₁ (by rw [hrounds]; rfl)
  have hprinted₂ := hran.printed 1 r₂ (by rw [hrounds]; rfl)
  rw [hrounds] at hprinted₁ hprinted₂
  have hfs₁ : filesAfter s.fs (List.take 1 [r₁, r₂]) = s' := congrArg Prod.snd hrun
  refine ⟨r₁, r₂, hrounds, ?_, ?_, ?_⟩
  · have hexec := (exec_runLine program.link r₁.ambient s.fs r₁.line).2
    rw [← dispatch_eq, hwriteArgs] at hexec
    rw [hprinted₁]
    exact (hexec (Option.some_ne_none _)).trans (congrArg Prod.fst hrun)
  · have hexec := (exec_runLine program.link r₂.ambient s' r₂.line).2
    rw [← dispatch_eq, hcatName] at hexec
    rw [hprinted₂, hfs₁]
    exact (hexec (Option.some_ne_none _)).trans (congrArg Prod.fst hcat)
  · rw [hran.fs, hrounds, ← habs]
    show (runLine (runLine s.fs r₁.ambient.stack r₁.line).2 r₂.ambient.stack r₂.line).2.abs = _
    rw [hrun, hcat]

/-- `write a b` and `cat a`, as they are typed on an empty disk -/
theorem typed_file_round_trip_a :
    let name : CString := ⟨chars "a", by decide⟩
    let text : CString := ⟨chars "b", by decide⟩
    let s : Session := { sampleSession
      (typed (writeThenCat name text)) with
      fs := fsInit ⟨fun _ => 0, fun _ => File.zero⟩ }
    ∃ r₁ r₂, (shellRun sampleProgram (fun _ => sampleAmbient) s).1 = [r₁, r₂] ∧
      printedBy r₁.printed = printWrote 1 ∧
      printedBy r₂.printed = chars "  " ++ chars "b" ++ chars "\n" := by
  intro name text s
  have hroom : fileCount s.fs.ramdisk < 63 := by
    show fileCount (fsInit _).ramdisk < 63
    rw [fileCount_fsInit]
    decide
  obtain ⟨r₁, r₂, hrounds, hwrote, hprinted, -⟩ :=
    typed_file_round_trip sampleProgram (fun _ => sampleAmbient) s name text (quiet_fsInit _)
      (by decide) (by decide) (by decide) (by decide) (by decide) (by decide) (by decide)
      (.inr hroom) [] ⟨rfl, rfl⟩ rfl
  exact ⟨r₁, r₂, hrounds, hwrote, hprinted⟩

end SengOs.Shell
