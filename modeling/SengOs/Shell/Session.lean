import SengOs.Console.Box
import SengOs.Console.Readline
import SengOs.Shell.Output
import SengOs.Shell.Quiet

/-!
# Sessions of the shell

The loop of `shell_run` on a stream of scan codes, from the start of `kernel_main` on. A round
prompts, reads a line with `kb_readline` and runs the command of the line. The keys are all that
decides what a session does: `typedLines` are the lines of the characters, each in turn, and the
session runs them, in their order, until it waits for a key (`session_runs_typed_lines`).
-/

namespace SengOs.Shell

open ByteMemory CString Fs Kernel
open Console (Screen vgaPutchar decode decode_append lineOf lineOf_append edit)

/-! ## Lines of a stream of characters -/

/-- The lines that the characters end, where the current one holds `held`. A line ends with a
newline, or when `limit` characters are held. -/
def typedLines (limit : Nat) : List Byte → List Byte → List (List Byte)
  | _, [] => []
  | held, c :: cs =>
    if c = Console.newline then held :: typedLines limit [] cs
    else if limit ≤ (edit held c).length then edit held c :: typedLines limit [] cs
    else typedLines limit (edit held c) cs

theorem typedLines_of_none {limit : Nat} {held cs : List Byte}
    (h : lineOf limit held cs = none) : typedLines limit held cs = [] := by
  fun_induction lineOf limit held cs with
  | case1 held hfull => cases h
  | case2 held hroom => rfl
  | case3 held c cs hfull => cases h
  | case4 held cs hroom => cases h
  | case5 held c cs hroom hc ih =>
    rw [typedLines, if_neg hc, if_neg, ih h]
    intro hfull
    rw [Console.lineOf_full hfull] at h
    cases h

theorem typedLines_of_some {limit : Nat} {held cs text rest : List Byte}
    (hroom : held.length < limit) (h : lineOf limit held cs = some (text, rest)) :
    typedLines limit held cs = text :: typedLines limit [] rest := by
  fun_induction lineOf limit held cs with
  | case1 held hfull => exact absurd hroom (Nat.not_lt.mpr hfull)
  | case2 held _ => cases h
  | case3 held c cs hfull => exact absurd hroom (Nat.not_lt.mpr hfull)
  | case4 held cs _ =>
    cases h
    rw [typedLines, if_pos rfl]
  | case5 held c cs _ hc ih =>
    rw [typedLines, if_neg hc]
    by_cases hfull : limit ≤ (edit held c).length
    · rw [if_pos hfull]
      rw [Console.lineOf_full hfull] at h
      cases h
      rfl
    · rw [if_neg hfull]
      exact ih (Nat.not_le.mp hfull) h

/-! ## `shell_run` -/

/-- The string in `shell_buf`, which ends at its last byte at the latest. -/
def Line.ofBuffer (p : Nat → Byte) : Line where
  text := ⟨CString.read p 255, CString.read_ne_zero p 255⟩
  fits := by
    have hlen (p : Nat → Byte) (n : Nat) : (CString.read p n).length ≤ n := by
      induction n generalizing p with
      | zero => exact le_rfl
      | succ n ih =>
        rw [CString.read]
        split
        · exact Nat.zero_le _
        · exact Nat.succ_le_succ (ih _)
    exact hlen p 255

/-- What the shell goes on with: the screen, `shell_buf`, `shift_held`, the scan codes that are
still to be read, and the file system. -/
structure Session where
  screen : Screen
  buf : Int → Byte
  shift : Bool
  codes : List Byte
  fs : FsState

/-- What the linker and the entries of the threads have to do with a command. -/
structure Program where
  link : Link
  image : Image

/-- A round that ran: its line, what it found, what it printed and what it had the kernel do. -/
structure Round where
  line : Line
  ambient : Ambient
  printed : List VgaCall
  calls : List ShellCall

/-- `vga_puts_color(prompt, VGA_LIGHT_GREEN, VGA_BLACK)` -/
def prompt : VgaCall := .putsColor (chars "\n  ksh> ") .lightGreen .black

/-- The call `kb_readline(shell_buf, sizeof(shell_buf))` behind the prompt. -/
def Session.call (s : Session) : Console.ReadlineCall Screen :=
  ⟨256, s.buf, prompt.run s.screen⟩

/-- A round of the loop, unless `kb_readline` waits for a key. -/
def Session.round (program : Program) (ambient : Ambient) (s : Session) :
    Option (Round × Session) :=
  let r := s.call.run vgaPutchar s.shift s.codes
  if r.done then
    let line := Line.ofBuffer fun j => r.line.buf.get j
    let command := shellDispatch line.text
    let out := command.exec program.link ambient s.fs
    some (⟨line, ambient, out.1, command.kernelCalls program.image⟩,
      ⟨runVga out.1 r.line.display, r.line.buf.get, r.shift, r.codes, out.2⟩)
  else none

/-- The rounds of the loop, at most `n`, and the session where it waits; `ambient i` is what round
`i` finds. -/
def shellLoop (program : Program) : Nat → (Nat → Ambient) → Session → List Round × Session
  | 0, _, s => ([], s)
  | n + 1, ambient, s =>
    match s.round program (ambient 0) with
    | none => ([], s)
    | some (r, s') =>
      let rest := shellLoop program n (fun i => ambient (i + 1)) s'
      (r :: rest.1, rest.2)

def greeting : VgaCall :=
  .putsColor (chars "\n  Kernel Shell ready. Type 'help' for commands.\n") .lightGreen .black

/-- `shell_run`. Every round takes a scan code at least. -/
def shellRun (program : Program) (ambient : Nat → Ambient) (s : Session) : List Round × Session :=
  shellLoop program (s.codes.length + 1) ambient { s with screen := greeting.run s.screen }

/-! ## Rounds -/

section Rounds

variable {program : Program} {ambient : Ambient} {s s' : Session} {r : Round}

/-- What a round has done: it has read the line that was typed and run its command. -/
structure Ran (program : Program) (s : Session) (r : Round) (s' : Session) : Prop where
  typed : lineOf 255 [] (decode s.shift s.codes) =
    some (r.line.text.bytes, decode s'.shift s'.codes)
  codes : s'.codes.length < s.codes.length
  printed : r.printed = ((shellDispatch r.line.text).exec program.link r.ambient s.fs).1
  calls : r.calls = lineCalls program.image r.line.text
  fs : s'.fs = (runLine s.fs r.ambient.stack r.line).2

/-- The first bytes of a string. -/
theorem read_eq_take {p : Nat → Byte} {text : List Byte} (h0 : ∀ b ∈ text, b ≠ 0)
    (h : Spells p text) (n : Nat) : CString.read p n = text.take n := by
  induction text generalizing p n with
  | nil =>
    cases n with
    | zero => rfl
    | succ n => exact if_pos h
  | cons c text ih =>
    cases n with
    | zero => rfl
    | succ n =>
      have hc : p 0 ≠ 0 := h.1 ▸ h0 c List.mem_cons_self
      have htail := ih (fun b hb => h0 b (List.mem_cons_of_mem c hb)) h.2 n
      rw [CString.read, if_neg hc, htail, h.1, List.take_succ_cons]

theorem ofBuffer_of_returned {l : Console.Line Screen} {text : List Byte}
    (h : Console.Returned 255 l text) :
    (Line.ofBuffer fun j => l.buf.get j).text.bytes = text :=
  (read_eq_take h.noNul h.spells 255).trans (List.take_of_length_le h.le)

/-- A round waits for a line that does not end, and else it runs the line that was typed. -/
theorem round_spec (program : Program) (ambient : Ambient) (s : Session) :
    (s.round program ambient = none ∧ lineOf 255 [] (decode s.shift s.codes) = none) ∨
      ∃ r s', s.round program ambient = some (r, s') ∧ Ran program s r s' ∧
        r.ambient = ambient := by
  have hspec := s.call.run_spec vgaPutchar (show (2 : Int) ≤ 256 by decide) s.shift s.codes
  unfold Session.round
  dsimp only at hspec ⊢
  generalize s.call.run vgaPutchar s.shift s.codes = read at hspec ⊢
  rcases hspec with ⟨hdone, -, -, hnone⟩ | ⟨text, used, hdone, hret, hused, hshift, hends⟩
  · left
    rw [hdone]
    exact ⟨rfl, hnone⟩
  · right
    rw [hdone]
    have htext : (Line.ofBuffer fun j => read.line.buf.get j).text.bytes = text :=
      ofBuffer_of_returned hret
    refine ⟨_, _, rfl, ⟨?_, ?_, rfl, (lineCalls_eq ..).symm, ?_⟩, rfl⟩
    · show lineOf 255 [] (decode s.shift s.codes) =
        some ((Line.ofBuffer fun j => read.line.buf.get j).text.bytes,
          decode read.shift read.codes)
      rw [htext, hused, decode_append, hshift]
      exact lineOf_append hends.ends _
    · show read.codes.length < s.codes.length
      have hne : used ≠ [] := by
        rintro rfl
        have hends' := hends.ends
        cases hends'
      rw [hused, List.length_append]
      exact Nat.lt_add_of_pos_left (List.length_pos_iff.mpr hne)
    · exact (exec_runLine program.link ambient s.fs _).1

end Rounds

/-! ## Runs -/

/-- The files after the lines of the rounds. -/
def filesAfter (s : FsState) (rounds : List Round) : FsState :=
  runLines s (rounds.map fun r => (r.ambient.stack, r.line))

/-- The rounds of a run: what was typed, line by line, and what it did. -/
structure RanAll (program : Program) (ambient : Nat → Ambient) (s : Session)
    (t : List Round × Session) : Prop where
  typed : (t.1.map fun r => r.line.text.bytes) = typedLines 255 [] (decode s.shift s.codes)
  waits : lineOf 255 [] (decode t.2.shift t.2.codes) = none
  found : ∀ i r, t.1[i]? = some r → r.ambient = ambient i
  calls : t.1.flatMap Round.calls =
    (t.1.map Round.line).flatMap fun line => lineCalls program.image line.text
  printed : ∀ i r, t.1[i]? = some r → r.printed =
    ((shellDispatch r.line.text).exec program.link r.ambient (filesAfter s.fs (t.1.take i))).1
  fs : t.2.fs = filesAfter s.fs t.1

theorem ranAll_shellLoop (program : Program) {n : Nat} (ambient : Nat → Ambient) (s : Session)
    (hn : s.codes.length < n) :
    RanAll program ambient s (shellLoop program n ambient s) := by
  induction n generalizing s ambient with
  | zero => cases hn
  | succ n ih =>
    rw [shellLoop]
    rcases round_spec program (ambient 0) s with
      ⟨hround, hnone⟩ | ⟨r, s', hround, hran, hfound⟩
    · rw [hround]
      refine ⟨(typedLines_of_none hnone).symm, hnone, fun i r hr => ?_, rfl, fun i r hr => ?_, rfl⟩
      · cases hr
      · cases hr
    · rw [hround]
      have hrest := ih (fun i => ambient (i + 1)) s' (by have hlt := hran.codes; omega)
      dsimp only
      generalize shellLoop program n (fun i => ambient (i + 1)) s' = t at hrest ⊢
      refine ⟨?_, hrest.waits, fun i q hq => ?_, ?_, fun i q hq => ?_, ?_⟩
      · rw [List.map_cons, hrest.typed]
        exact (typedLines_of_some (by decide) hran.typed).symm
      · cases i with
        | zero =>
          cases hq
          exact hfound
        | succ i => exact hrest.found i q hq
      · rw [List.flatMap_cons, hrest.calls, hran.calls]
        rfl
      · cases i with
        | zero =>
          cases hq
          exact hran.printed
        | succ i =>
          rw [hrest.printed i q hq, hran.fs]
          rfl
      · rw [hrest.fs, hran.fs]
        rfl

theorem ranAll_shellRun (program : Program) (ambient : Nat → Ambient) (s : Session) :
    RanAll program ambient s (shellRun program ambient s) := by
  have hloop := ranAll_shellLoop program ambient
    { s with screen := VgaCall.run greeting s.screen } (Nat.lt_succ_self s.codes.length)
  exact ⟨hloop.typed, hloop.waits, hloop.found, hloop.calls, hloop.printed, hloop.fs⟩

/-- For every stream of scan codes: the lines that the shell runs are those that were typed, and it
waits as no further line has been ended. What a round prints is what its command prints with the
files after the earlier lines and the processes it finds, and the kernel has been called as
`kernel_main` says for the lines. -/
theorem session_runs_typed_lines (program : Program) (ambient : Nat → Ambient) (s : Session) :
    let t := shellRun program ambient s
    (t.1.map fun r => r.line.text.bytes) = typedLines 255 [] (decode s.shift s.codes) ∧
    lineOf 255 [] (decode t.2.shift t.2.codes) = none ∧
    (∀ i r, t.1[i]? = some r → r.printed =
      ((shellDispatch r.line.text).exec program.link (ambient i)
        (filesAfter s.fs (t.1.take i))).1) ∧
    demoTasks program.image ++ t.1.flatMap Round.calls =
      kernelMain program.image (t.1.map Round.line) ∧
    t.2.fs = filesAfter s.fs t.1 := by
  intro t
  have hran : RanAll program ambient s t := ranAll_shellRun program ambient s
  refine ⟨hran.typed, hran.waits, fun i r hr => ?_, congrArg _ hran.calls, hran.fs⟩
  rw [← hran.found i r hr]
  exact hran.printed i r hr

end SengOs.Shell
