import SengOs.Lib.PrefixFree
import SengOs.Shell.Demos
import SengOs.Shell.Strncmp

/-!
# The dispatch of `shell_run`

`shellDispatch` is the whole chain of tests, with the command that each of them leads to. The
words that are tested for, with the NUL or the space behind them, are prefix-free: no line passes
two of the tests, so that the chain is the grammar of `Spelled`, and the dispatches of the other
modules are parts of it.
-/

namespace SengOs.Shell

open ByteMemory CString Kernel

/-- What `shell_run` does with a line. -/
inductive ShellCommand where
  | empty
  | help
  | clear
  | about
  | mem
  | echo (args : CString)
  | ps
  | kill (arg : CString)
  | race
  | racem
  | meminfo
  | ls
  | touch (name : CString)
  | cat (name : CString)
  | write (args : CString)
  | rm (name : CString)
  | unknown (cmd : CString)

/-- The tests of `shell_run`, in their order. -/
def shellDispatch (line : CString) : ShellCommand :=
  let cmd := kLtrim line
  if strlen cmd = 0 then .empty
  else if kStrcmp cmd "help" = 0 then .help
  else if kStrcmp cmd "clear" = 0 then .clear
  else if kStrcmp cmd "about" = 0 then .about
  else if kStrcmp cmd "mem" = 0 then .mem
  else if kStrncmp cmd.byteAt (literal "echo ") 5 = 0 then .echo (kLtrim (advance cmd 5))
  else if kStrcmp cmd "ps" = 0 then .ps
  else if kStrncmp cmd.byteAt (literal "kill ") 5 = 0 then .kill (advance cmd 5)
  else if kStrcmp cmd "race" = 0 then .race
  else if kStrcmp cmd "racem" = 0 then .racem
  else if kStrcmp cmd "meminfo" = 0 then .meminfo
  else if kStrcmp cmd "ls" = 0 then .ls
  else if kStrncmp cmd.byteAt (literal "touch ") 6 = 0 then .touch (kLtrim (advance cmd 6))
  else if kStrncmp cmd.byteAt (literal "cat ") 4 = 0 then .cat (kLtrim (advance cmd 4))
  else if kStrncmp cmd.byteAt (literal "write ") 6 = 0 then .write (kLtrim (advance cmd 6))
  else if kStrncmp cmd.byteAt (literal "rm ") 3 = 0 then .rm (kLtrim (advance cmd 3))
  else if kStrncmp cmd.byteAt (literal "unlink ") 7 = 0 then .rm (kLtrim (advance cmd 7))
  else .unknown cmd

/-! ## The parts of the dispatch -/

/-- The commands that the file system is concerned with. -/
def ShellCommand.onFiles : ShellCommand → Option Command
  | ls => some .ls
  | touch name => some (.touch name)
  | cat name => some (.cat name)
  | write args => some (.write args)
  | rm name => some (.rm name)
  | _ => none

/-- The commands that look at the process table. -/
def ShellCommand.onProcesses : ShellCommand → Option ProcessCommand
  | ps => some .ps
  | kill arg => some (.kill arg)
  | _ => none

/-- What a command has the kernel do. -/
def ShellCommand.kernelCalls (img : Image) : ShellCommand → List ShellCall
  | kill arg => [.kill (readPid arg.bytes 0)]
  | race => Kernel.race img
  | racem => Kernel.racem img
  | _ => []

theorem dispatch_eq (line : CString) : dispatch line = (shellDispatch line).onFiles := by
  unfold dispatch shellDispatch
  simp only [apply_ite ShellCommand.onFiles]
  rfl

theorem dispatchProcess_eq (line : CString) :
    dispatchProcess line = (shellDispatch line).onProcesses := by
  unfold dispatchProcess shellDispatch
  simp only [apply_ite ShellCommand.onProcesses]
  simp only [ShellCommand.onProcesses, ite_self]

theorem lineCalls_eq (img : Image) (line : CString) :
    lineCalls img line = (shellDispatch line).kernelCalls img := by
  unfold lineCalls shellDispatch
  simp only [apply_ite (ShellCommand.kernelCalls img)]
  simp only [ShellCommand.kernelCalls, ite_self]

/-! ## The grammar -/

/-- The words that are tested for. -/
inductive Keyword where
  | help | clear | about | mem | echo | ps | kill | race | racem | meminfo | ls | touch | cat
  | write | rm | unlink
  deriving DecidableEq

namespace Keyword

/-- In the order of the tests. -/
def all : List Keyword :=
  [help, clear, about, mem, echo, ps, kill, race, racem, meminfo, ls, touch, cat, write, rm, unlink]

theorem mem_all (k : Keyword) : k ∈ all := by
  cases k <;> decide

/-- What a test compares the line with, and how many bytes if not all. -/
def word : Keyword → String × Option Nat
  | help => ("help", none)
  | clear => ("clear", none)
  | about => ("about", none)
  | mem => ("mem", none)
  | echo => ("echo ", some 5)
  | ps => ("ps", none)
  | kill => ("kill ", some 5)
  | race => ("race", none)
  | racem => ("racem", none)
  | meminfo => ("meminfo", none)
  | ls => ("ls", none)
  | touch => ("touch ", some 6)
  | cat => ("cat ", some 4)
  | write => ("write ", some 6)
  | rm => ("rm ", some 3)
  | unlink => ("unlink ", some 7)

def compare (cmd : CString) (k : Keyword) : Int :=
  match k.word with
  | (w, none) => kStrcmp cmd w
  | (w, some n) => kStrncmp cmd.byteAt (literal w) n

/-- The command, with the rest of the line behind the word. -/
def command (rest : CString) : Keyword → ShellCommand
  | help => .help
  | clear => .clear
  | about => .about
  | mem => .mem
  | echo => .echo (kLtrim rest)
  | ps => .ps
  | kill => .kill rest
  | race => .race
  | racem => .racem
  | meminfo => .meminfo
  | ls => .ls
  | touch => .touch (kLtrim rest)
  | cat => .cat (kLtrim rest)
  | write => .write (kLtrim rest)
  | rm => .rm (kLtrim rest)
  | unlink => .rm (kLtrim rest)

end Keyword

theorem shellDispatch_chain (line : CString) :
    shellDispatch line =
      if strlen (kLtrim line) = 0 then .empty
      else chain (fun k => Keyword.compare (kLtrim line) k = 0)
        (fun k => k.command (advance (kLtrim line) (k.word.2.getD 0))) (.unknown (kLtrim line))
        Keyword.all :=
  rfl

/-- What a line that passes the test begins with, its NUL included. -/
def Keyword.text (k : Keyword) : List Byte :=
  match k.word with
  | (w, none) => chars w ++ [0]
  | (w, some _) => chars w

theorem Keyword.word_noNul (k : Keyword) : ∀ b ∈ chars k.word.1, b ≠ 0 := by
  have hall : ∀ k ∈ all, 0 ∉ (chars k.word.1).map BitVec.toNat := by decide
  rintro b hb rfl
  exact hall k k.mem_all (List.mem_map_of_mem hb)

theorem Keyword.length_word (k : Keyword) : ∀ n ∈ k.word.2, n = (chars k.word.1).length := by
  have hall : ∀ k ∈ all, ∀ n ∈ k.word.2, n = (chars k.word.1).length := by decide
  exact hall k k.mem_all

theorem prefixFree_text : PrefixFree Keyword.text := by
  have htexts : Keyword.all.map Keyword.text =
      [[0x68, 0x65, 0x6C, 0x70, 0], [0x63, 0x6C, 0x65, 0x61, 0x72, 0],
        [0x61, 0x62, 0x6F, 0x75, 0x74, 0], [0x6D, 0x65, 0x6D, 0], [0x65, 0x63, 0x68, 0x6F, 0x20],
        [0x70, 0x73, 0], [0x6B, 0x69, 0x6C, 0x6C, 0x20], [0x72, 0x61, 0x63, 0x65, 0],
        [0x72, 0x61, 0x63, 0x65, 0x6D, 0], [0x6D, 0x65, 0x6D, 0x69, 0x6E, 0x66, 0x6F, 0],
        [0x6C, 0x73, 0], [0x74, 0x6F, 0x75, 0x63, 0x68, 0x20], [0x63, 0x61, 0x74, 0x20],
        [0x77, 0x72, 0x69, 0x74, 0x65, 0x20], [0x72, 0x6D, 0x20],
        [0x75, 0x6E, 0x6C, 0x69, 0x6E, 0x6B, 0x20]] := rfl
  apply prefixFree_of_pairwise Keyword.mem_all
  rw [htexts]
  decide

/-- A string is that word if they have the same bytes, and the same NUL. -/
theorem append_nul_prefix_iff {w s : List Byte} (hs : ∀ b ∈ s, b ≠ 0) :
    w ++ [0] <+: s ++ [0] ↔ s = w := by
  rw [List.prefix_concat_iff]
  constructor
  · rintro (heq | hprefix)
    · exact (List.append_cancel_right heq).symm
    · have hmem : (0 : Byte) ∈ s := hprefix.subset (by simp)
      exact absurd rfl (hs 0 hmem)
  · rintro rfl
    exact .inl rfl

theorem prefix_nul_iff {w s : List Byte} (hw : ∀ b ∈ w, b ≠ 0) : w <+: s ++ [0] ↔ w <+: s := by
  rw [List.prefix_concat_iff]
  constructor
  · rintro (rfl | hprefix)
    · have hmem : (0 : Byte) ∈ s ++ [0] := by simp
      exact absurd rfl (hw 0 hmem)
    · exact hprefix
  · exact .inr

theorem kStrcmp_eq_zero_iff {w : String} (hw : ∀ b ∈ chars w, b ≠ 0) (cmd : CString) :
    kStrcmp cmd w = 0 ↔ cmd.bytes = chars w := by
  rw [kStrcmp, strcmp_eq_zero_iff _ hw]
  constructor
  · intro hspells
    exact spells_unique cmd.noNul hw (spells_byteAt cmd) hspells
  · intro heq
    exact heq ▸ spells_byteAt cmd

theorem Keyword.compare_eq_zero_iff (k : Keyword) (cmd : CString) :
    k.compare cmd = 0 ↔ k.text <+: cmd.bytes ++ [0] := by
  have hnul := k.word_noNul
  have hlen := k.length_word
  unfold compare text
  generalize k.word = w at hnul hlen ⊢
  obtain ⟨w, n⟩ := w
  cases n with
  | none =>
    dsimp only
    rw [kStrcmp_eq_zero_iff hnul, append_nul_prefix_iff cmd.noNul]
  | some n =>
    obtain rfl : n = (chars w).length := hlen n rfl
    dsimp only
    rw [prefix_nul_iff hnul]
    apply kStrncmp_literal
    intro i hi
    rw [literal, List.getD_eq_getElem?_getD, List.getElem?_eq_getElem hi]
    exact hnul _ (List.getElem_mem hi)

/-- How a command is spelled, behind the leading spaces of its line. -/
inductive Spelled : ShellCommand → List Byte → Prop
  | empty : Spelled .empty []
  | keyword (k : Keyword) (rest : CString) (hrest : k.word.2 = none → rest.bytes = []) :
      Spelled (k.command rest) (chars k.word.1 ++ rest.bytes)
  | unknown {cmd : CString} (hcmd : cmd.bytes ≠ [])
      (hnone : ∀ k : Keyword, ¬k.text <+: cmd.bytes ++ [0]) :
      Spelled (.unknown cmd) cmd.bytes

section Grammar

variable {k : Keyword} {cmd rest line : CString} {c : ShellCommand}

/-- A line that passes a test is the word with the rest of the line. -/
theorem Keyword.split (h : k.text <+: cmd.bytes ++ [0]) :
    ∃ rest : CString, cmd.bytes = chars k.word.1 ++ rest.bytes ∧
      (k.word.2 = none → rest.bytes = []) ∧ ∀ n ∈ k.word.2, advance cmd n = rest := by
  have hnul := k.word_noNul
  have hlen := k.length_word
  unfold text at h
  generalize k.word = w at hnul hlen h ⊢
  obtain ⟨w, n⟩ := w
  cases n with
  | none =>
    have heq : cmd.bytes = chars w := (append_nul_prefix_iff cmd.noNul).mp h
    refine ⟨⟨[], fun b hb => absurd hb List.not_mem_nil⟩, ?_, fun _ => rfl, fun n hn => ?_⟩
    · rw [heq, List.append_nil]
    · cases hn
  | some n =>
    obtain rfl : n = (chars w).length := hlen n rfl
    obtain ⟨rest, heq⟩ := (prefix_nul_iff hnul).mp h
    refine ⟨advance cmd (chars w).length, ?_, fun hn => ?_, fun m hm => ?_⟩
    · show cmd.bytes = chars w ++ cmd.bytes.drop (chars w).length
      rw [← heq, List.drop_left]
    · cases hn
    · cases hm
      rfl

theorem Keyword.begins (h : cmd.bytes = chars k.word.1 ++ rest.bytes)
    (hrest : k.word.2 = none → rest.bytes = []) : k.text <+: cmd.bytes ++ [0] := by
  rw [h]
  unfold text
  generalize k.word = w at hrest ⊢
  obtain ⟨w, n⟩ := w
  cases n with
  | none =>
    rw [hrest rfl, List.append_nil]
  | some n =>
    rw [List.append_assoc]
    exact List.prefix_append _ _

/-- Without an argument the rest of the line does not matter. -/
theorem Keyword.command_of_none (h : k.word.2 = none) (rest rest' : CString) :
    k.command rest = k.command rest' := by
  cases k <;> first | rfl | cases h

theorem strlen_ne_zero (h : cmd.bytes ≠ []) : ¬strlen cmd = 0 := by
  intro hlen
  exact h (List.eq_nil_of_length_eq_zero hlen)

theorem Keyword.bytes_ne_nil (h : k.text <+: cmd.bytes ++ [0]) : cmd.bytes ≠ [] := by
  intro hnil
  rw [hnil] at h
  have hall : ∀ k ∈ all, 1 < k.text.length := by decide
  have hlong := hall k k.mem_all
  have hle := h.length_le
  simp only [List.nil_append, List.length_singleton] at hle
  omega

/-- A line that passes a test is dispatched by it. -/
theorem shellDispatch_of_begins (h : k.text <+: (kLtrim line).bytes ++ [0]) :
    shellDispatch line = k.command (advance (kLtrim line) (k.word.2.getD 0)) := by
  rw [shellDispatch_chain, if_neg (strlen_ne_zero (Keyword.bytes_ne_nil h))]
  refine chain_of_unique k.mem_all ((k.compare_eq_zero_iff _).mpr h) fun j _ hj => ?_
  exact prefixFree_text.unique ((j.compare_eq_zero_iff _).mp hj) h

theorem shellDispatch_of_none (h : (kLtrim line).bytes ≠ [])
    (hnone : ∀ k : Keyword, ¬k.text <+: (kLtrim line).bytes ++ [0]) :
    shellDispatch line = .unknown (kLtrim line) := by
  rw [shellDispatch_chain, if_neg (strlen_ne_zero h)]
  refine chain_of_none fun k _ hk => ?_
  exact hnone k ((k.compare_eq_zero_iff _).mp hk)

theorem shellDispatch_of_nil (h : (kLtrim line).bytes = []) : shellDispatch line = .empty := by
  rw [shellDispatch_chain]
  apply if_pos
  rw [strlen, h]
  rfl

/-- What the dispatch makes of a line is spelled there. -/
theorem spelled_shellDispatch (line : CString) :
    Spelled (shellDispatch line) (kLtrim line).bytes := by
  by_cases hnil : (kLtrim line).bytes = []
  · rw [shellDispatch_of_nil hnil, hnil]
    exact .empty
  by_cases hsome : ∃ k : Keyword, k.text <+: (kLtrim line).bytes ++ [0]
  · obtain ⟨k, hk⟩ := hsome
    obtain ⟨rest, hbytes, hrest, hadvance⟩ := Keyword.split hk
    rw [shellDispatch_of_begins hk, hbytes]
    cases hn : k.word.2 with
    | none =>
      rw [Keyword.command_of_none hn _ rest]
      exact .keyword k rest hrest
    | some n =>
      rw [Option.getD_some, hadvance n hn]
      exact .keyword k rest hrest
  · have hnone := not_exists.mp hsome
    rw [shellDispatch_of_none hnil hnone]
    exact .unknown hnil hnone

/-- A line is spelled in one way only. -/
theorem Spelled.dispatch (h : Spelled c (kLtrim line).bytes) : shellDispatch line = c := by
  generalize hs : (kLtrim line).bytes = s at h
  cases h with
  | empty => exact shellDispatch_of_nil hs
  | keyword k rest hrest =>
    have hk := Keyword.begins hs hrest
    obtain ⟨rest', hbytes, -, hadvance⟩ := Keyword.split hk
    obtain rfl : rest' = rest :=
      CString.ext (List.append_cancel_left (hbytes.symm.trans hs))
    rw [shellDispatch_of_begins hk]
    cases hn : k.word.2 with
    | none => exact Keyword.command_of_none hn _ _
    | some n => rw [Option.getD_some, hadvance n hn]
  | @unknown cmd hcmd hnone =>
    obtain rfl : kLtrim line = cmd := CString.ext hs
    exact shellDispatch_of_none hcmd hnone

/-! ## Lines for commands -/

/-- A line for a command. -/
def ShellCommand.render : ShellCommand → List Byte
  | empty => []
  | help => chars "help"
  | clear => chars "clear"
  | about => chars "about"
  | mem => chars "mem"
  | echo args => chars "echo " ++ args.bytes
  | ps => chars "ps"
  | kill arg => chars "kill " ++ arg.bytes
  | race => chars "race"
  | racem => chars "racem"
  | meminfo => chars "meminfo"
  | ls => chars "ls"
  | touch name => chars "touch " ++ name.bytes
  | cat name => chars "cat " ++ name.bytes
  | write args => chars "write " ++ args.bytes
  | rm name => chars "rm " ++ name.bytes
  | unknown cmd => cmd.bytes

/-- The arguments are trimmed, but for that of `kill`, and an unknown command is not a known one. -/
def ShellCommand.Proper : ShellCommand → Prop
  | echo arg | touch arg | cat arg | write arg | rm arg => arg.bytes.head? ≠ some space
  | unknown cmd =>
    cmd.bytes ≠ [] ∧ cmd.bytes.head? ≠ some space ∧
      ∀ k : Keyword, ¬k.text <+: cmd.bytes ++ [0]
  | _ => True

theorem head_kLtrim (s : CString) : (kLtrim s).bytes.head? ≠ some space := by
  have hhead := List.head?_dropWhile_not (· == space) s.bytes
  intro hspace
  rw [show List.dropWhile (· == space) s.bytes = (kLtrim s).bytes from rfl, hspace] at hhead
  simp at hhead

theorem kLtrim_replicate {n : Nat} {body : List Byte}
    (hline : line.bytes = List.replicate n space ++ body) (hbody : body.head? ≠ some space) :
    (kLtrim line).bytes = body := by
  show line.bytes.dropWhile (· == space) = body
  rw [hline, List.dropWhile_append_of_pos fun b hb => ?_]
  · cases body with
    | nil => rfl
    | cons b body =>
      apply List.dropWhile_cons_of_neg
      simpa using hbody
  · rw [List.eq_of_mem_replicate hb]
    rfl

/-- What the dispatch hands on is trimmed. `kill` gets what is behind its space as it stands. -/
theorem Spelled.proper {s : List Byte} (h : Spelled c s) (hs : s.head? ≠ some space) :
    c.Proper := by
  cases h with
  | empty => trivial
  | keyword k rest hrest =>
    cases k with
    | echo | touch | cat | write | rm | unlink => exact head_kLtrim rest
    | help | clear | about | mem | ps | kill | race | racem | meminfo | ls => trivial
  | unknown hcmd hnone => exact ⟨hcmd, hs, hnone⟩

/-- A line for a command begins with no space. -/
theorem ShellCommand.head_render (h : c.Proper) : c.render.head? ≠ some space := by
  cases c with
  | unknown cmd => exact h.2.1
  | empty => exact fun heq => by cases heq
  | help | clear | about | mem | ps | race | racem | meminfo | ls => decide
  | echo arg | kill arg | touch arg | cat arg | write arg | rm arg =>
    rw [render, List.head?_append_of_ne_nil _ (by decide)]
    decide

/-- A line for a command is spelled so. -/
theorem ShellCommand.spelled_render (h : c.Proper) : Spelled c c.render := by
  have hbare (k : Keyword) : Spelled (k.command ⟨[], fun b hb => absurd hb List.not_mem_nil⟩)
      (chars k.word.1) := by
    have hspelled := Spelled.keyword k ⟨[], fun b hb => absurd hb List.not_mem_nil⟩ fun _ => rfl
    rwa [List.append_nil] at hspelled
  have harg (k : Keyword) (arg : CString) (hk : k.word.2 ≠ none) :
      Spelled (k.command arg) (chars k.word.1 ++ arg.bytes) :=
    .keyword k arg fun hnone => absurd hnone hk
  cases c with
  | empty => exact .empty
  | help => exact hbare .help
  | clear => exact hbare .clear
  | about => exact hbare .about
  | mem => exact hbare .mem
  | ps => exact hbare .ps
  | race => exact hbare .race
  | racem => exact hbare .racem
  | meminfo => exact hbare .meminfo
  | ls => exact hbare .ls
  | kill arg => exact harg .kill arg (by decide)
  | echo arg =>
    have hspelled := harg .echo arg (by decide)
    rwa [Keyword.command, kLtrim_eq_self h] at hspelled
  | touch name =>
    have hspelled := harg .touch name (by decide)
    rwa [Keyword.command, kLtrim_eq_self h] at hspelled
  | cat name =>
    have hspelled := harg .cat name (by decide)
    rwa [Keyword.command, kLtrim_eq_self h] at hspelled
  | write args =>
    have hspelled := harg .write args (by decide)
    rwa [Keyword.command, kLtrim_eq_self h] at hspelled
  | rm name =>
    have hspelled := harg .rm name (by decide)
    rwa [Keyword.command, kLtrim_eq_self h] at hspelled
  | unknown cmd => exact .unknown h.1 h.2.2

theorem shellDispatch_render (h : c.Proper) {n : Nat}
    (hline : line.bytes = List.replicate n space ++ c.render) : shellDispatch line = c := by
  apply Spelled.dispatch
  rw [kLtrim_replicate hline (ShellCommand.head_render h)]
  exact ShellCommand.spelled_render h

end Grammar

/-- The chain of tests is the grammar: a line is dispatched to the command that it spells, which
it does for one command only. The arguments come trimmed, but for that of `kill`, and every command
with such arguments is found in its line, whatever spaces stand before it. -/
theorem dispatch_grammar (line : CString) :
    (∀ c, shellDispatch line = c ↔ Spelled c (kLtrim line).bytes) ∧ (shellDispatch line).Proper ∧
      ∀ c n, c.Proper → line.bytes = List.replicate n space ++ c.render →
        shellDispatch line = c := by
  have hspelled := spelled_shellDispatch line
  refine ⟨fun c => ?_, hspelled.proper (head_kLtrim line), fun c n hc => shellDispatch_render hc⟩
  constructor
  · rintro rfl
    exact hspelled
  · exact Spelled.dispatch

/-- Two spaces before a command -/
theorem dispatch_grammar_cat :
    shellDispatch ⟨chars "  cat a", by decide⟩ = .cat ⟨chars "a", by decide⟩ :=
  (dispatch_grammar _).2.2 (.cat ⟨chars "a", by decide⟩) 2
    (show (chars "a").head? ≠ some space by decide) rfl

end SengOs.Shell
