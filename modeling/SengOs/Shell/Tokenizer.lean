import Mathlib.Data.List.TakeWhile
import SengOs.Shell.Commands

/-!
# The argument of `write`

A `write` line names a file, `tok`, and a text behind it, `textBehind`. The tokenizer of
`cmd_fs_write` stops at a space, at the end of the line, and also when its buffer of 24
characters is full; what follows treats the three alike. So a name of up to 23 characters is
read as it stands, and a longer one is cut, with its rest going into the text.
-/

namespace SengOs.Shell

open ByteMemory CString Fs

/-- The name in an argument of `write`: its first run of characters other than spaces. -/
def tok (args : CString) : List Byte := (kLtrim args).bytes.takeWhile (· != space)

/-- The text in an argument of `write`: what follows the name and the spaces behind it. -/
def textBehind (args : CString) : List Byte :=
  ((kLtrim args).bytes.dropWhile (· != space)).dropWhile (· == space)

theorem readName_fst (cs : List Byte) (room : Nat) :
    (readName cs room).1 = (cs.takeWhile (· != space)).take room := by
  induction cs generalizing room with
  | nil => simp [readName]
  | cons c cs ih =>
    cases room with
    | zero => rfl
    | succ room =>
      rw [readName, List.takeWhile_cons]
      by_cases hc : c = space
      · rw [if_pos hc, if_neg (by simpa using hc)]
        rfl
      · rw [if_neg hc, if_pos (bne_iff_ne.mpr hc), List.take_succ_cons, ih]

theorem readName_snd (cs : List Byte) (room : Nat) :
    (readName cs room).2 =
      (cs.takeWhile (· != space)).drop room ++ cs.dropWhile (· != space) := by
  have happend := readName_append cs room
  have hsplit := List.takeWhile_append_dropWhile (p := (· != space)) (l := cs)
  rw [← List.take_append_drop room (cs.takeWhile (· != space)), List.append_assoc,
    ← readName_fst] at hsplit
  exact List.append_cancel_left (happend.trans hsplit.symm)

section Parse

variable {args : CString}

theorem parseWrite_name (args : CString) : (parseWrite args).1.bytes = (tok args).take 23 :=
  readName_fst _ 23

theorem parseWrite_text (args : CString) : (parseWrite args).2.bytes =
    ((tok args).drop 23 ++ (kLtrim args).bytes.dropWhile (· != space)).dropWhile (· == space) :=
  congrArg (List.dropWhile (· == space)) (readName_snd _ 23)

/-- A name that fits is read as it stands. -/
theorem parseWrite_of_short (h : (tok args).length < 24) :
    (parseWrite args).1.bytes = tok args ∧ (parseWrite args).2.bytes = textBehind args := by
  rw [parseWrite_name, parseWrite_text, List.take_of_length_le (by omega),
    List.drop_eq_nil_of_le (by omega)]
  exact ⟨rfl, rfl⟩

/-- Of a longer name 23 characters are used, and its rest begins the text. -/
theorem parseWrite_of_long (h : 24 ≤ (tok args).length) :
    (parseWrite args).1.bytes = (tok args).take 23 ∧
      (parseWrite args).1.bytes ≠ tok args ∧ (parseWrite args).1.bytes ≠ [] ∧
      (parseWrite args).2.bytes =
        (tok args).drop 23 ++ (kLtrim args).bytes.dropWhile (· != space) ∧
      (parseWrite args).2.bytes ≠ [] := by
  have hdrop : (tok args).drop 23 ≠ [] := by
    apply List.ne_nil_of_length_pos
    rw [List.length_drop]
    omega
  obtain ⟨c, cs, hcs⟩ := List.exists_cons_of_ne_nil hdrop
  have hc : c ≠ space := by
    have hmem : c ∈ tok args := List.mem_of_mem_drop (hcs ▸ List.mem_cons_self)
    exact bne_iff_ne.mp (List.mem_takeWhile_imp (p := (· != space)) hmem)
  have htext : (parseWrite args).2.bytes =
      (tok args).drop 23 ++ (kLtrim args).bytes.dropWhile (· != space) := by
    rw [parseWrite_text, hcs, List.cons_append, List.dropWhile_cons_of_neg (by simpa using hc)]
  have hlen : (parseWrite args).1.bytes.length = 23 := by
    rw [parseWrite_name, List.length_take]
    omega
  refine ⟨parseWrite_name args, fun heq => ?_, fun hnil => ?_, htext, ?_⟩
  · rw [heq] at hlen
    omega
  · rw [hnil] at hlen
    cases hlen
  · rw [htext]
    exact List.append_ne_nil_of_left_ne_nil hdrop _

/-- The name that `write` uses is one that `fs_create` accepts. -/
theorem not_invalidName_parseWrite (hname : (parseWrite args).1.bytes ≠ []) :
    ¬InvalidName (parseWrite args).1 := by
  refine fun hbad => hbad.elim hname fun hge => ?_
  rw [parseWrite_name, List.length_take] at hge
  omega

end Parse

end SengOs.Shell
