import SengOs.Lib.Traced
import SengOs.Shell.Replace

/-!
# The file that `write` acts on

`cmdFsWriteTraced` is `cmd_fs_write` with a record of the calls that changed the file system.
All of them are about the name that the tokenizer found, so `write` acts on the named file
exactly if that name was not cut, or if the command is refused.
-/

namespace SengOs.Shell

open ByteMemory CString Fs Traced

/-- A call that changed the file system. -/
inductive Effect where
  | removed (name : CString)
  | created (name : CString)
  | wrote (name : CString) (text : List Byte)

/-- The file that a call is about. -/
def Effect.name : Effect → List Byte
  | .removed name => name.bytes
  | .created name => name.bytes
  | .wrote name _ => name.bytes

/-- The bytes that a call wrote. -/
def Effect.text : Effect → List Byte
  | .wrote _ text => text
  | _ => []

def removeOldTraced (s : FsState) (name : CString) : Traced Effect FsState :=
  let testfd := fsOpen s name
  if testfd.1 ≥ 0 then do
    let r := fsUnlink (fsClose testfd.2 testfd.1).2 name
    access (if r.1 = 0 then [.removed name] else [])
    pure r.2
  else pure testfd.2

def cmdFsWriteTraced (s : FsState) (args : CString) : Traced Effect (List Byte × FsState) :=
  if args.bytes = [] then pure (chars "  Usage: write <name> <text>\n", s)
  else
    let name := (parseWrite args).1
    let p := (parseWrite args).2
    if name.bytes = [] ∨ p.bytes = [] then pure (chars "  Usage: write <name> <text>\n", s)
    else do
      let s ← removeOldTraced s name
      let created := fsCreate s (some name)
      if created.1 < 0 then pure (chars "  Could not create file.\n", created.2)
      else do
        access [.created name]
        let opened := fsOpen created.2 name
        if opened.1 < 0 then pure (chars "  Could not open file.\n", opened.2)
        else do
          let written := fsWrite opened.2 opened.1 (some p.byteAt) (strlen p)
          access (if 0 < written.1 then [.wrote name (bytes p.byteAt written.1.toNat)] else [])
          let closed := fsClose written.2 opened.1
          if written.1 < 0 then pure (chars "  Write failed.\n", closed.2)
          else pure (printWrote written.1, closed.2)

section Traced

variable {s : FsState} {name args : CString}

theorem val_removeOldTraced : (removeOldTraced s name).val = removeOld s name := by
  unfold removeOldTraced removeOld
  dsimp only
  rw [val_ite]
  rfl

theorem val_cmdFsWriteTraced : (cmdFsWriteTraced s args).val = cmdFsWrite s args := by
  unfold cmdFsWriteTraced cmdFsWrite
  simp only [val_ite, val_bind, val_pure, val_removeOldTraced]

theorem sound_removeOld (h : Sound (view s.ramdisk) s.fds) (name : CString) :
    Sound (view (removeOld s name).ramdisk) (removeOld s name).fds := by
  rw [removeOld_eq h]
  split
  · exact (refines_unlink h name).sound
  · exact h

theorem fsWrite_le (h : Sound (view s.ramdisk) s.fds) (fd : Int) (src : Mem) (count : Nat) :
    (fsWrite s fd (some src) count).1.toNat ≤ count := by
  rcases fsWrite_cases h fd (some src) count with ⟨heq, -⟩ | ⟨n, r, src', s', -, -, -, heq, hw⟩
  · rw [heq]
    exact Nat.zero_le count
  · rw [heq]
    exact hw.le_count.trans (min_le_left ..)

/-- All calls are about the name that was parsed, and write a beginning of the text behind it. -/
theorem all_cmdFsWrite (h : Sound (view s.ramdisk) s.fds) (args : CString) :
    All (fun e => e.name = (parseWrite args).1.bytes ∧ e.text <+: (parseWrite args).2.bytes)
      (cmdFsWriteTraced s args) := by
  unfold cmdFsWriteTraced
  split
  · exact .pure _
  dsimp only
  split
  · exact .pure _
  refine .bind ?_ ?_
  · unfold removeOldTraced
    dsimp only
    split
    · refine .bind (.access fun e he => ?_) (.pure _)
      split at he
      · cases List.mem_singleton.mp he
        exact ⟨rfl, List.nil_prefix⟩
      · cases he
    · exact .pure _
  rw [val_removeOldTraced]
  have hcreated := (refines_create (sound_removeOld h (parseWrite args).1)
    (some (parseWrite args).1)).sound
  generalize fsCreate (removeOld s (parseWrite args).1) (some (parseWrite args).1) = created at *
  split
  · exact .pure _
  refine .bind (.access fun e he => ?_) ?_
  · cases List.mem_singleton.mp he
    exact ⟨rfl, List.nil_prefix⟩
  have hopened := (refines_open hcreated (parseWrite args).1).sound
  generalize fsOpen created.2 (parseWrite args).1 = opened at *
  split
  · exact .pure _
  have hle := fsWrite_le hopened opened.1 (parseWrite args).2.byteAt
    (strlen (parseWrite args).2)
  refine .bind (.access fun e he => ?_) ?_
  · split at he
    · cases List.mem_singleton.mp he
      refine ⟨rfl, ?_⟩
      show bytes _ _ <+: _
      rw [bytes_eq_take _ hle, strlen, bytes_byteAt]
      exact List.take_prefix ..
    · cases he
  · split <;> exact .pure _

theorem log_removeOld_of_refused (h : Sound (view s.ramdisk) s.fds) (hr : Refused s name) :
    (removeOldTraced s name).log = [] := by
  unfold removeOldTraced
  dsimp only
  split
  · rename_i hopen
    rw [close_after_open h hopen, log_bind, log_access, log_pure, List.append_nil]
    refine if_neg fun hzero => ?_
    rcases hr with ⟨hex, huse | hall⟩ | ⟨hnone, -⟩
    · rw [(h.unlinkCodes name).inUse.mpr huse] at hzero
      exact absurd hzero (by decide)
    · rw [(h.openCodes name).full.mpr ⟨hex, hall⟩] at hopen
      exact absurd hopen (by decide)
    · rw [fsOpen_of_missing h hnone] at hopen
      exact absurd hopen (show ¬(-1 : Int) ≥ 0 by decide)
  · rfl

theorem log_of_parsed (hname : (parseWrite args).1.bytes ≠ [])
    (htext : (parseWrite args).2.bytes ≠ []) :
    ∃ l, (cmdFsWriteTraced s args).log = (removeOldTraced s (parseWrite args).1).log ++
      if (fsCreate (removeOld s (parseWrite args).1) (some (parseWrite args).1)).1 < 0 then []
      else .created (parseWrite args).1 :: l := by
  have hargs : args.bytes ≠ [] := args_ne_nil hname
  unfold cmdFsWriteTraced
  dsimp only
  rw [if_neg hargs, if_neg (not_or.mpr ⟨hname, htext⟩), log_bind, val_removeOldTraced]
  split
  · exact ⟨[], rfl⟩
  · exact ⟨_, rfl⟩

theorem log_of_refused (h : Sound (view s.ramdisk) s.fds)
    (hname : (parseWrite args).1.bytes ≠ []) (htext : (parseWrite args).2.bytes ≠ [])
    (hr : Refused s (parseWrite args).1) : (cmdFsWriteTraced s args).log = [] := by
  obtain ⟨l, hlog⟩ := log_of_parsed (s := s) hname htext
  obtain ⟨hsame, hcreate⟩ := removeOld_of_refused h (not_invalidName_parseWrite hname) hr
  rw [hlog, hsame, if_pos hcreate, List.append_nil]
  exact log_removeOld_of_refused h hr

/-- A `write` that is not refused creates its file. -/
theorem log_ne_nil_of_not_refused (h : Sound (view s.ramdisk) s.fds)
    (hname : (parseWrite args).1.bytes ≠ []) (htext : (parseWrite args).2.bytes ≠ [])
    (hr : ¬Refused s (parseWrite args).1) : (cmdFsWriteTraced s args).log ≠ [] := by
  obtain ⟨l, hlog⟩ := log_of_parsed (s := s) hname htext
  have hcreate := (removed_of_not_refused h (not_invalidName_parseWrite hname) hr).creates
  rw [hlog, if_neg hcreate.not_gt]
  exact List.append_ne_nil_of_right_ne_nil _ (List.cons_ne_nil _ _)

end Traced

/-- The calls that `write` makes change the named file only, and write a beginning of the text;
a name that is too long changes nothing. -/
structure ActsOnNamed (s : FsState) (args : CString) : Prop where
  named : ∀ e ∈ (cmdFsWriteTraced s args).log, e.name = tok args ∧ e.text <+: textBehind args
  tooLong : 24 ≤ (tok args).length → (cmdFsWriteTraced s args).log = []

section Named

variable {s : FsState} {args : CString}

theorem unchanged_of_log (h : Sound (view s.ramdisk) s.fds)
    (hlog : (cmdFsWriteTraced s args).log = []) : (cmdFsWrite s args).2 = s := by
  by_cases hname : (parseWrite args).1.bytes = []
  · exact cmdFsWrite_of_usage (Or.inl hname)
  by_cases htext : (parseWrite args).2.bytes = []
  · exact cmdFsWrite_of_usage (Or.inr htext)
  by_cases hr : Refused s (parseWrite args).1
  · exact cmdFsWrite_of_refused h hname htext hr
  · exact absurd hlog (log_ne_nil_of_not_refused h hname htext hr)

theorem actsOnNamed_iff (h : Sound (view s.ramdisk) s.fds) (args : CString) :
    ActsOnNamed s args ↔ (tok args).length < 24 ∨ Refused s (parseWrite args).1 := by
  rcases Nat.lt_or_ge (tok args).length 24 with hshort | hlong
  · obtain ⟨hname, htext⟩ := parseWrite_of_short hshort
    refine iff_of_true ⟨fun e he => ?_, fun hlong => absurd hlong (by omega)⟩ (Or.inl hshort)
    rw [← hname, ← htext]
    exact all_cmdFsWrite h args e he
  · obtain ⟨-, -, hname, -, htext⟩ := parseWrite_of_long hlong
    rw [or_iff_right (not_lt.mpr hlong)]
    constructor
    · intro hacts
      by_contra hr
      exact log_ne_nil_of_not_refused h hname htext hr (hacts.tooLong hlong)
    · intro hr
      have hlog := log_of_refused h hname htext hr
      refine ⟨fun e he => ?_, fun _ => hlog⟩
      rw [hlog] at he
      cases he

end Named

/-- In every state of a run, `write` with any argument acts on the file that the argument
names exactly if the name has fewer than 24 characters or the command is refused. -/
theorem write_acts_on_named_iff (s₀ : FsState) (calls : List Call) (args : CString) :
    (cmdFsWriteTraced (runCalls (fsInit s₀) calls) args).val =
        cmdFsWrite (runCalls (fsInit s₀) calls) args ∧
      ((cmdFsWriteTraced (runCalls (fsInit s₀) calls) args).log = [] →
        (cmdFsWrite (runCalls (fsInit s₀) calls) args).2 = runCalls (fsInit s₀) calls) ∧
      (ActsOnNamed (runCalls (fsInit s₀) calls) args ↔
        (tok args).length < 24 ∨ Refused (runCalls (fsInit s₀) calls) (parseWrite args).1) :=
  ⟨val_cmdFsWriteTraced, unchanged_of_log (sound_run s₀ calls),
    actsOnNamed_iff (sound_run s₀ calls) args⟩

/-- `write aaaaaaaaaaaaaaaaaaaaaaaa x` creates a file of 23 letters. -/
theorem write_cuts_long_name :
    ¬ActsOnNamed (fsInit ⟨fun _ => 0, fun _ => File.zero⟩)
      ⟨chars "aaaaaaaaaaaaaaaaaaaaaaaa x", by decide⟩ := by
  have h := sound_fsInit ⟨fun _ => 0, fun _ => File.zero⟩
  have hfiles := abs_fsInit ⟨fun _ => 0, fun _ => File.zero⟩
  have hcount := fileCount_fsInit ⟨fun _ => 0, fun _ => File.zero⟩
  generalize fsInit ⟨fun _ => 0, fun _ => File.zero⟩ = s at *
  rw [actsOnNamed_iff h]
  intro hacts
  rcases hacts with hshort | ⟨hex, -⟩ | ⟨-, hfull⟩
  · exact absurd hshort (by decide)
  · rw [fileExists_iff_files h, hfiles] at hex
    exact hex rfl
  · rw [hcount] at hfull
    exact absurd hfull (by decide)

end SengOs.Shell
