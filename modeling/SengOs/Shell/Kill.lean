import SengOs.Shell.Processes
import SengOs.Shell.RoundTrip

/-!
# The process that `kill` hits

The parser of `kill` computes the number of its argument modulo 2^32. The command hits the
process that was named exactly if this makes no difference: the number fits into 32 bits, or
what is left of it names no process that is still to be terminated.
-/

namespace SengOs.Shell

open ByteMemory CString Decimal Kernel

/-- The line `kill ` with an argument. -/
def killLine (arg : CString) : CString where
  bytes := chars "kill " ++ arg.bytes
  noNul b hb := by
    rcases List.mem_append.mp hb with hb | hb
    · exact (show ∀ b ∈ chars "kill ", b ≠ 0 by decide) b hb
    · exact arg.noNul b hb

/-- The number that the leading digits of an argument denote. -/
def pidNamed (arg : CString) : Nat := value (arg.bytes.takeWhile isDigit)

/-- The table after `kill` of the process `n`. -/
def killed (t : Table) (n : Nat) : Table :=
  if 1 ≤ n ∧ n < maxProcesses ∧ (t n).state ≠ .free then setState t n .terminated else t

/-- The number that the parser makes of `n` names no process that can be terminated. -/
def NothingToKill (t : Table) (n : Nat) : Prop :=
  u32 n = 0 ∨ maxProcesses ≤ u32 n ∨ (t (u32 n)).state = .free ∨ (t (u32 n)).state = .terminated

section Kill

variable {t : Table} {n p : Nat}

theorem readPid_eq (arg : List Byte) (pid : Nat) :
    readPid arg pid =
      (arg.takeWhile isDigit).foldl (fun pid c => (pid * 10 + digitValue c) % 2 ^ 32) pid := by
  induction arg generalizing pid with
  | nil => rfl
  | cons c arg ih =>
    rw [readPid]
    split
    · rename_i hc
      rw [ih, List.takeWhile_cons_of_pos hc, List.foldl_cons]
      rfl
    · rename_i hc
      rw [List.takeWhile_cons_of_neg hc]
      rfl

/-- The parser reads the number modulo 2^32. -/
theorem readPid_zero (arg : CString) : readPid arg.bytes 0 = u32 (pidNamed arg) := by
  rw [readPid_eq, foldl_mod]
  rfl

theorem dispatchProcess_killLine (arg : CString) :
    dispatchProcess (killLine arg) = some (.kill arg) := by
  have hstart : (killLine arg).bytes = 0x6B :: (chars "ill " ++ arg.bytes) := rfl
  have htrim : kLtrim (killLine arg) = killLine arg := by
    apply kLtrim_eq_self
    rw [hstart, List.head?_cons]
    decide
  have hlen : ¬strlen (killLine arg) = 0 := by
    rw [strlen, hstart]
    exact Nat.succ_ne_zero _
  have hcmp {b : String} {d : Byte} {ds : List Byte} (hb : chars b = d :: ds)
      (hne : 0x6B ≠ d) : ¬kStrcmp (killLine arg) b = 0 :=
    kStrcmp_ne_zero_of_head hstart hb hne
  have hecho : ¬kStrncmp (killLine arg).byteAt (literal "echo ") 5 = 0 :=
    kStrncmp_ne_zero_of_head hstart rfl (by decide)
  have hkill : kStrncmp (killLine arg).byteAt (literal "kill ") 5 = 0 :=
    kStrncmp_eq_zero (p := "kill ") rfl (by decide) (by decide)
  have harg : advance (killLine arg) 5 = arg := CString.ext (List.drop_left' rfl)
  unfold dispatchProcess
  dsimp only
  rw [htrim, if_neg hlen, if_neg (hcmp rfl (by decide)), if_neg (hcmp rfl (by decide)),
    if_neg (hcmp rfl (by decide)), if_neg (hcmp rfl (by decide)), if_neg hecho,
    if_neg (hcmp rfl (by decide)), if_pos hkill, harg]

theorem runProcessLine_killLine (link : Link) (t : Table) (arg : CString) :
    runProcessLine link t (killLine arg) = kill t arg := by
  rw [runProcessLine, dispatchProcess_killLine]

/-- `kill` does to the table what it should do for the number that the parser found. -/
theorem kill_table (t : Table) (arg : CString) :
    (kill t arg).2 = killed t (u32 (pidNamed arg)) := by
  rw [kill, readPid_zero]
  generalize u32 (pidNamed arg) = pid
  unfold killed
  split
  · rename_i h0
    rw [if_neg fun h => absurd h.1 (by omega)]
  split
  · rename_i h
    exact (if_neg fun h' => h.elim (not_le.mpr h'.2.1) h'.2.2).symm
  · rename_i h0 h
    obtain ⟨hlt, hfree⟩ := not_or.mp h
    rw [if_pos ⟨Nat.one_le_iff_ne_zero.mpr h0, not_le.mp hlt, hfree⟩, processTerminate,
      if_neg fun h' => h'.elim h0 hlt]

theorem killed_of_nothing (h : (t n).state = .free ∨ (t n).state = .terminated) :
    killed t n = t := by
  unfold killed
  split
  · rename_i hn
    have hst := h.resolve_left hn.2.2
    rw [setState, storePcb, ← hst]
    exact Function.update_eq_self n t
  · rfl

/-- Two numbers do the same to the table if both change nothing. -/
theorem killed_eq_self_iff : killed t n = t ↔
    n = 0 ∨ maxProcesses ≤ n ∨ (t n).state = .free ∨ (t n).state = .terminated := by
  constructor
  · intro h
    by_contra hnot
    simp only [not_or] at hnot
    obtain ⟨h0, hlt, hfree, hterm⟩ := hnot
    apply hterm
    rw [← h, killed, if_pos ⟨Nat.one_le_iff_ne_zero.mpr h0, not_le.mp hlt, hfree⟩,
      setState_state, if_pos rfl]
  · rintro (h | h | h)
    · exact if_neg fun h' => absurd h'.1 (by omega)
    · exact if_neg fun h' => absurd h'.2.1 (not_lt.mpr h)
    · exact killed_of_nothing h

theorem killed_eq_iff : killed t (u32 n) = killed t n ↔ n < 2 ^ 32 ∨ NothingToKill t n := by
  rcases Nat.lt_or_ge n (2 ^ 32) with hlt | hge
  · rw [u32_of_lt hlt]
    exact iff_of_true rfl (Or.inl hlt)
  · have hself : killed t n = t :=
      killed_eq_self_iff.mpr (Or.inr (Or.inl (le_trans (by decide) hge)))
    rw [hself, killed_eq_self_iff, or_iff_right (not_lt.mpr hge)]
    rfl

end Kill

/-- For every argument and every table, `kill` hits only the process it names exactly if the
number is below 2^32 or names, modulo 2^32, nothing to kill. -/
theorem kill_hits_named_iff (link : Link) (t : Table) (arg : CString) :
    (runProcessLine link t (killLine arg)).2 = killed t (pidNamed arg) ↔
      pidNamed arg < 2 ^ 32 ∨ NothingToKill t (pidNamed arg) := by
  rw [runProcessLine_killLine, kill_table, killed_eq_iff]

/-- `kill 4294967297` terminates process 1. -/
theorem kill_hits_another :
    (runProcessLine ⟨0, fun _ => 0⟩
      (Function.update (processInit fun _ => Pcb.zero) 1 ⟨1, .ready, 0x1FDC, 0x1000, chars "demo"⟩)
      (killLine ⟨chars "4294967297", by decide⟩)).2 ≠
    killed
      (Function.update (processInit fun _ => Pcb.zero) 1 ⟨1, .ready, 0x1FDC, 0x1000, chars "demo"⟩)
      (pidNamed ⟨chars "4294967297", by decide⟩) := by
  have hnumber : pidNamed ⟨chars "4294967297", by decide⟩ = 4294967297 := by decide
  rw [runProcessLine_killLine, kill_table, hnumber, ne_eq, killed_eq_iff, NothingToKill]
  decide

end SengOs.Shell
