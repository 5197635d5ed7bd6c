import SengOs.Kernel.Creations
import SengOs.Shell.Dispatch
import SengOs.Shell.Race

/-!
# The tasks of `kernel_main`

`task_a` ends with `process_terminate(1)` and `task_b` with `process_terminate(2)`. These are their
own numbers, whatever is typed and however they are interrupted (`tasks_end_themselves`): what the
model has as a thread's exit.
-/

namespace SengOs.Shell

open CString Kernel Transition

section Tasks

variable {img : Image}

theorem creations_append (calls more : List ShellCall) :
    creations (calls ++ more) = creations calls ++ creations more := by
  induction calls with
  | nil => rfl
  | cons call calls ih =>
    cases call with
    | create name entry => exact congrArg ((name, entry) :: ·) ih
    | _ => exact ih

/-- What a line creates are the threads of `race` and `racem`. -/
theorem creations_lineCalls {line : CString} {x : CString × Nat}
    (hx : x ∈ creations (lineCalls img line)) :
    x.2 ∈ [img.raceA, img.raceB, img.racemA, img.racemB] := by
  rw [lineCalls_eq] at hx
  cases hcommand : shellDispatch line with
  | race | racem =>
    rw [hcommand] at hx
    rcases List.mem_cons.mp hx with rfl | hx
    · simp
    · obtain rfl := List.mem_singleton.mp hx
      simp
  | _ =>
    rw [hcommand] at hx
    cases hx

theorem creations_lines {lines : List Line} {x : CString × Nat}
    (hx : x ∈ creations (lines.flatMap fun line => lineCalls img line.text)) :
    x.2 ∈ [img.raceA, img.raceB, img.racemA, img.racemB] := by
  induction lines with
  | nil => cases hx
  | cons line lines ih =>
    rw [List.flatMap_cons, creations_append, List.mem_append] at hx
    rcases hx with hx | hx
    · exact creations_lineCalls hx
    · exact ih hx

/-- The two tasks are created first, and never again. -/
theorem creation_of_task (himg : (entries img).Nodup) {lines : List Line} {q : Nat}
    {name : CString} {entry : Nat}
    (h : (creations (kernelMain img lines))[q]? = some (name, entry)) :
    (entry = img.taskA → q = 0) ∧ (entry = img.taskB → q = 1) := by
  simp only [entries, List.nodup_cons, List.mem_cons, not_or] at himg
  obtain ⟨⟨hab, hA⟩, hB, -⟩ := himg
  rw [kernelMain, creations_append] at h
  cases q with
  | zero =>
    cases h
    exact ⟨fun _ => rfl, fun heq => absurd heq hab⟩
  | succ q =>
    cases q with
    | zero =>
      cases h
      exact ⟨fun heq => absurd heq.symm hab, fun _ => rfl⟩
    | succ q =>
      have hmem := creations_lines (List.mem_of_getElem? h)
      simp only [List.mem_cons] at hmem
      constructor
      · rintro rfl
        exact absurd hmem (by simp only [hA, or_self, not_false_eq_true])
      · rintro rfl
        exact absurd hmem (by simp only [hB, or_self, not_false_eq_true])

end Tasks

/-- In every run of the kernel, whatever is typed: `task_a` only ever runs as process 1 and
`task_b` as process 2, so that what they terminate at their end is themselves. -/
theorem tasks_end_themselves (img : Image) (himg : (entries img).Nodup) (m₀ : Machine)
    (lines : List Line) {m : Machine}
    (h : Reaches (step img.config) Always (boot m₀ (kernelMain img lines)) m) (p : Nat) :
    ((m.thread p).entry = some img.taskA → p = 1) ∧
      ((m.thread p).entry = some img.taskB → p = 2) := by
  obtain ⟨done, hturn⟩ := inTurn_of_reaches h
  constructor
  · intro hentry
    obtain ⟨q, name, rfl, -, hcreated⟩ := hturn.creation hentry
    rw [(creation_of_task himg hcreated).1 rfl]
  · intro hentry
    obtain ⟨q, name, rfl, -, hcreated⟩ := hturn.creation hentry
    rw [(creation_of_task himg hcreated).2 rfl]

/-- The two tasks are created, and a tick comes. -/
theorem tasks_end_themselves_after_tick :
    ∃ m, Reaches (step demoImage.config) Always (boot .blank (kernelMain demoImage [])) m ∧
      m.current = 1 ∧ (m.thread 1).entry = some demoImage.taskA ∧
      ∀ p, (m.thread p).entry = some demoImage.taskA → p = 1 := by
  obtain ⟨m, hm, hP⟩ := reaches_of_any (step demoImage.config) Always
    (boot .blank (kernelMain demoImage [])) (execs 33 ++ ticks 1)
    (fun m => decide (m.current = 1 ∧ (m.thread 1).entry = some demoImage.taskA))
    (by decide +kernel)
  obtain ⟨hcurrent, hentry⟩ := of_decide_eq_true hP
  exact ⟨m, hm, hcurrent, hentry, fun p =>
    (tasks_end_themselves demoImage (by decide) .blank [] hm p).1⟩

end SengOs.Shell
