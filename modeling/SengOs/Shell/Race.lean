import SengOs.Kernel.Outcomes
import SengOs.Shell.Demos

/-!
# The command `race`

Of its two threads, which increment `myglobal` 100000 times each, a schedule can leave as
little as 2 and as much as 200000, and everything between.
-/

namespace SengOs.Shell

open CString Kernel Transition

/-- The entry points of the kernel's threads. -/
def entries (img : Image) : List Nat :=
  [img.taskA, img.taskB, img.raceA, img.raceB, img.racemA, img.racemB]

def raceLine : Line := ⟨⟨chars "race", by decide⟩, by decide⟩

theorem lineCalls_race (img : Image) : lineCalls img raceLine.text = race img := rfl

theorem raceIters_eq : raceIters = 100000 := by
  unfold raceIters
  rfl

section Code

variable {img : Image}

theorem code_task {entry : Nat} (h : (entries img).Nodup)
    (htask : entry = img.taskA ∨ entry = img.taskB) : img.code entry = task := by
  simp only [entries, List.nodup_cons, List.mem_cons, not_or] at h
  unfold Image.code
  rw [if_neg, if_neg]
  · rcases htask with rfl | rfl
    · exact not_or.mpr ⟨h.1.2.1, h.1.2.2.1⟩
    · exact not_or.mpr ⟨h.2.1.1, h.2.1.2.1⟩
  · rcases htask with rfl | rfl
    · exact not_or.mpr ⟨h.1.2.2.2.1, h.1.2.2.2.2.1⟩
    · exact not_or.mpr ⟨h.2.1.2.2.1, h.2.1.2.2.2.1⟩

theorem code_race {entry : Nat} (h : (entries img).Nodup)
    (hrace : entry = img.raceA ∨ entry = img.raceB) : img.code entry = raceThread := by
  simp only [entries, List.nodup_cons, List.mem_cons, not_or] at h
  unfold Image.code
  rw [if_neg, if_pos hrace]
  rcases hrace with rfl | rfl
  · exact not_or.mpr ⟨h.2.2.1.2.1, h.2.2.1.2.2.1⟩
  · exact not_or.mpr ⟨h.2.2.2.1.1, h.2.2.2.1.2.1⟩

theorem count_raceThread : raceThread.count .increment = raceIters := by
  unfold raceThread
  rw [List.count_append, List.count_replicate_self]
  rfl

end Code

/-- After the command `race`, with the threads in any interleaving with the ticks, `myglobal` can
be any number from 2 to 200000 when both have exited, and no other. -/
theorem race_outcomes (img : Image) (himg : (entries img).Nodup) (m₀ : Machine) (v : Int) :
    (∃ m p q, Reaches (step img.config) Always (boot m₀ (kernelMain img [raceLine])) m ∧
      ((m.thread p).entry = some img.raceA ∧ (m.thread p).pc = .halted) ∧
      ((m.thread q).entry = some img.raceB ∧ (m.thread q).pc = .halted) ∧
      m.counter.toInt = v) ↔ 2 ≤ v ∧ v ≤ 200000 := by
  have hcalls : kernelMain img [raceLine] = demoTasks img ++ race img := by
    rw [kernelMain, List.flatMap_cons, lineCalls_race]
    rfl
  have hraceA : img.config.code img.raceA = List.replicate raceIters .increment ++ [.exit] :=
    code_race himg (.inl rfl)
  have hraceB : img.config.code img.raceB = List.replicate raceIters .increment ++ [.exit] :=
    code_race himg (.inr rfl)
  have hiters := raceIters_eq
  rw [hcalls]
  constructor
  · rintro ⟨m, p, q, hreach, ⟨hp, hphalt⟩, ⟨hq, hqhalt⟩, rfl⟩
    have hab : img.raceA ≠ img.raceB := by
      simp only [entries, List.nodup_cons, List.mem_cons, not_or] at himg
      exact himg.2.2.1.1
    have hbefore : ∀ call ∈ demoTasks img, call.work img.config = 0 := by
      have hzero {entry : Nat} (h : entry = img.taskA ∨ entry = img.taskB) :
          img.config.work entry = 0 := by
        show (img.code entry).count .increment = 0
        rw [code_task himg h]
        rfl
      intro call hcall
      rcases List.mem_cons.mp hcall with rfl | hcall
      · exact hzero (.inl rfl)
      · cases List.mem_singleton.mp hcall
        exact hzero (.inr rfl)
    have hwork : ((race img).tail.map (ShellCall.work img.config)).sum = 2 * raceIters := by
      have hcount {entry : Nat} (h : entry = img.raceA ∨ entry = img.raceB) :
          img.config.work entry = raceIters := by
        show (img.code entry).count .increment = raceIters
        rw [code_race himg h, count_raceThread]
      show img.config.work img.raceA + (img.config.work img.raceB + 0) = _
      rw [hcount (.inl rfl), hcount (.inr rfl)]
      omega
    have hafter : ShellCall.resetCounter ∉ (race img).tail := by
      rw [race, List.tail_cons, List.mem_cons, List.mem_singleton]
      rintro (heq | heq) <;> cases heq
    have hbounds := value_bounds hbefore hafter hwork (by omega) (by omega) hraceA hraceB hab
      hreach hp hq hphalt hqhalt
    omega
  · rintro ⟨hlo, hhi⟩
    obtain ⟨m, hreach, hcounter, hthree, hfour⟩ := exists_run img.config hlo
      (by omega) m₀ _ _ _ _ img.taskA img.taskB hraceA hraceB
    refine ⟨m, 3, 4, hreach, hthree, hfour, ?_⟩
    rw [hcounter, Int32.toInt_ofInt]
    exact Int.bmod_eq_of_le (by simp only [Int32.size]; omega) (by simp only [Int32.size]; omega)

/-- All but two of the increments can be lost. -/
theorem race_outcomes_two : ∃ m p q, Reaches (step demoImage.config) Always
      (boot .blank (kernelMain demoImage [raceLine])) m ∧
    ((m.thread p).entry = some demoImage.raceA ∧ (m.thread p).pc = .halted) ∧
    ((m.thread q).entry = some demoImage.raceB ∧ (m.thread q).pc = .halted) ∧
    m.counter.toInt = 2 :=
  (race_outcomes demoImage (by decide) .blank 2).mpr (by decide)

end SengOs.Shell
