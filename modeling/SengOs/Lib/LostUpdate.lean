import Mathlib.Algebra.BigOperators.Group.Finset.Piecewise
import Mathlib.Data.Fintype.BigOperators
import Mathlib.Tactic.Common

/-!
# Increments that can be lost

Agents increment a shared number without a lock: each loads it, and stores what it has loaded
plus one in a later move. When two agents move in between each other, increments are lost.
`Bounded` is what is left in any order of moves: the number is at most the number of stores,
and it is at least 2 once every agent that has stored has done so twice (`Bounded.two_le`).
For two agents with `n` increments each, every number from 2 to `2 * n` is the outcome of some
order (`exists_schedule`).
-/

namespace SengOs.LostUpdate

/-- The number, what each agent has loaded and not stored, and how often it has stored. -/
structure Shared (ι : Type*) where
  value : Int
  loaded : ι → Option Int
  count : ι → Nat

variable {ι : Type*} [DecidableEq ι]

namespace Shared

def zero : Shared ι := ⟨0, fun _ => none, fun _ => 0⟩

/-- The next move of an agent: a load, or the store of what it has loaded plus one. -/
def move (s : Shared ι) (i : ι) : Shared ι :=
  match s.loaded i with
  | none => { s with loaded := Function.update s.loaded i (some s.value) }
  | some v =>
    { value := v + 1
      loaded := Function.update s.loaded i none
      count := Function.update s.count i (s.count i + 1) }

/-- The moves of a schedule. -/
def run (s : Shared ι) (schedule : List ι) : Shared ι := schedule.foldl move s

theorem run_append (s : Shared ι) (l l' : List ι) : s.run (l ++ l') = (s.run l).run l' :=
  List.foldl_append

theorem run_singleton (s : Shared ι) (i : ι) : s.run [i] = s.move i := rfl

theorem move_load {s : Shared ι} {i : ι} (h : s.loaded i = none) :
    s.move i = { s with loaded := Function.update s.loaded i (some s.value) } := by
  rw [move, h]

theorem move_store {s : Shared ι} {i : ι} {v : Int} (h : s.loaded i = some v) :
    s.move i =
      { value := v + 1
        loaded := Function.update s.loaded i none
        count := Function.update s.count i (s.count i + 1) } := by
  rw [move, h]

/-- The increments that an agent has begun. -/
def begun (s : Shared ι) (i : ι) : Nat := s.count i + (s.loaded i).elim 0 fun _ => 1

theorem begun_load {s : Shared ι} {i : ι} (h : s.loaded i = none) :
    (s.move i).begun i = s.begun i + 1 := by
  unfold begun
  rw [move_load h, h]
  dsimp only
  rw [Function.update_self]
  rfl

theorem begun_store {s : Shared ι} {i : ι} {v : Int} (h : s.loaded i = some v) :
    (s.move i).begun i = s.begun i := by
  unfold begun
  rw [move_store h, h]
  dsimp only
  rw [Function.update_self, Function.update_self]
  rfl

/-- A move leaves the other agents alone. -/
theorem move_ne (s : Shared ι) {i j : ι} (hj : j ≠ i) :
    (s.move i).loaded j = s.loaded j ∧ (s.move i).begun j = s.begun j := by
  unfold begun
  cases hi : s.loaded i with
  | none =>
    rw [move_load hi]
    dsimp only
    rw [Function.update_of_ne hj]
    exact ⟨rfl, rfl⟩
  | some v =>
    rw [move_store hi]
    dsimp only
    rw [Function.update_of_ne hj, Function.update_of_ne hj]
    exact ⟨rfl, rfl⟩

theorem begun_le_move (s : Shared ι) (i j : ι) : s.begun j ≤ (s.move i).begun j := by
  rcases eq_or_ne j i with rfl | hne
  · cases hj : s.loaded j with
    | none =>
      rw [begun_load hj]
      exact Nat.le_succ _
    | some v => rw [begun_store hj]
  · rw [(move_ne s hne).2]

theorem begun_le_run (s : Shared ι) (schedule : List ι) (j : ι) :
    s.begun j ≤ (s.run schedule).begun j := by
  induction schedule generalizing s with
  | nil => exact le_rfl
  | cons i schedule ih => exact (begun_le_move s i j).trans (ih (s.move i))

end Shared

/-! ## What no order of moves can break -/

section Bounds

variable [Fintype ι] {s : Shared ι} {i : ι}

def Shared.total (s : Shared ι) : Nat := ∑ i, s.count i

/-- At most as many as stores; at least 1 for an agent that has stored; and at least 2 unless
the last store was the first of an agent, which has then stored just once. -/
structure Bounded (s : Shared ι) : Prop where
  nonneg : 0 ≤ s.value
  le_total : s.value ≤ s.total
  loaded_nonneg : ∀ i v, s.loaded i = some v → 0 ≤ v
  loaded_le : ∀ i v, s.loaded i = some v → v ≤ s.total
  pos : ∀ i, 0 < s.count i → 1 ≤ s.value
  loaded_pos : ∀ i v, s.loaded i = some v → 0 < s.count i → 1 ≤ v
  once : 2 ≤ s.value ∨ (∀ i, s.count i = 0) ∨ ∃ i, s.count i = 1

omit [DecidableEq ι] in
theorem bounded_zero : Bounded (Shared.zero : Shared ι) where
  nonneg := le_rfl
  le_total := Int.natCast_nonneg _
  loaded_nonneg := nofun
  loaded_le := nofun
  pos _ h := absurd h (Nat.lt_irrefl 0)
  loaded_pos := nofun
  once := .inr (.inl fun _ => rfl)

theorem total_store (s : Shared ι) (i : ι) :
    ∑ j, Function.update s.count i (s.count i + 1) j = s.total + 1 := by
  have hcount (j : ι) : Function.update s.count i (s.count i + 1) j =
      s.count j + if j = i then 1 else 0 := by
    rcases eq_or_ne j i with rfl | hne
    · rw [Function.update_self, if_pos rfl]
    · rw [Function.update_of_ne hne, if_neg hne, Nat.add_zero]
  rw [Finset.sum_congr rfl fun j _ => hcount j, Finset.sum_add_distrib, Finset.sum_ite_eq',
    if_pos (Finset.mem_univ i)]
  rfl

theorem Bounded.load (h : Bounded s) (hnone : s.loaded i = none) : Bounded (s.move i) := by
  rw [Shared.move_load hnone]
  have hloaded {j : ι} {v : Int} (hj : Function.update s.loaded i (some s.value) j = some v) :
      v = s.value ∨ s.loaded j = some v := by
    rcases eq_or_ne j i with rfl | hne
    · rw [Function.update_self] at hj
      exact .inl (Option.some.inj hj).symm
    · rw [Function.update_of_ne hne] at hj
      exact .inr hj
  constructor
  · exact h.nonneg
  · exact h.le_total
  · intro j v hj
    rcases hloaded hj with rfl | hj
    · exact h.nonneg
    · exact h.loaded_nonneg j v hj
  · intro j v hj
    rcases hloaded hj with rfl | hj
    · exact h.le_total
    · exact h.loaded_le j v hj
  · exact h.pos
  · intro j v hj hpos
    rcases hloaded hj with rfl | hj
    · exact h.pos j hpos
    · exact h.loaded_pos j v hj hpos
  · exact h.once

theorem Bounded.store (h : Bounded s) {v : Int} (hv : s.loaded i = some v) :
    Bounded (s.move i) := by
  rw [Shared.move_store hv]
  have htotal := total_store s i
  have hle := h.loaded_le i v hv
  have hnonneg := h.loaded_nonneg i v hv
  have hloaded {j : ι} {w : Int} (hj : Function.update s.loaded i none j = some w) :
      j ≠ i ∧ s.loaded j = some w := by
    rcases eq_or_ne j i with rfl | hne
    · rw [Function.update_self] at hj
      cases hj
    · rw [Function.update_of_ne hne] at hj
      exact ⟨hne, hj⟩
  constructor
  · exact Int.add_nonneg hnonneg (by decide)
  · show v + 1 ≤ ((∑ j, Function.update s.count i (s.count i + 1) j : Nat) : Int)
    rw [htotal]
    omega
  · exact fun j w hj => h.loaded_nonneg j w (hloaded hj).2
  · intro j w hj
    show w ≤ ((∑ j, Function.update s.count i (s.count i + 1) j : Nat) : Int)
    have hold := h.loaded_le j w (hloaded hj).2
    rw [htotal]
    omega
  · intro _ _
    show 1 ≤ v + 1
    omega
  · intro j w hj hpos
    obtain ⟨hne, hold⟩ := hloaded hj
    have hcount : Function.update s.count i (s.count i + 1) j = s.count j :=
      Function.update_of_ne hne ..
    exact h.loaded_pos j w hold (hcount ▸ hpos)
  · show 2 ≤ v + 1 ∨ _
    rcases Nat.eq_zero_or_pos (s.count i) with hzero | hpos
    · refine .inr (.inr ⟨i, ?_⟩)
      show Function.update s.count i (s.count i + 1) i = 1
      rw [Function.update_self, hzero]
    · have hone := h.loaded_pos i v hv hpos
      exact .inl (by omega)

theorem Bounded.move (h : Bounded s) (i : ι) : Bounded (s.move i) := by
  cases hi : s.loaded i with
  | none => exact h.load hi
  | some v => exact h.store hi

theorem Bounded.run (h : Bounded s) (schedule : List ι) : Bounded (s.run schedule) :=
  List.foldlRecOn schedule _ h fun _ h i _ => h.move i

omit [DecidableEq ι] in
/-- When every agent that has stored has done so twice, two increments are left. -/
theorem Bounded.two_le (h : Bounded s) (hcount : ∀ i, s.count i ≠ 1) (hi : s.count i ≠ 0) :
    2 ≤ s.value := by
  rcases h.once with htwo | hzero | ⟨j, hone⟩
  · exact htwo
  · exact absurd (hzero i) hi
  · exact absurd hone (hcount j)

end Bounds

/-! ## Every outcome -/

section Schedules

variable {s : Shared ι} {a b : ι} {n k : Nat}

/-- `k` increments of one agent in a row. -/
def rounds (i : ι) : Nat → List ι
  | 0 => []
  | k + 1 => i :: i :: rounds i k

omit [DecidableEq ι] in
theorem mem_rounds {i j : ι} (h : j ∈ rounds i k) : j = i := by
  induction k with
  | zero => cases h
  | succ k ih =>
    rcases List.mem_cons.mp h with heq | h
    · exact heq
    · rcases List.mem_cons.mp h with heq | h
      · exact heq
      · exact ih h

theorem run_rounds {i : ι} (h : s.loaded i = none) (k : Nat) :
    s.run (rounds i k) =
      { s with
        value := s.value + k
        count := Function.update s.count i (s.count i + k) } := by
  induction k generalizing s with
  | zero =>
    rw [Int.natCast_zero, Int.add_zero, Nat.add_zero, Function.update_eq_self]
    rfl
  | succ k ih =>
    have hstore : (s.move i).move i =
        { s with
          value := s.value + 1
          count := Function.update s.count i (s.count i + 1) } := by
      have hloaded : (s.move i).loaded i = some s.value := by
        rw [Shared.move_load h]
        exact Function.update_self ..
      rw [Shared.move_store hloaded, Shared.move_load h]
      dsimp only
      rw [Function.update_idem, ← h, Function.update_eq_self]
    show ((s.move i).move i).run (rounds i k) = _
    rw [hstore, ih (s := { s with
      value := s.value + 1
      count := Function.update s.count i (s.count i + 1) }) h]
    dsimp only
    rw [Function.update_self, Function.update_idem]
    congr 1
    · push_cast
      omega
    · congr 1
      omega

/-- What a run from zero has come to. -/
structure Outcome (a b : ι) (n : Nat) (v : Int) (s : Shared ι) : Prop where
  value : s.value = v
  left : s.count a = n ∧ s.loaded a = none
  right : s.count b = n ∧ s.loaded b = none

/-- `b` makes `k` increments between the first load and the first store of `a`: they are lost. -/
def lose (a b : ι) (n k : Nat) : List ι :=
  [a] ++ rounds b k ++ [a] ++ rounds a (n - 1) ++ rounds b (n - k)

/-- `a` stores 1 over all but one of the increments of `b`. After `k` more increments of `a`,
`b` loads, and stores over the others. -/
def loseBoth (a b : ι) (n k : Nat) : List ι :=
  [a] ++ rounds b (n - 1) ++ [a] ++ rounds a k ++ [b] ++ rounds a (n - 1 - k) ++ [b]

/-- The state after the first store of `a`, when `b` has made `k` increments since its load. -/
theorem run_overwrite (hab : a ≠ b) (k : Nat) :
    Shared.zero.run ([a] ++ rounds b k ++ [a]) =
      { value := 1
        loaded := fun _ => none
        count := Function.update (Function.update (fun _ => 0) b k) a 1 } := by
  have hload : Shared.zero.run [a] =
      { value := 0, loaded := Function.update (fun _ => none) a (some 0), count := fun _ => 0 } :=
    rfl
  have hb : Function.update (fun _ : ι => (none : Option Int)) a (some 0) b = none :=
    Function.update_of_ne hab.symm ..
  have ha : Function.update (fun _ : ι => (none : Option Int)) a (some 0) a = some 0 :=
    Function.update_self ..
  rw [Shared.run_append, Shared.run_append, hload, run_rounds hb, Shared.run_singleton,
    Shared.move_store ha]
  simp only [Function.update_idem, Function.update_of_ne hab, Nat.zero_add, Int.zero_add]
  congr 1
  exact Function.update_eq_self a _

theorem run_lose (hab : a ≠ b) (hn : 0 < n) (hk : k ≤ n) :
    Outcome a b n (2 * n - k : Int) (Shared.zero.run (lose a b n k)) := by
  unfold lose
  rw [Shared.run_append, Shared.run_append, run_overwrite hab, run_rounds (i := a) rfl,
    run_rounds (i := b) rfl]
  refine ⟨?_, ⟨?_, rfl⟩, ?_, rfl⟩
  · show (1 : Int) + (n - 1 : Nat) + (n - k : Nat) = _
    omega
  · simp only [Function.update_of_ne hab, Function.update_self]
    omega
  · simp only [Function.update_of_ne hab.symm, Function.update_self]
    omega

/-- The state after the second load of `b`. -/
theorem run_reload (hab : a ≠ b) (j k : Nat) :
    Shared.zero.run ([a] ++ rounds b j ++ [a] ++ rounds a k ++ [b]) =
      { value := 1 + k
        loaded := Function.update (fun _ => none) b (some (1 + k : Int))
        count := Function.update (Function.update (fun _ => 0) b j) a (1 + k) } := by
  rw [Shared.run_append, Shared.run_append, run_overwrite hab, run_rounds rfl,
    Shared.run_singleton, Shared.move_load rfl]
  simp only [Function.update_self, Function.update_idem]

theorem run_loseBoth (hab : a ≠ b) (hk : k + 1 ≤ n) :
    Outcome a b n (k + 2 : Int) (Shared.zero.run (loseBoth a b n k)) := by
  unfold loseBoth
  have ha (v : Int) : Function.update (fun _ : ι => (none : Option Int)) b (some v) a = none :=
    Function.update_of_ne hab ..
  have hb (v : Int) : Function.update (fun _ : ι => (none : Option Int)) b (some v) b = some v :=
    Function.update_self ..
  rw [Shared.run_append, Shared.run_append, run_reload hab, run_rounds (ha _),
    Shared.run_singleton, Shared.move_store (hb _)]
  refine ⟨?_, ⟨?_, ?_⟩, ?_, ?_⟩
  · show (1 : Int) + k + 1 = _
    omega
  · simp only [Function.update_of_ne hab, Function.update_self]
    omega
  · simp only [Function.update_of_ne hab]
  · simp only [Function.update_of_ne hab.symm, Function.update_self]
    omega
  · simp only [Function.update_self]

omit [DecidableEq ι] in
theorem mem_lose {i : ι} (h : i ∈ lose a b n k) : i = a ∨ i = b := by
  simp only [lose, List.mem_append, List.mem_singleton] at h
  rcases h with (((h | h) | h) | h) | h
  · exact .inl h
  · exact .inr (mem_rounds h)
  · exact .inl h
  · exact .inl (mem_rounds h)
  · exact .inr (mem_rounds h)

omit [DecidableEq ι] in
theorem mem_loseBoth {i : ι} (h : i ∈ loseBoth a b n k) : i = a ∨ i = b := by
  simp only [loseBoth, List.mem_append, List.mem_singleton] at h
  rcases h with (((((h | h) | h) | h) | h) | h) | h
  · exact .inl h
  · exact .inr (mem_rounds h)
  · exact .inl h
  · exact .inl (mem_rounds h)
  · exact .inr h
  · exact .inl (mem_rounds h)
  · exact .inr h

/-- Two agents with `n` increments each can leave any number from 2 to `2 * n`. -/
theorem exists_schedule (hab : a ≠ b) {v : Int} (hlo : 2 ≤ v) (hhi : v ≤ 2 * n) :
    ∃ schedule : List ι, (∀ i ∈ schedule, i = a ∨ i = b) ∧
      Outcome a b n v (Shared.zero.run schedule) := by
  have hn : 0 < n := by omega
  rcases le_total v n with hle | hge
  · have hout := run_loseBoth (n := n) (k := (v - 2).toNat) hab (by omega)
    have hv : (((v - 2).toNat : Nat) : Int) + 2 = v := by omega
    rw [hv] at hout
    exact ⟨_, fun _ => mem_loseBoth, hout⟩
  · have hout := run_lose (n := n) (k := (2 * n - v).toNat) hab hn (by omega)
    have hv : 2 * (n : Int) - ((2 * n - v).toNat : Nat) = v := by omega
    rw [hv] at hout
    exact ⟨_, fun _ => mem_lose, hout⟩

end Schedules

end SengOs.LostUpdate
