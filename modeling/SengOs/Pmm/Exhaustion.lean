import SengOs.Pmm.Alloc

/-!
# The address 0

`pmm_alloc_frame` returns 0 when no frame is free, and 0 is also the address of frame 0.
`pmm_free_frame(0)` frees that frame, so a client that gives back the result of a failed
allocation makes the two readings of 0 meet.
-/

namespace SengOs.Pmm

/-- A call with any argument. -/
inductive Call where
  | alloc
  | free (physAddr : BitVec 32)

def Call.exec (s : PmmState) : Call → PmmState
  | .alloc => (pmmAllocFrame s).2
  | .free physAddr => pmmFreeFrame s physAddr.toNat

def runCalls (s : PmmState) (calls : List Call) : PmmState := calls.foldl Call.exec s

/-- 0 means out of memory, with nothing changed; and freeing what was just allocated restores
the bitmap and the counter. -/
structure AllocLaws (s : PmmState) : Prop where
  zero_iff : (pmmAllocFrame s).1 = 0 ↔ s.freeFrames = 0
  unchanged : s.freeFrames = 0 → (pmmAllocFrame s).2 = s
  restores : (pmmFreeFrame (pmmAllocFrame s).2 (pmmAllocFrame s).1).bitmap = s.bitmap ∧
    (pmmFreeFrame (pmmAllocFrame s).2 (pmmAllocFrame s).1).freeFrames = s.freeFrames

/-! ## Any run of calls -/

section Runs

variable {s : PmmState}

theorem Call.exec_counted (h : s.Counted) (htotal : s.totalFrames = ramFrames) (call : Call) :
    (call.exec s).Counted ∧ (call.exec s).totalFrames = ramFrames := by
  cases call with
  | alloc =>
    rcases pmmAllocFrame_cases h htotal with ⟨-, heq⟩ | ⟨f, -, -, -, -, hcount, htotal'⟩
    · rw [Call.exec, heq]
      exact ⟨h, htotal⟩
    · exact ⟨hcount, htotal'⟩
  | free physAddr =>
    dsimp only [Call.exec, pmmFreeFrame]
    split
    · exact ⟨h, htotal⟩
    · rename_i hframe
      rw [htotal, not_le] at hframe
      refine ⟨h.release hframe, ?_⟩
      unfold release
      split <;> exact htotal

theorem runCalls_counted (h : s.Counted) (htotal : s.totalFrames = ramFrames)
    (calls : List Call) :
    (runCalls s calls).Counted ∧ (runCalls s calls).totalFrames = ramFrames := by
  induction calls generalizing s with
  | nil => exact ⟨h, htotal⟩
  | cons call calls ih =>
    obtain ⟨h, htotal⟩ := Call.exec_counted h htotal call
    exact ih h htotal

end Runs

/-! ## One allocation -/

section Laws

variable {s : PmmState}

theorem freeFrames_eq_zero (h : s.Counted) : s.freeFrames = 0 ↔ s.free = ∅ := by
  rw [h, Finset.card_eq_zero]

theorem zero_mem_free : 0 ∈ s.free ↔ bitmapTest s 0 = false :=
  mem_free.trans (and_iff_right (by decide))

/-- The allocation takes the lowest free frame, so that it takes frame 0 whenever that one is
free. -/
theorem alloc_zero_iff (h : s.Counted) (htotal : s.totalFrames = ramFrames) :
    ((pmmAllocFrame s).1 = 0 ↔ s.freeFrames = 0) ↔ bitmapTest s 0 = true := by
  rw [freeFrames_eq_zero h]
  rcases pmmAllocFrame_cases h htotal with ⟨hempty, heq⟩ | ⟨f, hf, hlow, hret, -⟩
  · rw [heq]
    refine iff_of_true (iff_of_true rfl hempty) ?_
    rw [← Bool.not_eq_false, ← zero_mem_free, hempty]
    exact Finset.notMem_empty 0
  · have hne : s.free ≠ ∅ := Finset.ne_empty_of_mem hf
    rw [hret, iff_false_right hne, ← Bool.not_eq_false, ← zero_mem_free]
    refine not_congr ⟨fun hzero => ?_, fun hzero => ?_⟩
    · obtain rfl : f = 0 := by omega
      exact hf
    · have := hlow 0 hzero
      omega

theorem alloc_unchanged (h : s.Counted) (htotal : s.totalFrames = ramFrames)
    (hzero : s.freeFrames = 0) : pmmAllocFrame s = (0, s) := by
  rcases pmmAllocFrame_cases h htotal with ⟨-, heq⟩ | ⟨f, hf, -⟩
  · exact heq
  · rw [(freeFrames_eq_zero h).mp hzero] at hf
    exact absurd hf (Finset.notMem_empty f)

/-- The state that an allocation leaves. -/
def taken (s : PmmState) (f : Nat) : PmmState :=
  { s with bitmap := Bitmap.set s.bitmap f, freeFrames := u32 (s.freeFrames + (2 ^ 32 - 1)) }

theorem pmmAllocFrame_taken (h : s.Counted) (htotal : s.totalFrames = ramFrames)
    (hpos : s.freeFrames ≠ 0) :
    ∃ f, f < ramFrames ∧ bitmapTest s f = false ∧ pmmAllocFrame s = (f * 4096, taken s f) := by
  unfold pmmAllocFrame
  rw [htotal]
  cases hfind : (List.range ramFrames).find? (fun i => !bitmapTest s i) with
  | none =>
    refine absurd ((freeFrames_eq_zero h).mpr ?_) hpos
    rw [List.find?_range_eq_none] at hfind
    refine Finset.eq_empty_of_forall_notMem fun f hf => ?_
    have := hfind f (mem_free.mp hf).1
    rw [(mem_free.mp hf).2] at this
    cases this
  | some f =>
    obtain ⟨hbit, hmem, -⟩ := List.find?_range_eq_some.mp hfind
    have hlt : f < ramFrames := List.mem_range.mp hmem
    have haddr : u32 (f * frameSize) = f * 4096 := by
      apply u32_of_lt
      simp only [ramFrames, ramBytes, frameSize] at *
      omega
    refine ⟨f, hlt, by simpa using hbit, ?_⟩
    rw [← htotal]
    exact Prod.ext haddr rfl

/-- When there is a free frame, giving it back restores its bit and the counter. -/
theorem free_alloc (h : s.Counted) (htotal : s.totalFrames = ramFrames)
    (hpos : s.freeFrames ≠ 0) : pmmFreeFrame (pmmAllocFrame s).2 (pmmAllocFrame s).1 = s := by
  obtain ⟨f, hf, hbit, heq⟩ := pmmAllocFrame_taken h htotal hpos
  have hframe : f * 4096 / frameSize = f := Nat.mul_div_cancel f (by decide)
  have hused : bitmapTest (taken s f) f = true := by
    unfold bitmapTest taken
    rw [Bitmap.test_set (by decide), decide_eq_true rfl, Bool.true_or]
  have hcount : u32 (u32 (s.freeFrames + (2 ^ 32 - 1)) + 1) = s.freeFrames := by
    have hle : s.freeFrames ≤ ramFrames := h.trans_le (card_free_le s)
    simp only [ramFrames, ramBytes, frameSize, u32] at *
    omega
  have hlt : ¬ f ≥ (taken s f).totalFrames := Nat.not_le_of_lt (hf.trans_eq htotal.symm)
  rw [heq]
  unfold pmmFreeFrame
  dsimp only
  rw [hframe, if_neg hlt, release, if_pos hused]
  unfold taken
  dsimp only
  rw [Bitmap.clear_set (by decide) s.bitmap hbit, hcount]

/-- When there is none, the address 0 that comes back frees frame 0. -/
theorem free_alloc_exhausted (h : s.Counted) (htotal : s.totalFrames = ramFrames)
    (hzero : s.freeFrames = 0) :
    (pmmFreeFrame (pmmAllocFrame s).2 (pmmAllocFrame s).1).freeFrames = 1 := by
  have hused : bitmapTest s 0 = true := by
    rw [← Bool.not_eq_false, ← zero_mem_free, (freeFrames_eq_zero h).mp hzero]
    exact Finset.notMem_empty 0
  rw [alloc_unchanged h htotal hzero]
  unfold pmmFreeFrame
  dsimp only
  rw [htotal, Nat.zero_div, if_neg (by decide), release, if_pos hused]
  dsimp only
  rw [hzero]
  rfl

theorem allocLaws_iff (h : s.Counted) (htotal : s.totalFrames = ramFrames) :
    AllocLaws s ↔ bitmapTest s 0 = true ∧ s.freeFrames ≠ 0 := by
  constructor
  · intro laws
    refine ⟨(alloc_zero_iff h htotal).mp laws.zero_iff, fun hzero => ?_⟩
    have hone := free_alloc_exhausted h htotal hzero
    rw [laws.restores.2, hzero] at hone
    cases hone
  · rintro ⟨hused, hpos⟩
    have hback := free_alloc h htotal hpos
    exact {
      zero_iff := (alloc_zero_iff h htotal).mpr hused
      unchanged := fun hzero => absurd hzero hpos
      restores := ⟨congrArg PmmState.bitmap hback, congrArg PmmState.freeFrames hback⟩ }

theorem not_allocLaws_free_zero (h : s.Counted) (htotal : s.totalFrames = ramFrames) :
    ¬ AllocLaws (runCalls s [.free 0]) := by
  have hpos : 0 < ramFrames := by decide
  obtain ⟨hfree, hcount, htotal'⟩ := pmmFreeFrame_spec h htotal hpos
  have hmem : 0 ∈ (pmmFreeFrame s (0 * 4096)).free := by
    rw [hfree]
    exact Finset.mem_insert_self 0 s.free
  have hrun : runCalls s [.free 0] = pmmFreeFrame s (0 * 4096) := by
    rw [Nat.zero_mul]
    rfl
  rw [hrun, allocLaws_iff hcount htotal', ← Bool.not_eq_false, ← zero_mem_free]
  exact fun laws => laws.1 hmem

end Laws

/-! ## After any calls -/

/-- Frame 0 stays in use for as long as nobody frees it. -/
theorem Call.exec_zero {s : PmmState} {call : Call} (hcall : ∀ a, call = .free a → 4096 ≤ a.toNat)
    (h : bitmapTest s 0 = true) : bitmapTest (call.exec s) 0 = true := by
  cases call with
  | alloc =>
    dsimp only [Call.exec, pmmAllocFrame]
    split
    · exact h
    · rw [bitmapTest, Bitmap.test_set (by decide), ← bitmapTest, h, Bool.or_true]
  | free a =>
    have ha := hcall a rfl
    dsimp only [Call.exec, pmmFreeFrame]
    split
    · exact h
    · unfold release
      split
      · have hne : 0 ≠ a.toNat / frameSize := by
          simp only [frameSize]
          omega
        rw [bitmapTest, Bitmap.test_clear (by decide), ← bitmapTest, h, decide_eq_false hne]
        rfl
      · exact h

theorem runCalls_zero {s : PmmState} {calls : List Call}
    (hcalls : ∀ a, Call.free a ∈ calls → 4096 ≤ a.toNat) (h : bitmapTest s 0 = true) :
    bitmapTest (runCalls s calls) 0 = true := by
  induction calls generalizing s with
  | nil => exact h
  | cons call calls ih =>
    refine ih (fun a ha => hcalls a (List.mem_cons_of_mem _ ha)) (call.exec_zero ?_ h)
    rintro a rfl
    exact hcalls a (List.mem_cons_self ..)

/-- In every state that calls with any arguments lead to from `pmm_init`, the laws hold exactly
when frame 0 is in use and memory is not exhausted. -/
theorem alloc_laws_iff (kernelEnd count : Nat) (map : Nat → E820Entry) (s₀ : PmmState)
    (calls : List Call) :
    AllocLaws (runCalls (pmmInit kernelEnd count map s₀) calls) ↔
      bitmapTest (runCalls (pmmInit kernelEnd count map s₀) calls) 0 = true ∧
        (runCalls (pmmInit kernelEnd count map s₀) calls).freeFrames ≠ 0 := by
  obtain ⟨hcount, htotal, -⟩ := pmmInit_spec kernelEnd count map s₀
  obtain ⟨hcount, htotal⟩ := runCalls_counted hcount htotal calls
  exact allocLaws_iff hcount htotal

/-- Giving back the address 0 of a failed allocation frees frame 0, which the next allocation
returns as 0 although memory is not exhausted. -/
theorem zero_freed :
    ¬ AllocLaws (runCalls (pmmInit 0x20000 0 (fun _ => ⟨0, 0, 0, 0⟩) ⟨fun _ => 0, 0, 0⟩)
      [.free 0]) := by
  obtain ⟨hcount, htotal, -⟩ :=
    pmmInit_spec 0x20000 0 (fun _ => ⟨0, 0, 0, 0⟩) ⟨fun _ => 0, 0, 0⟩
  exact not_allocLaws_free_zero hcount htotal

end SengOs.Pmm
