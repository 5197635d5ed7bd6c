import SengOs.Pmm.Usable

/-!
# Memory without a map

A count of 0 or above 64 means that there is no usable map. `pmm_init` looks at the count when
its loop over the entries has already run, and does not take back what that loop has freed.
The entry `map i` is the one that round `i` reads, wherever in memory it lies. What the rounds
free above 1 MiB the fallback frees as well; so the result is that of the fallback if and only
if no round frees a frame below (`fallback_exact_iff`).
-/

namespace SengOs.Pmm

/-- The frames of `[1 MiB, 32 MiB)` without the RAM disk. -/
def fallbackFrames : Finset Nat :=
  (Finset.range ramFrames).filter fun f => 256 ≤ f ∧ ¬ InRamDisk (f * 4096)

theorem mem_fallbackFrames {f : Nat} : f ∈ fallbackFrames ↔ Fallback f := by
  rw [fallbackFrames, Finset.mem_filter, Finset.mem_range]
  exact and_left_comm

section Fallback

variable {kernelEnd count : Nat} {map : Nat → E820Entry}

/-- A region that holds no frame below 1 MiB frees only frames of the fallback. -/
theorem fallback_of_released {stop first f : Nat}
    (h : first < 0x100000 → stop < first + 4096) (hf : Released stop first f) : Fallback f := by
  obtain ⟨hlow, hlt, hdisk⟩ := hf.bounds
  refine ⟨?_, hlt, hdisk⟩
  by_contra hbelow
  have hfirst : first < 0x100000 := by omega
  obtain ⟨j, hj, -⟩ := hf
  exact absurd (h hfirst) (by omega)

theorem initiallyFree_iff (hc : count = 0 ∨ 64 < count) (f : Nat) :
    InitiallyFree kernelEnd count map f ↔
      (∃ i, i < count ∧ (map i).Releases kernelEnd f) ∨ Fallback f :=
  or_congr_right (and_iff_right hc)

/-- Without a usable map, the free frames are those of the fallback if and only if no entry of
type 1 among the first `count` leaves a frame below 1 MiB. -/
theorem fallback_exact_iff (kernelEnd : Nat) (map : Nat → E820Entry)
    (hc : count = 0 ∨ 64 < count) :
    (∀ s, (pmmInit kernelEnd count map s).free = fallbackFrames ∧
      (pmmInit kernelEnd count map s).freeFrames = fallbackFrames.card) ↔
    ∀ i < count, (map i).type = 1 → (map i).first kernelEnd < 0x100000 →
      (map i).stop < (map i).first kernelEnd + 4096 := by
  constructor
  · intro h i hi htype hlow
    by_contra hhold
    -- The first frame of the region is freed.
    have hreleased : Released (map i).stop ((map i).first kernelEnd)
        ((map i).first kernelEnd / 4096) :=
      released_first (Nat.not_lt.mp hhold) hlow
    have hfree : (map i).first kernelEnd / 4096 ∈
        (pmmInit kernelEnd count map ⟨fun _ => 0, 0, 0⟩).free := by
      apply ((pmmInit_spec kernelEnd count map _).2.2 _).mpr
      exact (initiallyFree_iff hc _).mpr (.inl ⟨i, hi, htype, hreleased⟩)
    rw [(h _).1, mem_fallbackFrames] at hfree
    have hfirst := hfree.1
    omega
  · intro h s
    obtain ⟨hcount, -, hfree⟩ := pmmInit_spec kernelEnd count map s
    have heq : (pmmInit kernelEnd count map s).free = fallbackFrames := by
      ext f
      rw [hfree f, initiallyFree_iff hc, mem_fallbackFrames]
      apply or_iff_right_of_imp
      rintro ⟨i, hi, htype, hreleased⟩
      exact fallback_of_released (h i hi htype) hreleased
    exact ⟨heq, hcount.trans (congrArg Finset.card heq)⟩

end Fallback

/-- An entry for the memory from 1 MiB to 32 MiB, and nothing behind it. -/
def extendedMap (i : Nat) : E820Entry := if i = 0 then ⟨0x100000, 0x1F00000, 1, 0⟩ else ⟨0, 0, 0, 0⟩

/-- No entry is read, or the entry of 1 MiB and above and 64 others. -/
theorem fallback_exact_extended :
    (∀ s, (pmmInit 0x15000 0 extendedMap s).free = fallbackFrames ∧
      (pmmInit 0x15000 0 extendedMap s).freeFrames = fallbackFrames.card) ∧
    ∀ s, (pmmInit 0x15000 65 extendedMap s).free = fallbackFrames ∧
      (pmmInit 0x15000 65 extendedMap s).freeFrames = fallbackFrames.card := by
  constructor
  · exact (fallback_exact_iff 0x15000 extendedMap (.inl rfl)).mpr
      fun i hi => absurd hi i.not_lt_zero
  · refine (fallback_exact_iff 0x15000 extendedMap (.inr (by decide))).mpr
      fun i _ htype hlow => ?_
    by_cases h0 : i = 0
    · subst h0
      exact absurd hlow (by decide)
    · rw [extendedMap, if_neg h0] at htype
      exact absurd htype (by decide)

/-- An entry for the conventional memory of a PC, and nothing behind it. -/
def strayMap (i : Nat) : E820Entry := if i = 0 then ⟨0, 0x9FC00, 1, 0⟩ else ⟨0, 0, 0, 0⟩

/-- With a count of 65, frame `0x15` is free. -/
theorem fallback_keeps_low_frames :
    ¬ ∀ s, (pmmInit 0x15000 65 strayMap s).free = fallbackFrames ∧
      (pmmInit 0x15000 65 strayMap s).freeFrames = fallbackFrames.card := by
  intro h
  have hreleased : (strayMap 0).Releases 0x15000 0x15 :=
    ⟨rfl, released_first (by decide) (by decide)⟩
  have hfree : 0x15 ∈ (pmmInit 0x15000 65 strayMap ⟨fun _ => 0, 0, 0⟩).free :=
    ((pmmInit_spec 0x15000 65 _ _).2.2 _).mpr (.inl ⟨0, by decide, hreleased⟩)
  rw [(h _).1, mem_fallbackFrames] at hfree
  exact absurd hfree.1 (by decide)

end SengOs.Pmm
