import Mathlib.Data.Finset.Card
import SengOs.Pmm.Ops

/-!
# Which frames `pmm_init` frees

`Released stop a` are the frames that the loop over a region frees when it starts at address
`a`. `mem_free_pmmInit` says that after `pmm_init` the free frames are exactly those of the
regions in the map, plus the fallback ones when the count is no usable one.
-/

namespace SengOs.Pmm

/-- The free frames. -/
def PmmState.free (s : PmmState) : Finset Nat := Bitmap.zeros s.bitmap ramFrames

/-- The counter is the number of free frames. -/
def PmmState.Counted (s : PmmState) : Prop := s.freeFrames = s.free.card

/-- Frames freed by the loop over a region that ends at `stop`, started at address `a`. -/
def Released (stop a f : Nat) : Prop :=
  ∃ j, a + 4096 * j + 4096 ≤ stop ∧ a + 4096 * j < ramBytes ∧ ¬ InRamDisk (a + 4096 * j) ∧
    f = (a + 4096 * j) / 4096

section Release

variable {s : PmmState} {f : Nat}

theorem mem_free : f ∈ s.free ↔ f < ramFrames ∧ bitmapTest s f = false := Bitmap.mem_zeros

theorem card_free_le (s : PmmState) : s.free.card ≤ ramFrames :=
  (Finset.card_filter_le ..).trans (Finset.card_range _).le

theorem release_free (s : PmmState) (hf : f < ramFrames) :
    (release s f).free = insert f s.free := by
  unfold release
  split
  · exact Bitmap.zeros_clear (by decide) s.bitmap hf
  · rename_i hbit
    exact (Finset.insert_eq_of_mem (mem_free.mpr ⟨hf, by simpa using hbit⟩)).symm

theorem PmmState.Counted.release (h : s.Counted) (hf : f < ramFrames) :
    (release s f).Counted := by
  have hfree := release_free s hf
  unfold Pmm.release at hfree ⊢
  split
  · rename_i hbit
    have hnot : f ∉ s.free := fun hmem => nomatch hbit.symm.trans (mem_free.mp hmem).2
    have hcard := card_free_le (Pmm.release s f)
    rw [release_free s hf, Finset.card_insert_of_notMem hnot] at hcard
    rw [if_pos hbit] at hfree
    rw [Counted, hfree, Finset.card_insert_of_notMem hnot, ← h]
    refine u32_of_lt ?_
    rw [← h] at hcard
    simp only [ramFrames, ramBytes, frameSize] at hcard
    omega
  · exact h

end Release

/-! ## One region -/

section Released

variable {stop a f : Nat}

/-- The first frame of a region, and the frames from the next address on. -/
theorem released_iff (hstop : a + 4096 ≤ stop) (ha : a < ramBytes) :
    Released stop a f ↔ (¬ InRamDisk a ∧ f = a / 4096) ∨ Released stop (a + 4096) f := by
  have hnext : ∀ j, a + 4096 * (j + 1) = a + 4096 + 4096 * j := fun j => by omega
  constructor
  · rintro ⟨j, hj⟩
    cases j with
    | zero => exact Or.inl ⟨hj.2.2.1, hj.2.2.2⟩
    | succ j => exact Or.inr ⟨j, by rwa [hnext] at hj⟩
  · rintro (⟨hd, hf⟩ | ⟨j, hj⟩)
    · exact ⟨0, hstop, ha, hd, hf⟩
    · exact ⟨j + 1, by rwa [hnext]⟩

theorem not_released_of_ram (h : ramBytes ≤ a) : ¬ Released stop a f := by
  rintro ⟨j, -, hj, -⟩
  omega

/-- A freed frame is not in the RAM disk. -/
theorem Released.bounds (h : Released stop a f) :
    a / 4096 ≤ f ∧ f < ramFrames ∧ ¬ InRamDisk (f * 4096) := by
  obtain ⟨j, hj, hram, hdisk, rfl⟩ := h
  simp only [ramBytes, ramFrames, frameSize, InRamDisk] at *
  omega

end Released

/-- The loop over a region frees the frames of `Released` and keeps the counter. The
induction follows the loop; below the end of the RAM its address does not wrap. -/
theorem releaseRange_spec (stop : Nat) (s : PmmState) (a : Nat) (h : s.Counted) :
    (releaseRange stop s a).Counted ∧
      ∀ f, f ∈ (releaseRange stop s a).free ↔ f ∈ s.free ∨ Released stop a f := by
  induction s, a using releaseRange.induct stop with
  | case1 s a hstop frame hbig =>
    unfold releaseRange
    rw [if_pos hstop]
    dsimp only
    rw [dif_pos hbig]
    have hram : ramBytes ≤ a := by
      simp only [frame, ramFrames, ramBytes, frameSize] at hbig ⊢
      omega
    exact ⟨h, fun f => by simp only [not_released_of_ram hram, or_false]⟩
  | case2 s a hstop frame hsmall hdisk ih =>
    unfold releaseRange
    rw [if_pos hstop]
    dsimp only
    rw [dif_neg hsmall, if_pos hdisk]
    obtain ⟨hcount, hfree⟩ := ih h
    refine ⟨hcount, fun f => (hfree f).trans ?_⟩
    rw [next_address hsmall] at hstop ⊢
    have hram : a < ramBytes := by
      simp only [frame, ramFrames, ramBytes, frameSize] at hsmall ⊢
      omega
    rw [released_iff hstop hram]
    simp only [hdisk, not_true_eq_false, false_and, false_or]
  | case3 s a hstop frame hsmall hdisk ih =>
    unfold releaseRange
    rw [if_pos hstop]
    dsimp only
    rw [dif_neg hsmall, if_neg hdisk]
    have hframe : frame < ramFrames := Nat.lt_of_not_le hsmall
    obtain ⟨hcount, hfree⟩ := ih (h.release hframe)
    refine ⟨hcount, fun f => (hfree f).trans ?_⟩
    rw [next_address hsmall] at hstop ⊢
    have hram : a < ramBytes := by
      simp only [frame, ramFrames, ramBytes, frameSize] at hsmall ⊢
      omega
    rw [release_free s hframe, released_iff hstop hram, Finset.mem_insert]
    simp only [hdisk, not_false_eq_true, true_and]
    exact or_assoc.trans or_left_comm
  | case4 s a hstop =>
    unfold releaseRange
    rw [if_neg hstop]
    refine ⟨h, fun f => (or_iff_left fun hr => ?_).symm⟩
    -- an address from which something is freed lies in the RAM, so the test did not wrap
    obtain ⟨j, hj, hram, -⟩ := hr
    simp only [ramBytes, frameSize, u32] at *
    omega

/-! ## The map -/

/-- Frames freed for the entry `e`. -/
def E820Entry.Releases (kernelEnd : Nat) (e : E820Entry) (f : Nat) : Prop :=
  e.type = 1 ∧ Released e.stop (e.first kernelEnd) f

theorem releaseEntry_spec (kernelEnd : Nat) {s : PmmState} (e : E820Entry) (h : s.Counted) :
    (releaseEntry kernelEnd s e).Counted ∧
      ∀ f, f ∈ (releaseEntry kernelEnd s e).free ↔ f ∈ s.free ∨ e.Releases kernelEnd f := by
  unfold releaseEntry E820Entry.Releases
  split
  · rename_i htype
    exact ⟨h, fun f => by simp only [htype, false_and, or_false]⟩
  · rename_i htype
    obtain ⟨hcount, hfree⟩ := releaseRange_spec e.stop s (e.first kernelEnd) h
    refine ⟨hcount, fun f => (hfree f).trans ?_⟩
    simp only [not_not.mp htype, true_and]

theorem releaseMap_spec (kernelEnd : Nat) {s : PmmState} (map : Nat → E820Entry) (h : s.Counted)
    (count : Nat) :
    (releaseMap kernelEnd map s count).Counted ∧
      ∀ f, f ∈ (releaseMap kernelEnd map s count).free ↔
        f ∈ s.free ∨ ∃ i, i < count ∧ (map i).Releases kernelEnd f := by
  induction count with
  | zero => exact ⟨h, fun f => by simp [releaseMap]⟩
  | succ n ih =>
    obtain ⟨hcount, hfree⟩ := releaseEntry_spec kernelEnd (map n) ih.1
    refine ⟨hcount, fun f => (hfree f).trans ?_⟩
    rw [ih.2 f, or_assoc]
    refine or_congr_right ⟨?_, ?_⟩
    · rintro (⟨i, hi, hr⟩ | hr)
      · exact ⟨i, by omega, hr⟩
      · exact ⟨n, by omega, hr⟩
    · rintro ⟨i, hi, hr⟩
      by_cases hin : i = n
      · exact Or.inr (hin ▸ hr)
      · exact Or.inl ⟨i, by omega, hr⟩

/-! ## The fallback -/

/-- The frames from 1 MiB to the end of the RAM, without the RAM disk. -/
def Fallback (f : Nat) : Prop := 256 ≤ f ∧ f < ramFrames ∧ ¬ InRamDisk (f * 4096)

theorem releaseList_spec {s : PmmState} (as : List Nat) (h : s.Counted)
    (has : ∀ a ∈ as, a / frameSize < ramFrames) :
    (as.foldl (fun s a => if InRamDisk a then s else release s (a / frameSize)) s).Counted ∧
      ∀ f, f ∈ (as.foldl (fun s a => if InRamDisk a then s else release s (a / frameSize)) s).free ↔
        f ∈ s.free ∨ ∃ a ∈ as, ¬ InRamDisk a ∧ f = a / frameSize := by
  induction as generalizing s with
  | nil => exact ⟨h, fun f => by simp⟩
  | cons a as ih =>
    rw [List.foldl_cons]
    have hrest : ∀ b ∈ as, b / frameSize < ramFrames := fun b hb =>
      has b (List.mem_cons_of_mem a hb)
    by_cases hdisk : InRamDisk a
    · rw [if_pos hdisk]
      obtain ⟨hcount, hfree⟩ := ih h hrest
      refine ⟨hcount, fun f => (hfree f).trans ?_⟩
      simp only [List.mem_cons, exists_eq_or_imp, hdisk, not_true_eq_false, false_and, false_or]
    · rw [if_neg hdisk]
      have ha := has a List.mem_cons_self
      obtain ⟨hcount, hfree⟩ := ih (h.release ha) hrest
      refine ⟨hcount, fun f => (hfree f).trans ?_⟩
      rw [release_free s ha, Finset.mem_insert]
      simp only [List.mem_cons, exists_eq_or_imp, hdisk, not_false_eq_true, true_and]
      exact or_assoc.trans or_left_comm

theorem releaseFallback_spec {s : PmmState} (h : s.Counted) :
    (releaseFallback s).Counted ∧
      ∀ f, f ∈ (releaseFallback s).free ↔ f ∈ s.free ∨ Fallback f := by
  have hmem : ∀ a, a ∈ List.range' 0x100000 ((ramBytes - 0x100000) / frameSize) frameSize ↔
      ∃ j, j < 7936 ∧ a = 0x100000 + 4096 * j := fun a => List.mem_range'
  obtain ⟨hcount, hfree⟩ := releaseList_spec
    (List.range' 0x100000 ((ramBytes - 0x100000) / frameSize) frameSize) h fun a ha => by
      obtain ⟨j, hj, rfl⟩ := (hmem a).mp ha
      simp only [ramFrames, ramBytes, frameSize]
      omega
  refine ⟨hcount, fun f => (hfree f).trans (or_congr_right ?_)⟩
  simp only [hmem]
  constructor
  · rintro ⟨a, ⟨j, hj, rfl⟩, hdisk, rfl⟩
    simp only [Fallback, InRamDisk, ramFrames, ramBytes, frameSize] at *
    omega
  · rintro ⟨hlo, hhi, hdisk⟩
    simp only [ramFrames, ramBytes, frameSize] at hhi
    have haddr : 0x100000 + 4096 * (f - 256) = f * 4096 := by omega
    refine ⟨f * 4096, ⟨f - 256, by omega, haddr.symm⟩, hdisk, ?_⟩
    simp only [frameSize]
    omega

/-! ## `pmm_init` -/

/-- The frames that are free after `pmm_init`. -/
def InitiallyFree (kernelEnd count : Nat) (map : Nat → E820Entry) (f : Nat) : Prop :=
  (∃ i, i < count ∧ (map i).Releases kernelEnd f) ∨ ((count = 0 ∨ count > 64) ∧ Fallback f)

theorem test_allOnes {f : Nat} (hf : f < ramFrames) (old : Nat → BitVec 32) :
    Bitmap.test (fun i => if i < bitmapSize then BitVec.allOnes 32 else old i) f = true := by
  have hword : f / 32 < bitmapSize := by
    simp only [ramFrames, ramBytes, frameSize, bitmapSize] at *
    omega
  rw [Bitmap.test_eq_getLsbD (by decide), if_pos hword, BitVec.getLsbD_allOnes]
  exact decide_eq_true (Nat.mod_lt f (by decide))

theorem clearAll_free (s : PmmState) : (clearAll s).free = ∅ := by
  refine Finset.eq_empty_of_forall_notMem fun f hf => ?_
  obtain ⟨hlt, hbit⟩ := mem_free.mp hf
  exact nomatch hbit.symm.trans (test_allOnes hlt s.bitmap)

theorem clearAll_counted (s : PmmState) : (clearAll s).Counted := by
  rw [PmmState.Counted, clearAll_free]
  rfl

theorem PmmState.Counted.withTotal {s : PmmState} (h : s.Counted) (n : Nat) :
    ({ s with totalFrames := n } : PmmState).Counted := h

theorem free_withTotal (s : PmmState) (n : Nat) :
    ({ s with totalFrames := n } : PmmState).free = s.free := rfl

theorem pmmInit_spec (kernelEnd count : Nat) (map : Nat → E820Entry) (s : PmmState) :
    (pmmInit kernelEnd count map s).Counted ∧
      (pmmInit kernelEnd count map s).totalFrames = ramFrames ∧
      ∀ f, f ∈ (pmmInit kernelEnd count map s).free ↔ InitiallyFree kernelEnd count map f := by
  obtain ⟨hmap, hfree⟩ := releaseMap_spec kernelEnd map (clearAll_counted s) count
  simp only [clearAll_free, Finset.notMem_empty, false_or] at hfree
  unfold pmmInit InitiallyFree
  dsimp only
  by_cases hbad : count = 0 ∨ count > 64
  · obtain ⟨hfall, hfree'⟩ := releaseFallback_spec hmap
    rw [if_pos hbad]
    refine ⟨hfall.withTotal ramFrames, rfl, fun f => ?_⟩
    rw [free_withTotal, hfree' f, hfree f]
    simp only [hbad, true_and]
  · rw [if_neg hbad]
    refine ⟨hmap.withTotal ramFrames, rfl, fun f => ?_⟩
    rw [free_withTotal, hfree f]
    simp only [hbad, false_and, or_false]

end SengOs.Pmm
