import SengOs.Pmm.Init

/-!
# Are the free frames usable memory?

`FreeFramesSafe` is what the comments in `pmm_init` promise: a free frame lies above the
first MiB and the kernel, below the end of the RAM, outside the RAM disk and in memory that
the firmware reported. The code clamps a region to `KERNEL_END` only, does not align its
start, and cuts base and length to 32 bits; `free_frames_safe_iff` says exactly which maps
survive that.
-/

namespace SengOs.Pmm

/-- Some type-1 entry reports address `x`, with base and length read in full. -/
def Reported (count : Nat) (map : Nat → E820Entry) (x : Nat) : Prop :=
  ∃ i, i < count ∧ (map i).type = 1 ∧ (map i).base.toNat ≤ x ∧
    x < (map i).base.toNat + (map i).length.toNat

/-- Every byte of frame `f` may be handed out. -/
def SafeFrame (kernelEnd count : Nat) (map : Nat → E820Entry) (f : Nat) : Prop :=
  ∀ x, f * 4096 ≤ x → x < f * 4096 + 4096 →
    0x100000 ≤ x ∧ ¬ (0x10000 ≤ x ∧ x < kernelEnd) ∧ ¬ InRamDisk x ∧ x < ramBytes ∧
      Reported count map x

/-- After `pmm_init` every free frame may be handed out. -/
def FreeFramesSafe (kernelEnd count : Nat) (map : Nat → E820Entry) : Prop :=
  ∀ s f, f < ramFrames → bitmapTest (pmmInit kernelEnd count map s) f = false →
    SafeFrame kernelEnd count map f

/-- The windows that the 32-bit computation makes of the type-1 entries. A window that holds
a frame starts at 1 MiB or above, and what it covers once its start is rounded down to a
frame is reported, up to the end of the RAM and apart from the RAM disk. -/
def WindowsUsable (kernelEnd count : Nat) (map : Nat → E820Entry) : Prop :=
  ∀ i, i < count → (map i).type = 1 →
    (map i).first kernelEnd + 4096 ≤ (map i).stop →
    0x100000 ≤ (map i).first kernelEnd ∧
    ∀ x, (map i).first kernelEnd / 4096 * 4096 ≤ x →
      x < ((map i).first kernelEnd / 4096 +
        ((map i).stop - (map i).first kernelEnd) / 4096) * 4096 →
      x < ramBytes → ¬ InRamDisk x → Reported count map x

section Windows

variable {kernelEnd count : Nat} {map : Nat → E820Entry}

/-- The frame of an address inside a window is freed. -/
theorem released_of_window {stop first x : Nat} (hx : first / 4096 * 4096 ≤ x)
    (hx' : x < (first / 4096 + (stop - first) / 4096) * 4096) (hram : x < ramBytes)
    (hdisk : ¬ InRamDisk x) : Released stop first (x / 4096) := by
  refine ⟨x / 4096 - first / 4096, ?_, ?_, ?_, ?_⟩ <;>
    simp only [InRamDisk, ramBytes] at * <;> omega

/-- The first frame of a window below 1 MiB is freed. -/
theorem released_first {stop first : Nat} (hhold : first + 4096 ≤ stop)
    (hlow : first < 0x100000) : Released stop first (first / 4096) := by
  refine ⟨0, by omega, ?_, ?_, by omega⟩ <;> simp only [InRamDisk, ramBytes] <;> omega

/-- A freed frame is one of its window. -/
theorem Released.window {stop first f : Nat} (h : Released stop first f) {x : Nat}
    (hx : f * 4096 ≤ x) (hx' : x < f * 4096 + 4096) :
    first + 4096 ≤ stop ∧ first / 4096 * 4096 ≤ x ∧
      x < (first / 4096 + (stop - first) / 4096) * 4096 ∧ x < ramBytes ∧ ¬ InRamDisk x := by
  obtain ⟨j, hj, hram, hdisk, rfl⟩ := h
  simp only [InRamDisk, ramBytes] at *
  omega

/-- With a usable count the free frames are those of the map. -/
theorem mem_free_iff (hc : 1 ≤ count) (hc' : count ≤ 64) (s : PmmState) (f : Nat) :
    f ∈ (pmmInit kernelEnd count map s).free ↔
      ∃ i, i < count ∧ (map i).Releases kernelEnd f := by
  rw [(pmmInit_spec kernelEnd count map s).2.2 f]
  exact or_iff_left fun h => by omega

theorem windowsUsable_of_safe (hc : 1 ≤ count) (hc' : count ≤ 64)
    (h : FreeFramesSafe kernelEnd count map) : WindowsUsable kernelEnd count map := by
  intro i hi htype
  have hsafe : ∀ f, Released (map i).stop ((map i).first kernelEnd) f →
      SafeFrame kernelEnd count map f := by
    intro f hr
    obtain ⟨hlt, hbit⟩ := mem_free.mp
      ((mem_free_iff hc hc' ⟨fun _ => 0, 0, 0⟩ f).mpr ⟨i, hi, htype, hr⟩)
    exact h _ f hlt hbit
  generalize (map i).first kernelEnd = first at hsafe ⊢
  generalize (map i).stop = stop at hsafe ⊢
  refine fun hhold => ⟨?_, fun x hx hx' hram hdisk => ?_⟩
  · by_contra hlow
    -- the first frame of the window is freed and lies below 1 MiB
    have hfirst := hsafe _ (released_first hhold (by omega)) (first / 4096 * 4096) le_rfl
      (by omega)
    omega
  · exact (hsafe _ (released_of_window hx hx' hram hdisk) x (Nat.div_mul_le_self x 4096)
      (Nat.lt_div_mul_add (by decide))).2.2.2.2

theorem safe_of_windowsUsable (hke : kernelEnd ≤ 0x100000) (hc : 1 ≤ count) (hc' : count ≤ 64)
    (h : WindowsUsable kernelEnd count map) : FreeFramesSafe kernelEnd count map := by
  intro s f hlt hbit x hx hx'
  obtain ⟨i, hi, htype, hr⟩ := (mem_free_iff hc hc' s f).mp (mem_free.mpr ⟨hlt, hbit⟩)
  obtain ⟨hhold, hlo, hhi, hram, hdisk⟩ := hr.window hx hx'
  obtain ⟨hfirst, hrep⟩ := h i hi htype hhold
  exact ⟨by omega, by omega, hdisk, hram, hrep x hlo hhi hram hdisk⟩

/-- The free frames are usable memory exactly when the windows of the map are. -/
theorem free_frames_safe_iff (hke : kernelEnd ≤ 0x100000) (hc : 1 ≤ count)
    (hc' : count ≤ 64) :
    FreeFramesSafe kernelEnd count map ↔ WindowsUsable kernelEnd count map :=
  ⟨windowsUsable_of_safe hc hc', safe_of_windowsUsable hke hc hc'⟩

end Windows

/-- One region from 1 MiB to the end of the RAM is handled as promised. -/
theorem free_frames_safe_of_high_memory :
    FreeFramesSafe 0x15000 1 (fun _ => ⟨0x100000, 0x1F00000, 1, 0⟩) := by
  refine (free_frames_safe_iff (by decide) le_rfl (by decide)).mpr ?_
  intro i hi htype hhold
  have hfirst : E820Entry.first ⟨0x100000, 0x1F00000, 1, 0⟩ 0x15000 = 0x100000 := by decide
  refine ⟨hfirst.ge, fun x hx hx' hram hdisk => ⟨i, hi, rfl, ?_, ?_⟩⟩
  · rw [hfirst] at hx
    exact hx
  · have hend : (0x100000#64).toNat + (0x1F00000#64).toNat = ramBytes := by decide
    exact hram.trans_eq hend.symm

/-- The conventional memory of a PC, base 0 and length `0x9FC00`: the frames from the kernel
end up to `0x9F000` are free, all of them below 1 MiB. -/
theorem conventional_memory_not_safe :
    ¬ FreeFramesSafe 0x15000 1 (fun _ => ⟨0, 0x9FC00, 1, 0⟩) := by
  intro h
  have hr : Released (E820Entry.stop ⟨0, 0x9FC00, 1, 0⟩)
      (E820Entry.first ⟨0, 0x9FC00, 1, 0⟩ 0x15000) 0x15 :=
    ⟨0, by decide, by decide, by decide, by decide⟩
  have hfree : 0x15 ∈ (pmmInit 0x15000 1 (fun _ => ⟨0, 0x9FC00, 1, 0⟩) ⟨fun _ => 0, 0, 0⟩).free :=
    (mem_free_iff le_rfl (by decide) _ _).mpr ⟨0, by decide, rfl, hr⟩
  obtain ⟨hlt, hbit⟩ := mem_free.mp hfree
  exact absurd (h _ 0x15 hlt hbit (0x15 * 4096) le_rfl (by decide)).1 (by decide)

end SengOs.Pmm
