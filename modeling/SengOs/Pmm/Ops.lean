import SengOs.Lib.Bitmap
import SengOs.Lib.Word

/-!
# `kernel/pmm.c`

The physical frame allocator: a bitmap with one bit for each of the 8192 frames of the 32 MiB
the machine is started with, a set bit for a frame in use. `pmm_init` reads the E820 map that
the boot sector left at `0x8000`; here the 16-bit entry count and the entry that iteration `i`
reads are its arguments, so that nothing is assumed about what lies in that memory. The
address of `_kernel_end` is an argument as well.
-/

namespace SengOs.Pmm

@[simp] def frameSize : Nat := 4096
@[simp] def ramBytes : Nat := 32 * 1024 * 1024
@[simp] def ramFrames : Nat := ramBytes / frameSize
@[simp] def bitmapSize : Nat := ramBytes / frameSize / 32

/-- `e820_entry_t` -/
structure E820Entry where
  base : BitVec 64
  length : BitVec 64
  type : BitVec 32
  acpiExt : BitVec 32

/-- The static variables of `pmm.c`. -/
structure PmmState where
  bitmap : Nat → BitVec 32
  totalFrames : Nat
  freeFrames : Nat

def bitmapTest (s : PmmState) (f : Nat) : Bool := Bitmap.test s.bitmap f

/-- `if (bitmap_test(frame)) { bitmap_clear(frame); free_frames++; }` -/
def release (s : PmmState) (frame : Nat) : PmmState :=
  if bitmapTest s frame then
    { s with bitmap := Bitmap.clear s.bitmap frame, freeFrames := u32 (s.freeFrames + 1) }
  else s

/-- `a >= 0x00200000 && a < 0x00300000` -/
def InRamDisk (a : Nat) : Prop := a ≥ 0x00200000 ∧ a < 0x00300000

instance (a : Nat) : Decidable (InRamDisk a) := inferInstanceAs (Decidable (_ ∧ _))

/-! ## `pmm_init` -/

theorem next_address {a : Nat} (h : ¬ a / frameSize ≥ ramFrames) :
    u32 (a + frameSize) = a + 4096 := by
  simp only [ramFrames, ramBytes, frameSize, u32] at *
  omega

theorem frames_left_lt {a : Nat} (h : ¬ a / frameSize ≥ ramFrames) :
    ramFrames - u32 (a + frameSize) / frameSize < ramFrames - a / frameSize := by
  rw [next_address h]
  simp only [ramFrames, ramBytes, frameSize] at *
  omega

/-- The loop over the frames of one region, from address `a` on. -/
def releaseRange (stop : Nat) (s : PmmState) (a : Nat) : PmmState :=
  if u32 (a + frameSize) ≤ stop then
    let frame := a / frameSize
    if _h : frame ≥ ramFrames then s
    else if InRamDisk a then releaseRange stop s (u32 (a + frameSize))
    else releaseRange stop (release s frame) (u32 (a + frameSize))
  else s
termination_by ramFrames - a / frameSize
decreasing_by all_goals exact frames_left_lt ‹¬ a / frameSize ≥ ramFrames›

/-- `(uint32_t)map[i].base` -/
def E820Entry.start (e : E820Entry) : Nat := u32 e.base.toNat

/-- `start + (uint32_t)map[i].length` -/
def E820Entry.stop (e : E820Entry) : Nat := u32 (e.start + u32 e.length.toNat)

/-- `(start < KERNEL_END) ? KERNEL_END : start` -/
def E820Entry.first (e : E820Entry) (kernelEnd : Nat) : Nat :=
  if e.start < kernelEnd then kernelEnd else e.start

/-- One round of the loop over the map. -/
def releaseEntry (kernelEnd : Nat) (s : PmmState) (e : E820Entry) : PmmState :=
  if e.type ≠ 1 then s else releaseRange e.stop s (e.first kernelEnd)

/-- The loop that is run when there is no usable map. -/
def releaseFallback (s : PmmState) : PmmState :=
  (List.range' 0x100000 ((ramBytes - 0x100000) / frameSize) frameSize).foldl
    (fun s a => if InRamDisk a then s else release s (a / frameSize)) s

/-- `k_memset(bitmap, 0xFF, sizeof(bitmap)); free_frames = 0;` -/
def clearAll (s : PmmState) : PmmState :=
  { s with
    bitmap := fun i => if i < bitmapSize then BitVec.allOnes 32 else s.bitmap i
    freeFrames := 0 }

/-- The loop over the first `count` entries of the map. -/
def releaseMap (kernelEnd : Nat) (map : Nat → E820Entry) (s : PmmState) : Nat → PmmState
  | 0 => s
  | n + 1 => releaseEntry kernelEnd (releaseMap kernelEnd map s n) (map n)

def pmmInit (kernelEnd count : Nat) (map : Nat → E820Entry) (s : PmmState) : PmmState :=
  let s := releaseMap kernelEnd map (clearAll s) count
  let s := if count = 0 ∨ count > 64 then releaseFallback s else s
  { s with totalFrames := ramFrames }

/-! ## Allocation -/

def pmmAllocFrame (s : PmmState) : Nat × PmmState :=
  match (List.range s.totalFrames).find? (fun i => !bitmapTest s i) with
  | none => (0, s)
  | some i => (u32 (i * frameSize), { s with
      bitmap := Bitmap.set s.bitmap i
      freeFrames := u32 (s.freeFrames + (2 ^ 32 - 1)) })

def pmmFreeFrame (s : PmmState) (physAddr : Nat) : PmmState :=
  let frame := physAddr / frameSize
  if frame ≥ s.totalFrames then s else release s frame

end SengOs.Pmm
