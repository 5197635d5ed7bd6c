import SengOs.Pmm.Exhaustion
import SengOs.Shell.Output

/-!
# The command `meminfo`

What `meminfo` prints of the frame allocator is its bitmap: whatever frames have been allocated and
given back, the three numbers are those of the clear bits, of the set bits and of all frames, in
KiB (`meminfo_counts_bits`).
-/

namespace SengOs.Shell

open ByteMemory CString Decimal Pmm

section Meminfo

variable {s : PmmState}

/-- The frames whose bit has this value. -/
def framesWith (s : PmmState) (used : Bool) : Finset Nat :=
  (Finset.range ramFrames).filter fun f => bitmapTest s f = used

theorem card_framesWith (s : PmmState) :
    (framesWith s false).card + (framesWith s true).card = ramFrames := by
  have hsum := Finset.card_filter_add_card_filter_not (s := Finset.range ramFrames)
    fun f => bitmapTest s f = false
  simp only [Bool.not_eq_false, Finset.card_range] at hsum
  exact hsum

theorem freeFrames_eq (h : s.Counted) : s.freeFrames = (framesWith s false).card := h

/-- A line with one number. -/
theorem text_number (fmt before behind : List Byte)
    (hfmt : fmt = before ++ char '%' :: char 'u' :: behind) (hbefore : char '%' ∉ before)
    (hbehind : char '%' ∉ behind) (w : BitVec 32) :
    (Print.printf fmt [.word w]).text = some (before ++ numeral w.toNat ++ behind) := by
  have hnumber : vgaPrintf fmt [.word w] =
      some (before ++ (printUint w.toNat 10 ++ behind), []) := by
    rw [hfmt, vgaPrintf_append hbefore, vgaPrintf_percent, vgaConvert_u, Option.bind_some,
      vgaPrintf_text hbehind]
    rfl
  rw [Print.text, hnumber, printUint_ten w.isLt, List.append_assoc]
  rfl

/-- The three numbers of `meminfo`, none of which wraps around. -/
theorem numbers_meminfo (h : s.Counted) (htotal : s.totalFrames = ramFrames) :
    (BitVec.ofNat 32 s.freeFrames * 4).toNat = 4 * (framesWith s false).card ∧
      ((BitVec.ofNat 32 s.totalFrames - BitVec.ofNat 32 s.freeFrames) * 4).toNat =
        4 * (framesWith s true).card ∧
      (BitVec.ofNat 32 s.totalFrames * 4).toNat = 32768 := by
  have hsum : (framesWith s false).card + (framesWith s true).card = 8192 := card_framesWith s
  have hram : ramFrames = 8192 := by decide
  have hfour : (4 : BitVec 32).toNat = 4 := rfl
  rw [htotal, freeFrames_eq h, hram]
  refine ⟨?_, ?_, rfl⟩
  · rw [BitVec.toNat_mul, BitVec.toNat_ofNat, hfour]
    omega
  · rw [BitVec.toNat_mul, BitVec.toNat_sub, BitVec.toNat_ofNat, BitVec.toNat_ofNat, hfour]
    omega

end Meminfo

/-- In every state that calls with any arguments lead to from `pmm_init`, whatever map it read,
`meminfo` prints four times the number of clear bits of the bitmap, four times that of the set
bits, and 32768. -/
theorem meminfo_counts_bits (kernelEnd count : Nat) (map : Nat → E820Entry) (s₀ : PmmState)
    (calls : List Pmm.Call) :
    let s := Pmm.runCalls (pmmInit kernelEnd count map s₀) calls
    printedBy (Screened.meminfo s) =
      chars "  Free:  " ++ numeral (4 * (framesWith s false).card) ++ chars " KB\n" ++
        (chars "  Used:  " ++ numeral (4 * (framesWith s true).card) ++ chars " KB\n") ++
        chars "  Total: 32768 KB\n" := by
  intro s
  obtain ⟨hcount, htotal, -⟩ := pmmInit_spec kernelEnd count map s₀
  obtain ⟨hcount, htotal⟩ := runCalls_counted hcount htotal calls
  obtain ⟨hfree, hused, hall⟩ := numbers_meminfo hcount htotal
  have hline₁ := text_number (chars "  Free:  %u KB\n") (chars "  Free:  ") (chars " KB\n")
    (by decide) (by decide) (by decide) (BitVec.ofNat 32 s.freeFrames * 4)
  have hline₂ := text_number (chars "  Used:  %u KB\n") (chars "  Used:  ") (chars " KB\n")
    (by decide) (by decide) (by decide)
    ((BitVec.ofNat 32 s.totalFrames - BitVec.ofNat 32 s.freeFrames) * 4)
  have hline₃ := text_number (chars "  Total: %u KB\n") (chars "  Total: ") (chars " KB\n")
    (by decide) (by decide) (by decide) (BitVec.ofNat 32 s.totalFrames * 4)
  rw [hfree] at hline₁
  rw [hused] at hline₂
  have hdigits : Nat.digits 10 32768 = [8, 6, 7, 2, 3] := by simp
  have htotalText : numeral 32768 = chars "32768" := by
    rw [numeral, if_neg (by decide), hdigits]
    rfl
  rw [hall, htotalText] at hline₃
  simp only [printedBy, Screened.meminfo, VgaCall.print?, List.filterMap_cons, List.filterMap_nil,
    textOf, hline₁, hline₂, hline₃, Option.bind_eq_bind, Option.bind_some, Option.getD_some,
    List.append_nil, List.append_assoc]
  rfl

end SengOs.Shell
