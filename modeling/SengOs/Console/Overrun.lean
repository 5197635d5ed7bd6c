import Mathlib.Algebra.Group.Nat.Even
import Mathlib.Data.List.DropRight
import SengOs.Console.Formatter

/-!
# Where `vga_printf` leaves its format

After a `%`, the loop takes the next byte for a letter without looking whether it is the NUL.
Where a `%` has no letter, the NUL is printed and the format is read on behind it. That `%`
is the last one of the format, and the ones before it at the end are in pairs
(`odd_trailing_iff`): `vga_printf` stops at the end of the formats that end in an even number
of `%` (`printf_stops`).
-/

namespace SengOs.Console

open ByteMemory CString Shell

/-- A `%` without a letter is left at the end. -/
def leftOver : List Byte → Bool
  | [] => false
  | c :: s =>
    if c ≠ char '%' then leftOver s
    else
      match s with
      | [] => true
      | _ :: s => leftOver s

/-- The `%` at the end of a format. -/
def trailing (s : List Byte) : List Byte := s.rtakeWhile (· == char '%')

/-! ## The end of a format -/

theorem trailing_cons (c : Byte) (s : List Byte) :
    (trailing (c :: s)).length =
      if (trailing s).length = s.length ∧ c = char '%' then s.length + 1
      else (trailing s).length := by
  unfold trailing List.rtakeWhile
  rw [List.reverse_cons, List.takeWhile_append, List.length_reverse, List.length_reverse,
    List.length_reverse]
  by_cases hall : (s.reverse.takeWhile (· == char '%')).length = s.length
  · by_cases hc : c = char '%'
    · rw [if_pos hall, if_pos ⟨hall, hc⟩, List.takeWhile_cons_of_pos (by simpa using hc)]
      simp
    · rw [if_pos hall, if_neg fun h => hc h.2, List.takeWhile_cons_of_neg (by simpa using hc)]
      simp [hall]
  · rw [if_neg hall, if_neg fun h => hall h.1]

theorem odd_trailing_iff (s : List Byte) : leftOver s = true ↔ Odd (trailing s).length := by
  fun_induction leftOver s with
  | case1 => simp [trailing]
  | case2 c s hc ih => rw [ih, trailing_cons, if_neg fun h => hc h.2]
  | case3 c hc => simp [not_not.mp hc, trailing, List.rtakeWhile]
  | case4 c hc d s ih =>
    have hle : (trailing s).length ≤ s.length := (List.rtakeWhile_suffix _ s).length_le
    rw [ih, trailing_cons, trailing_cons, List.length_cons, Nat.odd_iff, Nat.odd_iff]
    by_cases hd : (trailing s).length = s.length ∧ d = char '%'
    · rw [if_pos hd, if_pos ⟨rfl, not_not.mp hc⟩, hd.1]
      omega
    · rw [if_neg hd, if_neg (by omega)]

/-! ## The reads -/

section Reads

variable {m : Ram} {junk : Nat → Nat → Byte} {va : Nat → BitVec 32} {fmt : Nat → Byte}
  {n i k : Nat}

/-- In a memory with a NUL, every conversion ends. -/
theorem vgaConvert_done {a : BitVec 32} (ha : m a = 0) (buf : Nat → Byte) (c : Byte)
    (hn : 2 ^ 32 ≤ n) : (vgaConvert m buf va n c k).1.done = true := by
  unfold vgaConvert
  split
  · unfold vgaPuts
    split
    · rfl
    · apply putsLoop_done (i := (a - va k).toNat)
      · rw [Ram.at, BitVec.ofNat_toNat, BitVec.setWidth_eq, BitVec.add_comm, BitVec.sub_add_cancel]
        exact ha
      · exact (a - va k).isLt.trans_le hn
  · repeat' split
    all_goals rfl

theorem reads_of_not_leftOver {a : BitVec 32} (ha : m a = 0) {s : List Byte}
    (hs : ∀ b ∈ s, b ≠ 0) (hfmt : Spells (fun j => fmt (i + j)) s) (h : leftOver s = false)
    (hn : s.length + 2 ^ 32 < n) :
    (printfLoop m junk va fmt n i k).val.done = true ∧
      ∀ j ∈ (printfLoop m junk va fmt n i k).log, j ≤ i + s.length := by
  fun_induction leftOver s generalizing i k n with
  | case1 =>
    obtain ⟨n, rfl⟩ := Nat.exists_eq_succ_of_ne_zero (Nat.ne_zero_of_lt hn)
    rw [printfLoop_nul (by exact hfmt)]
    simp
  | case2 c s hc ih =>
    obtain ⟨n, rfl⟩ := Nat.exists_eq_succ_of_ne_zero (Nat.ne_zero_of_lt hn)
    obtain ⟨hfst, htail⟩ := spells_cons hfmt
    simp only [List.length_cons] at hn
    obtain ⟨hdone, hlog⟩ := ih (n := n) (k := k) (fun b hb => hs b (List.mem_cons_of_mem c hb))
      htail h (by omega)
    have h0 : fmt i ≠ 0 := hfst ▸ hs c List.mem_cons_self
    rw [printfLoop_char h0 (hfst ▸ hc)]
    refine ⟨hdone, fun j hj => ?_⟩
    rw [List.length_cons]
    rcases List.mem_cons.mp hj with rfl | hj
    · omega
    · have hle := hlog j hj
      omega
  | case3 c hc => cases h
  | case4 c hc d s ih =>
    obtain ⟨n, rfl⟩ := Nat.exists_eq_succ_of_ne_zero (Nat.ne_zero_of_lt hn)
    obtain ⟨hfst, htail⟩ := spells_cons hfmt
    obtain ⟨-, htail⟩ := spells_cons htail
    simp only [List.length_cons] at hn
    obtain ⟨hdone, hlog⟩ := ih (n := n)
      (k := (vgaConvert m (junk i) va n (fmt (i + 1)) k).2) (fun b hb => hs b (by simp [hb]))
      htail h (by omega)
    rw [printfLoop_percent (hfst.trans (not_not.mp hc)) (vgaConvert_done ha _ _ (by omega))]
    refine ⟨hdone, fun j hj => ?_⟩
    simp only [List.length_cons]
    simp only [List.mem_cons] at hj
    rcases hj with rfl | rfl | hj
    · omega
    · omega
    · have hle := hlog j hj
      omega

/-- A `%` without a letter is followed by a read behind the NUL, if the loop ends at all. -/
theorem reads_of_leftOver {s : List Byte} (hs : ∀ b ∈ s, b ≠ 0)
    (hfmt : Spells (fun j => fmt (i + j)) s) (h : leftOver s = true)
    (hdone : (printfLoop m junk va fmt n i k).val.done = true) :
    ∃ j ∈ (printfLoop m junk va fmt n i k).log, i + s.length < j := by
  fun_induction leftOver s generalizing i k n with
  | case1 => cases h
  | case2 c s hc ih =>
    cases n with
    | zero => cases hdone
    | succ n =>
      obtain ⟨hfst, htail⟩ := spells_cons hfmt
      have h0 : fmt i ≠ 0 := hfst ▸ hs c List.mem_cons_self
      rw [printfLoop_char h0 (hfst ▸ hc)] at hdone ⊢
      obtain ⟨j, hj, hlt⟩ := ih (fun b hb => hs b (List.mem_cons_of_mem c hb)) htail h hdone
      exact ⟨j, List.mem_cons_of_mem i hj, by rw [List.length_cons]; omega⟩
  | case3 c hc =>
    cases n with
    | zero => cases hdone
    | succ n =>
      obtain ⟨hfst, htail⟩ := spells_cons hfmt
      have hnul : fmt (i + 1) = 0 := htail
      have hconv : vgaConvert m (junk i) va n (fmt (i + 1)) k = (⟨[0], true⟩, k) := by
        rw [hnul]
        rfl
      have hpercent : fmt i = char '%' := hfst.trans (not_not.mp hc)
      rw [printfLoop_percent hpercent (by rw [hconv])] at hdone ⊢
      -- The next round tests the byte behind the NUL.
      cases n with
      | zero => cases hdone
      | succ n =>
        refine ⟨i + 2, List.mem_cons_of_mem _ (List.mem_cons_of_mem _ ?_), by simp⟩
        exact List.mem_cons_self
  | case4 c hc d s ih =>
    cases n with
    | zero => cases hdone
    | succ n =>
      obtain ⟨hfst, htail⟩ := spells_cons hfmt
      obtain ⟨-, htail⟩ := spells_cons htail
      have hpercent : fmt i = char '%' := hfst.trans (not_not.mp hc)
      by_cases hconv : (vgaConvert m (junk i) va n (fmt (i + 1)) k).1.done = true
      · rw [printfLoop_percent hpercent hconv] at hdone ⊢
        obtain ⟨j, hj, hlt⟩ := ih (fun b hb => hs b (by simp [hb])) htail h hdone
        refine ⟨j, List.mem_cons_of_mem _ (List.mem_cons_of_mem _ hj), ?_⟩
        simp only [List.length_cons]
        omega
      · have h0 : fmt i ≠ 0 := hpercent ▸ by decide
        simp only [printfLoop, if_neg h0, if_neg (not_not.mpr hpercent), if_neg hconv] at hdone
        exact absurd hdone hconv

end Reads

/-- The loop ends within its format if and only if no `%` is left without a letter, that is,
if the format ends in an even number of `%`. -/
theorem printf_stops {m : Ram} {fmt : BitVec 32} {s : CString} (junk : Nat → Nat → Byte)
    (va : Nat → BitVec 32) (h : Spells (m.at fmt) s.bytes) :
    (∃ n, (vgaPrintf m junk fmt va n).val.done = true ∧
      ∀ i ∈ (vgaPrintf m junk fmt va n).log, i ≤ s.bytes.length) ↔
    Even (trailing s.bytes).length := by
  rw [← Nat.not_odd_iff_even, ← odd_trailing_iff, Bool.not_eq_true]
  constructor
  · rintro ⟨n, hdone, hlog⟩
    by_contra hodd
    obtain ⟨i, hi, hlt⟩ := reads_of_leftOver s.noNul (spells_from_zero h)
      (Bool.eq_true_of_not_eq_false hodd) hdone
    have hle := hlog i hi
    omega
  · intro heven
    have hnul : m (fmt + BitVec.ofNat 32 s.bytes.length) = 0 := ((spells_iff _ _).mp h).2
    obtain ⟨hdone, hlog⟩ := reads_of_not_leftOver (k := 0) hnul s.noNul (spells_from_zero h) heven
      (Nat.lt_succ_self _)
    exact ⟨_, hdone, fun i hi => by simpa using hlog i hi⟩

/-- `vga_printf("%d", 0)` -/
theorem printf_stops_letter :
    (∃ n, (vgaPrintf (formatAt1 [char '%', char 'd']) (fun _ _ => 0) 1 (fun _ => 0) n).val.done =
        true ∧
      ∀ i ∈ (vgaPrintf (formatAt1 [char '%', char 'd']) (fun _ _ => 0) 1 (fun _ => 0) n).log,
        i ≤ 2) ↔ Even (trailing [char '%', char 'd']).length :=
  printf_stops (s := ⟨[char '%', char 'd'], by decide⟩) (fun _ _ => 0) (fun _ => 0)
    (by simp [Spells, Ram.at, formatAt1])

/-- `vga_printf("5%")` -/
theorem printf_overrun :
    ¬ ∃ n, (vgaPrintf (formatAt1 [char '5', char '%']) (fun _ _ => 0) 1 (fun _ => 0) n).val.done =
        true ∧
      ∀ i ∈ (vgaPrintf (formatAt1 [char '5', char '%']) (fun _ _ => 0) 1 (fun _ => 0) n).log,
        i ≤ 2 := by
  rintro ⟨n, hdone, hlog⟩
  have hfmt : Spells ((formatAt1 [char '5', char '%']).at 1) [char '5', char '%'] := by
    simp [Spells, Ram.at, formatAt1]
  obtain ⟨i, hi, hlt⟩ := reads_of_leftOver (by decide) (spells_from_zero hfmt) rfl hdone
  exact absurd (hlog i hi) (by simpa using hlt)

end SengOs.Console
