import SengOs.Lib.Numeral
import SengOs.Lib.Recorded
import SengOs.Lib.Traced
import SengOs.Shell.Vga

/-!
# `vga_printf`, read by read

Here the format and the strings lie in memory, at 32-bit addresses, and the arguments are the
words on the stack: whatever the caller passed, there is always a next one. Each loop runs
for at most `n` rounds; `done` says that it has ended by then. The reads of the format are
recorded by their offset. Nothing that is printed is read again: the text lies outside the
frame buffer.
-/

namespace SengOs.Console

open ByteMemory CString Numeral Shell

/-- The bytes of memory. -/
abbrev Ram := BitVec 32 → Byte

/-- The pointer `a`. -/
def Ram.at (m : Ram) (a : BitVec 32) : Nat → Byte := fun i => m (a + BitVec.ofNat 32 i)

/-- The characters passed to `vga_putchar`, and whether the loop has ended. -/
structure Output where
  text : List Byte
  done : Bool
  deriving DecidableEq

def Output.emit (s : List Byte) (o : Output) : Output := ⟨s ++ o.text, o.done⟩

/-! ## Strings -/

/-- `while (*str) vga_putchar(*str++);` -/
def putsLoop (str : Nat → Byte) : Nat → Output
  | 0 => ⟨[], false⟩
  | n + 1 => if str 0 = 0 then ⟨[], true⟩ else (putsLoop (fun i => str (i + 1)) n).emit [str 0]

/-- `vga_puts` -/
def vgaPuts (m : Ram) (str : BitVec 32) (n : Nat) : Output :=
  if str = 0 then ⟨[], true⟩ else putsLoop (m.at str) n

theorem putsLoop_spells {p : Nat → Byte} {s : List Byte} (hs : ∀ b ∈ s, b ≠ 0) (h : Spells p s)
    {n : Nat} (hn : s.length < n) : putsLoop p n = ⟨s, true⟩ := by
  induction s generalizing p n with
  | nil =>
    cases n with
    | zero => cases hn
    | succ n => exact if_pos h
  | cons c s ih =>
    cases n with
    | zero => simp at hn
    | succ n =>
      have hc : p 0 ≠ 0 := h.1 ▸ hs c List.mem_cons_self
      rw [putsLoop, if_neg hc, ih (fun b hb => hs b (List.mem_cons_of_mem c hb)) h.2
        (Nat.lt_of_succ_lt_succ hn), Output.emit, h.1]
      rfl

/-- The loop ends if there is a NUL among the bytes that it may read. -/
theorem putsLoop_done {p : Nat → Byte} {i n : Nat} (h : p i = 0) (hi : i < n) :
    (putsLoop p n).done = true := by
  induction n generalizing p i with
  | zero => omega
  | succ n ih =>
    rw [putsLoop]
    split
    · rfl
    · rename_i h0
      cases i with
      | zero => exact absurd h h0
      | succ i => exact ih (p := fun i => p (i + 1)) h (Nat.lt_of_succ_lt_succ hi)

/-! ## Numbers -/

/-- The loop of `print_uint` over the digits, from index `i` of its buffer on. Each round
divides `n`, so that `n` rounds are enough. -/
def digitLoop (base : Nat) : Nat → Nat → Nat → Recorded Nat Byte → Nat × Recorded Nat Byte
  | 0, _, i, buf => (i, buf)
  | rounds + 1, n, i, buf =>
    if n > 0 then
      let r := n % base
      digitLoop base rounds (n / base) (i + 1)
        (buf.write i (BitVec.ofNat 8 (if r < 10 then 0x30 + r else 0x61 + r - 10)))
    else (i, buf)

/-- `while (i > 0) vga_putchar(buf[--i]);` -/
def readBack (buf : Recorded Nat Byte) : Nat → List Byte
  | 0 => []
  | i + 1 => buf.get i :: readBack buf i

/-- `print_uint`: what it prints, and its buffer at the end. -/
def printUint (n base : Nat) (buf : Recorded Nat Byte) : List Byte × Recorded Nat Byte :=
  if n = 0 then ([char '0'], buf)
  else
    let r := digitLoop base n n 0 buf
    (readBack r.2 r.1, r.2)

/-- The case `%d` -/
def printInt (v : BitVec 32) (buf : Recorded Nat Byte) : List Byte :=
  if v.slt 0 then char '-' :: (printUint (-v).toNat 10 buf).1 else (printUint v.toNat 10 buf).1

theorem digitLoop_pos (base rounds i : Nat) (buf : Recorded Nat Byte) {n : Nat} (h : n > 0) :
    digitLoop base (rounds + 1) n i buf =
      digitLoop base rounds (n / base) (i + 1) (buf.write i (digitByte (n % base))) := by
  rw [digitLoop, if_pos h]
  rfl

/-- The loop appends the digits of `n` to what is in the buffer. -/
theorem digitLoop_spec {base : Nat} (hb : 1 < base) {rounds n : Nat} (hn : n ≤ rounds) (i : Nat)
    (buf : Recorded Nat Byte) :
    let r := digitLoop base rounds n i buf
    r.1 = i + (Nat.digits base n).length ∧ (∀ j, j < i → r.2.get j = buf.get j) ∧
      (∀ j d, (Nat.digits base n)[j]? = some d → r.2.get (i + j) = digitByte d) ∧
      ∀ j ∈ r.2.writes, j ∈ buf.writes ∨ j < i + (Nat.digits base n).length := by
  induction rounds generalizing n i buf with
  | zero =>
    cases Nat.le_zero.mp hn
    simp +contextual [digitLoop]
  | succ rounds ih =>
    rcases Nat.eq_zero_or_pos n with rfl | hpos
    · simp +contextual [digitLoop]
    · have hdiv : n / base < n := Nat.div_lt_self hpos hb
      have hshift (l : Nat) : i + (l + 1) = i + 1 + l := by omega
      obtain ⟨hlen, hkeep, hdigit, hwrites⟩ := ih (n := n / base) (by omega) (i + 1)
        (buf.write i (digitByte (n % base)))
      rw [digitLoop_pos base rounds i buf hpos, Nat.digits_def' hb hpos, List.length_cons,
        hshift (Nat.digits base (n / base)).length]
      refine ⟨hlen, fun j hj => ?_, fun j d hd => ?_, fun j hj => ?_⟩
      · exact (hkeep j (by omega)).trans (Recorded.get_write_of_ne _ _ (Nat.ne_of_lt hj))
      · cases j with
        | zero =>
          cases hd
          exact (hkeep i (Nat.lt_succ_self i)).trans (Recorded.get_write_self ..)
        | succ j =>
          rw [hshift j]
          exact hdigit j d hd
      · rcases hwrites j hj with hold | hnew
        · rcases List.mem_append.mp hold with hold | hself
          · exact .inl hold
          · have hj : j = i := List.mem_singleton.mp hself
            exact .inr (by omega)
        · exact .inr hnew

theorem readBack_eq {buf : Recorded Nat Byte} {ds : List Nat}
    (h : ∀ j d, ds[j]? = some d → buf.get j = digitByte d) :
    readBack buf ds.length = ds.reverse.map digitByte := by
  induction ds using List.reverseRecOn with
  | nil => rfl
  | append_singleton ds d ih =>
    have hlast : buf.get ds.length = digitByte d := h _ d (by simp)
    have hinit : ∀ j e, ds[j]? = some e → buf.get j = digitByte e := by
      intro j e he
      apply h
      rw [List.getElem?_append_left (List.getElem?_eq_some_iff.mp he).1, he]
    rw [List.length_append, List.length_singleton, readBack, hlast, ih hinit]
    simp

section PrintUint

variable {base n : Nat} (hb : 1 < base) (buf : Recorded Nat Byte)
include hb

theorem printUint_text : (printUint n base buf).1 = numeral base n := by
  unfold printUint numeral
  split
  · rfl
  · obtain ⟨hlen, -, hdigit, -⟩ := digitLoop_spec hb le_rfl 0 buf (n := n)
    dsimp only
    rw [hlen, Nat.zero_add]
    exact readBack_eq fun j d hd => by simpa using hdigit j d hd

/-- The buffer is written at the places of the digits. -/
theorem printUint_writes :
    ∀ i ∈ (printUint n base buf).2.writes, i ∈ buf.writes ∨ i < (Nat.digits base n).length := by
  unfold printUint
  split
  · exact fun i hi => .inl hi
  · obtain ⟨-, -, -, hwrites⟩ := digitLoop_spec hb le_rfl 0 buf (n := n)
    simpa using hwrites

end PrintUint

/-- `%d`, also where `-v` wraps. -/
theorem printInt_text (v : BitVec 32) (buf : Recorded Nat Byte) :
    printInt v buf = signed v.toInt := by
  have hv := v.isLt
  unfold printInt signed
  rw [printUint_text (by decide), printUint_text (by decide)]
  by_cases hneg : v.toInt < 0
  · have habs : (-v).toNat = v.toInt.natAbs := by
      rw [BitVec.toInt_eq_toNat_cond] at hneg ⊢
      rw [BitVec.toNat_neg]
      split at hneg <;> omega
    rw [if_pos (BitVec.slt_iff_toInt_lt.mpr hneg), if_pos hneg, habs]
    rfl
  · have habs : v.toNat = v.toInt.natAbs := by
      rw [BitVec.toInt_eq_toNat_cond] at hneg ⊢
      split at hneg <;> omega
    rw [if_neg (fun h => hneg (BitVec.slt_iff_toInt_lt.mp h)), if_neg hneg, habs]

/-! ## The format -/

/-- The `switch` on the letter `c`, with the arguments from number `k` on: the output, and the
number of the next argument. The local buffer of `print_uint` starts with the bytes `junk`. -/
def vgaConvert (m : Ram) (junk : Nat → Byte) (va : Nat → BitVec 32) (n : Nat) (c : Byte)
    (k : Nat) : Output × Nat :=
  if c = char 's' then (vgaPuts m (va k) n, k + 1)
  else if c = char 'c' then (⟨[(va k).setWidth 8], true⟩, k + 1)
  else if c = char 'd' then (⟨printInt (va k) ⟨junk, []⟩, true⟩, k + 1)
  else if c = char 'u' then (⟨(printUint (va k).toNat 10 ⟨junk, []⟩).1, true⟩, k + 1)
  else if c = char 'x' then (⟨(printUint (va k).toNat 16 ⟨junk, []⟩).1, true⟩, k + 1)
  else if c = char '%' then (⟨[char '%'], true⟩, k)
  else (⟨[c], true⟩, k)

/-- The loop of `vga_printf`, from offset `i` of its format on. -/
def printfLoop (m : Ram) (junk : Nat → Nat → Byte) (va : Nat → BitVec 32) (fmt : Nat → Byte) :
    Nat → Nat → Nat → Traced Nat Output
  | 0, _, _ => pure ⟨[], false⟩
  | n + 1, i, k => do
    Traced.access [i]
    if fmt i = 0 then pure ⟨[], true⟩
    else if fmt i ≠ char '%' then do
      let rest ← printfLoop m junk va fmt n (i + 1) k
      pure (rest.emit [fmt i])
    else do
      Traced.access [i + 1]
      let r := vgaConvert m (junk i) va n (fmt (i + 1)) k
      if r.1.done then do
        let rest ← printfLoop m junk va fmt n (i + 2) r.2
        pure (rest.emit r.1.text)
      else pure r.1

/-- `vga_printf`, with the words `va` behind its format on the stack. -/
def vgaPrintf (m : Ram) (junk : Nat → Nat → Byte) (fmt : BitVec 32) (va : Nat → BitVec 32)
    (n : Nat) : Traced Nat Output :=
  printfLoop m junk va (m.at fmt) n 0 0

end SengOs.Console
