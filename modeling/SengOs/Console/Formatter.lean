import SengOs.Console.Printf

/-!
# What `vga_printf` prints

`reference` says what a format and its arguments mean: the text, with each conversion replaced
by its argument. `vga_printf` prints just that (`printf_reference`). On the way, the loop of
`Printf` is an implementation of the list function `Shell.vgaPrintf` (`printfLoop_val`).
-/

namespace SengOs.Console

open ByteMemory CString Numeral Shell

/-! ## Memory -/

/-- A string in memory is shorter than the address space. -/
theorem Ram.length_lt {m : Ram} {a : BitVec 32} {s : List Byte} (hs : ∀ b ∈ s, b ≠ 0)
    (h : Spells (m.at a) s) : s.length < 2 ^ 32 := by
  obtain ⟨hbytes, hnul⟩ := (spells_iff _ _).mp h
  by_contra hlong
  have hwrap : m.at a (s.length - 2 ^ 32) = m.at a s.length := by
    have hoff : BitVec.ofNat 32 (s.length - 2 ^ 32) = BitVec.ofNat 32 s.length := by
      apply BitVec.eq_of_toNat_eq
      simp only [BitVec.toNat_ofNat]
      omega
    rw [Ram.at, hoff, Ram.at]
  have hbyte := hbytes (s.length - 2 ^ 32) (by omega)
  rw [hwrap, hnul] at hbyte
  exact hs 0 (List.mem_of_getElem? hbyte) rfl

/-- A string argument is not at the null pointer, and its bytes are at its address. -/
def Placed (m : Ram) : VaArg → Prop
  | .word _ => True
  | .str addr s => addr ≠ 0 ∧ Spells (m.at addr) s.bytes

/-- The words from number `k` on are the arguments. -/
def Passed (m : Ram) (va : Nat → BitVec 32) : Nat → List VaArg → Prop
  | _, [] => True
  | k, arg :: args => va k = arg.toWord ∧ Placed m arg ∧ Passed m va (k + 1) args

theorem vgaPuts_str {m : Ram} {addr : BitVec 32} {s : CString} (h : Placed m (.str addr s))
    {n : Nat} (hn : 2 ^ 32 ≤ n) : vgaPuts m addr n = ⟨s.bytes, true⟩ := by
  have hlen := Ram.length_lt s.noNul h.2
  rw [vgaPuts, if_neg h.1]
  exact putsLoop_spells s.noNul h.2 (by omega)

/-! ## The list function -/

section Implements

variable {m : Ram} {va : Nat → BitVec 32} {n : Nat}

/-- What the first argument must be. -/
theorem Passed.of_vaArg {print : VaArg → Option (List Byte)} {k : Nat} {args rest : List VaArg}
    {out : List Byte} (hargs : Passed m va k args) (h : vaArg print args = some (out, rest)) :
    ∃ arg, print arg = some out ∧ va k = arg.toWord ∧ Placed m arg ∧
      Passed m va (k + 1) rest := by
  obtain ⟨arg, rfl⟩ := args_of_vaArg h
  obtain ⟨out', hout, heq⟩ := Option.map_eq_some_iff.mp h
  cases heq
  exact ⟨arg, hout, hargs.1, hargs.2.1, hargs.2.2⟩

/-- A conversion that prints a word. -/
theorem Passed.of_word {k : Nat} {args rest : List VaArg} {out : List Byte}
    (hargs : Passed m va k args) (print : BitVec 32 → List Byte)
    (h : vaArg (fun arg => some (print arg.toWord)) args = some (out, rest)) :
    print (va k) = out ∧ Passed m va (k + 1) rest := by
  obtain ⟨arg, hout, hva, -, hrest⟩ := hargs.of_vaArg h
  rw [hva]
  exact ⟨Option.some.inj hout, hrest⟩

theorem printUint_word (w : BitVec 32) {base : Nat} (hb : 2 ≤ base) (buf : Recorded Nat Byte) :
    (printUint w.toNat base buf).1 = Shell.printUint w.toNat base := by
  have hfit : w.toNat < base ^ 32 := w.isLt.trans_le (Nat.pow_le_pow_left hb 32)
  rw [printUint_text hb, printUint_eq hb hfit]

theorem printInt_word (w : BitVec 32) (buf : Recorded Nat Byte) :
    printInt w buf = Shell.printInt w.toInt := by
  have hfit : w.toInt.natAbs < 10 ^ 32 := by
    have hlow := BitVec.le_toInt w
    have hhigh := BitVec.toInt_lt (x := w)
    norm_num at *
    omega
  rw [printInt_text, signed, Shell.printInt, printUint_eq (by decide) hfit]
  split
  · rfl
  · have habs : w.toInt.toNat = w.toInt.natAbs := by omega
    rw [habs, printUint_eq (by decide) hfit]

theorem vgaConvert_val (junk : Nat → Byte) {c : Byte} {k : Nat} {args rest : List VaArg}
    {out : List Byte} (hargs : Passed m va k args) (h : Shell.vgaConvert c args = some (out, rest))
    (hn : 2 ^ 32 ≤ n) :
    ∃ k', vgaConvert m junk va n c k = (⟨out, true⟩, k') ∧ Passed m va k' rest := by
  unfold Shell.vgaConvert at h
  unfold vgaConvert
  by_cases hs : c = char 's'
  · rw [if_pos hs] at h ⊢
    obtain ⟨arg, hout, hva, hplaced, hrest⟩ := hargs.of_vaArg h
    cases arg with
    | word w => cases hout
    | str addr s =>
      cases hout
      refine ⟨k + 1, ?_, hrest⟩
      rw [hva, VaArg.toWord, vgaPuts_str hplaced hn]
  rw [if_neg hs] at h ⊢
  by_cases hc : c = char 'c'
  · rw [if_pos hc] at h ⊢
    obtain ⟨hout, hrest⟩ := hargs.of_word (fun w => [w.setWidth 8]) h
    exact ⟨k + 1, by rw [hout], hrest⟩
  rw [if_neg hc] at h ⊢
  by_cases hd : c = char 'd'
  · rw [if_pos hd] at h ⊢
    obtain ⟨hout, hrest⟩ := hargs.of_word (fun w => Shell.printInt w.toInt) h
    exact ⟨k + 1, by rw [printInt_word, hout], hrest⟩
  rw [if_neg hd] at h ⊢
  by_cases hu : c = char 'u'
  · rw [if_pos hu] at h ⊢
    obtain ⟨hout, hrest⟩ := hargs.of_word (fun w => Shell.printUint w.toNat 10) h
    exact ⟨k + 1, by rw [printUint_word _ (by decide), hout], hrest⟩
  rw [if_neg hu] at h ⊢
  by_cases hx : c = char 'x'
  · rw [if_pos hx] at h ⊢
    obtain ⟨hout, hrest⟩ := hargs.of_word (fun w => Shell.printUint w.toNat 16) h
    exact ⟨k + 1, by rw [printUint_word _ (by decide), hout], hrest⟩
  rw [if_neg hx] at h ⊢
  -- The other letters take no argument.
  refine ⟨k, ?_, ?_⟩ <;> split at h <;> cases h
  · rw [if_pos ‹_›]
  · rw [if_neg ‹_›]
  · exact hargs
  · exact hargs

/-! ## The loop -/

variable {junk : Nat → Nat → Byte} {fmt : Nat → Byte} {i k : Nat}

theorem printfLoop_nul (h : fmt i = 0) :
    printfLoop m junk va fmt (n + 1) i k = ⟨⟨[], true⟩, [i]⟩ := by
  simp only [printfLoop, if_pos h]
  rfl

theorem printfLoop_char (h0 : fmt i ≠ 0) (h : fmt i ≠ char '%') :
    let rest := printfLoop m junk va fmt n (i + 1) k
    printfLoop m junk va fmt (n + 1) i k = ⟨rest.val.emit [fmt i], i :: rest.log⟩ := by
  simp only [printfLoop, if_neg h0, if_pos h]
  exact congrArg (Traced.mk _) (by simp)

theorem printfLoop_percent (h : fmt i = char '%')
    (hdone : (vgaConvert m (junk i) va n (fmt (i + 1)) k).1.done = true) :
    let r := vgaConvert m (junk i) va n (fmt (i + 1)) k
    let rest := printfLoop m junk va fmt n (i + 2) r.2
    printfLoop m junk va fmt (n + 1) i k =
      ⟨rest.val.emit r.1.text, i :: (i + 1) :: rest.log⟩ := by
  have h0 : fmt i ≠ 0 := h ▸ by decide
  simp only [printfLoop, if_neg h0, if_neg (not_not.mpr h), if_pos hdone]
  exact congrArg (Traced.mk _) (by simp)

/-- From an offset on, a pointer spells a string character by character. -/
theorem spells_cons {c : Byte} {s : List Byte} (h : Spells (fun j => fmt (i + j)) (c :: s)) :
    fmt i = c ∧ Spells (fun j => fmt (i + 1 + j)) s := by
  refine ⟨h.1, (spells_congr fun j _ => congrArg fmt ?_).mp h.2⟩
  omega

theorem spells_from_zero {p : Nat → Byte} {s : List Byte} (h : Spells p s) :
    Spells (fun j => p (0 + j)) s :=
  (spells_congr fun j _ => by rw [Nat.zero_add]).mp h

/-- The loop prints what the list function says. -/
theorem printfLoop_val {s : List Byte} (hs : ∀ b ∈ s, b ≠ 0)
    (hfmt : Spells (fun j => fmt (i + j)) s) {args rest : List VaArg} {out : List Byte}
    (h : Shell.vgaPrintf s args = some (out, rest)) (hargs : Passed m va k args)
    (hn : s.length + 2 ^ 32 < n) :
    (printfLoop m junk va fmt n i k).val = ⟨out, true⟩ := by
  fun_induction Shell.vgaPrintf s args generalizing i k n out rest with
  | case1 args =>
    cases h
    obtain ⟨n, rfl⟩ := Nat.exists_eq_succ_of_ne_zero (Nat.ne_zero_of_lt hn)
    rw [printfLoop_nul (by exact hfmt)]
  | case2 c s args hc ih =>
    obtain ⟨n, rfl⟩ := Nat.exists_eq_succ_of_ne_zero (Nat.ne_zero_of_lt hn)
    obtain ⟨hfst, htail⟩ := spells_cons hfmt
    simp only [Option.bind_eq_bind, Option.bind_eq_some_iff] at h
    obtain ⟨r, hr, heq⟩ := h
    cases heq
    simp only [List.length_cons] at hn
    have hrest := ih (n := n) (fun b hb => hs b (List.mem_cons_of_mem c hb)) htail hr hargs
      (by omega)
    have h0 : fmt i ≠ 0 := hfst ▸ hs c List.mem_cons_self
    rw [printfLoop_char h0 (hfst ▸ hc)]
    simp only [hrest, hfst]
    rfl
  | case3 args c hc => cases h
  | case4 args c hc d s ih =>
    obtain ⟨n, rfl⟩ := Nat.exists_eq_succ_of_ne_zero (Nat.ne_zero_of_lt hn)
    obtain ⟨hfst, htail⟩ := spells_cons hfmt
    obtain ⟨hsnd, htail⟩ := spells_cons htail
    simp only [Option.bind_eq_bind, Option.bind_eq_some_iff] at h
    obtain ⟨o, ho, r, hr, heq⟩ := h
    cases heq
    simp only [List.length_cons] at hn
    obtain ⟨k', hconv, hargs'⟩ := vgaConvert_val (junk i) hargs ho (by omega : 2 ^ 32 ≤ n)
    have hrest := ih o (fun b hb => hs b (by simp [hb])) htail hr hargs' (by omega : _ < n)
    have hpercent : fmt i = char '%' := hfst.trans (not_not.mp hc)
    rw [printfLoop_percent hpercent (by rw [hsnd, hconv])]
    simp only [hsnd, hconv, hrest]
    rfl

/-! ## The reference -/

/-- The text of an argument under a conversion of its kind. -/
def conversion (c : Byte) : VaArg → Option (List Byte)
  | .str _ s => if c = char 's' then some s.bytes else none
  | .word w =>
    if c = char 'c' then some [w.setWidth 8]
    else if c = char 'd' then some (signed w.toInt)
    else if c = char 'u' then some (numeral 10 w.toNat)
    else if c = char 'x' then some (numeral 16 w.toNat)
    else none

/-- The text of a format in which each `%` is followed by `s`, `c`, `d`, `u`, `x` or `%`, with
one argument of the matching kind for each conversion. -/
def reference : List Byte → List VaArg → Option (List Byte)
  | [], [] => some []
  | [], _ :: _ => none
  | c :: s, args =>
    if c ≠ char '%' then (reference s args).map (c :: ·)
    else
      match s with
      | [] => none
      | d :: s =>
        if d = char '%' then (reference s args).map (char '%' :: ·)
        else
          match args with
          | [] => none
          | arg :: args => do
            let text ← conversion d arg
            let rest ← reference s args
            some (text ++ rest)

theorem vgaConvert_of_conversion {c : Byte} {arg : VaArg} {text : List Byte}
    (h : conversion c arg = some text) (args : List VaArg) :
    Shell.vgaConvert c (arg :: args) = some (text, args) := by
  unfold Shell.vgaConvert
  cases arg with
  | str addr s =>
    obtain ⟨hc, htext⟩ := (Option.ite_none_right_eq_some).mp h
    cases htext
    rw [if_pos hc]
    rfl
  | word w =>
    have hs : c ≠ char 's' := by
      rintro rfl
      simp [conversion, char] at h
    rw [if_neg hs]
    dsimp only [conversion] at h
    by_cases hc : c = char 'c'
    · rw [if_pos hc] at h ⊢
      cases h
      rfl
    rw [if_neg hc] at h ⊢
    by_cases hd : c = char 'd'
    · rw [if_pos hd] at h ⊢
      rw [← printInt_text w ⟨fun _ => 0, []⟩, printInt_word] at h
      cases h
      rfl
    rw [if_neg hd] at h ⊢
    by_cases hu : c = char 'u'
    · rw [if_pos hu] at h ⊢
      rw [← printUint_eq (by decide) (w.isLt.trans (by decide))] at h
      cases h
      rfl
    rw [if_neg hu] at h ⊢
    by_cases hx : c = char 'x'
    · rw [if_pos hx] at h ⊢
      rw [← printUint_eq (by decide) (w.isLt.trans (by decide))] at h
      cases h
      rfl
    · rw [if_neg hx] at h
      cases h

theorem vgaPrintf_cons {c : Byte} (hc : c ≠ char '%') (s : List Byte) (args : List VaArg) :
    Shell.vgaPrintf (c :: s) args =
      (Shell.vgaPrintf s args).map fun r => (c :: r.1, r.2) :=
  vgaPrintf_append (s := [c]) (by simpa using hc.symm) s args

theorem vgaPrintf_of_reference {s : List Byte} {args : List VaArg} {out : List Byte}
    (h : reference s args = some out) : Shell.vgaPrintf s args = some (out, []) := by
  fun_induction reference s args generalizing out with
  | case1 =>
    cases h
    rfl
  | case2 => cases h
  | case3 c s args hc ih =>
    obtain ⟨rest, hrest, rfl⟩ := Option.map_eq_some_iff.mp h
    rw [vgaPrintf_cons hc, ih hrest]
    rfl
  | case4 => cases h
  | case5 c args hc s ih =>
    obtain ⟨rest, hrest, rfl⟩ := Option.map_eq_some_iff.mp h
    have hpercent : Shell.vgaConvert (char '%') args = some ([char '%'], args) := rfl
    rw [not_not.mp hc, vgaPrintf_percent, hpercent, Option.bind_some, ih hrest]
    rfl
  | case6 => cases h
  | case7 c hc d s _ arg args ih =>
    simp only [Option.bind_eq_bind, Option.bind_eq_some_iff] at h
    obtain ⟨text, htext, rest, hrest, heq⟩ := h
    cases heq
    rw [not_not.mp hc, vgaPrintf_percent, vgaConvert_of_conversion htext, Option.bind_some,
      ih hrest]
    rfl

end Implements

/-- `vga_printf` prints what its format means, and `print_uint` stays in its buffer. -/
theorem printf_reference {m : Ram} {fmt : BitVec 32} {va : Nat → BitVec 32} {s : CString}
    {args : List VaArg} {out : List Byte} (junk : Nat → Nat → Byte)
    (hfmt : Spells (m.at fmt) s.bytes) (hargs : Passed m va 0 args)
    (href : reference s.bytes args = some out) :
    (∃ n₀, ∀ n ≥ n₀, (vgaPrintf m junk fmt va n).val = ⟨out, true⟩) ∧
    ∀ (w : BitVec 32) (base : Nat) (buf : Nat → Byte), base = 10 ∨ base = 16 →
      ∀ i ∈ (printUint w.toNat base ⟨buf, []⟩).2.writes, i < 32 := by
  refine ⟨⟨s.bytes.length + 2 ^ 32 + 1, fun n hn => ?_⟩, fun w base buf hbase i hi => ?_⟩
  · exact printfLoop_val s.noNul (spells_from_zero hfmt) (vgaPrintf_of_reference href) hargs
      (by omega)
  · have hb : 2 ≤ base := by omega
    rcases printUint_writes hb ⟨buf, []⟩ i hi with hold | hnew
    · cases hold
    · exact hnew.trans_le
        (length_digits_le hb (w.isLt.trans_le (Nat.pow_le_pow_left hb 32)))

/-- A format at address 1 in a memory that is empty otherwise. -/
def formatAt1 (s : List Byte) : Ram := fun a => if a = 0 then 0 else s.getD (a.toNat - 1) 0

/-- `vga_printf("%d", -2147483648)` -/
theorem printf_reference_min : (∃ n₀, ∀ n ≥ n₀,
      (vgaPrintf (formatAt1 [char '%', char 'd']) (fun _ _ => 0) 1 (fun _ => 0x80000000) n).val =
        ⟨chars "-2147483648", true⟩) ∧
    ∀ (w : BitVec 32) (base : Nat) (buf : Nat → Byte), base = 10 ∨ base = 16 →
      ∀ i ∈ (printUint w.toNat base ⟨buf, []⟩).2.writes, i < 32 :=
  printf_reference (s := ⟨[char '%', char 'd'], by decide⟩) (fun _ _ => 0)
    (by simp [Spells, Ram.at, formatAt1])
    (show Passed _ _ 0 [.word 0x80000000] from ⟨rfl, trivial, trivial⟩) (by
      simp [reference, conversion, char, signed, numeral, chars, digitByte])

end SengOs.Console
