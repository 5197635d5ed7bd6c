import SengOs.Lib.Traced
import SengOs.Shell.RoundTrip

/-!
# `k_strncmp`

The condition of the loop counts `n` down before it looks at the strings, so that `n` is
`2^32 - 1` behind the loop just when all `n` bytes were compared; the function takes that for
"equal". `strncmpLoop_stops` says where the loop stops, and `strncmp_exact` what the result
and the reads are. `kStrncmp` is the same function without the counter (`kStrncmpLoop_val`).
-/

namespace SengOs.Shell

open ByteMemory CString

/-- The operands of `k_strncmp`. -/
inductive Operand where
  | a | b
  deriving DecidableEq

/-- `while (n-- && *a && (*a == *b)) { a++; b++; }`, with the pointers at offset `i`: their
offset and `n` behind the loop. -/
def strncmpLoop (a b : Nat → Byte) : Nat → Nat → Traced (Operand × Nat) (Nat × Nat)
  | 0, i => pure (i, 2 ^ 32 - 1)
  | n + 1, i => do
    Traced.access [(.a, i)]
    if a i = 0 then pure (i, n)
    else do
      Traced.access [(.a, i), (.b, i)]
      if a i = b i then strncmpLoop a b n (i + 1) else pure (i, n)

/-- `k_strncmp`, with the bytes that it reads. -/
def kStrncmpLoop (a b : Nat → Byte) (n : Nat) : Traced (Operand × Nat) Int := do
  let r ← strncmpLoop a b n 0
  if r.2 = 2 ^ 32 - 1 then pure 0
  else do
    Traced.access [(.a, r.1), (.b, r.1)]
    pure ((a r.1).toNat - (b r.1).toNat)

/-! ## Where the loop stops -/

/-- The bytes before offset `k` are the same in both strings and not the terminator. -/
def SameBefore (a b : Nat → Byte) (k : Nat) : Prop := ∀ j < k, a j = b j ∧ a j ≠ 0

/-- The loop stops behind the bytes that are the same, and `n` tells whether these were all. -/
structure Stops (a b : Nat → Byte) (n : Nat) (r : Traced (Operand × Nat) (Nat × Nat)) :
    Prop where
  same : SameBefore a b r.val.1
  stop : (r.val.1 = n ∧ r.val.2 = 2 ^ 32 - 1) ∨
    (r.val.1 < n ∧ r.val.2 < n ∧ (a r.val.1 = 0 ∨ a r.val.1 ≠ b r.val.1))
  reads : ∀ x ∈ r.log, x.2 < n ∧ x.2 ≤ r.val.1

section Loop

variable {a b : Nat → Byte} {n i : Nat}

theorem strncmpLoop_nul (h : a i = 0) :
    strncmpLoop a b (n + 1) i = ⟨(i, n), [(.a, i)]⟩ := by
  simp only [strncmpLoop, if_pos h]
  rfl

theorem strncmpLoop_diff (h0 : a i ≠ 0) (h : a i ≠ b i) :
    strncmpLoop a b (n + 1) i = ⟨(i, n), [(.a, i), (.a, i), (.b, i)]⟩ := by
  simp only [strncmpLoop, if_neg h0, if_neg h]
  rfl

theorem strncmpLoop_same (h0 : a i ≠ 0) (h : a i = b i) :
    let r := strncmpLoop a b n (i + 1)
    strncmpLoop a b (n + 1) i = ⟨r.val, (.a, i) :: (.a, i) :: (.b, i) :: r.log⟩ := by
  simp only [strncmpLoop, if_neg h0, if_pos h]
  rfl

theorem le_strncmpLoop : i ≤ (strncmpLoop a b n i).val.1 := by
  induction n generalizing i with
  | zero => exact le_rfl
  | succ n ih =>
    by_cases h0 : a i = 0
    · rw [strncmpLoop_nul h0]
    by_cases h : a i = b i
    · rw [strncmpLoop_same h0 h]
      exact (Nat.le_succ i).trans ih
    · rw [strncmpLoop_diff h0 h]

theorem strncmpLoop_stops (h : SameBefore a b i) :
    Stops a b (i + n) (strncmpLoop a b n i) := by
  induction n generalizing i with
  | zero => exact ⟨h, .inl ⟨rfl, rfl⟩, nofun⟩
  | succ n ih =>
    have hlt : i < i + (n + 1) := by omega
    have hcount : n < i + (n + 1) := by omega
    by_cases h0 : a i = 0
    · rw [strncmpLoop_nul h0]
      refine ⟨h, .inr ⟨hlt, hcount, .inl h0⟩, fun x hx => ?_⟩
      cases List.mem_singleton.mp hx
      exact ⟨hlt, le_rfl⟩
    by_cases heq : a i = b i
    · have hnext : SameBefore a b (i + 1) := by
        intro j hj
        rcases Nat.lt_succ_iff_lt_or_eq.mp hj with hj | rfl
        · exact h j hj
        · exact ⟨heq, h0⟩
      have hstops := ih hnext
      rw [Nat.add_right_comm, Nat.add_assoc] at hstops
      rw [strncmpLoop_same h0 heq]
      refine ⟨hstops.same, hstops.stop, fun x hx => ?_⟩
      have hle : i ≤ (strncmpLoop a b n (i + 1)).val.1 := (Nat.le_succ i).trans le_strncmpLoop
      simp only [List.mem_cons] at hx
      rcases hx with rfl | rfl | rfl | hx
      · exact ⟨hlt, hle⟩
      · exact ⟨hlt, hle⟩
      · exact ⟨hlt, hle⟩
      · exact hstops.reads x hx
    · rw [strncmpLoop_diff h0 heq]
      refine ⟨h, .inr ⟨hlt, hcount, .inr heq⟩, fun x hx => ?_⟩
      simp only [List.mem_cons, List.not_mem_nil, or_false] at hx
      rcases hx with rfl | rfl | rfl <;> exact ⟨hlt, le_rfl⟩

/-- The result for the offset and the counter behind the loop. -/
def resultOf (a b : Nat → Byte) (r : Nat × Nat) : Int :=
  if r.2 = 2 ^ 32 - 1 then 0 else (a r.1).toNat - (b r.1).toNat

theorem val_kStrncmpLoop :
    (kStrncmpLoop a b n).val = resultOf a b (strncmpLoop a b n 0).val := by
  simp [kStrncmpLoop, resultOf]

theorem resultOf_strncmpLoop (hn : n < 2 ^ 32) :
    resultOf a b (strncmpLoop a b n i).val =
      kStrncmp (fun j => a (i + j)) (fun j => b (i + j)) n := by
  induction n generalizing i with
  | zero => rfl
  | succ n ih =>
    have hcount : n ≠ 2 ^ 32 - 1 := by omega
    rw [kStrncmp]
    by_cases h0 : a i = 0
    · rw [strncmpLoop_nul h0, if_neg fun h => h.1 h0, resultOf, if_neg hcount]
      rfl
    by_cases heq : a i = b i
    · have hshift (j : Nat) : i + 1 + j = i + (j + 1) := by omega
      have hrest := ih (i := i + 1) (by omega)
      simp only [hshift] at hrest
      rw [strncmpLoop_same h0 heq, if_pos ⟨h0, heq⟩]
      exact hrest
    · rw [strncmpLoop_diff h0 heq, if_neg fun h => heq h.2, resultOf, if_neg hcount]
      rfl

/-- `kStrncmp` computes the same without the counter. -/
theorem kStrncmpLoop_val (hn : n < 2 ^ 32) : (kStrncmpLoop a b n).val = kStrncmp a b n := by
  rw [val_kStrncmpLoop, resultOf_strncmpLoop hn]
  simp only [Nat.zero_add]

/-- What is read lies before the offset `n`, and not behind a difference or a terminator. -/
theorem reads_kStrncmpLoop (hn : n < 2 ^ 32) {x : Operand × Nat}
    (hx : x ∈ (kStrncmpLoop a b n).log) : x.2 < n ∧ SameBefore a b x.2 := by
  have hstops : Stops a b (0 + n) (strncmpLoop a b n 0) := strncmpLoop_stops nofun
  rw [Nat.zero_add] at hstops
  have hsame {k : Nat} (hk : k ≤ (strncmpLoop a b n 0).val.1) : SameBefore a b k :=
    fun j hj => hstops.same j (hj.trans_le hk)
  rw [kStrncmpLoop, Traced.log_bind, List.mem_append] at hx
  rcases hx with hx | hx
  · exact ⟨(hstops.reads x hx).1, hsame (hstops.reads x hx).2⟩
  · rcases hstops.stop with ⟨-, hall⟩ | ⟨hlt, hcount, -⟩
    · rw [if_pos hall] at hx
      cases hx
    · rw [if_neg (by omega)] at hx
      simp only [Traced.log_bind, Traced.log_access, Traced.log_pure, List.append_nil,
        List.mem_cons, List.not_mem_nil, or_false] at hx
      rcases hx with rfl | rfl <;> exact ⟨hlt, hsame le_rfl⟩

end Loop

/-! ## The result -/

/-- Two strings agree on `n` bytes if their pointers do. -/
theorem take_eq_iff (a b : CString) (n : Nat) :
    a.bytes.take n = b.bytes.take n ↔ ∀ i < n, a.byteAt i = b.byteAt i := by
  constructor
  · intro h i hi
    have htake := congrArg (fun l : List Byte => l[i]?) h
    simp only [List.getElem?_take_of_lt hi] at htake
    simp only [byteAt, List.getD_eq_getElem?_getD, htake]
  · intro h
    apply List.ext_getElem?
    intro i
    rw [List.getElem?_take, List.getElem?_take]
    split
    · rename_i hi
      have hbyte := h i hi
      rw [byteAt, byteAt, List.getD_eq_getElem?_getD, List.getD_eq_getElem?_getD] at hbyte
      cases ha : a.bytes[i]? with
      | none =>
        cases hb : b.bytes[i]? with
        | none => rfl
        | some d =>
          rw [ha, hb] at hbyte
          exact absurd hbyte.symm (b.noNul d (List.mem_of_getElem? hb))
      | some c =>
        cases hb : b.bytes[i]? with
        | none =>
          rw [ha, hb] at hbyte
          exact absurd hbyte (a.noNul c (List.mem_of_getElem? ha))
        | some d =>
          rw [ha, hb] at hbyte
          exact congrArg some hbyte
    · rfl

/-- Up to its first NUL, a pointer reads the string. -/
theorem byteAt_of_spells {p : Nat → Byte} {a : CString} (h : Spells p a.bytes) {k : Nat}
    (hk : ∀ j < k, p j ≠ 0) : a.byteAt k = p k := by
  obtain ⟨hbytes, hnul⟩ := (spells_iff _ _).mp h
  rw [byteAt, List.getD_eq_getElem?_getD]
  rcases Nat.lt_trichotomy k a.bytes.length with hlt | rfl | hgt
  · rw [hbytes k hlt]
    rfl
  · rw [List.getElem?_eq_none le_rfl, hnul]
    rfl
  · exact absurd hnul (hk _ hgt)

/-- Behind a NUL there is nothing. -/
theorem byteAt_eq_zero {a : CString} {k i : Nat} (h : a.byteAt k = 0) (hi : k ≤ i) :
    a.byteAt i = 0 := by
  have hlen : a.bytes.length ≤ k := by
    by_contra hlt
    rw [byteAt, List.getD_eq_getElem?_getD, List.getElem?_eq_getElem (Nat.not_le.mp hlt)] at h
    exact a.noNul _ (List.getElem_mem _) h
  rw [byteAt, List.getD_eq_getElem?_getD, List.getElem?_eq_none (hlen.trans hi)]
  rfl

section Compare

variable {p q : Nat → Byte} {a b : CString} {n : Nat}

theorem SameBefore.byteAt {k : Nat} (h : SameBefore p q k) (ha : Spells p a.bytes)
    (hb : Spells q b.bytes) {j : Nat} (hj : j ≤ k) : a.byteAt j = p j ∧ b.byteAt j = q j := by
  have hp : ∀ i < j, p i ≠ 0 := fun i hi => (h i (hi.trans_le hj)).2
  have hq : ∀ i < j, q i ≠ 0 := fun i hi => (h i (hi.trans_le hj)).1 ▸ hp i hi
  exact ⟨byteAt_of_spells ha hp, byteAt_of_spells hb hq⟩

/-- The strings agree, or the result is the difference of the first bytes that do not. -/
theorem kStrncmpLoop_cases (ha : Spells p a.bytes) (hb : Spells q b.bytes) (hn : n < 2 ^ 32) :
    ((kStrncmpLoop p q n).val = 0 ∧ ∀ i < n, a.byteAt i = b.byteAt i) ∨
    ∃ i < n, (∀ j < i, a.byteAt j = b.byteAt j) ∧ a.byteAt i ≠ b.byteAt i ∧
      (kStrncmpLoop p q n).val = (a.byteAt i).toNat - (b.byteAt i).toNat := by
  have hstops : Stops p q (0 + n) (strncmpLoop p q n 0) := strncmpLoop_stops nofun
  rw [Nat.zero_add] at hstops
  obtain ⟨hsame, hstop, -⟩ := hstops
  rw [val_kStrncmpLoop]
  generalize (strncmpLoop p q n 0).val = r at hsame hstop
  obtain ⟨k, m⟩ := r
  have hbytes {j : Nat} (hj : j ≤ k) := hsame.byteAt ha hb hj
  have hbefore : ∀ j < k, a.byteAt j = b.byteAt j := fun j hj =>
    (hbytes hj.le).1.trans ((hsame j hj).1.trans (hbytes hj.le).2.symm)
  rcases hstop with ⟨hall, hcount⟩ | ⟨hlt, hcount, hexit⟩
  · subst hall
    exact .inl ⟨if_pos hcount, hbefore⟩
  · have hresult : resultOf p q (k, m) = (p k).toNat - (q k).toNat := if_neg (by omega)
    rw [hresult, ← (hbytes le_rfl).1, ← (hbytes le_rfl).2]
    rw [← (hbytes le_rfl).1, ← (hbytes le_rfl).2] at hexit
    by_cases hdiff : a.byteAt k = b.byteAt k
    · -- The strings end here together.
      have hend : a.byteAt k = 0 := hexit.resolve_right (not_not.mpr hdiff)
      refine .inl ⟨by rw [hdiff, Int.sub_self], fun i hi => ?_⟩
      rcases Nat.lt_or_ge i k with hik | hki
      · exact hbefore i hik
      · rw [byteAt_eq_zero hend hki, byteAt_eq_zero (hdiff.symm.trans hend) hki]
    · exact .inr ⟨k, hlt, hbefore, hdiff, rfl⟩

end Compare

/-- The prefixes that `shell_run` tests for, with their lengths. -/
def prefixes : List (String × Nat) :=
  [("echo ", 5), ("kill ", 5), ("touch ", 6), ("cat ", 4), ("write ", 6), ("rm ", 3),
    ("unlink ", 7)]

/-- A test for a literal and its length finds the lines that begin with it. -/
theorem kStrncmp_literal {p : String} (hp : ∀ i < (chars p).length, literal p i ≠ 0)
    (cmd : CString) :
    kStrncmp cmd.byteAt (literal p) (chars p).length = 0 ↔ chars p <+: cmd.bytes := by
  have hnul : ∀ c ∈ chars p, c ≠ 0 := by
    intro c hc
    obtain ⟨i, hi, rfl⟩ := List.mem_iff_getElem.mp hc
    have hbyte := hp i hi
    rwa [literal, List.getD_eq_getElem?_getD, List.getElem?_eq_getElem hi] at hbyte
  rw [kStrncmp_eq_zero_iff hp, List.prefix_iff_eq_take]
  have htake := take_eq_iff cmd ⟨chars p, hnul⟩ (chars p).length
  rw [List.take_length] at htake
  exact htake.symm.trans eq_comm

theorem kStrncmp_prefixes {c : String × Nat} (hc : c ∈ prefixes) (cmd : CString) :
    kStrncmp cmd.byteAt (literal c.1) c.2 = 0 ↔ chars c.1 <+: cmd.bytes := by
  have hall : ∀ c ∈ prefixes, (chars c.1).length = c.2 ∧
      ∀ i < (chars c.1).length, literal c.1 i ≠ 0 := by
    decide
  obtain ⟨hlen, hnul⟩ := hall c hc
  rw [← hlen]
  exact kStrncmp_literal hnul cmd

theorem prefix_length_lt {c : String × Nat} (hc : c ∈ prefixes) : c.2 < 2 ^ 32 := by
  revert c
  decide

/-- `k_strncmp` compares the first `n` bytes of two strings, and reads no byte that does not
matter; a test for a prefix finds just the lines that begin with it. -/
theorem strncmp_exact {p q : Nat → Byte} {a b : CString} (ha : Spells p a.bytes)
    (hb : Spells q b.bytes) {n : Nat} (hn : n < 2 ^ 32) :
    let r := kStrncmpLoop p q n
    (r.val = 0 ↔ a.bytes.take n = b.bytes.take n) ∧
    (r.val ≠ 0 → ∃ i < n, (∀ j < i, a.byteAt j = b.byteAt j) ∧ a.byteAt i ≠ b.byteAt i ∧
      r.val.sign = ((a.byteAt i).toNat - (b.byteAt i).toNat : Int).sign) ∧
    (∀ x ∈ r.log, x.2 < n ∧ ∀ j < x.2, a.byteAt j = b.byteAt j ∧ a.byteAt j ≠ 0) ∧
    ∀ c ∈ prefixes, ∀ cmd : CString,
      (kStrncmpLoop cmd.byteAt (literal c.1) c.2).val = 0 ↔ chars c.1 <+: cmd.bytes := by
  refine ⟨?_, ?_, fun x hx => ?_, fun c hc cmd => ?_⟩
  · rw [take_eq_iff]
    rcases kStrncmpLoop_cases ha hb hn with ⟨hzero, hall⟩ | ⟨i, hi, -, hdiff, hval⟩
    · exact iff_of_true hzero hall
    · refine iff_of_false (fun hzero => hdiff ?_) fun hall => hdiff (hall i hi)
      apply BitVec.eq_of_toNat_eq
      rw [hval] at hzero
      omega
  · intro hne
    rcases kStrncmpLoop_cases ha hb hn with ⟨hzero, -⟩ | ⟨i, hi, hbefore, hdiff, hval⟩
    · exact absurd hzero hne
    · exact ⟨i, hi, hbefore, hdiff, congrArg Int.sign hval⟩
  · obtain ⟨hlt, hsame⟩ := reads_kStrncmpLoop hn hx
    refine ⟨hlt, fun j hj => ?_⟩
    obtain ⟨heq, h0⟩ := hsame j hj
    obtain ⟨hp, hq⟩ := hsame.byteAt ha hb hj.le
    exact ⟨by rw [hp, hq, heq], by rwa [hp]⟩
  · rw [kStrncmpLoop_val (prefix_length_lt hc)]
    exact kStrncmp_prefixes hc cmd

/-- `k_strncmp("cat x", "cat ", 4)` -/
theorem strncmp_exact_cat :
    let a : CString := ⟨chars "cat x", by decide⟩
    let b : CString := ⟨chars "cat ", by decide⟩
    let r := kStrncmpLoop a.byteAt b.byteAt 4
    (r.val = 0 ↔ a.bytes.take 4 = b.bytes.take 4) ∧
    (r.val ≠ 0 → ∃ i < 4, (∀ j < i, a.byteAt j = b.byteAt j) ∧ a.byteAt i ≠ b.byteAt i ∧
      r.val.sign = ((a.byteAt i).toNat - (b.byteAt i).toNat : Int).sign) ∧
    (∀ x ∈ r.log, x.2 < 4 ∧ ∀ j < x.2, a.byteAt j = b.byteAt j ∧ a.byteAt j ≠ 0) ∧
    ∀ c ∈ prefixes, ∀ cmd : CString,
      (kStrncmpLoop cmd.byteAt (literal c.1) c.2).val = 0 ↔ chars c.1 <+: cmd.bytes :=
  strncmp_exact (spells_byteAt _) (spells_byteAt _) (by decide)

end SengOs.Shell
