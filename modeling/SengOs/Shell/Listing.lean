import SengOs.Lib.Lines
import SengOs.Shell.Buffer
import SengOs.Shell.Processes

/-!
# What `ls` and `ps` print

Both listings pass `%-Ns` to `vga_printf`, which knows no field widths: it prints `-Ns` and
takes no argument. In `ls` the conversion behind it then prints the address of the name as the
size, in `ps` the name of the state stands for the name of the process. So a listing shows
the data exactly if there is none.
-/

namespace SengOs.Shell

open ByteMemory CString Decimal Fs Kernel Lines

def newline : Byte := 0x0A

/-! ## What the listings should show -/

/-- The files in the order of the directory, with their sizes. -/
def existingFiles (t : Tables) : List (List Byte × Nat) :=
  ((List.range 128).filter fun d => (t.dirent d).used != 0).map fun d =>
    ((t.dirent d).str, (t.inode (t.dirent d).inode).size)

/-- The line holds the name of a file followed by its size in decimal. -/
def HoldsFile (file : List Byte × Nat) (line : List Byte) : Prop :=
  ∃ pre gap post, line = pre ++ file.1 ++ gap ++ numeral file.2 ++ post ∧
    gap ≠ [] ∧ (∀ c ∈ gap, c = space) ∧ ∀ c ∈ post.head?, isDigit c = false

example : HoldsFile (chars "a", 5) (chars "  a                        5 bytes") :=
  ⟨chars "  ", List.replicate 24 space, chars " bytes", by simp [chars, numeral, digit, space],
    by simp, by simp, by simp [chars, isDigit]⟩

/-- The slots in use, in their order. -/
def existingProcesses (t : Table) : List Pcb :=
  ((List.range maxProcesses).filter fun i => (t i).state ≠ .free).map t

/-- The line holds the pid of a process in decimal, the name of its state and its own name. -/
def HoldsProcess (pcb : Pcb) (line : List Byte) : Prop :=
  ∃ pre gap gap' post, line = pre ++ numeral pcb.pid ++ gap ++ (stateName pcb.state).bytes ++
      gap' ++ (processName pcb).bytes ++ post ∧
    gap ≠ [] ∧ (∀ c ∈ gap, c = space) ∧ gap' ≠ [] ∧ ∀ c ∈ gap', c = space

/-- The calls print a text with one line for each item. -/
def Shows {α : Type*} (Holds : α → List Byte → Prop) (items : List α) (calls : List Print) :
    Prop :=
  ∃ text, textOf calls = some text ∧ Lists newline Holds items text

/-- Every conversion of every format takes the argument that was passed for it. -/
def TakesItsArguments (calls : List Print) : Prop :=
  ∀ fmt args, .printf fmt args ∈ calls →
    vgaConversions fmt = cConversions fmt ∧ args.length = (cConversions fmt).length

/-- The list of files is that of the abstract file store. -/
theorem mem_existingFiles {t : Tables} {fds : Nat → File} (h : Sound t fds) {n : List Byte}
    {k : Nat} : (n, k) ∈ existingFiles t ↔ ∃ c, t.files n = some c ∧ c.length = k := by
  simp only [existingFiles, List.mem_map, List.mem_filter, List.mem_range, bne_iff_ne,
    Prod.mk.injEq]
  constructor
  · rintro ⟨d, hd, rfl, rfl⟩
    exact ⟨_, h.files_of_hasFile (h.hasFile_of_entry hd), t.length_content _⟩
  · rintro ⟨c, hc, rfl⟩
    obtain ⟨i, hi, rfl⟩ := h.files_eq_some_iff.mp hc
    obtain ⟨d, hd, hstr, rfl⟩ := h.hasFile_iff.mp hi
    exact ⟨d, hd, hstr, (t.length_content _).symm⟩

theorem existingFiles_eq_nil_iff {t : Tables} {fds : Nat → File} (h : Sound t fds) :
    existingFiles t = [] ↔ ∀ n, t.files n = none := by
  rw [List.eq_nil_iff_forall_not_mem]
  constructor
  · intro hnil n
    by_contra hsome
    obtain ⟨c, hc⟩ := Option.ne_none_iff_exists'.mp hsome
    exact hnil (n, c.length) ((mem_existingFiles h).mpr ⟨c, hc, rfl⟩)
  · rintro hnone ⟨n, k⟩ hmem
    obtain ⟨c, hc, -⟩ := (mem_existingFiles h).mp hmem
    exact nomatch (hnone n).symm.trans hc

theorem existingProcesses_eq_nil_iff {t : Table} :
    existingProcesses t = [] ↔ ∀ i < maxProcesses, (t i).state = .free := by
  rw [existingProcesses, List.map_eq_nil_iff, List.filter_eq_nil_iff]
  simp only [List.mem_range, decide_eq_true_eq, not_not]

/-! ## Texts of calls -/

section Texts

variable {P : List Byte → Prop} {calls : List Print}

/-- Calls that print whole lines print a text of whole lines. -/
theorem whole_textOf (h : ∀ p ∈ calls, ∃ s, p.text = some s ∧ Whole newline P s) :
    ∃ text, textOf calls = some text ∧ Whole newline P text := by
  induction calls with
  | nil => exact ⟨[], rfl, .nil⟩
  | cons p calls ih =>
    obtain ⟨s, hs, hwhole⟩ := h p List.mem_cons_self
    obtain ⟨text, htext, hrest⟩ := ih fun q hq => h q (List.mem_cons_of_mem p hq)
    refine ⟨s ++ text, ?_, hwhole.append hrest⟩
    rw [textOf, hs, htext]
    rfl

/-- If every line has a property that no line with an item has, the items are shown exactly if
there are none. -/
theorem shows_iff {α : Type*} {Holds : α → List Byte → Prop} {items : List α}
    (h : ∀ p ∈ calls, ∃ s, p.text = some s ∧ Whole newline P s) (hnil : P [])
    (hP : ∀ a ∈ items, ∀ l, P l → ¬Holds a l) : Shows Holds items calls ↔ items = [] := by
  obtain ⟨text, htext, hwhole⟩ := whole_textOf h
  constructor
  · rintro ⟨text', htext', hlists⟩
    cases htext.symm.trans htext'
    refine List.eq_nil_iff_forall_not_mem.mpr fun a ha => ?_
    obtain ⟨l, hl, hold⟩ := hlists.exists_line ha
    rcases hwhole.of_mem hl with rfl | hl
    · exact hP a ha [] hnil hold
    · exact hP a ha l hl hold
  · rintro rfl
    exact ⟨text, htext, lists_nil⟩

end Texts

/-! ## `ls` -/

/-- Every number behind a space is too large for the size of a file. -/
def OnlyAddresses (line : List Byte) : Prop :=
  ∀ n post, (∀ c ∈ post.head?, isDigit c = false) →
    space :: (numeral n ++ post) <:+ line → 32768 < n

section Ls

variable {m : Mem} {d n : Nat} {line s t : List Byte}

theorem HoldsFile.suffix {file : List Byte × Nat} (h : HoldsFile file line) :
    ∃ post, (∀ c ∈ post.head?, isDigit c = false) ∧
      space :: (numeral file.2 ++ post) <:+ line := by
  obtain ⟨pre, gap, post, rfl, hgap, hspace, hpost⟩ := h
  refine ⟨post, hpost, pre ++ file.1 ++ gap.dropLast, ?_⟩
  have hlast : gap = gap.dropLast ++ [space] := by
    rw [← hspace _ (List.getLast_mem hgap), List.dropLast_append_getLast]
  conv_rhs => rw [hlast]
  simp

theorem onlyAddresses_of_no_digit (h : ∀ c ∈ line, isDigit c = false) : OnlyAddresses line := by
  intro n post _ hsuffix
  obtain ⟨c, cs, hc⟩ := List.exists_cons_of_ne_nil (numeral_ne_nil n)
  have hmem : c ∈ space :: (numeral n ++ post) := by simp [hc]
  have hdigit : isDigit c = true := isDigit_of_mem_numeral (hc ▸ List.mem_cons_self)
  rw [h c (hsuffix.subset hmem)] at hdigit
  cases hdigit

theorem suffix_of_suffix_numeral (h : space :: s <:+ numeral n ++ t) : space :: s <:+ t := by
  have hdigits : ∀ c ∈ numeral n, isDigit c = true := fun c hc => isDigit_of_mem_numeral hc
  generalize numeral n = ds at *
  induction ds with
  | nil => exact h
  | cons c ds ih =>
    rcases List.suffix_cons_iff.mp h with heq | h
    · have hc := hdigits c List.mem_cons_self
      rw [← (List.cons.inj heq).1] at hc
      cases hc
    · exact ih h fun c hc => hdigits c (List.mem_cons_of_mem _ hc)

/-- The line that `ls` prints for directory entry `d`. -/
def addressLine (d : Nat) : List Byte :=
  chars "  -24s " ++ (numeral (ramdiskAddr + direntAddr d + 3) ++ chars " bytes")

theorem onlyAddresses_addressLine (d : Nat) : OnlyAddresses (addressLine d) := by
  intro n post hpost hsuffix
  have hline : addressLine d = 0x20 :: 0x20 :: 0x2D :: 0x32 :: 0x34 :: 0x73 :: space ::
    (numeral (ramdiskAddr + direntAddr d + 3) ++ chars " bytes") := rfl
  have hbytes : chars " bytes" = [0x20, 0x62, 0x79, 0x74, 0x65, 0x73] := by simp [chars]
  have hne {c : Byte} {t : List Byte} (hc : isDigit c = false) : numeral n ++ post ≠ c :: t :=
    numeral_append_ne_cons hc
  rw [hline] at hsuffix
  simp only [List.suffix_cons_iff, List.cons.injEq] at hsuffix
  rcases hsuffix with ⟨-, h⟩ | ⟨-, h⟩ | ⟨h, -⟩ | ⟨h, -⟩ | ⟨h, -⟩ | ⟨h, -⟩ | ⟨-, h⟩ | h
  · exact absurd h (hne (by decide))
  · exact absurd h (hne (by decide))
  · cases h
  · cases h
  · cases h
  · cases h
  · rw [numeral_append_inj hpost (by decide) h]
    simp
    omega
  · have hlast := suffix_of_suffix_numeral h
    rw [hbytes] at hlast
    simp only [List.suffix_cons_iff, List.cons.injEq, List.suffix_nil] at hlast
    rcases hlast with ⟨-, h⟩ | ⟨h, -⟩ | ⟨h, -⟩ | ⟨h, -⟩ | ⟨h, -⟩ | ⟨h, -⟩ | h
    · exact absurd h (hne (by decide))
    all_goals cases h

theorem newline_notMem_addressLine (d : Nat) : newline ∉ addressLine d := by
  simp only [addressLine, List.mem_append, not_or]
  refine ⟨by simp [chars, newline], fun h => ?_, by simp [chars, newline]⟩
  exact absurd (isDigit_of_mem_numeral h) (by decide)

/-- `%-24s` prints `-24s`, and `%u` the address of the name. -/
theorem text_fsListLine (hd : d < 128) (w : VaArg) :
    (Print.printf (chars "  %-24s %u bytes\n") [direntNameArg m d, w]).text =
      some (addressLine d ++ [newline]) := by
  have hfmt : chars "  %-24s %u bytes\n" = chars "  " ++ char '%' :: char '-' ::
      (chars "24s " ++ char '%' :: char 'u' :: (chars " bytes" ++ [newline])) := by decide
  have haddr : ramdiskAddr + direntAddr d + 3 < 2 ^ 32 := by simp; omega
  have hword : (direntNameArg m d).toWord.toNat = ramdiskAddr + direntAddr d + 3 :=
    Nat.mod_eq_of_lt haddr
  rw [Print.text, hfmt, vgaPrintf_append (by decide), vgaPrintf_percent, vgaConvert_minus,
    Option.bind_some, vgaPrintf_append (by decide), vgaPrintf_percent, vgaConvert_u,
    Option.bind_some, vgaPrintf_text (by decide), hword, printUint_ten haddr]
  have hstart : chars "  -24s " = chars "  " ++ [char '-'] ++ chars "24s " := by decide
  simp [addressLine, hstart]

theorem whole_fsList (s : FsState) :
    ∀ p ∈ fsList s, ∃ text, p.text = some text ∧ Whole newline OnlyAddresses text := by
  intro p hp
  have hno {l : List Byte} (hnl : newline ∉ l) (h : ∀ c ∈ l, isDigit c = false) :
      Whole newline OnlyAddresses (l ++ [newline]) :=
    .line hnl (onlyAddresses_of_no_digit h)
  simp only [fsList, List.mem_append, List.mem_cons, List.not_mem_nil, or_false] at hp
  rcases hp with ((rfl | rfl) | hp) | hp
  · refine ⟨_, rfl, ?_⟩
    have htext : chars "\n  Name                     Size\n" =
      ([] ++ [newline]) ++ (chars "  Name                     Size" ++ [newline]) := by
      simp [chars, newline]
    rw [htext]
    apply Whole.append
    · exact hno (by simp) (by simp)
    · exact hno (by simp [chars, newline]) (by simp [chars, isDigit])
  · refine ⟨_, rfl, ?_⟩
    have htext : chars "  ------------------------ -----\n" =
      chars "  ------------------------ -----" ++ [newline] := by simp [chars, newline]
    rw [htext]
    exact hno (by simp [chars, newline]) (by simp [chars, isDigit])
  · obtain ⟨d, hd, hline⟩ := List.mem_filterMap.mp hp
    unfold fsListLine at hline
    dsimp only at hline
    split at hline
    · cases hline
    split at hline
    · cases hline
    · cases hline
      exact ⟨_, text_fsListLine (List.mem_range.mp hd) _,
        .line (newline_notMem_addressLine d) (onlyAddresses_addressLine d)⟩
  · split at hp
    · cases List.mem_singleton.mp hp
      refine ⟨_, rfl, ?_⟩
      have htext : chars "  <empty>\n" = chars "  <empty>" ++ [newline] := by
        simp [chars, newline]
      rw [htext]
      exact hno (by simp [chars, newline]) (by simp [chars, isDigit])
    · cases hp

/-- In a sound state every entry in use gets a line. -/
theorem fsListLine_eq_none_iff {fds : Nat → File} (h : Sound (view m) fds) (hd : d < 128) :
    fsListLine m d = none ↔ ((view m).dirent d).used = 0 := by
  unfold fsListLine
  dsimp only
  rw [direntUsed_eq hd]
  split
  · rename_i hu
    exact iff_of_true rfl hu
  · rename_i hu
    obtain ⟨-, hlt, hused⟩ := h.entry_file d ⟨hd, hu⟩
    rw [direntInode_eq hd, if_neg, iff_false_right hu]
    · exact nofun
    · rw [inodeUsed_eq hlt, hused]
      exact not_or.mpr ⟨not_le.mpr hlt, by decide⟩

theorem fsListLines_eq_nil_iff {fds : Nat → File} (h : Sound (view m) fds) :
    fsListLines m = [] ↔ existingFiles (view m) = [] := by
  rw [fsListLines, existingFiles, List.filterMap_eq_nil_iff, List.map_eq_nil_iff,
    List.filter_eq_nil_iff]
  refine forall₂_congr fun d hd => ?_
  rw [fsListLine_eq_none_iff h (List.mem_range.mp hd)]
  simp

theorem ls_shows_iff (s : FsState) (h : Sound (view s.ramdisk) s.fds) :
    Shows HoldsFile (existingFiles (view s.ramdisk)) (fsList s) ↔
      ∀ n, s.abs.files n = none := by
  refine (shows_iff (whole_fsList s) ?_ ?_).trans (existingFiles_eq_nil_iff h)
  · exact onlyAddresses_of_no_digit (by simp)
  · rintro ⟨n, k⟩ hmem l hl hold
    obtain ⟨post, hpost, hsuffix⟩ := hold.suffix
    obtain ⟨c, hc, rfl⟩ := (mem_existingFiles h).mp hmem
    obtain ⟨i, hi, rfl⟩ := h.files_eq_some_iff.mp hc
    have hsize := h.size_le i hi.1
    rw [← Tables.length_content] at hsize
    exact absurd (hl _ post hpost hsuffix) (not_lt.mpr hsize)

end Ls

/-! ## `ps` -/

/-- The name of no state stands in the line with a space behind it. -/
def NoNameAfterState (line : List Byte) : Prop :=
  ∀ st pre post, line ≠ pre ++ (stateName st).bytes ++ space :: post

section Ps

variable {link : Link} {t : Table} {i : Nat} {line : List Byte}

theorem HoldsProcess.not_noNameAfterState {pcb : Pcb} (h : HoldsProcess pcb line) :
    ¬NoNameAfterState line := by
  obtain ⟨pre, gap, gap', post, rfl, -, -, hgap', hspace⟩ := h
  intro hno
  obtain ⟨c, cs, rfl⟩ := List.exists_cons_of_ne_nil hgap'
  rw [hspace c List.mem_cons_self] at hno
  exact hno pcb.state (pre ++ numeral pcb.pid ++ gap) (cs ++ (processName pcb).bytes ++ post)
    (by simp)

def isCapital (c : Byte) : Bool := 0x41 ≤ c.toNat && c.toNat ≤ 0x5A

theorem isCapital_of_mem_stateName {st : ProcessState} {c : Byte}
    (h : c ∈ (stateName st).bytes) : isCapital c = true := by
  have hall : ∀ c ∈ (stateName st).bytes, isCapital c = true := by
    cases st <;> simp [stateName, chars, isCapital]
  exact hall c h

theorem noNameAfterState_of_not_infix (h : ∀ st, ¬(stateName st).bytes <:+: line) :
    NoNameAfterState line :=
  fun st pre post heq => h st ⟨pre, space :: post, heq.symm⟩

/-- Behind a text without capitals, the name of a state has no space behind it. -/
theorem noNameAfterState_append {s : List Byte} (hs : ∀ c ∈ s, isCapital c = false)
    (st : ProcessState) : NoNameAfterState (s ++ (stateName st).bytes) := by
  intro st' pre post heq
  rcases List.append_eq_append_iff.mp heq with ⟨rest, -, hrest⟩ | ⟨rest, hrest, -⟩
  · -- the space would be in the name of the state
    have hmem : space ∈ (stateName st).bytes := by simp [hrest]
    exact absurd (isCapital_of_mem_stateName hmem) (by decide)
  · -- a capital would be before the name of the state
    obtain ⟨c, hc⟩ : ∃ c, c ∈ (stateName st').bytes := by
      cases st' <;> exact ⟨_, List.mem_cons_self⟩
    have hmem : c ∈ s := by simp [hrest, hc]
    have hcap := isCapital_of_mem_stateName hc
    rw [hs c hmem] at hcap
    cases hcap

theorem mem_printInt {v : Int} (h : v.natAbs < 2 ^ 32) {c : Byte} (hc : c ∈ printInt v) :
    c = char '-' ∨ isDigit c = true := by
  unfold printInt at hc
  split at hc
  · rw [printUint_ten h] at hc
    rcases List.mem_append.mp hc with hc | hc
    · exact Or.inl (List.mem_singleton.mp hc)
    · exact Or.inr (isDigit_of_mem_numeral hc)
  · rw [printUint_ten (by omega)] at hc
    exact Or.inr (isDigit_of_mem_numeral hc)

/-- The line that `ps` prints for slot `i`. -/
def stateLine (t : Table) (i : Nat) : List Byte :=
  chars "  " ++ printInt (BitVec.ofNat 32 (t i).pid).toInt ++ chars "    -10s  " ++
    (stateName (t i).state).bytes

theorem not_isCapital_of_mem_pid {w : BitVec 32} {c : Byte} (hc : c ∈ printInt w.toInt) :
    isCapital c = false ∧ c ≠ newline := by
  have hlt : w.toInt.natAbs < 2 ^ 32 := by
    have := w.toInt_lt
    have := w.le_toInt
    omega
  rcases mem_printInt hlt hc with rfl | hdigit
  · decide
  · simp only [isDigit, Bool.and_eq_true, decide_eq_true_eq] at hdigit
    refine ⟨?_, ?_⟩
    · simp only [isCapital, Bool.and_eq_false_iff, decide_eq_false_iff_not]
      omega
    · rintro rfl
      exact absurd hdigit (by decide)

theorem noNameAfterState_stateLine (t : Table) (i : Nat) : NoNameAfterState (stateLine t i) := by
  apply noNameAfterState_append
  intro c hc
  rcases List.mem_append.mp hc with hc | hc
  · rcases List.mem_append.mp hc with hc | hc
    · have hstart : ∀ c ∈ chars "  ", isCapital c = false := by simp [chars, isCapital]
      exact hstart c hc
    · exact (not_isCapital_of_mem_pid hc).1
  · have hmiddle : ∀ c ∈ chars "    -10s  ", isCapital c = false := by
      simp [chars, isCapital]
    exact hmiddle c hc

theorem newline_notMem_stateLine (t : Table) (i : Nat) : newline ∉ stateLine t i := by
  simp only [stateLine, List.mem_append, not_or]
  refine ⟨⟨⟨by simp [chars, newline], fun h => ?_⟩, by simp [chars, newline]⟩, fun h => ?_⟩
  · exact (not_isCapital_of_mem_pid h).2 rfl
  · exact absurd (isCapital_of_mem_stateName h) (by decide)

/-- `%-10s` prints `-10s`, and `%s` the name of the state. -/
theorem text_psLine (t : Table) (i : Nat) (addr : BitVec 32) (rest : List VaArg) :
    (Print.printf (chars "  %d    %-10s  %s\n")
      (.word (BitVec.ofNat 32 (t i).pid) :: .str addr (stateName (t i).state) :: rest)).text =
      some (stateLine t i ++ [newline]) := by
  have hfmt : chars "  %d    %-10s  %s\n" = chars "  " ++ char '%' :: char 'd' ::
      (chars "    " ++ char '%' :: char '-' ::
        (chars "10s  " ++ char '%' :: char 's' :: [newline])) := by decide
  rw [Print.text, hfmt, vgaPrintf_append (by decide), vgaPrintf_percent, vgaConvert_d,
    Option.bind_some, vgaPrintf_append (by decide), vgaPrintf_percent, vgaConvert_minus,
    Option.bind_some, vgaPrintf_append (by decide), vgaPrintf_percent, vgaConvert_s,
    Option.bind_some, vgaPrintf_text (by decide)]
  have hmiddle : chars "    -10s  " = chars "    " ++ [char '-'] ++ chars "10s  " := by decide
  simp [stateLine, hmiddle, VaArg.toWord]

theorem whole_ps (link : Link) (t : Table) :
    ∀ p ∈ ps link t, ∃ text, p.text = some text ∧ Whole newline NoNameAfterState text := by
  intro p hp
  simp only [ps, List.mem_append, List.mem_cons, List.not_mem_nil, or_false] at hp
  rcases hp with (rfl | rfl) | hp
  · refine ⟨_, rfl, ?_⟩
    have htext : chars "  PID  STATE       NAME\n" =
      chars "  PID  STATE       NAME" ++ [newline] := by simp [chars, newline]
    rw [htext]
    apply Whole.line
    · simp [chars, newline]
    · apply noNameAfterState_of_not_infix
      intro st
      cases st <;> simp [stateName, chars, List.infix_cons_iff]
  · refine ⟨_, rfl, ?_⟩
    have htext : chars "  ---  ----------  --------\n" =
      chars "  ---  ----------  --------" ++ [newline] := by simp [chars, newline]
    rw [htext]
    apply Whole.line
    · simp [chars, newline]
    · apply noNameAfterState_of_not_infix
      intro st
      cases st <;> simp [stateName, chars, List.infix_cons_iff]
  · obtain ⟨i, -, hline⟩ := List.mem_filterMap.mp hp
    unfold psLine at hline
    split at hline
    · cases hline
    · cases hline
      exact ⟨_, text_psLine t i _ _,
        .line (newline_notMem_stateLine t i) (noNameAfterState_stateLine t i)⟩

theorem ps_shows_iff (link : Link) (t : Table) :
    Shows HoldsProcess (existingProcesses t) (ps link t) ↔
      ∀ i < maxProcesses, (t i).state = .free := by
  refine (shows_iff (whole_ps link t) ?_ ?_).trans existingProcesses_eq_nil_iff
  · intro st pre post h
    simp at h
  · exact fun pcb _ l hl hold => hold.not_noNameAfterState hl

end Ps

/-! ## Arguments -/

/-- Calls with one format, which `vga_printf` reads in another way than C. -/
theorem takesItsArguments_iff {calls : List Print} (lines : List Print) (fmt : List Byte)
    (hfmt : vgaConversions fmt ≠ cConversions fmt)
    (hlines : ∀ p ∈ lines, ∃ args, p = .printf fmt args)
    (hcalls : ∀ f args, .printf f args ∈ calls ↔ .printf f args ∈ lines) :
    TakesItsArguments calls ↔ lines = [] := by
  constructor
  · intro h
    refine List.eq_nil_iff_forall_not_mem.mpr fun p hp => ?_
    obtain ⟨args, rfl⟩ := hlines p hp
    exact hfmt (h fmt args ((hcalls fmt args).mpr hp)).1
  · rintro rfl f args hmem
    cases (hcalls f args).mp hmem

theorem ls_takes_arguments_iff (s : FsState) (h : Sound (view s.ramdisk) s.fds) :
    TakesItsArguments (fsList s) ↔ ∀ n, s.abs.files n = none := by
  refine Iff.trans ?_ ((fsListLines_eq_nil_iff h).trans (existingFiles_eq_nil_iff h))
  apply takesItsArguments_iff _ (chars "  %-24s %u bytes\n") (by decide)
  · intro p hp
    obtain ⟨d, -, hline⟩ := List.mem_filterMap.mp hp
    unfold fsListLine at hline
    dsimp only at hline
    split at hline
    · cases hline
    split at hline
    · cases hline
    · cases hline
      exact ⟨_, rfl⟩
  · intro f args
    unfold fsList
    split <;> simp

theorem ps_takes_arguments_iff (link : Link) (t : Table) :
    TakesItsArguments (ps link t) ↔ ∀ i < maxProcesses, (t i).state = .free := by
  have hline : ∀ i, psLine link t i = none ↔ (t i).state = .free := fun i => by simp [psLine]
  rw [takesItsArguments_iff ((List.range maxProcesses).filterMap (psLine link t))
    (chars "  %d    %-10s  %s\n") (by decide), List.filterMap_eq_nil_iff]
  · simp only [List.mem_range, hline]
  · intro p hp
    obtain ⟨i, -, hline⟩ := List.mem_filterMap.mp hp
    unfold psLine at hline
    split at hline
    · cases hline
    · cases hline
      exact ⟨_, rfl⟩
  · intro f args
    simp [ps]

/-- In every state of a run `ls` shows the files, and in every table `ps` the processes, with
every conversion taking its own argument, exactly if there is nothing to show. -/
theorem listings_show_iff (s₀ : FsState) (calls : List Call) (link : Link) (t : Table) :
    (Shows HoldsFile (existingFiles (view (runCalls (fsInit s₀) calls).ramdisk))
        (fsList (runCalls (fsInit s₀) calls)) ↔
      ∀ n, (runCalls (fsInit s₀) calls).abs.files n = none) ∧
    (TakesItsArguments (fsList (runCalls (fsInit s₀) calls)) ↔
      ∀ n, (runCalls (fsInit s₀) calls).abs.files n = none) ∧
    (Shows HoldsProcess (existingProcesses t) (ps link t) ↔
      ∀ i < maxProcesses, (t i).state = .free) ∧
    (TakesItsArguments (ps link t) ↔ ∀ i < maxProcesses, (t i).state = .free) :=
  ⟨ls_shows_iff _ (sound_run s₀ calls), ls_takes_arguments_iff _ (sound_run s₀ calls),
    ps_shows_iff link t, ps_takes_arguments_iff link t⟩

/-- After the creation of a file `ls` does not show it, and `ps` does not show the kernel. -/
theorem listings_hide_data :
    ¬Shows HoldsFile
      (existingFiles (view (runCalls (fsInit ⟨fun _ => 0, fun _ => File.zero⟩)
        [.create (some rootName)]).ramdisk))
      (fsList (runCalls (fsInit ⟨fun _ => 0, fun _ => File.zero⟩) [.create (some rootName)])) ∧
    ¬Shows HoldsProcess (existingProcesses (processInit fun _ => Pcb.zero))
      (ps ⟨0, fun _ => 0⟩ (processInit fun _ => Pcb.zero)) := by
  constructor
  · rw [ls_shows_iff _ (sound_run _ _)]
    intro hnone
    have hfile := (new_file_after_init ⟨fun _ => 0, fun _ => File.zero⟩
      not_invalidName_rootName).1
    exact nomatch (hnone rootName.bytes).symm.trans hfile
  · rw [ps_shows_iff]
    exact fun hfree => nomatch hfree 0 (by decide)

end SengOs.Shell
