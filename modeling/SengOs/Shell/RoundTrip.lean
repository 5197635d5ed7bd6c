import SengOs.Shell.Quiet

/-!
# Write, then `cat`

The dispatcher finds the command of a `write` and of a `cat` line, and `cmd_fs_write` finds
the name and the text of its argument. With `Quiet` this gives the round trip: the text of
a `write` line is what a following `cat` prints.
-/

namespace SengOs.Shell

open ByteMemory CString Fs FileStore

/-! ## Comparisons -/

theorem kStrncmp_eq_zero_iff {a b : Nat → Byte} {n : Nat} (hb : ∀ i < n, b i ≠ 0) :
    kStrncmp a b n = 0 ↔ ∀ i < n, a i = b i := by
  induction n generalizing a b with
  | zero => exact iff_of_true rfl fun i hi => absurd hi (Nat.not_lt_zero i)
  | succ n ih =>
    have hb0 := hb 0 (Nat.zero_lt_succ n)
    rw [kStrncmp]
    split
    · rename_i heq
      rw [ih fun i hi => hb (i + 1) (Nat.succ_lt_succ hi)]
      constructor
      · intro h i hi
        cases i with
        | zero => exact heq.2
        | succ i => exact h i (Nat.lt_of_succ_lt_succ hi)
      · exact fun h i hi => h (i + 1) (Nat.succ_lt_succ hi)
    · rename_i hne
      have hdiff : a 0 ≠ b 0 := fun heq => hne ⟨heq ▸ hb0, heq⟩
      have hnat : (a 0).toNat ≠ (b 0).toNat := fun heq => hdiff (BitVec.eq_of_toNat_eq heq)
      constructor
      · intro h0
        omega
      · exact fun h => absurd (h 0 (Nat.zero_lt_succ n)) hdiff

section Tests

variable {cmd : CString} {p b : String} {rest : List Byte} {k n : Nat}

theorem byteAt_of_starts (h : cmd.bytes = chars p ++ rest) (hk : k < (chars p).length) :
    cmd.byteAt k = literal p k := by
  rw [byteAt, h, literal, List.getD_eq_getElem?_getD, List.getElem?_append_left hk,
    List.getD_eq_getElem?_getD]

/-- A command that starts with `p` is none that has another character somewhere in `p`. -/
theorem kStrcmp_ne_zero (h : cmd.bytes = chars p ++ rest) (hk : k < (chars p).length)
    (hb : ∀ c ∈ chars b, c ≠ 0) (hne : literal p k ≠ literal b k) : kStrcmp cmd b ≠ 0 := by
  intro hzero
  have hspells := (strcmp_eq_zero_iff cmd.byteAt hb).mp hzero
  have heq : cmd.bytes = chars b := spells_unique cmd.noNul hb (spells_byteAt cmd) hspells
  apply hne
  rw [← byteAt_of_starts h hk, byteAt, heq]
  rfl

/-- In particular none that starts with another character. -/
theorem kStrcmp_ne_zero_of_head {c d : Byte} {ds : List Byte} (h : cmd.bytes = c :: rest)
    (hb : chars b = d :: ds) (hne : c ≠ d) : kStrcmp cmd b ≠ 0 := by
  have hnat : c.toNat ≠ d.toNat := fun heq => hne (BitVec.eq_of_toNat_eq heq)
  have hhead : cmd.byteAt 0 = c := by
    rw [byteAt, h]
    rfl
  rw [kStrcmp, hb, strcmp, hhead, if_neg fun heq => hne heq.2]
  omega

theorem kStrncmp_ne_zero_of_head {c d : Byte} {ds : List Byte} (h : cmd.bytes = c :: rest)
    (hb : chars b = d :: ds) (hne : c ≠ d) : kStrncmp cmd.byteAt (literal b) (n + 1) ≠ 0 := by
  have hnat : c.toNat ≠ d.toNat := fun heq => hne (BitVec.eq_of_toNat_eq heq)
  have hhead : cmd.byteAt 0 = c := by
    rw [byteAt, h]
    rfl
  have hliteral : literal b 0 = d := by
    rw [literal, hb]
    rfl
  rw [kStrncmp, hliteral, hhead, if_neg fun heq => hne heq.2]
  omega

theorem kStrncmp_eq_zero (h : cmd.bytes = chars p ++ rest) (hn : n ≤ (chars p).length)
    (hp : ∀ i < n, literal p i ≠ 0) : kStrncmp cmd.byteAt (literal p) n = 0 :=
  (kStrncmp_eq_zero_iff hp).mpr fun _ hi => byteAt_of_starts h (by omega)

theorem kLtrim_eq_self (h : cmd.bytes.head? ≠ some space) : kLtrim cmd = cmd := by
  apply CString.ext
  show cmd.bytes.dropWhile (· == space) = cmd.bytes
  cases hcmd : cmd.bytes with
  | nil => rfl
  | cons c cs =>
    apply List.dropWhile_cons_of_neg
    rw [hcmd] at h
    exact fun hc => h (congrArg some (eq_of_beq hc))

end Tests

/-! ## The two lines -/

section Parse

variable {line name text : CString}

theorem head_ne_space (hname : name.bytes ≠ []) (hspace : space ∉ name.bytes)
    (rest : List Byte) : (name.bytes ++ rest).head? ≠ some space := by
  rw [List.head?_append_of_ne_nil _ hname]
  exact fun hhead => hspace (List.mem_of_head? hhead)

theorem dispatch_write (hname : name.bytes ≠ []) (hspace : space ∉ name.bytes)
    (hline : line.bytes = chars "write " ++ (name.bytes ++ [space] ++ text.bytes)) :
    ∃ args : CString, dispatch line = some (.write args) ∧
      args.bytes = name.bytes ++ [space] ++ text.bytes := by
  have htrim : kLtrim line = line := kLtrim_eq_self (by rw [hline]; exact nofun)
  have hlen : ¬strlen line = 0 := by
    rw [strlen, hline]
    exact nofun
  have hargs : (advance line 6).bytes = name.bytes ++ [space] ++ text.bytes := by
    show line.bytes.drop 6 = _
    rw [hline]
    exact List.drop_left' rfl
  have hargs_trim : kLtrim (advance line 6) = advance line 6 := by
    apply kLtrim_eq_self
    rw [hargs, List.append_assoc]
    exact head_ne_space hname hspace _
  -- no command that is tested before starts with a `w`
  have hstart : line.bytes = 0x77 :: (line.bytes.drop 1) := by
    rw [hline]
    rfl
  have hcmp {b : String} {d : Byte} {ds : List Byte} (hb : chars b = d :: ds)
      (hne : 0x77 ≠ d) : ¬kStrcmp line b = 0 :=
    kStrcmp_ne_zero_of_head hstart hb hne
  have hncmp {b : String} {n : Nat} {d : Byte} {ds : List Byte} (hb : chars b = d :: ds)
      (hne : 0x77 ≠ d) : ¬kStrncmp line.byteAt (literal b) (n + 1) = 0 :=
    kStrncmp_ne_zero_of_head hstart hb hne
  refine ⟨advance line 6, ?_, hargs⟩
  unfold dispatch
  dsimp only
  rw [htrim, hargs_trim, if_neg hlen, if_neg (hcmp rfl (by decide)),
    if_neg (hcmp rfl (by decide)), if_neg (hcmp rfl (by decide)), if_neg (hcmp rfl (by decide)),
    if_neg (hncmp rfl (by decide)), if_neg (hcmp rfl (by decide)),
    if_neg (hncmp rfl (by decide)), if_neg (hcmp rfl (by decide)), if_neg (hcmp rfl (by decide)),
    if_neg (hcmp rfl (by decide)), if_neg (hcmp rfl (by decide)),
    if_neg (hncmp rfl (by decide)), if_neg (hncmp rfl (by decide)),
    if_pos (kStrncmp_eq_zero hline (by decide) (by decide))]

theorem dispatch_cat (hname : name.bytes ≠ []) (hspace : space ∉ name.bytes)
    (hline : line.bytes = chars "cat " ++ name.bytes) : dispatch line = some (.cat name) := by
  have htrim : kLtrim line = line := kLtrim_eq_self (by rw [hline]; exact nofun)
  have hlen : ¬strlen line = 0 := by
    rw [strlen, hline]
    exact nofun
  have hargs : advance line 4 = name := by
    apply CString.ext
    show line.bytes.drop 4 = _
    rw [hline]
    exact List.drop_left' rfl
  have hname_trim : kLtrim name = name := by
    apply kLtrim_eq_self
    rw [← List.append_nil name.bytes]
    exact head_ne_space hname hspace []
  -- of the commands that are tested before only `clear` starts with a `c`
  have hstart : line.bytes = 0x63 :: (line.bytes.drop 1) := by
    rw [hline]
    rfl
  have hcmp {b : String} {d : Byte} {ds : List Byte} (hb : chars b = d :: ds)
      (hne : 0x63 ≠ d) : ¬kStrcmp line b = 0 :=
    kStrcmp_ne_zero_of_head hstart hb hne
  have hncmp {b : String} {n : Nat} {d : Byte} {ds : List Byte} (hb : chars b = d :: ds)
      (hne : 0x63 ≠ d) : ¬kStrncmp line.byteAt (literal b) (n + 1) = 0 :=
    kStrncmp_ne_zero_of_head hstart hb hne
  have hclear : ¬kStrcmp line "clear" = 0 :=
    kStrcmp_ne_zero hline (k := 1) (by decide) (by decide) (by decide)
  unfold dispatch
  dsimp only
  rw [htrim, hargs, hname_trim, if_neg hlen, if_neg (hcmp rfl (by decide)), if_neg hclear,
    if_neg (hcmp rfl (by decide)), if_neg (hcmp rfl (by decide)),
    if_neg (hncmp rfl (by decide)), if_neg (hcmp rfl (by decide)),
    if_neg (hncmp rfl (by decide)), if_neg (hcmp rfl (by decide)), if_neg (hcmp rfl (by decide)),
    if_neg (hcmp rfl (by decide)), if_neg (hcmp rfl (by decide)),
    if_neg (hncmp rfl (by decide)),
    if_pos (kStrncmp_eq_zero hline (by decide) (by decide))]

theorem readName_eq {room : Nat} {cs rest : List Byte} (hlen : cs.length ≤ room)
    (hspace : space ∉ cs) : readName (cs ++ space :: rest) room = (cs, space :: rest) := by
  induction cs generalizing room with
  | nil =>
    cases room with
    | zero => rfl
    | succ room => exact if_pos rfl
  | cons c cs ih =>
    cases room with
    | zero => exact absurd hlen (Nat.not_succ_le_zero _)
    | succ room =>
      have hc : c ≠ space := fun hc => hspace (hc ▸ List.mem_cons_self)
      have hrest := ih (Nat.le_of_succ_le_succ hlen) fun hmem => hspace (.tail c hmem)
      rw [List.cons_append, readName, if_neg hc, hrest]

theorem parseWrite_eq {args : CString} (hname : name.bytes ≠ []) (hlen : name.bytes.length ≤ 23)
    (hspace : space ∉ name.bytes) (hstart : text.bytes.head? ≠ some space)
    (hargs : args.bytes = name.bytes ++ [space] ++ text.bytes) :
    parseWrite args = (name, text) := by
  have htrim : kLtrim args = args := by
    apply kLtrim_eq_self
    rw [hargs, List.append_assoc]
    exact head_ne_space hname hspace _
  have hread : readName args.bytes (fsMaxName - 1) = (name.bytes, space :: text.bytes) := by
    rw [hargs, List.append_assoc]
    exact readName_eq hlen hspace
  have htext : text.bytes.dropWhile (· == space) = text.bytes :=
    congrArg CString.bytes (kLtrim_eq_self hstart)
  refine Prod.ext (CString.ext ?_) (CString.ext ?_)
  · show (readName (kLtrim args).bytes (fsMaxName - 1)).1 = name.bytes
    rw [htrim, hread]
  · show (readName (kLtrim args).bytes (fsMaxName - 1)).2.dropWhile (· == space) = text.bytes
    rw [htrim, hread]
    show (space :: text.bytes).dropWhile (· == space) = text.bytes
    rw [List.dropWhile_cons, if_pos (beq_self_eq_true space), htext]

end Parse

/-! ## The round trip -/

section RoundTrip

variable {s : FsState} {name text : CString}

/-- After the removal of an existing file there is room for one. -/
theorem Quiet.fileCount_ne (h : Quiet s)
    (hroom : FileExists s.ramdisk name ∨ fileCount s.ramdisk < 63) :
    fileCount (fsUnlink s name).2.ramdisk ≠ 63 := by
  by_cases hex : FileExists s.ramdisk name
  · obtain ⟨i, hi⟩ := hex
    obtain ⟨d, hd, hstr, rfl⟩ := h.sound.hasFile_iff.mp (h.sound.namedFile_iff.mp hi)
    have hview := (fsUnlink_of_entry h.sound hd hstr fun n hn => absurd hn (h.closed n hn.1)).2.2
    exact fileCount_ne_of_unlinked (h.unlink name).1.sound (h.sound.entry_file d hd) hview
  · rw [fsUnlink_of_missing h.sound hex]
    exact (hroom.resolve_left hex).ne

/-- The effect of a `write` line. -/
theorem Quiet.runLine_write (h : Quiet s) (hname : name.bytes ≠ [])
    (hlen : name.bytes.length ≤ 23) (hspace : space ∉ name.bytes) (htext : text.bytes ≠ [])
    (hstart : text.bytes.head? ≠ some space)
    (hroom : FileExists s.ramdisk name ∨ fileCount s.ramdisk < 63) {line : Line}
    (hline : line.text.bytes = chars "write " ++ (name.bytes ++ [space] ++ text.bytes))
    (buf : Mem) :
    ∃ s', runLine s buf line = (printWrote text.bytes.length, s') ∧ Quiet s' ∧
      s'.abs = s.abs.setFile name.bytes (some text.bytes) := by
  obtain ⟨args, hdispatch, hargs⟩ := dispatch_write hname hspace hline
  have hparse := parseWrite_eq hname hlen hspace hstart hargs
  have hfits : text.bytes.length ≤ 255 := by
    have hle := line.fits
    rw [hline, List.length_append, List.length_append] at hle
    omega
  have hcreate : 0 ≤ (fsCreate (fsUnlink s name).2 (some name)).1 := by
    have hvalid : ¬InvalidName name := fun hbad => hbad.elim hname (by omega)
    obtain ⟨hquiet, habs⟩ := h.unlink name
    exact fsCreate_succeeds hquiet.sound hvalid (not_fileExists_of_abs hquiet.sound habs)
      (h.fileCount_ne hroom)
  unfold runLine
  rw [hdispatch]
  have hwrite : (parseWrite args).1.bytes ≠ [] → _ := h.write_of_created
  rw [hparse] at hwrite
  exact hwrite hname htext hfits hcreate

/-- The effect of a `cat` line. -/
theorem Quiet.runLine_cat (h : Quiet s) (hname : name.bytes ≠ []) (hspace : space ∉ name.bytes)
    (hfile : s.abs.files name.bytes = some text.bytes) {line : Line}
    (hline : line.text.bytes = chars "cat " ++ name.bytes) (buf : Mem) :
    runLine s buf line = (chars "  " ++ text.bytes ++ chars "\n", s) := by
  unfold runLine
  rw [dispatch_cat hname hspace hline]
  show cmdFsCat s buf name = _
  rw [h.cat_of_files hfile, printed_of_noNul text.noNul]

/-- What a file prints does not depend on the other files. -/
theorem Quiet.cat_congr (h : Quiet s) {s' : FsState} (h' : Quiet s')
    (hex : FileExists s.ramdisk name)
    (hfiles : s'.abs.files name.bytes = s.abs.files name.bytes) (buf buf' : Mem) :
    (cmdFsCat s' buf' name).1 = (cmdFsCat s buf name).1 := by
  obtain ⟨c, hc⟩ := Option.ne_none_iff_exists'.mp ((fileExists_iff_files h.sound).mp hex)
  rw [h.cat_of_files hc, h'.cat_of_files (hfiles.trans hc)]

end RoundTrip

/-- No descriptor is in use. -/
def AllFree (s : FsState) : Prop := ∀ n < 32, (s.fds n).used = 0

theorem Quiet.allFree {s : FsState} (h : Quiet s) : AllFree s :=
  fun n hn => not_not.mp fun hu => h.closed n hn ⟨hn, hu⟩

/-- After any lines: a line `write name text` for which there is room succeeds, a following
`cat name` prints the text, and no other file prints differently. -/
theorem write_cat_round_trip (s₀ : FsState) (lines : List (Mem × Line)) (name text : CString)
    (hname : name.bytes ≠ []) (hlen : name.bytes.length ≤ 23) (hspace : space ∉ name.bytes)
    (htext : text.bytes ≠ []) (hstart : text.bytes.head? ≠ some space)
    (writeLine catLine : Line)
    (hwrite : writeLine.text.bytes = chars "write " ++ (name.bytes ++ [space] ++ text.bytes))
    (hcat : catLine.text.bytes = chars "cat " ++ name.bytes)
    (hroom : FileExists (runLines (fsInit s₀) lines).ramdisk name ∨
      fileCount (runLines (fsInit s₀) lines).ramdisk < 63) (buf buf' : Mem) :
    AllFree (runLines (fsInit s₀) lines) ∧
    ∃ s', runLine (runLines (fsInit s₀) lines) buf writeLine =
        (printWrote text.bytes.length, s') ∧ AllFree s' ∧
      (∀ other, FileExists (runLines (fsInit s₀) lines).ramdisk other →
        other.bytes ≠ name.bytes → ∀ b b',
          (cmdFsCat s' b' other).1 = (cmdFsCat (runLines (fsInit s₀) lines) b other).1) ∧
      ∃ s'', runLine s' buf' catLine = (chars "  " ++ text.bytes ++ chars "\n", s'') ∧
        AllFree s'' := by
  have h := (quiet_fsInit s₀).afterLines lines
  generalize runLines (fsInit s₀) lines = s at *
  obtain ⟨s', heq, hquiet, habs⟩ :=
    h.runLine_write hname hlen hspace htext hstart hroom hwrite buf
  have hfile : s'.abs.files name.bytes = some text.bytes := by rw [habs, setFile_files_self]
  refine ⟨h.allFree, s', heq, hquiet.allFree, fun other hex hne b b' => ?_, s', ?_,
    hquiet.allFree⟩
  · apply h.cat_congr hquiet hex
    rw [habs, setFile_files_ne hne]
  · exact hquiet.runLine_cat hname hspace hfile hcat buf'

theorem write_a_b_then_cat_a :
    ∃ s', runLine (fsInit ⟨fun _ => 0, fun _ => File.zero⟩) (fun _ => 0)
        ⟨⟨chars "write a b", by decide⟩, by decide⟩ = (chars "  Wrote 1 bytes.\n", s') ∧
      ∃ s'', runLine s' (fun _ => 0) ⟨⟨chars "cat a", by decide⟩, by decide⟩ =
        (chars "  b\n", s'') := by
  obtain ⟨-, s', hwrite, -, -, s'', hcat, -⟩ :=
    write_cat_round_trip ⟨fun _ => 0, fun _ => File.zero⟩ [] ⟨chars "a", by decide⟩
      ⟨chars "b", by decide⟩ (by decide) (by decide) (by decide) (by decide) (by decide)
      ⟨⟨chars "write a b", by decide⟩, by decide⟩ ⟨⟨chars "cat a", by decide⟩, by decide⟩
      (by decide) (by decide) (.inr (by
        show fileCount (fsInit _).ramdisk < 63
        rw [fileCount_fsInit]
        decide)) (fun _ => 0) (fun _ => 0)
  exact ⟨s', hwrite, s'', hcat⟩

end SengOs.Shell
