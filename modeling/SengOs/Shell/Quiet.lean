import SengOs.Shell.Files

/-!
# The state between two commands

Between two commands no descriptor is open and no file is longer than a line (`Quiet`), so
that each file has at most one block and a block is always free: `write` is never cut short.
Every command keeps `Quiet` and has one effect on the files of the abstract store, which is
what the lemmas of this module state.
-/

namespace SengOs.Shell

open ByteMemory CString Fs FileStore

structure Quiet (s : FsState) : Prop where
  sound : Sound (view s.ramdisk) s.fds
  closed : ∀ n < 32, ¬s.IsOpen n
  short : ∀ n c, s.abs.files n = some c → c.length ≤ 255

/-! ## A free block -/

/-- With fewer files than data blocks, and one block for each file, a block is free. -/
theorem exists_free_block {t : Tables} {fds : Nat → File} (h : Sound t fds)
    (hsize : ∀ i, t.IsFile i → (t.inode i).size ≤ 4096) :
    ∃ b, 5 ≤ b ∧ b < 256 ∧ t.blockBit b = false := by
  by_contra hall
  have howner : ∀ b, 5 ≤ b → b < 256 → ∃ i, t.IsFile i ∧ (t.inode i).blocks 0 = b := by
    intro b hb hb'
    have hused : t.blockBit b = true :=
      Bool.not_eq_false _ ▸ fun hfree => hall ⟨b, hb, hb', hfree⟩
    rcases (h.blockBit_iff b hb').mp hused with hmeta | ⟨i, k, hi, hk, hik⟩
    · omega
    · have hpos := (h.block_iff i k hi hk).mp (by omega)
      have hle := hsize i hi
      have hk0 : k = 0 := by omega
      subst hk0
      exact ⟨i, hi, hik⟩
  choose! owner hfile hblock using howner
  have hmaps : ∀ b ∈ Finset.Ico 5 256, owner b ∈ Finset.Ico 1 64 := by
    intro b hb
    obtain ⟨hb, hb'⟩ := Finset.mem_Ico.mp hb
    have hi := hfile b hb hb'
    exact Finset.mem_Ico.mpr ⟨hi.1, hi.2.1⟩
  have hinj : Set.InjOn owner (Finset.Ico 5 256 : Finset Nat) := by
    intro b hb c hc hbc
    obtain ⟨hb, hb'⟩ := Finset.mem_Ico.mp hb
    obtain ⟨hc, hc'⟩ := Finset.mem_Ico.mp hc
    rw [← hblock b hb hb', ← hblock c hc hc', hbc]
  have hcard := Finset.card_le_card_of_injOn owner hmaps hinj
  rw [Nat.card_Ico, Nat.card_Ico] at hcard
  omega

/-! ## Calls between commands -/

section Calls

variable {s s' : FsState} {name : CString}

theorem Quiet.exists_free (h : Quiet s) : ∃ n < 32, ¬s.IsOpen n :=
  ⟨0, by decide, h.closed 0 (by decide)⟩

/-- A change of one file, with the descriptors as they were. -/
theorem Quiet.setFile (h : Quiet s) (hsound : Sound (view s'.ramdisk) s'.fds)
    (hfds : s'.fds = s.fds) {n : List Byte} {c : Option (List Byte)}
    (habs : s'.abs = s.abs.setFile n c) (hc : ∀ d, c = some d → d.length ≤ 255) : Quiet s' where
  sound := hsound
  closed k hk hopen := h.closed k hk ⟨hk, hfds ▸ hopen.2⟩
  short k d hd := by
    rw [habs] at hd
    rcases eq_or_ne k n with rfl | hne
    · rw [setFile_files_self] at hd
      exact hc d hd
    · rw [setFile_files_ne hne] at hd
      exact h.short k d hd

theorem Quiet.create (h : Quiet s) (hcreate : 0 ≤ (fsCreate s (some name)).1) :
    Quiet (fsCreate s (some name)).2 ∧
      (fsCreate s (some name)).2.abs = s.abs.setFile name.bytes (some []) := by
  obtain ⟨hsound, hfds, habs, -⟩ := fsCreate_files h.sound hcreate
  refine ⟨h.setFile hsound hfds habs fun d hd => ?_, habs⟩
  cases hd
  exact Nat.zero_le 255

theorem Quiet.create_failed (h : Quiet s) (hcreate : (fsCreate s (some name)).1 < 0) :
    (fsCreate s (some name)).2 = s :=
  h.sound.unchanged (c := .create (some name)) hcreate

/-- `fs_unlink` fails only if there is no such file. -/
theorem Quiet.unlink (h : Quiet s) (name : CString) :
    Quiet (fsUnlink s name).2 ∧ (fsUnlink s name).2.abs = s.abs.setFile name.bytes none := by
  by_cases hex : FileExists s.ramdisk name
  · have hzero : (fsUnlink s name).1 = 0 :=
      (h.sound.unlinkCodes name).unlinked hex fun i n _ hn => absurd hn (h.closed n hn.1)
    obtain ⟨hsound, hfds, habs⟩ := fsUnlink_files h.sound hzero
    exact ⟨h.setFile hsound hfds habs nofun, habs⟩
  · rw [fsUnlink_of_missing h.sound hex]
    have hnone := not_not.mp ((fileExists_iff_files h.sound).not.mp hex)
    exact ⟨h, (setFile_of_eq hnone).symm⟩

theorem Quiet.size_le (h : Quiet s) {i : Nat} (hi : (view s.ramdisk).IsFile i) :
    ((view s.ramdisk).inode i).size ≤ 255 := by
  have hlen := h.short _ _ (h.sound.files_of_hasFile ⟨hi, rfl⟩)
  rwa [Tables.length_content] at hlen

theorem Quiet.exists_free_block (h : Quiet s) :
    ∃ b, 5 ≤ b ∧ b < 256 ∧ (view s.ramdisk).blockBit b = false :=
  Shell.exists_free_block h.sound fun _ hi => (h.size_le hi).trans (by decide)

/-- Between commands every write of a line's length is complete. -/
theorem Quiet.writeFile (h : Quiet s) (hfile : s.abs.files name.bytes = some [])
    {text : CString} (htext : text.bytes.length ≤ 255) :
    ∃ (n : Nat) (s₁ s₂ s₃ : FsState), fsOpen s name = ((n : Int), s₁) ∧
      fsWrite s₁ n (some text.byteAt) (strlen text) = ((text.bytes.length : Int), s₂) ∧
      fsClose s₂ n = (0, s₃) ∧ Quiet s₃ ∧
      s₃.abs = s.abs.setFile name.bytes (some text.bytes) := by
  obtain ⟨n, r, s₁, s₂, s₃, hopen, hwrite, hclose, hsound, hfds, habs, hr⟩ :=
    writeFile_of_empty h.sound hfile h.exists_free text
  obtain ⟨b, hb, hb', hbit⟩ := h.exists_free_block
  have hroom : 0 < (view s.ramdisk).freeList.length :=
    List.length_pos_of_mem (FirstFit.mem_clear.mpr ⟨⟨hb, hb'⟩, hbit⟩)
  have hall : r = text.bytes.length := by omega
  rw [hall, List.take_length] at habs
  rw [hall] at hwrite
  refine ⟨n, s₁, s₂, s₃, hopen, hwrite, hclose, h.setFile hsound hfds habs fun d hd => ?_, habs⟩
  cases hd
  exact htext

end Calls

/-! ## Commands -/

section Commands

variable {s : FsState}

theorem Quiet.touch (h : Quiet s) (name : CString) : Quiet (cmdFsTouch s name).2 := by
  have hcreated : Quiet (fsCreate s (some name)).2 := by
    rcases lt_or_ge (fsCreate s (some name)).1 0 with hfail | hdone
    · rw [h.create_failed hfail]
      exact h
    · exact (h.create hdone).1
  unfold cmdFsTouch
  dsimp only
  split
  · exact h
  · split
    · exact hcreated
    · split <;> exact hcreated

theorem Quiet.rm (h : Quiet s) (name : CString) : Quiet (cmdFsRm s name).2 := by
  have hunlinked := (h.unlink name).1
  unfold cmdFsRm
  dsimp only
  split
  · exact h
  · split <;> exact hunlinked

/-- `cat` prints a file as it is in the abstract store, and changes nothing. -/
theorem Quiet.cat_of_files (h : Quiet s) {name : CString} {c : List Byte}
    (hc : s.abs.files name.bytes = some c) (buf : Mem) :
    cmdFsCat s buf name = (chars "  " ++ printed c ++ chars "\n", s) := by
  obtain ⟨i, hi, rfl⟩ := hasFile_of_files h.sound hc
  exact cmdFsCat_of_hasFile h.sound hi h.exists_free buf

theorem Quiet.cat (h : Quiet s) (buf : Mem) (name : CString) : (cmdFsCat s buf name).2 = s := by
  cases hc : s.abs.files name.bytes with
  | some c => rw [h.cat_of_files hc]
  | none =>
    have hnone : ¬FileExists s.ramdisk name := fun hex =>
      (fileExists_iff_files h.sound).mp hex hc
    unfold cmdFsCat
    dsimp only
    rw [fsOpen_of_missing h.sound hnone]
    split
    · rfl
    · rfl

theorem Quiet.removeOld_eq (h : Quiet s) (name : CString) :
    removeOld s name = (fsUnlink s name).2 := by
  rw [Shell.removeOld_eq h.sound]
  by_cases hex : FileExists s.ramdisk name
  · rw [if_pos ((h.sound.openCodes name).opened hex h.exists_free)]
  · rw [fsOpen_of_missing h.sound hex, fsUnlink_of_missing h.sound hex]
    exact ite_self s

/-- `write` of a file that can be created. -/
theorem Quiet.write_of_created (h : Quiet s) {args : CString}
    (hname : (parseWrite args).1.bytes ≠ []) (htext : (parseWrite args).2.bytes ≠ [])
    (hlen : (parseWrite args).2.bytes.length ≤ 255)
    (hcreate : 0 ≤ (fsCreate (fsUnlink s (parseWrite args).1).2 (some (parseWrite args).1)).1) :
    ∃ s', cmdFsWrite s args = (printWrote (parseWrite args).2.bytes.length, s') ∧ Quiet s' ∧
      s'.abs = s.abs.setFile (parseWrite args).1.bytes (some (parseWrite args).2.bytes) := by
  rw [cmdFsWrite_of_parsed hname htext]
  generalize (parseWrite args).1 = name at *
  generalize (parseWrite args).2 = text at *
  obtain ⟨hunlinked, habs⟩ := h.unlink name
  obtain ⟨hcreated, habs'⟩ := hunlinked.create hcreate
  rw [habs, setFile_setFile] at habs'
  have hfile : (fsCreate (fsUnlink s name).2 (some name)).2.abs.files name.bytes = some [] := by
    rw [habs', setFile_files_self]
  obtain ⟨n, s₁, s₂, s₃, hopen, hwrite, hclose, hquiet, hlast⟩ := hcreated.writeFile hfile hlen
  rw [habs', setFile_setFile] at hlast
  refine ⟨s₃, ?_, hquiet, hlast⟩
  dsimp only
  rw [h.removeOld_eq, if_neg hcreate.not_gt, hopen]
  dsimp only
  rw [if_neg (Int.natCast_nonneg n).not_gt, hwrite]
  dsimp only
  rw [hclose, if_neg (Int.natCast_nonneg _).not_gt]

theorem Quiet.write (h : Quiet s) {args : CString}
    (hlen : (parseWrite args).2.bytes.length ≤ 255) : Quiet (cmdFsWrite s args).2 := by
  by_cases hname : (parseWrite args).1.bytes = []
  · rw [cmdFsWrite_of_usage (Or.inl hname)]
    exact h
  by_cases htext : (parseWrite args).2.bytes = []
  · rw [cmdFsWrite_of_usage (Or.inr htext)]
    exact h
  rcases lt_or_ge (fsCreate (fsUnlink s (parseWrite args).1).2 (some (parseWrite args).1)).1 0
    with hfail | hcreate
  · obtain ⟨hunlinked, -⟩ := h.unlink (parseWrite args).1
    rw [cmdFsWrite_of_parsed hname htext]
    dsimp only
    rw [h.removeOld_eq, if_pos hfail, hunlinked.create_failed hfail]
    exact hunlinked
  · obtain ⟨s', heq, hquiet, -⟩ := h.write_of_created hname htext hlen hcreate
    rw [heq]
    exact hquiet

end Commands

/-! ## Lines -/

section Lines

theorem length_kLtrim_le (p : CString) : (kLtrim p).bytes.length ≤ p.bytes.length :=
  (List.dropWhile_sublist _).length_le

theorem length_advance_le (p : CString) (n : Nat) :
    (advance p n).bytes.length ≤ p.bytes.length :=
  (List.drop_sublist n _).length_le

theorem length_text_le (args : CString) :
    (parseWrite args).2.bytes.length ≤ args.bytes.length := by
  refine (length_kLtrim_le _).trans ?_
  have happend := readName_append (kLtrim args).bytes (fsMaxName - 1)
  have hlen := congrArg List.length happend
  have hle := length_kLtrim_le args
  rw [List.length_append] at hlen
  dsimp only
  omega

theorem of_ite_eq {α : Type*} {p : Prop} [Decidable p] {x y z : α}
    (h : (if p then x else y) = z) (hne : x ≠ z) : y = z := by
  by_cases hp : p
  · rw [if_pos hp] at h
    exact absurd h hne
  · rwa [if_neg hp] at h

theorem dispatch_write_eq {line args : CString} (h : dispatch line = some (.write args)) :
    args = kLtrim (advance (kLtrim line) 6) := by
  unfold dispatch at h
  -- the tests before the one for `write`, none of which gives a `write`
  iterate 14 replace h := of_ite_eq h nofun
  by_cases htest : kStrncmp (kLtrim line).byteAt (literal "write ") 6 = 0
  · rw [if_pos htest] at h
    cases h
    rfl
  · rw [if_neg htest] at h
    iterate 2 replace h := of_ite_eq h nofun
    cases h

variable {s : FsState}

theorem Quiet.afterLine (h : Quiet s) (buf : Mem) (line : Line) :
    Quiet (runLine s buf line).2 := by
  unfold runLine
  cases hc : dispatch line.text with
  | none => exact h
  | some c =>
    cases c with
    | ls => exact h
    | touch name => exact h.touch name
    | cat name =>
      show Quiet (cmdFsCat s buf name).2
      rw [h.cat buf name]
      exact h
    | write args =>
      apply h.write
      calc (parseWrite args).2.bytes.length
        _ ≤ args.bytes.length := length_text_le args
        _ ≤ (advance (kLtrim line.text) 6).bytes.length := by
          rw [dispatch_write_eq hc]
          exact length_kLtrim_le _
        _ ≤ (kLtrim line.text).bytes.length := length_advance_le _ 6
        _ ≤ line.text.bytes.length := length_kLtrim_le _
        _ ≤ 255 := line.fits
    | rm name => exact h.rm name

theorem Quiet.afterLines (h : Quiet s) (lines : List (Mem × Line)) :
    Quiet (runLines s lines) := by
  induction lines generalizing s with
  | nil => exact h
  | cons l lines ih => exact ih (h.afterLine l.1 l.2)

theorem quiet_fsInit (s₀ : FsState) : Quiet (fsInit s₀) where
  sound := sound_fsInit s₀
  closed n hn hopen := hopen.2 (congrArg File.used (fsInit_fds s₀ hn))
  short n c hc := by
    rw [abs_fsInit] at hc
    cases hc

end Lines

end SengOs.Shell
