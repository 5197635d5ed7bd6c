import SengOs.Fs.Failures
import SengOs.Fs.Rounds

/-!
# Creating, using and deleting a file

`fs_create`, `fs_open`, transfers through the descriptor, `fs_close` and `fs_unlink` are a
bracket around the transfers. Within it only the new file changes (`Tables.Within`), its
blocks were free before, and the freeing of all of them at the end restores the tables, since
the block bitmap is determined by the inodes. Equal tables are equal bytes (`eq_of_view`), so
what may remain is in data blocks that are free.
-/

namespace SengOs.Fs

open ByteMemory CString

inductive Transfer where
  | read (buf : Mem) (count : Nat)
  | write (buf : Mem) (count : Nat)

def Transfer.call (fd : Nat) : Transfer → Call
  | .read buf count => .read fd (some buf) count
  | .write buf count => .write fd (some buf) count

def bracket (name : CString) (fd : Nat) (transfers : List Transfer) : List Call :=
  [.create (some name), .open name] ++ transfers.map (Transfer.call fd) ++
    [.close fd, .unlink name]

/-- The values that the calls return. -/
def results (s : FsState) : List Call → List Int
  | [] => []
  | c :: cs => result s c :: results (exec s c) cs

/-- `s'` has the tables and descriptors of `s`, byte for byte, and differs from it at most in
data blocks that are free in `s`. -/
structure NoTrace (s s' : FsState) : Prop where
  fds : s'.fds = s.fds
  tables : ∀ a < fsDataStart * fsBlockSize, s'.ramdisk a = s.ramdisk a
  data : ∀ a, s'.ramdisk a ≠ s.ramdisk a → ∃ b, fsDataStart ≤ b ∧ b < fsNumBlocks ∧
    bitTest s.ramdisk blockBitmap b = false ∧ b * fsBlockSize ≤ a ∧ a < (b + 1) * fsBlockSize

theorem results_append (s : FsState) (cs cs' : List Call) :
    results s (cs ++ cs') = results s cs ++ results (runCalls s cs) cs' := by
  induction cs generalizing s with
  | nil => rfl
  | cons c cs ih =>
    rw [List.cons_append, results, results, List.cons_append, ih]
    rfl

/-! ## Bytes outside the tables -/

section Rest

variable {s : FsState}

theorem sameRest_fsCreate (s : FsState) (name : Option CString) :
    SameRest s.ramdisk (fsCreate s name).2.ramdisk := by
  cases name with
  | none => exact .refl _
  | some name =>
    unfold fsCreate
    dsimp only
    split
    · exact .refl _
    · rename_i hgood
      have hlen : name.bytes.length < 24 := Nat.lt_of_not_le (not_or.mp hgood).2
      split
      · exact .refl _
      · cases hino : allocInode s.ramdisk with
        | none => exact .refl _
        | some p =>
          obtain ⟨i, m₁⟩ := p
          obtain ⟨-, hi, -⟩ := allocInode_some hino
          have hrest := sameRest_allocInode hino
          dsimp only
          cases hdir : addDirent m₁ name i with
          | none => exact hrest.trans (sameRest_freeInode _ _)
          | some m₂ =>
            refine (hrest.trans (sameRest_addDirent (by omega) hdir)).trans ?_
            exact sameRest_inode hi ((strncpy_frame _ _ _ hlen).mono (by omega) (by omega))

theorem sameRest_fsUnlink (s : FsState) (name : CString) :
    SameRest s.ramdisk (fsUnlink s name).2.ramdisk := by
  unfold fsUnlink
  split
  · exact .refl _
  · dsimp only
    split
    · exact .refl _
    · split
      · exact .refl _
      · exact ((sameRest_freeBlocks _ _ _).trans (sameRest_freeInode _ _)).trans
          (sameRest_removeDirent _ _)

end Rest

/-! ## The tables of a bracket -/

section Restored

variable {m m' : Mem} {fds fds' : Nat → File} {i d : Nat} {name : CString} {t' : Tables}

theorem view_blockBit_of_ge {b : Nat} (hb : 256 ≤ b) : (view m).blockBit b = false := by
  dsimp only [view]
  rw [decide_eq_false (Nat.not_lt_of_le hb), Bool.false_and]

/-- The block bitmap is determined by the inodes. -/
theorem blockBit_of_inode (h : Sound (view m) fds) (h' : Sound (view m') fds')
    (hinode : (view m').inode = (view m).inode) : (view m').blockBit = (view m).blockBit := by
  have hfile (j : Nat) : (view m').IsFile j ↔ (view m).IsFile j := by
    rw [Tables.IsFile, Tables.IsFile, hinode]
  funext b
  rcases Nat.lt_or_ge b 256 with hb | hb
  · rw [Bool.eq_iff_iff, h'.blockBit_iff b hb, h.blockBit_iff b hb]
    simp only [hfile, hinode]
  · rw [view_blockBit_of_ge hb, view_blockBit_of_ge hb]

/-- Removing a file that was created and used in between leaves the tables as they were, with
what the file's blocks now hold. -/
theorem unlink_restores (h : Sound (view m) fds) (hi : i < 64)
    (hbit : (view m).inodeBit i = false) (hd : d < 128) (hd0 : ((view m).dirent d).used = 0)
    (hwithin : ((view m).create i d name).Within i t') (hview : view m' = t'.unlink i d) :
    (view m').inodeBit = (view m).inodeBit ∧ (view m').inode = (view m).inode ∧
      (view m').dirent = (view m).dirent ∧
      ∀ b, 5 ≤ b → (view m).blockBit b = true → (view m').data b = (view m).data b := by
  have hinode : (view m').inode = (view m).inode := by
    rw [hview]
    funext j
    rcases eq_or_ne j i with rfl | hj
    · rw [Tables.unlink_inode_self, h.zero_of_free hi hbit]
    · rw [Tables.unlink_inode_ne hj, hwithin.inode j hj, Tables.create_inode_ne hj]
  refine ⟨?_, hinode, ?_, fun b hb hused => ?_⟩
  · rw [hview]
    show Function.update t'.inodeBit i false = _
    rw [hwithin.inodeBit]
    show Function.update (Function.update (view m).inodeBit i true) i false = _
    rw [Function.update_idem, ← hbit, Function.update_eq_self]
  · rw [hview]
    show Function.update t'.dirent d Dirent.zero = _
    rw [hwithin.dirent]
    show Function.update (Function.update (view m).dirent d _) d Dirent.zero = _
    rw [Function.update_idem, ← h.free_dirent d hd hd0, Function.update_eq_self]
  · rw [hview]
    refine hwithin.data b hused fun k _ hkb => ?_
    rw [Tables.create_inode_self] at hkb
    have hzero : 0 = b := hkb
    omega

theorem noTrace_of_tables {s s' : FsState} (h : Sound (view s.ramdisk) s.fds)
    (h' : Sound (view s'.ramdisk) s'.fds) (hfds : s'.fds = s.fds)
    (hrest : SameRest s.ramdisk s'.ramdisk)
    (hinodeBit : (view s'.ramdisk).inodeBit = (view s.ramdisk).inodeBit)
    (hinode : (view s'.ramdisk).inode = (view s.ramdisk).inode)
    (hdirent : (view s'.ramdisk).dirent = (view s.ramdisk).dirent)
    (hdata : ∀ b, 5 ≤ b → (view s.ramdisk).blockBit b = true →
      (view s'.ramdisk).data b = (view s.ramdisk).data b) : NoTrace s s' := by
  have hblockBit := blockBit_of_inode h h' hinode
  have htables {a : Nat} (ha : a < 20480) : s'.ramdisk a = s.ramdisk a :=
    eq_of_view hrest hinodeBit hblockBit hinode hdirent ha
  refine ⟨hfds, fun a ha => htables (by simpa using ha), fun a hne => ?_⟩
  have hge : 20480 ≤ a := Nat.le_of_not_lt fun hlt => hne (htables hlt)
  have hlt : a < 1048576 := Nat.lt_of_not_le fun hge => hne (hrest a (.inr (.inr (.inr hge))))
  have h256 : a / 4096 < 256 := by omega
  refine ⟨a / 4096, ?_, ?_, ?_, ?_, ?_⟩
  · simp only [fsDataStart]
    omega
  · simpa using h256
  · rw [bitTest_blockBitmap h256, Bool.eq_false_iff]
    intro hused
    have hbyte := eq_of_data (hdata _ (by omega) hused) (by omega) h256
      (Nat.mod_lt a (by decide : 0 < 4096))
    rw [Nat.div_add_mod'] at hbyte
    exact hne hbyte
  · simp only [fsBlockSize]
    omega
  · simp only [fsBlockSize]
    omega

end Restored

/-! ## Between `fs_open` and `fs_close` -/

/-- `s'` is reached from `s` by transfers through descriptor `n`, which is on file `i`. -/
structure Using (s s' : FsState) (n i : Nat) : Prop where
  sound : Sound (view s'.ramdisk) s'.fds
  isOpen : s'.IsOpen n
  inode : (s'.fds n).inode = i
  others : ∀ k, k ≠ n → s'.fds k = s.fds k
  within : (view s.ramdisk).Within i (view s'.ramdisk)
  rest : SameRest s.ramdisk s'.ramdisk

namespace Using

variable {s s' : FsState} {n i : Nat}

theorem transfer (h : Using s s' n i) (tr : Transfer) :
    0 ≤ result s' (tr.call n) ∧ Using s (exec s' (tr.call n)) n i := by
  have hseek {k pos : Nat} (hk : k ≠ n) : (s'.seek n pos).fds k = s.fds k :=
    (Function.update_of_ne hk ..).trans (h.others k hk)
  have hsound := (refines_exec h.sound (tr.call n)).sound
  cases tr with
  | read buf count =>
    have heq := fsRead_open h.sound h.isOpen buf count
    obtain ⟨hopen, hino⟩ := exec_fds h.sound (c := .read n (some buf) count) nofun h.isOpen
    refine ⟨?_, hsound, hopen, hino.trans h.inode, fun k hk => ?_, ?_, ?_⟩
    · show 0 ≤ (fsRead s' n (some buf) count).1
      rw [heq]
      exact Int.natCast_nonneg _
    · show (fsRead s' n (some buf) count).2.2.fds k = _
      rw [heq]
      exact hseek hk
    · show (view s.ramdisk).Within i (view (fsRead s' n (some buf) count).2.2.ramdisk)
      rw [heq]
      exact h.within
    · show SameRest s.ramdisk (fsRead s' n (some buf) count).2.2.ramdisk
      rw [heq]
      exact h.rest
  | write buf count =>
    obtain ⟨r, s'', heq, hw⟩ := fsWrite_open h.sound h.isOpen buf count
    obtain ⟨hwithin, hrest⟩ := fsWrite_within h.sound h.isOpen buf count
    obtain ⟨hopen, hino⟩ := exec_fds h.sound (c := .write n (some buf) count) nofun h.isOpen
    rw [h.inode] at hwithin
    refine ⟨?_, hsound, hopen, hino.trans h.inode, fun k hk => ?_, h.within.trans hwithin,
      h.rest.trans hrest⟩
    · show 0 ≤ (fsWrite s' n (some buf) count).1
      rw [heq]
      exact Int.natCast_nonneg r
    · show (fsWrite s' n (some buf) count).2.fds k = _
      rw [heq, hw.fds]
      exact hseek hk

theorem transfers (h : Using s s' n i) (trs : List Transfer) :
    (∀ r ∈ results s' (trs.map (Transfer.call n)), 0 ≤ r) ∧
      Using s (runCalls s' (trs.map (Transfer.call n))) n i := by
  induction trs generalizing s' with
  | nil => exact ⟨nofun, h⟩
  | cons tr trs ih =>
    obtain ⟨hnonneg, hnext⟩ := h.transfer tr
    obtain ⟨hrest, hlast⟩ := ih hnext
    refine ⟨fun r hr => ?_, hlast⟩
    rcases List.mem_cons.mp hr with rfl | hr
    · exact hnonneg
    · exact hrest r hr

end Using

/-! ## The bracket -/

section Bracket

variable {s : FsState} {name : CString} {i : Nat}

theorem fsOpen_of_hasFile (h : Sound (view s.ramdisk) s.fds)
    (hi : (view s.ramdisk).HasFile name.bytes i) (hfree : ∃ n < 32, ¬s.IsOpen n) :
    ∃ n : Nat, n < 32 ∧ ¬s.IsOpen n ∧ fsOpen s name = ((n : Int), s.setFd n (File.opened i)) := by
  rcases fsOpen_cases h name with ⟨-, hnone⟩ | ⟨d, hd, hstr, ⟨-, hall⟩ | ⟨n, heq, hn, hfree, -⟩⟩
  · obtain ⟨d, hd, hstr, -⟩ := h.hasFile_iff.mp hi
    exact absurd hstr (hnone d hd)
  · obtain ⟨n, hn, hfree⟩ := hfree
    exact absurd (hall n hn) hfree
  · have hself := h.hasFile_of_entry hd
    rw [hstr] at hself
    rw [h.hasFile_unique hself hi] at heq
    exact ⟨n, hn, hfree, heq⟩

theorem fsUnlink_of_entry (h : Sound (view s.ramdisk) s.fds) {d : Nat}
    (hd : (view s.ramdisk).IsEntry d) (hstr : ((view s.ramdisk).dirent d).str = name.bytes)
    (hclosed : ∀ n, s.IsOpen n → (s.fds n).inode ≠ ((view s.ramdisk).dirent d).inode) :
    (fsUnlink s name).1 = 0 ∧ (fsUnlink s name).2.fds = s.fds ∧
      view (fsUnlink s name).2.ramdisk =
        (view s.ramdisk).unlink ((view s.ramdisk).dirent d).inode d := by
  rcases fsUnlink_cases h name with ⟨-, hnone⟩ | ⟨e, j, he, hname, rfl, hrest⟩
  · exact absurd hstr (hnone d hd)
  · cases h.name_inj d e hd he (hstr.trans hname.symm)
    rcases hrest with ⟨-, n, hn, hni⟩ | ⟨-, m, heq, hview⟩
    · exact absurd hni (hclosed n hn)
    · rw [heq]
      exact ⟨rfl, rfl, hview⟩

theorem fsClose_of_isOpen {n : Nat} (hn : s.IsOpen n) :
    fsClose s n = (0, s.setFd n File.zero) := by
  rcases fsClose_cases s n with ⟨-, hclosed⟩ | ⟨k, hk, -, heq⟩
  · exact absurd hn (hclosed n rfl)
  · cases Int.ofNat_inj.mp hk
    exact heq

/-- `m` is the disk after `fs_create` has put the file `name` into inode `i` and entry `d`. -/
structure Created (s : FsState) (name : CString) (m : Mem) (i d : Nat) : Prop where
  sound : Sound (view m) s.fds
  inode_pos : 1 ≤ i
  inode_lt : i < 64
  inode_free : (view s.ramdisk).inodeBit i = false
  entry_lt : d < 128
  entry_free : ((view s.ramdisk).dirent d).used = 0
  name_lt : name.bytes.length < 24
  tables : view m = (view s.ramdisk).create i d name
  rest : SameRest s.ramdisk m

theorem created_of_succeeded (h : Sound (view s.ramdisk) s.fds)
    (hcreate : 0 ≤ (fsCreate s (some name)).1) :
    ∃ m i d, (fsCreate s (some name)).2 = { s with ramdisk := m } ∧ Created s name m i d := by
  have hrest := sameRest_fsCreate s (some name)
  rcases fsCreate_cases h (some name) with ⟨heq, -⟩ | ⟨n, hn, hne, hlen, ⟨heq, -⟩ |
    ⟨hnew, ⟨heq, -⟩ | ⟨i, d, m, heq, hi, hi', hbit, hd, hd0, hview⟩⟩⟩
  case inr.inr.inr =>
    cases hn
    rw [heq] at hrest
    refine ⟨m, i, d, congrArg Prod.snd heq, ?_, hi, hi', hbit, hd, hd0, hlen, hview, hrest⟩
    rw [hview]
    exact h.create hi hi' hbit hd hd0 hne hlen hnew
  all_goals
    rw [heq] at hcreate
    contradiction

namespace Created

variable {m : Mem} {d n : Nat} {s' : FsState}

theorem hasFile (hm : Created s name m i d) : (view m).HasFile name.bytes i := by
  rw [hm.tables]
  refine ⟨(Tables.create_isFile hm.inode_pos hm.inode_lt i).mpr (.inl rfl), ?_⟩
  rw [Tables.create_inode_self]
  exact Inode.str_freshNamed hm.name_lt

theorem dirent (hm : Created s name m i d) :
    (view m).dirent d = ((view s.ramdisk).dirent d).named name i := by
  rw [hm.tables]
  exact Tables.create_dirent_self

/-- `fs_open` of the new file. -/
theorem opened (hm : Created s name m i d) (hfree : ∃ n < 32, ¬s.IsOpen n) :
    ∃ n : Nat, ¬s.IsOpen n ∧
      fsOpen { s with ramdisk := m } name =
        ((n : Int), ({ s with ramdisk := m } : FsState).setFd n (File.opened i)) ∧
      Using { s with ramdisk := m }
        (({ s with ramdisk := m } : FsState).setFd n (File.opened i)) n i := by
  obtain ⟨n, hn, hclosed, hopen⟩ :=
    fsOpen_of_hasFile (s := { s with ramdisk := m }) hm.sound hm.hasFile hfree
  have hsound := Sound.setFd (s := { s with ramdisk := m }) (n := n) hm.sound
    (.opened hm.hasFile.1)
  refine ⟨n, hclosed, hopen, hsound, isOpen_opened hn i, ?_,
    fun k hk => Function.update_of_ne hk .., .refl _ _, .refl _⟩
  rw [setFd_opened]
  rfl

/-- `fs_close` and `fs_unlink` after the transfers. -/
theorem closed (hm : Created s name m i d) (h : Sound (view s.ramdisk) s.fds)
    (hclosed : ¬s.IsOpen n) (husing : Using { s with ramdisk := m } s' n i) :
    (∀ r ∈ results s' [.close n, .unlink name], 0 ≤ r) ∧
      NoTrace s (runCalls s' [.close n, .unlink name]) := by
  have hn := husing.isOpen.1
  have hclose := fsClose_of_isOpen husing.isOpen
  have hfds : (s'.setFd n File.zero).fds = s.fds := by
    funext k
    rcases eq_or_ne k n with rfl | hk
    · refine (Function.update_self ..).trans ((h.fd_sound k hn).free ?_).symm
      exact not_not.mp fun hu => hclosed ⟨hn, hu⟩
    · exact (Function.update_of_ne hk ..).trans (husing.others k hk)
  have hsound : Sound (view (s'.setFd n File.zero).ramdisk) (s'.setFd n File.zero).fds :=
    { husing.sound with toFdSound := husing.sound.toFdSound.update .zero }
  have hdirent : (view s'.ramdisk).dirent d = ((view s.ramdisk).dirent d).named name i :=
    (congrFun husing.within.dirent d).trans hm.dirent
  have hino : ((view s'.ramdisk).dirent d).inode = i := by
    rw [hdirent]
    exact Nat.mod_eq_of_lt (hm.inode_lt.trans (by decide))
  have hentry : (view s'.ramdisk).IsEntry d := by
    refine ⟨hm.entry_lt, ?_⟩
    rw [hdirent]
    exact (by decide : (1 : Byte) ≠ 0)
  have hstr : ((view s'.ramdisk).dirent d).str = name.bytes := by
    rw [hdirent]
    exact Dirent.str_named _ _ hm.name_lt
  obtain ⟨hzero, hfds', hview⟩ := fsUnlink_of_entry hsound hentry hstr fun k hk hki => by
    -- a descriptor that was open before is on a file that was there before
    rw [FsState.IsOpen, hfds] at hk
    rw [hfds] at hki
    refine h.not_isFile_of_free hm.inode_lt hm.inode_free ?_
    rw [← hino]
    exact hki ▸ (h.fd_sound k hk.1).file hk.2
  have hlast := (refines_exec hsound (.unlink name)).sound
  have hrun : runCalls s' [.close n, .unlink name] =
      (fsUnlink (s'.setFd n File.zero) name).2 := by
    show (fsUnlink (fsClose s' n).2 name).2 = _
    rw [hclose]
  refine ⟨fun r hr => ?_, ?_⟩
  · have hres : results s' [.close n, .unlink name] = [0, 0] := by
      show [(fsClose s' n).1, (fsUnlink (fsClose s' n).2 name).1] = _
      rw [hclose, hzero]
    rw [hres] at hr
    simp only [List.mem_cons, List.not_mem_nil, or_self, or_false] at hr
    exact hr.ge
  · rw [hrun]
    change view _ = (view s'.ramdisk).unlink ((view s'.ramdisk).dirent d).inode d at hview
    rw [hino] at hview
    have hwithin := husing.within
    rw [show (view ({ s with ramdisk := m } : FsState).ramdisk) = _ from hm.tables] at hwithin
    obtain ⟨hinodeBit, hinode, hdirent, hdata⟩ := unlink_restores h hm.inode_lt hm.inode_free
      hm.entry_lt hm.entry_free hwithin hview
    exact noTrace_of_tables h hlast (hfds'.trans hfds)
      ((hm.rest.trans husing.rest).trans (sameRest_fsUnlink _ name)) hinodeBit hinode hdirent hdata

end Created

end Bracket

/-- Creating a file, using it through one descriptor and deleting it leaves no trace, from
every state of a run in which it can be created and a descriptor is free. -/
theorem bracket_leaves_no_trace (s₀ : FsState) (calls : List Call) (name : CString)
    (trs : List Transfer)
    (hcreate : 0 ≤ (fsCreate (runCalls (fsInit s₀) calls) (some name)).1)
    (hfree : ∃ n < 32, ¬(runCalls (fsInit s₀) calls).IsOpen n) :
    ∃ fd : Nat, (fsOpen (fsCreate (runCalls (fsInit s₀) calls) (some name)).2 name).1 = fd ∧
      (∀ r ∈ results (runCalls (fsInit s₀) calls) (bracket name fd trs), 0 ≤ r) ∧
      NoTrace (runCalls (fsInit s₀) calls)
        (runCalls (runCalls (fsInit s₀) calls) (bracket name fd trs)) := by
  have h := sound_run s₀ calls
  generalize runCalls (fsInit s₀) calls = s at *
  obtain ⟨m, i, d, hm, hcreated⟩ := created_of_succeeded h hcreate
  obtain ⟨n, hclosed, hopen, husing⟩ := hcreated.opened hfree
  obtain ⟨hnonneg, hlast⟩ := husing.transfers trs
  obtain ⟨hend, hnoTrace⟩ := hcreated.closed h hclosed hlast
  have hopened : runCalls s [.create (some name), .open name] =
      ({ s with ramdisk := m } : FsState).setFd n (File.opened i) := by
    show (fsOpen (fsCreate s (some name)).2 name).2 = _
    rw [hm, hopen]
  have hresults : results s [.create (some name), .open name] =
      [(fsCreate s (some name)).1, (n : Int)] := by
    show [_, (fsOpen (fsCreate s (some name)).2 name).1] = _
    rw [hm, hopen]
    rfl
  refine ⟨n, by rw [hm, hopen], fun r hr => ?_, ?_⟩
  · rw [bracket, results_append, results_append, runCalls_append, hopened, hresults] at hr
    rcases List.mem_append.mp hr with hr | hr
    · rcases List.mem_append.mp hr with hr | hr
      · simp only [List.mem_cons, List.not_mem_nil, or_false] at hr
        rcases hr with rfl | rfl
        · exact hcreate
        · exact Int.natCast_nonneg n
      · exact hnonneg r hr
    · exact hend r hr
  · rw [bracket, runCalls_append, runCalls_append, hopened]
    exact hnoTrace

theorem fileCount_fsInit (s₀ : FsState) : fileCount (fsInit s₀).ramdisk = 0 := by
  apply Finset.card_eq_zero.mpr
  apply Finset.filter_eq_empty_iff.mpr
  intro i _ hi
  have hfile := (sound_fsInit s₀).usedFile_iff.mp hi
  rw [view_fsInit] at hfile
  exact Tables.initial_not_isFile i hfile

/-- Any proper name can be created right after `fs_init`. -/
theorem fsCreate_fsInit (s₀ : FsState) {name : CString} (hname : ¬InvalidName name) :
    0 ≤ (fsCreate (fsInit s₀) (some name)).1 := by
  have h := sound_fsInit s₀
  have hnone : ¬FileExists (fsInit s₀).ramdisk name := by
    rw [h.fileExists_iff, view_fsInit]
    exact fun ⟨d, hd, _⟩ => Tables.initial_not_isEntry d hd
  have hroom : fileCount (fsInit s₀).ramdisk ≠ 63 := by
    rw [fileCount_fsInit]
    decide
  obtain ⟨i, hi, -⟩ := (h.createCodes name).created hname hnone hroom
  rw [hi]
  exact Int.natCast_nonneg i

theorem not_invalidName_rootName : ¬InvalidName rootName :=
  fun hbad => hbad.elim nofun (by decide)

/-- A file created right after `fs_init` can be opened. -/
theorem isOpen_after_init (s₀ : FsState) {name : CString} (hname : ¬InvalidName name) :
    ∃ n : Nat, (runCalls (fsInit s₀) [.create (some name), .open name]).IsOpen n := by
  obtain ⟨m, i, d, hm, hcreated⟩ :=
    created_of_succeeded (sound_fsInit s₀) (fsCreate_fsInit s₀ hname)
  have hfree : ∃ n < 32, ¬(fsInit s₀).IsOpen n :=
    ⟨0, by decide, fun hopen => hopen.2 (congrArg File.used (fsInit_fds _ (by decide)))⟩
  obtain ⟨n, -, hopen, husing⟩ := hcreated.opened hfree
  have hrun : runCalls (fsInit s₀) [.create (some name), .open name] =
      ({ fsInit s₀ with ramdisk := m } : FsState).setFd n (File.opened i) := by
    show (fsOpen (fsCreate (fsInit s₀) (some name)).2 name).2 = _
    rw [hm, hopen]
  exact ⟨n, hrun ▸ husing.isOpen⟩

theorem bracket_after_init :
    ∃ fd : Nat, (fsOpen (fsCreate (fsInit ⟨fun _ => 0, fun _ => File.zero⟩)
        (some rootName)).2 rootName).1 = fd ∧
      (∀ r ∈ results (fsInit ⟨fun _ => 0, fun _ => File.zero⟩)
        (bracket rootName fd [.write (fun _ => 0x41) 5000]), 0 ≤ r) ∧
      NoTrace (fsInit ⟨fun _ => 0, fun _ => File.zero⟩)
        (runCalls (fsInit ⟨fun _ => 0, fun _ => File.zero⟩)
          (bracket rootName fd [.write (fun _ => 0x41) 5000])) := by
  refine bracket_leaves_no_trace ⟨fun _ => 0, fun _ => File.zero⟩ [] rootName
    [.write (fun _ => 0x41) 5000] (fsCreate_fsInit _ not_invalidName_rootName)
    ⟨0, by decide, fun hopen => ?_⟩
  exact hopen.2 (congrArg File.used (fsInit_fds _ (by decide)))

end SengOs.Fs
