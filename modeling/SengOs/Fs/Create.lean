import Mathlib.Data.Finset.Card
import Mathlib.Data.Finset.Range
import SengOs.Fs.Sound

/-!
# `fs_create`

`Tables.create` is what a successful `fs_create` does to the tables: the lowest free inode
becomes an empty file and a free directory entry names it. `fsCreate_cases` gives the
result of every call on a sound file system, with the reason for each error code; the
directory-full code -4 is not among them, since 128 entries cannot name 63 inodes
without naming one twice.
-/

namespace SengOs.Fs

open ByteMemory CString

/-! ## Names written by `add_dirent` and `fs_create` -/

theorem spells_copied (name : CString) (old : Nat → Byte) :
    Spells (fun j => if j ≤ name.bytes.length then name.byteAt j else old j) name.bytes := by
  refine (spells_congr fun j hj => ?_).mpr (spells_byteAt name)
  exact if_pos hj

theorem Dirent.str_named (e : Dirent) (ino : Nat) {name : CString}
    (hn : name.bytes.length < 24) : (e.named name ino).str = name.bytes :=
  read_of_spells name.noNul (spells_copied name e.name) (by omega)

/-- The inode of a new file called `name`. -/
def Inode.freshNamed (name : CString) : Inode :=
  { Inode.fresh with name := fun j =>
      if j ≤ name.bytes.length then name.byteAt j else Inode.fresh.name j }

theorem Inode.str_freshNamed {name : CString} (hn : name.bytes.length < 24) :
    (Inode.freshNamed name).str = name.bytes :=
  read_of_spells name.noNul (spells_copied name _) hn

/-! ## Creating a file -/

/-- The tables after `fs_create` put a file called `name` into inode `i` and entry `d`. -/
def Tables.create (t : Tables) (i d : Nat) (name : CString) : Tables :=
  { t with
    inodeBit := Function.update t.inodeBit i true
    inode := Function.update t.inode i (Inode.freshNamed name)
    dirent := Function.update t.dirent d ((t.dirent d).named name i) }

section Create

variable {t : Tables} {fds : Nat → File} {i d : Nat} {name : CString}

theorem Tables.create_inode_self : (t.create i d name).inode i = Inode.freshNamed name :=
  Function.update_self ..

theorem Tables.create_inode_ne {j : Nat} (hj : j ≠ i) :
    (t.create i d name).inode j = t.inode j :=
  Function.update_of_ne hj ..

theorem Tables.create_dirent_self :
    (t.create i d name).dirent d = (t.dirent d).named name i :=
  Function.update_self ..

theorem Tables.create_dirent_ne {e : Nat} (he : e ≠ d) :
    (t.create i d name).dirent e = t.dirent e :=
  Function.update_of_ne he ..

theorem Tables.create_isFile (hi : 1 ≤ i) (hi' : i < 64) (j : Nat) :
    (t.create i d name).IsFile j ↔ j = i ∨ t.IsFile j := by
  by_cases hj : j = i
  · subst hj
    simp only [IsFile, create_inode_self, true_or, iff_true]
    exact ⟨hi, hi', rfl⟩
  · simp only [IsFile, create_inode_ne hj, hj, false_or]

theorem Tables.create_isEntry (hd : d < 128) (e : Nat) :
    (t.create i d name).IsEntry e ↔ e = d ∨ t.IsEntry e := by
  by_cases he : e = d
  · subst he
    simp only [IsEntry, create_dirent_self, true_or, iff_true]
    exact ⟨hd, (by decide : (1 : Byte) ≠ 0)⟩
  · simp only [IsEntry, create_dirent_ne he, he, false_or]

theorem InodeSound.create (h : InodeSound t) (hi : 1 ≤ i) (hi' : i < 64) :
    InodeSound (t.create i d name) where
  inodeBit_iff j hj := by
    by_cases hji : j = i
    · subst hji
      rw [Tables.create_inode_self]
      exact iff_of_true (Function.update_self ..) rfl
    · rw [Tables.create_inode_ne hji, ← h.inodeBit_iff j hj]
      exact iff_of_eq (congrArg (· = true) (Function.update_of_ne hji ..))
  root_used := by rw [Tables.create_inode_ne (by omega)]; exact h.root_used
  root_dir := by rw [Tables.create_inode_ne (by omega)]; exact h.root_dir
  file_type j hj := by
    by_cases hji : j = i
    · subst hji; rw [Tables.create_inode_self]; rfl
    · rw [Tables.create_inode_ne hji]
      exact h.file_type j (((Tables.create_isFile hi hi' j).mp hj).resolve_left hji)
  free_inode j hj hu := by
    by_cases hji : j = i
    · subst hji; rw [Tables.create_inode_self] at hu; exact absurd rfl hu
    · rw [Tables.create_inode_ne hji] at hu ⊢
      exact h.free_inode j hj hu

theorem DirSound.create (h : DirSound t) (hi : 1 ≤ i) (hi' : i < 64) (hfree : ¬ t.IsFile i)
    (hd : d < 128) (hd0 : (t.dirent d).used = 0) (hname : name.bytes ≠ [])
    (hlen : name.bytes.length < 24) (hnew : ∀ e, t.IsEntry e → (t.dirent e).str ≠ name.bytes) :
    DirSound (t.create i d name) := by
  have hentry : ∀ e, (t.create i d name).IsEntry e ↔ e = d ∨ t.IsEntry e :=
    Tables.create_isEntry hd
  have hfile : ∀ j, (t.create i d name).IsFile j ↔ j = i ∨ t.IsFile j :=
    Tables.create_isFile hi hi'
  have hself : (t.create i d name).dirent d = (t.dirent d).named name i :=
    Tables.create_dirent_self
  have hino : ((t.create i d name).dirent d).inode = i := by
    rw [hself]; exact Nat.mod_eq_of_lt (by omega)
  have hstr : ((t.create i d name).dirent d).str = name.bytes := by
    rw [hself]; exact Dirent.str_named _ _ hlen
  -- an older entry is not `d` and keeps its record and its inode
  have hold : ∀ {e}, t.IsEntry e → e ≠ d := fun he hed => he.2 (hed ▸ hd0)
  have hne : ∀ {e}, t.IsEntry e → (t.create i d name).dirent e = t.dirent e :=
    fun he => Tables.create_dirent_ne (hold he)
  have hnei : ∀ {e}, t.IsEntry e → (t.dirent e).inode ≠ i :=
    fun he hei => hfree (hei ▸ h.entry_file _ he)
  constructor
  · intro e he
    rcases (hentry e).mp he with rfl | he
    · rw [hself]; rfl
    · rw [hne he]; exact h.entry_used e he
  · intro e he
    rcases (hentry e).mp he with rfl | he
    · rw [hino]; exact (hfile i).mpr (Or.inl rfl)
    · rw [hne he]; exact (hfile _).mpr (Or.inr (h.entry_file e he))
  · intro e he hu
    by_cases hed : e = d
    · subst hed
      rw [hself] at hu
      exact absurd hu (by simp [Dirent.named])
    · rw [Tables.create_dirent_ne hed] at hu ⊢
      exact h.free_dirent e he hu
  · intro e f he hf heq
    rcases (hentry e).mp he with rfl | he' <;> rcases (hentry f).mp hf with rfl | hf'
    · rfl
    · rw [hino, hne hf'] at heq; exact absurd heq.symm (hnei hf')
    · rw [hino, hne he'] at heq; exact absurd heq (hnei he')
    · rw [hne he', hne hf'] at heq; exact h.entry_inj e f he' hf' heq
  · intro j hj
    rcases (hfile j).mp hj with rfl | hj
    · exact ⟨d, (hentry d).mpr (Or.inl rfl), hino⟩
    · obtain ⟨e, he, hej⟩ := h.file_entry j hj
      exact ⟨e, (hentry e).mpr (Or.inr he), by rw [hne he, hej]⟩
  · intro e he
    rcases (hentry e).mp he with rfl | he
    · rw [hstr]; exact hname
    · rw [hne he]; exact h.name_pos e he
  · intro e he
    rcases (hentry e).mp he with rfl | he
    · rw [hstr]; omega
    · rw [hne he]; exact h.name_le e he
  · intro e f he hf heq
    rcases (hentry e).mp he with rfl | he' <;> rcases (hentry f).mp hf with rfl | hf'
    · rfl
    · rw [hstr, hne hf'] at heq; exact absurd heq.symm (hnew f hf')
    · rw [hstr, hne he'] at heq; exact absurd heq (hnew e he')
    · rw [hne he', hne hf'] at heq; exact h.name_inj e f he' hf' heq
  · intro e he
    rcases (hentry e).mp he with rfl | he
    · rw [hino, hstr, Tables.create_inode_self]; exact Inode.str_freshNamed hlen
    · rw [hne he, Tables.create_inode_ne (hnei he)]; exact h.name_inode e he

theorem BlockSound.create (h : BlockSound t) (hi : 1 ≤ i) (hi' : i < 64)
    (hfree : ¬ t.IsFile i) : BlockSound (t.create i d name) := by
  have hfile : ∀ j, (t.create i d name).IsFile j ↔ j = i ∨ t.IsFile j :=
    Tables.create_isFile hi hi'
  have hnone : ∀ k, ((t.create i d name).inode i).blocks k = 0 := by
    intro k; rw [Tables.create_inode_self]; rfl
  have hne : ∀ {j}, t.IsFile j → (t.create i d name).inode j = t.inode j :=
    fun hj => Tables.create_inode_ne (fun hji => hfree (hji ▸ hj))
  constructor
  · intro j k hj hk hb
    rcases (hfile j).mp hj with rfl | hj
    · exact absurd (hnone k) hb
    · rw [hne hj] at hb ⊢
      exact h.block_range j k hj hk hb
  · intro j k j' l hj hj' hk hl hb heq
    rcases (hfile j).mp hj with rfl | hj
    · exact absurd (hnone k) hb
    · rcases (hfile j').mp hj' with rfl | hj'
      · exact absurd (heq.trans (hnone l)) hb
      · rw [hne hj] at hb heq
        rw [hne hj'] at heq
        exact h.block_inj j k j' l hj hj' hk hl hb heq
  · intro b hb
    refine (h.blockBit_iff b hb).trans (or_congr_right' fun h5 => ?_)
    constructor
    · rintro ⟨j, k, hj, hk, hjk⟩
      exact ⟨j, k, (hfile j).mpr (Or.inr hj), hk, by rw [hne hj, hjk]⟩
    · rintro ⟨j, k, hj, hk, hjk⟩
      rcases (hfile j).mp hj with rfl | hj
      · rw [hnone] at hjk; omega
      · exact ⟨j, k, hj, hk, by rw [← hne hj, hjk]⟩

theorem ExtentSound.create (h : ExtentSound t) (hi : 1 ≤ i) (hi' : i < 64)
    (hfree : ¬ t.IsFile i) : ExtentSound (t.create i d name) := by
  have hfile : ∀ j, (t.create i d name).IsFile j ↔ j = i ∨ t.IsFile j :=
    Tables.create_isFile hi hi'
  have hself : (t.create i d name).inode i = Inode.freshNamed name := Tables.create_inode_self
  have hne : ∀ {j}, t.IsFile j → (t.create i d name).inode j = t.inode j :=
    fun hj => Tables.create_inode_ne (fun hji => hfree (hji ▸ hj))
  constructor
  · intro j hj
    rcases (hfile j).mp hj with rfl | hj
    · rw [hself]; exact Nat.zero_le _
    · rw [hne hj]; exact h.size_le j hj
  · intro j k hj hk
    rcases (hfile j).mp hj with rfl | hj
    · rw [hself]; exact iff_of_false (fun hb => hb rfl) (Nat.not_lt_zero _)
    · rw [hne hj]; exact h.block_iff j k hj hk
  · intro j k o hj hk hb ho hs
    rcases (hfile j).mp hj with rfl | hj
    · rw [hself] at hb; exact absurd rfl hb
    · rw [hne hj] at hb hs ⊢; exact h.tail_zero j k o hj hk hb ho hs

theorem FdSound.create (h : FdSound t fds) (hi : 1 ≤ i) (hi' : i < 64)
    (hfree : ¬ t.IsFile i) : FdSound (t.create i d name) fds where
  fd_sound n hn := by
    obtain ⟨hused, hfile, hoff, hzero⟩ := h.fd_sound n hn
    refine ⟨hused, fun hu => (Tables.create_isFile hi hi' _).mpr (Or.inr (hfile hu)),
      fun hu => ?_, hzero⟩
    have hne : (fds n).inode ≠ i := fun he => hfree (he ▸ hfile hu)
    rw [Tables.create_inode_ne hne]
    exact hoff hu

theorem Sound.create (h : Sound t fds) (hi : 1 ≤ i) (hi' : i < 64)
    (hbit : t.inodeBit i = false) (hd : d < 128) (hd0 : (t.dirent d).used = 0)
    (hname : name.bytes ≠ []) (hlen : name.bytes.length < 24)
    (hnew : ∀ e, t.IsEntry e → (t.dirent e).str ≠ name.bytes) :
    Sound (t.create i d name) fds := by
  have hfree := h.not_isFile_of_free hi' hbit
  exact ⟨h.toInodeSound.create hi hi', h.toDirSound.create hi hi' hfree hd hd0 hname hlen hnew,
    h.toBlockSound.create hi hi' hfree, h.toExtentSound.create hi hi' hfree,
    h.toFdSound.create hi hi' hfree⟩

end Create

/-! ## The function -/

section Function

variable {s : FsState}

theorem byteAt_zero_eq_zero_iff (name : CString) : name.byteAt 0 = 0 ↔ name.bytes = [] := by
  obtain ⟨bytes, hnul⟩ := name
  cases bytes with
  | nil => exact iff_of_true rfl rfl
  | cons c cs => exact iff_of_false (hnul c (by simp)) (by simp)

/-- There is always a free directory entry: the used ones name different inodes. -/
theorem DirSound.exists_free_dirent {t : Tables} (h : DirSound t) :
    ∃ d, d < 128 ∧ (t.dirent d).used = 0 := by
  by_contra hcon
  have hall : ∀ d, d < 128 → t.IsEntry d := fun d hd => ⟨hd, fun hu => hcon ⟨d, hd, hu⟩⟩
  have hcard : (Finset.range 64).card < (Finset.range 128).card := by simp
  have hmaps : ∀ d ∈ Finset.range 128, (t.dirent d).inode ∈ Finset.range 64 := by
    intro d hd
    exact Finset.mem_range.mpr (h.entry_file d (hall d (Finset.mem_range.mp hd))).2.1
  obtain ⟨d, hd, e, he, hne, heq⟩ :=
    Finset.exists_ne_map_eq_of_card_lt_of_maps_to hcard hmaps
  exact hne (h.entry_inj d e (hall d (Finset.mem_range.mp hd)) (hall e (Finset.mem_range.mp he))
    heq)

/-- The outcome of `fs_create` when it gets as far as the inode. -/
theorem fsCreate_tables {m m₁ m₂ : Mem} {i : Nat} {name : CString}
    (hlen : name.bytes.length < 24) (hino : allocInode m = some (i, m₁))
    (hdir : addDirent m₁ name i = some m₂) :
    ∃ d, d < 128 ∧ ((view m).dirent d).used = 0 ∧
      view (strncpy m₂ (inodeAddr i + 40) name 24) = (view m).create i d name := by
  obtain ⟨hi, hi', -, -, hview₁⟩ := allocInode_some hino
  obtain ⟨d, hd, hd0, -, hview₂⟩ := addDirent_some (by omega) hdir
  rw [hview₁] at hd0 hview₂
  refine ⟨d, hd, hd0, ?_⟩
  rw [view_setInodeName _ hi' hlen, hview₂]
  simp only [Tables.create, Function.update_self, Function.update_idem]
  rfl

theorem fsCreate_cases (h : Sound (view s.ramdisk) s.fds) (name : Option CString) :
    (fsCreate s name = (-1, s) ∧
      ∀ n, name = some n → n.bytes = [] ∨ 24 ≤ n.bytes.length) ∨
    ∃ n, name = some n ∧ n.bytes ≠ [] ∧ n.bytes.length < 24 ∧
      ((fsCreate s name = (-2, s) ∧
          ∃ d, (view s.ramdisk).IsEntry d ∧ ((view s.ramdisk).dirent d).str = n.bytes) ∨
       (∀ d, (view s.ramdisk).IsEntry d → ((view s.ramdisk).dirent d).str ≠ n.bytes) ∧
        ((fsCreate s name = (-3, s) ∧ ∀ i, 1 ≤ i → i < 64 → (view s.ramdisk).IsFile i) ∨
         ∃ (i d : Nat) (m : Mem), fsCreate s name = ((i : Int), { s with ramdisk := m }) ∧
          1 ≤ i ∧ i < 64 ∧ (view s.ramdisk).inodeBit i = false ∧ d < 128 ∧
          ((view s.ramdisk).dirent d).used = 0 ∧ view m = (view s.ramdisk).create i d n)) := by
  cases name with
  | none => exact Or.inl ⟨rfl, nofun⟩
  | some n =>
    unfold fsCreate
    dsimp only
    split
    · rename_i hbad
      refine Or.inl ⟨rfl, fun n' hn' => ?_⟩
      cases hn'
      exact hbad.imp (byteAt_zero_eq_zero_iff n).mp id
    · rename_i hgood
      rw [not_or, byteAt_zero_eq_zero_iff] at hgood
      have hlen : n.bytes.length < 24 := Nat.lt_of_not_le hgood.2
      refine Or.inr ⟨n, rfl, hgood.1, hlen, ?_⟩
      split
      · rename_i hfound
        obtain ⟨d, hd⟩ := Option.isSome_iff_exists.mp hfound
        obtain ⟨hd', hu, hs⟩ := findDirent_some h.terminated hd
        exact Or.inl ⟨rfl, d, ⟨hd', hu⟩, hs⟩
      · rename_i hfound
        have hnone : findDirent s.ramdisk n = none := by simpa using hfound
        rw [findDirent_none h.terminated] at hnone
        refine Or.inr ⟨fun d hd => hnone d hd.1 hd.2, ?_⟩
        cases hino : allocInode s.ramdisk with
        | none =>
          rw [allocInode_none] at hino
          exact Or.inl ⟨rfl, fun i hi hi' => ⟨hi, hi', (h.inodeBit_iff i hi').mp (hino i hi hi')⟩⟩
        | some p =>
          obtain ⟨i, m₁⟩ := p
          obtain ⟨hi, hi', hbit, -, hview₁⟩ := allocInode_some hino
          cases hdir : addDirent m₁ n i with
          | none =>
            -- the directory has room, whatever the inode table says
            rw [addDirent_none, hview₁] at hdir
            obtain ⟨d, hd, hd0⟩ := h.exists_free_dirent
            exact absurd hd0 (hdir d hd)
          | some m₂ =>
            obtain ⟨d, hd, hd0, hview⟩ := fsCreate_tables hlen hino hdir
            exact Or.inr ⟨i, d, _, by simp only [hdir]; rfl, hi, hi', hbit, hd, hd0, hview⟩

end Function

end SengOs.Fs
