import SengOs.Fs.Content

/-!
# Writing one chunk

One round of the loop of `fs_write` puts `n` bytes at position `pos` of a file, all in the
block of `pos`, and allocates that block if the file has none there. `Tables.writeChunk` is
this round together with the growth of the file that `fs_write` records after its loop. It
keeps the invariant, splices the bytes into the content of the file and leaves every other
file alone.

`Target t i pos b` says that `b` may hold the block of `pos`: it is that block already, or
the file has no block there and nobody uses `b`.
-/

namespace SengOs.Fs

open ByteMemory

structure Target (t : Tables) (i pos b : Nat) : Prop where
  range : 5 ≤ b ∧ b < 256
  unshared : ∀ j l, t.IsFile j → l < 8 → (t.inode j).blocks l = b → j = i ∧ l = pos / 4096
  here : (t.inode i).blocks (pos / 4096) = b ∨ (t.inode i).blocks (pos / 4096) = 0

/-- The tables after `n` bytes of `src` went to position `pos` of file `i`, into block `b`. -/
def Tables.writeChunk (t : Tables) (i pos b n : Nat) (src : Nat → Byte) : Tables :=
  { t with
    blockBit := Function.update t.blockBit b true
    inode := Function.update t.inode i { t.inode i with
      size := max (t.inode i).size (pos + n)
      blocks := Function.update (t.inode i).blocks (pos / 4096) b }
    data := Function.update t.data b fun o =>
      if pos % 4096 ≤ o ∧ o < pos % 4096 + n then src (o - pos % 4096)
      else if (t.inode i).blocks (pos / 4096) = b then t.data b o else 0 }

section WriteChunk

variable {t : Tables} {fds : Nat → File} {i pos b n : Nat} {src : Nat → Byte}

theorem Tables.writeChunk_inode_self : (t.writeChunk i pos b n src).inode i =
    { t.inode i with
      size := max (t.inode i).size (pos + n)
      blocks := Function.update (t.inode i).blocks (pos / 4096) b } :=
  Function.update_self ..

theorem Tables.writeChunk_inode_ne {j : Nat} (hj : j ≠ i) :
    (t.writeChunk i pos b n src).inode j = t.inode j :=
  Function.update_of_ne hj ..

theorem Tables.writeChunk_used (j : Nat) :
    ((t.writeChunk i pos b n src).inode j).used = (t.inode j).used := by
  by_cases hj : j = i
  · subst hj; rw [writeChunk_inode_self]
  · rw [writeChunk_inode_ne hj]

theorem Tables.writeChunk_type (j : Nat) :
    ((t.writeChunk i pos b n src).inode j).type = (t.inode j).type := by
  by_cases hj : j = i
  · subst hj; rw [writeChunk_inode_self]
  · rw [writeChunk_inode_ne hj]

theorem Tables.writeChunk_str (j : Nat) :
    ((t.writeChunk i pos b n src).inode j).str = (t.inode j).str := by
  by_cases hj : j = i
  · subst hj; rw [writeChunk_inode_self]; rfl
  · rw [writeChunk_inode_ne hj]

theorem Tables.writeChunk_size_self :
    ((t.writeChunk i pos b n src).inode i).size = max (t.inode i).size (pos + n) := by
  rw [writeChunk_inode_self]

theorem Tables.writeChunk_size_le (j : Nat) :
    (t.inode j).size ≤ ((t.writeChunk i pos b n src).inode j).size := by
  by_cases hj : j = i
  · subst hj; rw [writeChunk_size_self]; exact le_max_left ..
  · rw [writeChunk_inode_ne hj]

theorem Tables.writeChunk_block_self :
    ((t.writeChunk i pos b n src).inode i).blocks (pos / 4096) = b := by
  rw [writeChunk_inode_self]
  exact Function.update_self ..

/-- Every block pointer but that of the written block is as before. -/
theorem Tables.writeChunk_block_ne {j l : Nat} (h : ¬ (j = i ∧ l = pos / 4096)) :
    ((t.writeChunk i pos b n src).inode j).blocks l = (t.inode j).blocks l := by
  by_cases hj : j = i
  · subst hj
    rw [writeChunk_inode_self]
    exact Function.update_of_ne (fun hl => h ⟨rfl, hl⟩) ..
  · rw [writeChunk_inode_ne hj]

theorem Tables.writeChunk_isFile (j : Nat) :
    (t.writeChunk i pos b n src).IsFile j ↔ t.IsFile j := by
  rw [IsFile, IsFile, writeChunk_used]

theorem Tables.writeChunk_hasFile (name : List Byte) (j : Nat) :
    (t.writeChunk i pos b n src).HasFile name j ↔ t.HasFile name j := by
  rw [HasFile, HasFile, writeChunk_isFile, writeChunk_str]

theorem InodeSound.writeChunk (h : InodeSound t) (hi : t.IsFile i) :
    InodeSound (t.writeChunk i pos b n src) where
  inodeBit_iff j hj := by rw [Tables.writeChunk_used]; exact h.inodeBit_iff j hj
  root_used := by rw [Tables.writeChunk_used]; exact h.root_used
  root_dir := by rw [Tables.writeChunk_type]; exact h.root_dir
  file_type j hj := by
    rw [Tables.writeChunk_type]
    exact h.file_type j ((Tables.writeChunk_isFile j).mp hj)
  free_inode j hj hu := by
    rw [Tables.writeChunk_used] at hu
    have hji : j ≠ i := fun hji => hu (hji ▸ hi.2.2)
    rw [Tables.writeChunk_inode_ne hji]
    exact h.free_inode j hj hu

theorem DirSound.writeChunk (h : DirSound t) : DirSound (t.writeChunk i pos b n src) where
  entry_used := h.entry_used
  entry_file d hd := (Tables.writeChunk_isFile _).mpr (h.entry_file d hd)
  free_dirent := h.free_dirent
  entry_inj := h.entry_inj
  file_entry j hj := h.file_entry j ((Tables.writeChunk_isFile j).mp hj)
  name_pos := h.name_pos
  name_le := h.name_le
  name_inj := h.name_inj
  name_inode d hd := (Tables.writeChunk_str _).trans (h.name_inode d hd)

theorem BlockSound.writeChunk (h : BlockSound t) (hi : t.IsFile i) (hpos : pos < 32768)
    (hb : Target t i pos b) : BlockSound (t.writeChunk i pos b n src) := by
  have hfile : ∀ j, (t.writeChunk i pos b n src).IsFile j ↔ t.IsFile j :=
    Tables.writeChunk_isFile
  constructor
  · intro j l hj hl hne
    by_cases hjl : j = i ∧ l = pos / 4096
    · obtain ⟨rfl, rfl⟩ := hjl
      rw [Tables.writeChunk_block_self]
      exact hb.range
    · rw [Tables.writeChunk_block_ne hjl] at hne ⊢
      exact h.block_range j l ((hfile j).mp hj) hl hne
  · intro j l j' l' hj hj' hl hl' hne heq
    by_cases hjl : j = i ∧ l = pos / 4096 <;> by_cases hjl' : j' = i ∧ l' = pos / 4096
    · exact ⟨hjl.1.trans hjl'.1.symm, hjl.2.trans hjl'.2.symm⟩
    · rw [hjl.1, hjl.2, Tables.writeChunk_block_self, Tables.writeChunk_block_ne hjl'] at heq
      exact absurd (hb.unshared j' l' ((hfile j').mp hj') hl' heq.symm) hjl'
    · rw [hjl'.1, hjl'.2, Tables.writeChunk_block_self, Tables.writeChunk_block_ne hjl] at heq
      exact absurd (hb.unshared j l ((hfile j).mp hj) hl heq) hjl
    · rw [Tables.writeChunk_block_ne hjl] at hne heq
      rw [Tables.writeChunk_block_ne hjl'] at heq
      exact h.block_inj j l j' l' ((hfile j).mp hj) ((hfile j').mp hj') hl hl' hne heq
  · intro c hc
    by_cases hcb : c = b
    · subst hcb
      refine iff_of_true (Function.update_self ..) (Or.inr ⟨i, pos / 4096, (hfile i).mpr hi,
        by omega, Tables.writeChunk_block_self⟩)
    · have hbit : (t.writeChunk i pos b n src).blockBit c = t.blockBit c :=
        Function.update_of_ne hcb ..
      rw [hbit, h.blockBit_iff c hc]
      refine or_congr_right' fun h5 => ⟨?_, ?_⟩
      · rintro ⟨j, l, hj, hl, rfl⟩
        have hjl : ¬ (j = i ∧ l = pos / 4096) := by
          rintro ⟨rfl, rfl⟩
          rcases hb.here with heq | hzero
          · exact hcb heq
          · omega
        exact ⟨j, l, (hfile j).mpr hj, hl, Tables.writeChunk_block_ne hjl⟩
      · rintro ⟨j, l, hj, hl, hjl⟩
        by_cases hself : j = i ∧ l = pos / 4096
        · rw [hself.1, hself.2, Tables.writeChunk_block_self] at hjl
          exact absurd hjl.symm hcb
        · rw [Tables.writeChunk_block_ne hself] at hjl
          exact ⟨j, l, (hfile j).mp hj, hl, hjl⟩

/-- The data of a block that is not the written one. -/
theorem Tables.writeChunk_data_ne {c : Nat} (hc : c ≠ b) (o : Nat) :
    (t.writeChunk i pos b n src).data c o = t.data c o :=
  congrFun (Function.update_of_ne hc ..) o

theorem Tables.writeChunk_data_self (o : Nat) :
    (t.writeChunk i pos b n src).data b o =
      if pos % 4096 ≤ o ∧ o < pos % 4096 + n then src (o - pos % 4096)
      else if (t.inode i).blocks (pos / 4096) = b then t.data b o else 0 := by
  dsimp only [writeChunk]
  rw [Function.update_self]

theorem ExtentSound.writeChunk (h : ExtentSound t) (hi : t.IsFile i)
    (hpos : pos < 32768) (hle : pos ≤ (t.inode i).size) (hn : 0 < n)
    (hn' : pos % 4096 + n ≤ 4096) (hb : Target t i pos b) :
    ExtentSound (t.writeChunk i pos b n src) := by
  have hfile : ∀ j, (t.writeChunk i pos b n src).IsFile j ↔ t.IsFile j :=
    Tables.writeChunk_isFile
  constructor
  · intro j hj'
    have hj := (hfile j).mp hj'
    have hold := h.size_le j hj
    by_cases hji : j = i
    · subst hji
      rw [Tables.writeChunk_size_self]
      omega
    · rwa [Tables.writeChunk_inode_ne hji]
  · intro j l hj' hl
    have hj := (hfile j).mp hj'
    by_cases hji : j = i
    · subst hji
      rw [Tables.writeChunk_size_self]
      by_cases hlk : l = pos / 4096
      · subst hlk
        rw [Tables.writeChunk_block_self]
        have := hb.range.1
        omega
      · rw [Tables.writeChunk_block_ne (fun hh => hlk hh.2), h.block_iff j l hj hl]
        omega
    · rw [Tables.writeChunk_inode_ne hji]
      exact h.block_iff j l hj hl
  · intro j l o hj' hl hne ho hsize
    have hj := (hfile j).mp hj'
    by_cases hjl : j = i ∧ l = pos / 4096
    · obtain ⟨rfl, rfl⟩ := hjl
      rw [Tables.writeChunk_size_self] at hsize
      rw [Tables.writeChunk_block_self, Tables.writeChunk_data_self, if_neg (by omega)]
      split
      · rename_i heq
        have hold : (t.inode j).blocks (pos / 4096) ≠ 0 := by
          have := hb.range.1
          omega
        have hzero := h.tail_zero j (pos / 4096) o hj hl hold ho (by omega)
        rwa [heq] at hzero
      · rfl
    · have hgrow : (t.inode j).size ≤ ((t.writeChunk i pos b n src).inode j).size :=
        Tables.writeChunk_size_le j
      rw [Tables.writeChunk_block_ne hjl] at hne ⊢
      rw [Tables.writeChunk_data_ne fun heq => hjl (hb.unshared j l hj hl heq)]
      exact h.tail_zero j l o hj hl hne ho (by omega)

theorem FdSound.writeChunk (h : FdSound t fds) : FdSound (t.writeChunk i pos b n src) fds where
  fd_sound k hk := by
    obtain ⟨hused, hfile, hoff, hzero⟩ := h.fd_sound k hk
    exact ⟨hused, fun hu => (Tables.writeChunk_isFile _).mpr (hfile hu),
      fun hu => (hoff hu).trans (Tables.writeChunk_size_le _), hzero⟩

theorem Sound.writeChunk (h : Sound t fds) (hi : t.IsFile i) (hpos : pos < 32768)
    (hle : pos ≤ (t.inode i).size) (hn : 0 < n) (hn' : pos % 4096 + n ≤ 4096)
    (hb : Target t i pos b) : Sound (t.writeChunk i pos b n src) fds :=
  ⟨h.toInodeSound.writeChunk hi, h.toDirSound.writeChunk, h.toBlockSound.writeChunk hi hpos hb,
    h.toExtentSound.writeChunk hi hpos hle hn hn' hb, h.toFdSound.writeChunk⟩

/-! ## The content -/

theorem Tables.byte_writeChunk (h : ExtentSound t) (hi : t.IsFile i) (hpos : pos < 32768)
    (hle : pos ≤ (t.inode i).size) (hn' : pos % 4096 + n ≤ 4096) (hb : Target t i pos b)
    {p : Nat} (hp : p < max (t.inode i).size (pos + n)) :
    (t.writeChunk i pos b n src).byte i p =
      if pos ≤ p ∧ p < pos + n then src (p - pos) else t.byte i p := by
  have hold := h.size_le i hi
  by_cases hk : p / 4096 = pos / 4096
  · rw [byte, hk, writeChunk_block_self, writeChunk_data_self]
    by_cases hin : pos ≤ p ∧ p < pos + n
    · have hsub : p % 4096 - pos % 4096 = p - pos := by omega
      rw [if_pos hin, if_pos (by omega), hsub]
    · have hne := (h.block_iff i (pos / 4096) hi (by omega)).mpr (by omega)
      have heq := hb.here.resolve_right hne
      rw [if_neg hin, if_neg (by omega), if_pos heq, byte, hk, heq]
  · have hne : (t.inode i).blocks (p / 4096) ≠ b :=
      fun heq => hk (hb.unshared i (p / 4096) hi (by omega) heq).2
    rw [if_neg (by omega), byte, writeChunk_block_ne (fun hh => hk hh.2), writeChunk_data_ne hne,
      byte]

theorem Tables.content_writeChunk (h : ExtentSound t) (hi : t.IsFile i) (hpos : pos < 32768)
    (hle : pos ≤ (t.inode i).size) (hn' : pos % 4096 + n ≤ 4096) (hb : Target t i pos b) :
    (t.writeChunk i pos b n src).content i = splice (t.content i) pos (bytes src n) := by
  apply List.ext_getElem?
  intro p
  rw [getElem?_splice (by rwa [length_content]), content, content, getElem?_bytes, length_bytes,
    getElem?_bytes, getElem?_bytes, writeChunk_size_self]
  by_cases hp : p < max (t.inode i).size (pos + n)
  · rw [if_pos hp, byte_writeChunk h hi hpos hle hn' hb hp]
    by_cases hin : pos ≤ p ∧ p < pos + n
    · rw [if_pos hin, if_pos hin, if_pos (by omega)]
    · rw [if_neg hin, if_neg hin, if_pos (by omega)]
  · rw [if_neg hp, if_neg (by omega), if_neg (by omega)]

theorem Tables.content_writeChunk_ne (h : ExtentSound t) {j : Nat} (hj : t.IsFile j)
    (hji : j ≠ i) (hb : Target t i pos b) :
    (t.writeChunk i pos b n src).content j = t.content j := by
  have hsize := h.size_le j hj
  rw [content, content, writeChunk_inode_ne hji]
  refine bytes_congr fun p hp => ?_
  have hne : (t.inode j).blocks (p / 4096) ≠ b :=
    fun heq => hji (hb.unshared j (p / 4096) hj (by omega) heq).1
  rw [byte, writeChunk_inode_ne hji, writeChunk_data_ne hne, byte]

/-- In the abstract store a chunk is a splice into one file. -/
theorem Tables.abs_writeChunk (h : Sound t fds) (hi : t.IsFile i) (hpos : pos < 32768)
    (hle : pos ≤ (t.inode i).size) (hn : 0 < n) (hn' : pos % 4096 + n ≤ 4096)
    (hb : Target t i pos b) :
    (t.writeChunk i pos b n src).abs fds =
      (t.abs fds).setFile (t.inode i).str (some (splice (t.content i) pos (bytes src n))) := by
  have h' : Sound (t.writeChunk i pos b n src) fds := h.writeChunk hi hpos hle hn hn' hb
  refine FileStore.ext (funext fun name => ?_) ?_
  · by_cases hname : name = (t.inode i).str
    · subst hname
      have hf : (t.writeChunk i pos b n src).HasFile (t.inode i).str i :=
        (writeChunk_hasFile _ i).mpr ⟨hi, rfl⟩
      rw [FileStore.setFile_files_self]
      exact (h'.files_of_hasFile hf).trans
        (congrArg some (content_writeChunk h.toExtentSound hi hpos hle hn' hb))
    · rw [FileStore.setFile_files_ne hname]
      refine h.files_congr h'.toDirSound (writeChunk_hasFile name) fun j hj => ?_
      have hji : j ≠ i := fun hji => hname (hji ▸ hj.2.symm)
      exact content_writeChunk_ne h.toExtentSound hj.1 hji hb
  · exact openFiles_congr h.toFdSound fun j _ _ => writeChunk_str j

end WriteChunk

end SengOs.Fs
