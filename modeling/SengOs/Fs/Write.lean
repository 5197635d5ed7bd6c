import SengOs.Fs.Chunk
import SengOs.Fs.Open
import SengOs.Fs.Read

/-!
# `fs_write`

The loop of `fs_write` advances the offset of its descriptor round by round and records the
new size of the file only at the end, so between two rounds the tables on the disk are not
sound. `FsState.grown` are the tables as they would be with the size recorded at once. In
them every round is a `writeChunk`, hence an abstract write, and the rounds add up to one
abstract write (`FileStore.Step.write_append`).
-/

namespace SengOs.Fs

open ByteMemory FileStore

/-- The file in inode `i`, grown to at least `pos` bytes. -/
def Tables.grow (t : Tables) (i pos : Nat) : Tables :=
  { t with inode := Function.update t.inode i { t.inode i with
      size := max (t.inode i).size pos } }

/-- Block `k` of file `i` is `b`, which is zeroed if it was not so before. -/
def Tables.withBlock (t : Tables) (i k b : Nat) : Tables :=
  { t with
    blockBit := Function.update t.blockBit b true
    inode := Function.update t.inode i { t.inode i with
      blocks := Function.update (t.inode i).blocks k b }
    data := Function.update t.data b fun o =>
      if (t.inode i).blocks k = b then t.data b o else 0 }

/-- The tables of a state in which `updateSize` is still to be done. -/
def FsState.grown (s : FsState) (fd i : Nat) : Tables :=
  (view s.ramdisk).grow i (s.fds fd).offset

section Grow

variable {t : Tables} {i pos : Nat}

theorem Tables.grow_of_le (h : pos ≤ (t.inode i).size) : t.grow i pos = t := by
  simp only [grow, max_eq_left h]
  exact Tables.ext rfl rfl (Function.update_eq_self ..) rfl rfl

theorem Tables.grow_blocks (j : Nat) : ((t.grow i pos).inode j).blocks = (t.inode j).blocks := by
  by_cases hj : j = i
  · subst hj; dsimp only [grow]; rw [Function.update_self]
  · dsimp only [grow]; rw [Function.update_of_ne hj]

theorem Tables.grow_isFile (j : Nat) : (t.grow i pos).IsFile j ↔ t.IsFile j := by
  by_cases hj : j = i
  · subst hj; simp only [IsFile, grow, Function.update_self]
  · simp only [IsFile, grow, Function.update_of_ne hj]

theorem Tables.target_grow {p b : Nat} (h : Target t i p b) : Target (t.grow i pos) i p b where
  range := h.range
  unshared j l hj hl heq := h.unshared j l ((grow_isFile j).mp hj) hl (by rwa [grow_blocks] at heq)
  here := by rw [grow_blocks]; exact h.here

theorem BlockSound.of_grow (h : BlockSound (t.grow i pos)) : BlockSound t where
  block_range j k hj hk := by
    have := h.block_range j k ((Tables.grow_isFile j).mpr hj) hk
    rwa [Tables.grow_blocks] at this
  block_inj j k j' l hj hj' hk hl := by
    have := h.block_inj j k j' l ((Tables.grow_isFile j).mpr hj)
      ((Tables.grow_isFile j').mpr hj') hk hl
    rwa [Tables.grow_blocks, Tables.grow_blocks] at this
  blockBit_iff b hb := by
    have := h.blockBit_iff b hb
    simp only [Tables.grow_isFile, Tables.grow_blocks] at this
    exact this

end Grow

/-! ## One round of the loop -/

/-- The block of `pos` after the allocating part of a round, or a full disk. -/
theorem ensureBlock_cases {m : Mem} {i pos : Nat} (h : BlockSound (view m))
    (hi : (view m).IsFile i) (hpos : pos < 32768) :
    (ensureBlock m i (pos / 4096) = none ∧ ((view m).inode i).blocks (pos / 4096) = 0 ∧
      ∀ b, 5 ≤ b → b < 256 → (view m).blockBit b = true) ∨
    ∃ b m', ensureBlock m i (pos / 4096) = some m' ∧ Target (view m) i pos b ∧
      view m' = (view m).withBlock i (pos / 4096) b := by
  have hk : pos / 4096 < 8 := by omega
  unfold ensureBlock
  rw [inodeBlock_eq hi.2.1 hk]
  by_cases hzero : ((view m).inode i).blocks (pos / 4096) = 0
  · rw [if_pos hzero]
    cases halloc : allocBlock m with
    | none => exact Or.inl ⟨rfl, hzero, allocBlock_none.mp halloc⟩
    | some p =>
      obtain ⟨b, m₁⟩ := p
      obtain ⟨h5, h256, hbit, -, hview⟩ := allocBlock_some halloc
      have hfree : ∀ j l, (view m).IsFile j → l < 8 → ((view m).inode j).blocks l ≠ b := by
        intro j l hj hl heq
        have hset := (h.blockBit_iff b h256).mpr (Or.inr ⟨j, l, hj, hl, heq⟩)
        exact nomatch hbit.symm.trans hset
      refine Or.inr ⟨b, _, rfl, ⟨⟨h5, h256⟩, fun j l hj hl heq => absurd heq (hfree j l hj hl),
        Or.inr hzero⟩, ?_⟩
      have hmod : b % 2 ^ 32 = b := Nat.mod_eq_of_lt (by omega)
      have hnew : ¬ ((view m).inode i).blocks (pos / 4096) = b := hfree i _ hi hk
      rw [view_setInodeBlock _ hi.2.1 hk, hview, hmod]
      simp only [Tables.withBlock, if_neg hnew]
  · have hrange := h.block_range i _ hi hk hzero
    rw [if_neg hzero]
    refine Or.inr ⟨((view m).inode i).blocks (pos / 4096), m, rfl, ⟨hrange, fun j l hj hl heq =>
      h.block_inj j l i _ hj hi hl hk (by omega) heq, Or.inl rfl⟩, ?_⟩
    have hset := (h.blockBit_iff _ hrange.2).mpr (Or.inr ⟨i, _, hi, hk, rfl⟩)
    refine Tables.ext rfl ?_ ?_ rfl ?_
    · dsimp only [Tables.withBlock]
      rw [← hset, Function.update_eq_self]
    · dsimp only [Tables.withBlock]
      rw [Function.update_eq_self, Function.update_eq_self]
    · dsimp only [Tables.withBlock]
      simp only [if_true]
      exact (Function.update_eq_self ..).symm

/-- A copy into the block of `pos`, seen with the size recorded, is a `writeChunk`. -/
theorem view_chunk {m m' : Mem} {i pos b n : Nat} (hi : i < 64) (hpos : pos < 32768)
    (hn : pos % 4096 + n ≤ 4096) (hb : Target (view m) i pos b)
    (hview : view m' = (view m).withBlock i (pos / 4096) b) (src : Nat → Byte) :
    (view (copy m' (diskPos m' i pos) src n)).grow i (pos + n) =
      ((view m).grow i pos).writeChunk i pos b n src := by
  have hblock : ((view m').inode i).blocks (pos / 4096) = b := by
    rw [hview]
    simp only [Tables.withBlock, Function.update_self]
  have hdisk : diskPos m' i pos = b * 4096 + pos % 4096 := by
    rw [diskPos_eq hi hpos (hblock.trans_lt hb.range.2), hblock]
  rw [hdisk, view_copyBlock _ hb.range.1 hb.range.2 hn, hview]
  refine Tables.ext rfl rfl ?_ rfl ?_
  · have hmax : ∀ k, max k (pos + n) = max (max k pos) (pos + n) := fun k => by omega
    simp only [Tables.grow, Tables.withBlock, Tables.writeChunk, Function.update_self,
      Function.update_idem]
    rw [hmax]
  · simp only [Tables.grow, Tables.withBlock, Tables.writeChunk, Function.update_self,
      Function.update_idem]

/-! ## Moving an open file -/

section Seek

variable {t : Tables} {fds : Nat → File} {fd pos : Nat}

theorem Sound.seek (h : Sound t fds) (hfd : fd < 32) (hu : (fds fd).used ≠ 0)
    (hpos : pos ≤ (t.inode (fds fd).inode).size) :
    Sound t (Function.update fds fd { fds fd with offset := pos }) :=
  { h with toFdSound := h.toFdSound.update ((h.fd_sound fd hfd).seek hu hpos) }

theorem Tables.abs_seek (hfd : fd < 32) (hu : (fds fd).used ≠ 0) :
    t.abs (Function.update fds fd { fds fd with offset := pos }) =
      (t.abs fds).setFd fd (some ((t.inode (fds fd).inode).str, pos)) :=
  FileStore.ext rfl (openFiles_update hfd hu)

end Seek

theorem FsState.isOpen_seek {s : FsState} {n fd pos : Nat} (h : s.IsOpen n) :
    (s.seek fd pos).IsOpen n := by
  refine ⟨h.1, ?_⟩
  by_cases hn : n = fd
  · subst hn
    simpa [FsState.seek] using h.2
  · simpa [FsState.seek, Function.update_of_ne hn] using h.2

/-! ## The loop -/

/-- The state after one round, with the size of the file recorded, is sound, and the round is
an abstract write of its chunk. -/
theorem writeChunk_step {t : Tables} {fds : Nat → File} {fd i b n : Nat} (h : Sound t fds)
    (hfd : fd < 32) (hu : (fds fd).used ≠ 0) (hino : (fds fd).inode = i)
    (hpos : (fds fd).offset < 32768) (hn : 0 < n) (hn' : (fds fd).offset % 4096 + n ≤ 4096)
    (hb : Target t i (fds fd).offset b) (src : Nat → Byte) :
    Sound (t.writeChunk i (fds fd).offset b n src)
      (Function.update fds fd { fds fd with offset := (fds fd).offset + n }) ∧
    Step fsLimits (t.abs fds) (.write fd (bytes src n))
      ((t.writeChunk i (fds fd).offset b n src).abs
        (Function.update fds fd { fds fd with offset := (fds fd).offset + n })) := by
  have hf := h.fd_sound fd hfd
  have hi : t.IsFile i := hino ▸ hf.file hu
  have hle : (fds fd).offset ≤ (t.inode i).size := hino ▸ hf.offset hu
  have h' : Sound (t.writeChunk i (fds fd).offset b n src) fds :=
    h.writeChunk hi hpos hle hn hn' hb
  constructor
  · refine h'.seek hfd hu ?_
    rw [hino, Tables.writeChunk_size_self]
    exact le_max_right ..
  · have hopen : (t.abs fds).fds fd = some ((t.inode i).str, (fds fd).offset) :=
      hino ▸ openFiles_of_open hfd hu
    have hfile : (t.abs fds).files (t.inode i).str = some (t.content i) :=
      h.files_of_hasFile ⟨hi, rfl⟩
    have hlen : (fds fd).offset + (bytes src n).length ≤ fsLimits.maxLen := by
      rw [length_bytes]
      simp only [fsLimits]
      omega
    rw [Tables.abs_seek hfd hu, hino, Tables.writeChunk_str,
      Tables.abs_writeChunk h hi hpos hle hn hn' hb]
    have hs := Step.write hopen hfile hlen
    rwa [length_bytes] at hs

/-- What the loop of `fs_write` has done when it returns `r` after starting at `done`. -/
structure WroteLoop (fd i count : Nat) (src : Mem) (s : FsState) (done : Nat)
    (r : Nat × FsState) : Prop where
  le : done ≤ r.1
  le_count : r.1 ≤ count
  sound : Sound (r.2.grown fd i) r.2.fds
  fds : r.2.fds = (s.seek fd ((s.fds fd).offset + (r.1 - done))).fds
  step : Step fsLimits ((s.grown fd i).abs s.fds)
    (.write fd (bytes (fun x => src (done + x)) (r.1 - done))) ((r.2.grown fd i).abs r.2.fds)
  short : r.1 < count → ∀ b, 5 ≤ b → b < 256 → (view r.2.ramdisk).blockBit b = true

/-- Leaving the loop at once. -/
theorem WroteLoop.refl {fd i count : Nat} {src : Mem} {s : FsState} {done : Nat}
    (h : Sound (s.grown fd i) s.fds) (hopen : s.IsOpen fd) (hino : (s.fds fd).inode = i)
    (hdone : done ≤ count)
    (hshort : done < count → ∀ b, 5 ≤ b → b < 256 → (view s.ramdisk).blockBit b = true) :
    WroteLoop fd i count src s done (done, s) where
  le := le_rfl
  le_count := hdone
  sound := h
  fds := by rw [Nat.sub_self, Nat.add_zero, FsState.seek_self]
  step := by
    have hf := h.fd_sound fd hopen.1
    have hi := hf.file hopen.2
    rw [Nat.sub_self]
    refine Step.write_nil (n := ((s.grown fd i).inode i).str) (hino ▸ openFiles_of_open hopen.1
      hopen.2) (h.files_of_hasFile ⟨hino ▸ hi, rfl⟩) ((hf.offset hopen.2).trans ?_)
    exact h.size_le _ hi
  short := hshort

/-- A round of `n` bytes, then the rest of the loop. -/
theorem WroteLoop.cons {fd i count : Nat} {src : Mem} {s s' : FsState} {done n : Nat} {m : Mem}
    {r : Nat × FsState} (hrest : WroteLoop fd i count src s' (done + n) r)
    (h : Sound (s.grown fd i) s.fds)
    (hs' : s' = ({ s with ramdisk := m } : FsState).seek fd ((s.fds fd).offset + n))
    (hstep : Step fsLimits ((s.grown fd i).abs s.fds)
      (.write fd (bytes (fun x => src (done + x)) n)) ((s'.grown fd i).abs s'.fds)) :
    WroteLoop fd i count src s done r where
  le := by have := hrest.le; omega
  le_count := hrest.le_count
  sound := hrest.sound
  fds := by
    have hle := hrest.le
    have hoff : (s.fds fd).offset + n + (r.1 - (done + n)) =
        (s.fds fd).offset + (r.1 - done) := by omega
    rw [hrest.fds, hs', FsState.seek_offset, FsState.seek_seek, hoff]
    rfl
  step := by
    have hle := hrest.le
    have hlen : r.1 - done = n + (r.1 - (done + n)) := by omega
    have hsrc : (fun x => src (done + (n + x))) = fun x => src (done + n + x) := by
      funext x
      rw [Nat.add_assoc]
    rw [hlen, bytes_add, hsrc]
    exact hstep.write_append h.wf hrest.step
  short := hrest.short

/-- The invariant of the loop: the files are sound with the size recorded, and what is left to
write fits into the file. -/
structure WriteInv (fd i count : Nat) (s : FsState) (done : Nat) : Prop where
  sound : Sound (s.grown fd i) s.fds
  isOpen : s.IsOpen fd
  inode : (s.fds fd).inode = i
  done_le : done ≤ count
  room : (s.fds fd).offset + (count - done) ≤ 32768

section Loop

variable {fd i count done : Nat} {s : FsState}

theorem WriteInv.isFile (h : WriteInv fd i count s done) : (view s.ramdisk).IsFile i :=
  (Tables.grow_isFile i).mp (h.inode ▸ (h.sound.fd_sound fd h.isOpen.1).file h.isOpen.2)

theorem WriteInv.offset_lt (h : WriteInv fd i count s done) (hlt : done < count) :
    (s.fds fd).offset < 32768 := by
  have := h.room
  omega

/-- A round writes a chunk into the block of its position, and keeps the invariant. -/
theorem WriteInv.round (h : WriteInv fd i count s done) (hlt : done < count) {m : Mem}
    (hm : ensureBlock s.ramdisk i ((s.fds fd).offset / 4096) = some m) (src : Nat → Byte)
    {n : Nat} (hn : n = min (4096 - (s.fds fd).offset % 4096) (count - done)) {s' : FsState}
    (hs' : s' = ({ s with ramdisk := copy m (diskPos m i (s.fds fd).offset) src n } :
      FsState).seek fd ((s.fds fd).offset + n)) :
    WriteInv fd i count s' (done + n) ∧
    ∃ b, Target (view s.ramdisk) i (s.fds fd).offset b ∧
      view m = (view s.ramdisk).withBlock i ((s.fds fd).offset / 4096) b ∧
      s'.grown fd i = (s.grown fd i).writeChunk i (s.fds fd).offset b n src ∧
      Step fsLimits ((s.grown fd i).abs s.fds) (.write fd (bytes src n))
        ((s'.grown fd i).abs s'.fds) := by
  have hi := h.isFile
  have hpos := h.offset_lt hlt
  have hroom := h.room
  rcases ensureBlock_cases h.sound.toBlockSound.of_grow hi hpos with
    ⟨hnone, -, -⟩ | ⟨b, m₁, hsome, hb, hview⟩
  · exact nomatch hnone.symm.trans hm
  · cases hsome.symm.trans hm
    obtain ⟨hsound, hstep⟩ := writeChunk_step h.sound h.isOpen.1 h.isOpen.2 h.inode hpos
      (show 0 < n by omega) (by omega) (Tables.target_grow hb) src
    have hoff : (s'.fds fd).offset = (s.fds fd).offset + n := by
      rw [hs']
      exact FsState.seek_offset ..
    have hgrown : s'.grown fd i =
        (s.grown fd i).writeChunk i (s.fds fd).offset b n src := by
      rw [FsState.grown, hoff, hs']
      exact view_chunk hi.2.1 hpos (by omega) hb hview src
    have hfds : s'.fds = Function.update s.fds fd
        { s.fds fd with offset := (s.fds fd).offset + n } := by
      rw [hs']
      rfl
    rw [← hgrown, ← hfds] at hsound hstep
    refine ⟨⟨hsound, ?_, ?_, by omega, by omega⟩, b, hb, hview, hgrown, hstep⟩
    · rw [hs']
      exact FsState.isOpen_seek h.isOpen
    · rw [hfds, Function.update_self]
      exact h.inode

theorem fsWriteLoop_spec (src : Mem) (s : FsState) (done : Nat)
    (h : WriteInv fd i count s done) :
    WroteLoop fd i count src s done (fsWriteLoop fd i count src s done) := by
  induction s, done using fsWriteLoop.induct fd i count src with
  | case1 s done hlt pos hbig =>
    have hpos := h.offset_lt hlt
    simp only [pos, fsBlockSize, fsDirect] at hbig
    omega
  | case2 s done hlt pos hsmall hnone =>
    rw [fsWriteLoop, dif_pos hlt]
    dsimp only
    rw [if_neg hsmall, hnone]
    obtain ⟨-, -, hfull⟩ | ⟨b, m, hsome, -⟩ :=
      ensureBlock_cases h.sound.toBlockSound.of_grow h.isFile (h.offset_lt hlt)
    · exact .refl h.sound h.isOpen h.inode h.done_le fun _ => hfull
    · exact nomatch hnone.symm.trans hsome
  | case3 s done hlt pos hsmall m hm n m' ih =>
    rw [fsWriteLoop, dif_pos hlt]
    dsimp only
    rw [if_neg hsmall, hm]
    dsimp only
    have hchunk : n = min (4096 - (s.fds fd).offset % 4096) (count - done) := chunk_eq ..
    have hpos := h.offset_lt hlt
    have hadv := ({ s with ramdisk := m' } : FsState).advance_eq_seek fd n
      (show (s.fds fd).offset + n < 2 ^ 32 by omega)
    rw [hadv] at ih ⊢
    obtain ⟨hinv, b, -, -, -, hstep⟩ := h.round hlt hm (fun x => src (done + x)) hchunk rfl
    exact (ih hinv).cons h.sound rfl hstep
  | case4 s done hge =>
    rw [fsWriteLoop, dif_neg hge]
    exact .refl h.sound h.isOpen h.inode h.done_le fun hlt => absurd hlt hge

end Loop

/-! ## The function -/

section Function

variable {s : FsState}

theorem view_updateSize {fd i : Nat} (hi : i < 64) (hoff : (s.fds fd).offset < 2 ^ 32) :
    view (updateSize s fd i).ramdisk = s.grown fd i := by
  unfold updateSize
  rw [inodeSize_eq hi]
  split
  · rename_i hgt
    rw [view_setInodeSize _ hi, Nat.mod_eq_of_lt hoff, FsState.grown, Tables.grow,
      max_eq_right (Nat.le_of_lt hgt)]
  · rename_i hle
    exact (Tables.grow_of_le (Nat.le_of_not_lt hle)).symm

theorem updateSize_fds (fd i : Nat) : (updateSize s fd i).fds = s.fds := by
  unfold updateSize
  split <;> rfl

/-- What `fs_write` did when it wrote `r` bytes of `src` through descriptor `n`. Fewer than
asked for, up to the largest file, only when no data block is left. -/
structure Wrote (s : FsState) (n : Nat) (src : Mem) (count r : Nat) (s' : FsState) : Prop where
  le_count : r ≤ min count (32768 - (s.fds n).offset)
  sound : Sound (view s'.ramdisk) s'.fds
  fds : s'.fds = (s.seek n ((s.fds n).offset + r)).fds
  step : Step fsLimits s.abs (.write n (bytes src r)) s'.abs
  short : r < min count (32768 - (s.fds n).offset) →
    ∀ b, 5 ≤ b → b < 256 → (view s'.ramdisk).blockBit b = true

/-- A write through an open descriptor is its loop, up to the largest file, and the update of
the size. -/
theorem fsWrite_eq_loop (h : Sound (view s.ramdisk) s.fds) {n : Nat} (hn : s.IsOpen n)
    (src : Mem) (count : Nat) :
    fsWrite s n (some src) count =
      (((fsWriteLoop n (s.fds n).inode (min count (32768 - (s.fds n).offset)) src s 0).1 : Int),
        updateSize (fsWriteLoop n (s.fds n).inode (min count (32768 - (s.fds n).offset))
          src s 0).2 n (s.fds n).inode) := by
  have hf := h.fd_sound n hn.1
  have hi := hf.file hn.2
  have hoff := hf.offset hn.2
  have hsize := h.size_le _ hi
  have hguard := h.not_rejected hi
  have hmax : ¬ (s.fds n).offset > fsDirect * fsBlockSize := by
    simp only [fsDirect, fsBlockSize]
    omega
  have hclamp : (if count > fsDirect * fsBlockSize - (s.fds n).offset
      then fsDirect * fsBlockSize - (s.fds n).offset else count) =
      min count (32768 - (s.fds n).offset) := by
    split <;> simp only [fsDirect, fsBlockSize] at * <;> omega
  unfold fsWrite
  dsimp only
  rw [if_neg (not_badFd_of_isOpen hn), Int.toNat_natCast, if_neg hguard, if_neg hmax, hclamp]

theorem fsWrite_open (h : Sound (view s.ramdisk) s.fds) {n : Nat} (hn : s.IsOpen n) (src : Mem)
    (count : Nat) :
    ∃ (r : Nat) (s' : FsState), fsWrite s n (some src) count = ((r : Int), s') ∧
      Wrote s n src count r s' := by
  have hf := h.fd_sound n hn.1
  have hi := hf.file hn.2
  have hoff := hf.offset hn.2
  have hsize := h.size_le _ hi
  have hstart : s.grown n (s.fds n).inode = view s.ramdisk := Tables.grow_of_le hoff
  have hinv : WriteInv n (s.fds n).inode (min count (32768 - (s.fds n).offset)) s 0 :=
    ⟨by rwa [hstart], hn, rfl, Nat.zero_le _, by omega⟩
  have hloop := fsWriteLoop_spec src s 0 hinv
  rw [fsWrite_eq_loop h hn]
  generalize fsWriteLoop n (s.fds n).inode (min count (32768 - (s.fds n).offset)) src s 0 = r
    at hloop ⊢
  refine ⟨_, _, rfl, ?_⟩
  have hfds := hloop.fds
  rw [Nat.sub_zero] at hfds
  have hend : (r.2.fds n).offset = (s.fds n).offset + r.1 := by
    rw [hfds]
    exact FsState.seek_offset ..
  have hview : view (updateSize r.2 n (s.fds n).inode).ramdisk = r.2.grown n (s.fds n).inode :=
    view_updateSize hi.2.1 (by have := hloop.le_count; omega)
  have hbits : ∀ b, (r.2.grown n (s.fds n).inode).blockBit b = (view r.2.ramdisk).blockBit b :=
    fun _ => rfl
  have hstep := hloop.step
  have hsrc : (fun x => src (0 + x)) = src := funext fun x => by rw [Nat.zero_add]
  rw [hstart, Nat.sub_zero, hsrc] at hstep
  constructor
  · exact hloop.le_count
  · rw [hview, updateSize_fds]
    exact hloop.sound
  · rw [updateSize_fds]
    exact hfds
  · rw [FsState.abs, FsState.abs, hview, updateSize_fds]
    exact hstep
  · intro hlt b h5 h256
    rw [hview, hbits]
    exact hloop.short hlt b h5 h256

theorem fsWrite_cases (h : Sound (view s.ramdisk) s.fds) (fd : Int) (buf : Option Mem)
    (count : Nat) :
    (fsWrite s fd buf count = (-1, s) ∧ (buf = none ∨ ∀ n : Nat, fd = n → ¬ s.IsOpen n)) ∨
    ∃ (n r : Nat) (src : Mem) (s' : FsState), fd = n ∧ s.IsOpen n ∧ buf = some src ∧
      fsWrite s fd buf count = ((r : Int), s') ∧ Wrote s n src count r s' := by
  cases buf with
  | none => exact Or.inl ⟨rfl, Or.inl rfl⟩
  | some src =>
    by_cases hbad : badFd s fd
    · refine Or.inl ⟨?_, Or.inr (badFd_iff.mp hbad)⟩
      unfold fsWrite
      dsimp only
      rw [if_pos hbad]
    · obtain ⟨n, rfl, hn⟩ := not_badFd_iff.mp hbad
      obtain ⟨r, s', heq, hw⟩ := fsWrite_open h hn src count
      exact Or.inr ⟨n, r, src, s', rfl, hn, rfl, heq, hw⟩

end Function

end SengOs.Fs
