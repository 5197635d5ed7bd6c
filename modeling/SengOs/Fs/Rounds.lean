import Mathlib.Logic.Relation
import SengOs.Fs.Bytes
import SengOs.Fs.Write

/-!
# What a write leaves alone

The loop of `fs_write` is a sequence of rounds, and a round touches nothing but its file: the
other inodes, the directory and the blocks of other files are as before, and a block that
the file gains was free. `Tables.Within` says this of two tables; it is transitive, so it
holds over a write and over any number of them.
-/

namespace SengOs.Fs

open ByteMemory Relation

/-- From `t` to `t'` nothing has changed but file `i`, which may have gained free blocks. -/
structure Tables.Within (i : Nat) (t t' : Tables) : Prop where
  inodeBit : t'.inodeBit = t.inodeBit
  dirent : t'.dirent = t.dirent
  inode : ∀ j, j ≠ i → t'.inode j = t.inode j
  used : ∀ b, t.blockBit b = true → t'.blockBit b = true
  gained : ∀ k < 8, (t'.inode i).blocks k = (t.inode i).blocks k ∨
    t.blockBit ((t'.inode i).blocks k) = false
  data : ∀ b, t.blockBit b = true → (∀ k < 8, (t.inode i).blocks k ≠ b) → t'.data b = t.data b

section Within

variable {t t' t'' : Tables} {i : Nat}

theorem Tables.Within.refl (i : Nat) (t : Tables) : t.Within i t :=
  ⟨rfl, rfl, fun _ _ => rfl, fun _ hb => hb, fun _ _ => .inl rfl, fun _ _ _ => rfl⟩

theorem Tables.Within.trans (h : t.Within i t') (h' : t'.Within i t'') : t.Within i t'' where
  inodeBit := h'.inodeBit.trans h.inodeBit
  dirent := h'.dirent.trans h.dirent
  inode j hj := (h'.inode j hj).trans (h.inode j hj)
  used b hb := h'.used b (h.used b hb)
  gained k hk := by
    rcases h'.gained k hk with heq | hfree
    · rw [heq]
      exact h.gained k hk
    · refine .inr (Bool.eq_false_iff.mpr fun hb => ?_)
      exact absurd ((h.used _ hb).symm.trans hfree) (by decide)
  data b hb hown := by
    refine (h'.data b (h.used b hb) fun k hk hkb => ?_).trans (h.data b hb hown)
    rcases h.gained k hk with heq | hfree
    · exact hown k hk (heq.symm.trans hkb)
    · rw [hkb, hb] at hfree
      cases hfree

/-- A block that a file has no use for yet is free. -/
theorem Target.free {pos b : Nat} (h : BlockSound t) (hb : Target t i pos b)
    (hzero : (t.inode i).blocks (pos / 4096) = 0) : t.blockBit b = false := by
  refine Bool.eq_false_iff.mpr fun hbit => ?_
  rcases (h.blockBit_iff b hb.range.2).mp hbit with h5 | ⟨j, l, hj, hl, hjl⟩
  · exact absurd h5 (Nat.not_lt_of_le hb.range.1)
  · obtain ⟨rfl, rfl⟩ := hb.unshared j l hj hl hjl
    rw [hzero] at hjl
    have := hb.range.1
    omega

theorem Tables.within_writeChunk {pos b n : Nat} {src : Nat → Byte} (h : BlockSound t)
    (hpos : pos < 32768) (hb : Target t i pos b) :
    t.Within i (t.writeChunk i pos b n src) where
  inodeBit := rfl
  dirent := rfl
  inode _ hj := Tables.writeChunk_inode_ne hj
  used c hc := by
    show Function.update t.blockBit b true c = true
    rcases eq_or_ne c b with rfl | hne
    · exact Function.update_self ..
    · rw [Function.update_of_ne hne, hc]
  gained k hk := by
    rcases eq_or_ne k (pos / 4096) with rfl | hne
    · rw [Tables.writeChunk_block_self]
      exact hb.here.imp Eq.symm (hb.free h)
    · exact .inl (Tables.writeChunk_block_ne fun hself => hne hself.2)
  data c hc hown := by
    refine Function.update_of_ne ?_ ..
    rintro rfl
    rcases hb.here with heq | hzero
    · exact hown (pos / 4096) (by omega) heq
    · rw [hb.free h hzero] at hc
      cases hc

end Within

/-! ## Rounds -/

/-- One round of the loop of `fs_write`, with the size of the file recorded at once. -/
structure Round (fd i : Nat) (s s' : FsState) : Prop where
  tables : ∃ pos b n src, pos < 32768 ∧ BlockSound (s.grown fd i) ∧
    Target (s.grown fd i) i pos b ∧
    s'.grown fd i = (s.grown fd i).writeChunk i pos b n src
  rest : SameRest s.ramdisk s'.ramdisk

theorem Round.within {fd i : Nat} {s s' : FsState} (h : Round fd i s s') :
    (s.grown fd i).Within i (s'.grown fd i) := by
  obtain ⟨pos, b, n, src, hpos, hsound, hb, heq⟩ := h.tables
  rw [heq]
  exact Tables.within_writeChunk hsound hpos hb

theorem sameRest_ensureBlock {m m' : Mem} {i k : Nat} (hi : i < 64) (hk : k < 8)
    (h : ensureBlock m i k = some m') : SameRest m m' := by
  unfold ensureBlock at h
  split at h
  · cases halloc : allocBlock m with
    | none =>
      rw [halloc] at h
      cases h
    | some p =>
      obtain ⟨b, m₁⟩ := p
      rw [halloc] at h
      cases h
      refine (sameRest_allocBlock halloc).trans (sameRest_inode hi ?_)
      exact (storeLE_frame _ _ _ _).mono (by omega) (by omega)
  · cases h
    exact .refl m

theorem sameRest_chunk {m : Mem} {i pos n b : Nat} (hi : i < 64) (hpos : pos < 32768)
    (hblock : ((view m).inode i).blocks (pos / 4096) = b) (hb : 5 ≤ b) (hb' : b < 256)
    (hn : pos % 4096 + n ≤ 4096) (src : Nat → Byte) :
    SameRest m (copy m (diskPos m i pos) src n) := by
  rw [diskPos_eq hi hpos (hblock.trans_lt hb'), hblock]
  exact sameRest_block hb hb' ((copy_frame _ _ _ _).mono (by omega) (by omega))

/-- The loop is a sequence of rounds. -/
theorem fsWriteLoop_rounds {fd i count : Nat} (src : Mem) (s : FsState) (done : Nat)
    (h : WriteInv fd i count s done) :
    ReflTransGen (Round fd i) s (fsWriteLoop fd i count src s done).2 := by
  induction s, done using fsWriteLoop.induct fd i count src with
  | case1 s done hlt pos hbig =>
    have hpos := h.offset_lt hlt
    simp only [pos, fsBlockSize, fsDirect] at hbig
    omega
  | case2 s done hlt pos hsmall hnone =>
    rw [fsWriteLoop, dif_pos hlt]
    dsimp only
    rw [if_neg hsmall, hnone]
  | case3 s done hlt pos hsmall m hm n m' ih =>
    rw [fsWriteLoop, dif_pos hlt]
    dsimp only
    rw [if_neg hsmall, hm]
    dsimp only
    have hi := h.isFile
    have hpos := h.offset_lt hlt
    have hk : (s.fds fd).offset / 4096 < 8 := by omega
    have hchunk : n = min (4096 - (s.fds fd).offset % 4096) (count - done) := chunk_eq ..
    have hadv := ({ s with ramdisk := m' } : FsState).advance_eq_seek fd n
      (show (s.fds fd).offset + n < 2 ^ 32 by omega)
    rw [hadv] at ih ⊢
    obtain ⟨hinv, b, hb, hview, hgrown, -⟩ :=
      h.round hlt hm (fun x => src (done + x)) hchunk rfl
    have hblock : ((view m).inode i).blocks ((s.fds fd).offset / 4096) = b := by
      rw [hview]
      simp only [Tables.withBlock, Function.update_self]
    have hround : Round fd i s
        (({ s with ramdisk := m' } : FsState).seek fd ((s.fds fd).offset + n)) :=
      ⟨⟨_, b, n, _, hpos, h.sound.toBlockSound, Tables.target_grow hb, hgrown⟩,
        (sameRest_ensureBlock hi.2.1 hk hm).trans
          (sameRest_chunk hi.2.1 hpos hblock hb.range.1 hb.range.2 (by omega) _)⟩
    exact .head hround (ih hinv)
  | case4 s done hge =>
    rw [fsWriteLoop, dif_neg hge]

theorem within_of_rounds {fd i : Nat} {s s' : FsState}
    (h : ReflTransGen (Round fd i) s s') :
    (s.grown fd i).Within i (s'.grown fd i) ∧ SameRest s.ramdisk s'.ramdisk := by
  induction h with
  | refl => exact ⟨.refl _ _, .refl _⟩
  | tail _ hround ih => exact ⟨ih.1.trans hround.within, ih.2.trans hround.rest⟩

/-! ## The function -/

theorem fsWrite_within {s : FsState} (h : Sound (view s.ramdisk) s.fds) {n : Nat}
    (hn : s.IsOpen n) (src : Mem) (count : Nat) :
    (view s.ramdisk).Within (s.fds n).inode (view (fsWrite s n (some src) count).2.ramdisk) ∧
      SameRest s.ramdisk (fsWrite s n (some src) count).2.ramdisk := by
  have hf := h.fd_sound n hn.1
  have hi := hf.file hn.2
  have hoff := hf.offset hn.2
  have hsize := h.size_le _ hi
  have hstart : s.grown n (s.fds n).inode = view s.ramdisk := Tables.grow_of_le hoff
  have hinv : WriteInv n (s.fds n).inode (min count (32768 - (s.fds n).offset)) s 0 :=
    ⟨by rwa [hstart], hn, rfl, Nat.zero_le _, by omega⟩
  have hspec := fsWriteLoop_spec src s 0 hinv
  have hrounds := fsWriteLoop_rounds src s 0 hinv
  rw [fsWrite_eq_loop h hn]
  dsimp only
  generalize fsWriteLoop n (s.fds n).inode (min count (32768 - (s.fds n).offset)) src s 0 = r
    at hspec hrounds ⊢
  have hend : (r.2.fds n).offset < 2 ^ 32 := by
    have hle := hspec.le_count
    rw [hspec.fds, FsState.seek_offset]
    omega
  obtain ⟨hwithin, hrest⟩ := within_of_rounds hrounds
  rw [hstart] at hwithin
  rw [view_updateSize hi.2.1 hend]
  refine ⟨hwithin, hrest.trans ?_⟩
  unfold updateSize
  split
  · exact sameRest_inode hi.2.1 ((storeLE_frame _ _ _ _).mono (by omega) (by omega))
  · exact .refl _

end SengOs.Fs
