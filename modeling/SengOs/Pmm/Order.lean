import SengOs.Lib.LowestFirst
import SengOs.Pmm.Exhaustion

/-!
# Order of allocations

Allocations one after another return the free frames from the lowest on, and then 0
(`allocations_in_order`). The allocator remembers nothing but which frames are free
(`runCalls_eq`), so that frames that are given back in any order leave the state as it was before
they were taken (`release_in_any_order`).
-/

namespace SengOs.Pmm

open LowestFirst

/-- `n` calls of `pmm_alloc_frame`: what they return and the state after them. -/
def allocFrames (s : PmmState) : Nat → List Nat × PmmState
  | 0 => ([], s)
  | n + 1 =>
    let r := pmmAllocFrame s
    let rest := allocFrames r.2 n
    (r.1 :: rest.1, rest.2)

/-- What `pmm_alloc_frame` returns for the frame that it found. -/
def address : Option Nat → Nat
  | none => 0
  | some f => f * 4096

section Allocations

variable {s : PmmState}

theorem runCalls_append (s : PmmState) (calls more : List Call) :
    runCalls s (calls ++ more) = runCalls (runCalls s calls) more :=
  List.foldl_append

theorem allocFrames_state (s : PmmState) (n : Nat) :
    (allocFrames s n).2 = runCalls s (List.replicate n .alloc) := by
  induction n generalizing s with
  | zero => rfl
  | succ n ih => exact ih (pmmAllocFrame s).2

/-- The allocations are requests on the free frames. -/
theorem serves_allocFrames (h : s.Counted) (htotal : s.totalFrames = ramFrames) (n : Nat) :
    ∃ answers : List (Option Nat), answers.length = n ∧
      Serves s.free answers (allocFrames s n).2.free ∧
      (allocFrames s n).1 = answers.map address := by
  induction n generalizing s with
  | zero => exact ⟨[], rfl, .done s.free, rfl⟩
  | succ n ih =>
    rcases pmmAllocFrame_cases h htotal with
      ⟨hempty, heq⟩ | ⟨f, hf, hlow, hret, hfree, hcount, htotal'⟩
    · obtain ⟨answers, hlen, hserves, hout⟩ := ih h htotal
      refine ⟨none :: answers, congrArg (· + 1) hlen, ?_, ?_⟩
      · rw [allocFrames, heq]
        rw [hempty] at hserves ⊢
        exact .empty hserves
      · rw [allocFrames, heq]
        exact congrArg (0 :: ·) hout
    · obtain ⟨answers, hlen, hserves, hout⟩ := ih hcount htotal'
      refine ⟨some f :: answers, congrArg (· + 1) hlen, ?_, ?_⟩
      · rw [hfree] at hserves
        exact .least hf hlow hserves
      · rw [allocFrames, hret, hout]
        rfl

theorem allocFrames_spec (h : s.Counted) (htotal : s.totalFrames = ramFrames) (n : Nat) :
    (allocFrames s n).1 = (s.free.sort.take n).map (· * 4096) ++
        List.replicate (n - s.freeFrames) 0 ∧
      (allocFrames s n).2.free.sort = s.free.sort.drop n ∧
      (allocFrames s n).2.freeFrames = s.freeFrames - n := by
  obtain ⟨answers, rfl, hserves, hout⟩ := serves_allocFrames h htotal n
  have hcount := (runCalls_counted h htotal (List.replicate answers.length .alloc)).1
  rw [← allocFrames_state] at hcount
  refine ⟨?_, hserves.left_eq, ?_⟩
  · have hmap := congrArg (List.map address) hserves.answers_eq
    rw [List.map_append, List.map_map, List.map_replicate, ← h] at hmap
    exact hout.trans hmap
  · rw [hcount, h]
    exact hserves.card

theorem free_runCalls_free (h : s.Counted) (htotal : s.totalFrames = ramFrames)
    {back : List (BitVec 32)} (hback : ∀ a ∈ back, ∃ f, f < ramFrames ∧ a.toNat = f * 4096) :
    (runCalls s (back.map .free)).free = (back.map (·.toNat / 4096)).toFinset ∪ s.free := by
  induction back generalizing s with
  | nil => exact (Finset.empty_union s.free).symm
  | cons a back ih =>
    obtain ⟨f, hf, ha⟩ := hback a List.mem_cons_self
    obtain ⟨hfree, hcount, htotal'⟩ := pmmFreeFrame_spec h htotal hf
    rw [← ha] at hfree hcount htotal'
    have hframe : a.toNat / 4096 = f := by omega
    have hrest := ih hcount htotal' fun b hb => hback b (List.mem_cons_of_mem a hb)
    rw [List.map_cons, List.map_cons, List.toFinset_cons, hframe, Finset.insert_union,
      ← Finset.union_insert, ← hfree]
    exact hrest

end Allocations

/-- In every state that calls with any arguments lead to from `pmm_init`, whatever map it read:
`n` allocations return the addresses of the `n` lowest free frames in increasing order, and 0 as
soon as there is none; the other frames stay free, and the counter says how many. -/
theorem allocations_in_order (kernelEnd count : Nat) (map : Nat → E820Entry) (s₀ : PmmState)
    (calls : List Call) (n : Nat) :
    let s := runCalls (pmmInit kernelEnd count map s₀) calls
    (allocFrames s n).1 = (s.free.sort.take n).map (· * 4096) ++
        List.replicate (n - s.freeFrames) 0 ∧
      (allocFrames s n).2.free.sort = s.free.sort.drop n ∧
      (allocFrames s n).2.freeFrames = s.freeFrames - n := by
  intro s
  obtain ⟨hcount, htotal, -⟩ := pmmInit_spec kernelEnd count map s₀
  obtain ⟨hcount, htotal⟩ := runCalls_counted hcount htotal calls
  exact allocFrames_spec hcount htotal n

/-! ## What the state remembers -/

section Memory

variable {s t : PmmState}

/-- The words of the bitmap behind the last frame are never written. -/
theorem Call.exec_beyond (htotal : s.totalFrames = ramFrames) (call : Call) {g : Nat}
    (hg : ramFrames ≤ g) : bitmapTest (call.exec s) g = bitmapTest s g := by
  cases call with
  | alloc =>
    dsimp only [Call.exec, pmmAllocFrame]
    rw [htotal]
    split
    · rfl
    · rename_i f hfind
      have hlt : f < ramFrames := List.mem_range.mp (List.mem_of_find?_eq_some hfind)
      have hne : g ≠ f := by omega
      rw [bitmapTest, Bitmap.test_set (by decide), decide_eq_false hne, Bool.false_or]
      rfl
  | free physAddr =>
    dsimp only [Call.exec, pmmFreeFrame]
    rw [htotal]
    split
    · rfl
    · rename_i hlt
      unfold release
      split
      · have hne : g ≠ physAddr.toNat / frameSize := by omega
        rw [bitmapTest, Bitmap.test_clear (by decide), decide_eq_false hne]
        rfl
      · rfl

theorem runCalls_beyond (h : s.Counted) (htotal : s.totalFrames = ramFrames)
    (calls : List Call) {g : Nat} (hg : ramFrames ≤ g) :
    bitmapTest (runCalls s calls) g = bitmapTest s g := by
  induction calls generalizing s with
  | nil => rfl
  | cons call calls ih =>
    obtain ⟨h', htotal'⟩ := Call.exec_counted h htotal call
    exact (ih h' htotal').trans (call.exec_beyond htotal hg)

/-- A state is its free frames, and what lies behind the last frame. -/
theorem eq_of_free (hs : s.Counted) (ht : t.Counted) (htotal : s.totalFrames = t.totalFrames)
    (hbeyond : ∀ g, ramFrames ≤ g → bitmapTest s g = bitmapTest t g) (hfree : s.free = t.free) :
    s = t := by
  have hbits : ∀ g, bitmapTest s g = bitmapTest t g := by
    intro g
    rcases Nat.lt_or_ge g ramFrames with hg | hg
    · have hiff : bitmapTest s g = false ↔ bitmapTest t g = false := by
        have hmem := Finset.ext_iff.mp hfree g
        rwa [mem_free, mem_free, and_iff_right hg, and_iff_right hg] at hmem
      rw [Bool.eq_iff_iff, ← Bool.not_eq_false, ← Bool.not_eq_false]
      exact not_congr hiff
    · exact hbeyond g hg
  have hbitmap : s.bitmap = t.bitmap := by
    funext k
    apply Bitmap.word_eq_of_test (by decide)
    intro j _
    exact hbits _
  have hcount : s.freeFrames = t.freeFrames := by rw [hs, ht, hfree]
  cases s
  cases t
  simp only [PmmState.mk.injEq]
  exact ⟨hbitmap, htotal, hcount⟩

/-- Two runs after which the same frames are free end in the same state. -/
theorem runCalls_eq (h : s.Counted) (htotal : s.totalFrames = ramFrames) {calls calls' : List Call}
    (hfree : (runCalls s calls).free = (runCalls s calls').free) :
    runCalls s calls = runCalls s calls' := by
  obtain ⟨hcount, htotal₁⟩ := runCalls_counted h htotal calls
  obtain ⟨hcount', htotal₂⟩ := runCalls_counted h htotal calls'
  refine eq_of_free hcount hcount' (htotal₁.trans htotal₂.symm) ?_ hfree
  intro g hg
  rw [runCalls_beyond h htotal calls hg, runCalls_beyond h htotal calls' hg]

end Memory

/-! ## Giving back -/

section GivingBack

variable {s : PmmState}

/-- The addresses among the answers, without the zeros behind them -/
theorem take_allocFrames (h : s.Counted) (htotal : s.totalFrames = ramFrames) (n : Nat) :
    (allocFrames s n).1.take s.freeFrames = (s.free.sort.take n).map (· * 4096) := by
  have hlen : ((s.free.sort.take n).map (· * 4096)).length = min n s.freeFrames := by
    rw [List.length_map, List.length_take, Finset.length_sort, ← h]
  rw [(allocFrames_spec h htotal n).1, List.take_append, hlen, List.take_replicate,
    List.take_of_length_le (by omega)]
  have hzeros : min (s.freeFrames - min n s.freeFrames) (n - s.freeFrames) = 0 := by omega
  rw [hzeros, List.replicate_zero, List.append_nil]

theorem release_taken (h : s.Counted) (htotal : s.totalFrames = ramFrames) {n : Nat}
    {back : List (BitVec 32)}
    (hback : (back.map BitVec.toNat).Perm ((allocFrames s n).1.take s.freeFrames)) :
    runCalls (allocFrames s n).2 (back.map .free) = s := by
  rw [take_allocFrames h htotal] at hback
  obtain ⟨answers, hlen, hserves, -⟩ := serves_allocFrames h htotal n
  obtain ⟨hcount, htotal'⟩ := runCalls_counted h htotal (List.replicate n .alloc)
  have hunion := hserves.union
  rw [hlen, allocFrames_state] at hunion
  have hframes : ∀ a ∈ back, ∃ f, f < ramFrames ∧ a.toNat = f * 4096 := by
    intro a ha
    have hmem := hback.mem_iff.mp (List.mem_map_of_mem ha)
    obtain ⟨f, hf, hfa⟩ := List.mem_map.mp hmem
    exact ⟨f, (mem_free.mp ((Finset.mem_sort _).mp (List.mem_of_mem_take hf))).1, hfa.symm⟩
  -- the frames given back are those that were taken
  have htaken : (back.map (·.toNat / 4096)).toFinset = (s.free.sort.take n).toFinset := by
    have hperm := hback.map (· / 4096)
    rw [List.map_map, List.map_map] at hperm
    have hid : ((· / 4096) ∘ (· * 4096) : Nat → Nat) = id := by
      funext f
      exact Nat.mul_div_cancel f (by decide)
    rw [hid, List.map_id] at hperm
    exact List.toFinset_eq_of_perm _ _ hperm
  have hfree := free_runCalls_free hcount htotal' hframes
  rw [htaken, hunion, ← runCalls_append] at hfree
  rw [allocFrames_state, ← runCalls_append]
  have hnone : runCalls s [] = s := rfl
  exact (runCalls_eq h htotal (hfree.trans (congrArg PmmState.free hnone.symm))).trans hnone

theorem frames_two :
    ∀ a ∈ [(0x5000 : BitVec 32), 0x6000], ∃ f, f < ramFrames ∧ a.toNat = f * 4096 := by
  intro a ha
  rcases List.mem_cons.mp ha with rfl | ha
  · exact ⟨5, by decide, rfl⟩
  · obtain rfl := List.mem_singleton.mp ha
    exact ⟨6, by decide, rfl⟩

end GivingBack

/-- In every state that calls with any arguments lead to from `pmm_init`: allocations, and then
giving back what they returned, in whatever order, end in the state before them, bit for bit. -/
theorem release_in_any_order (kernelEnd count : Nat) (map : Nat → E820Entry) (s₀ : PmmState)
    (calls : List Call) (n : Nat) (back : List (BitVec 32)) :
    let s := runCalls (pmmInit kernelEnd count map s₀) calls
    (back.map BitVec.toNat).Perm ((allocFrames s n).1.take s.freeFrames) →
      runCalls (allocFrames s n).2 (back.map .free) = s := by
  intro s hback
  obtain ⟨hcount, htotal, -⟩ := pmmInit_spec kernelEnd count map s₀
  obtain ⟨hcount, htotal⟩ := runCalls_counted hcount htotal calls
  exact release_taken hcount htotal hback

/-- Two frames are all that is free, are taken, and come back with the higher one first. -/
theorem release_in_any_order_two :
    let s := runCalls (pmmInit 0x20000 1 (fun _ => ⟨0, 0, 2, 0⟩) ⟨fun _ => 0, 0, 0⟩)
      [.free 0x5000, .free 0x6000]
    runCalls (allocFrames s 2).2 [.free 0x6000, .free 0x5000] = s := by
  intro s
  obtain ⟨hinit, htotal, hfree⟩ :=
    pmmInit_spec 0x20000 1 (fun _ => ⟨0, 0, 2, 0⟩) ⟨fun _ => 0, 0, 0⟩
  have hnone : (pmmInit 0x20000 1 (fun _ => ⟨0, 0, 2, 0⟩) ⟨fun _ => 0, 0, 0⟩).free = ∅ := by
    refine Finset.eq_empty_of_forall_notMem fun f hf => ?_
    rcases (hfree f).mp hf with ⟨i, -, htype, -⟩ | ⟨hcount, -⟩
    · exact absurd (show (2 : BitVec 32) = 1 from htype) (by decide)
    · omega
  have htwo : s.free = [5, 6].toFinset := by
    have hs := free_runCalls_free hinit htotal frames_two
    rwa [hnone, Finset.union_empty] at hs
  obtain ⟨hcounted, htotal⟩ := runCalls_counted hinit htotal [.free 0x5000, .free 0x6000]
  have hsort : s.free.sort = [5, 6] := by
    rw [htwo]
    exact (List.toFinset_sort (· ≤ ·) (by decide)).mpr (by decide)
  refine release_in_any_order 0x20000 1 (fun _ => ⟨0, 0, 2, 0⟩) ⟨fun _ => 0, 0, 0⟩
    [.free 0x5000, .free 0x6000] 2 [0x6000, 0x5000] ?_
  rw [take_allocFrames hcounted htotal]
  show List.Perm [0x6000, 0x5000] ((s.free.sort.take 2).map (· * 4096))
  rw [hsort]
  exact .swap ..

end SengOs.Pmm
