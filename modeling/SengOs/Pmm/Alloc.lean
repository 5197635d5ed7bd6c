import Mathlib.Logic.Relation
import SengOs.Lib.Pool
import SengOs.Pmm.Init

/-!
# Runs of the frame allocator

A client of the allocator takes frames and gives back addresses that it holds. Seen as a
`Pool` of addresses, every call is a step of the pool (`Client.Step.pool`), so that over any
run the frames that were free after `pmm_init` are conserved: each is free or held by the
client, never both.
-/

namespace SengOs.Pmm

/-! ## The two functions -/

section Functions

variable {s : PmmState}

theorem pmmAllocFrame_cases (h : s.Counted) (htotal : s.totalFrames = ramFrames) :
    (s.free = ∅ ∧ pmmAllocFrame s = (0, s)) ∨
    ∃ f, f ∈ s.free ∧ (∀ g ∈ s.free, f ≤ g) ∧ (pmmAllocFrame s).1 = f * 4096 ∧
      (pmmAllocFrame s).2.free = s.free.erase f ∧ (pmmAllocFrame s).2.Counted ∧
      (pmmAllocFrame s).2.totalFrames = ramFrames := by
  unfold pmmAllocFrame
  rw [htotal]
  cases hfind : (List.range ramFrames).find? (fun i => !bitmapTest s i) with
  | none =>
    rw [List.find?_range_eq_none] at hfind
    refine Or.inl ⟨Finset.eq_empty_of_forall_notMem fun f hf => ?_, rfl⟩
    obtain ⟨hlt, hbit⟩ := mem_free.mp hf
    have := hfind f hlt
    rw [hbit] at this
    cases this
  | some f =>
    obtain ⟨hbit, hmem, hlow⟩ := List.find?_range_eq_some.mp hfind
    have hlt : f < ramFrames := List.mem_range.mp hmem
    have hf : f ∈ s.free := mem_free.mpr ⟨hlt, by simpa using hbit⟩
    have hfree : Bitmap.zeros (Bitmap.set s.bitmap f) ramFrames = s.free.erase f :=
      Bitmap.zeros_set (by decide) s.bitmap ramFrames f
    refine Or.inr ⟨f, hf, fun g hg => Nat.le_of_not_lt fun hgf => ?_, ?_, hfree, ?_, rfl⟩
    · have := hlow g hgf
      rw [(mem_free.mp hg).2] at this
      cases this
    · refine u32_of_lt ?_
      simp only [ramFrames, ramBytes, frameSize] at *
      omega
    · have hpos : 0 < s.free.card := Finset.card_pos.mpr ⟨f, hf⟩
      have hle := card_free_le s
      have hcard : (s.free.erase f).card = s.free.card - 1 := Finset.card_erase_of_mem hf
      refine Eq.trans ?_ (hcard.symm.trans (congrArg Finset.card hfree.symm))
      rw [← h] at hpos hle ⊢
      simp only [ramFrames, ramBytes, frameSize, u32] at *
      omega

theorem pmmFreeFrame_spec (h : s.Counted) (htotal : s.totalFrames = ramFrames) {f : Nat}
    (hf : f < ramFrames) :
    (pmmFreeFrame s (f * 4096)).free = insert f s.free ∧ (pmmFreeFrame s (f * 4096)).Counted ∧
      (pmmFreeFrame s (f * 4096)).totalFrames = ramFrames := by
  have hframe : f * 4096 / frameSize = f := by
    simp only [frameSize]
    omega
  unfold pmmFreeFrame
  dsimp only
  rw [hframe, htotal, if_neg (Nat.not_le_of_lt hf)]
  refine ⟨release_free s hf, h.release hf, ?_⟩
  unfold release
  split <;> exact htotal

end Functions

/-! ## Clients -/

/-- The allocator together with the non-zero addresses that it returned and that were not
given back. -/
structure Client where
  pmm : PmmState
  outstanding : List Nat

/-- After `pmm_init`. -/
def Client.start (kernelEnd count : Nat) (map : Nat → E820Entry) (s : PmmState) : Client :=
  ⟨pmmInit kernelEnd count map s, []⟩

def Client.alloc (c : Client) : Client :=
  let r := pmmAllocFrame c.pmm
  ⟨r.2, if r.1 = 0 then c.outstanding else r.1 :: c.outstanding⟩

def Client.giveBack (c : Client) (physAddr : Nat) : Client :=
  ⟨pmmFreeFrame c.pmm physAddr, c.outstanding.erase physAddr⟩

/-- The calls of a client that gives back only what it holds. -/
inductive Client.Step : Client → Client → Prop
  | alloc (c : Client) : Step c c.alloc
  | free (c : Client) {physAddr : Nat} : physAddr ∈ c.outstanding →
      Step c (c.giveBack physAddr)

/-- The addresses of a set of frames. -/
def addresses (frames : Finset Nat) : Finset Nat := frames.image (· * 4096)

theorem mul_frame_injective : Function.Injective (· * 4096 : Nat → Nat) :=
  fun _ _ h => Nat.eq_of_mul_eq_mul_right (by decide) h

theorem mem_addresses {frames : Finset Nat} {a : Nat} :
    a ∈ addresses frames ↔ ∃ f ∈ frames, f * 4096 = a := Finset.mem_image

def Client.pool (c : Client) : Pool Nat := ⟨addresses c.pmm.free, c.outstanding⟩

/-- Addresses that a client may be given: those of proper frames, none of them 0. -/
def Frames (stock : Finset Nat) : Prop :=
  ∀ a ∈ stock, ∃ f, 0 < f ∧ f < ramFrames ∧ a = f * 4096

structure Client.Ok (stock : Finset Nat) (c : Client) : Prop where
  counted : c.pmm.Counted
  total : c.pmm.totalFrames = ramFrames
  conserves : Pool.Conserves stock c.pool

section Runs

variable {stock : Finset Nat} {c c' : Client}

/-- A call is a step of the pool. -/
theorem Client.Step.pool (hs : Client.Step c c') (hstock : Frames stock) (h : c.Ok stock) :
    c'.pmm.Counted ∧ c'.pmm.totalFrames = ramFrames ∧ Pool.Step c.pool c'.pool := by
  cases hs with
  | alloc =>
    obtain ⟨hempty, heq⟩ | ⟨f, hf, -, hret, hfree, hcount, htotal⟩ :=
      pmmAllocFrame_cases h.counted h.total
    · have hsame : c.alloc = c := by
        rw [Client.alloc, heq]
        rfl
      rw [hsame]
      refine ⟨h.counted, h.total, .exhausted ?_⟩
      exact congrArg addresses hempty
    · have hmem : f * 4096 ∈ addresses c.pmm.free := mem_addresses.mpr ⟨f, hf, rfl⟩
      obtain ⟨g, hg, -, hgf⟩ := hstock _ ((h.conserves.mem_iff _).mpr (Or.inl hmem))
      have hne : (pmmAllocFrame c.pmm).1 ≠ 0 := by omega
      have hpool : c.alloc.pool =
          ⟨(addresses c.pmm.free).erase (f * 4096), f * 4096 :: c.outstanding⟩ := by
        rw [Client.pool, Client.alloc]
        dsimp only
        rw [if_neg hne, hfree, hret, addresses, Finset.image_erase mul_frame_injective]
        rfl
      refine ⟨hcount, htotal, ?_⟩
      rw [hpool]
      exact .take hmem
  | free hmem =>
    obtain ⟨f, -, hf, rfl⟩ := hstock _ ((h.conserves.mem_iff _).mpr (Or.inr hmem))
    obtain ⟨hfree, hcount, htotal⟩ := pmmFreeFrame_spec h.counted h.total hf
    have hpool : (c.giveBack (f * 4096)).pool =
        ⟨insert (f * 4096) (addresses c.pmm.free), c.outstanding.erase (f * 4096)⟩ := by
      rw [Client.pool, Client.giveBack]
      dsimp only
      rw [hfree, addresses, Finset.image_insert]
      rfl
    refine ⟨hcount, htotal, ?_⟩
    rw [hpool]
    exact .give hmem

theorem Client.Ok.step (h : c.Ok stock) (hstock : Frames stock) (hs : Client.Step c c') :
    c'.Ok stock := by
  obtain ⟨hcount, htotal, hpool⟩ := hs.pool hstock h
  exact ⟨hcount, htotal, hpool.conserves h.conserves⟩

theorem Client.Ok.run (h : c.Ok stock) (hstock : Frames stock)
    (hr : Relation.ReflTransGen Client.Step c c') : c'.Ok stock := by
  induction hr with
  | refl => exact h
  | tail _ hs ih => exact ih.step hstock hs

end Runs

/-! ## From `pmm_init` on -/

section Start

variable {kernelEnd count : Nat} {map : Nat → E820Entry}

/-- No freed frame is below the kernel end or the fallback's 1 MiB, and none is in the RAM
disk. -/
theorem InitiallyFree.bounds {f : Nat} (hke : 0x10000 ≤ kernelEnd)
    (h : InitiallyFree kernelEnd count map f) :
    0 < f ∧ f < ramFrames ∧ ¬ InRamDisk (f * 4096) := by
  obtain ⟨i, -, -, hr⟩ | ⟨-, hlo, hhi, hdisk⟩ := h
  · have hb := hr.bounds
    have hfirst : 0x10000 ≤ (map i).first kernelEnd := by
      unfold E820Entry.first
      split <;> omega
    exact ⟨by omega, hb.2⟩
  · exact ⟨by omega, hhi, hdisk⟩

theorem Client.ok_start (kernelEnd count : Nat) (map : Nat → E820Entry) (s : PmmState) :
    (Client.start kernelEnd count map s).Ok
      (addresses (pmmInit kernelEnd count map s).free) := by
  obtain ⟨hcount, htotal, -⟩ := pmmInit_spec kernelEnd count map s
  exact ⟨hcount, htotal, .full _⟩

theorem mem_stock {s : PmmState} {a : Nat} (hke : 0x10000 ≤ kernelEnd)
    (ha : a ∈ addresses (pmmInit kernelEnd count map s).free) :
    ∃ f, 0 < f ∧ f < ramFrames ∧ ¬ InRamDisk (f * 4096) ∧ a = f * 4096 := by
  obtain ⟨f, hf, rfl⟩ := mem_addresses.mp ha
  obtain ⟨hpos, hlt, hdisk⟩ :=
    (((pmmInit_spec kernelEnd count map s).2.2 f).mp hf).bounds hke
  exact ⟨f, hpos, hlt, hdisk, rfl⟩

/-- In every run after `pmm_init`, whatever map it read: a returned address is that of a frame
below 32 MiB outside the RAM disk that the client does not hold; 0 is returned exactly when
no frame is free; and the counter is the number of clear bits, which is the number of
frames freed by `pmm_init` less those outstanding. -/
theorem allocation_sound (hke : 0x10000 ≤ kernelEnd) (s : PmmState) {c : Client}
    (hr : Relation.ReflTransGen Client.Step (Client.start kernelEnd count map s) c) :
    ((pmmAllocFrame c.pmm).1 ≠ 0 →
      4096 ∣ (pmmAllocFrame c.pmm).1 ∧ (pmmAllocFrame c.pmm).1 < ramBytes ∧
      (∀ x, (pmmAllocFrame c.pmm).1 ≤ x → x < (pmmAllocFrame c.pmm).1 + 4096 → ¬ InRamDisk x) ∧
      (pmmAllocFrame c.pmm).1 ∉ c.outstanding) ∧
    ((pmmAllocFrame c.pmm).1 = 0 ↔ ∀ f, f < ramFrames → bitmapTest c.pmm f = true) ∧
    c.pmm.freeFrames = ((Finset.range ramFrames).filter fun f => bitmapTest c.pmm f = false).card ∧
    c.pmm.freeFrames + c.outstanding.length = (pmmInit kernelEnd count map s).freeFrames := by
  have hstock : Frames (addresses (pmmInit kernelEnd count map s).free) := fun a ha => by
    obtain ⟨f, hpos, hlt, -, rfl⟩ := mem_stock hke ha
    exact ⟨f, hpos, hlt, rfl⟩
  have hok := (Client.ok_start kernelEnd count map s).run hstock hr
  have hcard : ∀ frames : Finset Nat, (addresses frames).card = frames.card :=
    fun _ => Finset.card_image_of_injective _ mul_frame_injective
  refine ⟨fun hne => ?_, ?_, hok.counted, ?_⟩
  · obtain ⟨-, heq⟩ | ⟨f, hf, -, hret, -⟩ := pmmAllocFrame_cases hok.counted hok.total
    · rw [heq] at hne
      exact absurd rfl hne
    · have hmem : f * 4096 ∈ addresses c.pmm.free := mem_addresses.mpr ⟨f, hf, rfl⟩
      obtain ⟨g, -, hlt, hdisk, hgf⟩ := mem_stock hke ((hok.conserves.mem_iff _).mpr (Or.inl hmem))
      rw [hret, hgf]
      refine ⟨Nat.dvd_mul_left .., ?_, fun x hx hx' hxd => hdisk ?_, fun hheld => ?_⟩
      · simp only [ramFrames, ramBytes, frameSize] at *
        omega
      · unfold InRamDisk at *
        omega
      · exact hok.conserves.disjoint _ hheld (hgf ▸ hmem)
  · obtain ⟨hempty, heq⟩ | ⟨f, hf, -, hret, -⟩ := pmmAllocFrame_cases hok.counted hok.total
    · rw [heq]
      refine iff_of_true rfl fun f hf => ?_
      by_contra hbit
      have hmem : f ∈ c.pmm.free := mem_free.mpr ⟨hf, by simpa using hbit⟩
      rw [hempty] at hmem
      exact absurd hmem (Finset.notMem_empty f)
    · have hmem : f * 4096 ∈ addresses c.pmm.free := mem_addresses.mpr ⟨f, hf, rfl⟩
      obtain ⟨g, hpos, -, -, hgf⟩ := mem_stock hke ((hok.conserves.mem_iff _).mpr (Or.inl hmem))
      obtain ⟨hlt, hbit⟩ := mem_free.mp hf
      exact iff_of_false (by omega) fun hall => nomatch hbit.symm.trans (hall f hlt)
  · have hsum := hok.conserves.card
    rw [Client.pool, hcard, hcard] at hsum
    have hinit := (pmmInit_spec kernelEnd count map s).1
    rw [hok.counted, hinit]
    exact hsum

/-- A map with 15 MiB of memory from 1 MiB on, and a run of one call. -/
theorem allocation_sound_after_one :
    ((pmmAllocFrame (Client.start 0x20000 1
        (fun _ => ⟨0x100000, 0xF00000, 1, 0⟩) ⟨fun _ => 0, 0, 0⟩).alloc.pmm).1 ≠ 0 →
      4096 ∣ (pmmAllocFrame (Client.start 0x20000 1
        (fun _ => ⟨0x100000, 0xF00000, 1, 0⟩) ⟨fun _ => 0, 0, 0⟩).alloc.pmm).1) ∧
    (Client.start 0x20000 1
        (fun _ => ⟨0x100000, 0xF00000, 1, 0⟩) ⟨fun _ => 0, 0, 0⟩).alloc.pmm.freeFrames +
      (Client.start 0x20000 1
        (fun _ => ⟨0x100000, 0xF00000, 1, 0⟩) ⟨fun _ => 0, 0, 0⟩).alloc.outstanding.length =
      (pmmInit 0x20000 1 (fun _ => ⟨0x100000, 0xF00000, 1, 0⟩) ⟨fun _ => 0, 0, 0⟩).freeFrames := by
  have hrun : Relation.ReflTransGen Client.Step (Client.start 0x20000 1
      (fun _ => ⟨0x100000, 0xF00000, 1, 0⟩) ⟨fun _ => 0, 0, 0⟩) _ := .single (.alloc _)
  have h := allocation_sound (by decide) ⟨fun _ => 0, 0, 0⟩ hrun
  exact ⟨fun hne => (h.1 hne).1, h.2.2.2⟩

end Start

end SengOs.Pmm
