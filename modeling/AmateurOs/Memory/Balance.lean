/-
# What calls take and give back

The number of set bits of the bitmap before and after a call: `Changes taken freed m m'` says that
at least `taken` blocks were taken and at most `freed` given back, whichever they are.  So the
statements need nothing about what the tables hold: mapping takes blocks only, a call of
`free_blocks` gives back at most one, and `unmap_address` at most the table.
-/
import AmateurOs.Memory.Counter
import AmateurOs.Memory.Paging

namespace AmateurOs.Memory

open AmateurOs.Lib

/-! ## 1. The balance -/

/-- The number of set bits of the bitmap. -/
def setBits (m : Machine) : Nat := countSet m.manager.maxBlocks (bitAt m.manager.memoryMap)

/-- At least `taken` blocks are taken and at most `freed` given back. -/
structure Changes (taken freed : Nat) (m m' : Machine) : Prop where
  maxBlocks : m'.manager.maxBlocks = m.manager.maxBlocks
  bits : setBits m + taken ≤ setBits m' + freed

theorem Changes.refl (m : Machine) : Changes 0 0 m m := ⟨rfl, Nat.le_refl _⟩

/-- Only the bitmap counts. -/
theorem Changes.of_manager {taken freed : Nat} {m m' m₁ m₁' : Machine}
    (h : Changes taken freed m m') (hm : m₁.manager = m.manager) (hm' : m₁'.manager = m'.manager) :
    Changes taken freed m₁ m₁' := by
  obtain ⟨hmax, hbits⟩ := h
  unfold setBits at hbits
  refine ⟨by rw [hm, hm', hmax], ?_⟩
  unfold setBits
  rw [hm, hm']
  exact hbits

theorem Changes.trans {taken freed taken' freed' : Nat} {m m' m'' : Machine}
    (h : Changes taken freed m m') (h' : Changes taken' freed' m' m'') :
    Changes (taken + taken') (freed + freed') m m'' := by
  refine ⟨h'.maxBlocks.trans h.maxBlocks, ?_⟩
  have hbits := h.bits
  have hbits' := h'.bits
  omega

theorem Changes.weaken {taken freed taken' freed' : Nat} {m m' : Machine}
    (h : Changes taken freed m m') (htaken : taken' ≤ taken) (hfreed : freed ≤ freed') :
    Changes taken' freed' m m' := by
  refine ⟨h.maxBlocks, ?_⟩
  have hbits := h.bits
  omega

theorem setBits_le (m : Machine) : setBits m ≤ m.manager.maxBlocks := countSet_le

/-! ## 2. One block -/

/-- `allocate_blocks(1)` gives nothing back. -/
theorem changes_allocateBlocks {m : Machine} (hmax : m.manager.maxBlocks ≤ blockLimit) :
    Changes 0 0 m { m with manager := (allocateBlocks m.manager 1).2 } := by
  obtain ⟨hgrows, hsame, -⟩ := allocateBlocks_grows hmax
  refine ⟨hsame, ?_⟩
  unfold setBits
  simp only [hsame]
  exact countSet_mono hgrows

/-- It takes one when it returns one. -/
theorem changes_allocateBlocks_one {m : Machine} (hmax : m.manager.maxBlocks ≤ blockLimit)
    (hblock : (allocateBlocks m.manager 1).1 ≠ 0) :
    Changes 1 0 m { m with manager := (allocateBlocks m.manager 1).2 } := by
  obtain ⟨-, hsame, htaken⟩ := allocateBlocks_grows hmax
  obtain ⟨b, htake, -⟩ := htaken hblock
  refine ⟨hsame, ?_⟩
  unfold setBits
  simp only [hsame]
  have hbelow := Nat.lt_of_lt_of_le htake.below (Nat.div_mul_le_self _ _)
  exact (countSet_set hbelow htake.clear htake.bits).ge

/-- `free_blocks` of one block gives back at most that one. -/
theorem changes_freeBlocks (m : Machine) (address : Nat) :
    Changes 0 1 m { m with manager := freeBlocks m.manager address 1 } := by
  have hbits : ∀ i, bitAt (freeBlocks m.manager address 1).memoryMap i
      = (bitAt m.manager.memoryMap i && decide (i ≠ address / blockSize)) := fun i => by
    show bitAt (unsetBlock m.manager.memoryMap (address / blockSize + 0)) i = _
    exact bitAt_unsetBlock _ _ _
  refine ⟨rfl, ?_⟩
  show countSet m.manager.maxBlocks (bitAt m.manager.memoryMap) + 0
    ≤ countSet m.manager.maxBlocks (bitAt (freeBlocks m.manager address 1).memoryMap) + 1
  by_cases hset : address / blockSize < m.manager.maxBlocks ∧
      bitAt m.manager.memoryMap (address / blockSize) = true
  · exact (countSet_clear hset.1 hset.2 hbits).ge
  · -- No bit that counts is cleared.
    rw [Nat.add_zero]
    refine Nat.le_succ_of_le (Finset.card_le_card fun i hi => ?_)
    rw [Finset.mem_filter] at hi ⊢
    refine ⟨hi.1, ?_⟩
    have hne : i ≠ address / blockSize := by
      rintro rfl
      exact hset ⟨Finset.mem_range.mp hi.1, hi.2⟩
    rw [hbits, hi.2, decide_eq_true hne, Bool.true_and]

/-! ## 3. Mapping and unmapping -/

/-- **`map_address` gives nothing back**, by induction on the recursion. -/
theorem changes_mapAddress {dir flags : Nat} : ∀ (fuel : Nat) (m : Machine) (phys virt : Nat)
    (r : Bool × Machine), m.manager.maxBlocks ≤ blockLimit →
    mapAddress fuel m dir phys virt flags = some r → Changes 0 0 m r.2 := by
  intro fuel
  induction fuel with
  | zero => exact fun _ _ _ _ _ h => absurd h (by simp [mapAddress])
  | succ fuel ih =>
    intro m phys virt r hmax h
    rcases mapAddress_cases h with ⟨-, rfl⟩ | ⟨-, -, rfl⟩ | ⟨-, -, r', hnested, rfl⟩
    · exact (Changes.refl m).of_manager rfl rfl
    · exact changes_allocateBlocks hmax
    · have hfirst : Changes 0 0 m (newTable m dir virt (allocateBlocks m.manager 1).1 flags
          (allocateBlocks m.manager 1).2) := (changes_allocateBlocks hmax).of_manager rfl rfl
      have hrest := ih _ _ _ r' (hfirst.maxBlocks.trans_le hmax) hnested
      exact (hfirst.trans hrest).of_manager rfl rfl

/-- `unmap_address` gives back at most the table. -/
theorem changes_unmapAddress (m : Machine) (dir virt : Nat) :
    Changes 0 1 m (unmapAddress m dir virt) := by
  unfold unmapAddress unmapPageTable
  by_cases hentry : directoryEntry m.memory dir virt = 0
  · rw [if_neg (not_not_intro hentry)]
    exact (Changes.refl m).weaken (Nat.le_refl _) (Nat.zero_le _)
  · rw [if_pos hentry, if_pos hentry]
    exact (changes_freeBlocks m _).of_manager rfl rfl

/-- After `unmap_address` the region has no table. -/
theorem directoryEntry_unmapAddress {m : Machine} {dir virt w : Nat}
    (hregion : w / 4194304 = virt / 4194304) :
    directoryEntry (unmapAddress m dir virt).memory dir w = 0 := by
  by_cases hentry : directoryEntry m.memory dir virt = 0
  · rw [unmapAddress_none hentry, directoryEntry_region hregion]
    exact hentry
  · rw [memory_unmapAddress hentry, directoryEntry_put32, if_pos hregion]
    rfl

end AmateurOs.Memory
