/-
# Physical memory: the bitmap of blocks

A model of `include/memory/physical_memory_manager.h`.  `memory_map` is a byte store whose bits
are the blocks, a set bit for a block in use; `max_blocks` and `used_blocks` are the two
counters.

* Nothing checks that a block number is below `max_blocks`: the bitmap is followed by other
  memory, which the store contains too.
* `find_first_free_blocks` looks at whole words only, so the last `max_blocks % 32` blocks are
  never found, and counts free blocks of the next word without their being consecutive; for one
  block it finds the least clear bit (`findFirstFreeBlocks_one`).

The section on whole runs is about `allocate_blocks(1)` and `free_blocks` of its results, which
is how every page table, heap page, stack and file buffer is obtained: live results are pairwise
distinct and the bitmap is the initial one with their bits set (`allocation_exclusive`).
-/
import AmateurOs.Lib.Holders
import AmateurOs.Lib.Bytes
import AmateurOs.Lib.Run
import Mathlib.Data.List.Nodup
import Mathlib.Data.List.Find

namespace AmateurOs.Memory

open AmateurOs.Lib

/-! ## 1. The manager -/

/-- `BLOCK_SIZE`. -/
def blockSize : Nat := 4096

/-- `BLOCKS_PER_BYTE`. -/
def blocksPerByte : Nat := 8

/-- `memory_map`, `max_blocks` and `used_blocks`. -/
structure Manager where
  memoryMap : Bytes
  maxBlocks : Nat
  usedBlocks : Nat

/-- `set_block`. -/
def setBlock (map : Bytes) (bit : Nat) : Bytes :=
  put32 map (4 * (bit / 32)) (le32 map (4 * (bit / 32)) ||| 1 <<< (bit % 32))

/-- `unset_block`. -/
def unsetBlock (map : Bytes) (bit : Nat) : Bytes :=
  put32 map (4 * (bit / 32)) (le32 map (4 * (bit / 32)) &&& (0xFFFFFFFF ^^^ 1 <<< (bit % 32)))

theorem bitAt_setBlock (map : Bytes) (b i : Nat) :
    bitAt (setBlock map b) i = (bitAt map i || decide (i = b)) := bitAt_setInWord map b i

theorem bitAt_unsetBlock (map : Bytes) (b i : Nat) :
    bitAt (unsetBlock map b) i = (bitAt map i && decide (i ≠ b)) := bitAt_clearInWord map b i

/-! ## 2. The search -/

/-- The inner loop of the search, from bit `j` of word `i` on: whether it counts enough free
blocks. -/
def countFree (m : Manager) (i j numBlocks : Nat) : Nat → Nat → Nat → Bool
  | 0, _, _ => false
  | fuel + 1, count, freeBlocks =>
    let used :=
      if u32 (j + count) > 31 ∧ i + 1 ≤ m.maxBlocks / 32 then
        (le32 m.memoryMap (4 * (i + 1))).testBit ((u32 (j + count) - 32) % 32)
      else (le32 m.memoryMap (4 * i)).testBit (u32 (j + count) % 32)
    let freeBlocks := if used then freeBlocks else freeBlocks + 1
    if freeBlocks = numBlocks then true
    else countFree m i j numBlocks fuel (count + 1) freeBlocks

/-- `find_first_free_blocks`, with `none` for -1. -/
def findFirstFreeBlocks (m : Manager) (numBlocks : Nat) : Option Nat :=
  if numBlocks = 0 then none
  else (List.range (m.maxBlocks / 32)).findSome? fun i =>
    let word := le32 m.memoryMap (4 * i)
    if word ≠ 0xFFFFFFFF then
      ((List.range 32).find? fun j =>
        !word.testBit j && countFree m i j numBlocks numBlocks 0 0).map (i * 32 + ·)
    else none

/-- **The search for one block** finds the least clear bit of the whole words. -/
theorem findFirstFreeBlocks_one (m : Manager) :
    FirstClear (bitAt m.memoryMap) (m.maxBlocks / 32 * 32) (findFirstFreeBlocks m 1) := by
  have hone : ∀ i, ∀ j < 32, (!(le32 m.memoryMap (4 * i)).testBit j && countFree m i j 1 1 0 0)
      = !(le32 m.memoryMap (4 * i)).testBit j := by
    intro i j hj
    have hcount : countFree m i j 1 1 0 0 = !(le32 m.memoryMap (4 * i)).testBit j := by
      have hused : (if u32 (j + 0) > 31 ∧ i + 1 ≤ m.maxBlocks / 32 then
          (le32 m.memoryMap (4 * (i + 1))).testBit ((u32 (j + 0) - 32) % 32)
          else (le32 m.memoryMap (4 * i)).testBit (u32 (j + 0) % 32))
            = (le32 m.memoryMap (4 * i)).testBit j := by
        rw [Nat.add_zero, u32_eq (by omega), if_neg (by omega), Nat.mod_eq_of_lt hj]
      unfold countFree
      rw [hused]
      cases (le32 m.memoryMap (4 * i)).testBit j <;> rfl
    rw [hcount, Bool.and_self]
  have hword : ∀ i, (let word := le32 m.memoryMap (4 * i)
      if word ≠ 0xFFFFFFFF then
        ((List.range 32).find? fun j => !word.testBit j && countFree m i j 1 1 0 0).map (i * 32 + ·)
      else none) = (firstClearInWord (le32 m.memoryMap (4 * i))).map (i * 32 + ·) := by
    intro i
    have hfind : ((List.range 32).find? fun j =>
        !(le32 m.memoryMap (4 * i)).testBit j && countFree m i j 1 1 0 0)
          = (List.range 32).find? fun j => !(le32 m.memoryMap (4 * i)).testBit j :=
      List.find?_congr fun j hj => hone i j (List.mem_range.mp hj)
    unfold firstClearInWord
    simp only [hfind]
    split <;> rfl
  unfold findFirstFreeBlocks
  rw [if_neg (by decide), funext hword]
  exact firstClear_range _ fun i _ => firstClearInWord_spec m.memoryMap i

/-! ## 3. The operations -/

/-- `initialize_memory_manager`; `memory` is what lies at `start_address`. -/
def initializeMemoryManager (memory : Bytes) (size : Nat) : Manager where
  memoryMap := blit memory 0 (size / blockSize / blocksPerByte) fun _ => 0xFF
  maxBlocks := size / blockSize
  usedBlocks := size / blockSize

/-- `initialize_memory_region`. -/
def initializeMemoryRegion (m : Manager) (baseAddress size : Nat) : Manager :=
  let align := baseAddress / blockSize
  let numBlocks := size / blockSize
  let m := (List.range numBlocks).foldl (fun m i =>
    { m with
      memoryMap := unsetBlock m.memoryMap (align + i)
      usedBlocks := sub32 m.usedBlocks 1 }) m
  { m with memoryMap := setBlock m.memoryMap 0 }

/-- `deinitialize_memory_region`. -/
def deinitializeMemoryRegion (m : Manager) (baseAddress size : Nat) : Manager :=
  let align := baseAddress / blockSize
  let numBlocks := size / blockSize
  (List.range numBlocks).foldl (fun m i =>
    { m with
      memoryMap := setBlock m.memoryMap (align + i)
      usedBlocks := u32 (m.usedBlocks + 1) }) m

/-- `allocate_blocks`: the address, 0 for none, and the manager left. -/
def allocateBlocks (m : Manager) (numBlocks : Nat) : Nat × Manager :=
  if sub32 m.maxBlocks m.usedBlocks ≤ numBlocks then (0, m)
  else
    match findFirstFreeBlocks m numBlocks with
    | none => (0, m)
    | some startingBlock =>
      (u32 (startingBlock * blockSize), { m with
        memoryMap := (List.range numBlocks).foldl (fun map i => setBlock map (startingBlock + i))
          m.memoryMap
        usedBlocks := u32 (m.usedBlocks + numBlocks) })

/-- `free_blocks`. -/
def freeBlocks (m : Manager) (address numBlocks : Nat) : Manager where
  memoryMap := (List.range numBlocks).foldl (fun map i =>
    unsetBlock map (address / blockSize + i)) m.memoryMap
  maxBlocks := m.maxBlocks
  usedBlocks := sub32 m.usedBlocks numBlocks

/-! ## 4. One block

Everything said about whole runs uses these two lemmas only. -/

/-- The most blocks that a 32-bit size has. -/
def blockLimit : Nat := 1048576

/-- What `allocate_blocks(1)` does when it returns a block. -/
structure Taken (m : Manager) (b : Nat) (r : Nat × Manager) : Prop where
  below : b < m.maxBlocks / 32 * 32
  clear : bitAt m.memoryMap b = false
  address : r.1 = b * blockSize
  bits : ∀ i, bitAt r.2.memoryMap i = (bitAt m.memoryMap i || decide (i = b))
  maxBlocks : r.2.maxBlocks = m.maxBlocks
  usedBlocks : r.2.usedBlocks = u32 (m.usedBlocks + 1)
  enough : 1 < sub32 m.maxBlocks m.usedBlocks

/-- **`allocate_blocks(1)`** takes a clear bit of the whole words, or does nothing: then the
counters leave at most one block, or the whole words have no clear bit. -/
theorem allocateBlocks_one {m : Manager} (hmax : m.maxBlocks ≤ blockLimit) :
    (allocateBlocks m 1 = (0, m) ∧ (sub32 m.maxBlocks m.usedBlocks ≤ 1 ∨
      ∀ b < m.maxBlocks / 32 * 32, bitAt m.memoryMap b = true)) ∨
    ∃ b, Taken m b (allocateBlocks m 1) := by
  unfold allocateBlocks
  by_cases hfew : sub32 m.maxBlocks m.usedBlocks ≤ 1
  · rw [if_pos hfew]
    exact Or.inl ⟨rfl, Or.inl hfew⟩
  · rw [if_neg hfew]
    have hfind := findFirstFreeBlocks_one m
    generalize findFirstFreeBlocks m 1 = r at hfind
    cases hfind with
    | full hset => exact Or.inl ⟨rfl, Or.inr hset⟩
    | @found b hlt hclear hset =>
      refine Or.inr ⟨b, hlt, hclear, ?_, fun i => ?_, rfl, rfl, Nat.not_le.mp hfew⟩
      · unfold blockLimit at hmax
        unfold blockSize
        exact u32_eq (by omega)
      · exact bitAt_setBlock _ _ _

/-- Whatever it returns, `allocate_blocks(1)` clears no bit; a non-zero result is a block taken. -/
theorem allocateBlocks_grows {m : Manager} (hmax : m.maxBlocks ≤ blockLimit) :
    (∀ i, bitAt m.memoryMap i = true → bitAt (allocateBlocks m 1).2.memoryMap i = true) ∧
    (allocateBlocks m 1).2.maxBlocks = m.maxBlocks ∧
    ((allocateBlocks m 1).1 ≠ 0 → ∃ b, Taken m b (allocateBlocks m 1) ∧ 0 < b) := by
  rcases allocateBlocks_one hmax with ⟨hnone, -⟩ | ⟨b, htaken⟩
  · rw [hnone]
    exact ⟨fun _ h => h, rfl, fun h => absurd rfl h⟩
  · refine ⟨fun i hi => by rw [htaken.bits, hi, Bool.true_or], htaken.maxBlocks, fun hne => ?_⟩
    refine ⟨b, htaken, Nat.pos_of_ne_zero ?_⟩
    rintro rfl
    exact hne (htaken.address.trans (Nat.zero_mul _))

/-- **`free_blocks(p, 1)`** clears the bit of the block. -/
theorem bitAt_freeBlocks (m : Manager) {b : Nat} (i : Nat) :
    bitAt (freeBlocks m (b * blockSize) 1).memoryMap i
      = (bitAt m.memoryMap i && decide (i ≠ b)) := by
  have hblock : b * blockSize / blockSize = b := Nat.mul_div_cancel _ (by decide)
  show bitAt (unsetBlock m.memoryMap (b * blockSize / blockSize + 0)) i = _
  rw [hblock]
  exact bitAt_unsetBlock _ _ _

/-! ## 5. Runs of allocations and releases -/

/-- The manager and the results that are not yet freed. -/
structure Session where
  manager : Manager
  live : List Nat

/-- `allocate_blocks(1)` or `free_blocks(p, 1)`. -/
inductive FrameCall
  | allocate
  | free (address : Nat)

/-- One call; a call of `free_blocks` frees a live result. -/
inductive FrameStep : Session → FrameCall → Session → Prop
  | allocate {s : Session} : FrameStep s .allocate
      ⟨(allocateBlocks s.manager 1).2,
        if (allocateBlocks s.manager 1).1 = 0 then s.live
        else (allocateBlocks s.manager 1).1 :: s.live⟩
  | free {s : Session} {address : Nat} (hlive : address ∈ s.live) : FrameStep s (.free address)
      ⟨freeBlocks s.manager address 1, s.live.erase address⟩

/-- **What is live is exactly what was taken** from the initial bitmap. -/
structure Exclusive (initial : Bytes) (s : Session) : Prop where
  distinct : s.live.Nodup
  live : ∀ p ∈ s.live, ∃ b, p = b * blockSize ∧ 0 < b ∧ b < s.manager.maxBlocks / 32 * 32 ∧
    bitAt initial b = false
  bits : ∀ i, bitAt s.manager.memoryMap i = (bitAt initial i || decide (i * blockSize ∈ s.live))

theorem mul_blockSize_inj {a b : Nat} : a * blockSize = b * blockSize ↔ a = b :=
  Nat.mul_left_inj (by decide)

/-- An allocated block is new: its bit was clear, so it is not live and was clear at the start. -/
theorem Exclusive.fresh {initial : Bytes} {s : Session} (h : Exclusive initial s)
    (hzero : bitAt initial 0 = true) {b : Nat} (hclear : bitAt s.manager.memoryMap b = false) :
    0 < b ∧ b * blockSize ∉ s.live ∧ bitAt initial b = false := by
  have hbit := h.bits b
  rw [hclear, eq_comm, Bool.or_eq_false_iff, decide_eq_false_iff_not] at hbit
  refine ⟨Nat.pos_of_ne_zero ?_, hbit.2, hbit.1⟩
  rintro rfl
  exact absurd (hbit.1.symm.trans hzero) Bool.false_ne_true

/-- An allocation keeps the invariant. -/
theorem Exclusive.allocate {initial : Bytes} {s : Session} (h : Exclusive initial s)
    (hmax : s.manager.maxBlocks ≤ blockLimit) (hzero : bitAt initial 0 = true) :
    Exclusive initial ⟨(allocateBlocks s.manager 1).2,
      if (allocateBlocks s.manager 1).1 = 0 then s.live
      else (allocateBlocks s.manager 1).1 :: s.live⟩ := by
  rcases allocateBlocks_one hmax with ⟨hnone, -⟩ | ⟨b, htaken⟩
  · rw [hnone]
    exact h
  · obtain ⟨hpos, hnew, hinitial⟩ := h.fresh hzero htaken.clear
    have hne : b * blockSize ≠ 0 := Nat.mul_ne_zero (Nat.pos_iff_ne_zero.mp hpos) (by decide)
    rw [htaken.address, if_neg hne]
    refine ⟨List.nodup_cons.mpr ⟨hnew, h.distinct⟩, fun p hp => ?_, fun i => ?_⟩
    · rcases List.mem_cons.mp hp with rfl | hold
      · exact ⟨b, rfl, hpos, htaken.maxBlocks ▸ htaken.below, hinitial⟩
      · obtain ⟨c, hc⟩ := h.live p hold
        exact ⟨c, htaken.maxBlocks ▸ hc⟩
    · have hmem : decide (i * blockSize ∈ b * blockSize :: s.live)
          = (decide (i * blockSize ∈ s.live) || decide (i = b)) := by
        rw [← Bool.decide_or]
        exact decide_eq_decide.mpr (List.mem_cons.trans (or_comm.trans
          (or_congr_right mul_blockSize_inj)))
      show bitAt (allocateBlocks s.manager 1).2.memoryMap i
        = (bitAt initial i || decide (i * blockSize ∈ b * blockSize :: s.live))
      rw [htaken.bits, h.bits, hmem, Bool.or_assoc]

/-- A release of a live result keeps the invariant. -/
theorem Exclusive.free {initial : Bytes} {s : Session} (h : Exclusive initial s) {address : Nat}
    (hlive : address ∈ s.live) :
    Exclusive initial ⟨freeBlocks s.manager address 1, s.live.erase address⟩ := by
  obtain ⟨b, rfl, -, -, hinitial⟩ := h.live address hlive
  refine ⟨h.distinct.erase _, fun p hp => h.live p (List.mem_of_mem_erase hp), fun i => ?_⟩
  show bitAt (freeBlocks s.manager (b * blockSize) 1).memoryMap i = _
  rw [bitAt_freeBlocks, h.bits]
  by_cases hib : i = b
  · subst hib
    have hgone : i * blockSize ∉ s.live.erase (i * blockSize) := h.distinct.not_mem_erase
    rw [hinitial, decide_eq_false hgone, decide_eq_false (not_not_intro rfl), Bool.and_false,
      Bool.or_false]
  · have hkept : i * blockSize ∈ s.live.erase (b * blockSize) ↔ i * blockSize ∈ s.live :=
      List.mem_erase_of_ne fun heq => hib (mul_blockSize_inj.mp heq)
    rw [decide_eq_true hib, Bool.and_true, decide_eq_decide.mpr hkept]

/-- The invariant of a whole run. -/
theorem exclusive_reach {m : Manager} (hmax : m.maxBlocks ≤ blockLimit)
    (hzero : bitAt m.memoryMap 0 = true) {s : Session}
    (h : Reach FrameStep (fun _ _ => True) ⟨m, []⟩ s) :
    Exclusive m.memoryMap s ∧ s.manager.maxBlocks = m.maxBlocks := by
  refine @Reach.invariant _ _ _ _ _
    (fun s => Exclusive m.memoryMap s ∧ s.manager.maxBlocks = m.maxBlocks) ?_ ?_ _ h
  · refine ⟨⟨List.nodup_nil, fun p hp => absurd hp List.not_mem_nil, fun i => ?_⟩, rfl⟩
    rw [decide_eq_false List.not_mem_nil, Bool.or_false]
  · rintro s a s' ⟨hs, hsame⟩ - hstep
    cases hstep with
    | allocate =>
      refine ⟨hs.allocate (hsame ▸ hmax) hzero, ?_⟩
      rcases allocateBlocks_one (hsame ▸ hmax : s.manager.maxBlocks ≤ _) with
        ⟨hnone, -⟩ | ⟨b, htaken⟩
      · rw [hnone]
        exact hsame
      · exact htaken.maxBlocks.trans hsame
    | free hlive => exact ⟨hs.free hlive, hsame⟩

/-- What an allocation in a state of a run returns. -/
theorem Exclusive.result {initial : Bytes} {s : Session} (h : Exclusive initial s)
    (hmax : s.manager.maxBlocks ≤ blockLimit) (hzero : bitAt initial 0 = true)
    (hne : (allocateBlocks s.manager 1).1 ≠ 0) : ∃ b,
      (allocateBlocks s.manager 1).1 = b * blockSize ∧ 0 < b ∧
      b < s.manager.maxBlocks / 32 * 32 ∧ bitAt s.manager.memoryMap b = false ∧
      bitAt initial b = false := by
  rcases allocateBlocks_one hmax with ⟨hnone, -⟩ | ⟨b, htaken⟩
  · rw [hnone] at hne
    exact absurd rfl hne
  · obtain ⟨hpos, -, hinitial⟩ := h.fresh hzero htaken.clear
    exact ⟨b, htaken.address, hpos, htaken.below, htaken.clear, hinitial⟩

/-- **Single-block allocation is exclusive over whole runs.**  In every state reached the live
results are distinct blocks that were clear at the start, and the bitmap is the initial one with
their bits set; and a call of `allocate_blocks(1)` there returns null or a clear block. -/
theorem allocation_exclusive (m : Manager) (hmax : m.maxBlocks ≤ blockLimit)
    (hzero : bitAt m.memoryMap 0 = true) (s : Session)
    (h : Reach FrameStep (fun _ _ => True) ⟨m, []⟩ s) :
    Exclusive m.memoryMap s ∧
      ((allocateBlocks s.manager 1).1 ≠ 0 → ∃ b, (allocateBlocks s.manager 1).1 = b * blockSize ∧
        0 < b ∧ b < m.maxBlocks / 32 * 32 ∧ bitAt s.manager.memoryMap b = false) := by
  obtain ⟨hexcl, hsame⟩ := exclusive_reach hmax hzero h
  refine ⟨hexcl, fun hne => ?_⟩
  obtain ⟨b, haddress, hpos, hbelow, hclear, -⟩ := hexcl.result (hsame ▸ hmax) hzero hne
  exact ⟨b, haddress, hpos, hsame ▸ hbelow, hclear⟩

/-- The theorem at a bitmap of 32 blocks of which only block 0 is used: two blocks are taken, the
first is given back and taken again. -/
theorem allocation_exclusive_again : ∃ s : Session, s.live = [4096, 8192] ∧
    (∀ i < 32, bitAt s.manager.memoryMap i = decide (i ≤ 2)) ∧
    Exclusive (fun p => if p = 0 then 1 else 0) s := by
  let m : Manager := ⟨fun p => if p = 0 then 1 else 0, 32, 1⟩
  have htwo : Reach FrameStep (fun _ _ => True) ⟨m, []⟩ _ :=
    .tail (.tail .refl trivial .allocate) trivial .allocate
  have hfreed : Reach FrameStep (fun _ _ => True) ⟨m, []⟩ _ :=
    htwo.tail trivial (.free (by decide +kernel : 4096 ∈ _))
  have h := allocation_exclusive m (by decide) (by decide) _ (hfreed.tail trivial .allocate)
  exact ⟨_, by decide +kernel, by decide +kernel, h.1⟩

end AmateurOs.Memory
