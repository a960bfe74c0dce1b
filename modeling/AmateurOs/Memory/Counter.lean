/-
# The counter of used blocks

`used_blocks` should be the number of set bits among the first `max_blocks` bits of the bitmap.
The operations on regions add or subtract one for every block of the region, whether or not its
bit changes, and the bit of block 0 is set again without being counted; `counter_exact` is the
result for runs in which every block of a region does change (`Counted`), `counter_drifts` a run
of one call in which it does not.

The admission test of `allocate_blocks` refuses the last free block, and the search does not see
the blocks behind the last whole word: `Counted.allocate` is the condition under which a refusal
means that there is no free block.
-/
import AmateurOs.Memory.Physical

namespace AmateurOs.Memory

open AmateurOs.Lib

/-! ## 1. Regions -/

/-- The blocks from `align` on, unset one after the other. -/
def unsetRun (m : Manager) (align n : Nat) : Manager :=
  (List.range n).foldl (fun m i => { m with
    memoryMap := unsetBlock m.memoryMap (align + i)
    usedBlocks := sub32 m.usedBlocks 1 }) m

/-- The blocks from `align` on, set one after the other. -/
def setRun (m : Manager) (align n : Nat) : Manager :=
  (List.range n).foldl (fun m i => { m with
    memoryMap := setBlock m.memoryMap (align + i)
    usedBlocks := u32 (m.usedBlocks + 1) }) m

theorem initializeMemoryRegion_eq (m : Manager) (baseAddress size : Nat) :
    initializeMemoryRegion m baseAddress size =
      { unsetRun m (baseAddress / blockSize) (size / blockSize) with
        memoryMap := setBlock
          (unsetRun m (baseAddress / blockSize) (size / blockSize)).memoryMap 0 } := rfl

theorem deinitializeMemoryRegion_eq (m : Manager) (baseAddress size : Nat) :
    deinitializeMemoryRegion m baseAddress size
      = setRun m (baseAddress / blockSize) (size / blockSize) := rfl

theorem unsetRun_succ (m : Manager) (align n : Nat) :
    unsetRun m align (n + 1) = { unsetRun m align n with
      memoryMap := unsetBlock (unsetRun m align n).memoryMap (align + n)
      usedBlocks := sub32 (unsetRun m align n).usedBlocks 1 } := by
  unfold unsetRun
  rw [List.range_succ, List.foldl_append]
  rfl

theorem setRun_succ (m : Manager) (align n : Nat) :
    setRun m align (n + 1) = { setRun m align n with
      memoryMap := setBlock (setRun m align n).memoryMap (align + n)
      usedBlocks := u32 ((setRun m align n).usedBlocks + 1) } := by
  unfold setRun
  rw [List.range_succ, List.foldl_append]
  rfl

theorem maxBlocks_unsetRun (m : Manager) (align n : Nat) :
    (unsetRun m align n).maxBlocks = m.maxBlocks := by
  induction n with
  | zero => rfl
  | succ n ih =>
    rw [unsetRun_succ]
    exact ih

theorem maxBlocks_setRun (m : Manager) (align n : Nat) :
    (setRun m align n).maxBlocks = m.maxBlocks := by
  induction n with
  | zero => rfl
  | succ n ih =>
    rw [setRun_succ]
    exact ih

/-- The bits after a run of blocks was unset. -/
theorem bitAt_unsetRun (m : Manager) (align n i : Nat) :
    bitAt (unsetRun m align n).memoryMap i
      = (bitAt m.memoryMap i && decide (¬ (align ≤ i ∧ i < align + n))) := by
  induction n with
  | zero =>
    show bitAt m.memoryMap i = _
    rw [decide_eq_true (by omega), Bool.and_true]
  | succ n ih =>
    rw [unsetRun_succ, bitAt_unsetBlock, ih, Bool.and_assoc, ← Bool.decide_and]
    congr 1
    exact decide_eq_decide.mpr (by omega)

/-- The bits after a run of blocks was set. -/
theorem bitAt_setRun (m : Manager) (align n i : Nat) :
    bitAt (setRun m align n).memoryMap i
      = (bitAt m.memoryMap i || decide (align ≤ i ∧ i < align + n)) := by
  induction n with
  | zero =>
    show bitAt m.memoryMap i = _
    rw [decide_eq_false (by omega), Bool.or_false]
  | succ n ih =>
    rw [setRun_succ, bitAt_setBlock, ih, Bool.or_assoc, ← Bool.decide_or]
    congr 1
    exact decide_eq_decide.mpr (by omega)

/-! ## 2. The counter -/

/-- `used_blocks` is the number of set bits. -/
def UsedExact (m : Manager) : Prop := m.usedBlocks = countSet m.maxBlocks (bitAt m.memoryMap)

/-- Unsetting blocks that are set keeps the counter exact. -/
theorem UsedExact.unsetRun {m : Manager} (h : UsedExact m) (hmax : m.maxBlocks ≤ blockLimit)
    {align : Nat} : ∀ n, (∀ i < n, align + i < m.maxBlocks ∧
      bitAt m.memoryMap (align + i) = true) → UsedExact (unsetRun m align n) := by
  intro n
  induction n with
  | zero => exact fun _ => h
  | succ n ih =>
    intro hset
    have hprev := ih fun i hi => hset i (Nat.lt_succ_of_lt hi)
    obtain ⟨hbelow, hbit⟩ := hset n (Nat.lt_succ_self n)
    have hstill : bitAt (Memory.unsetRun m align n).memoryMap (align + n) = true := by
      rw [bitAt_unsetRun, hbit, decide_eq_true (by omega), Bool.and_true]
    have hcount : countSet m.maxBlocks
        (bitAt (unsetBlock (Memory.unsetRun m align n).memoryMap (align + n))) + 1
          = countSet m.maxBlocks (bitAt (Memory.unsetRun m align n).memoryMap) :=
      countSet_clear hbelow hstill (bitAt_unsetBlock _ _)
    unfold UsedExact at *
    rw [maxBlocks_unsetRun] at hprev
    have hle : countSet m.maxBlocks (bitAt (Memory.unsetRun m align n).memoryMap) ≤ m.maxBlocks :=
      countSet_le
    unfold blockLimit at hmax
    rw [unsetRun_succ]
    show sub32 (Memory.unsetRun m align n).usedBlocks 1 = countSet
      (Memory.unsetRun m align n).maxBlocks
      (bitAt (unsetBlock (Memory.unsetRun m align n).memoryMap (align + n)))
    rw [maxBlocks_unsetRun, hprev, sub32_eq (by omega) (by omega)]
    omega

/-- Setting blocks that are clear keeps the counter exact. -/
theorem UsedExact.setRun {m : Manager} (h : UsedExact m) (hmax : m.maxBlocks ≤ blockLimit)
    {align : Nat} : ∀ n, (∀ i < n, align + i < m.maxBlocks ∧
      bitAt m.memoryMap (align + i) = false) → UsedExact (setRun m align n) := by
  intro n
  induction n with
  | zero => exact fun _ => h
  | succ n ih =>
    intro hclear
    have hprev := ih fun i hi => hclear i (Nat.lt_succ_of_lt hi)
    obtain ⟨hbelow, hbit⟩ := hclear n (Nat.lt_succ_self n)
    have hstill : bitAt (Memory.setRun m align n).memoryMap (align + n) = false := by
      rw [bitAt_setRun, hbit, decide_eq_false (by omega), Bool.or_false]
    have hcount : countSet m.maxBlocks
        (bitAt (setBlock (Memory.setRun m align n).memoryMap (align + n)))
          = countSet m.maxBlocks (bitAt (Memory.setRun m align n).memoryMap) + 1 :=
      countSet_set hbelow hstill (bitAt_setBlock _ _)
    unfold UsedExact at *
    rw [maxBlocks_setRun] at hprev
    have hle : countSet m.maxBlocks
        (bitAt (setBlock (Memory.setRun m align n).memoryMap (align + n))) ≤ m.maxBlocks :=
      countSet_le
    unfold blockLimit at hmax
    rw [setRun_succ]
    show u32 ((Memory.setRun m align n).usedBlocks + 1)
      = countSet (Memory.setRun m align n).maxBlocks _
    rw [maxBlocks_setRun, hprev, u32_eq (by omega)]
    exact hcount.symm

/-! ## 3. Calls -/

/-- A call of the manager. -/
inductive ManagerCall
  | initializeRegion (baseAddress size : Nat)
  | deinitializeRegion (baseAddress size : Nat)
  | allocate
  | free (address : Nat)

/-- One call; a call of `free_blocks` frees a live result. -/
inductive ManagerStep : Session → ManagerCall → Session → Prop
  | initializeRegion {s : Session} {baseAddress size : Nat} :
      ManagerStep s (.initializeRegion baseAddress size)
        ⟨initializeMemoryRegion s.manager baseAddress size, s.live⟩
  | deinitializeRegion {s : Session} {baseAddress size : Nat} :
      ManagerStep s (.deinitializeRegion baseAddress size)
        ⟨deinitializeMemoryRegion s.manager baseAddress size, s.live⟩
  | allocate {s s' : Session} (hstep : FrameStep s .allocate s') : ManagerStep s .allocate s'
  | free {s s' : Session} {address : Nat} (hstep : FrameStep s (.free address) s') :
      ManagerStep s (.free address) s'

/-- **When a call counts what it changes.**  Every block of a region changes; the bit of block 0,
which `initialize_memory_region` sets again, is set already; a block that is freed is in use.
For an allocation: there is no free block, or there are two of which one is in a whole word. -/
def Counted (m : Manager) : ManagerCall → Prop
  | .initializeRegion baseAddress size =>
    (0 < m.maxBlocks → bitAt m.memoryMap 0 = true) ∧
    ∀ i < size / blockSize, baseAddress / blockSize + i ≠ 0 ∧
      baseAddress / blockSize + i < m.maxBlocks ∧
      bitAt m.memoryMap (baseAddress / blockSize + i) = true
  | .deinitializeRegion baseAddress size =>
    ∀ i < size / blockSize, baseAddress / blockSize + i < m.maxBlocks ∧
      bitAt m.memoryMap (baseAddress / blockSize + i) = false
  | .allocate => (∀ b < m.maxBlocks, bitAt m.memoryMap b = true) ∨
    ∃ b c, b ≠ c ∧ b < m.maxBlocks / 32 * 32 ∧ c < m.maxBlocks ∧
      bitAt m.memoryMap b = false ∧ bitAt m.memoryMap c = false
  | .free address => bitAt m.memoryMap (address / blockSize) = true

/-- What holds in every state of a counted run. -/
structure Counting (s : Session) : Prop where
  limit : s.manager.maxBlocks ≤ blockLimit
  exact : UsedExact s.manager
  live : ∀ p ∈ s.live, ∃ b < s.manager.maxBlocks, p = b * blockSize ∧ 0 < b
  zero : 0 < s.manager.maxBlocks → bitAt s.manager.memoryMap 0 = true

theorem maxBlocks_initializeMemoryRegion (m : Manager) (baseAddress size : Nat) :
    (initializeMemoryRegion m baseAddress size).maxBlocks = m.maxBlocks :=
  maxBlocks_unsetRun ..

theorem Counting.initializeRegion {s : Session} (h : Counting s) {baseAddress size : Nat}
    (hok : Counted s.manager (.initializeRegion baseAddress size)) :
    Counting ⟨initializeMemoryRegion s.manager baseAddress size, s.live⟩ := by
  obtain ⟨hzero, hblocks⟩ := hok
  have hrun := h.exact.unsetRun h.limit (size / blockSize) fun i hi => (hblocks i hi).2
  refine ⟨?_, ?_, ?_, fun _ => ?_⟩ <;> simp only [maxBlocks_initializeMemoryRegion]
  · exact h.limit
  · -- Setting bit 0 again changes nothing below `max_blocks`.
    unfold UsedExact at *
    rw [initializeMemoryRegion_eq]
    simp only []
    rw [hrun]
    refine congrArg Finset.card (Finset.filter_congr fun i hi => ?_)
    rw [bitAt_setBlock, bitAt_unsetRun]
    by_cases hi0 : i = 0
    · subst hi0
      rw [maxBlocks_unsetRun] at hi
      rw [hzero (Nat.zero_lt_of_lt (Finset.mem_range.mp hi)), decide_eq_true rfl, Bool.or_true,
        decide_eq_true ?_]
      · simp
      · rintro ⟨hle, hlt⟩
        have hbase := Nat.le_zero.mp hle
        rw [hbase, Nat.zero_add] at hlt
        exact (hblocks 0 hlt).1 hbase
    · rw [decide_eq_false hi0, Bool.or_false]
  · exact h.live
  · rw [initializeMemoryRegion_eq, bitAt_setBlock, decide_eq_true rfl, Bool.or_true]

theorem Counting.deinitializeRegion {s : Session} (h : Counting s) {baseAddress size : Nat}
    (hok : Counted s.manager (.deinitializeRegion baseAddress size)) :
    Counting ⟨deinitializeMemoryRegion s.manager baseAddress size, s.live⟩ := by
  rw [deinitializeMemoryRegion_eq]
  refine ⟨?_, h.exact.setRun h.limit (size / blockSize) hok, ?_, fun hpos => ?_⟩
  · exact (maxBlocks_setRun ..).symm ▸ h.limit
  · exact (maxBlocks_setRun s.manager _ _).symm ▸ h.live
  · rw [maxBlocks_setRun] at hpos
    rw [bitAt_setRun, h.zero hpos, Bool.true_or]

/-- An allocation counts the block it takes. -/
theorem UsedExact.taken {m : Manager} (h : UsedExact m) (hmax : m.maxBlocks ≤ blockLimit) {b : Nat}
    {r : Nat × Manager} (ht : Taken m b r) : UsedExact r.2 := by
  have hbelow : b < m.maxBlocks := Nat.lt_of_lt_of_le ht.below (Nat.div_mul_le_self _ _)
  have hcount : countSet m.maxBlocks (bitAt r.2.memoryMap)
      = countSet m.maxBlocks (bitAt m.memoryMap) + 1 := countSet_set hbelow ht.clear ht.bits
  have hle : countSet m.maxBlocks (bitAt r.2.memoryMap) ≤ m.maxBlocks := countSet_le
  unfold UsedExact at *
  unfold blockLimit at hmax
  rw [ht.usedBlocks, ht.maxBlocks, h, u32_eq (by omega)]
  exact hcount.symm

theorem Counting.allocate {s s' : Session} (h : Counting s) (hstep : FrameStep s .allocate s') :
    Counting s' := by
  cases hstep with
  | allocate =>
    rcases allocateBlocks_one h.limit with ⟨hnone, -⟩ | ⟨b, htaken⟩
    · rw [hnone]
      exact h
    · refine ⟨htaken.maxBlocks.symm ▸ h.limit, h.exact.taken h.limit htaken, fun p hp => ?_,
        fun hpos => ?_⟩ <;> simp only [htaken.maxBlocks] at *
      swap
      · rw [htaken.bits, h.zero hpos, Bool.true_or]
      have hbelow := Nat.lt_of_lt_of_le htaken.below (Nat.div_mul_le_self _ _)
      by_cases hnull : (allocateBlocks s.manager 1).1 = 0
      · rw [if_pos hnull] at hp
        exact h.live p hp
      · rw [if_neg hnull] at hp
        rcases List.mem_cons.mp hp with rfl | hold
        · refine ⟨b, hbelow, htaken.address, Nat.pos_of_ne_zero ?_⟩
          rintro rfl
          exact hnull (htaken.address.trans (Nat.zero_mul _))
        · exact h.live p hold

theorem Counting.free {s s' : Session} {address : Nat} (h : Counting s)
    (hok : Counted s.manager (.free address)) (hstep : FrameStep s (.free address) s') :
    Counting s' := by
  cases hstep with
  | free hlive =>
    obtain ⟨b, hb, rfl, hpos⟩ := h.live address hlive
    have hset : bitAt s.manager.memoryMap b = true := by
      have hblock : b * blockSize / blockSize = b := Nat.mul_div_cancel _ (by decide)
      rwa [Counted, hblock] at hok
    have hcount : countSet s.manager.maxBlocks
        (bitAt (freeBlocks s.manager (b * blockSize) 1).memoryMap) + 1
          = countSet s.manager.maxBlocks (bitAt s.manager.memoryMap) :=
      countSet_clear hb hset (bitAt_freeBlocks s.manager)
    have hle : countSet s.manager.maxBlocks (bitAt s.manager.memoryMap) ≤ s.manager.maxBlocks :=
      countSet_le
    have hlimit := h.limit
    have hexact := h.exact
    refine ⟨h.limit, ?_, fun p hp => h.live p (List.mem_of_mem_erase hp), fun hmax => ?_⟩
    swap
    · rw [bitAt_freeBlocks, h.zero hmax, decide_eq_true (Nat.pos_iff_ne_zero.mp hpos).symm,
        Bool.and_true]
    unfold UsedExact blockLimit at *
    show sub32 s.manager.usedBlocks 1 = countSet s.manager.maxBlocks
      (bitAt (freeBlocks s.manager (b * blockSize) 1).memoryMap)
    rw [sub32_eq (by omega) (by omega)]
    omega

/-- A refusal means that no block is free. -/
theorem Counting.refused {s : Session} (h : Counting s) (hok : Counted s.manager .allocate)
    (hnull : (allocateBlocks s.manager 1).1 = 0) :
    ∀ b < s.manager.maxBlocks, bitAt s.manager.memoryMap b = true := by
  rcases allocateBlocks_one h.limit with ⟨-, hwhy⟩ | ⟨b, htaken⟩
  · rcases hok with hall | ⟨b, c, hne, hb, hc, hclear, hclear'⟩
    · exact hall
    · rcases hwhy with hfew | hset
      · -- Two clear bits: the counter leaves at least two blocks.
        have hbelow := Nat.lt_of_lt_of_le hb (Nat.div_mul_le_self _ _)
        have htwo := countSet_two_clear hbelow hc hne hclear hclear'
        have hexact := h.exact
        have hlimit := h.limit
        unfold UsedExact blockLimit at *
        rw [hexact, sub32_eq (by omega) (by omega)] at hfew
        omega
      · exact absurd ((hset b hb).symm.trans hclear) (by decide)
  · -- The block taken is not block 0, so its address is not null.
    rw [htaken.address] at hnull
    have hb : b = 0 := (Nat.mul_eq_zero.mp hnull).resolve_right (by decide)
    subst hb
    have hpos := Nat.lt_of_lt_of_le htaken.below (Nat.div_mul_le_self _ _)
    exact absurd ((h.zero hpos).symm.trans htaken.clear) (by decide)

/-! ## 4. Runs -/

/-- The bits after the manager is initialised: `memset` sets those of the whole bytes. -/
theorem bitAt_initialized (memory : Bytes) (size b : Nat) :
    bitAt (initializeMemoryManager memory size).memoryMap b
      = (decide (b < size / blockSize / 8 * 8) || bitAt memory b) := by
  unfold initializeMemoryManager blocksPerByte
  simp only []
  by_cases hlow : b < size / blockSize / 8 * 8
  · have hbits : ∀ k < 8, (0xFF : UInt8).toNat.testBit k = true := by decide
    rw [decide_eq_true hlow, Bool.true_or]
    unfold bitAt
    rw [blit_in (Nat.zero_le _) (by omega)]
    exact hbits _ (Nat.mod_lt _ (by decide))
  · rw [decide_eq_false hlow, Bool.false_or]
    exact bitAt_congr (blit_out (by omega))

/-- The manager is initialised; the bits that `memset` leaves, those behind the last whole byte,
are set. -/
theorem counting_initialized {memory : Bytes} {size : Nat} (hsize : size < 4294967296)
    (hrest : ∀ b, size / blockSize / 8 * 8 ≤ b → b < size / blockSize → bitAt memory b = true) :
    Counting ⟨initializeMemoryManager memory size, []⟩ := by
  have hall : ∀ b < size / blockSize,
      bitAt (initializeMemoryManager memory size).memoryMap b = true := by
    intro b hb
    rw [bitAt_initialized]
    by_cases hlow : b < size / blockSize / 8 * 8
    · rw [decide_eq_true hlow, Bool.true_or]
    · rw [hrest b (Nat.not_lt.mp hlow) hb, Bool.or_true]
  refine ⟨?_, ?_, fun p hp => absurd hp List.not_mem_nil, fun hpos => hall 0 hpos⟩
  · show size / 4096 ≤ 1048576
    omega
  · exact (countSet_eq_iff.mpr hall).symm

/-- **The count of used blocks tells the truth** in every state of a run of counted calls, and
there a counted allocation returns null only when no block is free. -/
theorem counter_exact (memory : Bytes) (size : Nat) (hsize : size < 4294967296)
    (hrest : ∀ b, size / blockSize / 8 * 8 ≤ b → b < size / blockSize → bitAt memory b = true)
    (s : Session) (h : Reach ManagerStep (fun s c => Counted s.manager c)
      ⟨initializeMemoryManager memory size, []⟩ s) :
    UsedExact s.manager ∧ (Counted s.manager .allocate → (allocateBlocks s.manager 1).1 = 0 →
      ∀ b < s.manager.maxBlocks, bitAt s.manager.memoryMap b = true) := by
  have hcounting : Counting s := by
    refine h.invariant (counting_initialized hsize hrest) ?_
    rintro s c s' hs hok hstep
    cases hstep with
    | initializeRegion => exact hs.initializeRegion hok
    | deinitializeRegion => exact hs.deinitializeRegion hok
    | allocate hstep => exact hs.allocate hstep
    | free hstep => exact hs.free hok hstep
  exact ⟨hcounting.exact, hcounting.refused⟩

/-- **The counter drifts**: reserving block 0 of a manager of eight blocks, all in use already,
makes the counter 9. -/
theorem counter_drifts : ¬ ∀ (memory : Bytes) (size : Nat) (s : Session), size < 4294967296 →
    Reach ManagerStep (fun _ _ => True) ⟨initializeMemoryManager memory size, []⟩ s →
    UsedExact s.manager ∧ ((allocateBlocks s.manager 1).1 = 0 →
      ∀ b < s.manager.maxBlocks, bitAt s.manager.memoryMap b = true) := by
  intro hall
  have hexact := (hall (fun _ => 0) 32768 _ (by decide)
    (.tail .refl trivial (@ManagerStep.deinitializeRegion _ 0 4096))).1
  have hused : (deinitializeMemoryRegion
      (initializeMemoryManager (fun _ => 0) 32768) 0 4096).usedBlocks = 9 := by decide
  unfold UsedExact at hexact
  rw [hused] at hexact
  have hle : countSet 8 (bitAt (deinitializeMemoryRegion
      (initializeMemoryManager (fun _ => 0) 32768) 0 4096).memoryMap) ≤ 8 := countSet_le
  have height : 9 ≤ 8 := hexact.trans_le hle
  exact absurd height (by decide)

/-- The theorem for a manager of 64 blocks, after two of them were made available. -/
theorem counter_exact_region : ∃ s : Session, s.manager.usedBlocks = 62 ∧ UsedExact s.manager := by
  have hrest : ∀ b, 262144 / blockSize / 8 * 8 ≤ b → b < 262144 / blockSize →
      bitAt (fun _ => 0) b = true := by
    intro b h1 h2
    exact absurd (Nat.lt_of_le_of_lt h1 h2) (by decide)
  have hok : Counted (initializeMemoryManager (fun _ => 0) 262144)
      (.initializeRegion 4096 8192) := by
    unfold Counted
    decide
  have h := counter_exact (fun _ => 0) 262144 (by decide) hrest _
    (.tail .refl hok .initializeRegion)
  exact ⟨_, by decide, h.1⟩

end AmateurOs.Memory
