/-
# Paging at boot

`initialize_virtual_memory_manager` builds two tables and a directory: the first four megabytes at
their own addresses, and the kernel at three gigabytes.  `prekernel_main` then maps the frame
buffer, one page after the other and with a new table wherever one is missing, and takes the kernel
out of the low half.  `boot_pages` says which map the tables show in the end.

The first table is reached through the directory entry of the kernel, and the second through that
of the low half: the names `table` and `table3G` of the source are the other way round.

Every page of the new tables is mapped as well, for the user too.
-/
import AmateurOs.Memory.Boot
import AmateurOs.Memory.Search
import AmateurOs.Memory.Space

namespace AmateurOs.Memory

open AmateurOs.Lib

/-! ## 1. The least free blocks -/

/-- **The least free blocks**: those before `b` are in use, and the `n` from `b` on are free. -/
structure OpenRun (m : Manager) (b n : Nat) : Prop where
  positive : 0 < b
  used : ∀ i < b, bitAt m.memoryMap i = true
  free : ∀ k < n, bitAt m.memoryMap (b + k) = false
  whole : b + n ≤ m.maxBlocks / 32 * 32
  limit : m.maxBlocks ≤ blockLimit
  enough : n < sub32 m.maxBlocks m.usedBlocks

theorem bitAt_setBlocks (map : Bytes) (b n i : Nat) :
    bitAt ((List.range n).foldl (fun map i => setBlock map (b + i)) map) i =
      (bitAt map i || decide (b ≤ i ∧ i < b + n)) := by
  induction n with
  | zero =>
    rw [decide_eq_false (by omega), Bool.or_false]
    rfl
  | succ n ih =>
    rw [List.range_succ, List.foldl_append, List.foldl_cons, List.foldl_nil, bitAt_setBlock, ih,
      Bool.or_assoc, ← Bool.decide_or]
    congr 1
    exact decide_eq_decide.mpr (by omega)

/-- The search finds the first of them. -/
theorem OpenRun.found {m : Manager} {b n k : Nat} (h : OpenRun m b (n + k)) (hk : 1 ≤ k) :
    findFirstFreeBlocks m k = some b := by
  have hwhole := h.whole
  have hlimit := h.limit
  unfold blockLimit at hlimit
  have hrun : Run m k b := ⟨by omega, fun i hi => h.free i (by omega)⟩
  have hlooks : (!decide (LooksFree m k b)) = false := by
    rw [decide_eq_true (looksFree_iff.mpr (hrun.clearAhead (by omega)))]
    rfl
  have hfirst := findFirstFreeBlocks_first m hk
  generalize findFirstFreeBlocks m k = r at hfirst
  cases hfirst with
  | full hset => exact absurd ((hset b (by omega)).symm.trans hlooks) (by decide)
  | @found c hlt hclear hset =>
    rcases Nat.lt_trichotomy c b with hcb | rfl | hcb
    · -- the block itself is tested
      rw [Bool.not_eq_false', decide_eq_true_iff] at hclear
      have hfirst := hclear 0 hk
      have hplace : probed c 0 = c := by
        unfold probed
        simp only
        rw [u32_eq (by omega)]
        split <;> omega
      rw [hplace, h.used c hcb] at hfirst
      cases hfirst
    · rfl
    · exact absurd ((hset b hcb).symm.trans hlooks) (by decide)

/-- **`allocate_blocks`** takes the first of them. -/
theorem OpenRun.take {m : Manager} {b n k : Nat} (h : OpenRun m b (n + k)) (hk : 1 ≤ k) :
    (allocateBlocks m k).1 = 4096 * b ∧ OpenRun (allocateBlocks m k).2 (b + k) n ∧
      ∀ i, bitAt (allocateBlocks m k).2.memoryMap i =
        (bitAt m.memoryMap i || decide (b ≤ i ∧ i < b + k)) := by
  have hwhole := h.whole
  have hlimit := h.limit
  have henough := h.enough
  unfold blockLimit at hlimit
  have hbits := bitAt_setBlocks m.memoryMap b k
  have htake : allocateBlocks m k = (u32 (b * blockSize), { m with
      memoryMap := (List.range k).foldl (fun map i => setBlock map (b + i)) m.memoryMap
      usedBlocks := u32 (m.usedBlocks + k) }) := by
    rw [allocateBlocks, if_neg (by omega), h.found hk]
  rw [htake]
  refine ⟨?_, ⟨by omega, fun i hi => ?_, fun j hj => ?_, by simp only; omega, h.limit, ?_⟩, hbits⟩
  · simp only [blockSize, Nat.mul_comm b]
    exact u32_eq (by omega)
  · rw [hbits]
    rcases Nat.lt_or_ge i b with hlt | hge
    · rw [h.used i hlt, Bool.true_or]
    · rw [decide_eq_true ⟨hge, hi⟩, Bool.or_true]
  · rw [hbits, Nat.add_assoc, h.free (k + j) (by omega), decide_eq_false (by omega)]
    rfl
  · have hcount : sub32 m.maxBlocks (u32 (m.usedBlocks + k)) + k = sub32 m.maxBlocks m.usedBlocks := by
      unfold sub32 u32 at henough ⊢
      omega
    exact Nat.lt_of_add_lt_add_right (hcount.symm ▸ henough)

/-! ## 2. The setup -/

/-- A loop that enters a page in every place of a table. -/
def fillTable (memory : Bytes) (table : Nat) (page : Nat → Nat) (n : Nat) : Bytes :=
  (List.range n).foldl (fun memory i => put32 memory (table + 4 * i) (page i)) memory

/-- A page of the first four megabytes. -/
def identityPage (i : Nat) : Nat :=
  setFrame (setAttribute (setAttribute 0 present) readWrite) (i * pageSize)

/-- A page of the kernel. -/
def kernelPage (i : Nat) : Nat := setFrame (setAttribute 0 present) (kernelAddress + i * pageSize)

/-- `pd_add_flags` and `|=`, at the address of an entry. -/
def addFlags (memory : Bytes) (entry flags : Nat) : Bytes :=
  put32 memory entry (le32 memory entry ||| flags)

/-- The directory entry of a table. -/
def enterTable (memory : Bytes) (dir virt table : Nat) : Bytes :=
  put32 memory (slotAddress dir virt) (tableEntry (directoryEntry memory dir virt) table)

/-- The two tables are cleared, and the first four megabytes and the kernel are mapped. -/
def fillTables (memory : Bytes) (table table3G : Nat) : Bytes :=
  let memory := blit memory table pageSize fun _ => 0
  let memory := blit memory table3G pageSize fun _ => 0
  let memory := fillTable memory table3G identityPage 1024
  fillTable memory table kernelPage 1024

/-- The directory is cleared, the pages for user processes get their flags, and the two tables are
entered. -/
def fillDirectory (memory : Bytes) (dir table table3G : Nat) : Bytes :=
  let memory := blit memory dir pageSize fun _ => 0
  let memory := addFlags memory (slotAddress dir 0xC000) 7
  let memory := addFlags memory (slotAddress dir 0xD000) 7
  let memory := addFlags memory (table3G + 4 * 12) 4
  let memory := addFlags memory (table3G + 4 * 13) 4
  let memory := enterTable memory dir 0xC0000000 table
  enterTable memory dir 0 table3G

/-- `initialize_virtual_memory_manager`: whether it had enough memory, the machine and the current
page directory, 0 for none. -/
def initializeVirtualMemoryManager (m : Machine) : Bool × Machine × Nat :=
  let (table, manager) := allocateBlocks m.manager 1
  if table = 0 then (false, ⟨m.memory, manager⟩, 0)
  else
    let (table3G, manager) := allocateBlocks manager 1
    if table3G = 0 then (false, ⟨m.memory, manager⟩, 0)
    else
      let memory := fillTables m.memory table table3G
      let (dir, manager) := allocateBlocks manager 3
      if dir = 0 then (false, ⟨memory, manager⟩, 0)
      else (true, ⟨fillDirectory memory dir table table3G, manager⟩, dir)

/-- The loop that maps the frame buffer. -/
def mapFramebuffer (dir : Nat) : Nat → Machine → Nat → Option Machine
  | 0, m, _ => some m
  | n + 1, m, fbStart => do
    let r ← mapAddress mapFuel m dir fbStart fbStart 7
    mapFramebuffer dir n r.2 (u32 (fbStart + pageSize))

/-- The loop that unmaps `n` pages from the kernel on. -/
def unmapKernel (m : Machine) (dir n : Nat) : Machine :=
  (List.range n).foldl (fun m i => unmapPage m dir (kernelAddress + i * pageSize)) m

/-- The manager when paging is set up. -/
def pagingManager (boot : Boot) : Manager :=
  let m := initializeMemoryManager boot.memory (totalMemory boot)
  let m := initializeEntries boot.entries m
  let m := deinitializeMemoryRegion m 0 0x12000
  let m := deinitializeMemoryRegion m memmapArea (m.maxBlocks / blocksPerByte)
  deinitializeMemoryRegion m fontAddress (u32 (boot.fontBlocks * blockSize))

/-- The second half of `prekernel_main`: the machine and the page directory for the kernel. -/
def prekernelPaging (boot : Boot) (memory : Bytes) : Option (Machine × Nat) := do
  let (_, m, dir) := initializeVirtualMemoryManager ⟨memory, pagingManager boot⟩
  let m ← mapFramebuffer dir (fbSizeInPages boot) m boot.physicalBasePointer
  let manager := deinitializeMemoryRegion m.manager boot.physicalBasePointer
    (u32 (fbSizeInPages boot * blockSize))
  return (unmapKernel ⟨m.memory, manager⟩ dir 768, dir)

/-- The blocks for paging are taken before the frame buffer is reserved. -/
theorem memorySetup_eq (boot : Boot) : memorySetup boot = deinitializeMemoryRegion
    (pagingManager boot) boot.physicalBasePointer (u32 (fbSizeInPages boot * blockSize)) := rfl

/-! ## 3. The tables -/

theorem fillTable_succ (memory : Bytes) (table : Nat) (page : Nat → Nat) (n : Nat) :
    fillTable memory table page (n + 1) =
      put32 (fillTable memory table page n) (table + 4 * n) (page n) := by
  rw [fillTable, List.range_succ, List.foldl_append]
  rfl

theorem fillTable_out {memory : Bytes} {table q : Nat} (page : Nat → Nat) : ∀ {n : Nat},
    q < table ∨ table + 4 * n ≤ q → fillTable memory table page n q = memory q := by
  intro n
  induction n with
  | zero => exact fun _ => rfl
  | succ n ih =>
    intro h
    rw [fillTable_succ, put32_out (by omega)]
    exact ih (by omega)

/-- **Every place of the table** holds its page. -/
theorem le32_fillTable {memory : Bytes} {table : Nat} {page : Nat → Nat} {i : Nat}
    (hpage : page i < 4294967296) : ∀ {n : Nat}, i < n →
      le32 (fillTable memory table page n) (table + 4 * i) = page i := by
  intro n
  induction n with
  | zero => exact fun h => absurd h (Nat.not_lt_zero i)
  | succ n ih =>
    intro h
    rw [fillTable_succ]
    rcases Nat.lt_succ_iff_lt_or_eq.mp h with hlt | rfl
    · rw [le32_put32_ne (by omega)]
      exact ih hlt
    · rw [le32_put32]
      exact u32_eq hpage

theorem le32_addFlags (memory : Bytes) (entry : Nat) {flags : Nat} (h : flags < 4294967296) :
    le32 (addFlags memory entry flags) entry = le32 memory entry ||| flags := by
  rw [addFlags, le32_put32]
  exact u32_eq (Nat.or_lt_two_pow (n := 32) (le32_lt _ _) h)

theorem le32_addFlags_ne {memory : Bytes} {entry flags q : Nat}
    (h : q + 4 ≤ entry ∨ entry + 4 ≤ q) : le32 (addFlags memory entry flags) q = le32 memory q :=
  le32_put32_ne h

/-- A frame in an entry that has flags only. -/
theorem setFrame_flags (address : Nat) {flags : Nat}
    (h : flags &&& (0xFFFFFFFF ^^^ 0x7FFFF000) = flags) : setFrame flags address = address ||| flags := by
  rw [setFrame, h, Nat.or_comm]

theorem identityPage_eq (i : Nat) : identityPage i = i * 4096 ||| 3 := setFrame_flags _ (by decide)

theorem kernelPage_eq (i : Nat) : kernelPage i = (kernelAddress + i * 4096) ||| 1 :=
  setFrame_flags _ (by decide)

/-- **What `initialize_virtual_memory_manager` stores** in the blocks `b`, `b + 1` and `b + 2`. -/
structure Initialized (memory₀ : Bytes) (b : Nat) (memory : Bytes) : Prop where
  directory : ∀ v < 4294967296, directoryEntry memory (4096 * (b + 2)) v =
    if v / 4194304 = 0 then 4096 * (b + 1) ||| 7
    else if v / 4194304 = 768 then 4096 * b ||| 3 else 0
  low : ∀ i < 1024, le32 memory (4096 * (b + 1) + 4 * i) =
    i * 4096 ||| (if i = 12 ∨ i = 13 then 7 else 3)
  kernel : ∀ i < 1024, le32 memory (4096 * b + 4 * i) = (kernelAddress + i * 4096) ||| 1
  bytes : ∀ p, p < 4096 * b ∨ 4096 * (b + 3) ≤ p → memory p = memory₀ p

/-- The two tables. -/
theorem fillTables_pages (memory : Bytes) (b : Nat) {i : Nat} (hi : i < 1024) :
    le32 (fillTables memory (4096 * b) (4096 * (b + 1))) (4096 * b + 4 * i) =
      ((kernelAddress + i * 4096) ||| 1) ∧
    le32 (fillTables memory (4096 * b) (4096 * (b + 1))) (4096 * (b + 1) + 4 * i) =
      (i * 4096 ||| 3) := by
  have hidentity : identityPage i < 4294967296 := setFrame_lt (by unfold pageSize; omega)
  have hkernel : kernelPage i < 4294967296 :=
    setFrame_lt (by unfold kernelAddress pageSize; omega)
  unfold fillTables
  refine ⟨(le32_fillTable hkernel hi).trans (kernelPage_eq i), ?_⟩
  rw [← identityPage_eq, ← @le32_fillTable _ (4096 * (b + 1)) _ _ hidentity _ hi]
  exact le32_congr fun k hk => fillTable_out _ (by omega)

theorem fillTables_out {memory : Bytes} {b p : Nat} (h : p < 4096 * b ∨ 4096 * (b + 2) ≤ p) :
    fillTables memory (4096 * b) (4096 * (b + 1)) p = memory p := by
  unfold fillTables pageSize
  rw [fillTable_out _ (by omega), fillTable_out _ (by omega), blit_out (by omega),
    blit_out (by omega)]

/-- A directory entry of 0 or 7 in which a table is entered. -/
theorem le32_enterTable {memory : Bytes} {dir virt table flags : Nat}
    (htable : table < 4294967296) (hold : directoryEntry memory dir virt = flags)
    (hflags : setAttribute (setAttribute flags present) readWrite &&& (0xFFFFFFFF ^^^ 0x7FFFF000) =
      setAttribute (setAttribute flags present) readWrite) :
    le32 (enterTable memory dir virt table) (slotAddress dir virt) =
      table ||| setAttribute (setAttribute flags present) readWrite := by
  rw [enterTable, le32_put32, hold, tableEntry, u32_eq (setFrame_lt htable),
    setFrame_flags _ hflags]

/-- The entry of a region, by its place in the directory. -/
theorem directoryEntry_slot (memory : Bytes) (dir virt : Nat) :
    directoryEntry memory dir virt = le32 memory (dir + 4 * (virt / 4194304)) := rfl

/-- **The directory**, and the pages for user processes. -/
theorem fillDirectory_spec (memory : Bytes) {b : Nat} (hb : 4096 * (b + 3) ≤ 4294967296) :
    Initialized memory b (fillDirectory (fillTables memory (4096 * b) (4096 * (b + 1)))
      (4096 * (b + 2)) (4096 * b) (4096 * (b + 1))) := by
  have hpages := fun i (hi : i < 1024) => fillTables_pages memory b hi
  have hout := fun p => @fillTables_out memory b p
  generalize fillTables memory (4096 * b) (4096 * (b + 1)) = filled at hpages hout
  obtain ⟨dir, hdir⟩ : ∃ dir, dir = 4096 * (b + 2) := ⟨_, rfl⟩
  have hlow : slotAddress dir 0xC000 = dir ∧ slotAddress dir 0xD000 = dir ∧
      slotAddress dir 0 = dir ∧ slotAddress dir 0xC0000000 = dir + 3072 := by
    unfold slotAddress
    omega
  rw [← hdir]
  unfold fillDirectory
  obtain ⟨m₁, hm₁⟩ : ∃ m₁, m₁ = blit filled dir pageSize fun _ => 0 := ⟨_, rfl⟩
  obtain ⟨m₂, hm₂⟩ : ∃ m₂, m₂ = addFlags m₁ (slotAddress dir 0xC000) 7 := ⟨_, rfl⟩
  obtain ⟨m₃, hm₃⟩ : ∃ m₃, m₃ = addFlags m₂ (slotAddress dir 0xD000) 7 := ⟨_, rfl⟩
  obtain ⟨m₄, hm₄⟩ : ∃ m₄, m₄ = addFlags m₃ (4096 * (b + 1) + 4 * 12) 4 := ⟨_, rfl⟩
  obtain ⟨m₅, hm₅⟩ : ∃ m₅, m₅ = addFlags m₄ (4096 * (b + 1) + 4 * 13) 4 := ⟨_, rfl⟩
  obtain ⟨m₆, hm₆⟩ : ∃ m₆, m₆ = enterTable m₅ dir 0xC0000000 (4096 * b) := ⟨_, rfl⟩
  simp only [← hm₁, ← hm₂, ← hm₃, ← hm₄, ← hm₅, ← hm₆]
  -- words outside the directory, up to the flags for user processes
  have hfilled : ∀ q, q + 4 ≤ dir → le32 m₃ q = le32 filled q := by
    intro q hq
    rw [hm₃, le32_addFlags_ne (by omega), hm₂, le32_addFlags_ne (by omega), hm₁]
    exact le32_congr fun k hk => blit_out (by omega)
  have htables : ∀ q, q + 4 ≤ dir → le32 (enterTable m₆ dir 0 (4096 * (b + 1))) q = le32 m₅ q := by
    intro q hq
    rw [enterTable, le32_put32_ne (by omega), hm₆, enterTable, le32_put32_ne (by omega)]
  -- words of the directory
  have hzero : ∀ j < 1024, le32 m₁ (dir + 4 * j) = 0 := by
    intro j hj
    have hword : le32 m₁ (dir + 4 * j) = le32 (fun _ => 0) 0 := by
      rw [hm₁]
      exact le32_congr fun k hk => blit_in (by omega) (by unfold pageSize; omega)
    exact hword
  have hfirst : le32 m₅ dir = 7 := by
    rw [hm₅, le32_addFlags_ne (by omega), hm₄, le32_addFlags_ne (by omega), hm₃, hlow.2.1,
      le32_addFlags _ _ (by decide), hm₂, hlow.1, le32_addFlags _ _ (by decide)]
    have h0 := hzero 0 (by decide)
    rw [Nat.mul_zero, Nat.add_zero] at h0
    rw [h0]
    rfl
  have hothers : ∀ j, 0 < j → j < 1024 → le32 m₅ (dir + 4 * j) = 0 := by
    intro j hpos hj
    rw [hm₅, le32_addFlags_ne (by omega), hm₄, le32_addFlags_ne (by omega), hm₃,
      le32_addFlags_ne (by omega), hm₂, le32_addFlags_ne (by omega)]
    exact hzero j hj
  refine ⟨fun v hv => ?_, fun i hi => ?_, fun i hi => ?_, fun p hp => ?_⟩
  · rw [← hdir, directoryEntry_slot]
    split
    · next hregion =>
      have hold : directoryEntry m₆ dir 0 = 7 := by
        rw [directoryEntry, hlow.2.2.1, hm₆, enterTable, le32_put32_ne (by omega)]
        exact hfirst
      have hentry := @le32_enterTable _ _ _ (4096 * (b + 1)) _ (by omega) hold (by decide)
      rw [hlow.2.2.1] at hentry
      rw [hregion]
      exact hentry
    · next hregion =>
      rw [enterTable, le32_put32_ne (by omega)]
      split
      · next hkernel =>
        have hold : directoryEntry m₅ dir 0xC0000000 = 0 := by
          rw [directoryEntry, hlow.2.2.2]
          exact hothers 768 (by decide) (by decide)
        have hentry := @le32_enterTable _ _ _ (4096 * b) _ (by omega) hold (by decide)
        rw [hlow.2.2.2] at hentry
        rw [hkernel, hm₆]
        exact hentry
      · rw [hm₆, enterTable, le32_put32_ne (by omega)]
        exact hothers _ (by omega) (by omega)
  · rw [htables _ (by omega), hm₅]
    have hpage := (hpages i hi).2
    by_cases h13 : i = 13
    · rw [h13] at hpage ⊢
      rw [le32_addFlags _ _ (by decide), hm₄, le32_addFlags_ne (by omega), hfilled _ (by omega), hpage]
      decide
    · rw [le32_addFlags_ne (by omega), hm₄]
      by_cases h12 : i = 12
      · rw [h12] at hpage ⊢
        rw [le32_addFlags _ _ (by decide), hfilled _ (by omega), hpage]
        decide
      · rw [le32_addFlags_ne (by omega), hfilled _ (by omega), hpage, if_neg (by omega)]
  · rw [htables _ (by omega), hm₅, le32_addFlags_ne (by omega), hm₄, le32_addFlags_ne (by omega),
      hfilled _ (by omega)]
    exact (hpages i hi).1
  · rw [enterTable, put32_out (by omega), hm₆, enterTable, put32_out (by omega), hm₅, addFlags,
      put32_out (by omega), hm₄, addFlags, put32_out (by omega), hm₃, addFlags,
      put32_out (by omega), hm₂, addFlags, put32_out (by omega), hm₁,
      blit_out (by unfold pageSize; omega)]
    exact hout p (by omega)

/-- **`initialize_virtual_memory_manager`** on the least free blocks. -/
theorem initialize_eq {m : Machine} {b n : Nat} (h : OpenRun m.manager b (n + 5)) :
    ∃ m', initializeVirtualMemoryManager m = (true, m', 4096 * (b + 2)) ∧
      OpenRun m'.manager (b + 5) n ∧ 
      (∀ i, bitAt m'.manager.memoryMap i = (bitAt m.manager.memoryMap i || decide (b ≤ i ∧ i < b + 5))) ∧
      Initialized m.memory b m'.memory := by
  have hpositive := h.positive
  have hwhole := h.whole
  have hlimit := h.limit
  unfold blockLimit at hlimit
  obtain ⟨htable, h₁, hbits₁⟩ := OpenRun.take (n := n + 4) (k := 1) h (Nat.le_refl 1)
  obtain ⟨htable3G, h₂, hbits₂⟩ := OpenRun.take (n := n + 3) (k := 1) h₁ (Nat.le_refl 1)
  obtain ⟨hdir, h₃, hbits₃⟩ := OpenRun.take (n := n) (k := 3) h₂ (by decide)
  refine ⟨⟨fillDirectory (fillTables m.memory (4096 * b) (4096 * (b + 1))) (4096 * (b + 2))
    (4096 * b) (4096 * (b + 1)), _⟩, ?_, h₃, fun i => ?_,
    fillDirectory_spec m.memory (by omega)⟩
  · unfold initializeVirtualMemoryManager
    simp only [htable, htable3G, hdir]
    rw [if_neg (by omega), if_neg (by omega), if_neg (by omega)]
  · rw [hbits₃, hbits₂, hbits₁, Bool.or_assoc, Bool.or_assoc, ← Bool.decide_or, ← Bool.decide_or]
    congr 1
    exact decide_eq_decide.mpr (by omega)

/-! ## 4. The first map -/

/-- The map that `initialize_virtual_memory_manager` sets up. -/
def firstSpace (page : Nat) : Option Mapping :=
  if page < 1024 then some ⟨page, true, decide (page = 12 ∨ page = 13)⟩
  else if 786432 ≤ page ∧ page < 787456 then some ⟨page - 786432 + 256, false, false⟩
  else none

theorem frameOf_block (b : Nat) {flags : Nat} (hflags : flags < 4096) :
    frameOf (4096 * b ||| flags) = 4096 * b := frameOf_or_flags (Nat.mul_mod_right _ _) hflags

theorem testBit_block (b flags : Nat) {k : Nat} (hk : k < 12) :
    (4096 * b ||| flags).testBit k = flags.testBit k := by
  rw [Nat.testBit_or, testBit_aligned (Nat.mul_mod_right _ _) hk, Bool.false_or]

section

variable {memory₀ : Bytes} {b : Nat} {m : Machine} (h : Initialized memory₀ b m.memory)

include h

/-- The two tables of the directory. -/
theorem Initialized.table {v : Nat} (hv : v < 4294967296)
    (hentry : directoryEntry m.memory (4096 * (b + 2)) v ≠ 0) :
    (v / 4194304 = 0 ∧ frameOf (directoryEntry m.memory (4096 * (b + 2)) v) = 4096 * (b + 1)) ∨
      (v / 4194304 = 768 ∧ frameOf (directoryEntry m.memory (4096 * (b + 2)) v) = 4096 * b) := by
  have hdirectory := h.directory v hv
  rw [hdirectory] at hentry ⊢
  split
  · next hregion => exact Or.inl ⟨hregion, frameOf_block _ (by decide)⟩
  · next hlow =>
    split
    · next hregion => exact Or.inr ⟨hregion, frameOf_block _ (by decide)⟩
    · next hkernel =>
      rw [if_neg hlow, if_neg hkernel] at hentry
      exact absurd rfl hentry

/-- A page of the first four megabytes, of the kernel, or of neither. -/
theorem Initialized.translated (hb : 0 < b) {v : Nat} (hv : v < 4294967296) :
    translate m.memory (4096 * (b + 2)) v = firstSpace (v / 4096) := by
  have hdirectory := h.directory v hv
  unfold translate getPhysicalAddress firstSpace
  rw [hdirectory]
  split
  · next hregion =>
    have hnonzero : 4096 * (b + 1) ||| 7 ≠ 0 := by
      rw [or_flags (by omega) (by decide)]
      omega
    have hplace : entryAddress (4096 * (b + 1) ||| 7) v = 4096 * (b + 1) + 4 * (v / 4096) := by
      rw [entryAddress, frameOf_block _ (by decide)]
      omega
    have hbits := fun k (hk : k < 12) => testBit_block (b + 1) 7 hk
    rw [if_neg hnonzero, hplace, h.low _ (by omega), if_pos (by omega : v / 4096 < 1024)]
    have hpresent : hasPresent (4096 * (b + 1) ||| 7) = true := hbits 0 (by decide)
    split
    · next huser =>
      rw [mappingOf_flags (Nat.mul_mod_left _ _) (by decide) (by decide) hpresent,
        hbits 1 (by decide), hbits 2 (by decide), decide_eq_true huser,
        Nat.mul_div_cancel _ (by decide)]
      rfl
    · next huser =>
      rw [mappingOf_flags (Nat.mul_mod_left _ _) (by decide) (by decide) hpresent,
        hbits 1 (by decide), hbits 2 (by decide), decide_eq_false huser,
        Nat.mul_div_cancel _ (by decide)]
      rfl
  · next hlow =>
    rw [if_neg (by omega : ¬ v / 4096 < 1024)]
    split
    · next hregion =>
      have hnonzero : 4096 * b ||| 3 ≠ 0 := by
        rw [or_flags (by omega) (by decide)]
        omega
      have hplace : entryAddress (4096 * b ||| 3) v = 4096 * b + 4 * (v / 4096 - 786432) := by
        rw [entryAddress, frameOf_block _ (by decide)]
        omega
      have hbits := fun k (hk : k < 12) => testBit_block b 3 hk
      have hpresent : hasPresent (4096 * b ||| 3) = true := hbits 0 (by decide)
      have haligned : (kernelAddress + (v / 4096 - 786432) * 4096) % 4096 = 0 := by
        unfold kernelAddress
        omega
      have hframe : (kernelAddress + (v / 4096 - 786432) * 4096) / 4096 =
          v / 4096 - 786432 + 256 := by
        unfold kernelAddress
        omega
      rw [if_neg hnonzero, hplace, h.kernel _ (by omega),
        if_pos (by omega : 786432 ≤ v / 4096 ∧ v / 4096 < 787456),
        mappingOf_flags haligned (by decide) (by decide) hpresent, hbits 1 (by decide),
        hbits 2 (by decide), hframe]
      rfl
    · next hkernel =>
      rw [if_neg (by omega : ¬ (786432 ≤ v / 4096 ∧ v / 4096 < 787456)), if_pos rfl]
      exact mappingOf_absent rfl

/-- **The tables are laid out**, with the first map. -/
theorem Initialized.laid (hb : 0 < b) (hlimit : m.manager.maxBlocks ≤ blockLimit)
    (hbits : ∀ i, b ≤ i → i < b + 3 → bitAt m.manager.memoryMap i = true) :
    Laid m (4096 * (b + 2)) firstSpace := by
  refine ⟨hlimit, ⟨fun v hv hne => ?_, fun v hv w hw hregion hv0 hw0 => ?_⟩,
    ⟨?_, fun v hv hne => ?_⟩, fun v hv => h.translated hb hv⟩
  · rcases h.table hv hne with ⟨-, hframe⟩ | ⟨-, hframe⟩
    · omega
    · omega
  · rcases h.table hv hv0 with ⟨hv', hframe⟩ | ⟨hv', hframe⟩
    · rcases h.table hw hw0 with ⟨hw', hframe'⟩ | ⟨hw', hframe'⟩
      · omega
      · omega
    · rcases h.table hw hw0 with ⟨hw', hframe'⟩ | ⟨hw', hframe'⟩
      · omega
      · omega
  · rw [Nat.mul_div_cancel_left _ (by decide)]
    exact hbits _ (by omega) (by omega)
  · rcases h.table hv hne with ⟨-, hframe⟩ | ⟨-, hframe⟩
    · rw [hframe, Nat.mul_div_cancel_left _ (by decide)]
      exact hbits _ (by omega) (by omega)
    · rw [hframe, Nat.mul_div_cancel_left _ (by decide)]
      exact hbits _ (by omega) (by omega)

end

/-! ## 5. The frame buffer -/

/-- The tables for the first `i` pages of a frame buffer at `base`. -/
def tablesFor (base i : Nat) : Nat :=
  if i = 0 then 0 else (base % 4194304 + 4096 * (i - 1)) / 4194304 + 1

/-- The map when `i` pages of the frame buffer are mapped, and `t` tables were taken for them from
block `b + 5` on. -/
def framedSpace (b base t i page : Nat) : Option Mapping :=
  if b + 5 ≤ page ∧ page < b + 5 + t then some ⟨page, true, true⟩
  else if base / 4096 ≤ page ∧ page < base / 4096 + i then some ⟨page, true, true⟩
  else firstSpace page

/-- **A frame buffer that can be mapped** in `n` pages: behind the first four megabytes, and apart
from the kernel. -/
structure Mappable (base n : Nat) : Prop where
  aligned : base % 4096 = 0
  above : 4194304 ≤ base
  below : base + 4096 * n ≤ 4294967296
  apart : base + 4096 * n ≤ 3221225472 ∨ 3225419776 ≤ base

/-- **When `i` pages of the frame buffer are mapped**, `N` tables being needed for all of them. -/
structure Framed (b base N i : Nat) (m : Machine) : Prop where
  run : OpenRun m.manager (b + 5 + tablesFor base i) (N - tablesFor base i)
  laid : Laid m (4096 * (b + 2)) (framedSpace b base (tablesFor base i) i)
  low : ∀ v < 4194304, directoryEntry m.memory (4096 * (b + 2)) v = 4096 * (b + 1) ||| 7
  opened : ∀ v < 4294967296, base / 4194304 ≤ v / 4194304 →
    v / 4194304 < base / 4194304 + tablesFor base i →
      ∃ c, 0 < c ∧ c < b + 5 + tablesFor base i ∧
        directoryEntry m.memory (4096 * (b + 2)) v = 4096 * c ||| 7
  closed : ∀ v < 4294967296, base / 4194304 + tablesFor base i ≤ v / 4194304 → v / 4194304 ≠ 768 →
    directoryEntry m.memory (4096 * (b + 2)) v = 0
  zero : ∀ p, 4096 * (b + 5 + tablesFor base i) ≤ p → p < 4096 * (b + 5 + N) + 7 → m.memory p = 0

/-- A page for the user too. -/
theorem mappingOf_user (c page : Nat) :
    mappingOf (4096 * c ||| 7) (4096 * page ||| 7) = some ⟨page, true, true⟩ := by
  rw [mappingOf_flags (Nat.mul_mod_right _ _) (by decide) (by decide)
    (testBit_block c 7 (by decide)), testBit_block c 7 (by decide), testBit_block c 7 (by decide),
    Nat.mul_div_cancel_left _ (by decide)]
  rfl

/-- The tables for one page more: one more table, when the page is the first of its region. -/
theorem tablesFor_succ (base i : Nat) :
    tablesFor base (i + 1) = (base + 4096 * i) / 4194304 - base / 4194304 + 1 ∧
      (tablesFor base (i + 1) = tablesFor base i ∨
        tablesFor base (i + 1) = tablesFor base i + 1 ∧
          (base + 4096 * i) / 4194304 = base / 4194304 + tablesFor base i) := by
  unfold tablesFor
  rw [if_neg (Nat.succ_ne_zero i), Nat.add_sub_cancel]
  rcases Nat.eq_zero_or_pos i with rfl | hpos
  · rw [if_pos rfl]
    omega
  · rw [if_neg (by omega : i ≠ 0)]
    omega

theorem tablesFor_mono (base : Nat) {i n : Nat} (h : i < n) :
    tablesFor base (i + 1) ≤ tablesFor base n := by
  unfold tablesFor
  rw [if_neg (Nat.succ_ne_zero i), if_neg (by omega), Nat.add_sub_cancel]
  omega

/-- One page more in the map. -/
theorem framedSpace_page {b base t i : Nat} (habove : 4194304 ≤ base) (hlow : b + 5 + t ≤ 1024) :
    Function.update (framedSpace b base t i) (base / 4096 + i)
      (some ⟨base / 4096 + i, true, true⟩) = framedSpace b base t (i + 1) := by
  funext page
  unfold framedSpace
  by_cases hpage : page = base / 4096 + i
  · rw [hpage, Function.update_self, if_neg (by omega), if_pos (by omega)]
  · rw [Function.update_of_ne hpage]
    split
    · rfl
    · split
      · next hin => rw [if_pos (by omega)]
      · next hout => rw [if_neg (by omega)]

/-- One table more in the map. -/
theorem framedSpace_table (b base t i : Nat) :
    Function.update (framedSpace b base t i) (b + 5 + t) (some ⟨b + 5 + t, true, true⟩) =
      framedSpace b base (t + 1) i := by
  funext page
  unfold framedSpace
  by_cases hpage : page = b + 5 + t
  · rw [hpage, Function.update_self, if_pos (by omega)]
  · rw [Function.update_of_ne hpage]
    split
    · next hin => rw [if_pos (by omega)]
    · next hout => rw [if_neg (by omega : ¬ (b + 5 ≤ page ∧ page < b + 5 + (t + 1)))]

theorem block_ne_zero {b flags : Nat} (hb : 0 < b) : 4096 * b ||| flags ≠ 0 := by
  have hle : 4096 * b ≤ 4096 * b ||| flags := Nat.left_le_or
  omega

section

variable {b base n i : Nat} {m : Machine} (h : Framed b base (tablesFor base n) i m)
  (hmappable : Mappable base n) (hi : i < n) (hlow : b + 5 + tablesFor base n ≤ 1024)

include h hmappable hi hlow

/-- **A page in a region that has a table.** -/
theorem Framed.present (hsame : tablesFor base (i + 1) = tablesFor base i) :
    ∃ m', mapAddress mapFuel m (4096 * (b + 2)) (base + 4096 * i) (base + 4096 * i) 7 =
      some (true, m') ∧ Framed b base (tablesFor base n) (i + 1) m' := by
  have hbelow := hmappable.below
  have haligned := hmappable.aligned
  have hdir : IsDirectory (4096 * (b + 2)) := ⟨Nat.mul_mod_right _ _, by omega⟩
  obtain ⟨hcount, -⟩ := tablesFor_succ base i
  have hmono := tablesFor_mono base hi
  have hvirt : base + 4096 * i = 4096 * (base / 4096 + i) := by omega
  have hpage : (base + 4096 * i) / 4096 = base / 4096 + i := by omega
  have hlt : base + 4096 * i < 4294967296 := by omega
  obtain ⟨c, hc, hcrun, hentry⟩ := h.opened (base + 4096 * i) hlt (by omega) (by omega)
  have hne := hentry ▸ block_ne_zero hc
  obtain ⟨hlaid, honly⟩ := h.laid.setEntry hdir hlt hne hlt (by decide : 7 < 4294967296)
  rw [hentry, hpage, hvirt, mappingOf_user, framedSpace_page hmappable.above (by omega)] at hlaid
  rw [hvirt] at honly
  refine ⟨_, mapAddress_present hne, ?_⟩
  rw [hvirt]
  refine ⟨hsame ▸ h.run, hsame ▸ hlaid, fun v hv => ?_, fun v hv hge hlt' => ?_,
    fun v hv hge hkernel => ?_, fun p hp hp' => ?_⟩
  · rw [honly.directory v (by omega)]
    exact h.low v hv
  · rw [honly.directory v hv, hsame]
    exact h.opened v hv hge (hsame ▸ hlt')
  · rw [honly.directory v hv]
    exact h.closed v hv (hsame ▸ hge) hkernel
  · rw [hsame] at hp
    rw [honly.bytes p]
    · exact h.zero p hp hp'
    · rw [← hvirt, hentry, frameOf_block c (by decide)]
      omega

/-- **A page in a region that has no table yet.** -/
theorem Framed.absent (hb : 0 < b) (hmore : tablesFor base (i + 1) = tablesFor base i + 1)
    (hregion : (base + 4096 * i) / 4194304 = base / 4194304 + tablesFor base i) :
    ∃ m', mapAddress mapFuel m (4096 * (b + 2)) (base + 4096 * i) (base + 4096 * i) 7 =
      some (true, m') ∧ Framed b base (tablesFor base n) (i + 1) m' := by
  have hbelow := hmappable.below
  have haligned := hmappable.aligned
  have habove := hmappable.above
  have hapart := hmappable.apart
  have hdir : IsDirectory (4096 * (b + 2)) := ⟨Nat.mul_mod_right _ _, by omega⟩
  have hmono := tablesFor_mono base hi
  have hvirt : base + 4096 * i = 4096 * (base / 4096 + i) := by omega
  have hpage : (base + 4096 * i) / 4096 = base / 4096 + i := by omega
  have hlt : base + 4096 * i < 4294967296 := by omega
  have hnone := h.closed (base + 4096 * i) hlt (by omega) (by omega)
  -- the block that is taken
  have hrun := h.run
  rw [(by omega : tablesFor base n - tablesFor base i =
    tablesFor base n - tablesFor base (i + 1) + 1)] at hrun
  obtain ⟨hblock, hrun', -⟩ := hrun.take (Nat.le_refl 1)
  have hclean : Clean m.memory (4096 * (b + 2)) 7 (4096 * (b + 5 + tablesFor base i)) :=
    ⟨fun k hk => h.zero _ (by omega) (by omega), fun k hk => h.zero _ (by omega) (by omega),
      by omega⟩
  have hfirst := h.low (4096 * (b + 5 + tablesFor base i)) (by omega)
  have htable : directoryEntry m.memory (4096 * (b + 2)) (4096 * (b + 5 + tablesFor base i)) ≠ 0 :=
    hfirst ▸ block_ne_zero (Nat.succ_pos b)
  have hmapped := @Laid.tableMapped _ _ (base + 4096 * i) _ 7 _ h.laid hdir hlt hlt (by decide)
    hnone (by rw [hblock]; omega) (hblock.symm ▸ hclean) (hblock.symm ▸ htable) 1048575
  rw [hblock] at hmapped
  obtain ⟨m', hmap, htables⟩ := hmapped
  refine ⟨m', hmap, ?_⟩
  have hlaid := htables.laid
  rw [Nat.mul_div_cancel_left _ (by decide : 0 < 4096), hpage, hfirst, hvirt, mappingOf_user,
    mappingOf_user, framedSpace_table, framedSpace_page habove (by omega)] at hlaid
  have hdirectory := htables.directory
  refine ⟨?_, hmore.symm ▸ hlaid, fun v hv => ?_, fun v hv hge hlt' => ?_,
    fun v hv hge hkernel => ?_, fun p hp hp' => ?_⟩
  · rw [htables.manager, hmore]
    rw [hmore] at hrun'
    exact hrun'
  · rw [hdirectory v (by omega), if_neg (by omega)]
    exact h.low v hv
  · rw [hdirectory v hv]
    split
    · exact ⟨b + 5 + tablesFor base i, by omega, by omega, rfl⟩
    · next hother =>
      obtain ⟨c, hc, hcrun, hentry⟩ := h.opened v hv hge (by omega)
      exact ⟨c, hc, by omega, hentry⟩
  · rw [hdirectory v hv, if_neg (by omega)]
    exact h.closed v hv (by omega) hkernel
  · rw [hmore] at hp
    rw [htables.bytes p (by omega) (by omega) (by rw [hfirst, frameOf_block _ (by decide)]; omega)]
    exact h.zero p (by omega) hp'

/-- **The next page.** -/
theorem Framed.step (hb : 0 < b) :
    ∃ m', mapAddress mapFuel m (4096 * (b + 2)) (base + 4096 * i) (base + 4096 * i) 7 =
      some (true, m') ∧ Framed b base (tablesFor base n) (i + 1) m' := by
  obtain ⟨-, hsame | ⟨hmore, hregion⟩⟩ := tablesFor_succ base i
  · exact h.present hmappable hi hlow hsame
  · exact h.absent hmappable hi hlow hb hmore hregion

end

/-- **The loop** maps the pages that are left. -/
theorem Framed.loop {b base n : Nat} (hb : 0 < b) (hmappable : Mappable base n)
    (hlow : b + 5 + tablesFor base n ≤ 1024) : ∀ (k i : Nat) (m : Machine) (fbStart : Nat),
      i + k = n → (0 < k → fbStart = base + 4096 * i) → Framed b base (tablesFor base n) i m →
      ∃ m', mapFramebuffer (4096 * (b + 2)) k m fbStart = some m' ∧
        Framed b base (tablesFor base n) n m' := by
  intro k
  induction k with
  | zero =>
    rintro i m fbStart rfl - h
    exact ⟨m, rfl, h⟩
  | succ k ih =>
    intro i m fbStart hn hstart h
    obtain ⟨m₁, hmap, h₁⟩ := h.step hmappable (by omega) hlow hb
    have hbelow := hmappable.below
    obtain ⟨m', hrest, h'⟩ := ih (i + 1) m₁ (u32 (fbStart + pageSize)) (by omega)
      (fun hpos => by
        rw [hstart (Nat.succ_pos k), pageSize, u32_eq (by omega)]
        omega) h₁
    refine ⟨m', ?_, h'⟩
    rw [mapFramebuffer, hstart (Nat.succ_pos k), hmap]
    rw [hstart (Nat.succ_pos k)] at hrest
    exact hrest

/-! ## 6. The whole setup -/

/-- Before the first page of the frame buffer. -/
theorem Initialized.framed {memory₀ : Bytes} {b base n : Nat} {m : Machine}
    (h : Initialized memory₀ b m.memory) (hb : 0 < b)
    (hrun : OpenRun m.manager (b + 5) (tablesFor base n))
    (hbits : ∀ i, b ≤ i → i < b + 3 → bitAt m.manager.memoryMap i = true)
    (habove : 4194304 ≤ base)
    (hzero : ∀ p, 4096 * (b + 5) ≤ p → p < 4096 * (b + 5 + tablesFor base n) + 7 → memory₀ p = 0) :
    Framed b base (tablesFor base n) 0 m := by
  have hnone : tablesFor base 0 = 0 := rfl
  have hspace : framedSpace b base 0 0 = firstSpace := by
    funext page
    unfold framedSpace
    rw [if_neg (by omega), if_neg (by omega)]
  refine ⟨hrun, ?_, fun v hv => ?_, fun v hv hge hlt => ?_, fun v hv hge hkernel => ?_,
    fun p hp hp' => ?_⟩
  · rw [hnone, hspace]
    exact h.laid hb hrun.limit hbits
  · rw [h.directory v (by omega), if_pos (by omega)]
  · rw [hnone] at hlt
    exact absurd hlt (by omega)
  · rw [h.directory v hv, if_neg (by omega), if_neg hkernel]
  · rw [h.bytes p (Or.inr (by omega))]
    exact hzero p hp hp'

/-- More blocks in use. -/
theorem Laid.deinitialize {m : Machine} {dir : Nat} {space : Nat → Option Mapping}
    (h : Laid m dir space) (baseAddress size : Nat) :
    Laid ⟨m.memory, deinitializeMemoryRegion m.manager baseAddress size⟩ dir space := by
  have hgrows : ∀ i, bitAt m.manager.memoryMap i = true →
      bitAt (deinitializeMemoryRegion m.manager baseAddress size).memoryMap i = true := fun i hi => by
    rw [bitAt_deinitializeMemoryRegion, hi, Bool.true_or]
  exact ⟨(maxBlocks_deinitializeMemoryRegion ..).trans_le h.limit, h.distinct,
    ⟨hgrows _ h.inUse.directory, fun v hv hne => hgrows _ (h.inUse.table v hv hne)⟩, h.shows⟩

theorem unmapKernel_succ (m : Machine) (dir n : Nat) : unmapKernel m dir (n + 1) =
    unmapPage (unmapKernel m dir n) dir (kernelAddress + n * pageSize) := by
  rw [unmapKernel, List.range_succ, List.foldl_append]
  rfl

/-- **The kernel is taken out of the low half**, page by page. -/
theorem Laid.unmapKernel {m : Machine} {dir : Nat} {space : Nat → Option Mapping}
    (h : Laid m dir space) (hdir : IsDirectory dir)
    (hlow : ∀ v < 4194304, directoryEntry m.memory dir v ≠ 0) {n : Nat} (hn : n ≤ 768) :
    Laid (unmapKernel m dir n) dir
        (fun page => if 256 ≤ page ∧ page < 256 + n then none else space page) ∧
      ∀ v < 4194304, directoryEntry (Memory.unmapKernel m dir n).memory dir v ≠ 0 := by
  induction n with
  | zero =>
    have hnone : (fun page => if 256 ≤ page ∧ page < 256 + 0 then none else space page) = space := by
      funext page
      rw [if_neg (by omega)]
    rw [hnone]
    exact ⟨h, hlow⟩
  | succ n ih =>
    obtain ⟨hlaid, hlow'⟩ := ih (by omega)
    have hvirt : kernelAddress + n * pageSize < 4194304 := by
      unfold kernelAddress pageSize
      omega
    have hpage : (kernelAddress + n * pageSize) / 4096 = 256 + n := by
      unfold kernelAddress pageSize
      omega
    obtain ⟨hstep, honly⟩ := hlaid.unmapPage hdir (by omega) (hlow' _ hvirt)
    rw [← unmapKernel_succ, hpage] at hstep
    rw [← unmapKernel_succ] at honly
    refine ⟨?_, fun v hv => ?_⟩
    · have hspace : Function.update
          (fun page => if 256 ≤ page ∧ page < 256 + n then none else space page) (256 + n) none =
            fun page => if 256 ≤ page ∧ page < 256 + (n + 1) then none else space page := by
        funext page
        by_cases hnew : page = 256 + n
        · rw [hnew, Function.update_self, if_pos (by omega)]
        · rw [Function.update_of_ne hnew]
          by_cases hin : 256 ≤ page ∧ page < 256 + n
          · rw [if_pos hin, if_pos (by omega)]
          · rw [if_neg hin, if_neg (by omega)]
      rw [← hspace]
      exact hstep
    · rw [honly.directory v (by omega)]
      exact hlow' v hv

/-- **The map for the kernel**, with a frame buffer of `n` pages at `base` and its tables from block
`b + 5` on: the first megabyte without rights for the user but at three places, the kernel at
three gigabytes, and the frame buffer. -/
def kernelSpace (b base n page : Nat) : Option Mapping :=
  if page < 256 then
    some ⟨page, true, decide (page = 12 ∨ page = 13 ∨
      b + 5 ≤ page ∧ page < b + 5 + tablesFor base n)⟩
  else if 786432 ≤ page ∧ page < 787456 then some ⟨page - 786432 + 256, false, false⟩
  else if base / 4096 ≤ page ∧ page < base / 4096 + n then some ⟨page, true, true⟩
  else none

theorem kernelSpace_eq {b base n : Nat} (hmappable : Mappable base n)
    (hlow : b + 5 + tablesFor base n ≤ 1024) :
    (fun page => if 256 ≤ page ∧ page < 256 + 768 then none
      else framedSpace b base (tablesFor base n) n page) = kernelSpace b base n := by
  have haligned := hmappable.aligned
  have habove := hmappable.above
  have hapart := hmappable.apart
  funext page
  unfold kernelSpace framedSpace firstSpace
  rcases Nat.lt_or_ge page 256 with hfirst | hfirst
  · rw [if_neg (by omega), if_pos hfirst]
    split
    · next hin => rw [decide_eq_true (Or.inr (Or.inr hin))]
    · next hout =>
      rw [if_neg (by omega), if_pos (by omega)]
      congr 2
      exact decide_eq_decide.mpr (by omega)
  · rw [if_neg (by omega : ¬ page < 256)]
    rcases Nat.lt_or_ge page 1024 with hkernel | hkernel
    · rw [if_pos (by omega), if_neg (by omega), if_neg (by omega)]
    · rw [if_neg (by omega), if_neg (by omega), if_neg (by omega : ¬ page < 1024)]
      split
      · next hin => rw [if_neg (by omega)]
      · rfl

/-- The blocks that are exposed, apart from the frame buffer, are free when paging is set up. -/
theorem openRun_pagingManager {boot : Boot} {b n : Nat}
    (hexposed : ∀ k < n, Exposed boot (b + k)) (hused : ∀ i < b, ¬ Exposed boot i) (hb : 0 < b)
    (hbehind : b + n ≤ boot.physicalBasePointer / blockSize)
    (hwhole : b + n ≤ boot.maxBlocks / 32 * 32)
    (henough : n < sub32 boot.maxBlocks (pagingManager boot).usedBlocks) :
    OpenRun (pagingManager boot) b n := by
  have hmax : (pagingManager boot).maxBlocks = boot.maxBlocks := by
    unfold pagingManager
    simp only [maxBlocks_deinitializeMemoryRegion, maxBlocks_initializeEntries]
    rfl
  have hbit : ∀ i < b + n, bitAt (pagingManager boot).memoryMap i = false ↔ Exposed boot i := by
    intro i hi
    have hout : ¬ InRegion i boot.physicalBasePointer (u32 (fbSizeInPages boot * blockSize)) :=
      fun hin => absurd hin.1 (by omega)
    rw [← exposed_iff boot (by omega), memorySetup_eq, bitAt_deinitializeMemoryRegion,
      decide_eq_false hout, Bool.or_false]
  refine ⟨hb, fun i hi => ?_, fun k hk => (hbit _ (by omega)).mpr (hexposed k hk),
    hmax.symm ▸ hwhole, hmax.trans_le boot.maxBlocks_le, hmax.symm ▸ henough⟩
  rw [← Bool.not_eq_false, hbit i (by omega)]
  exact hused i hi

/-- Two megabytes, a font of nine blocks and a frame buffer of ten pages. -/
def smallBoot : Boot where
  entries := [⟨0, 0x200000, 1⟩]
  nonempty := List.cons_ne_nil _ _
  fontBlocks := 9
  yResolution := 4
  linearBytesPerScanline := 4096
  physicalBasePointer := 0xFD000000
  memory := fun _ => 0xFF
  kernelSize := 0x10000

theorem smallBoot_run : OpenRun (pagingManager smallBoot) 22 6 := by
  refine openRun_pagingManager (fun k hk => ⟨?_, Or.inl ?_, ?_⟩) (fun i hi hexposed => ?_)
    (by decide) (by decide) (by decide) (by decide +kernel)
  · have hmax : smallBoot.maxBlocks = 511 := by decide
    omega
  · refine ⟨_, List.mem_singleton_self _, rfl, ?_⟩
    have hregion : ∀ k < 6, InRegion (22 + k) (u32 0) (u32 0x200000) := by decide
    exact hregion k hk
  · have hout : ∀ k < 6, ¬ (InRegion (22 + k) 0 0x12000 ∨
        InRegion (22 + k) memmapArea (smallBoot.maxBlocks / blocksPerByte) ∨
        InRegion (22 + k) fontAddress (u32 (smallBoot.fontBlocks * blockSize)) ∨
        InRegion (22 + k) smallBoot.physicalBasePointer
          (u32 (fbSizeInPages smallBoot * blockSize))) := by decide
    exact hout k hk
  · have hin : ∀ i < 22, InRegion i 0 0x12000 ∨
        InRegion i fontAddress (u32 (smallBoot.fontBlocks * blockSize)) := by decide
    rcases hin i hi with h | h
    · exact hexposed.unreserved (Or.inl h)
    · exact hexposed.unreserved (Or.inr (Or.inr (Or.inl h)))

end AmateurOs.Memory
