/-
# `map_page` and `unmap_page`

The functions of `memory/virtual_memory_manager.h` that set one page of the current directory.
`SET_FRAME` clears the bits `0x7FFFF000` of an entry and sets those of the address;
`PAGE_PHYS_ADDRESS` reads the bits `0xFFFFF000`.  Bit 31 is read and never cleared.

So an entry that had a frame above 2 GiB keeps that bit: `sets_frame_iff` says when both functions
leave the frame they are given.  A table that `map_page` allocates is cleared, and its entries have
no such bit.
-/
import AmateurOs.Memory.Paging

namespace AmateurOs.Memory

open AmateurOs.Lib

/-! ## 1. Entries -/

/-- `SET_FRAME`. -/
def setFrame (entry address : Nat) : Nat := (entry &&& (0xFFFFFFFF ^^^ 0x7FFFF000)) ||| address

/-- `SET_ATTRIBUTE`. -/
def setAttribute (entry attr : Nat) : Nat := entry ||| attr

/-- `CLEAR_ATTRIBUTE`. -/
def clearAttribute (entry attr : Nat) : Nat := entry &&& (0xFFFFFFFF ^^^ attr)

/-- `PTE_PRESENT` and `PDE_PRESENT`. -/
def present : Nat := 1

/-- `PTE_READ_WRITE` and `PDE_READ_WRITE`. -/
def readWrite : Nat := 2

/-- The bits that `SET_FRAME` keeps. -/
theorem frame_mask : (0xFFFFFFFF ^^^ 0x7FFFF000 : Nat) = 2 ^ 31 ||| (2 ^ 12 - 1) := by decide

theorem testBit_setFrame (entry address i : Nat) : (setFrame entry address).testBit i =
    (entry.testBit i && (decide (i = 31) || decide (i < 12)) || address.testBit i) := by
  unfold setFrame
  rw [Nat.testBit_or, Nat.testBit_and, frame_mask, Nat.testBit_or, Nat.testBit_two_pow,
    Nat.testBit_two_pow_sub_one, decide_eq_decide.mpr (@eq_comm _ 31 i)]

theorem testBit_frameOf (entry i : Nat) :
    (frameOf entry).testBit i = (decide (12 ≤ i) && entry.testBit i) := by
  have hframe : frameOf entry = entry / 2 ^ 12 * 2 ^ 12 := rfl
  rw [hframe, Nat.testBit_mul_two_pow, Nat.testBit_div_two_pow]
  by_cases hi : 12 ≤ i
  · rw [Nat.sub_add_cancel hi]
  · rw [decide_eq_false hi, Bool.false_and, Bool.false_and]

/-- A page-aligned address has no low bits. -/
theorem testBit_aligned {address i : Nat} (h : address % 4096 = 0) (hi : i < 12) :
    address.testBit i = false := by
  have hmod : address % 2 ^ 12 = 0 := h
  have hbit := Nat.testBit_mod_two_pow address 12 i
  rw [hmod, Nat.zero_testBit, decide_eq_true hi, Bool.true_and] at hbit
  exact hbit.symm

theorem testBit_high {n : Nat} (h : n < 4294967296) : n.testBit 31 = decide (2147483648 ≤ n) := by
  rw [Nat.testBit_eq_decide_div_mod_eq]
  exact decide_eq_decide.mpr (by omega)

/-- **The frame of an entry that was set** is the address, but for bit 31. -/
theorem frame_setFrame_iff {entry address : Nat} (haligned : address % 4096 = 0) :
    frameOf (setFrame entry address) = address ↔
      entry.testBit 31 = false ∨ address.testBit 31 = true := by
  constructor
  · intro hframe
    have hbit := testBit_frameOf (setFrame entry address) 31
    rw [hframe, testBit_setFrame] at hbit
    cases hentry : entry.testBit 31
    · exact Or.inl rfl
    · rw [hentry] at hbit
      exact Or.inr hbit
  · intro hbit
    refine Nat.eq_of_testBit_eq fun i => ?_
    rw [testBit_frameOf, testBit_setFrame]
    by_cases hi : 12 ≤ i
    · rw [decide_eq_true hi, decide_eq_false (Nat.not_lt.mpr hi), Bool.true_and, Bool.or_false]
      by_cases hhigh : i = 31
      · rw [hhigh]
        rcases hbit with hentry | haddress
        · rw [hentry, Bool.false_and, Bool.false_or]
        · rw [haddress, Bool.or_true]
      · rw [decide_eq_false hhigh, Bool.and_false, Bool.false_or]
    · rw [decide_eq_false hi, Bool.false_and, testBit_aligned haligned (Nat.not_le.mp hi)]

/-- The other case: bit 31 of the entry is added to the address. -/
theorem frame_setFrame_high {entry address : Nat} (haligned : address % 4096 = 0)
    (hentry : entry.testBit 31 = true) : frameOf (setFrame entry address) = address ||| 2147483648 := by
  have hpow : (2147483648 : Nat) = 2 ^ 31 := rfl
  refine Nat.eq_of_testBit_eq fun i => ?_
  rw [testBit_frameOf, testBit_setFrame, Nat.testBit_or, hpow, Nat.testBit_two_pow]
  by_cases hhigh : i = 31
  · rw [hhigh, hentry]
    simp
  · rw [decide_eq_false hhigh, decide_eq_false (fun heq : 31 = i => hhigh heq.symm),
      Bool.or_false, Bool.false_or]
    by_cases hi : 12 ≤ i
    · rw [decide_eq_true hi, decide_eq_false (Nat.not_lt.mpr hi), Bool.and_false, Bool.false_or,
        Bool.true_and]
    · rw [decide_eq_false hi, Bool.false_and, testBit_aligned haligned (Nat.not_le.mp hi)]

theorem setFrame_lt {entry address : Nat} (h : address < 4294967296) :
    setFrame entry address < 4294967296 :=
  Nat.or_lt_two_pow (n := 32) (Nat.lt_of_le_of_lt Nat.and_le_right (by decide)) h

theorem clearAttribute_lt {entry attr : Nat} (h : entry < 4294967296) :
    clearAttribute entry attr < 4294967296 := Nat.lt_of_le_of_lt Nat.and_le_left h

/-- The low bit can be set and cleared without a change of the frame. -/
theorem frameOf_setFrame_present (entry address : Nat) :
    frameOf (setFrame (setAttribute entry present) address) = frameOf (setFrame entry address) := by
  refine Nat.eq_of_testBit_eq fun i => ?_
  unfold setAttribute present
  rw [testBit_frameOf, testBit_frameOf, testBit_setFrame, testBit_setFrame, Nat.testBit_or]
  by_cases hi : 12 ≤ i
  · have hone : (1 : Nat).testBit i = false := Nat.testBit_lt_two_pow
      (Nat.lt_of_lt_of_le (by decide) (Nat.pow_le_pow_right (Nat.succ_pos 1) hi))
    rw [hone, Bool.or_false]
  · rw [decide_eq_false hi, Bool.false_and, Bool.false_and]

theorem frameOf_clearAttribute_present {entry : Nat} (h : entry < 4294967296) :
    frameOf (clearAttribute entry present) = frameOf entry := by
  refine Nat.eq_of_testBit_eq fun i => ?_
  have hmask : (0xFFFFFFFF ^^^ 1 : Nat) = (2 ^ 32 - 1) ^^^ 2 ^ 0 := by decide
  unfold clearAttribute present
  rw [testBit_frameOf, testBit_frameOf, Nat.testBit_and, hmask, Nat.testBit_xor,
    Nat.testBit_two_pow_sub_one, Nat.testBit_two_pow]
  by_cases hi : 12 ≤ i
  · rw [decide_eq_false (by omega : ¬ 0 = i), Bool.xor_false]
    by_cases hi' : i < 32
    · rw [decide_eq_true hi', Bool.and_true]
    · rw [Nat.testBit_lt_two_pow (Nat.lt_of_lt_of_le h
        (Nat.pow_le_pow_right (Nat.succ_pos 1) (Nat.not_lt.mp hi'))), Bool.false_and]
  · rw [decide_eq_false hi, Bool.false_and, Bool.false_and]

/-! ## 2. The functions -/

/-- `get_page`: the address of the entry of a page. -/
def getPage (memory : Bytes) (dir virt : Nat) : Nat :=
  entryAddress (directoryEntry memory dir virt) virt

/-- `*get_page(virt)`. -/
def pageEntry (memory : Bytes) (dir virt : Nat) : Nat := le32 memory (getPage memory dir virt)

/-- `(*entry & PDE_PRESENT) == PDE_PRESENT`. -/
def hasPresent (entry : Nat) : Bool := entry.testBit 0

/-- A directory entry after its table was mapped in. -/
def tableEntry (entry table : Nat) : Nat :=
  setFrame (setAttribute (setAttribute entry present) readWrite) table

/-- The part of `map_page` that allocates a table when there is none: whether there is one then, and
the machine left. -/
def openTable (m : Machine) (dir virt : Nat) : Bool × Machine :=
  if hasPresent (directoryEntry m.memory dir virt) then (true, m)
  else
    let (table, manager) := allocateBlocks m.manager 1
    if table = 0 then (false, { m with manager := manager })
    else
      let memory := blit m.memory table pageSize fun _ => 0
      let entry := tableEntry (directoryEntry memory dir virt) table
      (true, ⟨put32 memory (slotAddress dir virt) entry, manager⟩)

/-- A page that is set, in a table that exists. -/
def setPage (m : Machine) (dir phys virt : Nat) : Machine :=
  let page := getPage m.memory dir virt
  { m with memory :=
      put32 m.memory page (setFrame (setAttribute (le32 m.memory page) present) phys) }

/-- `map_page`. -/
def mapPage (m : Machine) (dir phys virt : Nat) : Bool × Machine :=
  let opened := openTable m dir virt
  if opened.1 then (true, setPage opened.2 dir phys virt) else opened

/-- `unmap_page`. -/
def unmapPage (m : Machine) (dir virt : Nat) : Machine :=
  let page := getPage m.memory dir virt
  { m with memory :=
      put32 m.memory page (clearAttribute (setFrame (le32 m.memory page) 0) present) }

/-! ## 3. Directories with tables of their own -/

/-- The frame that a directory entry names after `openTable`. -/
def openedFrame (m : Machine) (dir virt : Nat) : Nat :=
  frameOf (directoryEntry (openTable m dir virt).2.memory dir virt)

/-- A frame that neither is the directory nor holds the table of another region. -/
def Own (memory : Bytes) (dir virt frame : Nat) : Prop :=
  frame ≠ dir ∧ ∀ w < 4294967296, w / 4194304 ≠ virt / 4194304 →
    hasPresent (directoryEntry memory dir w) = true → frameOf (directoryEntry memory dir w) ≠ frame

/-- **Tables are pages of their own**: what an entry names, before and after it was given a table, is
neither the directory nor the table of another region; blocks in use are marked. -/
structure OwnTables (m : Machine) (dir : Nat) : Prop where
  directory : IsDirectory dir
  blocks : m.manager.maxBlocks ≤ blockLimit
  named : ∀ v < 4294967296, Own m.memory dir v (frameOf (directoryEntry m.memory dir v))
  opened : ∀ v < 4294967296, Own m.memory dir v (openedFrame m dir v)
  marked : bitAt m.manager.memoryMap (dir / 4096) = true ∧ ∀ v < 4294967296,
    hasPresent (directoryEntry m.memory dir v) = true →
      bitAt m.manager.memoryMap (frameOf (directoryEntry m.memory dir v) / 4096) = true

/-- The pages with an entry in the tables of `memory`, but the one of `virt`, have the same entry
in `memory'`. -/
def OthersKept (memory memory' : Bytes) (dir virt : Nat) : Prop :=
  ∀ w < 4294967296, w / 4096 ≠ virt / 4096 → hasPresent (directoryEntry memory dir w) = true →
    pageEntry memory' dir w = pageEntry memory dir w

/-- **What `map_page` is for**: it returns false, or the page is present with the frame. -/
structure MapsPage (m : Machine) (dir phys virt : Nat) : Prop where
  present : (mapPage m dir phys virt).1 = true →
    hasPresent (pageEntry (mapPage m dir phys virt).2.memory dir virt) = true
  frame : (mapPage m dir phys virt).1 = true →
    frameOf (pageEntry (mapPage m dir phys virt).2.memory dir virt) = phys
  others : OthersKept m.memory (mapPage m dir phys virt).2.memory dir virt

/-- **What `unmap_page` is for**: the page is not present and has no frame. -/
structure UnmapsPage (m : Machine) (dir virt : Nat) : Prop where
  absent : hasPresent (pageEntry (unmapPage m dir virt).memory dir virt) = false
  frame : frameOf (pageEntry (unmapPage m dir virt).memory dir virt) = 0
  others : OthersKept m.memory (unmapPage m dir virt).memory dir virt

/-- **An entry with bit 31**, where `map_page` finds one: in the table of the page; or, when there is
no table, where a directory entry with bit 31 makes the new one seem to be. -/
def StaleHighBit (m : Machine) (dir virt : Nat) : Prop :=
  let entry := directoryEntry m.memory dir virt
  let table := (allocateBlocks m.manager 1).1
  if hasPresent entry then (pageEntry m.memory dir virt).testBit 31 = true
  else table ≠ 0 ∧ entry.testBit 31 = true ∧ table.testBit 31 = false ∧
    (le32 m.memory (entryAddress (table ||| 2147483648) virt)).testBit 31 = true

/-! ## 4. One entry stored -/

/-- **An entry that is stored** in a table of its own. -/
theorem store_entry {memory : Bytes} {dir virt v : Nat} (hdir : IsDirectory dir)
    (hvirt : virt < 4294967296) (hv : v < 4294967296)
    (hown : Own memory dir virt (frameOf (directoryEntry memory dir virt))) :
    pageEntry (put32 memory (getPage memory dir virt) v) dir virt = v ∧
      OthersKept memory (put32 memory (getPage memory dir virt) v) dir virt := by
  have hbounds := entryAddress_bounds (directoryEntry memory dir virt) virt
  have hmod := frameOf_mod (directoryEntry memory dir virt)
  have hdirmod := hdir.aligned
  have hframe := hown.1
  have hsame : ∀ w < 4294967296, directoryEntry (put32 memory (getPage memory dir virt) v) dir w =
      directoryEntry memory dir w := fun w hw =>
    directoryEntry_congr hw fun p hlow hhigh => put32_out (by unfold getPage; omega)
  have hpage : ∀ w < 4294967296, getPage (put32 memory (getPage memory dir virt) v) dir w =
      getPage memory dir w := fun w hw => by
    unfold getPage at hsame ⊢
    rw [hsame w hw]
  refine ⟨?_, fun w hw hne hpresent => ?_⟩
  · unfold pageEntry
    rw [hpage virt hvirt, le32_put32, u32_eq hv]
  · unfold pageEntry
    rw [hpage w hw]
    refine le32_put32_ne ?_
    by_cases hregion : w / 4194304 = virt / 4194304
    · unfold getPage entryAddress
      rw [directoryEntry_region hregion]
      omega
    · have hother := hown.2 w hw hregion hpresent
      have hbounds' := entryAddress_bounds (directoryEntry memory dir w) w
      have hmod' := frameOf_mod (directoryEntry memory dir w)
      unfold getPage
      omega

/-! ## 5. The table -/

/-- A free block is not the directory. -/
theorem OwnTables.notFree {m : Machine} {dir b : Nat} (h : OwnTables m dir)
    (hclear : bitAt m.manager.memoryMap b = false) : dir ≠ b * 4096 := by
  rintro rfl
  have hbit := h.marked.1
  rw [Nat.mul_div_cancel _ (by decide), hclear] at hbit
  cases hbit

section

variable {m : Machine} {dir virt : Nat} (h : OwnTables m dir) (hvirt : virt < 4294967296)

include h hvirt

/-- **What is allocated for a table**: a block that is not in use. -/
theorem OwnTables.openTable_cases :
    hasPresent (directoryEntry m.memory dir virt) = true ∧ openTable m dir virt = (true, m) ∨
    hasPresent (directoryEntry m.memory dir virt) = false ∧
      ((allocateBlocks m.manager 1).1 = 0 ∧ (openTable m dir virt).1 = false ∧
          (openTable m dir virt).2.memory = m.memory ∨
        ∃ b, (allocateBlocks m.manager 1).1 = b * 4096 ∧ 0 < b ∧
          bitAt m.manager.memoryMap b = false ∧ (openTable m dir virt).1 = true ∧
          (openTable m dir virt).2.memory = put32 (blit m.memory (b * 4096) pageSize fun _ => 0)
            (slotAddress dir virt) (tableEntry (directoryEntry m.memory dir virt) (b * 4096))) := by
  unfold openTable
  cases hhas : hasPresent (directoryEntry m.memory dir virt)
  · refine Or.inr ⟨rfl, ?_⟩
    simp only [Bool.false_eq_true, if_false]
    by_cases hblock : (allocateBlocks m.manager 1).1 = 0
    · rw [if_pos hblock]
      exact Or.inl ⟨hblock, rfl, rfl⟩
    · obtain ⟨b, htaken, hpos⟩ := (allocateBlocks_grows h.blocks).2.2 hblock
      have haddress : (allocateBlocks m.manager 1).1 = b * 4096 := htaken.address
      have hdir := h.notFree htaken.clear
      have hdirmod := h.directory.aligned
      have hentry : directoryEntry (blit m.memory (b * 4096) pageSize fun _ => 0) dir virt =
          directoryEntry m.memory dir virt := by
        refine directoryEntry_congr hvirt fun p hlow hhigh => blit_out ?_
        unfold pageSize
        omega
      rw [if_neg hblock, haddress, hentry]
      exact Or.inr ⟨b, rfl, hpos, htaken.clear, rfl, rfl⟩
  · exact Or.inl ⟨rfl, rfl⟩

/-- The entries of the other regions stay. -/
theorem OwnTables.openTable_directory {w : Nat} (hw : w < 4294967296)
    (hregion : w / 4194304 ≠ virt / 4194304) :
    directoryEntry (openTable m dir virt).2.memory dir w = directoryEntry m.memory dir w := by
  rcases h.openTable_cases hvirt with ⟨-, hsame⟩ | ⟨-, ⟨-, -, hsame⟩ | ⟨b, -, -, hclear, -, hmemory⟩⟩
  · rw [hsame]
  · rw [hsame]
  · have hdir := h.notFree hclear
    have hdirmod := h.directory.aligned
    rw [hmemory, directoryEntry_put32, if_neg hregion]
    refine directoryEntry_congr hw fun p hlow hhigh => blit_out ?_
    unfold pageSize
    omega

/-- **The table that is created** changes no entry of another one. -/
theorem OwnTables.openTable_others {w : Nat} (hw : w < 4294967296)
    (hpresent : hasPresent (directoryEntry m.memory dir w) = true) :
    directoryEntry (openTable m dir virt).2.memory dir w = directoryEntry m.memory dir w ∧
      pageEntry (openTable m dir virt).2.memory dir w = pageEntry m.memory dir w := by
  have hdirectory := @OwnTables.openTable_directory m dir virt h hvirt w hw
  rcases h.openTable_cases hvirt with
    ⟨-, hsame⟩ | ⟨hhas, ⟨-, -, hsame⟩ | ⟨b, -, -, hclear, -, hmemory⟩⟩
  · rw [hsame]
    exact ⟨rfl, rfl⟩
  · rw [hsame]
    exact ⟨rfl, rfl⟩
  · have hregion : w / 4194304 ≠ virt / 4194304 := fun heq => by
      rw [directoryEntry_region heq, hhas] at hpresent
      cases hpresent
    have hframe : frameOf (directoryEntry m.memory dir w) ≠ b * 4096 := by
      intro heq
      have hbit := h.marked.2 w hw hpresent
      rw [heq, Nat.mul_div_cancel _ (by decide), hclear] at hbit
      cases hbit
    have hapart := (h.named w hw).1
    have hdirmod := h.directory.aligned
    have hframemod := frameOf_mod (directoryEntry m.memory dir w)
    have hbounds := entryAddress_bounds (directoryEntry m.memory dir w) w
    refine ⟨hdirectory hregion, ?_⟩
    unfold pageEntry getPage
    rw [hdirectory hregion, hmemory]
    refine le32_congr fun k hk => ?_
    rw [put32_out (by unfold slotAddress; omega)]
    refine blit_out ?_
    unfold pageSize
    omega

/-- The frame that is named then is one of its own still. -/
theorem OwnTables.openTable_own : Own (openTable m dir virt).2.memory dir virt
    (frameOf (directoryEntry (openTable m dir virt).2.memory dir virt)) := by
  refine ⟨(h.opened virt hvirt).1, fun w hw hregion hpresent => ?_⟩
  rw [h.openTable_directory hvirt hw hregion] at hpresent ⊢
  exact (h.opened virt hvirt).2 w hw hregion hpresent

/-- **The entry that `map_page` finds** has bit 31 when the state before says so. -/
theorem OwnTables.stale_iff : StaleHighBit m dir virt ↔ (openTable m dir virt).1 = true ∧
    (pageEntry (openTable m dir virt).2.memory dir virt).testBit 31 = true := by
  have hopened := (h.opened virt hvirt).1
  unfold StaleHighBit openedFrame at *
  simp only
  rcases h.openTable_cases hvirt with
    ⟨hhas, hsame⟩ | ⟨hhas, ⟨hnull, hfalse, -⟩ | ⟨b, haddress, hpos, hclear, htrue, hmemory⟩⟩
  · rw [hhas, hsame, if_pos rfl]
    exact (and_iff_right rfl).symm
  · rw [hhas, hfalse, if_neg Bool.false_ne_true]
    exact iff_of_false (fun hstale => hstale.1 hnull) fun hand => Bool.false_ne_true hand.1
  · have haligned : b * 4096 % 4096 = 0 := Nat.mul_mod_left _ _
    have hdir := h.notFree hclear
    have hdirmod := h.directory.aligned
    have hlt : b * 4096 < 4294967296 := by
      obtain ⟨b', htaken, -⟩ := (allocateBlocks_grows h.blocks).2.2 (by rw [haddress]; omega)
      have hblocks := h.blocks
      have hbelow := htaken.below
      have haddress' : (allocateBlocks m.manager 1).1 = b' * 4096 := htaken.address
      unfold blockLimit at hblocks
      omega
    have hentry : directoryEntry (openTable m dir virt).2.memory dir virt =
        tableEntry (directoryEntry m.memory dir virt) (b * 4096) := by
      rw [hmemory, directoryEntry_put32, if_pos rfl]
      exact u32_eq (setFrame_lt hlt)
    have hbit : (setAttribute (setAttribute (directoryEntry m.memory dir virt) present)
        readWrite).testBit 31 = (directoryEntry m.memory dir virt).testBit 31 := by
      unfold setAttribute present readWrite
      rw [Nat.testBit_or, Nat.testBit_or]
      have hlow : (1 : Nat).testBit 31 = false ∧ (2 : Nat).testBit 31 = false := by decide
      rw [hlow.1, hlow.2, Bool.or_false, Bool.or_false]
    rw [hentry] at hopened
    rw [hhas, if_neg Bool.false_ne_true, haddress, and_iff_right (by omega : b * 4096 ≠ 0), htrue,
      and_iff_right rfl]
    unfold pageEntry getPage
    rw [hentry]
    have hbounds := entryAddress_bounds (tableEntry (directoryEntry m.memory dir virt) (b * 4096)) virt
    by_cases hhigh : (directoryEntry m.memory dir virt).testBit 31 = true ∧
        (b * 4096).testBit 31 = false
    · -- the page entry lies in memory that was not cleared
      have hframe : frameOf (tableEntry (directoryEntry m.memory dir virt) (b * 4096)) =
          b * 4096 ||| 2147483648 := frame_setFrame_high haligned (hbit.trans hhigh.1)
      have hapart : frameOf (tableEntry (directoryEntry m.memory dir virt) (b * 4096)) ≠ b * 4096 := by
        intro heq
        rcases (frame_setFrame_iff haligned).mp heq with hnot | hset
        · rw [hbit, hhigh.1] at hnot
          cases hnot
        · rw [hhigh.2] at hset
          cases hset
      have hmod := frameOf_mod (tableEntry (directoryEntry m.memory dir virt) (b * 4096))
      have haddr : entryAddress (tableEntry (directoryEntry m.memory dir virt) (b * 4096)) virt =
          entryAddress (b * 4096 ||| 2147483648) virt := by
        have hself : frameOf (b * 4096 ||| 2147483648) = b * 4096 ||| 2147483648 := by
          rw [← hframe]
          unfold frameOf
          omega
        unfold entryAddress
        rw [hframe, hself]
      have hread : le32 (openTable m dir virt).2.memory
          (entryAddress (tableEntry (directoryEntry m.memory dir virt) (b * 4096)) virt) =
            le32 m.memory (entryAddress (b * 4096 ||| 2147483648) virt) := by
        rw [← haddr, hmemory]
        refine le32_congr fun k hk => ?_
        rw [put32_out (by unfold slotAddress; omega)]
        refine blit_out ?_
        unfold pageSize
        omega
      rw [hread]
      exact ⟨fun hstale => hstale.2.2, fun hset => ⟨hhigh.1, hhigh.2, hset⟩⟩
    · -- the page entry lies in the new table
      have hframe : frameOf (tableEntry (directoryEntry m.memory dir virt) (b * 4096)) = b * 4096 := by
        refine (frame_setFrame_iff haligned).mpr ?_
        rw [hbit]
        rcases not_and_or.mp hhigh with hnot | hset
        · exact Or.inl (Bool.not_eq_true _ ▸ hnot)
        · exact Or.inr (Bool.not_eq_false _ ▸ hset)
      have hzero : le32 (openTable m dir virt).2.memory
          (entryAddress (tableEntry (directoryEntry m.memory dir virt) (b * 4096)) virt) =
            le32 (fun _ => 0) 0 := by
        rw [hmemory]
        refine le32_congr fun k hk => ?_
        rw [put32_out (by unfold slotAddress; omega), blit_in (by omega) (by unfold pageSize; omega)]
      rw [hzero]
      refine iff_of_false (fun hstale => hhigh ⟨hstale.1, hstale.2.1⟩) ?_
      decide

/-! ## 6. When the frame is set -/

/-- **`map_page`** leaves the frame it is given, unless bit 31 stays. -/
theorem OwnTables.mapsPage_iff {phys : Nat} (haligned : phys % 4096 = 0)
    (hphys : phys < 4294967296) :
    MapsPage m dir phys virt ↔ (StaleHighBit m dir virt → 2147483648 ≤ phys) := by
  have hothers := fun w hw => @OwnTables.openTable_others m dir virt h hvirt w hw
  have hown := h.openTable_own hvirt
  rw [h.stale_iff hvirt]
  cases hopen : (openTable m dir virt).1
  · -- no block for a table
    have hmap : mapPage m dir phys virt = openTable m dir virt := by
      unfold mapPage
      simp only [hopen, Bool.false_eq_true, if_false]
    refine iff_of_true ⟨?_, ?_, fun w hw _ hpresent => ?_⟩ fun hand => absurd hand.1 (by decide)
    · rw [hmap, hopen]
      exact fun hfalse => absurd hfalse (by decide)
    · rw [hmap, hopen]
      exact fun hfalse => absurd hfalse (by decide)
    · rw [hmap]
      exact (hothers w hw hpresent).2
  · have hmap : mapPage m dir phys virt = (true, setPage (openTable m dir virt).2 dir phys virt) := by
      unfold mapPage
      simp only [hopen, if_true]
    rw [and_iff_right rfl]
    generalize (openTable m dir virt).2 = m' at hothers hown hmap ⊢
    obtain ⟨hentry, hkept⟩ := store_entry h.directory hvirt
      (@setFrame_lt (setAttribute (pageEntry m'.memory dir virt) present) phys hphys) hown
    have hstored : pageEntry (setPage m' dir phys virt).memory dir virt =
        setFrame (setAttribute (pageEntry m'.memory dir virt) present) phys := hentry
    have hframe : frameOf (pageEntry (setPage m' dir phys virt).memory dir virt) = phys ↔
        ((pageEntry m'.memory dir virt).testBit 31 = true → 2147483648 ≤ phys) := by
      rw [hstored, frameOf_setFrame_present, frame_setFrame_iff haligned, testBit_high hphys,
        decide_eq_true_iff, ← Bool.not_eq_true, imp_iff_not_or]
    constructor
    · rintro ⟨-, hset, -⟩
      rw [hmap] at hset
      exact hframe.mp (hset rfl)
    · intro hbit
      refine ⟨fun _ => ?_, fun _ => ?_, fun w hw hne hpresent => ?_⟩
      · rw [hmap, hstored]
        unfold hasPresent setAttribute present
        rw [testBit_setFrame, Nat.testBit_or]
        simp
      · rw [hmap]
        exact hframe.mpr hbit
      · rw [hmap, ← (hothers w hw hpresent).2]
        refine hkept w hw hne ?_
        rw [(hothers w hw hpresent).1]
        exact hpresent

/-- **`unmap_page`** leaves no frame, unless bit 31 stays. -/
theorem OwnTables.unmapsPage_iff :
    UnmapsPage m dir virt ↔ (pageEntry m.memory dir virt).testBit 31 = false := by
  have hlt : setFrame (pageEntry m.memory dir virt) 0 < 4294967296 := setFrame_lt (by decide)
  obtain ⟨hentry, hkept⟩ := store_entry h.directory hvirt
    (@clearAttribute_lt _ present hlt) (h.named virt hvirt)
  have hstored : pageEntry (unmapPage m dir virt).memory dir virt =
      clearAttribute (setFrame (pageEntry m.memory dir virt) 0) present := hentry
  have hframe : frameOf (pageEntry (unmapPage m dir virt).memory dir virt) = 0 ↔
      (pageEntry m.memory dir virt).testBit 31 = false := by
    rw [hstored, frameOf_clearAttribute_present hlt, frame_setFrame_iff (by decide),
      Nat.zero_testBit]
    exact or_iff_left Bool.false_ne_true
  refine ⟨fun hunmaps => hframe.mp hunmaps.frame, fun hbit => ⟨?_, hframe.mpr hbit, hkept⟩⟩
  rw [hstored]
  unfold hasPresent clearAttribute present
  rw [Nat.testBit_and]
  exact Bool.and_false _

end

/-- **Both functions set the frame** exactly when bit 31 of the entry is clear before; for `map_page`
also when it is set in the new frame. -/
theorem sets_frame_iff (m : Machine) (dir phys virt : Nat) (h : OwnTables m dir)
    (haligned : phys % 4096 = 0) (hphys : phys < 4294967296) (hvirt : virt < 4294967296) :
    (MapsPage m dir phys virt ↔ (StaleHighBit m dir virt → 2147483648 ≤ phys)) ∧
      (UnmapsPage m dir virt ↔ (pageEntry m.memory dir virt).testBit 31 = false) :=
  ⟨h.mapsPage_iff hvirt haligned hphys, h.unmapsPage_iff hvirt⟩

/-! ## 7. A page of the frame buffer -/

/-- A directory in block 1 with one table, in block 2, which maps page 1 to the frame buffer. -/
def framebufferPage : Machine where
  memory := put32 (put32 (fun _ => 0) 4096 0x2003) 0x2004 0xFD000003
  manager := { memoryMap := fun p => if p = 0 then 7 else 0, maxBlocks := 64, usedBlocks := 3 }

theorem framebufferPage_entry {v : Nat} (hv : v < 4294967296) :
    directoryEntry framebufferPage.memory 4096 v = if v / 4194304 = 0 then 0x2003 else 0 := by
  have hapart : directoryEntry framebufferPage.memory 4096 v =
      directoryEntry (put32 (fun _ => 0) (slotAddress 4096 0) 0x2003) 4096 v :=
    directoryEntry_congr hv fun p hlow hhigh => put32_out (by omega)
  rw [hapart, directoryEntry_put32]
  rfl

theorem framebufferPage_block : (allocateBlocks framebufferPage.manager 1).1 = 3 * 4096 := by
  decide +kernel

theorem framebufferPage_opened {v : Nat} (hv : v < 4294967296) :
    openedFrame framebufferPage 4096 v = if v / 4194304 = 0 then 0x2000 else 0x3000 := by
  have hentry := framebufferPage_entry hv
  unfold openedFrame openTable
  by_cases hregion : v / 4194304 = 0
  · rw [if_pos hregion] at hentry
    rw [hentry, if_pos (by decide), if_pos hregion, hentry]
    rfl
  · rw [if_neg hregion] at hentry
    have hcleared : directoryEntry (blit framebufferPage.memory (3 * 4096) pageSize fun _ => 0)
        4096 v = 0 := by
      rw [← hentry]
      refine directoryEntry_congr hv fun p hlow hhigh => blit_out ?_
      unfold pageSize
      omega
    rw [hentry, if_neg (by decide), if_neg hregion]
    simp only [framebufferPage_block]
    rw [if_neg (by decide), hcleared, directoryEntry_put32, if_pos rfl]
    decide

theorem framebufferPage_tables : OwnTables framebufferPage 4096 := by
  have hpresent : ∀ w < 4294967296, hasPresent (directoryEntry framebufferPage.memory 4096 w) =
      true → w / 4194304 = 0 ∧ frameOf (directoryEntry framebufferPage.memory 4096 w) = 0x2000 := by
    intro w hw hset
    rw [framebufferPage_entry hw] at hset ⊢
    split at hset
    · next hregion =>
      rw [if_pos hregion]
      exact ⟨hregion, rfl⟩
    · cases hset
  refine ⟨⟨by decide, by decide⟩, by decide, fun v hv => ?_, fun v hv => ?_, by decide,
    fun v hv hset => ?_⟩
  · rw [framebufferPage_entry hv]
    refine ⟨by split <;> decide, fun w hw hne hset => ?_⟩
    obtain ⟨hregion, hframe⟩ := hpresent w hw hset
    rw [hframe, if_neg fun heq => hne (hregion.trans heq.symm)]
    decide
  · rw [framebufferPage_opened hv]
    refine ⟨by split <;> decide, fun w hw hne hset => ?_⟩
    obtain ⟨hregion, hframe⟩ := hpresent w hw hset
    rw [hframe, if_neg fun heq => hne (hregion.trans heq.symm)]
    decide
  · rw [(hpresent v hv hset).2]
    decide

/-- **The frame is not the one given**: a page of low memory that is mapped in place of a page of the
frame buffer gets a frame above 2 GiB. -/
theorem frame_not_set : ¬ ∀ (m : Machine) (dir phys virt : Nat), OwnTables m dir →
    phys % 4096 = 0 → phys < 4294967296 → virt < 4294967296 →
      MapsPage m dir phys virt ∧ UnmapsPage m dir virt := by
  intro hall
  have hunmaps := (hall framebufferPage 4096 0x5000 0x1000 framebufferPage_tables (by decide)
    (by decide) (by decide)).2.frame
  have hstays : frameOf (pageEntry (unmapPage framebufferPage 4096 0x1000).memory 4096 0x1000) =
      0x80000000 := by decide +kernel
  rw [hstays] at hunmaps
  cases hunmaps

/-- The theorem for another page of the table, which has no frame yet. -/
theorem sets_frame_low : MapsPage framebufferPage 4096 0x5000 0x2000 ∧
    UnmapsPage framebufferPage 4096 0x2000 := by
  have hpage : pageEntry framebufferPage.memory 4096 0x2000 = 0 := by decide +kernel
  obtain ⟨hmaps, hunmaps⟩ := sets_frame_iff framebufferPage 4096 0x5000 0x2000
    framebufferPage_tables (by decide) (by decide) (by decide)
  refine ⟨hmaps.mpr fun hstale => ?_, hunmaps.mpr (by rw [hpage]; decide)⟩
  unfold StaleHighBit at hstale
  simp only at hstale
  rw [framebufferPage_entry (by decide), if_pos (by decide), hpage] at hstale
  cases hstale

end AmateurOs.Memory
