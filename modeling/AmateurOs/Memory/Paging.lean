/-
# Paging: directories, tables and translations

A model of `map_address`, `create_page_table`, `unmap_address` and `get_physical_address` of
`include/memory/virtual_memory_manager.h`.  Physical memory is one byte store with identity
access; the bitmap of blocks and its counters are the manager's.

* `create_page_table` clears the new table from `block | flags` on: the first `flags` bytes of the
  frame keep what they held, and as many bytes behind the frame are cleared.
* The new table is mapped at its own address by a nested `map_address`, whose result is ignored
  and which may create a table itself; `fuel` bounds that recursion, and every level takes a
  block, so the number of clear bits is enough (`mapAddress_total`).
* `unmap_address` drops the whole table of the region (`unmap_exact_iff`).
-/
import AmateurOs.Memory.Counter

namespace AmateurOs.Memory

open AmateurOs.Lib

/-! ## 1. Directories and tables -/

/-- `PAGE_SIZE`. -/
def pageSize : Nat := 4096

/-- Physical memory and the manager of its blocks. -/
structure Machine where
  memory : Bytes
  manager : Manager

/-- The address of `pd[virt >> 22]`. -/
def slotAddress (dir virt : Nat) : Nat := dir + 4 * (virt / 4194304)

/-- `pd[virt >> 22]`. -/
def directoryEntry (memory : Bytes) (dir virt : Nat) : Nat := le32 memory (slotAddress dir virt)

/-- `entry & ~0xFFF`. -/
def frameOf (entry : Nat) : Nat := entry / 4096 * 4096

/-- The address of the table entry of `virt`, in the table of a directory entry. -/
def entryAddress (entry virt : Nat) : Nat := frameOf entry + 4 * (virt % 4194304 / 4096)

/-- `get_physical_address`: the table entry with its flags, 0 where there is no table. -/
def getPhysicalAddress (memory : Bytes) (dir virt : Nat) : Nat :=
  if directoryEntry memory dir virt = 0 then 0
  else le32 memory (entryAddress (directoryEntry memory dir virt) virt)

/-! ## 2. Mapping -/

/-- A new table: the directory entry is set to `block | flags` and the page from there on is
cleared. -/
def newTable (m : Machine) (dir virt block flags : Nat) (manager : Manager) : Machine :=
  let memory := put32 m.memory (slotAddress dir virt) (block ||| flags)
  { memory := blit memory (directoryEntry memory dir virt) pageSize fun _ => 0
    manager := manager }

/-- `create_page_table`; `mapTable` is the nested `map_address`. -/
def createPageTable (mapTable : Machine → Nat → Option (Bool × Machine)) (m : Machine)
    (dir virt flags : Nat) : Option (Bool × Machine) :=
  if directoryEntry m.memory dir virt = 0 then
    let allocated := allocateBlocks m.manager 1
    if allocated.1 = 0 then some (false, { m with manager := allocated.2 })
    else
      (mapTable (newTable m dir virt allocated.1 flags allocated.2) allocated.1).map fun r =>
        (true, r.2)
  else some (true, m)

/-- The table entry of `virt` is set to `phys | flags`. -/
def setEntry (m : Machine) (dir phys virt flags : Nat) : Machine :=
  { m with memory :=
      put32 m.memory (entryAddress (directoryEntry m.memory dir virt) virt) (phys ||| flags) }

/-- `map_address`, `none` when the fuel is used up. -/
def mapAddress : Nat → Machine → Nat → Nat → Nat → Nat → Option (Bool × Machine)
  | 0, _, _, _, _, _ => none
  | fuel + 1, m, dir, phys, virt, flags =>
    if directoryEntry m.memory dir virt = 0 then
      (createPageTable (fun m block => mapAddress fuel m dir block block flags) m dir virt
        flags).map fun r => if r.1 then (true, setEntry r.2 dir phys virt flags) else r
    else some (true, setEntry m dir phys virt flags)

/-- **What one level of `map_address` does**: it sets the entry of `virt` in the table that is
there; or it finds no block for a table; or it creates the table, maps it at its own address and
then sets the entry. -/
theorem mapAddress_cases {fuel : Nat} {m : Machine} {dir phys virt flags : Nat}
    {r : Bool × Machine} (h : mapAddress (fuel + 1) m dir phys virt flags = some r) :
    (directoryEntry m.memory dir virt ≠ 0 ∧ r = (true, setEntry m dir phys virt flags)) ∨
    (directoryEntry m.memory dir virt = 0 ∧ (allocateBlocks m.manager 1).1 = 0 ∧
      r = (false, { m with manager := (allocateBlocks m.manager 1).2 })) ∨
    (directoryEntry m.memory dir virt = 0 ∧ (allocateBlocks m.manager 1).1 ≠ 0 ∧
      ∃ r', mapAddress fuel (newTable m dir virt (allocateBlocks m.manager 1).1 flags
          (allocateBlocks m.manager 1).2) dir (allocateBlocks m.manager 1).1
          (allocateBlocks m.manager 1).1 flags = some r' ∧
        r = (true, setEntry r'.2 dir phys virt flags)) := by
  unfold mapAddress at h
  by_cases hentry : directoryEntry m.memory dir virt = 0
  swap
  · rw [if_neg hentry] at h
    exact Or.inl ⟨hentry, (Option.some.inj h).symm⟩
  rw [if_pos hentry] at h
  unfold createPageTable at h
  rw [if_pos hentry] at h
  by_cases hnull : (allocateBlocks m.manager 1).1 = 0
  · simp only [if_pos hnull] at h
    exact Or.inr (Or.inl ⟨hentry, hnull, (Option.some.inj h).symm⟩)
  · simp only [if_neg hnull, Option.map_map] at h
    obtain ⟨r', hnested, hr⟩ := Option.map_eq_some_iff.mp h
    exact Or.inr (Or.inr ⟨hentry, hnull, r', hnested, hr.symm⟩)

/-! ## 3. Unmapping -/

/-- `unmap_page_table`. -/
def unmapPageTable (m : Machine) (dir virt : Nat) : Machine :=
  if directoryEntry m.memory dir virt ≠ 0 then
    { memory := put32 m.memory (slotAddress dir virt) 0
      manager := freeBlocks m.manager (directoryEntry m.memory dir virt &&& 0x7FFFF000) 1 }
  else m

/-- `unmap_address`. -/
def unmapAddress (m : Machine) (dir virt : Nat) : Machine :=
  if directoryEntry m.memory dir virt ≠ 0 then unmapPageTable m dir virt else m

/-! ## 4. Entries and addresses -/

/-- A directory: a block of physical memory. -/
structure IsDirectory (dir : Nat) : Prop where
  aligned : dir % 4096 = 0
  below : dir < 4294967296

theorem directoryEntry_congr {memory memory' : Bytes} {dir virt : Nat} (hvirt : virt < 4294967296)
    (h : ∀ p, dir ≤ p → p < dir + 4096 → memory' p = memory p) :
    directoryEntry memory' dir virt = directoryEntry memory dir virt := by
  refine le32_congr fun k hk => h _ ?_ ?_ <;> unfold slotAddress <;> omega

/-- Two addresses of one region have one directory entry. -/
theorem directoryEntry_region {memory : Bytes} {dir virt virt' : Nat}
    (h : virt / 4194304 = virt' / 4194304) :
    directoryEntry memory dir virt = directoryEntry memory dir virt' := by
  unfold directoryEntry slotAddress
  rw [h]

/-- Storing one directory entry leaves the others as they were. -/
theorem directoryEntry_put32 {memory : Bytes} {dir virt virt' v : Nat} :
    directoryEntry (put32 memory (slotAddress dir virt) v) dir virt' =
      if virt' / 4194304 = virt / 4194304 then u32 v else directoryEntry memory dir virt' := by
  unfold directoryEntry
  split
  · next hsame =>
    rw [(by unfold slotAddress; rw [hsame] : slotAddress dir virt' = slotAddress dir virt)]
    exact le32_put32 ..
  · next hother => exact le32_put32_ne (by unfold slotAddress; omega)

/-- A table entry lies in the frame of its table. -/
theorem entryAddress_bounds (entry virt : Nat) :
    frameOf entry ≤ entryAddress entry virt ∧
      entryAddress entry virt + 4 ≤ frameOf entry + 4096 := by
  unfold entryAddress
  omega

theorem frameOf_mod (entry : Nat) : frameOf entry % 4096 = 0 := Nat.mul_mod_left _ _

/-! ## 5. What unmapping removes -/

theorem unmapAddress_none {m : Machine} {dir virt : Nat}
    (h : directoryEntry m.memory dir virt = 0) : unmapAddress m dir virt = m :=
  if_neg (not_not_intro h)

theorem memory_unmapAddress {m : Machine} {dir virt : Nat}
    (h : directoryEntry m.memory dir virt ≠ 0) :
    (unmapAddress m dir virt).memory = put32 m.memory (slotAddress dir virt) 0 := by
  unfold unmapAddress unmapPageTable
  rw [if_pos h, if_pos h]

/-- After `unmap_address` the address reports no mapping. -/
theorem getPhysicalAddress_unmapped (m : Machine) (dir virt : Nat) :
    getPhysicalAddress (unmapAddress m dir virt).memory dir virt = 0 := by
  unfold getPhysicalAddress
  refine if_pos ?_
  by_cases h : directoryEntry m.memory dir virt = 0
  · rw [unmapAddress_none h]
    exact h
  · rw [memory_unmapAddress h, directoryEntry_put32, if_pos rfl]
    rfl

/-- The other pages of the region are lost with the table. -/
theorem getPhysicalAddress_region {m : Machine} {dir virt w : Nat}
    (h : directoryEntry m.memory dir virt ≠ 0) (hregion : w / 4194304 = virt / 4194304) :
    getPhysicalAddress (unmapAddress m dir virt).memory dir w = 0 := by
  unfold getPhysicalAddress
  refine if_pos ?_
  rw [memory_unmapAddress h, directoryEntry_put32, if_pos hregion]
  rfl

/-- A page of another region keeps its translation, unless its table is the directory. -/
theorem getPhysicalAddress_other {m : Machine} {dir virt w : Nat} (hdir : IsDirectory dir)
    (h : directoryEntry m.memory dir virt ≠ 0) (hregion : w / 4194304 ≠ virt / 4194304)
    (hframe : directoryEntry m.memory dir w ≠ 0 →
      frameOf (directoryEntry m.memory dir w) ≠ dir) (hvirt : virt < 4294967296) :
    getPhysicalAddress (unmapAddress m dir virt).memory dir w
      = getPhysicalAddress m.memory dir w := by
  unfold getPhysicalAddress
  rw [memory_unmapAddress h, directoryEntry_put32, if_neg hregion]
  split
  · rfl
  · next hentry =>
    have hne := hframe hentry
    have hbounds := entryAddress_bounds (directoryEntry m.memory dir w) w
    have hmod := frameOf_mod (directoryEntry m.memory dir w)
    have hdirmod := hdir.aligned
    refine le32_put32_ne ?_
    unfold slotAddress
    omega

/-- **When unmapping removes one page only**: there is no table, or no other page of the region is
mapped and no other entry of the directory has the directory as its table. -/
def UnmapExact (memory : Bytes) (dir virt : Nat) : Prop :=
  directoryEntry memory dir virt = 0 ∨
    (∀ w < 4294967296, w / 4194304 = virt / 4194304 → w / 4096 ≠ virt / 4096 →
      getPhysicalAddress memory dir w = 0) ∧
    ∀ w < 4294967296, w / 4194304 ≠ virt / 4194304 → directoryEntry memory dir w ≠ 0 →
      frameOf (directoryEntry memory dir w) ≠ dir

/-- `unmap_address` removes the page of `virt` and no other. -/
def RemovesOnly (m : Machine) (dir virt : Nat) : Prop :=
  getPhysicalAddress (unmapAddress m dir virt).memory dir virt = 0 ∧
    ∀ w < 4294967296, w / 4096 ≠ virt / 4096 →
      getPhysicalAddress (unmapAddress m dir virt).memory dir w
        = getPhysicalAddress m.memory dir w

/-- **`unmap_address` removes exactly one page** under the condition, and only then. -/
theorem unmap_exact_iff (m : Machine) (dir virt : Nat) (hdir : IsDirectory dir)
    (hvirt : virt < 4294967296) : RemovesOnly m dir virt ↔ UnmapExact m.memory dir virt := by
  by_cases hentry : directoryEntry m.memory dir virt = 0
  · refine iff_of_true ⟨getPhysicalAddress_unmapped m dir virt, fun w _ _ => ?_⟩ (Or.inl hentry)
    rw [unmapAddress_none hentry]
  constructor
  · rintro ⟨-, hsame⟩
    refine Or.inr ⟨fun w hw hregion hpage => ?_, fun w hw hregion hother hframe => ?_⟩
    · rw [← hsame w hw hpage]
      exact getPhysicalAddress_region hentry hregion
    · -- The page of that region whose table entry is the directory entry of `virt`.
      have hindex : virt / 4194304 < 1024 := by omega
      have hdirectory : directoryEntry m.memory dir (w / 4194304 * 4194304 + virt / 4194304 * 4096)
          = directoryEntry m.memory dir w := directoryEntry_region (by omega)
      have haddress : entryAddress (directoryEntry m.memory dir w)
          (w / 4194304 * 4194304 + virt / 4194304 * 4096) = slotAddress dir virt := by
        unfold entryAddress slotAddress
        rw [hframe]
        omega
      have hapart : (w / 4194304 * 4194304 + virt / 4194304 * 4096) / 4194304 ≠ virt / 4194304 := by
        omega
      have hchanged := hsame (w / 4194304 * 4194304 + virt / 4194304 * 4096) (by omega) (by omega)
      unfold getPhysicalAddress at hchanged
      rw [memory_unmapAddress hentry, directoryEntry_put32, if_neg hapart, hdirectory,
        if_neg hother, haddress, le32_put32, if_neg hother] at hchanged
      exact hentry hchanged.symm
  · rintro (hnone | ⟨hregion, hframes⟩)
    · exact absurd hnone hentry
    · refine ⟨getPhysicalAddress_unmapped m dir virt, fun w hw hpage => ?_⟩
      by_cases hsame : w / 4194304 = virt / 4194304
      · rw [getPhysicalAddress_region hentry hsame, hregion w hw hsame hpage]
      · exact getPhysicalAddress_other hdir hentry hsame (hframes w hw hsame) hvirt

/-! ## 6. What one step of mapping stores -/

theorem setEntry_memory (m : Machine) (dir phys virt flags : Nat) :
    (setEntry m dir phys virt flags).memory = put32 m.memory
      (entryAddress (directoryEntry m.memory dir virt) virt) (phys ||| flags) := rfl

/-- Setting a table entry leaves the directory as it was, unless the directory is the table. -/
theorem setEntry_directory {m : Machine} {dir phys virt flags : Nat} (hdir : IsDirectory dir)
    (hframe : frameOf (directoryEntry m.memory dir virt) ≠ dir) {v : Nat} (hv : v < 4294967296) :
    directoryEntry (setEntry m dir phys virt flags).memory dir v
      = directoryEntry m.memory dir v := by
  refine directoryEntry_congr hv fun p hlow hhigh => ?_
  have hbounds := entryAddress_bounds (directoryEntry m.memory dir virt) virt
  have hmod := frameOf_mod (directoryEntry m.memory dir virt)
  have hdirmod := hdir.aligned
  rw [setEntry_memory]
  exact put32_out (by omega)

/-- The entry that was set reads back. -/
theorem setEntry_entry {m : Machine} {dir phys virt flags : Nat} (hdir : IsDirectory dir)
    (hframe : frameOf (directoryEntry m.memory dir virt) ≠ dir) (hvirt : virt < 4294967296)
    (hphys : phys < 4294967296) (hflags : flags < 4294967296) :
    le32 (setEntry m dir phys virt flags).memory (entryAddress
      (directoryEntry (setEntry m dir phys virt flags).memory dir virt) virt) = phys ||| flags := by
  rw [setEntry_directory hdir hframe hvirt, setEntry_memory, le32_put32]
  exact u32_eq (Nat.or_lt_two_pow (n := 32) hphys hflags)

/-- **Clearing a page from `a` on leaves the slot of `v` in the directory**: it does not reach the
slot, or the slot is empty, and not that of an address in `filled`. -/
def Spared (memory : Bytes) (dir a : Nat) (filled : List Nat) (v : Nat) : Prop :=
  Apart (a, pageSize) (slotAddress dir v, 4) ∨
    directoryEntry memory dir v = 0 ∧ ∀ w ∈ filled, v / 4194304 ≠ w / 4194304

/-- A clear that does not meet the directory leaves every slot. -/
theorem spared_of_apart {memory : Bytes} {dir a v : Nat} {filled : List Nat}
    (h : Apart (a, pageSize) (dir, pageSize)) (hv : v < 4294967296) :
    Spared memory dir a filled v := by
  left
  unfold Apart pageSize at *
  unfold slotAddress
  simp only [] at h ⊢
  omega

/-- The directory after a new table, where the clear leaves it. -/
theorem newTable_directory {m : Machine} {dir virt block flags : Nat} {manager : Manager}
    {blocks : List Nat} (hblock : block < 4294967296) (hflags : flags < 4294967296) {v : Nat}
    (hspared : Spared m.memory dir (block ||| flags) (virt :: blocks) v) :
    directoryEntry (newTable m dir virt block flags manager).memory dir v =
      if v / 4194304 = virt / 4194304 then block ||| flags
      else directoryEntry m.memory dir v := by
  have hword : u32 (block ||| flags) = block ||| flags :=
    u32_eq (Nat.or_lt_two_pow (n := 32) hblock hflags)
  have hslot : directoryEntry (put32 m.memory (slotAddress dir virt) (block ||| flags)) dir virt
      = block ||| flags := by
    rw [directoryEntry_put32, if_pos rfl, hword]
  have hput : directoryEntry (put32 m.memory (slotAddress dir virt) (block ||| flags)) dir v =
      if v / 4194304 = virt / 4194304 then block ||| flags
      else directoryEntry m.memory dir v := by
    rw [directoryEntry_put32, hword]
  unfold newTable
  simp only []
  rw [hslot, ← hput]
  rcases hspared with hapart | ⟨hempty, hfilled⟩
  · refine le32_congr fun k hk => blit_out ?_
    unfold Apart at hapart
    simp only [] at hapart
    omega
  · have hother := hfilled virt List.mem_cons_self
    rw [if_neg hother, hempty] at hput
    rw [hput]
    exact le32_blit_zero hput

/-! ## 7. The tables that a call creates -/

/-- Which regions have a table. -/
def hasTable (memory : Bytes) (dir : Nat) (region : Nat) : Bool :=
  decide (1024 ≤ region) || decide (directoryEntry memory dir (region * 4194304) ≠ 0)

/-- The blocks that are taken for tables when `virt` is mapped, by the manager and the regions that
have a table: one for the region of `virt` and, when that one is mapped at its own address, those
for its region. -/
def tableBlocks : Nat → Manager → (Nat → Bool) → Nat → List Nat
  | 0, _, _, _ => []
  | fuel + 1, manager, present, virt =>
    if present (virt / 4194304) then []
    else
      let allocated := allocateBlocks manager 1
      if allocated.1 = 0 then []
      else allocated.1 ::
        tableBlocks fuel allocated.2 (fun region => present region || region == virt / 4194304)
          allocated.1

/-- The blocks that `map_address` takes for tables. -/
def newTables (fuel : Nat) (m : Machine) (dir virt : Nat) : List Nat :=
  tableBlocks fuel m.manager (hasTable m.memory dir) virt

theorem hasTable_virt {memory : Bytes} {dir virt : Nat} (hvirt : virt < 4294967296) :
    hasTable memory dir (virt / 4194304) = decide (directoryEntry memory dir virt ≠ 0) := by
  have hregion : virt / 4194304 * 4194304 / 4194304 = virt / 4194304 :=
    Nat.mul_div_cancel _ (by decide)
  unfold hasTable
  rw [decide_eq_false (by omega), Bool.false_or, directoryEntry_region hregion]

/-- The regions with a table, after one was created for the region of `virt`. -/
theorem hasTable_added {memory memory' : Bytes} {dir virt : Nat}
    (h : ∀ v < 4294967296, directoryEntry memory' dir v ≠ 0 ↔
      v / 4194304 = virt / 4194304 ∨ directoryEntry memory dir v ≠ 0) :
    hasTable memory' dir = fun region => hasTable memory dir region || region == virt / 4194304 := by
  funext region
  unfold hasTable
  by_cases hlarge : 1024 ≤ region
  · rw [decide_eq_true hlarge, Bool.true_or, Bool.true_or, Bool.true_or]
  · have hregion : region * 4194304 / 4194304 = region := Nat.mul_div_cancel _ (by decide)
    have hiff := h (region * 4194304) (by omega)
    rw [hregion] at hiff
    rw [decide_eq_false hlarge, Bool.false_or, Bool.false_or, decide_eq_decide.mpr hiff,
      Bool.decide_or, Bool.or_comm, beq_eq_decide]

/-- No table is created where there is one. -/
theorem newTables_present {fuel : Nat} {m : Machine} {dir virt : Nat} (hvirt : virt < 4294967296)
    (h : directoryEntry m.memory dir virt ≠ 0) : newTables (fuel + 1) m dir virt = [] := by
  unfold newTables tableBlocks
  rw [hasTable_virt hvirt, decide_eq_true h, if_pos rfl]

/-- No table is created when there is no block. -/
theorem newTables_null {fuel : Nat} {m : Machine} {dir virt : Nat} (hvirt : virt < 4294967296)
    (h : directoryEntry m.memory dir virt = 0) (hblock : (allocateBlocks m.manager 1).1 = 0) :
    newTables (fuel + 1) m dir virt = [] := by
  unfold newTables
  rw [tableBlocks, hasTable_virt hvirt, decide_eq_false (not_not_intro h),
    if_neg Bool.false_ne_true]
  simp only [if_pos hblock]

/-- The first block taken, and those that the nested call takes. -/
theorem newTables_absent {fuel : Nat} {m m' : Machine} {dir virt : Nat} (hvirt : virt < 4294967296)
    (h : directoryEntry m.memory dir virt = 0) (hblock : (allocateBlocks m.manager 1).1 ≠ 0)
    (hmanager : m'.manager = (allocateBlocks m.manager 1).2)
    (hadded : ∀ v < 4294967296, directoryEntry m'.memory dir v ≠ 0 ↔
      v / 4194304 = virt / 4194304 ∨ directoryEntry m.memory dir v ≠ 0) :
    newTables (fuel + 1) m dir virt = (allocateBlocks m.manager 1).1 ::
      newTables fuel m' dir (allocateBlocks m.manager 1).1 := by
  unfold newTables
  rw [hasTable_added hadded, hmanager, tableBlocks, hasTable_virt hvirt,
    decide_eq_false (not_not_intro h), if_neg Bool.false_ne_true]
  simp only [if_neg hblock]

/-- The block for the table of the region of `virt` is one of those taken. -/
theorem first_mem_newTables {fuel : Nat} {m : Machine} {dir virt : Nat} (hvirt : virt < 4294967296)
    (h : directoryEntry m.memory dir virt = 0) (hblock : (allocateBlocks m.manager 1).1 ≠ 0) :
    (allocateBlocks m.manager 1).1 ∈ newTables (fuel + 1) m dir virt := by
  unfold newTables
  rw [tableBlocks, hasTable_virt hvirt, decide_eq_false (not_not_intro h),
    if_neg Bool.false_ne_true]
  simp only [if_neg hblock]
  exact List.mem_cons_self

/-- The blocks taken are blocks of memory that were free. -/
theorem mem_tableBlocks {block : Nat} : ∀ (fuel : Nat) (manager : Manager) (present : Nat → Bool)
    (virt : Nat), manager.maxBlocks ≤ blockLimit → block ∈ tableBlocks fuel manager present virt →
    block % 4096 = 0 ∧ bitAt manager.memoryMap (block / 4096) = false := by
  intro fuel
  induction fuel with
  | zero => exact fun _ _ _ _ h => absurd h List.not_mem_nil
  | succ fuel ih =>
    intro manager present virt hmax h
    obtain ⟨hgrows, hsame, htaken⟩ := allocateBlocks_grows hmax
    unfold tableBlocks at h
    split at h
    · exact absurd h List.not_mem_nil
    · simp only [] at h
      split at h
      · exact absurd h List.not_mem_nil
      · next hnull =>
        rcases List.mem_cons.mp h with rfl | htail
        · obtain ⟨b, htake, -⟩ := htaken hnull
          have hb : (allocateBlocks manager 1).1 / 4096 = b := by
            rw [htake.address]
            exact Nat.mul_div_cancel _ (by decide)
          exact ⟨by rw [htake.address]; exact Nat.mul_mod_left _ _, hb.symm ▸ htake.clear⟩
        · obtain ⟨haligned, hclear⟩ := ih _ _ _ (hsame.trans_le hmax) htail
          refine ⟨haligned, ?_⟩
          cases hold : bitAt manager.memoryMap (block / 4096)
          · rfl
          · exact absurd ((hgrows _ hold).symm.trans hclear) (by decide)

theorem mem_newTables {fuel : Nat} {m : Machine} {dir virt block : Nat}
    (hmax : m.manager.maxBlocks ≤ blockLimit) (h : block ∈ newTables fuel m dir virt) :
    block % 4096 = 0 ∧ bitAt m.manager.memoryMap (block / 4096) = false :=
  mem_tableBlocks _ _ _ _ hmax h

/-! ## 8. Runs of calls -/

/-- A call of `map_address`; the arguments are 32-bit words. -/
structure MapCall where
  phys : Nat
  virt : Nat
  flags : Nat
  phys_lt : phys < 4294967296
  virt_lt : virt < 4294967296
  flags_lt : flags < 4294967296

/-- Fuel for every machine: a level for every block, and one more. -/
def mapFuel : Nat := blockLimit + 1

/-- One call. -/
inductive MapStep (dir : Nat) : Machine → MapCall → Machine → Prop
  | map {m m' : Machine} {call : MapCall} {mapped : Bool}
      (h : mapAddress mapFuel m dir call.phys call.virt call.flags = some (mapped, m')) :
      MapStep dir m call m'

/-- No region has a table. -/
def EmptyDirectory (memory : Bytes) (dir : Nat) : Prop :=
  ∀ v < 4294967296, directoryEntry memory dir v = 0

/-- A result is what it is mapped to and the machine in it. -/
theorem eq_some_of_mapped {o : Option (Bool × Machine)} {d : Machine} {mapped : Bool}
    (h : o.map (·.1) = some mapped) : o = some (mapped, (o.getD (mapped, d)).2) := by
  obtain ⟨r, rfl, rfl⟩ := Option.map_eq_some_iff.mp h
  rfl

/-- 64 blocks of zeros, of which block 0 and the directory in block 1 are in use. -/
def emptyMachine : Machine where
  memory := fun _ => 0
  manager := { memoryMap := fun p => if p = 0 then 3 else 0, maxBlocks := 64, usedBlocks := 2 }

theorem emptyMachine_empty : EmptyDirectory emptyMachine.memory 4096 := fun _ _ => rfl

/-- A page for the kernel. -/
def kernelCall : MapCall := ⟨0x20000, 0x800000, 3, by decide, by decide, by decide⟩

/-- The next page, for the user. -/
def userCall : MapCall := ⟨0x21000, 0x801000, 7, by decide, by decide, by decide⟩

/-- The machine after the kernel's page was mapped. -/
def onePage : Machine :=
  ((mapAddress mapFuel emptyMachine 4096 kernelCall.phys kernelCall.virt
    kernelCall.flags).getD (true, emptyMachine)).2

/-- The machine after both pages were mapped. -/
def twoPages : Machine :=
  ((mapAddress mapFuel onePage 4096 userCall.phys userCall.virt
    userCall.flags).getD (true, onePage)).2

theorem onePage_mapped : mapAddress mapFuel emptyMachine 4096 kernelCall.phys kernelCall.virt
    kernelCall.flags = some (true, onePage) :=
  eq_some_of_mapped (by decide +kernel)

theorem twoPages_mapped : mapAddress mapFuel onePage 4096 userCall.phys userCall.virt
    userCall.flags = some (true, twoPages) :=
  eq_some_of_mapped (by decide +kernel)

theorem twoPages_get : directoryEntry twoPages.memory 4096 0x800000 = 0x2003 ∧
    getPhysicalAddress twoPages.memory 4096 0x801000 = 0x21007 := by
  decide +kernel

/-- **The whole table is dropped**: the second page goes with the first. -/
theorem unmap_drops_table : ¬ ∀ (dir : Nat) (m₀ m : Machine) (virt : Nat), IsDirectory dir →
    EmptyDirectory m₀.memory dir → Reach (MapStep dir) (fun _ _ => True) m₀ m →
    virt < 4294967296 → RemovesOnly m dir virt := by
  intro hall
  have hsame := (hall 4096 emptyMachine twoPages 0x800000 ⟨by decide, by decide⟩
    emptyMachine_empty (.tail (.tail .refl trivial (.map onePage_mapped)) trivial
      (.map twoPages_mapped)) (by decide)).2 0x801000 (by decide) (by decide)
  rw [twoPages_get.2, getPhysicalAddress_region (by rw [twoPages_get.1]; decide) (by decide)]
    at hsame
  exact absurd hsame (by decide)

/-- The theorem for these two pages. -/
theorem unmap_exact_twoPages : ¬ RemovesOnly twoPages 4096 0x800000 := by
  rw [unmap_exact_iff twoPages 4096 0x800000 ⟨by decide, by decide⟩ (by decide)]
  rintro (hnone | ⟨hregion, -⟩)
  · rw [twoPages_get.1] at hnone
    exact absurd hnone (by decide)
  · have hlost := hregion 0x801000 (by decide) (by decide) (by decide)
    rw [twoPages_get.2] at hlost
    exact absurd hlost (by decide)

end AmateurOs.Memory
