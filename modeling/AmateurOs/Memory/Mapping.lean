/-
# Mapping adds exactly one translation

What `map_address` does to the translations of a directory whose tables are distinct frames in
use: the page of `virt` and the pages of the new tables' own frames get an entry, and no other
translation changes (`mapping_adds_one`).  The argument follows the nested call: a new table of
zeros changes no translation (`translation_newTable`), setting an entry changes that of one page
(`translation_setEntry`), and every level composes the two.

The table is cleared from `block | flags` on.  So its frame keeps its first `flags` bytes, which
become entries, and the first `flags` bytes behind it are lost; `Clean` says that these bytes are
zero already and that the directory does not lie there.  `stale_entry` is a call with a frame whose
first byte is not zero.
-/
import AmateurOs.Memory.Access

namespace AmateurOs.Memory

open AmateurOs.Lib

/-! ## 1. Every call returns -/

/-- **The recursion ends**: every level takes a block, so it is no deeper than there are clear
bits. -/
theorem mapAddress_returns (dir flags : Nat) : ∀ (fuel : Nat) (m : Machine) (phys virt : Nat),
    m.manager.maxBlocks ≤ blockLimit →
    m.manager.maxBlocks - countSet m.manager.maxBlocks (bitAt m.manager.memoryMap) < fuel →
    ∃ r, mapAddress fuel m dir phys virt flags = some r := by
  intro fuel
  induction fuel with
  | zero => exact fun _ _ _ _ h => absurd h (Nat.not_lt_zero _)
  | succ fuel ih =>
    intro m phys virt hmax hfuel
    unfold mapAddress
    by_cases hentry : directoryEntry m.memory dir virt = 0
    swap
    · exact ⟨_, if_neg hentry⟩
    rw [if_pos hentry]
    unfold createPageTable
    rw [if_pos hentry]
    by_cases hnull : (allocateBlocks m.manager 1).1 = 0
    · simp only [if_pos hnull]
      exact ⟨_, rfl⟩
    · obtain ⟨-, hsame, htaken⟩ := allocateBlocks_grows hmax
      obtain ⟨b, htake, -⟩ := htaken hnull
      have hbelow := Nat.lt_of_lt_of_le htake.below (Nat.div_mul_le_self _ _)
      have hcount := countSet_set hbelow htake.clear htake.bits
      have hle : countSet m.manager.maxBlocks (bitAt (allocateBlocks m.manager 1).2.memoryMap)
          ≤ m.manager.maxBlocks := countSet_le
      obtain ⟨r, hr⟩ := ih (newTable m dir virt (allocateBlocks m.manager 1).1 flags
        (allocateBlocks m.manager 1).2) (allocateBlocks m.manager 1).1
        (allocateBlocks m.manager 1).1 (hsame.trans_le hmax) (by
          show (allocateBlocks m.manager 1).2.maxBlocks
            - countSet (allocateBlocks m.manager 1).2.maxBlocks _ < fuel
          rw [hsame]
          show m.manager.maxBlocks
            - countSet m.manager.maxBlocks (bitAt (allocateBlocks m.manager 1).2.memoryMap) < fuel
          omega)
      simp only [if_neg hnull, hr]
      exact ⟨_, rfl⟩

/-! ## 2. Tables -/

/-- The tables of a directory are distinct frames, none of them the directory. -/
structure DistinctTables (memory : Bytes) (dir : Nat) : Prop where
  apart : TablesApart memory dir
  distinct : ∀ v < 4294967296, ∀ w < 4294967296, v / 4194304 ≠ w / 4194304 →
    directoryEntry memory dir v ≠ 0 → directoryEntry memory dir w ≠ 0 →
    frameOf (directoryEntry memory dir v) ≠ frameOf (directoryEntry memory dir w)

/-- The blocks of the directory and of its tables are in use. -/
structure TablesInUse (m : Machine) (dir : Nat) : Prop where
  directory : bitAt m.manager.memoryMap (dir / 4096) = true
  table : ∀ v < 4294967296, directoryEntry m.memory dir v ≠ 0 →
    bitAt m.manager.memoryMap (frameOf (directoryEntry m.memory dir v) / 4096) = true

/-- An address is in the directory, or in the frame of one of its tables. -/
def InTables (memory : Bytes) (dir p : Nat) : Prop :=
  p / 4096 = dir / 4096 ∨ ∃ v < 4294967296, directoryEntry memory dir v ≠ 0 ∧
    p / 4096 = frameOf (directoryEntry memory dir v) / 4096

/-- A frame is that of a table. -/
def IsTable (memory : Bytes) (dir block : Nat) : Prop :=
  ∃ v < 4294967296, directoryEntry memory dir v ≠ 0 ∧
    frameOf (directoryEntry memory dir v) = block

/-- Tables that stay in the directory stay tables. -/
theorem IsTable.kept {memory memory' : Bytes} {dir block : Nat} (h : IsTable memory dir block)
    (hkept : ∀ v < 4294967296, directoryEntry memory dir v ≠ 0 →
      directoryEntry memory' dir v = directoryEntry memory dir v) : IsTable memory' dir block := by
  obtain ⟨v, hv, hentry, hframe⟩ := h
  exact ⟨v, hv, (hkept v hv hentry).symm ▸ hentry, (hkept v hv hentry).symm ▸ hframe⟩

/-- **The bytes that the clear of a new table misses, and those that it hits behind the frame**,
are zero, and the directory is not behind the frame. -/
structure Clean (memory : Bytes) (dir flags block : Nat) : Prop where
  missed : ∀ k < flags, memory (block + k) = 0
  behind : ∀ k < flags, memory (block + 4096 + k) = 0
  apart : dir ≠ block + 4096

/-- The sum of an address of a block and flags. -/
theorem or_flags {block flags : Nat} (hblock : block % 4096 = 0) (hflags : flags < 4096) :
    block ||| flags = block + flags := by
  have h := Nat.two_pow_add_eq_or_of_lt (i := 12) hflags (block / 4096)
  rw [(by omega : 2 ^ 12 * (block / 4096) = block)] at h
  exact h.symm

theorem frameOf_or_flags {block flags : Nat} (hblock : block % 4096 = 0) (hflags : flags < 4096) :
    frameOf (block ||| flags) = block := by
  rw [or_flags hblock hflags]
  unfold frameOf
  omega

/-- The translation of an address only depends on its table, where there is one. -/
theorem getPhysicalAddress_congr {memory memory' : Bytes} {dir w : Nat}
    (hentry : directoryEntry memory' dir w = directoryEntry memory dir w)
    (h : directoryEntry memory dir w ≠ 0 → ∀ p,
      p / 4096 = frameOf (directoryEntry memory dir w) / 4096 → memory' p = memory p) :
    getPhysicalAddress memory' dir w = getPhysicalAddress memory dir w := by
  unfold getPhysicalAddress
  rw [hentry]
  split
  · rfl
  · next hne =>
    refine le32_congr fun k hk => h hne _ ?_
    have hbounds := entryAddress_bounds (directoryEntry memory dir w) w
    have hmod := frameOf_mod (directoryEntry memory dir w)
    omega

/-! ## 3. Setting an entry -/

/-- **Setting an entry changes the translation of one page.** -/
theorem translation_setEntry {m : Machine} {dir phys virt flags : Nat} (hdir : IsDirectory dir)
    (htables : DistinctTables m.memory dir) (hentry : directoryEntry m.memory dir virt ≠ 0)
    (hvirt : virt < 4294967296) {w : Nat} (hw : w < 4294967296) (hpage : w / 4096 ≠ virt / 4096) :
    getPhysicalAddress (setEntry m dir phys virt flags).memory dir w
      = getPhysicalAddress m.memory dir w := by
  have hdirectory := @setEntry_directory m dir phys virt flags hdir (htables.apart virt hvirt hentry)
    w hw
  unfold getPhysicalAddress
  rw [hdirectory]
  split
  · rfl
  · next hne =>
    rw [setEntry_memory]
    refine le32_put32_ne ?_
    by_cases hregion : w / 4194304 = virt / 4194304
    · rw [directoryEntry_region hregion]
      unfold entryAddress
      omega
    · have hframes := htables.distinct w hw virt hvirt hregion hne hentry
      have hbounds := entryAddress_bounds (directoryEntry m.memory dir w) w
      have hbounds' := entryAddress_bounds (directoryEntry m.memory dir virt) virt
      have hmod := frameOf_mod (directoryEntry m.memory dir w)
      have hmod' := frameOf_mod (directoryEntry m.memory dir virt)
      omega

/-- The entry that was set is the translation of its page. -/
theorem translation_setEntry_self {m : Machine} {dir phys virt flags : Nat} (hdir : IsDirectory dir)
    (htables : DistinctTables m.memory dir) (hentry : directoryEntry m.memory dir virt ≠ 0)
    (hvirt : virt < 4294967296) (hphys : phys < 4294967296) (hflags : flags < 4294967296) :
    getPhysicalAddress (setEntry m dir phys virt flags).memory dir virt = phys ||| flags := by
  have hframe := htables.apart virt hvirt hentry
  unfold getPhysicalAddress
  rw [if_neg ((setEntry_directory hdir hframe hvirt).symm ▸ hentry)]
  exact setEntry_entry hdir hframe hvirt hphys hflags

/-- Setting an entry leaves the bytes outside its table as they were. -/
theorem memory_setEntry {m : Machine} {dir phys virt flags p : Nat}
    (h : p / 4096 ≠ frameOf (directoryEntry m.memory dir virt) / 4096) :
    (setEntry m dir phys virt flags).memory p = m.memory p := by
  have hbounds := entryAddress_bounds (directoryEntry m.memory dir virt) virt
  have hmod := frameOf_mod (directoryEntry m.memory dir virt)
  rw [setEntry_memory]
  exact put32_out (by omega)

theorem tables_setEntry {m : Machine} {dir phys virt flags : Nat} (hdir : IsDirectory dir)
    (htables : DistinctTables m.memory dir) (hinUse : TablesInUse m dir)
    (hentry : directoryEntry m.memory dir virt ≠ 0) (hvirt : virt < 4294967296) :
    DistinctTables (setEntry m dir phys virt flags).memory dir ∧
      TablesInUse (setEntry m dir phys virt flags) dir := by
  have hsame := fun v (hv : v < 4294967296) =>
    @setEntry_directory m dir phys virt flags hdir (htables.apart virt hvirt hentry) v hv
  refine ⟨⟨fun v hv => ?_, fun v hv w hw => ?_⟩, hinUse.directory, fun v hv => ?_⟩
  · rw [hsame v hv]
    exact htables.apart v hv
  · rw [hsame v hv, hsame w hw]
    exact htables.distinct v hv w hw
  · rw [hsame v hv]
    exact hinUse.table v hv

/-! ## 4. A new table -/

/-- A block that was free is taken for a table whose bytes are clean. -/
structure CleanTable (m : Machine) (dir virt block flags : Nat) (m' : Machine) : Prop where
  added : TableAdded m dir virt block flags m'
  aligned : block % 4096 = 0
  free : bitAt m.manager.memoryMap (block / 4096) = false
  taken : bitAt m'.manager.memoryMap (block / 4096) = true
  grows : ∀ i, bitAt m.manager.memoryMap i = true → bitAt m'.manager.memoryMap i = true
  zero : ∀ p, p / 4096 = block / 4096 → m'.memory p = 0
  same : ∀ p, p / 4096 ≠ dir / 4096 → p / 4096 ≠ block / 4096 → m'.memory p = m.memory p

/-- **`create_page_table` with clean bytes** stores zeros in the new frame, and nothing outside it
and the directory. -/
theorem cleanTable_newTable {m : Machine} {dir virt flags : Nat} (hdir : IsDirectory dir)
    (hvirt : virt < 4294967296) (hmax : m.manager.maxBlocks ≤ blockLimit) (hflags : flags < 4096)
    (hinUse : TablesInUse m dir) (hblock : (allocateBlocks m.manager 1).1 ≠ 0)
    (hclean : Clean m.memory dir flags (allocateBlocks m.manager 1).1) :
    CleanTable m dir virt (allocateBlocks m.manager 1).1 flags
      (newTable m dir virt (allocateBlocks m.manager 1).1 flags (allocateBlocks m.manager 1).2) := by
  obtain ⟨hgrows, hsame, htaken⟩ := allocateBlocks_grows hmax
  obtain ⟨b, htake, -⟩ := htaken hblock
  have haligned : (allocateBlocks m.manager 1).1 % 4096 = 0 := by
    rw [htake.address]
    exact Nat.mul_mod_left _ _
  have hb : (allocateBlocks m.manager 1).1 / 4096 = b := by
    rw [htake.address]
    exact Nat.mul_div_cancel _ (by decide)
  have hdirmod := hdir.aligned
  have hne : dir ≠ (allocateBlocks m.manager 1).1 := by
    rintro rfl
    exact absurd (hinUse.directory.symm.trans (hb.symm ▸ htake.clear)) (by decide)
  have hapart := hclean.apart
  have hor := or_flags haligned hflags
  have hclear : Apart ((allocateBlocks m.manager 1).1 ||| flags, pageSize) (dir, pageSize) := by
    rw [hor]
    unfold Apart pageSize
    simp only []
    omega
  have hadded := @tableAdded_newTable m dir virt flags [] hmax (by omega) hblock
    fun v hv => spared_of_apart hclear hv
  have hlt := hadded.block_lt
  have hword : directoryEntry (put32 m.memory (slotAddress dir virt)
      ((allocateBlocks m.manager 1).1 ||| flags)) dir virt
        = (allocateBlocks m.manager 1).1 + flags := by
    rw [directoryEntry_put32, if_pos rfl, hor]
    exact u32_eq (by omega)
  have hbytes : ∀ p, (newTable m dir virt (allocateBlocks m.manager 1).1 flags
      (allocateBlocks m.manager 1).2).memory p = blit (put32 m.memory (slotAddress dir virt)
        ((allocateBlocks m.manager 1).1 ||| flags)) ((allocateBlocks m.manager 1).1 + flags) 4096
          (fun _ => 0) p := by
    intro p
    unfold newTable pageSize
    simp only [hword]
  have hslot : ∀ p, p / 4096 ≠ dir / 4096 → put32 m.memory (slotAddress dir virt)
      ((allocateBlocks m.manager 1).1 ||| flags) p = m.memory p := by
    intro p hp
    exact put32_out (by unfold slotAddress; omega)
  refine ⟨hadded, haligned, hb.symm ▸ htake.clear, ?_, hgrows, fun p hp => ?_, fun p hp hp' => ?_⟩
  · show bitAt (allocateBlocks m.manager 1).2.memoryMap _ = true
    rw [hb, htake.bits, decide_eq_true rfl, Bool.or_true]
  · rw [hbytes]
    by_cases hin : (allocateBlocks m.manager 1).1 + flags ≤ p
    · exact blit_in hin (by omega)
    · -- The bytes that the clear misses.
      rw [blit_out (by omega), hslot p (by omega)]
      have hmissed := hclean.missed (p - (allocateBlocks m.manager 1).1) (by omega)
      rwa [Nat.add_sub_cancel' (by omega)] at hmissed
  · rw [hbytes]
    by_cases hin : (allocateBlocks m.manager 1).1 + flags ≤ p ∧
        p < (allocateBlocks m.manager 1).1 + flags + 4096
    · -- The bytes that it hits behind the frame.
      have hbehind := hclean.behind (p - ((allocateBlocks m.manager 1).1 + 4096)) (by omega)
      rw [Nat.add_sub_cancel' (by omega)] at hbehind
      rw [hbehind]
      exact blit_in hin.1 hin.2
    · rw [blit_out (by omega), hslot p hp]

/-- The bytes of another block that is free stay clean. -/
theorem Clean.newTable {m m' : Machine} {dir virt block flags c : Nat} (hdir : IsDirectory dir)
    (hflags : flags < 4096) (hinUse : TablesInUse m' dir)
    (hnew : CleanTable m dir virt block flags m')
    (hfree : c % 4096 = 0 ∧ bitAt m'.manager.memoryMap (c / 4096) = false)
    (h : Clean m.memory dir flags c) : Clean m'.memory dir flags c := by
  have hdirmod := hdir.aligned
  have hapart := h.apart
  obtain ⟨hc, hclear⟩ := hfree
  have hne : c / 4096 ≠ dir / 4096 := fun heq =>
    absurd (hinUse.directory.symm.trans (heq ▸ hclear)) (by decide)
  have hkeep : ∀ p, p / 4096 ≠ dir / 4096 → m.memory p = 0 → m'.memory p = 0 := by
    intro p hp hzero
    by_cases hin : p / 4096 = block / 4096
    · exact hnew.zero p hin
    · exact (hnew.same p hp hin).trans hzero
  exact ⟨fun k hk => hkeep _ (by omega) (h.missed k hk),
    fun k hk => hkeep _ (by omega) (h.behind k hk), hapart⟩

/-- A block that is free is not the frame of a table. -/
theorem TablesInUse.frame_ne {m : Machine} {dir block v : Nat} (h : TablesInUse m dir)
    (hfree : bitAt m.manager.memoryMap (block / 4096) = false) (hv : v < 4294967296)
    (hentry : directoryEntry m.memory dir v ≠ 0) :
    frameOf (directoryEntry m.memory dir v) / 4096 ≠ block / 4096 := fun heq =>
  absurd ((h.table v hv hentry).symm.trans (heq.symm ▸ hfree)) (by decide)

/-- **A new table of zeros changes no translation.** -/
theorem translation_newTable {m m' : Machine} {dir virt block flags : Nat}
    (hinUse : TablesInUse m dir) (htables : DistinctTables m.memory dir) (hflags : flags < 4096)
    (hnone : directoryEntry m.memory dir virt = 0) (h : CleanTable m dir virt block flags m')
    (hdir : IsDirectory dir) {w : Nat} (hw : w < 4294967296) :
    getPhysicalAddress m'.memory dir w = getPhysicalAddress m.memory dir w := by
  have hentry := h.added.directory w hw
  by_cases hregion : w / 4194304 = virt / 4194304
  · -- The region of `virt`: there was no table, and the new one has zeros only.
    rw [if_pos hregion] at hentry
    have hold : getPhysicalAddress m.memory dir w = 0 := by
      unfold getPhysicalAddress
      exact if_pos ((directoryEntry_region hregion).trans hnone)
    have hbounds := entryAddress_bounds (block ||| flags) w
    rw [frameOf_or_flags h.aligned hflags] at hbounds
    have haligned := h.aligned
    have hzero : le32 m'.memory (entryAddress (block ||| flags) w) = le32 (fun _ => 0) 0 :=
      le32_congr fun k hk => h.zero _ (by omega)
    rw [hold, getPhysicalAddress, hentry, if_neg h.added.nonzero, hzero]
    rfl
  · rw [if_neg hregion] at hentry
    refine getPhysicalAddress_congr hentry fun hne p hp => h.same p ?_ ?_
    · have hframe := htables.apart w hw hne
      have hmod := frameOf_mod (directoryEntry m.memory dir w)
      have hdirmod := hdir.aligned
      omega
    · rw [hp]
      exact hinUse.frame_ne h.free hw hne

/-- The tables are distinct frames in use after a new one was added. -/
theorem tables_newTable {m m' : Machine} {dir virt block flags : Nat} (hdir : IsDirectory dir)
    (hinUse : TablesInUse m dir) (htables : DistinctTables m.memory dir) (hflags : flags < 4096)
    (h : CleanTable m dir virt block flags m') :
    DistinctTables m'.memory dir ∧ TablesInUse m' dir := by
  have hframe := frameOf_or_flags h.aligned hflags
  have haligned := h.aligned
  have hdirectory := h.added.directory
  have hne : ∀ v < 4294967296, directoryEntry m.memory dir v ≠ 0 →
      frameOf (directoryEntry m.memory dir v) ≠ block := fun v hv hv0 heq =>
    hinUse.frame_ne h.free hv hv0 (by rw [heq])
  have hdirne : block ≠ dir := by
    rintro rfl
    exact absurd (hinUse.directory.symm.trans h.free) (by decide)
  refine ⟨⟨fun v hv => ?_, fun v hv w hw hregions => ?_⟩, h.grows _ hinUse.directory,
    fun v hv => ?_⟩
  · rw [hdirectory v hv]
    split
    · exact fun _ => hframe.symm ▸ hdirne
    · exact htables.apart v hv
  · rw [hdirectory v hv, hdirectory w hw]
    split
    · next hv' =>
      rw [if_neg (fun hw' => hregions (hv'.trans hw'.symm)), hframe]
      exact fun _ hw0 => (hne w hw hw0).symm
    · split
      · rw [hframe]
        exact fun hv0 _ => hne v hv hv0
      · exact htables.distinct v hv w hw hregions
  · rw [hdirectory v hv]
    split
    · rw [hframe]
      exact fun _ => h.taken
    · exact fun hv0 => h.grows _ (hinUse.table v hv hv0)

/-! ## 5. One call -/

/-- **What `map_address` adds**, when it takes `blocks` for tables. -/
structure Adds (m : Machine) (dir phys virt flags : Nat) (blocks : List Nat)
    (r : Bool × Machine) : Prop where
  tables : DistinctTables r.2.memory dir
  inUse : TablesInUse r.2 dir
  kept : ∀ v < 4294967296, directoryEntry m.memory dir v ≠ 0 →
    directoryEntry r.2.memory dir v = directoryEntry m.memory dir v
  grows : ∀ i, bitAt m.manager.memoryMap i = true → bitAt r.2.manager.memoryMap i = true
  taken : ∀ block ∈ blocks, bitAt m.manager.memoryMap (block / 4096) = false ∧
    bitAt r.2.manager.memoryMap (block / 4096) = true
  frames : ∀ block ∈ blocks, IsTable r.2.memory dir block
  maxBlocks : r.2.manager.maxBlocks = m.manager.maxBlocks
  mapped : r.1 = true → getPhysicalAddress r.2.memory dir virt = phys ||| flags
  others : ∀ w < 4294967296, w / 4096 ≠ virt / 4096 → (∀ block ∈ blocks, w / 4096 ≠ block / 4096) →
    getPhysicalAddress r.2.memory dir w = getPhysicalAddress m.memory dir w
  bytes : ∀ p, ¬ InTables m.memory dir p → (∀ block ∈ blocks, p / 4096 ≠ block / 4096) →
    r.2.memory p = m.memory p

/-- The entry of `virt` is set in the table that is there. -/
theorem adds_setEntry {m : Machine} {dir phys virt flags : Nat} (hdir : IsDirectory dir)
    (htables : DistinctTables m.memory dir) (hinUse : TablesInUse m dir)
    (hphys : phys < 4294967296) (hvirt : virt < 4294967296) (hflags : flags < 4096)
    (hentry : directoryEntry m.memory dir virt ≠ 0) :
    Adds m dir phys virt flags [] (true, setEntry m dir phys virt flags) := by
  obtain ⟨htables', hinUse'⟩ := @tables_setEntry m dir phys virt flags hdir htables hinUse hentry hvirt
  refine ⟨htables', hinUse', fun v hv _ => setEntry_directory hdir (htables.apart virt hvirt hentry) hv,
    fun _ h => h, fun _ h => absurd h List.not_mem_nil, fun _ h => absurd h List.not_mem_nil, rfl,
    fun _ => translation_setEntry_self hdir htables hentry hvirt hphys (by omega),
    fun w hw hpage _ => translation_setEntry hdir htables hentry hvirt hw hpage, fun p hp _ => ?_⟩
  exact memory_setEntry fun heq => hp (Or.inr ⟨virt, hvirt, hentry, heq⟩)

/-- **A new table, what the nested call adds, and the entry of `virt`.** -/
theorem Adds.created {m m' : Machine} {dir phys virt block flags : Nat} {blocks : List Nat}
    {r : Bool × Machine} (hdir : IsDirectory dir) (htables : DistinctTables m.memory dir)
    (hinUse : TablesInUse m dir) (hphys : phys < 4294967296) (hvirt : virt < 4294967296)
    (hflags : flags < 4096) (hnone : directoryEntry m.memory dir virt = 0)
    (hnew : CleanTable m dir virt block flags m') (h : Adds m' dir block block flags blocks r) :
    Adds m dir phys virt flags (block :: blocks) (true, setEntry r.2 dir phys virt flags) := by
  have hvirt' : directoryEntry m'.memory dir virt ≠ 0 :=
    (hnew.added.entry hvirt).symm ▸ hnew.added.nonzero
  have hentry := h.kept virt hvirt hvirt'
  have hlast := @adds_setEntry r.2 dir phys virt flags hdir h.tables h.inUse hphys hvirt hflags
    (hentry.symm ▸ hvirt')
  have hframe : frameOf (directoryEntry r.2.memory dir virt) = block := by
    rw [hentry, hnew.added.entry hvirt, frameOf_or_flags hnew.aligned hflags]
  refine ⟨hlast.tables, hlast.inUse, fun v hv hv0 => ?_, fun i hi => h.grows i (hnew.grows i hi),
    fun c hc => ?_, fun c hc => ?_, h.maxBlocks.trans hnew.added.maxBlocks, hlast.mapped,
    fun w hw hpage hblocks => ?_, fun p hp hblocks => ?_⟩
  · have hkept := hnew.added.kept hnone hv hv0
    have hkept' := h.kept v hv (hkept.symm ▸ hv0)
    rw [hlast.kept v hv (hkept'.trans hkept ▸ hv0), hkept', hkept]
  · rcases List.mem_cons.mp hc with rfl | htail
    · exact ⟨hnew.free, h.grows _ hnew.taken⟩
    · obtain ⟨hclear, hset⟩ := h.taken c htail
      refine ⟨?_, hset⟩
      cases hold : bitAt m.manager.memoryMap (c / 4096)
      · rfl
      · exact absurd ((hnew.grows _ hold).symm.trans hclear) (by decide)
  · rcases List.mem_cons.mp hc with rfl | htail
    · have hset := hlast.kept virt hvirt (hentry.symm ▸ hvirt')
      exact ⟨virt, hvirt, hset.trans hentry ▸ hvirt', by rw [hset, hframe]⟩
    · exact (h.frames c htail).kept hlast.kept
  · have hblock := hblocks block List.mem_cons_self
    rw [hlast.others w hw hpage fun _ hc => absurd hc List.not_mem_nil,
      h.others w hw hblock fun c hc => hblocks c (List.mem_cons_of_mem _ hc),
      translation_newTable hinUse htables hflags hnone hnew hdir hw]
  · have hblock := hblocks block List.mem_cons_self
    have hset := @memory_setEntry r.2 dir phys virt flags p (hframe.symm ▸ hblock)
    refine hset.trans ((h.bytes p ?_ fun c hc => hblocks c (List.mem_cons_of_mem _ hc)).trans
      (hnew.same p (fun hpdir => hp (Or.inl hpdir)) hblock))
    -- The tables after the new one was added.
    rintro (hpdir | ⟨v, hv, hv0, hpv⟩)
    · exact hp (Or.inl hpdir)
    · rw [hnew.added.directory v hv] at hv0 hpv
      split at hpv
      · rw [frameOf_or_flags hnew.aligned hflags] at hpv
        exact hblock hpv
      · next hregion =>
        rw [if_neg hregion] at hv0
        exact hp (Or.inr ⟨v, hv, hv0, hpv⟩)

/-- **`map_address`**, by induction on the fuel. -/
theorem adds_mapAddress {dir flags : Nat} (hdir : IsDirectory dir) (hflags : flags < 4096) :
    ∀ (fuel : Nat) (m : Machine) (phys virt : Nat) (r : Bool × Machine),
    phys < 4294967296 → virt < 4294967296 → m.manager.maxBlocks ≤ blockLimit →
    DistinctTables m.memory dir → TablesInUse m dir →
    (∀ block ∈ newTables fuel m dir virt, Clean m.memory dir flags block) →
    mapAddress fuel m dir phys virt flags = some r →
    Adds m dir phys virt flags (newTables fuel m dir virt) r := by
  intro fuel
  induction fuel with
  | zero => exact fun _ _ _ _ _ _ _ _ _ _ h => nomatch h
  | succ fuel ih =>
    intro m phys virt r hphys hvirt hmax htables hinUse hclean h
    rcases mapAddress_cases h with ⟨hentry, rfl⟩ | ⟨hnone, hnull, rfl⟩ |
      ⟨hnone, hblock, r', hnested, rfl⟩
    · rw [newTables_present hvirt hentry]
      exact adds_setEntry hdir htables hinUse hphys hvirt hflags hentry
    · -- No block: nothing but the bitmap changes.
      obtain ⟨hgrows, -, -⟩ := allocateBlocks_grows hmax
      rw [newTables_null hvirt hnone hnull]
      exact ⟨htables, ⟨hgrows _ hinUse.directory, fun v hv hv0 => hgrows _ (hinUse.table v hv hv0)⟩,
        fun _ _ _ => rfl, hgrows, fun _ h => absurd h List.not_mem_nil,
        fun _ h => absurd h List.not_mem_nil, (allocateBlocks_grows hmax).2.1,
        fun h => absurd h Bool.false_ne_true, fun _ _ _ _ => rfl, fun _ _ _ => rfl⟩
    · have hfirst := @first_mem_newTables fuel m dir virt hvirt hnone hblock
      have hnew := @cleanTable_newTable m dir virt flags hdir hvirt hmax hflags hinUse hblock
        (hclean _ hfirst)
      have hdirne := (hclean _ hfirst).apart
      generalize newTable m dir virt (allocateBlocks m.manager 1).1 flags
        (allocateBlocks m.manager 1).2 = m' at hnested hnew
      rw [newTables_absent hvirt hnone hblock hnew.added.manager hnew.added.present] at hclean ⊢
      obtain ⟨htables', hinUse'⟩ := tables_newTable hdir hinUse htables hflags hnew
      have hlimit := hnew.added.maxBlocks.trans_le hmax
      exact Adds.created hdir htables hinUse hphys hvirt hflags hnone hnew
        (ih m' _ _ r' hnew.added.block_lt hnew.added.block_lt hlimit htables' hinUse' (fun c hc =>
          (hclean c (List.mem_cons_of_mem _ hc)).newTable hdir hflags hinUse' hnew
            (mem_newTables hlimit hc)) hnested)

/-! ## 6. The call as a whole -/

/-- A frame that the call took for a table. -/
def TakenFrame (m m' : Machine) (block : Nat) : Prop :=
  bitAt m.manager.memoryMap block = false ∧ bitAt m'.manager.memoryMap block = true

/-- **`map_address` adds exactly one translation**: it returns, and when it returns true the page
of `virt` has the translation asked for, that of every other page is unchanged, but for the identity
pages of the frames taken, and so is every byte outside the directory, the tables and the frames
taken. -/
def AddsExactlyOne (m : Machine) (dir phys virt flags : Nat) : Prop :=
  ∃ r, mapAddress mapFuel m dir phys virt flags = some r ∧ (r.1 = true →
    getPhysicalAddress r.2.memory dir virt = phys ||| flags ∧
    (∀ w < 4294967296, w / 4096 ≠ virt / 4096 → ¬ TakenFrame m r.2 (w / 4096) →
      getPhysicalAddress r.2.memory dir w = getPhysicalAddress m.memory dir w) ∧
    ∀ p, ¬ InTables m.memory dir p → ¬ TakenFrame m r.2 (p / 4096) → r.2.memory p = m.memory p)

/-- **`map_address` adds exactly one translation** when every frame taken for a table is clean. -/
theorem mapping_adds_one (m : Machine) (dir phys virt flags : Nat) (hdir : IsDirectory dir)
    (htables : DistinctTables m.memory dir) (hinUse : TablesInUse m dir)
    (hmax : m.manager.maxBlocks ≤ blockLimit) (hphys : phys < 4294967296)
    (hvirt : virt < 4294967296) (hflags : flags < 4096)
    (hclean : ∀ block ∈ newTables mapFuel m dir virt, Clean m.memory dir flags block) :
    AddsExactlyOne m dir phys virt flags := by
  obtain ⟨r, hr⟩ := mapAddress_returns dir flags mapFuel m phys virt hmax (by
    unfold mapFuel
    omega)
  have h := adds_mapAddress hdir hflags mapFuel m phys virt r hphys hvirt hmax htables hinUse hclean
    hr
  have htaken : ∀ p, ¬ TakenFrame m r.2 (p / 4096) →
      ∀ block ∈ newTables mapFuel m dir virt, p / 4096 ≠ block / 4096 := fun p hp block hblock heq =>
    hp (heq.symm ▸ h.taken block hblock)
  exact ⟨r, hr, fun hmapped => ⟨h.mapped hmapped,
    fun w hw hpage hw' => h.others w hw hpage (htaken w hw'),
    fun p hp hp' => h.bytes p hp (htaken p hp')⟩⟩

/-- An empty directory has no tables. -/
theorem tables_empty {m : Machine} {dir : Nat} (hempty : EmptyDirectory m.memory dir)
    (hdir : bitAt m.manager.memoryMap (dir / 4096) = true) :
    DistinctTables m.memory dir ∧ TablesInUse m dir :=
  ⟨⟨fun v hv hne => absurd (hempty v hv) hne, fun v hv _ _ _ hne => absurd (hempty v hv) hne⟩,
    hdir, fun v hv hne => absurd (hempty v hv) hne⟩

/-- The theorem for the first page of a region in a memory of zeros. -/
theorem mapping_adds_one_first : AddsExactlyOne emptyMachine 4096 0x20000 0x800000 3 := by
  obtain ⟨htables, hinUse⟩ := @tables_empty emptyMachine 4096 emptyMachine_empty (by decide)
  have hblocks : newTables mapFuel emptyMachine 4096 0x800000 = [0x2000, 0x3000] := by
    decide +kernel
  refine mapping_adds_one emptyMachine 4096 0x20000 0x800000 3 ⟨by decide, by decide⟩ htables
    hinUse (by decide) (by decide) (by decide) (by decide) ?_
  rw [hblocks]
  intro block hblock
  have hne : 4096 ≠ block + 4096 := by
    rcases List.mem_cons.mp hblock with rfl | hblock
    · decide
    · rw [List.mem_singleton.mp hblock]
      decide
  exact ⟨fun _ _ => rfl, fun _ _ => rfl, hne⟩

/-- The machine of the empty directory, where the first free frame does not begin with 0. -/
def staleMachine : Machine where
  memory := fun p => if p = 0x2000 then 1 else 0
  manager := emptyMachine.manager

theorem staleMachine_mapped : (mapAddress mapFuel staleMachine 4096 0x20000 0x801000 3).map
    (fun r => (r.1, getPhysicalAddress r.2.memory 4096 0x800000,
      bitAt r.2.manager.memoryMap 0x800)) = some (true, 1, false) := by
  decide +kernel

theorem staleMachine_empty : EmptyDirectory staleMachine.memory 4096 := by
  intro v hv
  have hzero : directoryEntry staleMachine.memory 4096 v = le32 (fun _ => 0) 0 :=
    le32_congr fun k hk => if_neg (by unfold slotAddress; omega)
  exact hzero

/-- **A stale entry**: the first byte of the new table's frame is not cleared, so mapping one page
maps another. -/
theorem stale_entry : ¬ ∀ (m : Machine) (dir phys virt flags : Nat), IsDirectory dir →
    DistinctTables m.memory dir → TablesInUse m dir → m.manager.maxBlocks ≤ blockLimit →
    phys % 4096 = 0 → phys < 4294967296 → virt % 4096 = 0 → virt < 4294967296 → 0 < flags →
    flags < 4096 → AddsExactlyOne m dir phys virt flags := by
  intro hall
  obtain ⟨htables, hinUse⟩ := @tables_empty staleMachine 4096 staleMachine_empty (by decide)
  obtain ⟨r, hr, hadds⟩ := hall staleMachine 4096 0x20000 0x801000 3 ⟨by decide, by decide⟩ htables
    hinUse (by decide) (by decide) (by decide) (by decide) (by decide) (by decide) (by decide)
  have hresult := staleMachine_mapped
  rw [hr, Option.map_some, Option.some.injEq, Prod.mk.injEq, Prod.mk.injEq] at hresult
  obtain ⟨hmapped, hstale, hfree⟩ := hresult
  have hsame := (hadds hmapped).2.1 0x800000 (by decide) (by decide)
    fun htaken => absurd (htaken.2.symm.trans hfree) (by decide)
  have hnone : getPhysicalAddress staleMachine.memory 4096 0x800000 = 0 :=
    if_pos (staleMachine_empty 0x800000 (by decide))
  rw [hstale, hnone] at hsame
  exact absurd hsame (by decide)

end AmateurOs.Memory
