/-
# The address space that tables stand for

A directory and its tables are a map from pages to frames and rights.  `translate` reads that map
out of memory by the processor's rule, and `Shows` says which map the tables show.  Each operation
on the tables is then an operation on the map: setting an entry, with or without a new table in
front of it, changes one page, and so does `unmap_page`.

The page of a new table is mapped too, at its own address.
-/
import AmateurOs.Memory.Access
import AmateurOs.Memory.Mapping
import AmateurOs.Memory.Pages

namespace AmateurOs.Memory

open AmateurOs.Lib

/-! ## 1. Mappings -/

/-- What a page is mapped to: a frame, and whether it may be written and used by the user. -/
structure Mapping where
  frame : Nat
  write : Bool
  user : Bool

/-- The mapping by a directory entry and a table entry, where both are present. -/
def mappingOf (entry page : Nat) : Option Mapping :=
  if hasPresent entry && hasPresent page then
    some ⟨page / pageSize, entry.testBit 1 && page.testBit 1, entry.testBit 2 && page.testBit 2⟩
  else none

/-- **The mapping of an address** in the tables of a directory. -/
def translate (memory : Bytes) (dir virt : Nat) : Option Mapping :=
  mappingOf (directoryEntry memory dir virt) (getPhysicalAddress memory dir virt)

/-- What a mapping allows. -/
def Mapping.allows (p : Mapping) (access : Access) : Bool :=
  (!access.write || p.write) && (!access.user || p.user)

/-- **The processor's rule** reads the mapping. -/
theorem permitted_eq (memory : Bytes) (dir virt : Nat) (access : Access) :
    permitted memory dir virt access =
      ((translate memory dir virt).map (·.allows access)).getD false := by
  unfold permitted translate mappingOf getPhysicalAddress
  by_cases hentry : directoryEntry memory dir virt = 0
  · rw [hentry, if_pos rfl]
    have hzero : allowedBy 0 access = false := rfl
    rw [hzero, Bool.false_and]
    rfl
  · rw [if_neg hentry]
    unfold allowedBy hasPresent Mapping.allows
    generalize le32 memory _ = page
    generalize directoryEntry memory dir virt = entry
    cases entry.testBit 0 <;> cases page.testBit 0 <;> cases access.write <;> cases access.user <;>
      simp [Bool.and_assoc, Bool.and_comm, Bool.and_left_comm]

theorem mappingOf_absent {entry page : Nat} (h : hasPresent page = false) :
    mappingOf entry page = none := by
  rw [mappingOf, h, Bool.and_false]
  rfl

/-- A table entry that maps a frame with flags. -/
theorem mappingOf_flags {entry phys flags : Nat} (hphys : phys % 4096 = 0) (hflags : flags < 4096)
    (hpresent : hasPresent flags = true) (hentry : hasPresent entry = true) :
    mappingOf entry (phys ||| flags) = some ⟨phys / 4096, entry.testBit 1 && flags.testBit 1,
      entry.testBit 2 && flags.testBit 2⟩ := by
  have hbit : ∀ k < 12, (phys ||| flags).testBit k = flags.testBit k := fun k hk => by
    rw [Nat.testBit_or, testBit_aligned hphys hk, Bool.false_or]
  have hframe : (phys ||| flags) / 4096 = phys / 4096 := by
    rw [or_flags hphys hflags]
    omega
  have hpresent' : hasPresent (phys ||| flags) = true := (hbit 0 (by decide)).trans hpresent
  rw [mappingOf, hentry, hpresent', pageSize, hframe, hbit 1 (by decide), hbit 2 (by decide)]
  rfl

/-! ## 2. Address spaces -/

/-- **The tables show a map**: every page is translated as the map says. -/
def Shows (memory : Bytes) (dir : Nat) (space : Nat → Option Mapping) : Prop :=
  ∀ v < 4294967296, translate memory dir v = space (v / 4096)

/-- What the processor allows is what the map allows. -/
theorem Shows.permitted {memory : Bytes} {dir : Nat} {space : Nat → Option Mapping}
    (h : Shows memory dir space) {v : Nat} (hv : v < 4294967296) (access : Access) :
    permitted memory dir v access = ((space (v / 4096)).map (·.allows access)).getD false := by
  rw [permitted_eq, h v hv]

/-- `unmap_page` sets an entry that is not present. -/
theorem unmapPage_eq (m : Machine) (dir virt : Nat) : ∃ page < 4294967296,
    hasPresent page = false ∧ unmapPage m dir virt = setEntry m dir page virt 0 := by
  refine ⟨clearAttribute (setFrame (le32 m.memory (getPage m.memory dir virt)) 0) present,
    clearAttribute_lt (setFrame_lt (by decide)), ?_, ?_⟩
  · have hmask : (0xFFFFFFFF ^^^ 1 : Nat).testBit 0 = false := by decide
    rw [hasPresent, clearAttribute, present, Nat.testBit_and, hmask, Bool.and_false]
  · rw [unmapPage, setEntry, Nat.or_zero]
    rfl

section

variable {m : Machine} {dir virt : Nat} {space : Nat → Option Mapping} (hdir : IsDirectory dir)
  (htables : DistinctTables m.memory dir) (hvirt : virt < 4294967296)

include hdir htables hvirt

/-- **Setting an entry** changes the map at one page. -/
theorem Shows.setEntry (h : Shows m.memory dir space)
    (hentry : directoryEntry m.memory dir virt ≠ 0) {phys flags : Nat} (hphys : phys < 4294967296)
    (hflags : flags < 4294967296) :
    Shows (setEntry m dir phys virt flags).memory dir (Function.update space (virt / 4096)
      (mappingOf (directoryEntry m.memory dir virt) (phys ||| flags))) := by
  intro v hv
  have hdirectory := @setEntry_directory m dir phys virt flags hdir (htables.apart virt hvirt hentry)
  rw [translate, hdirectory hv]
  by_cases hpage : v / 4096 = virt / 4096
  · have hregion : v / 4194304 = virt / 4194304 := by omega
    have hself : getPhysicalAddress (Memory.setEntry m dir phys virt flags).memory dir v =
        getPhysicalAddress (Memory.setEntry m dir phys virt flags).memory dir virt := by
      rw [getPhysicalAddress, getPhysicalAddress, directoryEntry_region hregion, entryAddress,
        entryAddress, (by omega : v % 4194304 / 4096 = virt % 4194304 / 4096)]
    rw [hself, translation_setEntry_self hdir htables hentry hvirt hphys hflags, hpage,
      Function.update_self, directoryEntry_region hregion]
  · rw [translation_setEntry hdir htables hentry hvirt hv hpage, Function.update_of_ne hpage]
    exact h v hv

/-- **`unmap_page`** takes one page out of the map. -/
theorem Shows.unmapPage (h : Shows m.memory dir space)
    (hentry : directoryEntry m.memory dir virt ≠ 0) :
    Shows (unmapPage m dir virt).memory dir (Function.update space (virt / 4096) none) := by
  obtain ⟨page, hpage, habsent, heq⟩ := unmapPage_eq m dir virt
  have hset := h.setEntry hdir htables hvirt hentry hpage (by decide : 0 < 4294967296)
  rw [Nat.or_zero, mappingOf_absent habsent] at hset
  rw [heq]
  exact hset

end

/-- **A new table** changes no page. -/
theorem Shows.newTable {m m' : Machine} {dir virt block flags : Nat} {space : Nat → Option Mapping}
    (h : Shows m.memory dir space) (hdir : IsDirectory dir) (htables : DistinctTables m.memory dir)
    (hinUse : TablesInUse m dir) (hflags : flags < 4096)
    (hnone : directoryEntry m.memory dir virt = 0) (hnew : CleanTable m dir virt block flags m') :
    Shows m'.memory dir space := by
  intro v hv
  have hsame := translation_newTable hinUse htables hflags hnone hnew hdir hv
  rw [← h v hv, translate, translate, hsame, hnew.added.directory v hv]
  split
  · next hregion =>
    have hzero : getPhysicalAddress m.memory dir v = 0 :=
      if_pos ((directoryEntry_region hregion).trans hnone)
    rw [hzero, mappingOf_absent rfl, mappingOf_absent rfl]
  · rfl

/-! ## 3. Tables that are laid out -/

/-- **Tables that show a map**, and are pages of their own that are in use. -/
structure Laid (m : Machine) (dir : Nat) (space : Nat → Option Mapping) : Prop where
  limit : m.manager.maxBlocks ≤ blockLimit
  distinct : DistinctTables m.memory dir
  inUse : TablesInUse m dir
  shows : Shows m.memory dir space

/-- What setting an entry leaves as it was. -/
structure OnlyTable (m : Machine) (dir virt : Nat) (m' : Machine) : Prop where
  manager : m'.manager = m.manager
  directory : ∀ v < 4294967296, directoryEntry m'.memory dir v = directoryEntry m.memory dir v
  bytes : ∀ p, p / 4096 ≠ frameOf (directoryEntry m.memory dir virt) / 4096 →
    m'.memory p = m.memory p

section

variable {m : Machine} {dir virt : Nat} {space : Nat → Option Mapping} (hdir : IsDirectory dir)
  (h : Laid m dir space) (hvirt : virt < 4294967296)

include hdir h hvirt

theorem Laid.setEntry (hentry : directoryEntry m.memory dir virt ≠ 0) {phys flags : Nat}
    (hphys : phys < 4294967296) (hflags : flags < 4294967296) :
    Laid (setEntry m dir phys virt flags) dir (Function.update space (virt / 4096)
      (mappingOf (directoryEntry m.memory dir virt) (phys ||| flags))) ∧
      OnlyTable m dir virt (Memory.setEntry m dir phys virt flags) := by
  obtain ⟨hdistinct, hinUse⟩ := @tables_setEntry m dir phys virt flags hdir h.distinct h.inUse hentry
    hvirt
  exact ⟨⟨h.limit, hdistinct, hinUse, h.shows.setEntry hdir h.distinct hvirt hentry hphys hflags⟩,
    rfl, fun v hv => setEntry_directory hdir (h.distinct.apart virt hvirt hentry) hv,
    fun p hp => memory_setEntry hp⟩

theorem Laid.unmapPage (hentry : directoryEntry m.memory dir virt ≠ 0) :
    Laid (unmapPage m dir virt) dir (Function.update space (virt / 4096) none) ∧
      OnlyTable m dir virt (Memory.unmapPage m dir virt) := by
  obtain ⟨page, hpage, -, heq⟩ := unmapPage_eq m dir virt
  have hshows := h.shows.unmapPage hdir h.distinct hvirt hentry
  obtain ⟨hlaid, honly⟩ := h.setEntry hdir hvirt hentry hpage (by decide : 0 < 4294967296)
  rw [heq] at hshows ⊢
  exact ⟨⟨hlaid.limit, hlaid.distinct, hlaid.inUse, hshows⟩, honly⟩

end

/-! ## 4. `map_address` -/

/-- **A page whose region has a table.** -/
theorem mapAddress_present {fuel : Nat} {m : Machine} {dir phys virt flags : Nat}
    (hentry : directoryEntry m.memory dir virt ≠ 0) :
    mapAddress (fuel + 1) m dir phys virt flags = some (true, setEntry m dir phys virt flags) :=
  if_neg hentry

/-- **A page whose region has no table**, when the block taken for it lies in a region that
has one. -/
theorem mapAddress_absent {fuel : Nat} {m : Machine} {dir phys virt flags : Nat}
    (hentry : directoryEntry m.memory dir virt = 0) (hblock : (allocateBlocks m.manager 1).1 ≠ 0)
    (htable : directoryEntry (newTable m dir virt (allocateBlocks m.manager 1).1 flags
      (allocateBlocks m.manager 1).2).memory dir (allocateBlocks m.manager 1).1 ≠ 0) :
    mapAddress (fuel + 2) m dir phys virt flags = some (true,
      setEntry (setEntry (newTable m dir virt (allocateBlocks m.manager 1).1 flags
        (allocateBlocks m.manager 1).2) dir (allocateBlocks m.manager 1).1
          (allocateBlocks m.manager 1).1 flags) dir phys virt flags) := by
  rw [mapAddress, if_pos hentry, createPageTable, if_pos hentry]
  simp only [if_neg hblock, mapAddress_present htable, Option.map_some, if_true]

/-- **What `map_address` does with a new table** in the block at `block`: the table is entered in
the directory, and its own page and the page asked for are mapped. -/
structure TableMapped (m : Machine) (dir phys virt flags block : Nat)
    (space : Nat → Option Mapping) (m' : Machine) : Prop where
  laid : Laid m' dir (Function.update (Function.update space (block / 4096)
    (mappingOf (directoryEntry m.memory dir block) (block ||| flags))) (virt / 4096)
      (mappingOf (block ||| flags) (phys ||| flags)))
  manager : m'.manager = (allocateBlocks m.manager 1).2
  directory : ∀ v < 4294967296, directoryEntry m'.memory dir v =
    if v / 4194304 = virt / 4194304 then block ||| flags else directoryEntry m.memory dir v
  bytes : ∀ p, p / 4096 ≠ dir / 4096 → p / 4096 ≠ block / 4096 →
    p / 4096 ≠ frameOf (directoryEntry m.memory dir block) / 4096 → m'.memory p = m.memory p

theorem Laid.tableMapped {m : Machine} {dir phys virt flags : Nat} {space : Nat → Option Mapping}
    (h : Laid m dir space) (hdir : IsDirectory dir) (hphys : phys < 4294967296)
    (hvirt : virt < 4294967296) (hflags : flags < 4096)
    (hnone : directoryEntry m.memory dir virt = 0) (hblock : (allocateBlocks m.manager 1).1 ≠ 0)
    (hclean : Clean m.memory dir flags (allocateBlocks m.manager 1).1)
    (htable : directoryEntry m.memory dir (allocateBlocks m.manager 1).1 ≠ 0) (fuel : Nat) :
    ∃ m', mapAddress (fuel + 2) m dir phys virt flags = some (true, m') ∧
      TableMapped m dir phys virt flags (allocateBlocks m.manager 1).1 space m' := by
  have hnew := cleanTable_newTable hdir hvirt h.limit hflags h.inUse hblock hclean
  have hmanager := hnew.added.manager
  have hblocklt := hnew.added.block_lt
  have hkept := hnew.added.kept hnone hblocklt htable
  have hmapped := @mapAddress_absent fuel m dir phys virt flags hnone hblock
    (hkept.symm ▸ htable)
  obtain ⟨hdistinct, hinUse⟩ := tables_newTable hdir h.inUse h.distinct hflags hnew
  have hshows := h.shows.newTable hdir h.distinct h.inUse hflags hnone hnew
  have hlimit := hnew.added.maxBlocks.trans_le h.limit
  refine ⟨_, hmapped, ?_⟩
  generalize newTable m dir virt (allocateBlocks m.manager 1).1 flags
    (allocateBlocks m.manager 1).2 = m₁ at hnew hmanager hkept hdistinct hinUse hshows hlimit
  generalize (allocateBlocks m.manager 1).1 = block at *
  -- its own page
  have hblock' : directoryEntry m₁.memory dir block ≠ 0 := hkept.symm ▸ htable
  obtain ⟨hlaid₂, honly₂⟩ := (Laid.mk hlimit hdistinct hinUse hshows).setEntry hdir hblocklt hblock'
    (hblocklt : block < 4294967296) (by omega : flags < 4294967296)
  -- the page asked for
  have hvirt₁ := hnew.added.entry hvirt
  have hvirt₂ := (honly₂.directory virt hvirt).trans hvirt₁
  obtain ⟨hlaid₃, honly₃⟩ := hlaid₂.setEntry hdir hvirt (hvirt₂.symm ▸ hnew.added.nonzero)
    hphys (by omega : flags < 4294967296)
  rw [hvirt₂, hkept] at hlaid₃
  refine ⟨hlaid₃, honly₃.manager.trans (honly₂.manager.trans hmanager), fun v hv => ?_,
    fun p hpdir hpblock hptable => ?_⟩
  · rw [honly₃.directory v hv, honly₂.directory v hv, hnew.added.directory v hv]
  · have hframe : frameOf (block ||| flags) = block := frameOf_or_flags hnew.aligned hflags
    rw [honly₃.bytes p (by rw [hvirt₂, hframe]; exact hpblock), honly₂.bytes p (by rw [hkept]; exact hptable),
      hnew.same p hpdir hpblock]

end AmateurOs.Memory
