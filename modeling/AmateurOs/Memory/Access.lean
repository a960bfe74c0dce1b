/-
# The access that a mapping grants

An access is allowed when the directory entry and the table entry are both present and both carry
the bits it needs.  `map_address` stores `phys | flags` in the table entry, but the directory
entry keeps the flags of the mapping that created the table: `user_page_refused` is a run in which
a user page is mapped into a region that a kernel page has opened.

`access_granted` is the result for runs in which that does not happen: whenever a table exists
already its entry carries the bits asked for, and no table that is created is so placed that
clearing it from `block | flags` on reaches an entry of the directory.  The invariant of these
runs is that no table of the directory is the directory itself (`TablesApart`).
-/
import AmateurOs.Memory.Paging

namespace AmateurOs.Memory

open AmateurOs.Lib

/-! ## 1. Permissions -/

/-- A kind of access. -/
structure Access where
  write : Bool
  user : Bool

/-- An entry is present and carries the bits that the access needs. -/
def allowedBy (entry : Nat) (access : Access) : Bool :=
  entry.testBit 0 && (!access.write || entry.testBit 1) && (!access.user || entry.testBit 2)

/-- The processor's rule: the directory entry and the table entry both allow the access. -/
def permitted (memory : Bytes) (dir virt : Nat) (access : Access) : Bool :=
  allowedBy (directoryEntry memory dir virt) access &&
    allowedBy (le32 memory (entryAddress (directoryEntry memory dir virt) virt)) access

/-- An entry that has the three bits of another allows what that one allows. -/
theorem allowedBy_mono {entry entry' : Nat} {access : Access}
    (h : ∀ k < 3, entry.testBit k = true → entry'.testBit k = true)
    (hallowed : allowedBy entry access = true) : allowedBy entry' access = true := by
  simp only [allowedBy, Bool.and_eq_true, Bool.or_eq_true] at hallowed ⊢
  obtain ⟨⟨hpresent, hwrite⟩, huser⟩ := hallowed
  exact ⟨⟨h 0 (by decide) hpresent, hwrite.imp_right (h 1 (by decide))⟩,
    huser.imp_right (h 2 (by decide))⟩

/-- Adding an address to flags keeps what they allow. -/
theorem allowedBy_or {address flags : Nat} {access : Access}
    (h : allowedBy flags access = true) : allowedBy (address ||| flags) access = true :=
  allowedBy_mono (fun k _ hk => by rw [Nat.testBit_or, hk, Bool.or_true]) h

/-! ## 2. The condition -/

/-- **The clears of a call leave the directory**: clearing each new table from `block | flags` on does
not pass the end of memory, the table is not the directory, and the slots of the directory that it
reaches are empty before the call and behind it, which fills those of `virt` and of the blocks. -/
def SparesDirectory (memory : Bytes) (dir virt flags : Nat) (blocks : List Nat) : Prop :=
  ∀ block ∈ blocks, (block ||| flags) + pageSize ≤ 4294967296 ∧ frameOf (block ||| flags) ≠ dir ∧
    ∀ v < 4294967296, Spared memory dir (block ||| flags) (virt :: blocks) v

/-- **When a call grants what it is asked for**: a table that exists has an entry with the bits
asked for, and the clears of the tables that are created leave the directory. -/
structure Grantable (m : Machine) (dir : Nat) (call : MapCall) : Prop where
  table : directoryEntry m.memory dir call.virt ≠ 0 → ∀ k < 3, call.flags.testBit k = true →
    (directoryEntry m.memory dir call.virt).testBit k = true
  fresh : SparesDirectory m.memory dir call.virt call.flags (newTables mapFuel m dir call.virt)

/-- The directory is not one of its own tables. -/
def TablesApart (memory : Bytes) (dir : Nat) : Prop :=
  ∀ v < 4294967296, directoryEntry memory dir v ≠ 0 →
    frameOf (directoryEntry memory dir v) ≠ dir

/-- A table that is cleared apart from the directory is not the directory. -/
theorem frameOf_ne_of_apart {entry dir : Nat} (h : Apart (entry, pageSize) (dir, pageSize)) :
    frameOf entry ≠ dir := by
  unfold Apart pageSize at h
  unfold frameOf
  simp only [] at h
  omega

/-- Clears that do not meet the directory leave it. -/
theorem sparesDirectory_of_apart {memory : Bytes} {dir virt flags : Nat} {blocks : List Nat}
    (h : ∀ block ∈ blocks, (block ||| flags) + pageSize ≤ 4294967296 ∧
      Apart (block ||| flags, pageSize) (dir, pageSize)) :
    SparesDirectory memory dir virt flags blocks := by
  intro block hblock
  obtain ⟨hend, hapart⟩ := h block hblock
  exact ⟨hend, frameOf_ne_of_apart hapart, fun v hv => spared_of_apart hapart hv⟩

/-! ## 3. One call -/

/-- What `map_address` does to the directory and to the entry of `virt`. -/
structure Mapped (m : Machine) (dir phys virt flags : Nat) (r : Bool × Machine) : Prop where
  apart : TablesApart r.2.memory dir
  kept : ∀ v < 4294967296, directoryEntry m.memory dir v ≠ 0 →
    directoryEntry r.2.memory dir v = directoryEntry m.memory dir v
  table : r.1 = true → directoryEntry m.memory dir virt = 0 →
    ∃ block, directoryEntry r.2.memory dir virt = block ||| flags
  entry : r.1 = true → le32 r.2.memory
    (entryAddress (directoryEntry r.2.memory dir virt) virt) = phys ||| flags
  maxBlocks : r.2.manager.maxBlocks = m.manager.maxBlocks

/-- Setting the entry of `virt` when the table exists. -/
theorem mapped_setEntry {m : Machine} {dir phys virt flags : Nat} (hdir : IsDirectory dir)
    (hapart : TablesApart m.memory dir) (hphys : phys < 4294967296) (hvirt : virt < 4294967296)
    (hflags : flags < 4294967296) (hentry : directoryEntry m.memory dir virt ≠ 0) :
    Mapped m dir phys virt flags (true, setEntry m dir phys virt flags) := by
  have hframe := hapart virt hvirt hentry
  have hsame := fun v (hv : v < 4294967296) =>
    @setEntry_directory m dir phys virt flags hdir hframe v hv
  refine ⟨fun v hv => ?_, fun v hv _ => hsame v hv, fun _ hnone => absurd hnone hentry,
    fun _ => setEntry_entry hdir hframe hvirt hphys hflags, rfl⟩
  simp only [hsame v hv]
  exact hapart v hv

/-- A machine to which a table for the region of `virt` was added. -/
structure TableAdded (m : Machine) (dir virt block flags : Nat) (m' : Machine) : Prop where
  directory : ∀ v < 4294967296, directoryEntry m'.memory dir v =
    if v / 4194304 = virt / 4194304 then block ||| flags else directoryEntry m.memory dir v
  nonzero : block ||| flags ≠ 0
  block_lt : block < 4294967296
  maxBlocks : m'.manager.maxBlocks = m.manager.maxBlocks
  manager : m'.manager = (allocateBlocks m.manager 1).2

/-- The entry of the region is the new one. -/
theorem TableAdded.entry {m m' : Machine} {dir virt block flags : Nat}
    (h : TableAdded m dir virt block flags m') (hvirt : virt < 4294967296) :
    directoryEntry m'.memory dir virt = block ||| flags := by
  rw [h.directory virt hvirt, if_pos rfl]

/-- An entry that was there is in another region, and stays. -/
theorem TableAdded.kept {m m' : Machine} {dir virt block flags : Nat}
    (h : TableAdded m dir virt block flags m') (hnone : directoryEntry m.memory dir virt = 0)
    {v : Nat} (hv : v < 4294967296) (hentry : directoryEntry m.memory dir v ≠ 0) :
    directoryEntry m'.memory dir v = directoryEntry m.memory dir v := by
  rw [h.directory v hv, if_neg]
  exact fun hsame => hentry ((directoryEntry_region hsame).trans hnone)

/-- A region has a table if it is that of `virt` or had one before. -/
theorem TableAdded.present {m m' : Machine} {dir virt block flags : Nat}
    (h : TableAdded m dir virt block flags m') (v : Nat) (hv : v < 4294967296) :
    directoryEntry m'.memory dir v ≠ 0 ↔
      v / 4194304 = virt / 4194304 ∨ directoryEntry m.memory dir v ≠ 0 := by
  rw [h.directory v hv]
  split
  · next hsame => exact iff_of_true h.nonzero (Or.inl hsame)
  · next hother => exact (or_iff_right hother).symm

/-- What the clears of the nested call leave. -/
theorem TableAdded.spares {m m' : Machine} {dir virt block flags : Nat} {blocks : List Nat}
    (h : TableAdded m dir virt block flags m')
    (hspares : SparesDirectory m.memory dir virt flags (block :: blocks)) :
    SparesDirectory m'.memory dir block flags blocks := by
  intro c hc
  obtain ⟨hend, hframe, hspared⟩ := hspares c (List.mem_cons_of_mem _ hc)
  refine ⟨hend, hframe, fun v hv => (hspared v hv).imp_right ?_⟩
  rintro ⟨hempty, hfilled⟩
  refine ⟨?_, fun w hw => hfilled w (List.mem_cons_of_mem _ hw)⟩
  rw [h.directory v hv, if_neg (hfilled virt List.mem_cons_self)]
  exact hempty

/-- `create_page_table` adds a table when its clear leaves the directory. -/
theorem tableAdded_newTable {m : Machine} {dir virt flags : Nat} {blocks : List Nat}
    (hmax : m.manager.maxBlocks ≤ blockLimit) (hflags : flags < 4294967296)
    (hblock : (allocateBlocks m.manager 1).1 ≠ 0)
    (hspares : ∀ v < 4294967296,
      Spared m.memory dir ((allocateBlocks m.manager 1).1 ||| flags) (virt :: blocks) v) :
    TableAdded m dir virt (allocateBlocks m.manager 1).1 flags
      (newTable m dir virt (allocateBlocks m.manager 1).1 flags (allocateBlocks m.manager 1).2) := by
  obtain ⟨-, hsame, htaken⟩ := allocateBlocks_grows hmax
  obtain ⟨b, htake, -⟩ := htaken hblock
  have hlt : (allocateBlocks m.manager 1).1 < 4294967296 := by
    have hbelow := htake.below
    rw [htake.address]
    unfold blockLimit at hmax
    unfold blockSize
    omega
  have hnonzero : (allocateBlocks m.manager 1).1 ||| flags ≠ 0 := by
    have hle : (allocateBlocks m.manager 1).1 ≤ (allocateBlocks m.manager 1).1 ||| flags :=
      Nat.left_le_or
    omega
  exact ⟨fun v hv => newTable_directory hlt hflags (hspares v hv), hnonzero, hlt, hsame, rfl⟩

/-- **`map_address`**, by induction on the fuel: every level sets one directory entry to
`block | flags`, and the last thing it does is to set the entry of its own `virt`. -/
theorem mapped_mapAddress {dir flags : Nat} (hdir : IsDirectory dir) (hflags : flags < 4294967296) :
    ∀ (fuel : Nat) (m : Machine) (phys virt : Nat) (r : Bool × Machine),
    phys < 4294967296 → virt < 4294967296 → m.manager.maxBlocks ≤ blockLimit →
    TablesApart m.memory dir →
    SparesDirectory m.memory dir virt flags (newTables fuel m dir virt) →
    mapAddress fuel m dir phys virt flags = some r → Mapped m dir phys virt flags r := by
  intro fuel
  induction fuel with
  | zero => exact fun _ _ _ _ _ _ _ _ _ h => nomatch h
  | succ fuel ih =>
    intro m phys virt r hphys hvirt hmax hapart hspares h
    rcases mapAddress_cases h with ⟨hentry, rfl⟩ | ⟨-, -, rfl⟩ | ⟨hentry, hblock, r', hnested, rfl⟩
    · exact mapped_setEntry hdir hapart hphys hvirt hflags hentry
    · -- No block: nothing but the bitmap changes.
      exact ⟨hapart, fun _ _ _ => rfl, fun h => absurd h Bool.false_ne_true,
        fun h => absurd h Bool.false_ne_true, (allocateBlocks_grows hmax).2.1⟩
    · have hfirst : (allocateBlocks m.manager 1).1 ∈ newTables (fuel + 1) m dir virt :=
        first_mem_newTables hvirt hentry hblock
      obtain ⟨-, hframe, hspared⟩ := hspares _ hfirst
      have hadded := tableAdded_newTable hmax hflags hblock hspared
      generalize newTable m dir virt (allocateBlocks m.manager 1).1 flags
        (allocateBlocks m.manager 1).2 = m' at hnested hadded
      rw [newTables_absent hvirt hentry hblock hadded.manager hadded.present] at hspares
      have hspares' := hadded.spares hspares
      generalize (allocateBlocks m.manager 1).1 = block at hframe hnested hadded hspares'
      -- The machine with the new table meets the conditions of the nested call.
      have hapart' : TablesApart m'.memory dir := fun v hv => by
        rw [hadded.directory v hv]
        split
        · exact fun _ => hframe
        · exact hapart v hv
      have hinner := ih m' block block r' hadded.block_lt hadded.block_lt
        (hadded.maxBlocks.trans_le hmax) hapart' hspares' hnested
      have hnew : directoryEntry m'.memory dir virt ≠ 0 := (hadded.entry hvirt).symm ▸ hadded.nonzero
      have hkeptVirt := hinner.kept virt hvirt hnew
      have houter := @mapped_setEntry r'.2 dir phys virt flags hdir hinner.apart hphys hvirt hflags
        (hkeptVirt.symm ▸ hnew)
      refine ⟨houter.apart, fun v hv hv0 => ?_, fun _ _ => ⟨block, ?_⟩, houter.entry,
        hinner.maxBlocks.trans hadded.maxBlocks⟩
      · have hkept := hadded.kept hentry hv hv0
        have hkept' := hinner.kept v hv (hkept.symm ▸ hv0)
        rw [houter.kept v hv (hkept'.trans hkept ▸ hv0), hkept', hkept]
      · rw [houter.kept virt hvirt (hkeptVirt.symm ▸ hnew), hkeptVirt, hadded.entry hvirt]

/-! ## 4. Runs -/

/-- The invariant of a run from the empty directory. -/
theorem tablesApart_reach {dir : Nat} (hdir : IsDirectory dir) {m₀ m : Machine}
    (hmax : m₀.manager.maxBlocks ≤ blockLimit) (hempty : EmptyDirectory m₀.memory dir)
    (h : Reach (MapStep dir) (fun m call => Grantable m dir call) m₀ m) :
    TablesApart m.memory dir ∧ m.manager.maxBlocks ≤ blockLimit := by
  refine @Reach.invariant _ _ _ _ _
    (fun m => TablesApart m.memory dir ∧ m.manager.maxBlocks ≤ blockLimit) ?_ ?_ _ h
  · exact ⟨fun v hv hne => absurd (hempty v hv) hne, hmax⟩
  · rintro m call m' ⟨hapart, hlimit⟩ hok ⟨hmap⟩
    have hmapped := mapped_mapAddress hdir call.flags_lt _ _ _ _ _ call.phys_lt call.virt_lt hlimit
      hapart hok.fresh hmap
    exact ⟨hmapped.apart, hmapped.maxBlocks.trans_le hlimit⟩

/-- **A mapping grants the access it was asked for**, in every run from the empty directory whose
calls meet the condition. -/
theorem access_granted (dir : Nat) (hdir : IsDirectory dir) (m₀ m : Machine)
    (hmax : m₀.manager.maxBlocks ≤ blockLimit) (hempty : EmptyDirectory m₀.memory dir)
    (h : Reach (MapStep dir) (fun m call => Grantable m dir call) m₀ m)
    (call : MapCall) (hok : Grantable m dir call) (m' : Machine)
    (hmap : mapAddress mapFuel m dir call.phys call.virt call.flags = some (true, m'))
    (access : Access) (hasked : allowedBy call.flags access = true) :
    permitted m'.memory dir call.virt access = true := by
  obtain ⟨hapart, hlimit⟩ := tablesApart_reach hdir hmax hempty h
  have hmapped := mapped_mapAddress hdir call.flags_lt _ _ _ _ _ call.phys_lt call.virt_lt hlimit
    hapart hok.fresh hmap
  unfold permitted
  rw [hmapped.entry rfl, allowedBy_or hasked, Bool.and_true]
  by_cases hentry : directoryEntry m.memory dir call.virt = 0
  · obtain ⟨block, hblock⟩ := hmapped.table rfl hentry
    rw [hblock]
    exact allowedBy_or hasked
  · rw [hmapped.kept _ call.virt_lt hentry]
    exact allowedBy_mono (hok.table hentry) hasked

/-! ## 5. A region that a kernel page has opened -/

/-- The directory entry under a user page behind a kernel page. -/
theorem userPage_entry : directoryEntry twoPages.memory 4096 userCall.virt = 0x2003 := by
  decide +kernel

/-- **A user page is refused**: its region was opened for the kernel. -/
theorem user_page_refused : ¬ ∀ (dir : Nat) (m₀ m m' : Machine) (call : MapCall) (access : Access),
    IsDirectory dir → m₀.manager.maxBlocks ≤ blockLimit → EmptyDirectory m₀.memory dir →
    Reach (MapStep dir) (fun _ call => call.flags.testBit 0 = true) m₀ m →
    call.flags.testBit 0 = true →
    mapAddress mapFuel m dir call.phys call.virt call.flags = some (true, m') →
    allowedBy call.flags access = true → permitted m'.memory dir call.virt access = true := by
  intro hall
  have hpermitted := hall 4096 emptyMachine onePage twoPages userCall ⟨false, true⟩
    ⟨by decide, by decide⟩ (by decide) emptyMachine_empty
    (.tail .refl (by decide) (.map onePage_mapped)) (by decide) twoPages_mapped (by decide)
  unfold permitted at hpermitted
  rw [userPage_entry] at hpermitted
  have hrefused : allowedBy 0x2003 ⟨false, true⟩ = false := by decide
  rw [hrefused, Bool.false_and] at hpermitted
  exact Bool.false_ne_true hpermitted

/-- The theorem for the first page of a region, mapped for the user. -/
theorem access_granted_first : ∃ m : Machine,
    mapAddress mapFuel emptyMachine 4096 0x21000 0x801000 7 = some (true, m) ∧
      permitted m.memory 4096 0x801000 ⟨true, true⟩ = true := by
  have htables : newTables mapFuel emptyMachine 4096 0x801000 = [0x2000, 0x3000] := by
    decide +kernel
  have hspares : SparesDirectory emptyMachine.memory 4096 0x801000 7
      (newTables mapFuel emptyMachine 4096 0x801000) := by
    rw [htables]
    refine sparesDirectory_of_apart ?_
    unfold Apart
    decide
  have hok : Grantable emptyMachine 4096 userCall :=
    ⟨fun hentry => absurd (emptyMachine_empty _ userCall.virt_lt) hentry, hspares⟩
  have hmap := eq_some_of_mapped (d := emptyMachine)
    (by decide +kernel : (mapAddress mapFuel emptyMachine 4096 0x21000 0x801000 7).map (·.1) = some true)
  exact ⟨_, hmap, access_granted 4096 ⟨by decide, by decide⟩ emptyMachine emptyMachine (by decide)
    emptyMachine_empty .refl userCall hok _ hmap ⟨true, true⟩ (by decide)⟩

end AmateurOs.Memory
