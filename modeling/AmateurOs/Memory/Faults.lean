/-
# The page-fault handler

A model of `page_fault_handler` of `include/interrupts/exceptions.h`.  The handler maps a new block
at the faulting address with the flags `PTE_PRESENT | PTE_READ_WRITE`, whatever the error code
says, and returns to the instruction that faulted.

That instruction succeeds when its access is permitted now.  An access of user mode never is: the
new entry has no user bit.  An access of the kernel is, unless the region had a table already whose
directory entry refuses it (`fault_resolved_iff`).  What is taken from the bitmap is the block of
the page and the tables that appear in the directory (`blocks_mapAddress`).
-/
import AmateurOs.Memory.Mapping
import AmateurOs.Memory.Pages

namespace AmateurOs.Memory

open AmateurOs.Lib

/-! ## 1. The handler -/

/-- What the access of an error code needs of an entry: bit 1 for a write, bit 2 for user mode.
A write of the kernel needs the write bit only under `writeProtect`, the bit `WP` of CR0, which
`initialize_virtual_memory_manager` does not set. -/
def faultAccess (writeProtect : Bool) (errorCode : Nat) : Access where
  write := errorCode.testBit 1 && (errorCode.testBit 2 || writeProtect)
  user := errorCode.testBit 2

/-- Bit 0 of the error code is clear, and an entry is not present. -/
structure NotPresentFault (memory : Bytes) (dir badAddress errorCode : Nat) : Prop where
  address_lt : badAddress < 4294967296
  code : errorCode.testBit 0 = false
  entry : (directoryEntry memory dir badAddress).testBit 0 = false ∨
    (le32 memory (entryAddress (directoryEntry memory dir badAddress) badAddress)).testBit 0 = false

/-- How the handler ends: it prints a message and halts, or it returns. -/
inductive FaultOutcome
  | halts (message : String)
  | returns (m : Machine)

/-- `PTE_PRESENT | PTE_READ_WRITE`. -/
def faultFlags : Nat := 3

/-- `page_fault_handler` with `badAddress` in CR2. -/
def pageFaultHandler (fuel : Nat) (m : Machine) (dir badAddress _errorCode : Nat) :
    Option FaultOutcome :=
  let physAddress := allocateBlocks m.manager 1
  if physAddress.1 = 0 then some (.halts "COULD NOT ALLOCATE PAGES")
  else
    (mapAddress fuel { m with manager := physAddress.2 } dir physAddress.1 badAddress
      faultFlags).map fun r => if r.1 then .returns r.2 else .halts "COULD NOT MAP PAGES"

/-- **The handler returns** when it got a block and mapped it. -/
theorem pageFaultHandler_returns {fuel : Nat} {m m' : Machine} {dir badAddress errorCode : Nat} :
    pageFaultHandler fuel m dir badAddress errorCode = some (.returns m') ↔
      (allocateBlocks m.manager 1).1 ≠ 0 ∧
        mapAddress fuel { m with manager := (allocateBlocks m.manager 1).2 } dir
          (allocateBlocks m.manager 1).1 badAddress faultFlags = some (true, m') := by
  unfold pageFaultHandler
  by_cases hnull : (allocateBlocks m.manager 1).1 = 0
  · simp only [if_pos hnull]
    exact iff_of_false (fun h => nomatch h) fun h => h.1 hnull
  · simp only [if_neg hnull]
    constructor
    · intro h
      obtain ⟨⟨mapped, m''⟩, hmap, hout⟩ := Option.map_eq_some_iff.mp h
      cases mapped with
      | false => cases hout
      | true =>
        cases hout
        exact ⟨hnull, hmap⟩
    · rintro ⟨-, hmap⟩
      rw [hmap]
      rfl

/-- The handler ends. -/
theorem pageFaultHandler_total {m : Machine} (hmax : m.manager.maxBlocks ≤ blockLimit)
    (dir badAddress errorCode : Nat) :
    ∃ outcome, pageFaultHandler mapFuel m dir badAddress errorCode = some outcome := by
  unfold pageFaultHandler
  by_cases hnull : (allocateBlocks m.manager 1).1 = 0
  · simp only [if_pos hnull]
    exact ⟨_, rfl⟩
  · have hlimit := (allocateBlocks_grows hmax).2.1.trans_le hmax
    obtain ⟨r, hr⟩ := mapAddress_returns dir faultFlags mapFuel
      { m with manager := (allocateBlocks m.manager 1).2 } (allocateBlocks m.manager 1).1 badAddress
      hlimit (Nat.lt_succ_of_le ((Nat.sub_le _ _).trans hlimit))
    simp only [if_neg hnull, hr]
    exact ⟨_, rfl⟩

/-! ## 2. What a call takes from the bitmap -/

/-- A bit that is set where it was not is the block of a table that the directory did not have. -/
def TakesTables (m : Machine) (dir : Nat) (m' : Machine) : Prop :=
  ∀ i, bitAt m'.manager.memoryMap i = true → bitAt m.manager.memoryMap i = true ∨
    ∃ v < 4294967296, directoryEntry m.memory dir v = 0 ∧ directoryEntry m'.memory dir v ≠ 0 ∧
      i = frameOf (directoryEntry m'.memory dir v) / 4096

/-- What `allocate_blocks(1)` returns is a block, and no other bit is set; block 0 is never taken
when it is in use. -/
theorem allocateBlocks_takes {manager : Manager} (hmax : manager.maxBlocks ≤ blockLimit)
    (hzero : bitAt manager.memoryMap 0 = true) {i : Nat}
    (hi : bitAt (allocateBlocks manager 1).2.memoryMap i = true) :
    bitAt manager.memoryMap i = true ∨ (allocateBlocks manager 1).1 ≠ 0 ∧
      (allocateBlocks manager 1).1 % 4096 = 0 ∧ i = (allocateBlocks manager 1).1 / 4096 := by
  rcases allocateBlocks_one hmax with ⟨hnone, -⟩ | ⟨b, htake⟩
  · rw [hnone] at hi
    exact Or.inl hi
  · rw [htake.bits, Bool.or_eq_true, decide_eq_true_iff] at hi
    refine hi.imp_right ?_
    rintro rfl
    have hpos : i ≠ 0 := by
      rintro rfl
      exact absurd (hzero.symm.trans htake.clear) (by decide)
    rw [htake.address]
    unfold blockSize
    exact ⟨by omega, Nat.mul_mod_left _ _, (Nat.mul_div_cancel _ (by decide)).symm⟩

/-- `map_address` clears no bit. -/
theorem bits_mapAddress {dir flags : Nat} : ∀ (fuel : Nat) (m : Machine) (phys virt : Nat)
    (r : Bool × Machine), m.manager.maxBlocks ≤ blockLimit →
    mapAddress fuel m dir phys virt flags = some r →
    ∀ i, bitAt m.manager.memoryMap i = true → bitAt r.2.manager.memoryMap i = true := by
  intro fuel
  induction fuel with
  | zero => exact fun _ _ _ _ _ h => nomatch h
  | succ fuel ih =>
    intro m phys virt r hmax h i hi
    obtain ⟨hgrows, hsame, -⟩ := allocateBlocks_grows hmax
    rcases mapAddress_cases h with ⟨-, rfl⟩ | ⟨-, -, rfl⟩ | ⟨-, -, r', hnested, rfl⟩
    · exact hi
    · exact hgrows i hi
    · exact ih _ _ _ r' (hsame.trans_le hmax) hnested i (hgrows i hi)

/-- Setting an entry takes nothing from the bitmap and leaves the directory. -/
theorem TakesTables.setEntry {m m' : Machine} {dir phys virt flags : Nat} (hdir : IsDirectory dir)
    (hframe : frameOf (directoryEntry m'.memory dir virt) ≠ dir) (h : TakesTables m dir m') :
    TakesTables m dir (setEntry m' dir phys virt flags) := by
  intro i hi
  refine (h i hi).imp_right ?_
  rintro ⟨v, hv, hnone, hentry, hblock⟩
  have hsame := @setEntry_directory m' dir phys virt flags hdir hframe v hv
  exact ⟨v, hv, hnone, hsame.symm ▸ hentry, hsame.symm ▸ hblock⟩

/-- **Every block that `map_address` takes is that of a new table**, by induction on the fuel: the
block of a level is the table of its region, and those of the nested call are in regions that had
no table either. -/
theorem blocks_mapAddress {dir flags : Nat} (hdir : IsDirectory dir) (hflags : flags < 4096) :
    ∀ (fuel : Nat) (m : Machine) (phys virt : Nat) (r : Bool × Machine),
    virt < 4294967296 → m.manager.maxBlocks ≤ blockLimit →
    bitAt m.manager.memoryMap 0 = true → TablesApart m.memory dir →
    SparesDirectory m.memory dir virt flags (newTables fuel m dir virt) →
    mapAddress fuel m dir phys virt flags = some r → TakesTables m dir r.2 := by
  intro fuel
  induction fuel with
  | zero => exact fun _ _ _ _ _ _ _ _ _ h => nomatch h
  | succ fuel ih =>
    intro m phys virt r hvirt hmax hzero hapart hspares h
    rcases mapAddress_cases h with
      ⟨hentry, rfl⟩ | ⟨-, hnull, rfl⟩ | ⟨hentry, hblock, r', hnested, rfl⟩
    · exact TakesTables.setEntry hdir (hapart virt hvirt hentry) fun _ hi => Or.inl hi
    · intro i hi
      refine (allocateBlocks_takes hmax hzero hi).imp_right fun htaken => ?_
      exact absurd hnull htaken.1
    · have hfirst : (allocateBlocks m.manager 1).1 ∈ newTables (fuel + 1) m dir virt :=
        first_mem_newTables hvirt hentry hblock
      obtain ⟨-, hframe, hspared⟩ := hspares _ hfirst
      have hflags' : flags < 4294967296 := by omega
      have htaken := fun i => @allocateBlocks_takes m.manager hmax hzero i
      have hadded := tableAdded_newTable hmax hflags' hblock hspared
      have hzero' := (allocateBlocks_grows hmax).1 0 hzero
      generalize newTable m dir virt (allocateBlocks m.manager 1).1 flags
        (allocateBlocks m.manager 1).2 = m' at hnested hadded
      rw [newTables_absent hvirt hentry hblock hadded.manager hadded.present] at hspares
      have hspares' := hadded.spares hspares
      rw [← hadded.manager] at htaken hzero'
      generalize (allocateBlocks m.manager 1).1 = block at hframe hnested hadded hspares' htaken
      have hapart' : TablesApart m'.memory dir := fun v hv => by
        rw [hadded.directory v hv]
        split
        · exact fun _ => hframe
        · exact hapart v hv
      have hlimit := hadded.maxBlocks.trans_le hmax
      have hinner := ih m' block block r' hadded.block_lt hlimit hzero' hapart' hspares' hnested
      have hmapped := mapped_mapAddress hdir hflags' fuel m' block block r' hadded.block_lt
        hadded.block_lt hlimit hapart' hspares' hnested
      have hnew : directoryEntry m'.memory dir virt ≠ 0 :=
        (hadded.entry hvirt).symm ▸ hadded.nonzero
      have hvirtEntry : directoryEntry r'.2.memory dir virt = block ||| flags :=
        (hmapped.kept virt hvirt hnew).trans (hadded.entry hvirt)
      have hvirtSet : directoryEntry r'.2.memory dir virt ≠ 0 := hvirtEntry.symm ▸ hadded.nonzero
      refine TakesTables.setEntry hdir (hmapped.apart virt hvirt hvirtSet) fun i hi => ?_
      rcases hinner i hi with hset | ⟨v, hv, hnone, hset, hblockOf⟩
      · refine (htaken i hset).imp_right ?_
        rintro ⟨-, haligned, rfl⟩
        refine ⟨virt, hvirt, hentry, hvirtSet, ?_⟩
        rw [hvirtEntry, frameOf_or_flags haligned hflags]
      · refine Or.inr ⟨v, hv, ?_, hset, hblockOf⟩
        by_contra hold
        exact hold ((hadded.kept hentry hv hold).symm.trans hnone)

/-! ## 3. When the fault is resolved -/

/-- **A fault is resolved**: the access is permitted, and what was taken is the block of the page
and the blocks of new tables. -/
structure Resolved (writeProtect : Bool) (m : Machine) (dir badAddress errorCode : Nat)
    (m' : Machine) : Prop where
  granted : permitted m'.memory dir badAddress (faultAccess writeProtect errorCode) = true
  taken : ∀ i, bitAt m'.manager.memoryMap i = true → bitAt m.manager.memoryMap i = true ∨
    i = frameOf (getPhysicalAddress m'.memory dir badAddress) / 4096 ∨
    ∃ v < 4294967296, directoryEntry m.memory dir v = 0 ∧ directoryEntry m'.memory dir v ≠ 0 ∧
      i = frameOf (directoryEntry m'.memory dir v) / 4096

/-- The access is one of the kernel, and a table that is there does not refuse it. -/
structure Resolvable (writeProtect : Bool) (m : Machine) (dir badAddress errorCode : Nat) :
    Prop where
  kernel : errorCode.testBit 2 = false
  table : directoryEntry m.memory dir badAddress ≠ 0 →
    allowedBy (directoryEntry m.memory dir badAddress) (faultAccess writeProtect errorCode) = true

/-- The blocks that the handler's call takes for tables. -/
def faultTables (m : Machine) (dir badAddress : Nat) : List Nat :=
  newTables mapFuel { m with manager := (allocateBlocks m.manager 1).2 } dir badAddress

/-- The flags of the handler allow every access of the kernel and none of user mode. -/
theorem allowedBy_faultFlags {address : Nat} (haligned : address % 4096 = 0) (access : Access) :
    allowedBy (address ||| faultFlags) access = !access.user := by
  have hbit : ∀ k < 3, (address ||| faultFlags).testBit k = faultFlags.testBit k := by
    intro k hk
    rw [Nat.testBit_or, testBit_aligned haligned (by omega), Bool.false_or]
  unfold allowedBy
  rw [hbit 0 (by decide), hbit 1 (by decide), hbit 2 (by decide)]
  cases access.write <;> cases access.user <;> rfl

/-- The conditions on the directory and the bitmap. -/
structure Guarded (m : Machine) (dir : Nat) : Prop where
  apart : TablesApart m.memory dir
  blocks : m.manager.maxBlocks ≤ blockLimit
  zero : bitAt m.manager.memoryMap 0 = true

/-- They hold in every run from the empty directory in which the clears of the tables that are created
leave the directory. -/
theorem guarded_reach {dir : Nat} (hdir : IsDirectory dir) {m₀ m : Machine}
    (hmax : m₀.manager.maxBlocks ≤ blockLimit) (hzero : bitAt m₀.manager.memoryMap 0 = true)
    (hempty : EmptyDirectory m₀.memory dir)
    (h : Reach (MapStep dir) (fun m call =>
      SparesDirectory m.memory dir call.virt call.flags
        (newTables mapFuel m dir call.virt)) m₀ m) : Guarded m dir := by
  refine @Reach.invariant _ _ _ _ _ (fun m => Guarded m dir) ?_ ?_ _ h
  · exact ⟨fun v hv hne => absurd (hempty v hv) hne, hmax, hzero⟩
  · rintro m call m' ⟨hapart, hlimit, hinUse⟩ hok ⟨hmap⟩
    have hmapped := mapped_mapAddress hdir call.flags_lt _ _ _ _ _ call.phys_lt call.virt_lt hlimit
      hapart hok hmap
    exact ⟨hmapped.apart, hmapped.maxBlocks.trans_le hlimit,
      bits_mapAddress _ _ _ _ _ hlimit hmap 0 hinUse⟩

/-- The handler in a state that meets the conditions. -/
theorem Guarded.resolved_iff {writeProtect : Bool} {dir : Nat} (hdir : IsDirectory dir)
    {m m' : Machine} (hguarded : Guarded m dir) {badAddress errorCode : Nat}
    (haddress : badAddress < 4294967296)
    (hspares : SparesDirectory m.memory dir badAddress faultFlags (faultTables m dir badAddress))
    (hreturns : pageFaultHandler mapFuel m dir badAddress errorCode = some (.returns m')) :
    Resolved writeProtect m dir badAddress errorCode m' ↔
      Resolvable writeProtect m dir badAddress errorCode := by
  obtain ⟨hapart, hlimit, hinUse⟩ := hguarded
  obtain ⟨hblock, hmap⟩ := pageFaultHandler_returns.mp hreturns
  obtain ⟨hgrows, hsame, htaken⟩ := allocateBlocks_grows hlimit
  obtain ⟨b, htake, -⟩ := htaken hblock
  have haligned : (allocateBlocks m.manager 1).1 % 4096 = 0 := by
    rw [htake.address]
    exact Nat.mul_mod_left _ _
  have hphys : (allocateBlocks m.manager 1).1 < 4294967296 := by
    have hbelow := htake.below
    rw [htake.address]
    unfold blockLimit at hlimit
    unfold blockSize
    omega
  have hmapped := @mapped_mapAddress dir faultFlags hdir (by decide) mapFuel
    { m with manager := (allocateBlocks m.manager 1).2 } _ _ _ hphys haddress
    (hsame.trans_le hlimit) hapart hspares hmap
  have htables := @blocks_mapAddress dir faultFlags hdir (by decide) mapFuel
    { m with manager := (allocateBlocks m.manager 1).2 } _ _ _ haddress
    (hsame.trans_le hlimit) (hgrows 0 hinUse) hapart hspares hmap
  have hpage := hmapped.entry rfl
  constructor
  · rintro ⟨hgranted, -⟩
    unfold permitted at hgranted
    rw [hpage, allowedBy_faultFlags haligned, Bool.and_eq_true, Bool.not_eq_true'] at hgranted
    exact ⟨hgranted.2, fun hentry => hmapped.kept badAddress haddress hentry ▸ hgranted.1⟩
  · rintro ⟨hkernel, htable⟩
    have hflags : allowedBy faultFlags (faultAccess writeProtect errorCode) = true := by
      have hall := @allowedBy_faultFlags 0 (by decide) (faultAccess writeProtect errorCode)
      rw [Nat.zero_or] at hall
      exact hall.trans (congrArg Bool.not hkernel)
    -- The entry of the region allows the access, and is not 0.
    have hdirectory : allowedBy (directoryEntry m'.memory dir badAddress)
        (faultAccess writeProtect errorCode) = true ∧
          directoryEntry m'.memory dir badAddress ≠ 0 := by
      by_cases hentry : directoryEntry m.memory dir badAddress = 0
      · obtain ⟨block, hnew⟩ := hmapped.table rfl hentry
        have hle : faultFlags ≤ block ||| faultFlags := Nat.right_le_or
        rw [hnew]
        exact ⟨allowedBy_or hflags, Nat.pos_iff_ne_zero.mp (Nat.lt_of_lt_of_le (by decide) hle)⟩
      · rw [hmapped.kept badAddress haddress hentry]
        exact ⟨htable hentry, hentry⟩
    refine ⟨?_, fun i hi => ?_⟩
    · unfold permitted
      rw [hpage, allowedBy_or hflags, Bool.and_true]
      exact hdirectory.1
    · rcases htables i hi with hset | hnew
      · refine (allocateBlocks_takes hlimit hinUse hset).imp_right ?_
        rintro ⟨-, -, rfl⟩
        refine Or.inl ?_
        unfold getPhysicalAddress
        rw [if_neg hdirectory.2, hpage, frameOf_or_flags haligned (by decide)]
      · exact Or.inr (Or.inr hnew)

/-- **The handler resolves a fault** exactly when it is one of the kernel that the table of its
region, where there is one, does not refuse. -/
theorem fault_resolved_iff (writeProtect : Bool) (dir : Nat) (hdir : IsDirectory dir)
    (m₀ m m' : Machine) (hmax : m₀.manager.maxBlocks ≤ blockLimit)
    (hzero : bitAt m₀.manager.memoryMap 0 = true) (hempty : EmptyDirectory m₀.memory dir)
    (h : Reach (MapStep dir) (fun m call =>
      SparesDirectory m.memory dir call.virt call.flags
        (newTables mapFuel m dir call.virt)) m₀ m)
    (badAddress errorCode : Nat) (hfault : NotPresentFault m.memory dir badAddress errorCode)
    (hspares : SparesDirectory m.memory dir badAddress faultFlags (faultTables m dir badAddress))
    (hreturns : pageFaultHandler mapFuel m dir badAddress errorCode = some (.returns m')) :
    Resolved writeProtect m dir badAddress errorCode m' ↔
      Resolvable writeProtect m dir badAddress errorCode :=
  (guarded_reach hdir hmax hzero hempty h).resolved_iff hdir hfault.address_lt hspares hreturns

/-- The blocks for the first page of a region of the empty directory. -/
theorem emptyMachine_tables : faultTables emptyMachine 4096 0x800000 = [0x3000, 0x4000] ∧
    (mapAddress mapFuel { emptyMachine with manager := (allocateBlocks emptyMachine.manager 1).2 }
      4096 (allocateBlocks emptyMachine.manager 1).1 0x800000 faultFlags).map (·.1)
        = some true := by
  decide +kernel

theorem emptyMachine_spares : SparesDirectory emptyMachine.memory 4096 0x800000 faultFlags
    (faultTables emptyMachine 4096 0x800000) := by
  rw [emptyMachine_tables.1]
  refine sparesDirectory_of_apart ?_
  unfold Apart
  decide

theorem emptyMachine_fault {errorCode : Nat} (h : errorCode.testBit 0 = false) :
    NotPresentFault emptyMachine.memory 4096 0x800000 errorCode :=
  ⟨by decide, h, Or.inl rfl⟩

/-- The handler returns from a fault there. -/
theorem emptyMachine_returns (errorCode : Nat) :
    ∃ m', pageFaultHandler mapFuel emptyMachine 4096 0x800000 errorCode = some (.returns m') :=
  ⟨_, pageFaultHandler_returns.mpr
    ⟨by decide +kernel, @eq_some_of_mapped _ emptyMachine _ emptyMachine_tables.2⟩⟩

/-- The theorem for a write of the kernel. -/
theorem fault_resolved_write : ∃ m',
    pageFaultHandler mapFuel emptyMachine 4096 0x800000 2 = some (.returns m') ∧
      Resolved true emptyMachine 4096 0x800000 2 m' := by
  obtain ⟨m', hreturns⟩ := emptyMachine_returns 2
  refine ⟨m', hreturns, (fault_resolved_iff true 4096 ⟨by decide, by decide⟩ emptyMachine
    emptyMachine m' (by decide) (by decide) emptyMachine_empty .refl 0x800000 2
    (emptyMachine_fault (by decide)) emptyMachine_spares hreturns).mpr
      ⟨by decide, fun hentry => absurd rfl hentry⟩⟩

/-! ## 4. A read of user mode -/

/-- **A read of user mode faults again**: the handler returns, and the page refuses it. -/
theorem user_fault_repeats : ¬ ∀ (writeProtect : Bool) (dir : Nat) (m₀ m m' : Machine)
    (badAddress errorCode : Nat), IsDirectory dir → m₀.manager.maxBlocks ≤ blockLimit →
    bitAt m₀.manager.memoryMap 0 = true → EmptyDirectory m₀.memory dir →
    Reach (MapStep dir) (fun _ _ => True) m₀ m →
    NotPresentFault m.memory dir badAddress errorCode →
    pageFaultHandler mapFuel m dir badAddress errorCode = some (.returns m') →
    Resolved writeProtect m dir badAddress errorCode m' := by
  intro hall
  have hdir : IsDirectory 4096 := ⟨by decide, by decide⟩
  obtain ⟨m', hreturns⟩ := emptyMachine_returns 4
  have hresolved := hall false 4096 emptyMachine emptyMachine m' 0x800000 4 hdir (by decide)
    (by decide) emptyMachine_empty .refl (emptyMachine_fault (by decide)) hreturns
  have hguarded : Guarded emptyMachine 4096 :=
    ⟨fun v hv hne => absurd (emptyMachine_empty v hv) hne, by decide, by decide⟩
  have hresolvable := (hguarded.resolved_iff hdir (by decide) emptyMachine_spares hreturns).mp
    hresolved
  exact absurd hresolvable.kernel (by decide)

end AmateurOs.Memory
