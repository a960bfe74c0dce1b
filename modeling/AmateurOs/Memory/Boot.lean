/-
# Memory at boot: what the bitmap offers after the setup

A model of the memory setup of `prekernel_main` (`src/3rdstage.c`): everything is in use at
first, the type-1 entries of the BIOS memory map are made available, and four ranges are reserved
again.  `Exposed` is a closed form of the blocks that are free afterwards (`exposed_iff`).

Three roundings and one omission decide whether such a block may be handed out:

* an entry that is not aligned starts inside its first block, which is freed all the same;
* the reservation of the bitmap is rounded down to whole blocks, so its last part is not covered;
* `memset` stops at the last whole byte of the bitmap, and the bits behind it stay as they were;
* no reservation covers the kernel image.

`memory_safe_iff` says that nothing else goes wrong; `kernel_offered` is a memory map of 128 MiB
under which the kernel's own blocks are free.  The blocks that paging allocates before the
framebuffer is reserved count as later allocations here.
-/
import AmateurOs.Memory.Counter

namespace AmateurOs.Memory

open AmateurOs.Lib

/-! ## 1. The setup -/

/-- `MEMMAP_AREA`. -/
def memmapArea : Nat := 0x30000

/-- `KERNEL_ADDRESS`. -/
def kernelAddress : Nat := 0x100000

/-- `FONT_ADDRESS`. -/
def fontAddress : Nat := 0xD000

/-- `SMAP_entry_t`, as far as it is read. -/
structure SmapEntry where
  baseAddress : Nat
  length : Nat
  type : Nat

/-- What the setup finds: the memory map, the blocks of the font file, the graphics mode and the
bytes that lie at `MEMMAP_AREA`; and the size of the kernel image. -/
structure Boot where
  entries : List SmapEntry
  nonempty : entries ≠ []
  fontBlocks : Nat
  yResolution : Nat
  linearBytesPerScanline : Nat
  physicalBasePointer : Nat
  memory : Bytes
  kernelSize : Nat

/-- `total_memory`. -/
def totalMemory (boot : Boot) : Nat :=
  let last := boot.entries.getLast boot.nonempty
  sub32 (u32 (last.baseAddress + last.length)) 1

/-- `fb_size_in_pages`. -/
def fbSizeInPages (boot : Boot) : Nat :=
  let fbSizeInBytes := u32 (boot.yResolution * boot.linearBytesPerScanline)
  let pages := fbSizeInBytes / blockSize
  let pages := if pages % blockSize > 0 then pages + 1 else pages
  u32 (pages * 2)

/-- The loop over the entries. -/
def initializeEntries (entries : List SmapEntry) (m : Manager) : Manager :=
  entries.foldl (fun m e =>
    if e.type = 1 then initializeMemoryRegion m (u32 e.baseAddress) (u32 e.length) else m) m

/-- The memory setup of `prekernel_main`. -/
def memorySetup (boot : Boot) : Manager :=
  let m := initializeMemoryManager boot.memory (totalMemory boot)
  let m := initializeEntries boot.entries m
  let m := deinitializeMemoryRegion m 0 0x12000
  let m := deinitializeMemoryRegion m memmapArea (m.maxBlocks / blocksPerByte)
  let m := deinitializeMemoryRegion m fontAddress (u32 (boot.fontBlocks * blockSize))
  deinitializeMemoryRegion m boot.physicalBasePointer (u32 (fbSizeInPages boot * blockSize))

/-! ## 2. The free blocks -/

/-- `max_blocks`. -/
def Boot.maxBlocks (boot : Boot) : Nat := totalMemory boot / blockSize

/-- A block is one of the whole blocks of a range, counted from the block its start lies in. -/
def InRegion (b baseAddress size : Nat) : Prop :=
  baseAddress / blockSize ≤ b ∧ b < baseAddress / blockSize + size / blockSize

instance (b baseAddress size : Nat) : Decidable (InRegion b baseAddress size) :=
  inferInstanceAs (Decidable (_ ∧ _))

/-- A type-1 entry makes the block available. -/
def Freed (entries : List SmapEntry) (b : Nat) : Prop :=
  ∃ e ∈ entries, e.type = 1 ∧ InRegion b (u32 e.baseAddress) (u32 e.length)

/-- One of the four reservations covers the block. -/
def Reserved (boot : Boot) (b : Nat) : Prop :=
  InRegion b 0 0x12000 ∨ InRegion b memmapArea (boot.maxBlocks / blocksPerByte) ∨
  InRegion b fontAddress (u32 (boot.fontBlocks * blockSize)) ∨
  InRegion b boot.physicalBasePointer (u32 (fbSizeInPages boot * blockSize))

/-- A block of the bitmap whose bit `memset` leaves, and which is clear. -/
def LeftClear (boot : Boot) (b : Nat) : Prop :=
  boot.maxBlocks / 8 * 8 ≤ b ∧ bitAt boot.memory b = false

/-- **The blocks that are offered**: made available or left clear, and not reserved. -/
structure Exposed (boot : Boot) (b : Nat) : Prop where
  below : b < boot.maxBlocks
  free : Freed boot.entries b ∨ LeftClear boot b
  unreserved : ¬ Reserved boot b

theorem bitAt_deinitializeMemoryRegion (m : Manager) (baseAddress size b : Nat) :
    bitAt (deinitializeMemoryRegion m baseAddress size).memoryMap b
      = (bitAt m.memoryMap b || decide (InRegion b baseAddress size)) :=
  bitAt_setRun ..

theorem maxBlocks_deinitializeMemoryRegion (m : Manager) (baseAddress size : Nat) :
    (deinitializeMemoryRegion m baseAddress size).maxBlocks = m.maxBlocks := maxBlocks_setRun ..

/-- A region frees its blocks and sets the bit of block 0. -/
theorem bitAt_initializeMemoryRegion (m : Manager) (baseAddress size b : Nat) :
    bitAt (initializeMemoryRegion m baseAddress size).memoryMap b
      = (bitAt m.memoryMap b && decide (¬ InRegion b baseAddress size) || decide (b = 0)) := by
  rw [initializeMemoryRegion_eq, bitAt_setBlock, bitAt_unsetRun]
  rfl

theorem maxBlocks_initializeEntries (entries : List SmapEntry) : ∀ m : Manager,
    (initializeEntries entries m).maxBlocks = m.maxBlocks := by
  induction entries with
  | nil => exact fun _ => rfl
  | cons e entries ih =>
    intro m
    refine (ih _).trans ?_
    beta_reduce
    split
    · exact maxBlocks_initializeMemoryRegion ..
    · rfl

/-- A block other than block 0 is clear after the loop if it was clear or an entry frees it. -/
theorem initializeEntries_clear {b : Nat} (hb : b ≠ 0) (entries : List SmapEntry) :
    ∀ m : Manager, bitAt (initializeEntries entries m).memoryMap b = false ↔
      bitAt m.memoryMap b = false ∨ Freed entries b := by
  induction entries with
  | nil => simp [initializeEntries, Freed]
  | cons e entries ih =>
    intro m
    have hcons : Freed (e :: entries) b ↔
        (e.type = 1 ∧ InRegion b (u32 e.baseAddress) (u32 e.length)) ∨ Freed entries b :=
      List.exists_mem_cons_iff ..
    refine (ih _).trans ?_
    rw [hcons, ← or_assoc]
    refine or_congr_left ?_
    beta_reduce
    split
    · next htype =>
      rw [bitAt_initializeMemoryRegion, decide_eq_false hb, Bool.or_false, Bool.and_eq_false_iff,
        decide_eq_false_iff_not, not_not]
      exact or_congr_right (and_iff_right htype).symm
    · next htype => exact (or_iff_left fun h => htype h.1).symm

theorem maxBlocks_memorySetup (boot : Boot) : (memorySetup boot).maxBlocks = boot.maxBlocks := by
  unfold memorySetup
  simp only [maxBlocks_deinitializeMemoryRegion, maxBlocks_initializeEntries]
  rfl

/-- **The free blocks after the setup** are the exposed ones. -/
theorem exposed_iff (boot : Boot) {b : Nat} (hb : b < boot.maxBlocks) :
    bitAt (memorySetup boot).memoryMap b = false ↔ Exposed boot b := by
  have hmax : (deinitializeMemoryRegion (initializeEntries boot.entries
      (initializeMemoryManager boot.memory (totalMemory boot))) 0 0x12000).maxBlocks
        = boot.maxBlocks := by
    rw [maxBlocks_deinitializeMemoryRegion, maxBlocks_initializeEntries]
    rfl
  have hinit : bitAt (initializeMemoryManager boot.memory (totalMemory boot)).memoryMap b = false ↔
      LeftClear boot b := by
    rw [bitAt_initialized, Bool.or_eq_false_iff, decide_eq_false_iff_not, Nat.not_lt]
    rfl
  unfold memorySetup
  simp only [bitAt_deinitializeMemoryRegion, hmax, Bool.or_eq_false_iff, decide_eq_false_iff_not]
  constructor
  · rintro ⟨⟨⟨⟨hclear, hlow⟩, hmap⟩, hfont⟩, hframe⟩
    have hzero : b ≠ 0 := by
      rintro rfl
      exact hlow (by decide)
    rw [initializeEntries_clear hzero, hinit] at hclear
    refine ⟨hb, hclear.symm, ?_⟩
    rintro (h | h | h | h)
    exacts [hlow h, hmap h, hfont h, hframe h]
  · rintro ⟨-, hfree, hunreserved⟩
    have hzero : b ≠ 0 := by
      rintro rfl
      exact hunreserved (Or.inl (by decide))
    rw [initializeEntries_clear hzero, hinit]
    exact ⟨⟨⟨⟨hfree.symm, fun h => hunreserved (.inl h)⟩, fun h => hunreserved (.inr (.inl h))⟩,
      fun h => hunreserved (.inr (.inr (.inl h)))⟩, fun h => hunreserved (.inr (.inr (.inr h)))⟩

/-! ## 3. What may be handed out -/

/-- A block lies entirely inside a type-1 entry. -/
def Available (boot : Boot) (b : Nat) : Prop :=
  ∃ e ∈ boot.entries, e.type = 1 ∧
    e.baseAddress ≤ b * blockSize ∧ b * blockSize + blockSize ≤ e.baseAddress + e.length

/-- **A block that may be handed out**: available memory, and neither kernel nor bitmap. -/
structure Safe (boot : Boot) (b : Nat) : Prop where
  available : Available boot b
  kernel : Apart (b * blockSize, blockSize) (kernelAddress, boot.kernelSize)
  bitmap : Apart (b * blockSize, blockSize) (memmapArea, (boot.maxBlocks + 7) / 8)

/-- **When the setup reserves enough**: the kernel's blocks, the block in which the bitmap ends
and the blocks in which unaligned entries begin are not offered, nor is a block that is left
clear outside every entry. -/
structure Reserves (boot : Boot) : Prop where
  kernel : ∀ b, 256 ≤ b → b < 256 + (boot.kernelSize + 4095) / 4096 → ¬ Exposed boot b
  bitmap : boot.maxBlocks % 32768 ≠ 0 → ¬ Exposed boot (48 + boot.maxBlocks / 32768)
  unaligned : ∀ e ∈ boot.entries, e.type = 1 → e.baseAddress % 4096 ≠ 0 → 4096 ≤ e.length →
    Exposed boot (e.baseAddress / 4096) → Available boot (e.baseAddress / 4096)
  leftClear : ∀ b, LeftClear boot b → ¬ Freed boot.entries b → Exposed boot b → Available boot b

/-- An exposed block that an entry frees lies inside it, unless the entry begins in the block. -/
theorem Reserves.available {boot : Boot} (h : Reserves boot)
    (hsmall : ∀ e ∈ boot.entries, e.baseAddress < 4294967296 ∧ e.length < 4294967296) {b : Nat}
    (hexposed : Exposed boot b) : Available boot b := by
  by_cases hfreed : Freed boot.entries b
  · obtain ⟨e, hmem, htype, hregion⟩ := hfreed
    obtain ⟨hbase, hlength⟩ := hsmall e hmem
    unfold InRegion at hregion
    rw [u32_eq hbase, u32_eq hlength] at hregion
    unfold blockSize at hregion
    by_cases hfirst : b = e.baseAddress / 4096 ∧ e.baseAddress % 4096 ≠ 0
    · obtain ⟨rfl, hrest⟩ := hfirst
      exact h.unaligned e hmem htype hrest (by omega) hexposed
    · refine ⟨e, hmem, htype, ?_⟩
      unfold blockSize
      omega
  · exact h.leftClear b (hexposed.free.resolve_left hfreed) hfreed hexposed

/-- Under the condition every exposed block may be handed out. -/
theorem Reserves.safe {boot : Boot} (h : Reserves boot)
    (hsmall : ∀ e ∈ boot.entries, e.baseAddress < 4294967296 ∧ e.length < 4294967296) {b : Nat}
    (hexposed : Exposed boot b) : Safe boot b := by
  refine ⟨h.available hsmall hexposed, ?_, ?_⟩
  · -- The kernel begins with a block.
    have hkernel := h.kernel b
    unfold Apart blockSize kernelAddress
    simp only []
    by_contra hmeet
    exact hkernel (by omega) (by omega) hexposed
  · -- Every block of the bitmap but the last, partial one is reserved.
    have hmap : ¬ InRegion b memmapArea (boot.maxBlocks / blocksPerByte) := fun hin =>
      hexposed.unreserved (.inr (.inl hin))
    have hlast := h.bitmap
    unfold InRegion memmapArea blocksPerByte blockSize at hmap
    unfold Apart memmapArea blockSize
    simp only []
    by_contra hmeet
    have hb : b = 48 + boot.maxBlocks / 32768 := by omega
    exact hlast (by omega) (hb ▸ hexposed)

/-- If every exposed block may be handed out, the setup reserves enough. -/
theorem reserves_of_safe {boot : Boot} (h : ∀ b, Exposed boot b → Safe boot b) :
    Reserves boot where
  kernel := by
    intro b hlow hhigh hexposed
    have hapart := (h b hexposed).kernel
    unfold Apart blockSize kernelAddress at hapart
    simp only [] at hapart
    omega
  bitmap := by
    intro hpartial hexposed
    have hapart := (h _ hexposed).bitmap
    unfold Apart blockSize memmapArea at hapart
    simp only [] at hapart
    omega
  unaligned := fun _ _ _ _ _ hexposed => (h _ hexposed).available
  leftClear := fun _ _ _ hexposed => (h _ hexposed).available

/-! ## 4. The whole boot -/

/-- **Memory in use at boot is never handed out**: every block that is free after the setup may be
handed out, and so may every block that `allocate_blocks(1)` returns later. -/
structure BootSafe (boot : Boot) : Prop where
  free : ∀ b < boot.maxBlocks, bitAt (memorySetup boot).memoryMap b = false → Safe boot b
  later : ∀ s : Session, Reach FrameStep (fun _ _ => True) ⟨memorySetup boot, []⟩ s →
    (allocateBlocks s.manager 1).1 ≠ 0 →
    ∃ b, (allocateBlocks s.manager 1).1 = b * blockSize ∧ Safe boot b

/-- The setup leaves block 0 in use. -/
theorem bitAt_memorySetup_zero (boot : Boot) : bitAt (memorySetup boot).memoryMap 0 = true := by
  unfold memorySetup
  simp only [bitAt_deinitializeMemoryRegion]
  have hzero : decide (InRegion 0 0 0x12000) = true := by decide
  rw [hzero]
  simp only [Bool.or_true, Bool.true_or]

theorem Boot.maxBlocks_le (boot : Boot) : boot.maxBlocks ≤ blockLimit := by
  have hlt : totalMemory boot < 4294967296 := u32_lt _
  unfold Boot.maxBlocks blockSize blockLimit
  omega

/-- **Memory in use at boot is never handed out exactly when the setup reserves enough.** -/
theorem memory_safe_iff (boot : Boot)
    (hsmall : ∀ e ∈ boot.entries, e.baseAddress < 4294967296 ∧ e.length < 4294967296) :
    BootSafe boot ↔ Reserves boot := by
  constructor
  · intro h
    exact reserves_of_safe fun b hexposed =>
      h.free b hexposed.below ((exposed_iff boot hexposed.below).mpr hexposed)
  · intro h
    refine ⟨fun b hb hclear => h.safe hsmall ((exposed_iff boot hb).mp hclear),
      fun s hreach hne => ?_⟩
    have hmax : (memorySetup boot).maxBlocks ≤ blockLimit :=
      (maxBlocks_memorySetup boot).trans_le boot.maxBlocks_le
    have hzero := bitAt_memorySetup_zero boot
    obtain ⟨hexcl, hsame⟩ := exclusive_reach hmax hzero hreach
    obtain ⟨b, haddress, -, hbelow, -, hfree⟩ := hexcl.result (hsame ▸ hmax) hzero hne
    rw [hsame, maxBlocks_memorySetup] at hbelow
    have hb : b < boot.maxBlocks := Nat.lt_of_lt_of_le hbelow (Nat.div_mul_le_self _ _)
    exact ⟨b, haddress, h.safe hsmall ((exposed_iff boot hb).mp hfree)⟩

/-- A memory map of 128 MiB with a hole below 1 MiB, and a kernel of 64 KiB. -/
def plainBoot : Boot where
  entries := [⟨0, 0x9F000, 1⟩, ⟨0x9F000, 0x61000, 2⟩, ⟨0x100000, 0x7F00000, 1⟩]
  nonempty := List.cons_ne_nil _ _
  fontBlocks := 8
  yResolution := 1080
  linearBytesPerScanline := 7680
  physicalBasePointer := 0xFD000000
  memory := fun _ => 0xFF
  kernelSize := 0x10000

/-- The first block of the kernel is offered. -/
theorem plainBoot_exposed : Exposed plainBoot 256 := by
  refine ⟨by decide, Or.inl ⟨⟨0x100000, 0x7F00000, 1⟩, ?_, rfl, by decide⟩, ?_⟩
  · exact List.mem_cons_of_mem _ (List.mem_cons_of_mem _ List.mem_cons_self)
  · unfold Reserved
    decide

theorem plainBoot_small :
    ∀ e ∈ plainBoot.entries, e.baseAddress < 4294967296 ∧ e.length < 4294967296 := by
  decide

/-- **The kernel is offered** under a plain memory map. -/
theorem kernel_offered : ¬ ∀ boot : Boot,
    (∀ e ∈ boot.entries, e.baseAddress < 4294967296 ∧ e.length < 4294967296) →
    BootSafe boot := by
  intro hall
  have hexposed := plainBoot_exposed
  have hsafe := (hall plainBoot plainBoot_small).free 256 hexposed.below
    ((exposed_iff plainBoot hexposed.below).mpr hexposed)
  have hapart : ¬ Apart (256 * blockSize, blockSize) (kernelAddress, 0x10000) := by
    unfold Apart
    decide
  exact hapart hsafe.kernel

/-- The theorem at that memory map: the setup does not reserve enough. -/
theorem memory_safe_plain : BootSafe plainBoot ↔ False :=
  (memory_safe_iff plainBoot plainBoot_small).trans
    (iff_false_intro fun h => h.kernel 256 (by decide) (by decide) plainBoot_exposed)

end AmateurOs.Memory
