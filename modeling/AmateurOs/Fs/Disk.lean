/-
# Sectors, bitmaps and inodes on disk

`rw_sectors` and the helper functions of `fs_impl.h` that read and write one block or one inode.
The disk takes 28-bit sector numbers and the sector count is a `uint8_t`; block numbers are
turned into sector numbers in 32-bit arithmetic.

Each operation gets one lemma that says what it does to the disk as a whole, where the numbers
do not wrap (`diskBlocks`): writing a block or an inode is one `blit`, and setting or clearing
a bit changes that bit of the disk, read as one bit string, and no other
(`bitAt_setBitInDiskBlock`, `bitAt_clearBitInDiskBlock`).  The search for a free bit returns the
least clear bit of the bitmap, without the number of its block (`findFirstFree_spec`).
-/
import AmateurOs.Fs.Types

namespace AmateurOs.Fs

open AmateurOs.Lib

/-! ## 1. Sectors and blocks -/

/-- The byte address on disk of a sector. -/
def sectorAddr (sector : Nat) : Nat := sector % 268435456 * fsSectorSize

/-- The bytes `rw_sectors` transfers for a sector count. -/
def transferSize (count : Nat) : Nat := u8 count * fsSectorSize

/-- `rw_sectors` with `READ_WITH_RETRY`: the memory it leaves. -/
def readSectors (disk mem : Bytes) (count sector address : Nat) : Bytes :=
  blit mem address (transferSize count) (slice disk (sectorAddr sector))

/-- `rw_sectors` with `WRITE_WITH_RETRY`: the disk it leaves. -/
def writeSectors (disk mem : Bytes) (count sector address : Nat) : Bytes :=
  blit disk (sectorAddr sector) (transferSize count) (slice mem address)

/-- `block * SECTORS_PER_BLOCK`. -/
def blockSector (block : Nat) : Nat := u32 (block * sectorsPerBlock)

/-- A block read into `temp_block`, with the bytes `after` it in memory. -/
def readBlock (disk after : Bytes) (block : Nat) : Bytes :=
  readSectors disk (fun k => after (k - fsBlockSize)) sectorsPerBlock (blockSector block) 0

/-- `temp_block` written to a block. -/
def writeBlock (disk : Bytes) (block : Nat) (tempBlock : Bytes) : Bytes :=
  writeSectors disk tempBlock sectorsPerBlock (blockSector block) 0

/-- The block numbers whose sectors have 28-bit numbers. -/
def diskBlocks : Nat := 33554432

theorem blockAddr {block : Nat} (h : block < diskBlocks) :
    sectorAddr (blockSector block) = block * 4096 := by
  unfold sectorAddr blockSector sectorsPerBlock fsSectorSize diskBlocks u32 at *
  omega

theorem readBlock_in {disk after : Bytes} {block p : Nat} (h : block < diskBlocks)
    (hp : p < 4096) : readBlock disk after block p = disk (block * 4096 + p) := by
  unfold readBlock readSectors
  rw [blit_in (Nat.zero_le _) (by simpa [transferSize, sectorsPerBlock, u8, fsSectorSize] using hp),
    blockAddr h, slice_apply, Nat.sub_zero]

theorem readBlock_out {disk after : Bytes} {block p : Nat} (hp : 4096 ≤ p) :
    readBlock disk after block p = after (p - 4096) := by
  unfold readBlock readSectors
  rw [blit_out (by simpa [transferSize, sectorsPerBlock, u8, fsSectorSize] using hp), fsBlockSize]

theorem writeBlock_eq {disk tempBlock : Bytes} {block : Nat} (h : block < diskBlocks) :
    writeBlock disk block tempBlock = blit disk (block * 4096) 4096 tempBlock := by
  unfold writeBlock writeSectors
  rw [blockAddr h]
  have hlen : transferSize sectorsPerBlock = 4096 := by decide
  rw [hlen]
  funext p
  unfold blit slice
  simp only [Nat.zero_add]

/-! ## 2. Inodes -/

/-- The sector with inode `id`, and the address of that inode in `temp_sector`. -/
def inodeSector (sb : Superblock) (id : Nat) : Nat :=
  u32 (u32 (sb.firstInodeBlock * sectorsPerBlock) + id / inodesPerSector)

/-- `*((inode_t *)temp_sector + (id % 8))` after that sector is read. -/
def loadInode (disk : Bytes) (sb : Superblock) (id : Nat) : Inode :=
  Packed.load (slice disk (sectorAddr (inodeSector sb id))) (id % inodesPerSector * 64)

/-- Inode `id` of the inode blocks replaced: the sector is read, changed and written. -/
def storeInode (disk : Bytes) (sb : Superblock) (id : Nat) (inode : Inode) : Bytes :=
  let tempSector := slice disk (sectorAddr (inodeSector sb id))
  let tempSector := Packed.store tempSector (id % inodesPerSector * 64) inode
  writeSectors disk tempSector 1 (inodeSector sb id) 0

/-- `inode_from_id`. -/
def inodeFromId (s : State) (id : Nat) : Inode :=
  if id = 0 then noInode else loadInode s.disk s.superblock id

/-- `update_inode_on_disk`. -/
def updateInodeOnDisk (s : State) (inode : Inode) : State :=
  { s with disk := storeInode s.disk s.superblock inode.id inode }

/-- The byte address of inode `id`. -/
def inodeAddr (sb : Superblock) (id : Nat) : Nat := sb.firstInodeBlock * 4096 + id * 64

/-- The inode numbers whose sectors are inside the 28 bits. -/
def InodeFits (sb : Superblock) (id : Nat) : Prop :=
  sb.firstInodeBlock * 8 + id / 8 < 268435456

theorem inodeSectorAddr {sb : Superblock} {id : Nat} (h : InodeFits sb id) :
    sectorAddr (inodeSector sb id) + id % 8 * 64 = inodeAddr sb id := by
  unfold sectorAddr inodeSector inodeAddr InodeFits sectorsPerBlock inodesPerSector fsSectorSize
    u32 at *
  omega

theorem loadInode_eq {disk : Bytes} {sb : Superblock} {id : Nat} (h : InodeFits sb id) :
    loadInode disk sb id = Packed.load disk (inodeAddr sb id) :=
  Packed.load_congr fun k _ => by
    have haddr : sectorAddr (inodeSector sb id) + (id % 8 * 64 + k) = inodeAddr sb id + k := by
      rw [← Nat.add_assoc, inodeSectorAddr h]
    rw [slice_apply, inodesPerSector, haddr]

theorem storeInode_eq {disk : Bytes} {sb : Superblock} {id : Nat} {inode : Inode}
    (h : InodeFits sb id) :
    storeInode disk sb id inode = Packed.store disk (inodeAddr sb id) inode := by
  have hlen : transferSize 1 = 512 := by decide
  have haddr := inodeSectorAddr h
  funext p
  unfold storeInode writeSectors Packed.store inodesPerSector
  rw [hlen, ← haddr]
  -- Inside the sector the bytes are those of the changed sector.
  by_cases hp : sectorAddr (inodeSector sb id) ≤ p ∧ p < sectorAddr (inodeSector sb id) + 512
  · obtain ⟨q, rfl⟩ := Nat.exists_eq_add_of_le hp.1
    rw [blit_add (by omega), slice_apply, Nat.zero_add]
    unfold blit
    split
    · rw [if_pos (by omega)]
      congr 1
      omega
    · rw [if_neg (by omega)]
      rfl
  · rw [blit_out (by omega), blit_out (by omega)]

/-! ## 3. Bits -/

/-- `set_bit_in_disk_block`. -/
def setBitInDiskBlock (disk : Bytes) (block bit : Nat) : Bytes :=
  let tempBlock := readBlock disk (fun _ => 0) block
  let bit := bit % bitsPerBlock
  let chunk := 4 * (bit / 32)
  writeBlock disk block (put32 tempBlock chunk (le32 tempBlock chunk ||| 1 <<< (bit % 32)))

/-- `clear_bit_in_disk_block`. -/
def clearBitInDiskBlock (disk : Bytes) (block bit : Nat) : Bytes :=
  let tempBlock := readBlock disk (fun _ => 0) block
  let bit := bit % bitsPerBlock
  let chunk := 4 * (bit / 32)
  writeBlock disk block
    (put32 tempBlock chunk (le32 tempBlock chunk &&& (0xFFFFFFFF ^^^ 1 <<< (bit % 32))))

/-- `clear_bit_in_inode_bitmap`. -/
def clearBitInInodeBitmap (disk : Bytes) (sb : Superblock) (bit : Nat) : Bytes :=
  clearBitInDiskBlock disk (u32 (sb.firstInodeBitmapBlock + bit / bitsPerBlock))
    (bit % bitsPerBlock)

/-- `clear_bit_in_data_bitmap`. -/
def clearBitInDataBitmap (disk : Bytes) (sb : Superblock) (bit : Nat) : Bytes :=
  clearBitInDiskBlock disk (u32 (sb.firstDataBitmapBlock + bit / bitsPerBlock))
    (bit % bitsPerBlock)

/-- The bits of a block that was rewritten, in the bit string of the disk. -/
theorem bitAt_writeBlock {disk tempBlock : Bytes} {block : Nat} (h : block < diskBlocks)
    (i : Nat) : bitAt (writeBlock disk block tempBlock) i =
      if i / 32768 = block then bitAt tempBlock (i % 32768) else bitAt disk i := by
  rw [writeBlock_eq h]
  split
  · next hi =>
    unfold bitAt
    rw [blit_in (by omega) (by omega), (by omega : i / 8 - block * 4096 = i % 32768 / 8),
      (by omega : i % 32768 % 8 = i % 8)]
  · next hi =>
    exact bitAt_congr (blit_out (by omega))

/-- The bits of a block in memory. -/
theorem bitAt_readBlock {disk after : Bytes} {block i : Nat} (h : block < diskBlocks)
    (hi : i < 32768) : bitAt (readBlock disk after block) i = bitAt disk (block * 32768 + i) := by
  unfold bitAt
  rw [readBlock_in h (by omega), (by omega : (block * 32768 + i) / 8 = block * 4096 + i / 8),
    (by omega : (block * 32768 + i) % 8 = i % 8)]

/-- One word of a block replaced, as bits of the disk. -/
theorem bitAt_rewriteWord {disk : Bytes} {block bit v : Nat} (h : block < diskBlocks)
    (hv : v < 4294967296) (i : Nat) :
    bitAt (writeBlock disk block
      (put32 (readBlock disk (fun _ => 0) block) (4 * (bit % 32768 / 32)) v)) i =
        if i / 32 = (block * 32768 + bit % 32768) / 32 then v.testBit (i % 32)
        else bitAt disk i := by
  rw [bitAt_writeBlock h, bitAt_put32 _ _ _ _ hv]
  by_cases hb : i / 32768 = block
  · rw [if_pos hb]
    by_cases hw : i % 32768 / 32 = bit % 32768 / 32
    · rw [if_pos hw, if_pos (by omega), (by omega : i % 32768 % 32 = i % 32)]
    · rw [if_neg hw, if_neg (by omega), bitAt_readBlock h (by omega)]
      congr 1
      omega
  · rw [if_neg hb, if_neg (by omega)]

/-- The word of `temp_block` that is changed, bit by bit. -/
theorem testBit_word {disk : Bytes} {block bit k : Nat} (h : block < diskBlocks) (hk : k < 32) :
    (le32 (readBlock disk (fun _ => 0) block) (4 * (bit % 32768 / 32))).testBit k =
      bitAt disk ((block * 32768 + bit % 32768) / 32 * 32 + k) := by
  have hword := testBit_le32 (readBlock disk (fun _ => 0) block) (bit % 32768 / 32 * 32 + k)
  rw [(by omega : (bit % 32768 / 32 * 32 + k) / 32 = bit % 32768 / 32),
    (by omega : (bit % 32768 / 32 * 32 + k) % 32 = k), bitAt_readBlock h (by omega)] at hword
  rw [hword]
  congr 1
  omega

/-- **Setting a bit** sets it in the bit string of the disk, and changes nothing else. -/
theorem bitAt_setBitInDiskBlock {disk : Bytes} {block bit : Nat} (h : block < diskBlocks)
    (i : Nat) : bitAt (setBitInDiskBlock disk block bit) i =
      (bitAt disk i || decide (i = block * 32768 + bit % 32768)) := by
  have hpow : 1 <<< (bit % 32768 % 32) < 4294967296 := by
    rw [Nat.one_shiftLeft]
    exact Nat.pow_lt_pow_right (a := 2) (n := 32) (by decide) (Nat.mod_lt _ (by decide))
  have hv := Nat.or_lt_two_pow (n := 32) (le32_lt (readBlock disk (fun _ => 0) block)
    (4 * (bit % 32768 / 32))) hpow
  unfold setBitInDiskBlock bitsPerBlock
  simp only []
  rw [bitAt_rewriteWord h hv]
  split
  · next hw =>
    rw [Nat.testBit_or, testBit_word h (Nat.mod_lt _ (by decide)), Nat.one_shiftLeft,
      Nat.testBit_two_pow, ← hw, (by omega : i / 32 * 32 + i % 32 = i)]
    congr 2
    exact propext ⟨fun heq => by omega, fun heq => by omega⟩
  · next hw =>
    rw [decide_eq_false (by omega), Bool.or_false]

/-- **Clearing a bit** clears it in the bit string of the disk, and changes nothing else. -/
theorem bitAt_clearBitInDiskBlock {disk : Bytes} {block bit : Nat} (h : block < diskBlocks)
    (i : Nat) : bitAt (clearBitInDiskBlock disk block bit) i =
      (bitAt disk i && decide (i ≠ block * 32768 + bit % 32768)) := by
  have hv : le32 (readBlock disk (fun _ => 0) block) (4 * (bit % 32768 / 32)) &&&
      (0xFFFFFFFF ^^^ 1 <<< (bit % 32768 % 32)) < 4294967296 :=
    Nat.lt_of_le_of_lt Nat.and_le_left (le32_lt _ _)
  unfold clearBitInDiskBlock bitsPerBlock
  simp only []
  rw [bitAt_rewriteWord h hv]
  split
  · next hw =>
    have hones : (0xFFFFFFFF : Nat).testBit (i % 32) = true := by
      have h32 : (0xFFFFFFFF : Nat) = 2 ^ 32 - 1 := by decide
      rw [h32, Nat.testBit_two_pow_sub_one]
      simpa using Nat.mod_lt _ (by decide)
    rw [Nat.testBit_and, Nat.testBit_xor, testBit_word h (Nat.mod_lt _ (by decide)),
      Nat.one_shiftLeft, Nat.testBit_two_pow, ← hw, (by omega : i / 32 * 32 + i % 32 = i), hones,
      Bool.true_xor, ← decide_not]
    congr 2
    exact propext ⟨fun heq => by omega, fun heq => by omega⟩
  · next hw =>
    rw [decide_eq_true (by omega), Bool.and_true]

/-! ## 4. The search for a free bit -/

/-- The search in one 32-bit word of `temp_block`. -/
def firstFreeInChunk (tempBlock : Bytes) (j : Nat) : Option Nat :=
  let chunk := le32 tempBlock (4 * j)
  if chunk ≠ 0xFFFFFFFF then (List.range 32).find? fun k => !chunk.testBit k else none

/-- The search in one block. -/
def firstFreeInBlock (tempBlock : Bytes) : Option Nat :=
  (List.range 1024).findSome? fun j => (firstFreeInChunk tempBlock j).map (j * 32 + ·)

/-- `find_first_free_bit_in_disk_blocks`: the number of the bit in its block, 0 when there is
none. -/
def findFirstFreeBitInDiskBlocks (disk : Bytes) (startBlock lengthBlocks : Nat) : Nat :=
  let search := (List.range lengthBlocks).findSome? fun i =>
    firstFreeInBlock (readBlock disk (fun _ => 0) (u32 (startBlock + i)))
  search.getD 0

theorem firstFreeInChunk_spec (m : Bytes) (j : Nat) :
    FirstClear (fun k => bitAt m (j * 32 + k)) 32 (firstFreeInChunk m j) :=
  firstClearInWord_spec m j

theorem firstFreeInBlock_spec (m : Bytes) : FirstClear (bitAt m) 32768 (firstFreeInBlock m) := by
  have h : FirstClear (bitAt m) (1024 * 32) (firstFreeInBlock m) :=
    @firstClear_range (bitAt m) 32 (firstFreeInChunk m) 1024 fun j _ => firstFreeInChunk_spec m j
  simpa only [Nat.reduceMul] using h

/-- **The search** returns the least clear bit of the bitmap, as a number in its block; and 0,
which is the number of a bit that is set, when the bitmap is full. -/
theorem findFirstFree_spec {disk : Bytes} {start len : Nat} (h : start + len ≤ diskBlocks) :
    ∃ r, FirstClear (fun b => bitAt disk (start * 32768 + b)) (len * 32768) r ∧
      findFirstFreeBitInDiskBlocks disk start len = (r.map (· % 32768)).getD 0 := by
  have hblock : ∀ i < len, FirstClear (fun b => bitAt disk (start * 32768 + (i * 32768 + b)))
      32768 (firstFreeInBlock (readBlock disk (fun _ => 0) (u32 (start + i)))) := by
    intro i hi
    refine (firstFreeInBlock_spec _).congr fun b hb => ?_
    unfold diskBlocks at h
    have hfits : start + i < diskBlocks := by
      unfold diskBlocks
      omega
    have hpos : (start + i) * 32768 + b = start * 32768 + (i * 32768 + b) := by omega
    rw [u32_eq (by omega), bitAt_readBlock hfits hb, hpos]
  have hall := @firstClear_range (fun b => bitAt disk (start * 32768 + b)) 32768 _ len hblock
  have hnum := @findSome_unshift (fun b => bitAt disk (start * 32768 + b)) 32768 _ len hblock
  refine ⟨_, hall, ?_⟩
  unfold findFirstFreeBitInDiskBlocks
  simp only [hnum]

end AmateurOs.Fs
