/-
# The structures of the file system

The packed structs of `include/fs/fs.h`, as records of bytes with their fields by name, and the
state of `include/fs/fs_impl.h`: the disk and the globals `superblock`, `root_inode` and
`current_dir_inode`.

Two things the C code reads are not part of that state.  `current_timestamp` reads what the
clock interrupt wrote, and a few scans read bytes past the end of the object they scan: the
65th entry of `temp_block`, a byte past `temp_sector`, the byte after a string literal.  An `Env`
holds them; every call gets its own.
-/
import AmateurOs.Lib.Packed

namespace AmateurOs.Fs

open AmateurOs.Lib

/-! ## 1. Sizes -/

/-- `FS_BLOCK_SIZE`. -/
def fsBlockSize : Nat := 4096

/-- `FS_SECTOR_SIZE`. -/
def fsSectorSize : Nat := 512

/-- `SECTORS_PER_BLOCK`. -/
def sectorsPerBlock : Nat := 8

/-- `BITS_PER_BLOCK`. -/
def bitsPerBlock : Nat := 32768

/-- `INODES_PER_SECTOR`. -/
def inodesPerSector : Nat := 8

/-- `DIR_ENTRIES_PER_BLOCK`. -/
def dirEntriesPerBlock : Nat := 64

/-- `sizeof(dir_entry_t)`. -/
def dirEntrySize : Nat := 64

/-- `SUPERBLOCK_DISK_SECTOR`. -/
def superblockDiskSector : Nat := 8

/-- `bytes_to_blocks`. -/
def bytesToBlocks (bytes : Nat) : Nat :=
  if bytes = 0 then 0
  else if bytes ≤ fsBlockSize then 1
  else bytes / fsBlockSize + (if bytes % fsBlockSize > 0 then 1 else 0)

/-- `bytes_to_sectors`. -/
def bytesToSectors (bytes : Nat) : Nat :=
  if bytes = 0 then 0
  else if bytes ≤ fsSectorSize then 1
  else bytes / fsSectorSize + (if bytes % fsSectorSize > 0 then 1 else 0)

theorem bytesToBlocks_eq (b : Nat) : bytesToBlocks b = (b + 4095) / 4096 := by
  unfold bytesToBlocks fsBlockSize
  split
  · omega
  · split
    · omega
    · split <;> omega

/-! ## 2. Inodes -/

/-- `inode_t`. -/
abbrev Inode := Packed 64

namespace Inode

/-- `id`. -/
def id (i : Inode) : Nat := i.get32 0

/-- `type`. -/
def type (i : Inode) : Nat := i.get8 4

/-- `size_bytes`. -/
def sizeBytes (i : Inode) : Nat := i.get32 5

/-- `size_sectors`. -/
def sizeSectors (i : Inode) : Nat := i.get32 9

/-- `extent[k].first_block`; `extent[4]` is the pair of indirect block numbers. -/
def extentFirst (i : Inode) (k : Nat) : Nat := i.get32 (21 + 8 * k)

/-- `extent[k].length_blocks`. -/
def extentLength (i : Inode) (k : Nat) : Nat := i.get32 (25 + 8 * k)

/-- `ref_count`. -/
def refCount (i : Inode) : Nat := i.get8 61

def setId (i : Inode) (v : Nat) : Inode := i.set32 0 v

def setType (i : Inode) (v : Nat) : Inode := i.set8 4 v

def setSizeBytes (i : Inode) (v : Nat) : Inode := i.set32 5 v

def setSizeSectors (i : Inode) (v : Nat) : Inode := i.set32 9 v

/-- `last_modified_timestamp = t`. -/
def setTimestamp (i : Inode) (t : Packed 8) : Inode := i.setPart 13 t

def setExtentFirst (i : Inode) (k v : Nat) : Inode := i.set32 (21 + 8 * k) v

def setExtentLength (i : Inode) (k v : Nat) : Inode := i.set32 (25 + 8 * k) v

def setRefCount (i : Inode) (v : Nat) : Inode := i.set8 61 v

@[simp] theorem id_setSizeBytes (i : Inode) (v : Nat) : (i.setSizeBytes v).id = i.id :=
  (Packed.same_set32 (Or.inr (by decide))).get32

@[simp] theorem id_setSizeSectors (i : Inode) (v : Nat) : (i.setSizeSectors v).id = i.id :=
  (Packed.same_set32 (Or.inr (by decide))).get32

@[simp] theorem sizeBytes_setSizeBytes (i : Inode) (v : Nat) :
    (i.setSizeBytes v).sizeBytes = u32 v := Packed.get32_set32 i (by decide)

@[simp] theorem sizeBytes_setSizeSectors (i : Inode) (v : Nat) :
    (i.setSizeSectors v).sizeBytes = i.sizeBytes := (Packed.same_set32 (Or.inr (by decide))).get32

@[simp] theorem id_setRefCount (i : Inode) (v : Nat) : (i.setRefCount v).id = i.id :=
  (Packed.same_set8 (Or.inr (by decide))).get32

@[simp] theorem refCount_setRefCount (i : Inode) (v : Nat) : (i.setRefCount v).refCount = u8 v :=
  Packed.get8_set8 i (by decide)

end Inode

/-- `(inode_t){0}`. -/
def noInode : Inode := Packed.zero

@[simp] theorem id_noInode : noInode.id = 0 := Packed.get32_zero 0

/-- `FILETYPE_FILE`. -/
def filetypeFile : Nat := 0

/-- `FILETYPE_DIR`. -/
def filetypeDir : Nat := 1

/-! ## 3. The superblock -/

/-- `superblock_t`. -/
abbrev Superblock := Packed 64

namespace Superblock

/-- `num_inodes`. -/
def numInodes (s : Superblock) : Nat := s.get32 0

/-- `first_inode_bitmap_block`. -/
def firstInodeBitmapBlock (s : Superblock) : Nat := s.get16 4

/-- `first_data_bitmap_block`. -/
def firstDataBitmapBlock (s : Superblock) : Nat := s.get16 6

/-- `num_inode_bitmap_blocks`. -/
def numInodeBitmapBlocks (s : Superblock) : Nat := s.get16 8

/-- `num_data_bitmap_blocks`. -/
def numDataBitmapBlocks (s : Superblock) : Nat := s.get16 10

/-- `first_inode_block`. -/
def firstInodeBlock (s : Superblock) : Nat := s.get32 12

/-- `first_data_block`. -/
def firstDataBlock (s : Superblock) : Nat := s.get32 16

/-- `num_inode_blocks`. -/
def numInodeBlocks (s : Superblock) : Nat := s.get16 20

/-- `direct_extents_per_inode`. -/
def directExtentsPerInode (s : Superblock) : Nat := s.get8 36

/-- `first_free_inode_bit`. -/
def firstFreeInodeBit (s : Superblock) : Nat := s.get32 39

/-- `first_free_data_bit`. -/
def firstFreeDataBit (s : Superblock) : Nat := s.get32 43

def setRootInodePointer (s : Superblock) (v : Nat) : Superblock := s.set32 31 v

def setFirstFreeInodeBit (s : Superblock) (v : Nat) : Superblock := s.set32 39 v

def setFirstFreeDataBit (s : Superblock) (v : Nat) : Superblock := s.set32 43 v

end Superblock

/-! ## 4. The state -/

/-- What a call reads besides the state. -/
structure Env where
  /-- The timestamps that the calls of `current_timestamp` return, in order. -/
  clock : Nat → Packed 8
  /-- The bytes after `temp_block`. -/
  afterTempBlock : Bytes
  /-- The bytes after `temp_sector`. -/
  afterTempSector : Bytes
  /-- The bytes after the string literals `"."`, `".."` and `"/"`. -/
  afterDot : Bytes
  afterDotDot : Bytes
  afterSlash : Bytes
  /-- The address of `root_inode`. -/
  rootInodeAddress : Nat

/-- The disk and the globals of `fs_impl.h`. -/
structure State where
  disk : Bytes
  superblock : Superblock
  /-- The sector at `SUPERBLOCK_ADDRESS`, which starts with a copy of the superblock. -/
  superblockArea : Packed 512
  rootInode : Inode
  currentDirInode : Inode

end AmateurOs.Fs
