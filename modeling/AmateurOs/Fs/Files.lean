/-
# Creating, deleting and renaming a file

`fs_create_file`, `fs_delete_file` and `fs_rename_file` of `include/fs/fs_impl.h`, cut at the
comments of the source into one definition for each part.

* `growDirectory` keeps the index that the source keeps: its loop over the direct extents leaves
  `last_used_extent` one past the last of them, so `parent_inode.extent[last_used_extent]` is
  the pair of indirect block numbers, and the test for a next direct extent fails.
* In `fs_delete_file` the scratch block `temp_block` is zero only while the first block of the
  file is overwritten: clearing a bit of the bitmap loads the bitmap into it (`wipeBlock`).
* What a name of 60 characters or more overwrites inside `temp_block` is modelled; what it
  overwrites behind `temp_block` is not.
-/
import AmateurOs.Fs.Path

namespace AmateurOs.Fs

open AmateurOs.Lib

/-! ## 1. Allocation -/

/-- A free inode bit is taken: its number becomes the inode number, and the next free one is
looked for. -/
def takeInodeBit (s : State) : Nat × State :=
  let id := s.superblock.firstFreeInodeBit
  let disk := setBitInDiskBlock s.disk
    (u32 (s.superblock.firstInodeBitmapBlock + id / bitsPerBlock)) id
  let next := findFirstFreeBitInDiskBlocks disk s.superblock.firstInodeBitmapBlock
    s.superblock.numInodeBitmapBlocks
  (id, { s with disk := disk, superblock := s.superblock.setFirstFreeInodeBit next })

/-- A free data bit is taken, and the next free one is looked for. -/
def takeDataBit (s : State) : Nat × State :=
  let bit := s.superblock.firstFreeDataBit
  let disk := setBitInDiskBlock s.disk
    (u32 (s.superblock.firstDataBitmapBlock + bit / bitsPerBlock)) bit
  let next := findFirstFreeBitInDiskBlocks disk s.superblock.firstDataBitmapBlock
    s.superblock.numDataBitmapBlocks
  (bit, { s with disk := disk, superblock := s.superblock.setFirstFreeDataBit next })

/-- `new_inode` when it is written to disk. -/
def newInode (env : Env) (id block : Nat) : Inode :=
  ((((noInode.setId id).setType filetypeFile).setTimestamp (env.clock 0)).setExtentFirst 0
    block).setExtentLength 0 1

/-! ## 2. A directory grows by a block -/

/-- `last_used_block` after the loop over the direct extents. -/
def lastUsedBlock (sb : Superblock) (parent : Inode) : Nat :=
  (List.range sb.directExtentsPerInode).foldl (fun last i =>
    if parent.extentFirst i ≠ 0 then
      sub32 (u32 (parent.extentFirst i + parent.extentLength i)) 1
    else last) 0

/-- The sector of the data bitmap in which `bit_to_check` is looked for. -/
def bitmapSector (sb : Superblock) (bitToCheck : Nat) : Nat :=
  sb.firstDataBitmapBlock * sectorsPerBlock + bitToCheck / 8 / fsSectorSize

/-- `temp_sector` when the bit is tested, with the bytes after it. -/
def bitmapTempSector (env : Env) (s : State) (bitToCheck : Nat) : Bytes :=
  readSectors s.disk (fun k => env.afterTempSector (k - fsSectorSize)) 1
    (bitmapSector s.superblock bitToCheck) 0

/-- `temp_sector[bit_to_check / 8] & (1 << (bit_to_check % 8))`. -/
def nextBitInUse (env : Env) (s : State) (bitToCheck : Nat) : Bool :=
  (bitmapTempSector env s bitToCheck (bitToCheck / 8)).toNat.testBit (bitToCheck % 8)

/-- The new block of the directory: the parent inode and the state left. -/
def growDirectory (env : Env) (s : State) (parent : Inode) : Inode × State :=
  let lastUsedExtent := s.superblock.directExtentsPerInode
  let bitToCheck := u32 (lastUsedBlock s.superblock parent + 1)
  let grown :=
    if !nextBitInUse env s bitToCheck then
      let tempSector := bitmapTempSector env s bitToCheck
      let byte := tempSector (bitToCheck / 8) ||| UInt8.ofNat (1 <<< (bitToCheck % 8))
      let tempSector := blit tempSector (bitToCheck / 8) 1 fun _ => byte
      (parent.setExtentLength lastUsedExtent (u32 (parent.extentLength lastUsedExtent + 1)),
        lastUsedExtent,
        { s with disk := writeSectors s.disk tempSector 1 (bitmapSector s.superblock bitToCheck) 0 })
    else
      let taken := takeDataBit s
      if lastUsedExtent + 1 < s.superblock.directExtentsPerInode then
        ((parent.setExtentFirst (lastUsedExtent + 1) taken.1).setExtentLength (lastUsedExtent + 1) 1,
          lastUsedExtent + 1, taken.2)
      else (parent, lastUsedExtent, taken.2)
  let parent := grown.1
  let lastUsedExtent := grown.2.1
  let s := grown.2.2
  let blockToUse := sub32 (u32 (parent.extentFirst lastUsedExtent
    + parent.extentLength lastUsedExtent)) 1
  (parent, { s with disk := writeBlock s.disk blockToUse fun _ => 0 })

/-! ## 3. The new entry -/

/-- The scan of one block for an empty entry: its index, if there is one, and `num_entries`
after it. -/
def scanSlots (tempBlock : Bytes) (totalEntries : Nat) : Nat → Nat → Nat → Option Nat × Nat
  | 0, _, numEntries => (none, numEntries)
  | fuel + 1, count, numEntries =>
    if numEntries < totalEntries then
      if entryId tempBlock count ≠ 0 then
        scanSlots tempBlock totalEntries fuel (count + 1) (numEntries + 1)
      else (some count, numEntries)
    else (none, numEntries)

/-- The loops over extents and blocks: the block and the entry to use. -/
def findSlot (disk : Bytes) (totalEntries : Nat) : List Nat → Nat → Option (Nat × Nat)
  | [], _ => none
  | j :: js, numEntries =>
    match scanSlots (readBlock disk (fun _ => 0) j) totalEntries dirEntriesPerBlock 0 numEntries with
    | (some count, _) => some (j, count)
    | (none, numEntries) => findSlot disk totalEntries js numEntries

/-- The blocks of the direct extents, in order. -/
def directBlocks (sb : Superblock) (inode : Inode) : List Nat :=
  (List.range sb.directExtentsPerInode).flatMap (extentBlocks inode)

/-- An entry written: id, then name. -/
def writeEntry (tempBlock : Bytes) (count id : Nat) (name : List UInt8) : Bytes :=
  strcpyAt (put32 tempBlock (count * dirEntrySize) id) (count * dirEntrySize + 4) name

/-- The entry of the new file, written in the first empty one. -/
def addEntry (s : State) (parent : Inode) (id : Nat) (fileName : List UInt8) : State :=
  match findSlot s.disk (parent.sizeBytes / dirEntrySize)
      (directBlocks s.superblock parent) 0 with
  | some (j, count) =>
    let tempBlock := writeEntry (readBlock s.disk (fun _ => 0) j) count id fileName
    { s with disk := writeBlock s.disk j tempBlock }
  | none => s

/-- The copies of the parent in `current_dir_inode` and `root_inode`. -/
def refreshCaches (s : State) (parent : Inode) : State :=
  { s with
    currentDirInode := if s.currentDirInode.id = parent.id then parent else s.currentDirInode
    rootInode := if s.rootInode.id = parent.id then parent else s.rootInode }

/-- `update_superblock`. -/
def updateSuperblock (s : State) : State :=
  let area := s.superblockArea.setPart 0 s.superblock
  { s with
    superblockArea := area
    disk := writeSectors s.disk area.bytes 1 superblockDiskSector 0 }

/-- `init_fs_vars` of `kernel.c`. -/
def initFsVars (env : Env) (s : State) : State :=
  let superblock : Superblock := Packed.load s.superblockArea.bytes 0
  let tempSector := slice s.disk (sectorAddr (u32 (superblock.firstInodeBlock * 8)))
  let rootInode : Inode := Packed.load tempSector 64
  { s with
    superblock := superblock.setRootInodePointer env.rootInodeAddress
    rootInode := rootInode
    currentDirInode := rootInode }

/-! ## 4. `fs_create_file` -/

/-- The special names that `fs_create_file` refuses. -/
def createRefused (env : Env) (path : CString) : Bool :=
  memcmpEq path.bytes (cstr [dot] env.afterDot) 2 ||
  memcmpEq path.bytes (cstr [dot, dot] env.afterDotDot) 3 ||
  memcmpEq path.bytes (cstr [slash] env.afterSlash) 2

/-- The parent with its size grown by an entry. -/
def enlarged (env : Env) (parent : Inode) : Inode :=
  let parent := parent.setSizeBytes (u32 (parent.sizeBytes + dirEntrySize))
  (parent.setSizeSectors (bytesToSectors parent.sizeBytes)).setTimestamp (env.clock 1)

/-- Whether the new entry makes the parent larger by a block. -/
def needsBlock (parent : Inode) : Bool :=
  bytesToBlocks (u32 (parent.sizeBytes + dirEntrySize)) > bytesToBlocks parent.sizeBytes

/-- `fs_create_file`: the inode returned and the state left. -/
def fsCreateFile (env : Env) (s : State) (path : CString) : Inode × State :=
  if createRefused env path then (noInode, s)
  else
    let parent := parentInodeFromPath env s path
    if parent.id = 0 then (noInode, s)
    else
      let fileName := lastNameInPath path
      let (id, s) := takeInodeBit s
      let (block, s) := takeDataBit s
      let new := newInode env id block
      let s := updateInodeOnDisk s new
      let (parent, s) := if needsBlock parent then growDirectory env s parent else (parent, s)
      let parent := enlarged env parent
      let s := updateInodeOnDisk s parent
      let s := addEntry s parent new.id fileName
      (new, updateSuperblock (refreshCaches s parent))

/-! ## 5. `fs_delete_file` -/

/-- The special names that `fs_delete_file` and `fs_rename_file` refuse. -/
def specialPath (path : CString) : Bool :=
  strncmpEq path.bytes (cstr [slash] fun _ => 0) 2 ||
  strncmpEq path.bytes (cstr [dot] fun _ => 0) 2 ||
  strncmpEq path.bytes (cstr [dot, dot] fun _ => 0) 3

/-- The blocks of the direct extents, counted with an index from the start of each. -/
def indexedBlocks (sb : Superblock) (inode : Inode) : List Nat :=
  (List.range sb.directExtentsPerInode).flatMap fun i =>
    (List.range (inode.extentLength i)).map fun j => u32 (inode.extentFirst i + j)

/-- `temp_block` written over one block of the file, and its bit cleared: the disk and
`temp_block` left. -/
def wipeBlock (sb : Superblock) (st : Bytes × Bytes) (block : Nat) : Bytes × Bytes :=
  let disk := writeBlock st.1 block st.2
  let disk := clearBitInDataBitmap disk sb block
  (disk, readBlock disk (fun _ => 0) (u32 (sb.firstDataBitmapBlock + block / bitsPerBlock)))

/-- The data blocks, the inode and the inode bit of the file are cleared. -/
def releaseInode (s : State) (inode : Inode) : State :=
  let wiped := (indexedBlocks s.superblock inode).foldl (wipeBlock s.superblock)
    (s.disk, fun _ => 0)
  let disk := storeInode wiped.1 s.superblock inode.id noInode
  { s with disk := clearBitInInodeBitmap disk s.superblock inode.id }

/-- The entry at which the scan for an id stops: the first that has it, or the one past the
end. -/
def scanIds (tempBlock : Bytes) (id : Nat) : Nat :=
  ((List.range dirEntriesPerBlock).find? fun count => entryId tempBlock count == id).getD
    dirEntriesPerBlock

/-- The block and the entry of an id in a directory. -/
def findEntry (env : Env) (s : State) (directory : Inode) (id : Nat) : Option (Nat × Nat) :=
  (indexedBlocks s.superblock directory).findSome? fun block =>
    let tempBlock := readBlock s.disk env.afterTempBlock block
    let count := scanIds tempBlock id
    if entryId tempBlock count = id then some (block, count) else none

/-- An entry of 64 zeros. -/
def clearEntry (tempBlock : Bytes) (count : Nat) : Bytes :=
  blit tempBlock (count * dirEntrySize) dirEntrySize fun _ => 0

/-- The parent with its size reduced by an entry. -/
def reduced (parent : Inode) : Inode :=
  let parent := parent.setSizeBytes (sub32 parent.sizeBytes dirEntrySize)
  parent.setSizeSectors (bytesToSectors parent.sizeBytes)

/-- `is_clear`: the test looks at the first 1024 bytes of `temp_block`. -/
def isClear (tempBlock : Bytes) : Bool := (List.range (fsBlockSize / 4)).all (tempBlock · == 0)

/-- The part of `fs_delete_file` after the checks. -/
def deleteEntry (env : Env) (s : State) (parent : Inode) (id : Nat) : Bool × State :=
  match findEntry env s parent id with
  | none => (false, s)
  | some (dataBlock, count) =>
    let tempBlock := clearEntry (readBlock s.disk env.afterTempBlock dataBlock) count
    let s := { s with disk := writeBlock s.disk dataBlock tempBlock }
    let parent := reduced parent
    let s := updateInodeOnDisk s parent
    let s :=
      if parent.sizeBytes % fsBlockSize = 0 ∧ isClear tempBlock then
        { s with disk := clearBitInDataBitmap s.disk s.superblock dataBlock }
      else s
    (true, refreshCaches s parent)

/-- `fs_delete_file`. -/
def fsDeleteFile (env : Env) (s : State) (path : CString) : Bool × State :=
  if specialPath path then (false, s)
  else
    let inode := inodeFromPath env s path
    let parent := parentInodeFromPath env s path
    if inode.id = 0 ∨ parent.id = 0 then (false, s)
    else if inode.type ≠ filetypeFile then (false, s)
    else if inode.refCount > 1 then (true, s)
    else deleteEntry env (releaseInode s inode) parent inode.id

/-! ## 6. `fs_rename_file` -/

/-- `fs_rename_file`. -/
def fsRenameFile (env : Env) (s : State) (path newName : CString) : Bool × State :=
  if specialPath path then (false, s)
  else
    let inode := inodeFromPath env s path
    let parent := parentInodeFromPath env s path
    if inode.id = 0 then (false, s)
    else if parent.id = 0 then (false, s)
    else
      match findEntry env s parent inode.id with
      | none => (false, s)
      | some (block, count) =>
        let tempBlock := clearEntry (readBlock s.disk env.afterTempBlock block) count
        let tempBlock := writeEntry tempBlock count inode.id newName.chars
        (true, { s with disk := writeBlock s.disk block tempBlock })

end AmateurOs.Fs
