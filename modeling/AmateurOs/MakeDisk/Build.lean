/-
# Building the disk image

A model of `build/make_disk.c`.  `get_file_info` walks the host's directory tree and sums the
number of files and of blocks; the superblock is sized from the sums; `write_file_data` walks the
tree again, hands out inode numbers and blocks from two cursors, and writes inodes, directory
entries and file data into the image.

* A host directory is the list of what `readdir` returns besides `"."` and `".."`, in its order,
  which is the same in both passes.  `temp_name` is taken to be long enough for every path.
* The image is the file `OS.bin` with its position.  A hole that `fseek` leaves reads as zeros, so
  the padding at its end changes nothing.
* A name that is too long for `dir_entry_t` overruns the structure; the model keeps what lands
  inside.
* `made` and `writes` record what was done: the inodes in the order they are written, and every
  `fwrite`, with the inode number of the file or directory it is for (0 for the areas in front of
  the inodes).
-/
import AmateurOs.Fs.Files
import AmateurOs.Fs.Image
import AmateurOs.Terminal.Stdio

namespace AmateurOs.MakeDisk

open AmateurOs.Lib AmateurOs.Fs
open AmateurOs.Terminal (text)

/-! ## 1. The host's tree -/

mutual

/-- A regular file with its bytes, or a directory. -/
inductive Node
  | file (data : List UInt8)
  | dir (entries : Entries)

/-- The entries of a directory. -/
inductive Entries
  | nil
  | cons (name : List UInt8) (node : Node) (rest : Entries)

end

/-- How many entries. -/
def Entries.length : Entries → Nat
  | .nil => 0
  | .cons _ _ rest => rest.length + 1

/-- `"3rdstage.bin"`. -/
def thirdStage : List UInt8 := text "3rdstage.bin"

/-! ## 2. `get_file_info` -/

/-- `num_files` and `file_blocks`. -/
structure FileInfo where
  numFiles : Nat
  fileBlocks : Nat

/-- The blocks that a file or directory adds. -/
def FileInfo.add (info : FileInfo) (bytes : Nat) : FileInfo :=
  { info with fileBlocks := u32 (info.fileBlocks + bytesToBlocks (u32 bytes)) }

mutual

/-- What one entry adds: a file its blocks, a directory what `get_file_info` adds for it. -/
def nodeInfo : Node → FileInfo → FileInfo
  | .file data, info => info.add data.length
  | .dir entries, info => (entriesInfo entries info).add ((entries.length + 2) * dirEntrySize)

/-- The loop of `get_file_info`. -/
def entriesInfo : Entries → FileInfo → FileInfo
  | .nil, info => info
  | .cons _ node rest, info =>
    entriesInfo rest (nodeInfo node { info with numFiles := u32 (info.numFiles + 1) })

end

/-- `get_file_info` on the root directory. -/
def getFileInfo (root : Entries) : FileInfo := nodeInfo (.dir root) ⟨0, 0⟩

/-! ## 3. The image file -/

/-- A call of `fwrite`. -/
structure Write where
  owner : Nat
  start : Nat
  length : Nat

/-- An inode written, with the names that lead to its file from the root directory. -/
structure Made where
  path : List (List UInt8)
  id : Nat
  type : Nat
  sizeBytes : Nat
  first : Nat
  length : Nat

/-- The image file and the two cursors. -/
structure Image where
  bytes : Bytes
  pos : Nat
  nextInodeId : Nat
  firstBlock : Nat
  made : List Made
  writes : List Write

/-- `fseek(IMAGE_PTR, pos, SEEK_SET)`. -/
def Image.seek (b : Image) (pos : Nat) : Image := { b with pos := pos }

/-- `fwrite` of `len` bytes. -/
def Image.write (b : Image) (owner : Nat) (src : Bytes) (len : Nat) : Image :=
  { b with
    bytes := blit b.bytes b.pos len src
    pos := b.pos + len
    writes := b.writes ++ [⟨owner, b.pos, len⟩] }

/-- `num_padding_bytes`. -/
def numPaddingBytes (bytes boundary : Nat) : Nat :=
  if bytes % boundary = 0 then 0 else bytes - bytes % boundary + boundary - bytes

/-- Zeros up to the end of a block. -/
def Image.pad (b : Image) (owner bytes : Nat) : Image :=
  b.write owner (fun _ => 0) (numPaddingBytes bytes fsBlockSize)

/-! ## 4. Inodes and entries -/

/-- `last_modified_timestamp` of a directory, and of a file. -/
def dirTimestamp : Packed 8 := Packed.load (fun k => [0, 37, 13, 20, 4, 0xE7, 0x07].getD k 0) 0

def fileTimestamp : Packed 8 := Packed.load (fun k => [0, 37, 13, 20, 4, 0xE9, 0x07].getD k 0) 0

/-- The inode of a file or directory. -/
def madeInode (m : Made) : Inode :=
  ((((((noInode.setId m.id).setType m.type).setSizeBytes m.sizeBytes).setSizeSectors
    (bytesToSectors m.sizeBytes)).setTimestamp
      (if m.type = filetypeDir then dirTimestamp else fileTimestamp)).setExtentFirst 0
        m.first).setExtentLength 0 m.length

/-- Where an inode goes. -/
def inodePos (sb : Superblock) (id : Nat) : Nat :=
  u32 (u32 (sb.firstInodeBlock + id / 64) * fsBlockSize) + id % 64 * 64

/-- The inode is written, and the cursor of the blocks moved past its extent. -/
def Image.addInode (sb : Superblock) (b : Image) (m : Made) : Image :=
  let b := { b with firstBlock := u32 (b.firstBlock + m.length), made := b.made ++ [m] }
  (b.seek (inodePos sb m.id)).write m.id (madeInode m).bytes 64

/-- `dir_entry`. -/
abbrev DirEntry := Packed 64

/-- `dir_entry.id = id` and `strcpy(dir_entry.name, name)`. -/
def DirEntry.fill (e : DirEntry) (id : Nat) (name : List UInt8) : DirEntry :=
  Packed.load (strcpyAt (e.set32 0 id).bytes 4 name) 0

/-- The loop over the sectors of a file: the image and `total_bytes_written`. -/
def writeSectorsOf (owner : Nat) : Nat → List UInt8 → Nat → Image → Image × Nat
  | 0, _, total, b => (b, total)
  | n + 1, data, total, b =>
    let sector := data.take fsSectorSize
    writeSectorsOf owner n (data.drop fsSectorSize) (total + sector.length)
      (b.write owner (fun k => sector.getD k 0) sector.length)

/-- `3rdstage.bin` has inode 2, every other entry the next number. -/
def childId (name : List UInt8) (next : Nat) : Nat := if name = thirdStage then 2 else next

def nextId (name : List UInt8) (next : Nat) : Nat := if name = thirdStage then next else u32 (next + 1)

/-! ## 5. `write_file_data` -/

/-- A file: its inode, its data, and zeros up to the end of the block. -/
def writeFile (sb : Superblock) (path : List (List UInt8)) (data : List UInt8) (id : Nat)
    (b : Image) : Image :=
  let size := u32 data.length
  let first := b.firstBlock
  let b := b.addInode sb ⟨path, id, filetypeFile, size, first, bytesToBlocks size⟩
  let b := b.seek (u32 (first * fsBlockSize))
  let written := writeSectorsOf id (bytesToSectors size) data 0 b
  written.1.pad id written.2

/-- A directory up to its loop: the inode and the entries `"."` and `".."`. -/
def beginDir (sb : Superblock) (path : List (List UInt8)) (size id parent : Nat) (b : Image) :
    Image × DirEntry :=
  let first := b.firstBlock
  let b := b.addInode sb ⟨path, id, filetypeDir, size, first, bytesToBlocks size⟩
  let b := b.seek (u32 (first * fsBlockSize))
  let self := DirEntry.fill Packed.zero id [dot]
  let b := b.write id self.bytes dirEntrySize
  let up := DirEntry.fill self parent [dot, dot]
  (b.write id up.bytes dirEntrySize, up)

mutual

/-- What `write_file_data` does for one entry: a file, or a directory in a call of its own. -/
def writeNode (sb : Superblock) :
    Node → (path : List (List UInt8)) → (id parent : Nat) → Image → Image
  | .file data, path, id, _, b => writeFile sb path data id b
  | .dir entries, path, id, parent, b =>
    let size := u32 ((entries.length + 2) * dirEntrySize)
    let started := beginDir sb path size id parent b
    (writeEntries sb entries path id started.2 started.1).pad id size

/-- The loop of `write_file_data` over the entries of directory `id`. -/
def writeEntries (sb : Superblock) :
    Entries → (path : List (List UInt8)) → (id : Nat) → DirEntry → Image → Image
  | .nil, _, _, _, b => b
  | .cons name node rest, path, id, e, b =>
    let child := childId name b.nextInodeId
    let b := { b with nextInodeId := nextId name b.nextInodeId }
    let e := e.fill child name
    let b := b.write id e.bytes dirEntrySize
    let currDirPos := u32 b.pos
    let b := writeNode sb node (path ++ [name]) child id b
    writeEntries sb rest path id e (b.seek currDirPos)

end

/-! ## 6. The whole image -/

/-- The loop of the bitmap writers: full words, then the last one. -/
def bitmapWords (bits : Nat) : Bytes := fun k =>
  if k < bits / 32 * 4 then 0xFF
  else if k < bits / 32 * 4 + 4 ∧ bits % 32 > 0 then
    wordByte (u32 ((2 <<< (bits % 32 - 1)) - 1)) (k - bits / 32 * 4)
  else 0

/-- The bytes of the words. -/
def bitmapLength (bits : Nat) : Nat := bits / 32 * 4 + if bits % 32 > 0 then 4 else 0

/-- `write_inode_bitmap_blocks` and `write_data_bitmap_blocks`. -/
def writeBitmap (bits : Nat) (b : Image) : Image :=
  (b.write 0 (bitmapWords bits) (bitmapLength bits)).pad 0 (bitmapLength bits)

/-- The areas in front of the inodes. -/
def writeAreas (bootBlock : Bytes) (sb : Superblock) : Image :=
  let b : Image := ⟨fun _ => 0, 0, 3, 0, [], []⟩
  let b := b.write 0 bootBlock fsBlockSize
  let b := (b.write 0 sb.bytes 64).pad 0 64
  writeBitmap (sb.get16 22) (writeBitmap sb.numInodes b)

/-- `main`: the superblock and the image. -/
def makeDisk (bootBlock : Bytes) (root : Entries) : Superblock × Image :=
  let info := getFileInfo root
  let sb := writeSuperblock info.numFiles info.fileBlocks
  let b := { writeAreas bootBlock sb with firstBlock := sb.firstDataBlock }
  (sb, writeNode sb (.dir root) [] 1 1 b)

end AmateurOs.MakeDisk
