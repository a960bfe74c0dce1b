/-
# `main` of the image builder

`main` of `build/make_disk.c` with everything that can stop it: what `opendir`, `stat` and `fopen`
answer, the boot block, the asserts, and the padding to the size of the disk.

* `get_file_info` and `write_file_data` return a `bool`.  Where `opendir` fails they return
  `EXIT_FAILURE`, which is `true`.
* A `Host` says which calls succeed.  What a successful call gives is in the tree: a directory that
  is opened as a file reads as an empty one.
* The asserts are compiled in.  `fwrite` writes what it is given.
-/
import AmateurOs.MakeDisk.Bitmaps
import AmateurOs.MakeDisk.Lookup

namespace AmateurOs.MakeDisk

open AmateurOs.Lib AmateurOs.Fs
open AmateurOs.Terminal (text)

/-! ## 1. The host -/

/-- The names that lead to a file or directory from `../bin/fs_root`. -/
abbrev HostPath := List (List UInt8)

/-- The two passes over the tree: `get_file_info` and `write_file_data`. -/
inductive Pass
  | counting
  | writing

/-- **Which calls succeed**, for each path: `opendir` and `stat` in each pass, `fopen` in
`write_file_data` and in `write_boot_block`. -/
structure Host where
  opendir : Pass → HostPath → Bool
  stat : Pass → HostPath → Bool
  fopen : HostPath → Bool
  fopenBoot : HostPath → Bool

/-- A host on which every call succeeds. -/
def Host.working : Host := ⟨fun _ _ => true, fun _ _ => true, fun _ => true, fun _ => true⟩

/-- `EXIT_FAILURE`, and an `int` that is returned as a `bool`. -/
def exitFailure : Nat := 1

def toBool (n : Nat) : Bool := n != 0

/-! ## 2. `get_file_info` -/

mutual

/-- What one entry adds, and whether `get_file_info` returns `true` for it. -/
def Host.nodeInfo (h : Host) : Node → HostPath → FileInfo → Bool × FileInfo
  | .file data, _, info => (true, info.add data.length)
  | .dir entries, path, info =>
    if h.opendir .counting path then
      match h.entriesInfo entries path info with
      | (true, info) => (true, info.add ((entries.length + 2) * dirEntrySize))
      | (false, info) => (false, info)
    else (toBool exitFailure, info)

/-- The loop of `get_file_info`. -/
def Host.entriesInfo (h : Host) : Entries → HostPath → FileInfo → Bool × FileInfo
  | .nil, _, info => (true, info)
  | .cons name node rest, path, info =>
    let info := { info with numFiles := u32 (info.numFiles + 1) }
    if h.stat .counting (path ++ [name]) then
      match h.nodeInfo node (path ++ [name]) info with
      | (true, info) => h.entriesInfo rest path info
      | (false, info) => (false, info)
    else (false, info)

end

/-! ## 3. `write_file_data` -/

/-- A file up to its `fopen`: the inode, and the position of the data. -/
def beginFile (sb : Superblock) (path : HostPath) (size id : Nat) (b : Image) : Image :=
  let first := b.firstBlock
  let b := b.addInode sb ⟨path, id, filetypeFile, size, first, bytesToBlocks size⟩
  b.seek (u32 (first * fsBlockSize))

mutual

/-- `write_file_data` for one entry, and whether it returns `true`. -/
def Host.writeNode (h : Host) (sb : Superblock) :
    Node → HostPath → (id parent : Nat) → Image → Bool × Image
  | .file data, path, id, _, b =>
    if h.fopen path then (true, writeFile sb path data id b)
    else (false, beginFile sb path (u32 data.length) id b)
  | .dir entries, path, id, parent, b =>
    if h.opendir .writing path then
      let size := u32 ((entries.length + 2) * dirEntrySize)
      let started := beginDir sb path size id parent b
      match h.writeEntries sb entries path id started.2 started.1 with
      | (true, b) => (true, b.pad id size)
      | (false, b) => (false, b)
    else (toBool exitFailure, b)

/-- The loop of `write_file_data` over the entries of directory `id`. -/
def Host.writeEntries (h : Host) (sb : Superblock) :
    Entries → HostPath → (id : Nat) → DirEntry → Image → Bool × Image
  | .nil, _, _, _, b => (true, b)
  | .cons name node rest, path, id, e, b =>
    let child := childId name b.nextInodeId
    let b := { b with nextInodeId := nextId name b.nextInodeId }
    let e := e.fill child name
    let b := b.write id e.bytes dirEntrySize
    let currDirPos := u32 b.pos
    if h.stat .writing (path ++ [name]) then
      match h.writeNode sb node (path ++ [name]) child id b with
      | (true, b) => h.writeEntries sb rest path id e (b.seek currDirPos)
      | (false, b) => (false, b)
    else (false, b)

end

/-! ## 4. The areas in front of the inodes -/

/-- How the program ends: `main` returns 0 or `EXIT_FAILURE`, or an assert aborts it. -/
inductive Exit
  | success
  | failure
  | abort
  deriving DecidableEq

def bootSectPath : HostPath := [text "sys", text "bin", text "bootSect.bin"]

def secondStagePath : HostPath := [text "sys", text "bin", text "2ndstage.bin"]

/-- What `write_boot_block` can read of a file, where it can open it. -/
def Host.bootFile (h : Host) (root : Entries) (path : HostPath) : Option (List UInt8) :=
  if h.fopenBoot path then
    match (Node.dir root).nodeAt path with
    | some (.file data) => some data
    | some (.dir _) => some []
    | none => none
  else none

/-- The loop over the sectors of the second stage, with `n` sectors left.  `none` stands for a second
stage that is too large. -/
def readSectors : Nat → List UInt8 → Option (List UInt8)
  | 0, _ => none
  | n + 1, data =>
    let sector := data.take fsSectorSize
    if sector.length < fsSectorSize then some sector
    else (readSectors n (data.drop fsSectorSize)).map (sector ++ ·)

/-- `write_boot_block` up to its `fwrite`: the boot block. -/
def Host.readBootBlock (h : Host) (root : Entries) : Except Exit Bytes :=
  match h.bootFile root bootSectPath with
  | none => .error .failure
  | some sect =>
    if sect.length < fsSectorSize then .error .abort
    else
      match h.bootFile root secondStagePath with
      | none => .error .failure
      | some stage =>
        match readSectors 7 stage with
        | none => .error .failure
        | some sectors => .ok fun k => (sect.take fsSectorSize ++ sectors).getD k 0

/-- The superblock that `write_superblock` writes for a disk of `dataBlocks` blocks. -/
def writeSuperblockFor (dataBlocks numFiles fileBlocks : Nat) : Superblock :=
  let numInodes := builtInodes numFiles
  let numInodeBitmapBlocks := u16 (bitmapBlocks numInodes)
  let firstDataBitmapBlock := u16 (2 + numInodeBitmapBlocks)
  let numInodeBlocks := u16 (bytesToBlocks (u32 (numInodes * 64)))
  let numDataBits := sub32 (sub32 (sub32 dataBlocks firstDataBitmapBlock) numInodeBlocks) 1
  let numDataBitmapBlocks := u16 (bitmapBlocks numDataBits)
  let firstInodeBlock := firstDataBitmapBlock + numDataBitmapBlocks
  let firstDataBlock := firstInodeBlock + numInodeBlocks
  ((((((((((((((((((Packed.zero.set32 0 numInodes).set16 4 2).set16 8
    numInodeBitmapBlocks).set16 6 firstDataBitmapBlock).set16 20 numInodeBlocks).set16 10
    numDataBitmapBlocks).set32 12 firstInodeBlock).set32 16 firstDataBlock).set16 22
    (firstDataBlock + fileBlocks)).set32 24 0xFFFFFFFF).set16 28 fsBlockSize).set8 30 64).set32 31
    0).set8 35 (fsBlockSize / 64)).set8 36 4).set16 37 (fsBlockSize / 8)).set32 39
    numInodes).set32 43 (firstDataBlock + fileBlocks)).set16 47 1 |>.set8 49 3

/-- With the `disk_size` of the source it is the superblock of the built disks. -/
theorem writeSuperblockFor_image (numFiles fileBlocks : Nat) :
    writeSuperblockFor imageBlocks numFiles fileBlocks = writeSuperblock numFiles fileBlocks :=
  rfl

/-- The boot block, the superblock and the bitmaps. -/
def writeHeader (bootBlock : Bytes) (sb : Superblock) (b : Image) : Except Image Image := do
  let b ← b.assertWrite bootBlock fsBlockSize
  let b ← b.assertWrite sb.bytes 64
  let b ← b.assertWrite (fun _ => 0) (numPaddingBytes 64 fsBlockSize)
  let b ← writeInodeBitmapBlocks sb b
  writeDataBitmapBlocks sb b

/-! ## 5. `main` -/

/-- `ftell` at the end of the file. -/
def Image.size (b : Image) : Nat :=
  b.writes.foldl (fun size w => if w.length = 0 then size else max size (w.start + w.length)) 0

/-- The loop that pads the image with `n` blocks. -/
def padBlocks : Nat → Image → Image
  | 0, b => b
  | n + 1, b => padBlocks n (b.write 0 (fun _ => 0) fsBlockSize)

/-- The end of `write_inode_and_data_blocks`: the image is padded to its final size. -/
def padDisk (diskSize : Nat) (b : Image) : Image :=
  let b := b.seek b.size
  padBlocks (sub32 (bytesToBlocks (u32 diskSize)) (bytesToBlocks (u32 b.pos))) b

/-- The image when `main` opens it. -/
def newImage : Image := ⟨fun _ => 0, 0, 3, 0, [], []⟩

/-- The superblock that `main` arrives at. -/
def Host.superblock (h : Host) (diskSize : Nat) (root : Entries) : Superblock :=
  let info := (h.nodeInfo (.dir root) [] ⟨0, 0⟩).2
  writeSuperblockFor (bytesToBlocks (u32 diskSize)) info.numFiles info.fileBlocks

/-- `main`: how it ends, and the image that it leaves. -/
def Host.main (h : Host) (diskSize : Nat) (root : Entries) : Exit × Image :=
  if (h.nodeInfo (.dir root) [] ⟨0, 0⟩).1 then
    match h.readBootBlock root with
    | .error exit => (exit, newImage)
    | .ok bootBlock =>
      let sb := h.superblock diskSize root
      match writeHeader bootBlock sb newImage with
      | .error b => (.abort, b)
      | .ok b =>
        match h.writeNode sb (.dir root) [] 1 1 { b with firstBlock := sb.firstDataBlock } with
        | (true, b) => (.success, padDisk diskSize b)
        | (false, b) => (.failure, b)
  else (.failure, newImage)

/-! ## 6. A working host -/

mutual

/-- Where every call succeeds, `get_file_info` is the sum of the tree. -/
theorem working_nodeInfo : ∀ (node : Node) (path : HostPath) (info : FileInfo),
    Host.working.nodeInfo node path info = (true, nodeInfo node info)
  | .file data, path, info => by
    unfold Host.nodeInfo MakeDisk.nodeInfo
    rfl
  | .dir entries, path, info => by
    have hopen : Host.working.opendir .counting path = true := rfl
    unfold Host.nodeInfo MakeDisk.nodeInfo
    rw [if_pos hopen, working_entriesInfo entries]

theorem working_entriesInfo : ∀ (entries : Entries) (path : HostPath) (info : FileInfo),
    Host.working.entriesInfo entries path info = (true, entriesInfo entries info)
  | .nil, path, info => by
    unfold Host.entriesInfo MakeDisk.entriesInfo
    rfl
  | .cons name node rest, path, info => by
    have hstat : Host.working.stat .counting (path ++ [name]) = true := rfl
    unfold Host.entriesInfo MakeDisk.entriesInfo
    simp only [if_pos hstat]
    rw [working_nodeInfo node]
    exact working_entriesInfo rest path _

end

mutual

/-- Where every call succeeds, `write_file_data` writes the tree. -/
theorem working_writeNode (sb : Superblock) : ∀ (node : Node) (path : HostPath) (id parent : Nat)
    (b : Image), Host.working.writeNode sb node path id parent b =
      (true, writeNode sb node path id parent b)
  | .file data, path, id, parent, b => by
    have hopen : Host.working.fopen path = true := rfl
    unfold Host.writeNode MakeDisk.writeNode
    rw [if_pos hopen]
  | .dir entries, path, id, parent, b => by
    have hopen : Host.working.opendir .writing path = true := rfl
    unfold Host.writeNode MakeDisk.writeNode
    rw [if_pos hopen]
    simp only [working_writeEntries sb entries]

theorem working_writeEntries (sb : Superblock) : ∀ (entries : Entries) (path : HostPath) (id : Nat)
    (e : DirEntry) (b : Image), Host.working.writeEntries sb entries path id e b =
      (true, writeEntries sb entries path id e b)
  | .nil, path, id, e, b => by
    unfold Host.writeEntries MakeDisk.writeEntries
    rfl
  | .cons name node rest, path, id, e, b => by
    have hstat : Host.working.stat .writing (path ++ [name]) = true := rfl
    unfold Host.writeEntries MakeDisk.writeEntries
    simp only [if_pos hstat, working_writeNode sb node]
    exact working_writeEntries sb rest path id _ _

end

end AmateurOs.MakeDisk
