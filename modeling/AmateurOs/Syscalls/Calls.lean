/-
# The file system calls: `open`, `close`, `read`, `write`, `seek`

A model of the file part of `include/interrupts/syscalls.h` and of `fs_load_file` and
`fs_save_file`.  The kernel's tables are the two arrays of `kernel.c`, indexed by number: an
`inode_t *` into `open_inode_table` is the index of its element.

* The memory is the one a program sees, by virtual address.  Mapping a page replaces what the
  addresses of the page show by what the new frame holds; an address that is not mapped shows
  what the frame will hold that the page fault handler maps there.  `allocate_blocks` is taken
  to succeed.
* Both tables have 256 elements.  The searches of `syscall_open` stop at number 256 when they
  find nothing, and then that element is used: the functions of the model have a value there,
  which stands for the memory behind the table.
* `terminal_write` does not touch the file tables; its result is a field of `Ext`, next to what
  newly mapped frames hold.
-/
import AmateurOs.Heap.Malloc
import AmateurOs.Fs.Files

namespace AmateurOs.Syscalls

open AmateurOs.Lib
open AmateurOs.Fs (Inode State CString)

/-! ## 1. Tables -/

/-- `PAGE_SIZE`. -/
def pageSize : Nat := 4096

/-- `max_open_files` and `max_open_inodes`. -/
def maxOpen : Nat := 256

def oWronly : Nat := 1

def oRdwr : Nat := 2

def oCreat : Nat := 4

def oAppend : Nat := 8

/-- Whether `flags & flag` is not 0. -/
def hasFlag (flags flag : Nat) : Bool := flags &&& flag != 0

/-- An element of `open_file_table`. -/
structure OpenFile where
  address : Nat
  /-- The 32 bits of the `int32_t`. -/
  offset : Nat
  /-- The index in `open_inode_table`, `none` for the null pointer. -/
  inode : Option Nat
  refCount : Nat
  flags : Nat
  pagesAllocated : Nat
deriving DecidableEq

/-- The element after `memset(oft, 0, sizeof(open_file_table_t))`. -/
def OpenFile.zero : OpenFile := ⟨0, 0, none, 0, 0, 0⟩

/-- The file system, the memory and the tables. -/
structure Kernel where
  fs : State
  mem : Bytes
  openFileTable : Nat → OpenFile
  openInodeTable : Nat → Inode
  nextAvailableFileVirtualAddress : Nat

/-- What a call gets from outside of that state. -/
structure Ext where
  fsEnv : Fs.Env
  /-- What the frames mapped or faulted in by the call hold, by virtual address. -/
  frames : Bytes
  /-- The result of `terminal_write`. -/
  terminal : Int

/-- The element of the table that `oft->inode` points to. -/
def Kernel.inodeOf (k : Kernel) (oft : OpenFile) : Inode :=
  match oft.inode with
  | some i => k.openInodeTable i
  | none => Fs.noInode

/-- `oft->inode == 0 || oft->ref_count == 0`. -/
def OpenFile.notOpen (oft : OpenFile) : Bool := oft.inode.isNone || oft.refCount == 0

/-! ## 2. `fs_load_file` and `fs_save_file` -/

/-- The loop of `fs_load_file` over the direct extents. -/
def loadExtents (disk : Bytes) (inode : Inode) (address : Nat) :
    List Nat → Nat → Nat → Bytes → Bytes
  | [], _, _, mem => mem
  | i :: is, totalBlocks, addressOffset, mem =>
    if totalBlocks > 0 then
      let mem := Fs.readSectors disk mem (u32 (inode.extentLength i * Fs.sectorsPerBlock))
        (Fs.blockSector (inode.extentFirst i)) (u32 (address + addressOffset))
      loadExtents disk inode address is (sub32 totalBlocks (inode.extentLength i))
        (u32 (addressOffset + u32 (inode.extentLength i * Fs.fsBlockSize))) mem
    else mem

/-- `fs_load_file`: the memory it leaves. -/
def fsLoadFile (s : State) (mem : Bytes) (inode : Inode) (address : Nat) : Bytes :=
  loadExtents s.disk inode address (List.range s.superblock.directExtentsPerInode)
    (Fs.bytesToBlocks inode.sizeBytes) 0 mem

/-- The loop of `fs_save_file` over the direct extents. -/
def saveExtents (mem : Bytes) (inode : Inode) (address : Nat) :
    List Nat → Nat → Nat → Bytes → Bytes
  | [], _, _, disk => disk
  | i :: is, totalBlocks, addressOffset, disk =>
    if totalBlocks > 0 then
      let disk := Fs.writeSectors disk mem (u32 (inode.extentLength i * Fs.sectorsPerBlock))
        (Fs.blockSector (inode.extentFirst i)) (u32 (address + addressOffset))
      saveExtents mem inode address is (sub32 totalBlocks (inode.extentLength i))
        (u32 (addressOffset + u32 (inode.extentLength i * Fs.fsBlockSize))) disk
    else disk

/-- `fs_save_file`: the disk it leaves. -/
def fsSaveFile (s : State) (mem : Bytes) (inode : Inode) (address : Nat) : State :=
  let disk := saveExtents mem inode address (List.range s.superblock.directExtentsPerInode)
    (Fs.bytesToBlocks inode.sizeBytes) 0 s.disk
  { s with disk := disk }

/-! ## 3. `syscall_open` -/

/-- The search of `open_inode_table` for an id; an empty element has id 0. -/
def searchInode (table : Nat → Inode) (id : Nat) : Nat :=
  ((List.range maxOpen).find? fun i => (table i).id == id).getD maxOpen

/-- The search of `open_file_table` for a free element. -/
def searchFd (table : Nat → OpenFile) : Nat :=
  ((List.range maxOpen).find? fun i =>
    (table i).address == 0 || (table i).refCount == 0).getD maxOpen

/-- The inode of an opened file in `open_inode_table`: its index and the table left. -/
def enterInode (table : Nat → Inode) (fileInode : Inode) : Nat × (Nat → Inode) :=
  let idx := searchInode table fileInode.id
  if fileInode.id = (table idx).id then
    (idx, Function.update table idx ((table idx).setRefCount (u8 ((table idx).refCount + 1))))
  else
    let idx := searchInode table 0
    (idx, Function.update table idx fileInode)

/-- The pages reserved for a file: one for an empty file. -/
def sizeInPages (bytes : Nat) : Nat :=
  if Fs.bytesToBlocks bytes = 0 then 1 else Fs.bytesToBlocks bytes

/-- The file table entry of a file opened as descriptor `fd`, with element `i`. -/
def openedFile (k : Kernel) (fd i : Nat) (inode : Inode) (flags : Nat) : OpenFile where
  address := k.nextAvailableFileVirtualAddress
  offset := if hasFlag flags oAppend then inode.sizeBytes else 0
  inode := some i
  refCount := 1
  flags := flags
  pagesAllocated := u32 ((k.openFileTable fd).pagesAllocated + sizeInPages inode.sizeBytes)

/-- The part of `syscall_open` after the file was found or created. -/
def openInode (ext : Ext) (k : Kernel) (fileInode : Inode) (flags : Nat) : Nat × Kernel :=
  let (idx, inodes) := enterInode k.openInodeTable fileInode
  let inode := inodes idx
  let fd := searchFd k.openFileTable
  let address := k.nextAvailableFileVirtualAddress
  let pages := sizeInPages inode.sizeBytes
  let mem := Malloc.mapPages ext.frames pages k.mem address
  (fd, { k with
    mem := fsLoadFile k.fs mem inode address
    openFileTable := Function.update k.openFileTable fd (openedFile k fd idx inode flags)
    openInodeTable := inodes
    nextAvailableFileVirtualAddress := u32 (address + pages * pageSize) })

/-- `syscall_open`: the descriptor or -1, and the state left. -/
def syscallOpen (ext : Ext) (k : Kernel) (filepath : CString) (flags : Nat) : Int × Kernel :=
  let fileInode := Fs.inodeFromPath ext.fsEnv k.fs filepath
  if fileInode.id ≠ 0 then
    let opened := openInode ext k fileInode flags
    (opened.1, opened.2)
  else if !hasFlag flags oCreat then (-1, k)
  else
    let created := Fs.fsCreateFile ext.fsEnv k.fs filepath
    let k := { k with fs := created.2 }
    if created.1.id = 0 then (-1, k)
    else
      let opened := openInode ext k created.1 flags
      (opened.1, opened.2)

/-! ## 4. `syscall_close` -/

/-- `syscall_close`.  An unmapped page shows what is faulted in there later. -/
def syscallClose (ext : Ext) (k : Kernel) (fd : Int) : Int × Kernel :=
  if fd < 0 then (-1, k)
  else
    let oft := k.openFileTable fd.toNat
    match oft.inode with
    | none => (-1, k)
    | some i =>
      if oft.refCount = 0 then (-1, k)
      else
        let oft := { oft with refCount := sub32 oft.refCount 1 }
        let inode := (k.openInodeTable i).setRefCount (u8 ((k.openInodeTable i).refCount + 255))
        if oft.refCount = 0 then
          (0, { k with
            mem := Malloc.mapPages ext.frames (sizeInPages inode.sizeBytes) k.mem oft.address
            openFileTable := Function.update k.openFileTable fd.toNat OpenFile.zero
            openInodeTable := Function.update k.openInodeTable i
              (if inode.refCount = 0 then Fs.noInode else inode) })
        else
          (0, { k with
            openFileTable := Function.update k.openFileTable fd.toNat oft
            openInodeTable := Function.update k.openInodeTable i inode })

/-! ## 5. `syscall_write` -/

/-- The file offset with which a write starts. -/
def writeOffset (k : Kernel) (oft : OpenFile) : Nat :=
  if hasFlag oft.flags oAppend then (k.inodeOf oft).sizeBytes else oft.offset

/-- The pages a write adds: some when its offset lies behind the pages of the file. -/
def addedPages (k : Kernel) (oft : OpenFile) : Nat :=
  if writeOffset k oft > u32 (oft.pagesAllocated * pageSize) then
    sizeInPages (sub32 (writeOffset k oft) (k.inodeOf oft).sizeBytes)
  else 0

/-- The memory after the pages were added and the gap was set to zero. -/
def extendFile (ext : Ext) (k : Kernel) (oft : OpenFile) : Bytes :=
  if writeOffset k oft > u32 (oft.pagesAllocated * pageSize) then
    let mem := Malloc.mapPages ext.frames (addedPages k oft) k.mem
      k.nextAvailableFileVirtualAddress
    blit mem (u32 (oft.address + (k.inodeOf oft).sizeBytes))
      (sub32 (writeOffset k oft) (k.inodeOf oft).sizeBytes) fun _ => 0
  else k.mem

/-- The inode with the size that a write ending at `offset` gives it. -/
def resized (inode : Inode) (offset : Nat) : Inode :=
  if offset > inode.sizeBytes then
    (inode.setSizeBytes offset).setSizeSectors (Fs.bytesToSectors offset)
  else inode

/-- The part of `syscall_write` after the checks, for an element whose inode has index `i`. -/
def writeFile (ext : Ext) (k : Kernel) (fd i : Nat) (buf : Bytes) (len : Nat) : Kernel :=
  let oft := k.openFileTable fd
  let start := writeOffset k oft
  let offset := u32 (start + len)
  let mem := blit (extendFile ext k oft) (u32 (oft.address + start)) len buf
  let inode := resized (k.openInodeTable i) offset
  let entry := { oft with
    offset := offset
    pagesAllocated := u32 (oft.pagesAllocated + addedPages k oft) }
  { fs := fsSaveFile (Fs.updateInodeOnDisk k.fs inode) mem inode oft.address
    mem := mem
    openFileTable := Function.update k.openFileTable fd entry
    openInodeTable := Function.update k.openInodeTable i inode
    nextAvailableFileVirtualAddress :=
      u32 (k.nextAvailableFileVirtualAddress + addedPages k oft * pageSize) }

/-- `syscall_write` of the `len` bytes at `buf`. -/
def syscallWrite (ext : Ext) (k : Kernel) (fd : Int) (buf : Bytes) (len : Nat) : Int × Kernel :=
  if fd < 0 then (-1, k)
  else if fd = 1 ∨ fd = 2 then (ext.terminal, k)
  else
    let oft := k.openFileTable fd.toNat
    match oft.inode with
    | none => (-1, k)
    | some i =>
      if oft.refCount = 0 then (-1, k)
      else if !hasFlag oft.flags oWronly && !hasFlag oft.flags oRdwr then (-1, k)
      else (toInt32 len, writeFile ext k fd.toNat i buf len)

/-! ## 6. `syscall_read` and `syscall_seek` -/

/-- The number of bytes a read copies. -/
def bytesRead (size offset len : Nat) : Nat :=
  if size < u32 (offset + len) then sub32 size offset else len

/-- `syscall_read`: the result, the bytes stored in the program's buffer and the state left. -/
def syscallRead (k : Kernel) (fd : Int) (len : Nat) : Int × List UInt8 × Kernel :=
  if fd < 0 then (-1, [], k)
  else
    let oft := k.openFileTable fd.toNat
    if oft.address = 0 ∨ oft.refCount = 0 then (-1, [], k)
    else if hasFlag oft.flags oWronly then (-1, [], k)
    else
      let count := bytesRead (k.inodeOf oft).sizeBytes oft.offset len
      let entry := { oft with offset := u32 (oft.offset + count) }
      (toInt32 count, (List.range count).map fun j => k.mem (u32 (oft.address + oft.offset) + j),
        { k with openFileTable := Function.update k.openFileTable fd.toNat entry })

/-- `whence_value_t`. -/
inductive Whence
  | seekSet
  | seekCur
  | seekEnd
  | invalid
deriving DecidableEq

/-- The offset that a seek leaves in the table, and its result. -/
def seekResult (size offset : Nat) (delta : Int) : Whence → Int × Nat
  | .seekSet => if delta < 0 then (-1, 0) else (delta, ofInt32 delta)
  | .seekCur =>
    let new := u32 (offset + ofInt32 delta)
    if toInt32 new < 0 then (0, 0) else (toInt32 new, new)
  | .seekEnd =>
    let new := u32 (size + ofInt32 delta)
    if toInt32 new < 0 then (0, 0) else (toInt32 new, new)
  | .invalid => (-1, offset)

/-- `syscall_seek`. -/
def syscallSeek (k : Kernel) (fd delta : Int) (whence : Whence) : Int × Kernel :=
  if fd < 0 then (-1, k)
  else
    let oft := k.openFileTable fd.toNat
    if oft.notOpen then (-1, k)
    else
      let r := seekResult (k.inodeOf oft).sizeBytes oft.offset delta whence
      (r.1, { k with
        openFileTable := Function.update k.openFileTable fd.toNat { oft with offset := r.2 } })

/-! ## 7. `syscall_exit` -/

/-- `syscall_exit` up to the start of the shell: the standard descriptors are closed, the shell
sets up the file system variables and the address of the next file buffer. -/
def syscallExit (ext : Ext) (k : Kernel) : Kernel :=
  let k := (syscallClose ext k 0).2
  let k := (syscallClose ext k 1).2
  let k := (syscallClose ext k 2).2
  { k with
    fs := Fs.initFsVars ext.fsEnv k.fs
    nextAvailableFileVirtualAddress := 0x40000000 }

end AmateurOs.Syscalls
