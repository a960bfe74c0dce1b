/-
# Written data after close and reopen

A program creates a file, writes to it in some calls, closes it, opens it again and reads it to
the end.  The byte count goes through the size in the inode, the pages of the buffer, the extents
and the two loops that move the file to the disk and back; and of these only the extents are not
extended: the file has the one block it was created with.  Each write stores the first 4096 bytes
of the buffer there and returns its full length.

So the data comes back as it was written when it is at most 4096 bytes long, and only then
(`survives_iff`).  `Written` is the invariant of the writes.
-/
import AmateurOs.Fs.Ways
import AmateurOs.Fs.Bootable
import AmateurOs.Syscalls.MakeDir
import AmateurOs.Syscalls.Transfers
import AmateurOs.Syscalls.Chunks

namespace AmateurOs.Syscalls

open AmateurOs.Lib
open AmateurOs.Fs (Inode State CString SingleBlock SameExtents PlainFile FileRewritten)

/-! ## 1. The session of a program -/

def oRdonly : Nat := 0

/-- A call of `syscall_write`: the buffer and what comes from outside. -/
structure Chunk where
  ext : Ext
  buf : Bytes
  len : Nat

/-- The bytes that the call writes. -/
def Chunk.bytes (c : Chunk) : List UInt8 := (List.range c.len).map c.buf

/-- The bytes of some calls, in order. -/
def chunkData (chunks : List Chunk) : List UInt8 := chunks.flatMap Chunk.bytes

/-- The calls one after the other, as long as each returns its full length. -/
def writeChunks (fd : Nat) : Kernel → List Chunk → Option Kernel
  | k, [] => some k
  | k, c :: cs =>
    let written := syscallWrite c.ext k fd c.buf c.len
    if written.1 = c.len then writeChunks fd written.2 cs else none

/-- The number of the file that a descriptor is open on. -/
def fileNumber (k : Kernel) (fd : Nat) : Nat := (k.inodeOf (k.openFileTable fd)).id

/-- **A file just created** by `syscall_open(path, O_CREAT | O_RDWR)`: the disk is well formed and
has room for it, the path leads to it now, and no other open file has its number. -/
structure JustCreated (ext : Ext) (k : Kernel) (path : CString) (fd : Nat) (k₁ : Kernel) :
    Prop where
  disk : Fs.WellFormed k.fs
  room : Fs.CreateOk ext.fsEnv k.fs path
  missing : (Fs.inodeFromPath ext.fsEnv k.fs path).id = 0
  opened : syscallOpen ext k path (oCreat ||| oRdwr) = ((fd : Int), k₁)
  leads : Fs.LeadsTo ext.fsEnv k₁.fs path (fileNumber k₁ fd)
  descriptor : k.openFileTable fd = OpenFile.zero ∧ fd ≠ 1 ∧ fd ≠ 2
  element : ∃ i < maxOpen, (k.openInodeTable i).id = 0
  others : ∀ i ≤ maxOpen, (k.openInodeTable i).id ≠ k.fs.superblock.firstFreeInodeBit

/-- There is memory for two buffers of the file. -/
structure MemoryLeft (k : Kernel) (total : Nat) : Prop where
  start : 0 < k.nextAvailableFileVirtualAddress
  room : k.nextAvailableFileVirtualAddress + 2 * total + 2 * pageSize <
    Malloc.addressSpace

/-- **The data survives**: after `syscall_close` and `syscall_open(path, O_RDONLY)`, in whatever
frames, reading to the end of the file returns it. -/
def Survives (k₁ k₂ : Kernel) (fd : Nat) (path : CString) (data : List UInt8) : Prop :=
  ∀ close reopen : Ext, Fs.LeadsTo reopen.fsEnv k₁.fs path (fileNumber k₁ fd) →
    (syscallClose close k₂ fd).1 = 0 ∧ ∃ (fd' : Nat) (k₄ : Kernel),
      syscallOpen reopen (syscallClose close k₂ fd).2 path oRdonly = ((fd' : Int), k₄) ∧
      ∀ n, 1 ≤ n → n < 2147483648 → ∀ fuel, data.length < fuel → ∃ pieces k₅,
        readLoop fd' n fuel k₄ = some (pieces, k₅) ∧ pieces.flatten = data

@[simp] theorem length_bytes (c : Chunk) : c.bytes.length = c.len := by
  unfold Chunk.bytes
  rw [List.length_map, List.length_range]

theorem chunkData_cons (c : Chunk) (cs : List Chunk) :
    chunkData (c :: cs) = c.bytes ++ chunkData cs := List.flatMap_cons

/-! ## 2. A file of one block -/

section

variable {s : State} {mem : Bytes} {inode : Inode} {a b : Nat}

/-- Extents without blocks are not written, and not read. -/
theorem saveExtents_empty {disk : Bytes} : ∀ {is : List Nat} {total offset : Nat},
    (∀ i ∈ is, inode.extentLength i = 0) →
    saveExtents mem inode a is total offset disk = disk := by
  intro is
  induction is with
  | nil => exact fun _ => rfl
  | cons i is ih =>
    intro total offset hzero
    have hnone : Fs.writeSectors disk mem (u32 (inode.extentLength i * Fs.sectorsPerBlock))
        (Fs.blockSector (inode.extentFirst i)) (u32 (a + offset)) = disk := by
      rw [hzero i List.mem_cons_self, Nat.zero_mul]
      exact blit_zero _ _ _
    unfold saveExtents
    split
    · simp only [hnone]
      exact ih fun j hj => hzero j (List.mem_cons_of_mem i hj)
    · rfl

theorem loadExtents_empty {disk : Bytes} : ∀ {is : List Nat} {total offset : Nat},
    (∀ i ∈ is, inode.extentLength i = 0) →
    loadExtents disk inode a is total offset mem = mem := by
  intro is
  induction is with
  | nil => exact fun _ => rfl
  | cons i is ih =>
    intro total offset hzero
    have hnone : Fs.readSectors disk mem (u32 (inode.extentLength i * Fs.sectorsPerBlock))
        (Fs.blockSector (inode.extentFirst i)) (u32 (a + offset)) = mem := by
      rw [hzero i List.mem_cons_self, Nat.zero_mul]
      exact blit_zero _ _ _
    unfold loadExtents
    split
    · simp only [hnone]
      exact ih fun j hj => hzero j (List.mem_cons_of_mem i hj)
    · rfl

variable (hext : s.superblock.directExtentsPerInode = 4) (hone : SingleBlock inode b)
  (ha : a < 4294967296)

include hext hone ha

/-- **`fs_save_file`** writes the page at the start of the buffer, unless the file is empty. -/
theorem fsSaveFile_single (hl : s.superblock.layout.Sound) (hs : s.superblock.layout.Shown b)
    (hb : b < Fs.diskBlocks) : (fsSaveFile s mem inode a).volume =
      if 0 < inode.sizeBytes then s.volume.putBlock b (slice mem a) else s.volume := by
  have hrest : ∀ i ∈ [1, 2, 3], inode.extentLength i = 0 := by
    intro i hi
    have hrange : 1 ≤ i ∧ i < 4 := by
      simp only [List.mem_cons, List.not_mem_nil, or_false] at hi
      omega
    exact hone.rest i hrange.1 hrange.2
  have hwrite : Fs.writeSectors s.disk mem (u32 (1 * Fs.sectorsPerBlock)) (Fs.blockSector b)
      (u32 (a + 0)) = Fs.writeBlock s.disk b (slice mem a) := by
    have hslice : slice mem (u32 (a + 0)) = slice (slice mem a) 0 := by
      funext p
      rw [Nat.add_zero, u32_eq ha, slice_apply, slice_apply, slice_apply, Nat.zero_add]
    unfold Fs.writeBlock Fs.writeSectors
    rw [hslice]
    rfl
  unfold fsSaveFile
  rw [hext]
  show Fs.volume s.superblock.layout
    (saveExtents mem inode a (0 :: [1, 2, 3]) (Fs.bytesToBlocks inode.sizeBytes) 0 s.disk) = _
  unfold saveExtents
  rw [Fs.bytesToBlocks_eq]
  by_cases hsize : 0 < inode.sizeBytes
  · rw [if_pos (by omega), if_pos hsize]
    simp only [hone.first, hone.length, hwrite]
    rw [saveExtents_empty hrest, Fs.volume_writeBlock hl hs hb]
    rfl
  · rw [if_neg (by omega), if_neg hsize]
    rfl

/-- **`fs_load_file`** reads the block to the start of the buffer. -/
theorem fsLoadFile_single (hb : b < Fs.diskBlocks) (q : Nat) : fsLoadFile s mem inode a q =
    if 0 < inode.sizeBytes ∧ a ≤ q ∧ q < a + 4096 then s.disk (b * 4096 + (q - a)) else mem q := by
  have hrest : ∀ i ∈ [1, 2, 3], inode.extentLength i = 0 := by
    intro i hi
    have hrange : 1 ≤ i ∧ i < 4 := by
      simp only [List.mem_cons, List.not_mem_nil, or_false] at hi
      omega
    exact hone.rest i hrange.1 hrange.2
  unfold fsLoadFile
  rw [hext]
  show loadExtents s.disk inode a (0 :: [1, 2, 3]) _ 0 mem q = _
  unfold loadExtents
  rw [Fs.bytesToBlocks_eq]
  split
  · next hblocks =>
    have hread := @readExtent_apply s.disk mem b 1 (u32 (a + 0)) q hb
    rw [Nat.add_zero, u32_eq ha] at hread
    simp only [hone.first, hone.length, Nat.add_zero, u32_eq ha]
    rw [loadExtents_empty hrest, hread]
    by_cases hin : a ≤ q ∧ q < a + 4096
    · rw [if_pos hin, if_pos ⟨by omega, hin⟩]
    · rw [if_neg hin, if_neg fun hall => hin hall.2]
  · next hblocks => rw [if_neg fun hall => hblocks (by omega)]

end

theorem sameExtents_resized (inode : Inode) (offset : Nat) :
    SameExtents (resized inode offset) inode := by
  unfold resized
  split
  · exact Fs.sameExtents_setSize
  · exact .refl inode

/-! ## 3. The writes -/

/-- **The descriptor of a new file**: element `i` of the inode table holds its inode, block `b` of
the disk is its block, and its buffer starts at `a`. -/
structure NewDescriptor (k₁ : Kernel) (fd i b a : Nat) : Prop where
  index : i < maxOpen
  number : fileNumber k₁ fd = (k₁.openInodeTable i).id
  alone : ∀ j < maxOpen, j ≠ i → (k₁.openInodeTable j).id ≠ fileNumber k₁ fd
  unused : (k₁.openInodeTable i).refCount = 0
  block : SingleBlock (k₁.openInodeTable i) b
  sane : Fs.Sane k₁.fs
  stored : SameExtents (k₁.fs.volume.inode (fileNumber k₁ fd)) (k₁.openInodeTable i)
  file : PlainFile k₁.fs (fileNumber k₁ fd)
  standard : fd ≠ 1 ∧ fd ≠ 2
  start : 0 < a

/-- **What was written up to now**: the size in the table and the offset are those of the data; its
first 4096 bytes are in the buffer and on the disk, where nothing else changed. -/
structure Written (k₁ : Kernel) (fd i b a : Nat) (data : List UInt8) (k : Kernel) : Prop where
  address : (k.openFileTable fd).address = a
  offset : (k.openFileTable fd).offset = data.length
  inode : (k.openFileTable fd).inode = some i
  opened : (k.openFileTable fd).refCount = 1
  flags : (k.openFileTable fd).flags = oCreat ||| oRdwr
  pages : 1 ≤ (k.openFileTable fd).pagesAllocated ∧
    (k.openFileTable fd).pagesAllocated * pageSize ≤ data.length + pageSize
  next : k.nextAvailableFileVirtualAddress = a + (k.openFileTable fd).pagesAllocated * pageSize
  extents : SameExtents (k.openInodeTable i) (k₁.openInodeTable i)
  size : (k.openInodeTable i).sizeBytes = data.length
  others : ∀ j, j ≠ i → k.openInodeTable j = k₁.openInodeTable j
  mem : ∀ j (hj : j < data.length), j < 4096 → k.mem (a + j) = data[j]
  disk : FileRewritten k₁.fs k.fs (fileNumber k₁ fd)
  number : (k.fs.volume.inode (fileNumber k₁ fd)).id = fileNumber k₁ fd
  stored : ∀ j (hj : j < data.length), j < 4096 → k.fs.volume.content b j = data[j]

section

variable {k₁ k : Kernel} {fd i b a total : Nat} {data : List UInt8} (hk : NewDescriptor k₁ fd i b a)
  (hw : Written k₁ fd i b a data k) (hroom : a + 2 * total + 2 * pageSize < Malloc.addressSpace)

include hw

/-- A write starts behind the data, with a page more when the pages are full. -/
theorem Written.start : writeOffset k (k.openFileTable fd) = data.length ∧
    (k.inodeOf (k.openFileTable fd)).sizeBytes = data.length := by
  have happend : hasFlag (oCreat ||| oRdwr) oAppend = false := by decide
  refine ⟨?_, ?_⟩
  · unfold writeOffset
    rw [hw.flags, happend, hw.offset]
    rfl
  · unfold Kernel.inodeOf
    rw [hw.inode]
    exact hw.size

include hroom

theorem Written.added (hle : data.length ≤ total) : addedPages k (k.openFileTable fd) =
    if (k.openFileTable fd).pagesAllocated * pageSize < data.length then 1 else 0 := by
  obtain ⟨hstart, hsize⟩ := hw.start
  have hpages := hw.pages
  unfold Malloc.addressSpace pageSize at *
  have hgap : sub32 data.length data.length = 0 := by
    rw [sub32_eq (by omega) (Nat.le_refl _), Nat.sub_self]
  have hone : sizeInPages 0 = 1 := by decide
  unfold addedPages pageSize
  rw [hstart, hsize, hgap, hone, u32_eq (by omega)]

/-- Adding pages changes nothing in the first one. -/
theorem Written.extended (ext : Ext) (hle : data.length ≤ total) {p : Nat} (hlo : a ≤ p)
    (hhi : p < a + pageSize) : extendFile ext k (k.openFileTable fd) p = k.mem p := by
  obtain ⟨hstart, hsize⟩ := hw.start
  have hadded := hw.added hroom hle
  have hpages := hw.pages
  have hnext := hw.next
  unfold extendFile
  rw [hadded, hstart, hsize]
  unfold Malloc.addressSpace pageSize at *
  have hgap : sub32 data.length data.length = 0 := by
    rw [sub32_eq (by omega) (Nat.le_refl _), Nat.sub_self]
  rw [hgap]
  simp only [blit_zero]
  rw [u32_eq (by omega)]
  split
  · next hmore =>
    have hout := @Malloc.mapPages_out ext.frames p 1 k.mem k.nextAvailableFileVirtualAddress
    unfold Malloc.addressSpace Malloc.pageSize at hout
    exact hout (by omega) (by omega)
  · rfl

/-- The call succeeds. -/
theorem Written.returns (hstd : fd ≠ 1 ∧ fd ≠ 2) (c : Chunk)
    (hle : data.length + c.len ≤ total) : syscallWrite c.ext k fd c.buf c.len =
      ((c.len : Int), writeFile c.ext k fd i c.buf c.len) := by
  have hneg : ¬ (fd : Int) < 0 := by omega
  have hnot : ¬ ((fd : Int) = 1 ∨ (fd : Int) = 2) := by omega
  have hwronly : hasFlag (oCreat ||| oRdwr) oRdwr = true := by decide
  unfold Malloc.addressSpace pageSize at hroom
  unfold syscallWrite
  simp only [if_neg hneg, if_neg hnot, Int.toNat_natCast, hw.inode, hw.opened, hw.flags, hwronly,
    if_neg Nat.one_ne_zero, Bool.not_true, Bool.and_false]
  rw [if_neg Bool.false_ne_true, toInt32_eq (by omega)]

/-- The buffer after the write. -/
theorem Written.mem_after (c : Chunk) (hle : data.length + c.len ≤ total) (j : Nat)
    (hj : j < (data ++ c.bytes).length) (hpage : j < 4096) :
    (writeFile c.ext k fd i c.buf c.len).mem (a + j) = (data ++ c.bytes)[j] := by
  obtain ⟨hstart, -⟩ := hw.start
  have hmem : (writeFile c.ext k fd i c.buf c.len).mem = blit
      (extendFile c.ext k (k.openFileTable fd))
      (u32 ((k.openFileTable fd).address + writeOffset k (k.openFileTable fd))) c.len c.buf := rfl
  have hext := hw.extended hroom c.ext (Nat.le_of_add_right_le hle) (Nat.le_add_right a j)
    (Nat.add_lt_add_left hpage a)
  rw [List.length_append, length_bytes] at hj
  unfold Malloc.addressSpace at hroom
  rw [hmem, hstart, hw.address, u32_eq (by omega)]
  rcases Nat.lt_or_ge j data.length with hold | hnew
  · rw [blit_out (by omega), hext, hw.mem j hold hpage, List.getElem_append_left hold]
  · rw [blit_in (by omega) (by omega), List.getElem_append_right hnew]
    unfold Chunk.bytes
    rw [List.getElem_map, List.getElem_range]
    congr 1
    omega

include hk

/-- **One write.** -/
theorem Written.write (c : Chunk) (hle : data.length + c.len ≤ total) :
    (syscallWrite c.ext k fd c.buf c.len).1 = c.len ∧
      Written k₁ fd i b a (data ++ c.bytes) (syscallWrite c.ext k fd c.buf c.len).2 := by
  have hmem := hw.mem_after hroom c hle
  rw [hw.returns hroom hk.standard c hle]
  refine ⟨rfl, ?_⟩
  obtain ⟨hstart, hsize⟩ := hw.start
  have hadded := hw.added hroom (Nat.le_of_add_right_le hle)
  have hpages := hw.pages
  have hnext := hw.next
  have hstart0 := hk.start
  have hlen : (data ++ c.bytes).length = data.length + c.len := by
    rw [List.length_append, length_bytes]
  have hword : u32 (writeOffset k (k.openFileTable fd) + c.len) = data.length + c.len := by
    unfold Malloc.addressSpace at hroom
    rw [hstart, u32_eq (by omega)]
  -- the numbers of the table
  obtain ⟨k', hk'⟩ : ∃ k', k' = writeFile c.ext k fd i c.buf c.len := ⟨_, rfl⟩
  have hentry : k'.openFileTable fd = { k.openFileTable fd with
      offset := data.length + c.len
      pagesAllocated := (k.openFileTable fd).pagesAllocated +
        addedPages k (k.openFileTable fd) } := by
    have hfew : (k.openFileTable fd).pagesAllocated + addedPages k (k.openFileTable fd) <
        4294967296 := by
      unfold Malloc.addressSpace pageSize at *
      rw [hadded]
      split <;> omega
    rw [hk', ← hword, ← u32_eq hfew]
    exact Function.update_self ..
  obtain ⟨inode, hinode⟩ : ∃ inode, inode = resized (k.openInodeTable i) (data.length + c.len) :=
    ⟨_, rfl⟩
  have htable : k'.openInodeTable = Function.update k.openInodeTable i inode := by
    rw [hk', hinode, ← hword]
    rfl
  have hextents : SameExtents inode (k₁.openInodeTable i) :=
    (hinode ▸ sameExtents_resized _ _).trans hw.extents
  have hsizeNew : inode.sizeBytes = data.length + c.len := by
    unfold Malloc.addressSpace at hroom
    rw [hinode, sizeBytes_resized _ (by omega), hw.size]
    omega
  have hid : inode.id = fileNumber k₁ fd := hextents.id.trans hk.number.symm
  -- the disk
  have hfs : k'.fs = fsSaveFile (Fs.updateInodeOnDisk k.fs inode) k'.mem inode a := by
    rw [hk', hinode, ← hword, ← hw.address]
    rfl
  have hsuper := hw.disk.superblock
  have hsound : k.fs.superblock.layout.Sound := by
    rw [hsuper]
    exact hk.sane.sound
  have hcap : inode.id < k.fs.superblock.layout.capacity := by
    rw [hid, hsuper]
    exact hk.file.carries.lt
  have hheld := (hk.stored.singleBlock hk.block).holds
  obtain ⟨⟨hshown, hlt⟩, -⟩ := hk.sane.block hk.file.carries.onDisk ((hheld b).mpr rfl)
  have hvolume : k'.fs.volume = if 0 < inode.sizeBytes then
      (k.fs.volume.putInode (fileNumber k₁ fd) inode).putBlock b (slice k'.mem a)
      else k.fs.volume.putInode (fileNumber k₁ fd) inode := by
    have hput : (Fs.updateInodeOnDisk k.fs inode).volume =
        k.fs.volume.putInode (fileNumber k₁ fd) inode := by
      rw [← hid]
      exact Fs.volume_storeInode hsound hcap
    rw [hfs, ← hput]
    have hshown' : k.fs.superblock.layout.Shown b := by
      rw [hsuper]
      exact hshown
    refine fsSaveFile_single hsound.extents (hextents.singleBlock hk.block) ?_ hsound hshown' hlt
    unfold Malloc.addressSpace pageSize at hroom
    omega
  have hinodes : k'.fs.volume.inode =
      Function.update k.fs.volume.inode (fileNumber k₁ fd) inode := by
    rw [hvolume]
    split <;> rfl
  have hcontent : ∀ c', c' ≠ b → k'.fs.volume.content c' = k.fs.volume.content c' := by
    intro c' hne
    rw [hvolume]
    split
    · exact Function.update_of_ne hne _ _
    · rfl
  have hrewritten : FileRewritten k₁.fs k'.fs (fileNumber k₁ fd) := by
    refine ⟨?_, ?_, ?_, fun j hj => ?_, fun c' hc' => ?_⟩
    · rw [hfs]
      exact hw.disk.superblock
    · rw [hfs]
      exact hw.disk.root
    · rw [hfs]
      exact hw.disk.current
    · rw [hinodes, Function.update_of_ne hj]
      exact hw.disk.inode j hj
    · rw [hcontent c' fun heq => hc' ((hheld c').mpr heq)]
      exact hw.disk.content c' hc'
  rw [← hk'] at hmem ⊢
  refine ⟨?_, ?_, ?_, ?_, ?_, ?_, ?_, ?_, ?_, fun j hj => ?_, hmem, hrewritten, ?_,
    fun j hj hpage => ?_⟩
  · rw [hentry]
    exact hw.address
  · rw [hentry, hlen]
  · rw [hentry]
    exact hw.inode
  · rw [hentry]
    exact hw.opened
  · rw [hentry]
    exact hw.flags
  · rw [hentry, hlen, hadded]
    unfold pageSize at *
    simp only
    split <;> omega
  · have hfar : k'.nextAvailableFileVirtualAddress = u32 (k.nextAvailableFileVirtualAddress +
        addedPages k (k.openFileTable fd) * pageSize) := by
      rw [hk']
      rfl
    rw [hentry, hfar, hnext, hadded]
    unfold Malloc.addressSpace pageSize at *
    simp only
    split
    · rw [u32_eq (by omega)]
      omega
    · rw [u32_eq (by omega)]
      omega
  · rw [htable, Function.update_self]
    exact hextents
  · rw [htable, Function.update_self, hsizeNew, hlen]
  · rw [htable, Function.update_of_ne hj]
    exact hw.others j hj
  · rw [hinodes, Function.update_self]
    exact hid
  · rw [← hmem j hj hpage]
    have hpos : 0 < inode.sizeBytes := by
      rw [hsizeNew, ← hlen]
      exact Nat.zero_lt_of_lt hj
    rw [hvolume, if_pos hpos]
    have hself : ((k.fs.volume.putInode (fileNumber k₁ fd) inode).putBlock b
        (slice k'.mem a)).content b = fun p => if p < 4096 then slice k'.mem a p else 0 :=
      Function.update_self ..
    rw [hself]
    exact if_pos hpage

omit hw

/-- **All writes**, by induction on the calls: each returns its full length. -/
theorem Written.writes : ∀ (chunks : List Chunk) {k : Kernel} {data : List UInt8},
    Written k₁ fd i b a data k → data.length + (chunkData chunks).length ≤ total →
    ∃ k₂, writeChunks fd k chunks = some k₂ ∧
      Written k₁ fd i b a (data ++ chunkData chunks) k₂ := by
  intro chunks
  induction chunks with
  | nil =>
    intro k data hw _
    refine ⟨k, rfl, ?_⟩
    rwa [show chunkData [] = [] from rfl, List.append_nil]
  | cons c cs ih =>
    intro k data hw hle
    rw [chunkData_cons, List.length_append, length_bytes] at hle
    obtain ⟨hlen, hnext⟩ := hw.write hk hroom c (by omega)
    obtain ⟨k₂, hrun, hwritten⟩ := ih hnext (by rw [List.length_append, length_bytes]; omega)
    refine ⟨k₂, ?_, ?_⟩
    · unfold writeChunks
      simp only [if_pos hlen]
      exact hrun
    · rw [chunkData_cons, ← List.append_assoc]
      exact hwritten

end

/-! ## 4. Creating the file -/

theorem sizeBytes_createdInode (env : Fs.Env) (s : State) :
    (Fs.createdInode env s).sizeBytes = 0 := by
  have hsame : Packed.Same (Fs.createdInode env s) Fs.noInode 5 4 :=
    ((((Packed.same_set32 (by decide)).trans (Packed.same_set32 (by decide))).trans
      (Packed.same_setPart (by decide))).trans (Packed.same_set8 (by decide))).trans
      (Packed.same_set32 (by decide))
  exact hsame.get32.trans (Packed.get32_zero 5)

section

variable {ext : Ext} {k k₁ : Kernel} {path : CString} {fd total : Nat}
  (h : JustCreated ext k path fd k₁)

include h

/-- The call creates the file and opens its inode. -/
theorem JustCreated.opens : (Fs.fsCreateFile ext.fsEnv k.fs path).1.id ≠ 0 ∧
    openInode ext { k with fs := (Fs.fsCreateFile ext.fsEnv k.fs path).2 }
      (Fs.fsCreateFile ext.fsEnv k.fs path).1 (oCreat ||| oRdwr) = (fd, k₁) := by
  have hopened := h.opened
  have hflag : hasFlag (oCreat ||| oRdwr) oCreat = true := by decide
  unfold syscallOpen at hopened
  rw [if_neg (not_not_intro h.missing)] at hopened
  simp only [hflag, Bool.not_true, Bool.false_eq_true, if_false] at hopened
  split at hopened
  · have hneg := congrArg Prod.fst hopened
    simp only at hneg
    omega
  · next hne =>
    obtain ⟨hfd, hk⟩ := Prod.mk.inj hopened
    exact ⟨hne, Prod.ext (Int.natCast_inj.mp hfd) hk⟩

/-- **The descriptor of the file**, with nothing written. -/
theorem JustCreated.newDescriptor (hm : MemoryLeft k total) : ∃ i,
    NewDescriptor k₁ fd i k.fs.superblock.firstFreeDataBit k.nextAvailableFileVirtualAddress ∧
      Written k₁ fd i k.fs.superblock.firstFreeDataBit k.nextAvailableFileVirtualAddress [] k₁ := by
  obtain ⟨hne, hopen⟩ := h.opens
  obtain ⟨hinode, hnew⟩ := h.disk.created h.room hne
  rw [hinode] at hopen
  have hid := Fs.id_createdInode ext.fsEnv k.fs
  have hsize := sizeBytes_createdInode ext.fsEnv k.fs
  have hone : sizeInPages 0 = 1 := by decide
  obtain ⟨i, inode, henter, hent⟩ := @enterInode_entered k.openInodeTable
    (Fs.createdInode ext.fsEnv k.fs)
    (Or.inr ⟨hid.symm ▸ h.others maxOpen (Nat.le_refl _), h.element⟩)
  obtain rfl : inode = Fs.createdInode ext.fsEnv k.fs := by
    rcases hent.counted with ⟨hin, -⟩ | ⟨-, -, -, heq⟩
    · exact absurd (hin.trans hid) (h.others i (Nat.le_of_lt hent.index))
    · exact heq
  obtain ⟨-, hinodes, hfiles, hnext, -, hfs⟩ := openInode_tables hopen henter
  have hentry : k₁.openFileTable fd = openedFile k fd i (Fs.createdInode ext.fsEnv k.fs)
      (oCreat ||| oRdwr) := by
    rw [hfiles]
    exact Function.update_self ..
  have hpages : (k₁.openFileTable fd).pagesAllocated = 1 := by
    rw [hentry]
    unfold openedFile
    rw [h.descriptor.1, hsize, hone]
    rfl
  have hstored : k₁.openInodeTable i = Fs.createdInode ext.fsEnv k.fs := by
    rw [hinodes, Function.update_self]
  have hnumber : fileNumber k₁ fd = k.fs.superblock.firstFreeInodeBit := by
    have hptr : (k₁.openFileTable fd).inode = some i := by
      rw [hentry]
      rfl
    unfold fileNumber Kernel.inodeOf
    rw [hptr]
    simp only
    rw [hstored, hid]
  have hroom := hm.room
  unfold Malloc.addressSpace pageSize at hroom
  refine ⟨i, ⟨hent.index, ?_, fun j hj hji => ?_, ?_, ?_, ?_, ?_, ?_, h.descriptor.2, hm.start⟩,
    ?_, ?_, ?_, ?_, ?_, ?_, ?_, ?_, ?_, fun _ _ => rfl, fun j hj => absurd hj (Nat.not_lt_zero j),
    .refl _ _, ?_, fun j hj => absurd hj (Nat.not_lt_zero j)⟩
  · rw [hnumber, hstored, hid]
  · rw [hinodes, Function.update_of_ne hji, hnumber]
    exact h.others j (Nat.le_of_lt hj)
  · rw [hstored]
    exact Fs.refCount_createdInode ..
  · rw [hstored]
    exact Fs.singleBlock_createdInode ..
  · rw [hfs]
    exact hnew.sane
  · rw [hnumber, hstored, hfs]
    exact hnew.inode ▸ .refl _
  · rw [hnumber, hfs]
    exact hnew.file
  · rw [hentry]
    rfl
  · rw [hentry]
    rfl
  · rw [hentry]
    rfl
  · rw [hentry]
    rfl
  · rw [hentry]
    rfl
  · rw [hpages]
    exact ⟨Nat.le_refl 1, Nat.le_add_left _ _⟩
  · rw [hnext, hpages, hsize, hone]
    have hsum : k.nextAvailableFileVirtualAddress + 1 * pageSize < 4294967296 := by
      unfold pageSize
      omega
    exact u32_eq hsum
  · exact .refl _
  · rw [hstored, hsize]
    rfl
  · rw [hnumber, hfs, hnew.inode, hid]

end

/-! ## 5. Closing and opening again -/

/-- The search for a file that is in the table once. -/
theorem enterInode_again {table : Nat → Inode} {fileInode : Inode} {i : Nat} (hi : i < maxOpen)
    (hid : (table i).id = fileInode.id)
    (honly : ∀ j < maxOpen, j ≠ i → (table j).id ≠ fileInode.id) :
    enterInode table fileInode = (i, Function.update table i
      ((table i).setRefCount (u8 ((table i).refCount + 1)))) := by
  obtain ⟨hlt, hfound⟩ := searchInode_found ⟨i, hi, hid⟩
  have hindex : searchInode table fileInode.id = i := by
    by_contra hne
    exact honly _ hlt hne hfound
  unfold enterInode
  simp only [hindex, if_pos hid.symm]

/-- Counting the descriptors changes nothing else of an inode. -/
theorem same_setRefCount (inode : Inode) (v : Nat) :
    Packed.Same (inode.setRefCount v) inode 0 61 := Packed.same_set8 (by decide)

theorem sizeBytes_setRefCount (inode : Inode) (v : Nat) :
    (inode.setRefCount v).sizeBytes = inode.sizeBytes :=
  ((same_setRefCount inode v).mono (by decide) (by decide)).get32

theorem singleBlock_setRefCount {inode : Inode} {b : Nat} (h : SingleBlock inode b) (v : Nat) :
    SingleBlock (inode.setRefCount v) b := by
  have hfirst : (inode.setRefCount v).extentFirst 0 = inode.extentFirst 0 :=
    ((same_setRefCount inode v).mono (by decide) (by decide)).get32
  have hlength : ∀ k < 4, (inode.setRefCount v).extentLength k = inode.extentLength k :=
    fun k hk => ((same_setRefCount inode v).mono (by omega) (by omega)).get32
  exact ⟨hfirst.trans h.first, (hlength 0 (by decide)).trans h.length,
    fun k hk hlt => (hlength k hlt).trans (h.rest k hk hlt)⟩

/-- **The file is open again**, with its first page from the disk and the others from new frames. -/
structure Reopened (reopen : Ext) (data : List UInt8) (fd : Nat) (k : Kernel) : Prop where
  readable : Readable k fd
  size : fileSize k fd = data.length
  offset : (k.openFileTable fd).offset = 0
  bytes : ∀ j (hj : j < data.length), k.mem ((k.openFileTable fd).address + j) =
    if j < 4096 then data[j] else reopen.frames ((k.openFileTable fd).address + j)

section

variable {k₁ k : Kernel} {fd i b a total : Nat} {data : List UInt8} {path : CString}
  (hk : NewDescriptor k₁ fd i b a) (hw : Written k₁ fd i b a data k)

include hk hw

/-- **`syscall_close`** leaves the inode in the table: its count goes from 0 to 255. -/
theorem Written.close (close : Ext) : (syscallClose close k fd).1 = 0 ∧
    (syscallClose close k fd).2.openInodeTable = Function.update k.openInodeTable i
      ((k.openInodeTable i).setRefCount 255) ∧
    (syscallClose close k fd).2.nextAvailableFileVirtualAddress =
      k.nextAvailableFileVirtualAddress ∧
    (syscallClose close k fd).2.fs = k.fs := by
  obtain ⟨-, hinodes, hnext⟩ := @syscallClose_tables close k fd i hw.opened hw.inode
  have hzero : (k.openInodeTable i).refCount = 0 := hw.extents.refCount.get8.trans hk.unused
  have hreleased : releasedInode (k.openInodeTable i) = (k.openInodeTable i).setRefCount 255 := by
    have hcount : ((k.openInodeTable i).setRefCount 255).refCount ≠ 0 := by
      rw [Fs.Inode.refCount_setRefCount]
      decide
    unfold releasedInode
    rw [hzero]
    exact if_neg hcount
  have hneg : ¬ (fd : Int) < 0 := by omega
  have hsub : sub32 1 1 = 0 := by decide
  rw [hreleased] at hinodes
  refine ⟨?_, hinodes, hnext, syscallClose_fs close k fd⟩
  unfold syscallClose
  rw [if_neg hneg]
  simp only [Int.toNat_natCast, hw.inode, hw.opened, hsub, if_neg Nat.one_ne_zero]
  rfl

/-- **`syscall_open`** finds the file, and its inode in the table. -/
theorem Written.reopen (hroom : a + 2 * data.length + 2 * pageSize < Malloc.addressSpace)
    (close reopen : Ext) (hleads : Fs.LeadsTo reopen.fsEnv k₁.fs path (fileNumber k₁ fd)) :
    ∃ (fd' : Nat) (k₄ : Kernel), syscallOpen reopen (syscallClose close k fd).2 path oRdonly =
      ((fd' : Int), k₄) ∧ Reopened reopen data fd' k₄ := by
  obtain ⟨-, hinodes, hnext, hfs⟩ := hw.close hk close
  generalize (syscallClose close k fd).2 = k₃ at *
  -- the path leads to the file
  have hfound : Fs.inodeFromPath reopen.fsEnv k₃.fs path =
      k.fs.volume.inode (fileNumber k₁ fd) := by
    rw [hfs, FileRewritten.path hk.sane hk.file hw.disk hleads.way]
    exact if_pos hleads.number
  have hid : (Fs.inodeFromPath reopen.fsEnv k₃.fs path).id = fileNumber k₁ fd := by
    rw [hfound]
    exact hw.number
  have hne : fileNumber k₁ fd ≠ 0 := hk.file.carries.1
  have hopen : syscallOpen reopen k₃ path oRdonly =
      (((openInode reopen k₃ (Fs.inodeFromPath reopen.fsEnv k₃.fs path) oRdonly).1 : Int),
        (openInode reopen k₃ (Fs.inodeFromPath reopen.fsEnv k₃.fs path) oRdonly).2) := by
    unfold syscallOpen
    rw [if_pos (by rw [hid]; exact hne)]
  -- its inode is element `i` of the table
  have hself : (k₃.openInodeTable i) = (k.openInodeTable i).setRefCount 255 := by
    rw [hinodes, Function.update_self]
  have henter := @enterInode_again k₃.openInodeTable
    (Fs.inodeFromPath reopen.fsEnv k₃.fs path) i hk.index
    (by rw [hself, Fs.Inode.id_setRefCount, hw.extents.id, hid, hk.number])
    (fun j hj hji => by
      rw [hinodes, Function.update_of_ne hji, hw.others j hji, hid]
      exact hk.alone j hj hji)
  obtain ⟨inode, hinode⟩ : ∃ inode, inode =
      (k₃.openInodeTable i).setRefCount (u8 ((k₃.openInodeTable i).refCount + 1)) := ⟨_, rfl⟩
  rw [← hinode] at henter
  have hsize : inode.sizeBytes = data.length := by
    rw [hinode, sizeBytes_setRefCount, hself, sizeBytes_setRefCount, hw.size]
  have hblock : SingleBlock inode b := by
    rw [hinode, hself]
    exact singleBlock_setRefCount (singleBlock_setRefCount (hw.extents.singleBlock hk.block) _) _
  generalize Fs.inodeFromPath reopen.fsEnv k₃.fs path = found at *
  obtain ⟨fd', hfd⟩ : ∃ fd', fd' = (openInode reopen k₃ found oRdonly).1 := ⟨_, rfl⟩
  obtain ⟨k₄, hk₄⟩ : ∃ k₄, k₄ = (openInode reopen k₃ found oRdonly).2 := ⟨_, rfl⟩
  rw [← hfd, ← hk₄] at hopen
  refine ⟨fd', k₄, hopen, ?_⟩
  obtain ⟨-, htable, hfiles, -, hmem, -⟩ := openInode_tables
    (Prod.ext hfd.symm hk₄.symm : openInode reopen k₃ found oRdonly = (fd', k₄)) henter
  have hentry : k₄.openFileTable fd' = openedFile k₃ fd' i inode oRdonly := by
    rw [hfiles]
    exact Function.update_self ..
  have haddress : (k₄.openFileTable fd').address = k₃.nextAvailableFileVirtualAddress := by
    rw [hentry]
    rfl
  have hoffset : (k₄.openFileTable fd').offset = 0 := by
    rw [hentry]
    rfl
  have hfileSize : fileSize k₄ fd' = data.length := by
    have hptr : (k₄.openFileTable fd').inode = some i := by
      rw [hentry]
      rfl
    unfold fileSize Kernel.inodeOf
    rw [hptr]
    simp only
    rw [htable, Function.update_self, hsize]
  -- the new buffer fits behind the old one
  have hpages := hw.pages
  have hstart := hk.start
  rw [hw.next] at hnext
  have hneeded : data.length ≤ sizeInPages data.length * pageSize ∧
      sizeInPages data.length * pageSize ≤ data.length + pageSize := by
    unfold sizeInPages pageSize
    rw [Fs.bytesToBlocks_eq]
    split <;> omega
  have hfits : k₃.nextAvailableFileVirtualAddress + sizeInPages data.length * pageSize <
      Malloc.addressSpace := by
    rw [hnext]
    omega
  refine ⟨⟨?_, ?_, ?_, ?_, ?_⟩, hfileSize, hoffset, fun j hj => ?_⟩
  · refine ⟨?_, ?_⟩
    · rw [hentry]
      exact Nat.one_ne_zero
    · rw [haddress, hnext]
      omega
  · rw [hentry]
    show hasFlag oRdonly oWronly = false
    decide
  · rw [haddress, hfileSize]
    omega
  · rw [hfileSize]
    unfold Malloc.addressSpace at hroom
    omega
  · rw [hoffset]
    exact Nat.zero_le _
  · have hsuper : k.fs.superblock = k₁.fs.superblock := hw.disk.superblock
    have hextents : k₃.fs.superblock.directExtentsPerInode = 4 := by
      rw [hfs, hsuper]
      exact hk.sane.sound.extents
    obtain ⟨⟨hshown, hlt⟩, -⟩ := hk.sane.block hk.file.carries.onDisk
      (((hk.stored.singleBlock hk.block).holds b).mpr rfl)
    unfold Malloc.addressSpace at hfits
    rw [haddress, hmem, fsLoadFile_single hextents hblock (by omega) hlt, hsize]
    by_cases hpage : j < 4096
    · rw [if_pos ⟨by omega, by omega, by omega⟩, if_pos hpage, ← hw.stored j hj hpage, hfs,
        Nat.add_sub_cancel_left]
      refine (if_pos ⟨?_, hpage⟩).symm
      rw [hsuper]
      exact hshown
    · rw [if_neg (by omega), if_neg hpage]
      have hmapped := @Malloc.mapPages_in reopen.frames (k₃.nextAvailableFileVirtualAddress + j)
        (sizeInPages data.length) k₃.mem k₃.nextAvailableFileVirtualAddress
      exact hmapped (Nat.le_of_lt hfits) (Nat.le_add_right _ _)
        (Nat.add_lt_add_left (Nat.lt_of_lt_of_le hj hneeded.1) _)

omit hk hw

/-- **Reading it to the end** yields the bytes of the buffer. -/
theorem Reopened.read {reopen : Ext} (h : Reopened reopen data fd k) {n : Nat} (hn : 1 ≤ n)
    (hn' : n < 2147483648) {fuel : Nat} (hfuel : data.length < fuel) : ∃ pieces k',
      readLoop fd n fuel k = some (pieces, k') ∧
        pieces.flatten = loadedBytes k fd 0 data.length := by
  have hturns : (fileSize k fd - (k.openFileTable fd).offset + n - 1) / n < fuel := by
    rw [h.size, h.offset, Nat.sub_zero]
    refine Nat.div_lt_of_lt_mul ?_
    have hmul : fuel ≤ n * fuel := Nat.le_mul_of_pos_left fuel hn
    have hmore : n * (data.length + 1) ≤ n * fuel := Nat.mul_le_mul_left n hfuel
    have hless : data.length ≤ n * data.length := Nat.le_mul_of_pos_left _ hn
    rw [Nat.mul_succ] at hmore
    omega
  obtain ⟨pieces, hloop, hpieces⟩ := readLoop_pieces hn hn' fuel h.readable hturns
  rw [h.offset, h.size] at hpieces
  exact ⟨pieces, _, hloop, hpieces.bytes⟩

/-- The bytes of the first page are those that were written. -/
theorem Reopened.loaded {reopen : Ext} (h : Reopened reopen data fd k) {j : Nat}
    (hj : j < data.length) : (loadedBytes k fd 0 data.length)[j]? =
      some (if j < 4096 then data[j] else reopen.frames ((k.openFileTable fd).address + j)) := by
  rw [← h.bytes j hj]
  unfold loadedBytes
  rw [List.getElem?_map, Nat.sub_zero, List.getElem?_range' hj, Nat.zero_add, Nat.one_mul]
  rfl

theorem Reopened.whole {reopen : Ext} (h : Reopened reopen data fd k)
    (hshort : data.length ≤ 4096) : loadedBytes k fd 0 data.length = data := by
  refine List.ext_getElem? fun j => ?_
  rcases Nat.lt_or_ge j data.length with hj | hj
  · rw [h.loaded hj, if_pos (Nat.lt_of_lt_of_le hj hshort), List.getElem?_eq_getElem hj]
  · rw [List.getElem?_eq_none (by rw [length_loadedBytes]; exact hj), List.getElem?_eq_none hj]

end

/-! ## 6. What survives -/

section

variable {ext : Ext} {k k₁ k₂ : Kernel} {path : CString} {fd : Nat} {chunks : List Chunk}
  (h : JustCreated ext k path fd k₁) (hm : MemoryLeft k (chunkData chunks).length)

include h hm

/-- Every write returns its full length. -/
theorem JustCreated.writes : ∃ i k₂, writeChunks fd k₁ chunks = some k₂ ∧
    NewDescriptor k₁ fd i k.fs.superblock.firstFreeDataBit k.nextAvailableFileVirtualAddress ∧
      Written k₁ fd i k.fs.superblock.firstFreeDataBit k.nextAvailableFileVirtualAddress
        (chunkData chunks) k₂ := by
  obtain ⟨i, hk, hstart⟩ := h.newDescriptor hm
  obtain ⟨k₂, hrun, hw⟩ := hstart.writes hk hm.room chunks (Nat.le_of_eq (Nat.zero_add _))
  exact ⟨i, k₂, hrun, hk, hw⟩

variable (hwritten : writeChunks fd k₁ chunks = some k₂)

include hwritten

/-- **One page is kept.** -/
theorem JustCreated.kept (hshort : (chunkData chunks).length ≤ 4096) :
    Survives k₁ k₂ fd path (chunkData chunks) := by
  obtain ⟨i, k', hrun, hk, hw⟩ := h.writes hm
  obtain rfl := Option.some.inj (hwritten.symm.trans hrun)
  intro close reopen hleads
  obtain ⟨fd', k₄, hopen, hre⟩ := hw.reopen hk hm.room close reopen hleads
  refine ⟨(hw.close hk close).1, fd', k₄, hopen, fun n hn hn' fuel hfuel => ?_⟩
  obtain ⟨pieces, k₅, hloop, hpieces⟩ := hre.read hn hn' hfuel
  exact ⟨pieces, k₅, hloop, hpieces.trans (hre.whole hshort)⟩

/-- **More is lost**: byte 4096 is the one that a new frame holds. -/
theorem JustCreated.lost (hlong : 4096 < (chunkData chunks).length) :
    ¬ Survives k₁ k₂ fd path (chunkData chunks) := by
  obtain ⟨i, k', hrun, hk, hw⟩ := h.writes hm
  obtain rfl := Option.some.inj (hwritten.symm.trans hrun)
  have hroom := hm.room
  generalize chunkData chunks = data at *
  intro hsurvives
  obtain ⟨reopen, henv, hframes⟩ : ∃ reopen : Ext, reopen.fsEnv = ext.fsEnv ∧
      ∀ p, reopen.frames p = data[4096] + 1 := ⟨⟨ext.fsEnv, fun _ => data[4096] + 1, 0⟩, rfl,
    fun _ => rfl⟩
  have hleads : Fs.LeadsTo reopen.fsEnv k₁.fs path (fileNumber k₁ fd) := henv ▸ h.leads
  obtain ⟨-, fd', k₄, hopen, hread⟩ := hsurvives ext reopen hleads
  obtain ⟨fd'', k₄', hopen', hre⟩ := hw.reopen hk hroom ext reopen hleads
  obtain ⟨hfd, rfl⟩ := Prod.mk.inj (hopen.symm.trans hopen')
  obtain rfl := Int.natCast_inj.mp hfd
  obtain ⟨pieces, _, hloop, hpieces⟩ :=
    hread 1 (Nat.le_refl 1) (by decide) _ (Nat.lt_succ_self data.length)
  obtain ⟨pieces', _, hloop', hloaded⟩ :=
    hre.read (Nat.le_refl 1) (by decide) (Nat.lt_succ_self data.length)
  obtain ⟨rfl, -⟩ := Prod.mk.inj (Option.some.inj (hloop.symm.trans hloop'))
  have hbyte := hre.loaded hlong
  rw [← hloaded, hpieces, List.getElem?_eq_getElem hlong, if_neg (Nat.lt_irrefl _), hframes]
    at hbyte
  have hnext := congrArg UInt8.toNat (Option.some.inj hbyte)
  rw [UInt8.toNat_add] at hnext
  have hbound := data[4096].toNat_lt
  have hone : (1 : UInt8).toNat = 1 := rfl
  omega

end

/-- **Written data survives close and reopen** when it is at most 4096 bytes long, and only then:
what lies behind that is in no block of the disk. -/
theorem survives_iff (ext : Ext) (k k₁ k₂ : Kernel) (path : CString) (fd : Nat)
    (chunks : List Chunk) (h : JustCreated ext k path fd k₁)
    (hm : MemoryLeft k (chunkData chunks).length)
    (hwritten : writeChunks fd k₁ chunks = some k₂) :
    Survives k₁ k₂ fd path (chunkData chunks) ↔ (chunkData chunks).length ≤ 4096 :=
  ⟨fun hsurvives => Nat.le_of_not_lt fun hlong => h.lost hm hwritten hlong hsurvives,
    h.kept hm hwritten⟩

/-! ## 7. A file of one page and a byte -/

/-- Nothing but zeros around the kernel. -/
def zeroExt : Ext := ⟨Fs.quietEnv, fun _ => 0, 0⟩

/-- A kernel without open files, on a disk with one file. -/
def quietKernel : Kernel := { freshKernel Fs.noInode with fs := Fs.bootable 1 }

/-- The kernel after `x` was created. -/
def createdKernel : Kernel := (syscallOpen zeroExt quietKernel Fs.plainPath (oCreat ||| oRdwr)).2

theorem createdKernel_justCreated :
    JustCreated zeroExt quietKernel Fs.plainPath 0 createdKernel := by
  refine ⟨Fs.bootable_wellFormed (by decide), ⟨Fs.plainPath_ok ?_, ?_, Or.inr ⟨?_, ?_, ?_, ?_⟩⟩, ?_,
    Prod.ext ?_ rfl, ⟨Fs.plainPath_ok ?_, ?_⟩, ⟨rfl, by decide, by decide⟩, ⟨0, by decide, ?_⟩,
    fun i _ => ?_⟩
  · decide +kernel
  · decide +kernel
  · decide +kernel
  · decide +kernel
  · decide +kernel
  · decide +kernel
  · decide +kernel
  · decide +kernel
  · decide +kernel
  · decide +kernel
  · decide +kernel
  · have hhint : (0 : Nat) ≠ quietKernel.fs.superblock.firstFreeInodeBit := by decide +kernel
    exact hhint

/-- A write of zeros. -/
def zeroChunk (len : Nat) : Chunk := ⟨zeroExt, fun _ => 0, len⟩

theorem length_zeroChunk (len : Nat) : (chunkData [zeroChunk len]).length = len := by
  rw [chunkData_cons, List.length_append, length_bytes]
  rfl

theorem quietKernel_memory {len : Nat} (hlen : len ≤ 4097) :
    MemoryLeft quietKernel (chunkData [zeroChunk len]).length := by
  rw [length_zeroChunk]
  refine ⟨by decide, ?_⟩
  show 0x40000000 + 2 * len + 2 * 4096 < 4294967296
  omega

/-- Two writes, of the bytes 1 to 2 and 3 to 5. -/
def fiveChunks : List Chunk :=
  [⟨zeroExt, fun p => UInt8.ofNat (p + 1), 2⟩, ⟨zeroExt, fun p => UInt8.ofNat (p + 3), 3⟩]

/-- Five bytes survive. -/
theorem survives_five : ∃ k₂, writeChunks 0 createdKernel fiveChunks = some k₂ ∧
    Survives createdKernel k₂ 0 Fs.plainPath [1, 2, 3, 4, 5] := by
  have hdata : chunkData fiveChunks = [1, 2, 3, 4, 5] := by decide +kernel
  have hm : MemoryLeft quietKernel (chunkData fiveChunks).length := by
    rw [hdata]
    exact ⟨by decide, by decide⟩
  obtain ⟨-, k₂, hrun, -⟩ := createdKernel_justCreated.writes hm
  refine ⟨k₂, hrun, ?_⟩
  have hsurvives := (survives_iff zeroExt quietKernel createdKernel k₂ Fs.plainPath 0 fiveChunks
    createdKernel_justCreated hm hrun).mpr (by rw [hdata]; decide)
  rwa [hdata] at hsurvives

/-- **A page and a byte do not**, although the write returns 4097. -/
theorem page_and_byte_lost : ¬ ∀ (ext : Ext) (k k₁ k₂ : Kernel) (path : CString) (fd : Nat)
    (chunks : List Chunk), JustCreated ext k path fd k₁ →
    MemoryLeft k (chunkData chunks).length → writeChunks fd k₁ chunks = some k₂ →
      Survives k₁ k₂ fd path (chunkData chunks) := by
  intro hall
  have hm := @quietKernel_memory 4097 (Nat.le_refl _)
  obtain ⟨-, k₂, hrun, -⟩ := createdKernel_justCreated.writes hm
  have hsurvives := hall zeroExt quietKernel createdKernel k₂ Fs.plainPath 0 [zeroChunk 4097]
    createdKernel_justCreated hm hrun
  exact createdKernel_justCreated.lost hm hrun (by rw [length_zeroChunk]; decide) hsurvives

end AmateurOs.Syscalls
