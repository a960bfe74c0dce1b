/-
# The size of the image

`main` of the image builder does not compare what the tree needs with the blocks of the disk.
`disk_blocks - bytes_to_blocks(ftell(..))` is the number of padding blocks, and it wraps when the
image is larger already: `main` then returns 0 all the same.

Where the tree fits, the image has the size of the disk and its extents lie inside
(`room_kept`), also where `num_inode_blocks`, a `uint16_t`, is too small for the inodes: the table
runs into the data, but not beyond it.  So a disk is kept exactly when the tree fits or the build
stops before it is written (`diskKept_iff`).
-/
import AmateurOs.MakeDisk.Failures

namespace AmateurOs.MakeDisk

open AmateurOs.Lib AmateurOs.Fs
open AmateurOs.Terminal (text)

/-! ## 1. The end of the file -/

/-- A write that ends there. -/
def Image.Reaches (b : Image) (e : Nat) : Prop :=
  ∃ w ∈ b.writes, w.length ≠ 0 ∧ w.start + w.length = e

section

variable {b b' : Image} {e : Nat}

/-- Later writes keep it. -/
theorem Image.Reaches.mono (h : b.Reaches e) {ws : List Write} (hws : b'.writes = b.writes ++ ws) :
    b'.Reaches e := by
  obtain ⟨w, hw, hend⟩ := h
  exact ⟨w, hws ▸ List.mem_append_left _ hw, hend⟩

theorem reaches_write (b : Image) (owner : Nat) (src : Bytes) {len : Nat} (hlen : len ≠ 0) :
    (b.write owner src len).Reaches (b.pos + len) :=
  ⟨⟨owner, b.pos, len⟩, List.mem_append_right _ (List.mem_singleton_self _), hlen, rfl⟩

/-- Padding goes on to the end of the block. -/
theorem Image.Reaches.pad (h : b.Reaches b.pos) (owner bytes : Nat) :
    (b.pad owner bytes).Reaches (b.pos + numPaddingBytes bytes fsBlockSize) := by
  by_cases hzero : numPaddingBytes bytes fsBlockSize = 0
  · rw [hzero, Nat.add_zero]
    exact h.mono rfl
  · exact reaches_write b owner _ hzero

/-- The size of the file after one more write. -/
def Write.grow (size : Nat) (w : Write) : Nat :=
  if w.length = 0 then size else max size (w.start + w.length)

theorem size_eq_foldl (b : Image) : b.size = b.writes.foldl Write.grow 0 := rfl

theorem foldl_grow_le {ws : List Write} : ∀ {size : Nat}, size ≤ e →
    (∀ w ∈ ws, w.start + w.length ≤ e) → ws.foldl Write.grow size ≤ e := by
  induction ws with
  | nil => exact fun hsize _ => hsize
  | cons w ws ih =>
    intro size hsize hws
    refine ih ?_ fun w' hw' => hws w' (List.mem_cons_of_mem _ hw')
    have hw := hws w List.mem_cons_self
    unfold Write.grow
    split <;> omega

theorem le_foldl_grow (ws : List Write) : ∀ size : Nat, size ≤ ws.foldl Write.grow size := by
  induction ws with
  | nil => exact fun size => Nat.le_refl _
  | cons w ws ih =>
    intro size
    refine Nat.le_trans ?_ (ih _)
    unfold Write.grow
    split <;> omega

theorem mem_le_foldl_grow {ws : List Write} {w : Write} (hw : w ∈ ws) (hlength : w.length ≠ 0) :
    ∀ size : Nat, w.start + w.length ≤ ws.foldl Write.grow size := by
  induction ws with
  | nil => exact absurd hw List.not_mem_nil
  | cons w' ws ih =>
    intro size
    rcases List.mem_cons.mp hw with rfl | hw
    · refine Nat.le_trans ?_ (le_foldl_grow ws _)
      unfold Write.grow
      rw [if_neg hlength]
      exact Nat.le_max_right _ _
    · exact ih hw _

/-- **The size of a file** is where its last write ends. -/
theorem size_eq (hle : ∀ w ∈ b.writes, w.start + w.length ≤ e) (hend : b.Reaches e) :
    b.size = e := by
  obtain ⟨w, hw, hlength, hat⟩ := hend
  rw [size_eq_foldl]
  refine Nat.le_antisymm (foldl_grow_le (Nat.zero_le _) hle) ?_
  rw [← hat]
  exact mem_le_foldl_grow hw hlength 0

/-- **The padding blocks** end where they should, and write nothing else. -/
theorem padBlocks_size : ∀ (n : Nat) {b : Image} {e : Nat}, b.pos = e →
    (∀ w ∈ b.writes, w.start + w.length ≤ e) → b.Reaches e →
    (padBlocks n b).size = e + n * fsBlockSize ∧ (padBlocks n b).made = b.made
  | 0, b, e, _, hle, hend => by
    rw [Nat.zero_mul, Nat.add_zero]
    exact ⟨size_eq hle hend, rfl⟩
  | n + 1, b, e, hpos, hle, hend => by
    have hnext : ∀ w ∈ (b.write 0 (fun _ => 0) fsBlockSize).writes,
        w.start + w.length ≤ e + fsBlockSize := by
      intro w hw
      rcases List.mem_append.mp hw with hw | hw
      · exact Nat.le_trans (hle w hw) (Nat.le_add_right _ _)
      · rw [List.mem_singleton.mp hw, ← hpos]
    obtain ⟨hsize, hmade⟩ := @padBlocks_size n (b.write 0 (fun _ => 0) fsBlockSize)
      (e + fsBlockSize) (by rw [← hpos]; rfl) hnext (hpos ▸ reaches_write b 0 _ (by decide))
    refine ⟨hsize.trans ?_, hmade⟩
    rw [Nat.add_mul, Nat.one_mul, Nat.add_assoc, Nat.add_comm fsBlockSize]

/-! ## 2. The tree reaches the end of its blocks -/

/-- The data of a file. -/
theorem writeSectorsOf_reaches (owner : Nat) : ∀ (n : Nat) (data : List UInt8) (total : Nat)
    (b : Image), data.length ≤ n * fsSectorSize → data ≠ [] →
    (writeSectorsOf owner n data total b).1.Reaches (b.pos + data.length)
  | 0, data, _, _, h, hne => by
    have hpos := List.length_pos_of_ne_nil hne
    omega
  | n + 1, data, total, b, h, hne => by
    have hpos := List.length_pos_of_ne_nil hne
    have hrest : (data.drop fsSectorSize).length ≤ n * fsSectorSize := by
      rw [List.length_drop]
      rw [Nat.add_mul, Nat.one_mul] at h
      omega
    have htake : (data.take fsSectorSize).length ≠ 0 := by
      rw [List.length_take]
      unfold fsSectorSize
      omega
    have hfirst := reaches_write b owner (fun k => (data.take fsSectorSize).getD k 0) htake
    unfold writeSectorsOf
    by_cases hnil : data.drop fsSectorSize = []
    · have hlength : (data.take fsSectorSize).length = data.length := by
        have hsplit := congrArg List.length (List.take_append_drop fsSectorSize data)
        rwa [hnil, List.append_nil] at hsplit
      obtain ⟨ws, hchanged, -⟩ := (writeSectorsOf_filled owner n (data.drop fsSectorSize)
        (total + (data.take fsSectorSize).length) (b.write owner
          (fun k => (data.take fsSectorSize).getD k 0) (data.take fsSectorSize).length)
            hrest).1.changed
      rw [← hlength]
      exact hfirst.mono hchanged.writes
    · have hlength : b.pos + data.length = b.pos + (data.take fsSectorSize).length +
          (data.drop fsSectorSize).length := by
        rw [List.length_take, List.length_drop]
        omega
      rw [hlength]
      exact writeSectorsOf_reaches owner n _ _ _ hrest hnil

/-- A file. -/
theorem writeFile_reaches {sb : Superblock} (path : List (List UInt8)) (data : List UInt8)
    (id : Nat) (b : Image) (h : b.firstBlock + bytesToBlocks data.length ≤ maxBlocks)
    (hpos : 0 < bytesToBlocks data.length) :
    (writeFile sb path data id b).Reaches
      ((b.firstBlock + bytesToBlocks data.length) * fsBlockSize) := by
  have hsize : u32 data.length = data.length := u32_of_blocks ((Nat.le_add_left _ _).trans h)
  have hne : data ≠ [] := by
    rintro rfl
    exact absurd hpos (by decide)
  have hstart := seek_extent (b.addInode sb ⟨path, id, filetypeFile, data.length, b.firstBlock,
    bytesToBlocks data.length⟩) h
  unfold writeFile
  simp only [hsize]
  generalize (b.addInode sb ⟨path, id, filetypeFile, data.length, b.firstBlock,
    bytesToBlocks data.length⟩).seek (u32 (b.firstBlock * fsBlockSize)) = b' at *
  obtain ⟨hfilled, htotal⟩ := writeSectorsOf_filled id (bytesToSectors data.length) data 0 b'
    (bytesToSectors_le _)
  have hreaches := writeSectorsOf_reaches id (bytesToSectors data.length) data 0 b'
    (bytesToSectors_le _) hne
  rw [← hfilled.pos] at hreaches
  have hpad := hreaches.pad id data.length
  rw [hfilled.pos, Nat.add_assoc, numPaddingBytes_eq, hstart, ← Nat.add_mul] at hpad
  rw [htotal, Nat.zero_add]
  exact hpad

variable {sb : Superblock}

mutual

/-- **A file or directory reaches the end of its blocks**, where it has any. -/
theorem writeNode_reaches : ∀ (node : Node) (path : List (List UInt8)) (id parent : Nat)
    (b : Image), b.firstBlock + node.blocks ≤ maxBlocks →
    b.nextInodeId + node.fresh < 4294967296 → 0 < node.blocks →
      (writeNode sb node path id parent b).Reaches ((b.firstBlock + node.blocks) * fsBlockSize)
  | .file data, path, id, _, b => by
    unfold writeNode Node.blocks Node.fresh
    exact fun h _ hpos => writeFile_reaches path data id b h hpos
  | .dir entries, path, id, parent, b => by
    unfold writeNode Node.blocks Node.fresh
    intro hblocks hfresh _
    have hsize : u32 ((entries.length + 2) * dirEntrySize) = (entries.length + 2) * dirEntrySize :=
      u32_of_blocks (by omega)
    simp only [hsize]
    generalize hbytes : (entries.length + 2) * dirEntrySize = size at *
    have hextent : b.firstBlock + bytesToBlocks size ≤ maxBlocks := by omega
    obtain ⟨hat, hbefore, hsame⟩ := @beginDir_cursors sb path size id parent b hextent
    have hroom := numPaddingBytes_eq size
    have hstarted : (beginDir sb path size id parent b).1.Reaches
        (beginDir sb path size id parent b).1.pos := by
      unfold beginDir
      exact reaches_write _ id _ (by decide)
    have hposition : (beginDir sb path size id parent b).1.pos + entries.length * dirEntrySize =
        b.firstBlock * fsBlockSize + size := by
      rw [hat, Nat.add_assoc, ← Nat.add_mul, Nat.add_comm 2, hbytes]
    have hloop := @writeEntries_wrote sb entries path id (beginDir sb path size id parent b).2
      (beginDir sb path size id parent b).1 (by omega) (by omega) (by
      rw [hposition]
      rw [maxBlocks_eq] at hextent
      unfold fsBlockSize at *
      omega)
    obtain ⟨hentries, htrees⟩ := writeEntries_reaches entries path id
      (beginDir sb path size id parent b).2 (beginDir sb path size id parent b).1 (by omega)
      (by omega) (by
      rw [hposition]
      rw [maxBlocks_eq] at hextent
      unfold fsBlockSize at *
      omega) hstarted
    rcases Nat.eq_zero_or_pos entries.blocks with hzero | hpos
    · rw [← hloop.pos] at hentries
      have hpad := hentries.pad id size
      rw [hloop.pos, hposition, Nat.add_assoc, hroom, ← Nat.add_mul] at hpad
      rw [hzero, Nat.add_zero]
      exact hpad
    · rw [← Nat.add_assoc, ← hbefore]
      exact (htrees hpos).mono rfl

/-- **The loop over a directory** reaches the end of the entries, and of the blocks below them. -/
theorem writeEntries_reaches : ∀ (entries : Entries) (path : List (List UInt8)) (id : Nat)
    (e : DirEntry) (b : Image),
    b.firstBlock + entries.blocks ≤ maxBlocks → b.nextInodeId + entries.fresh < 4294967296 →
    b.pos + entries.length * dirEntrySize < 4294967296 → b.Reaches b.pos →
      (writeEntries sb entries path id e b).Reaches (b.pos + entries.length * dirEntrySize) ∧
        (0 < entries.blocks → (writeEntries sb entries path id e b).Reaches
          ((b.firstBlock + entries.blocks) * fsBlockSize))
  | .nil, _, _, _, b => by
    unfold writeEntries Entries.blocks Entries.length
    intro _ _ _ hreaches
    rw [Nat.zero_mul, Nat.add_zero]
    exact ⟨hreaches, fun hpos => absurd hpos (Nat.lt_irrefl _)⟩
  | .cons name node rest, path, id, e, b => by
    unfold writeEntries Entries.blocks Entries.fresh Entries.length
    intro hblocks hfresh hposition _
    have hnext := @nextId_eq name b.nextInodeId (by omega)
    have hstep : (if name = thirdStage then b.nextInodeId else b.nextInodeId + 1) =
        b.nextInodeId + if name = thirdStage then 0 else 1 := by
      split <;> rfl
    rw [Nat.add_mul, Nat.one_mul] at hposition ⊢
    simp only [hnext, hstep]
    generalize (if name = thirdStage then 0 else 1) = step at *
    -- the entry and what it names, and then the rest
    have hwritten := @reaches_write { b with nextInodeId := b.nextInodeId + step } id
      (e.fill (childId name b.nextInodeId) name).bytes dirEntrySize (by decide)
    have hnode := @writeNode_wrote sb node (path ++ [name]) (childId name b.nextInodeId) id
      (({ b with nextInodeId := b.nextInodeId + step } : Image).write id
        (e.fill (childId name b.nextInodeId) name).bytes dirEntrySize)
      (show b.firstBlock + node.blocks ≤ maxBlocks by omega)
      (show b.nextInodeId + step + node.fresh < 4294967296 by omega)
    have hnodeReaches := writeNode_reaches node (path ++ [name]) (childId name b.nextInodeId) id
      (({ b with nextInodeId := b.nextInodeId + step } : Image).write id
        (e.fill (childId name b.nextInodeId) name).bytes dirEntrySize)
      (show b.firstBlock + node.blocks ≤ maxBlocks by omega)
      (show b.nextInodeId + step + node.fresh < 4294967296 by omega)
    have hentry := hnode.entry (by omega) (Nat.le_add_right _ _)
    obtain ⟨ws, hchanged, -⟩ := hnode.changed
    have hbehind := hwritten.mono hchanged.writes
    rw [Nat.add_sub_cancel_left] at hentry
    have hrest := @writeEntries_wrote sb rest path id (e.fill (childId name b.nextInodeId) name) _
      (by rw [hentry.firstBlock]; omega) (by rw [hentry.nextInodeId]; omega)
      (by rw [hentry.pos]; omega)
    obtain ⟨hentries, htrees⟩ := writeEntries_reaches rest path id
      (e.fill (childId name b.nextInodeId) name) _
      (by rw [hentry.firstBlock]; omega) (by rw [hentry.nextInodeId]; omega)
      (by rw [hentry.pos]; omega) (by rw [hentry.pos]; exact hbehind)
    rw [hentry.pos, Nat.add_assoc, Nat.add_comm dirEntrySize] at hentries
    rw [hentry.firstBlock, Nat.add_assoc] at htrees
    refine ⟨hentries, fun hpos => ?_⟩
    rcases Nat.eq_zero_or_pos rest.blocks with hzero | hmore
    · obtain ⟨ws', hchanged', -⟩ := hrest.changed
      rw [hzero, Nat.add_zero] at hpos ⊢
      exact (hnodeReaches hpos).mono hchanged'.writes
    · exact htrees hmore

end

end

/-! ## 3. The sizes of a tree -/

theorem bitmapBlocks_eq (bits : Nat) : bitmapBlocks bits = (bits + 32767) / 32768 := by
  unfold bitmapBlocks bitsPerBlock
  split <;> omega

mutual

/-- The blocks of a directory have room for its entries and those below. -/
theorem Node.count_le_blocks : ∀ node : Node, node.count ≤ 64 * node.blocks
  | .file _ => by
    unfold Node.count
    exact Nat.zero_le _
  | .dir entries => by
    unfold Node.count Node.blocks
    have hentries := entries.count_le_blocks
    rw [bytesToBlocks_eq]
    unfold dirEntrySize
    omega

theorem Entries.count_le_blocks : ∀ entries : Entries,
    entries.count ≤ entries.length + 64 * entries.blocks
  | .nil => by
    unfold Entries.count
    exact Nat.zero_le _
  | .cons _ node rest => by
    unfold Entries.count Entries.length Entries.blocks
    have hnode := node.count_le_blocks
    have hrest := rest.count_le_blocks
    omega

end

/-- A directory below has two entries more. -/
theorem Entries.find_count : ∀ (entries : Entries) (name : List UInt8) {below : Entries},
    entries.find name = some (.dir below) →
      entries.count + 2 ≤ entries.length + 64 * entries.blocks
  | .nil, _, _, hfind => by cases hfind
  | .cons name' node rest, name, below, hfind => by
    unfold Entries.count Entries.length Entries.blocks
    have hrest := rest.count_le_blocks
    unfold Entries.find at hfind
    split at hfind
    · obtain rfl := Option.some.inj hfind
      have hbelow := below.count_le_blocks
      unfold Node.count Node.blocks
      rw [bytesToBlocks_eq]
      unfold dirEntrySize
      omega
    · have hnode := node.count_le_blocks
      have hfound := rest.find_count name hfind
      omega

/-- **A tree with the boot files** has blocks for more inodes than it has files. -/
theorem Host.Boots.count_le {h : Host} {root : Entries} (hboots : h.Boots root) :
    root.count + 4 ≤ 64 * (Node.dir root).blocks := by
  obtain ⟨sect, _, hsect, hsector, -⟩ := hboots
  obtain ⟨below, hbelow⟩ : ∃ below, root.find (text "sys") = some (.dir below) := by
    unfold Host.bootFile bootSectPath at hsect
    split at hsect
    · unfold Node.nodeAt at hsect
      cases hfind : root.find (text "sys") with
      | none =>
        rw [hfind] at hsect
        cases hsect
      | some node =>
        cases node with
        | file data =>
          rw [hfind] at hsect
          cases hsect
        | dir below => exact ⟨below, rfl⟩
    · cases hsect
  have hcount := root.find_count _ hbelow
  unfold Node.blocks
  rw [bytesToBlocks_eq]
  unfold dirEntrySize
  omega

/-- `bytes_to_blocks(disk_size)`. -/
def requestedBlocks (diskSize : Nat) : Nat := bytesToBlocks (u32 diskSize)

theorem requestedBlocks_le (diskSize : Nat) : requestedBlocks diskSize ≤ 1048576 := by
  have hlt := u32_lt diskSize
  unfold requestedBlocks
  rw [bytesToBlocks_eq]
  omega

/-- **The blocks that a tree needs** on such a disk: the boot block and the superblock, the inode
bitmap, the data bitmap, the inodes, and the files and directories. -/
def blocksNeeded (diskSize : Nat) (root : Entries) : Nat :=
  let inodeBitmap := bitmapBlocks (root.count + 2)
  let inodes := builtInodeBlocks root.count
  let dataBitmap := bitmapBlocks (requestedBlocks diskSize - (2 + inodeBitmap) - inodes - 1)
  2 + inodeBitmap + dataBitmap + inodes + (Node.dir root).blocks

/-- **Room for the tree**: its files are counted, and the areas follow each other in the disk. -/
structure Room (sb : Superblock) (disk : Nat) (root : Entries) : Prop where
  inodes : sb.numInodes = root.count + 2
  bitmap : 2 + bitmapBlocks (root.count + 2) ≤ sb.firstInodeBlock
  table : sb.firstInodeBlock ≤ sb.firstDataBlock
  blocks : numDataBlocks sb = u16 (sb.firstDataBlock + (Node.dir root).blocks)
  fits : sb.firstDataBlock + (Node.dir root).blocks ≤ disk

theorem sub32_three {a b c d : Nat} (ha : a < 4294967296) (h : b + c + d ≤ a) :
    sub32 (sub32 (sub32 a b) c) d = a - b - c - d := by
  rw [@sub32_eq a b ha (by omega), @sub32_eq (a - b) c (by omega) (by omega),
    sub32_eq (by omega) (by omega)]

/-- **The superblock of a tree that needs no more than the disk.** -/
theorem writeSuperblockFor_room {diskSize : Nat} {root : Entries}
    (hneeded : blocksNeeded diskSize root ≤ requestedBlocks diskSize) :
    Room (writeSuperblockFor (requestedBlocks diskSize) root.count (Node.dir root).blocks)
      (requestedBlocks diskSize) root := by
  have hdisk := requestedBlocks_le diskSize
  have hroot := one_le_blocks root
  unfold blocksNeeded at hneeded
  simp only at hneeded
  have hinodeBlocks : builtInodeBlocks root.count = ((root.count + 2) * 64 + 4095) / 4096 :=
    bytesToBlocks_eq _
  have hbitmap := bitmapBlocks_eq (root.count + 2)
  have hneed := bitmapBlocks_eq (requestedBlocks diskSize - (2 + bitmapBlocks (root.count + 2)) -
    builtInodeBlocks root.count - 1)
  have hdata := bitmapBlocks_eq (requestedBlocks diskSize - (2 + bitmapBlocks (root.count + 2)) -
    builtInodeBlocks root.count % 65536 - 1)
  have hinodes : builtInodes root.count = root.count + 2 := u32_eq (by omega)
  have htable : u16 (bytesToBlocks (u32 ((root.count + 2) * 64))) =
      builtInodeBlocks root.count % 65536 := by
    rw [u32_eq (by omega)]
    rfl
  generalize bitmapBlocks (requestedBlocks diskSize - (2 + bitmapBlocks (root.count + 2)) -
    builtInodeBlocks root.count - 1) = needed at *
  generalize hsb : writeSuperblockFor _ root.count _ = sb
  unfold writeSuperblockFor at hsb
  simp only [hinodes, htable] at hsb
  have hwide : u16 (bitmapBlocks (root.count + 2)) = bitmapBlocks (root.count + 2) :=
    Nat.mod_eq_of_lt (by omega)
  have hfirst : u16 (2 + bitmapBlocks (root.count + 2)) = 2 + bitmapBlocks (root.count + 2) :=
    Nat.mod_eq_of_lt (by omega)
  have hbits := @sub32_three (requestedBlocks diskSize) (2 + bitmapBlocks (root.count + 2))
    (builtInodeBlocks root.count % 65536) 1 (by omega) (by omega)
  rw [hwide, hfirst, hbits] at hsb
  generalize bitmapBlocks (requestedBlocks diskSize - (2 + bitmapBlocks (root.count + 2)) -
    builtInodeBlocks root.count % 65536 - 1) = dataBitmap at *
  have hnarrow : u16 dataBitmap = dataBitmap := Nat.mod_eq_of_lt (by omega)
  have hinodeArea : u32 (2 + bitmapBlocks (root.count + 2) + dataBitmap) =
    2 + bitmapBlocks (root.count + 2) + dataBitmap := u32_eq (by omega)
  have hdataArea : u32 (2 + bitmapBlocks (root.count + 2) + dataBitmap +
    builtInodeBlocks root.count % 65536) = 2 + bitmapBlocks (root.count + 2) + dataBitmap +
      builtInodeBlocks root.count % 65536 := u32_eq (by omega)
  rw [hnarrow] at hsb
  have hfields : sb.numInodes = root.count + 2 ∧
      sb.firstInodeBlock = 2 + bitmapBlocks (root.count + 2) + dataBitmap ∧
      sb.firstDataBlock = 2 + bitmapBlocks (root.count + 2) + dataBitmap +
        builtInodeBlocks root.count % 65536 ∧
      numDataBlocks sb = u16 (2 + bitmapBlocks (root.count + 2) + dataBitmap +
        builtInodeBlocks root.count % 65536 + (Node.dir root).blocks) := by
    rw [← hsb]
    unfold Superblock.numInodes Superblock.firstInodeBlock Superblock.firstDataBlock numDataBlocks
    simp (disch := decide) only [Packed.get16_set16, Packed.get16_set8_ne, Packed.get16_set16_ne,
      Packed.get16_set32_ne, Packed.get32_set32, Packed.get32_set8_ne, Packed.get32_set16_ne,
      Packed.get32_set32_ne]
    exact ⟨u32_eq (by omega), hinodeArea, hdataArea, trivial⟩
  obtain ⟨hnum, harea, hfirstData, hblocks⟩ := hfields
  refine ⟨hnum, by omega, by omega, by rw [hblocks, hfirstData], ?_⟩
  omega

/-! ## 4. The areas in front of the inodes -/

/-- **The image after the header**, or where an assert ends it: a bounded number of writes, in front
of the inodes. -/
structure HeaderWrote (sb : Superblock) (b : Image) : Prop where
  cursors : b.nextInodeId = 3 ∧ b.made = []
  count : b.writes.length ≤
    3 + 1024 * (bitmapBlocks sb.numInodes + bitmapBlocks (numDataBlocks sb))
  inside : ∀ w ∈ b.writes, w.start + w.length ≤
    (2 + bitmapBlocks sb.numInodes + bitmapBlocks (numDataBlocks sb)) * fsBlockSize

/-- The words of a bitmap are no more than its blocks have. -/
theorem wordCount_le (bits : Nat) : wordCount bits ≤ 1024 * bitmapBlocks bits := by
  rw [bitmapBlocks_eq]
  unfold wordCount
  omega

/-- The words of a bitmap behind some writes. -/
theorem WroteWords.writes_le {bits n blocks count : Nat} {b b' : Image}
    (h : WroteWords bits b b' n) (hn : n ≤ 1024 * blocks) (hpos : b.pos = count * fsBlockSize)
    (hle : ∀ w ∈ b.writes, w.start + w.length ≤ b.pos) :
    b'.writes.length ≤ b.writes.length + 1024 * blocks ∧
      ∀ w ∈ b'.writes, w.start + w.length ≤ (count + blocks) * fsBlockSize := by
  obtain ⟨ws, hws, hlength, hinside⟩ := h.writes
  have hend : b.pos + 4 * n ≤ (count + blocks) * fsBlockSize := by
    rw [hpos]
    unfold fsBlockSize
    omega
  rw [hws]
  refine ⟨?_, fun w hw => ?_⟩
  · rw [List.length_append]
    omega
  · rcases List.mem_append.mp hw with hw | hw
    · have := hle w hw
      omega
    · exact Nat.le_trans (hinside w hw) hend

theorem writeHeader_wrote (bootBlock : Bytes) (sb : Superblock) :
    ∃ b, HeaderWrote sb b ∧ (writeHeader bootBlock sb newImage = .ok b ∨
      writeHeader bootBlock sb newImage = .error b) := by
  have hinodes : sb.numInodes < 4294967296 := Packed.get32_lt _ _
  have hblocks : numDataBlocks sb < 4294967296 := Nat.lt_trans (Packed.get16_lt _ _) (by decide)
  obtain ⟨b₀, hb₀⟩ : ∃ b₀, b₀ = ((newImage.write 0 bootBlock fsBlockSize).write 0 sb.bytes
    64).write 0 (fun _ => 0) (numPaddingBytes 64 fsBlockSize) := ⟨_, rfl⟩
  have hpos : b₀.pos = 2 * fsBlockSize := by
    rw [hb₀]
    rfl
  have hcursors : b₀.nextInodeId = 3 ∧ b₀.made = [] := by
    rw [hb₀]
    exact ⟨rfl, rfl⟩
  have hwrites : b₀.writes = [⟨0, 0, 4096⟩, ⟨0, 4096, 64⟩, ⟨0, 4160, 4032⟩] := by
    rw [hb₀]
    rfl
  have hcount : b₀.writes.length = 3 := by rw [hwrites]; rfl
  have hle : ∀ w ∈ b₀.writes, w.start + w.length ≤ b₀.pos := by
    rw [hwrites, hpos]
    decide
  have hrun : writeHeader bootBlock sb newImage =
      (writeInodeBitmapBlocks sb b₀).bind (writeDataBitmapBlocks sb) := by
    rw [hb₀]
    rfl
  rw [hrun]
  unfold writeInodeBitmapBlocks writeDataBitmapBlocks
  by_cases hpad : Padded sb.numInodes
  · obtain ⟨b₁, hok, hwords⟩ := writeBits_ok hinodes hpad b₀
    obtain ⟨hcount₁, hle₁⟩ := hwords.writes_le (Nat.le_refl _) hpos hle
    have hpos₁ : b₁.pos = (2 + bitmapBlocks sb.numInodes) * fsBlockSize := by
      rw [hwords.pos, hpos]
      unfold fsBlockSize
      omega
    obtain ⟨hnext₁, hmade₁⟩ := hwords.cursors
    have hdone : ∀ {n : Nat} {b₂ : Image}, WroteWords (numDataBlocks sb) b₁ b₂ n →
        n ≤ 1024 * bitmapBlocks (numDataBlocks sb) → HeaderWrote sb b₂ := by
      intro n b₂ hwords₂ hn
      obtain ⟨hcount₂, hle₂⟩ := hwords₂.writes_le hn hpos₁ (hpos₁ ▸ hle₁)
      obtain ⟨hnext₂, hmade₂⟩ := hwords₂.cursors
      exact ⟨⟨by rw [hnext₂, hnext₁, hcursors.1], by rw [hmade₂, hmade₁, hcursors.2]⟩,
        by omega, hle₂⟩
    rw [hok]
    by_cases hpad' : Padded (numDataBlocks sb)
    · obtain ⟨b₂, hok', hwords₂⟩ := writeBits_ok hblocks hpad' b₁
      exact ⟨b₂, hdone hwords₂ (Nat.le_refl _), Or.inl hok'⟩
    · obtain ⟨b₂, hwords₂, herror⟩ := writeBits_error hblocks hpad' b₁
      exact ⟨b₂, hdone hwords₂ (wordCount_le _), Or.inr herror⟩
  · obtain ⟨b₁, hwords, herror⟩ := writeBits_error hinodes hpad b₀
    obtain ⟨hcount₁, hle₁⟩ := hwords.writes_le (wordCount_le _) hpos hle
    obtain ⟨hnext₁, hmade₁⟩ := hwords.cursors
    rw [herror]
    refine ⟨b₁, ⟨⟨by rw [hnext₁, hcursors.1], by rw [hmade₁, hcursors.2]⟩, by omega,
      fun w hw => ?_⟩, Or.inr rfl⟩
    exact Nat.le_trans (hle₁ w hw) (Nat.mul_le_mul_right _ (Nat.le_add_right _ _))

/-! ## 5. The tree and the padding -/

/-- The numbers of a plan are no more than the inodes. -/
theorem plan_id_le (root : Entries) (first : Nat) {m : Made}
    (hm : m ∈ (Node.dir root).plan [] 1 first 3) : m.id ≤ root.count + 2 := by
  have hmem := ((Node.dir root).plan_ids [] 1 first 3).mem_iff.mp (List.mem_map_of_mem hm)
  have hcount := root.count_eq
  have hfresh : (Node.dir root).fresh = root.fresh := by unfold Node.fresh; rfl
  rw [hfresh] at hmem
  rcases List.mem_cons.mp hmem with hid | hmem
  · omega
  · rcases List.mem_append.mp hmem with hmem | hmem
    · have := (List.mem_replicate.mp hmem).2
      omega
    · rw [List.mem_range'_1] at hmem
      omega

/-- **Everything in the blocks up to `e`**, and the last byte of them written. -/
structure FilledTo (b : Image) (e : Nat) : Prop where
  inside : ∀ w ∈ b.writes, w.start + w.length ≤ e * fsBlockSize
  reaches : b.Reaches (e * fsBlockSize)
  extents : ∀ m ∈ b.made, m.first + m.length ≤ e

/-- **The tree is written** behind the header. -/
theorem Room.filled {sb : Superblock} {disk : Nat} {root : Entries} (h : Room sb disk root)
    (hdisk : disk ≤ 1048576) (hcount : root.count + 4 ≤ 64 * (Node.dir root).blocks)
    (hpad : Padded (numDataBlocks sb)) {b : Image} (hheader : HeaderWrote sb b) :
    sb.firstDataBlock + (Node.dir root).blocks ≤ maxBlocks ∧
      FilledTo (writeNode sb (.dir root) [] 1 1 { b with firstBlock := sb.firstDataBlock })
        (sb.firstDataBlock + (Node.dir root).blocks) := by
  have hroot := one_le_blocks root
  obtain ⟨hinodes, hbitmap, htable, hblocks, hfits⟩ := h
  have hsmall : sb.firstDataBlock + (Node.dir root).blocks ≤ maxBlocks := by
    rw [hblocks] at hpad
    rw [maxBlocks_eq]
    unfold Padded bitsPerBlock u16 at hpad
    omega
  have hfresh : (Node.dir root).fresh = root.fresh := by unfold Node.fresh; rfl
  have hfiles := root.count_eq
  have hroom : 3 + (Node.dir root).fresh < 4294967296 := by
    rw [maxBlocks_eq] at hsmall
    omega
  obtain ⟨hnext, hmade⟩ := hheader.cursors
  have hwrote := @writeNode_wrote sb (.dir root) [] 1 1 { b with firstBlock := sb.firstDataBlock }
    hsmall (by rw [show Image.nextInodeId _ = 3 from hnext]; exact hroom)
  have hreaches := @writeNode_reaches sb (.dir root) [] 1 1
    { b with firstBlock := sb.firstDataBlock } hsmall
    (by rw [show Image.nextInodeId _ = 3 from hnext]; exact hroom) hroot
  have hplan : (Node.dir root).plan [] 1 sb.firstDataBlock b.nextInodeId =
    (Node.dir root).plan [] 1 sb.firstDataBlock 3 := by rw [hnext]
  have htiles := (Node.dir root).plan_tiles [] 1 sb.firstDataBlock 3
  obtain ⟨ws, hchanged, hown⟩ := hwrote.changed
  refine ⟨hsmall, fun w hw => ?_, hreaches, fun m hm => ?_⟩
  · rw [hchanged.writes] at hw
    rcases List.mem_append.mp hw with hw | hw
    · -- the header
      refine Nat.le_trans (hheader.inside w hw) (Nat.mul_le_mul_right _ ?_)
      have hbits := bitmapBlocks_eq (root.count + 2)
      have hdataBits := bitmapBlocks_eq (numDataBlocks sb)
      rw [hblocks] at hdataBits
      rw [hinodes, hblocks]
      rw [maxBlocks_eq] at hsmall
      unfold u16 at *
      omega
    · obtain ⟨m, hm, -, hwithin⟩ := hown w hw
      change m ∈ (Node.dir root).plan [] 1 sb.firstDataBlock b.nextInodeId at hm
      rw [hplan] at hm
      rcases hwithin with ⟨-, hslot⟩ | ⟨-, hextent⟩
      · -- an inode
        have hid := plan_id_le root _ hm
        rw [maxBlocks_eq] at hsmall
        refine Nat.le_trans hslot ?_
        unfold inodePos fsBlockSize
        rw [@u32_eq (sb.firstInodeBlock + m.id / 64) (by omega), u32_eq (by omega)]
        omega
      · exact Nat.le_trans hextent (Nat.mul_le_mul_right _ (htiles.mem hm).2)
  · rw [hwrote.made] at hm
    rcases List.mem_append.mp hm with hm | hm
    · change m ∈ b.made at hm
      rw [hmade] at hm
      exact absurd hm List.not_mem_nil
    · change m ∈ (Node.dir root).plan [] 1 sb.firstDataBlock b.nextInodeId at hm
      rw [hplan] at hm
      exact (htiles.mem hm).2

/-- **The image is padded** to the blocks of the disk, where it has no more. -/
theorem FilledTo.padded {b : Image} {e diskSize : Nat} (h : FilledTo b e) (hsmall : e ≤ maxBlocks)
    (he : e ≤ requestedBlocks diskSize) :
    (padDisk diskSize b).size = requestedBlocks diskSize * fsBlockSize ∧
      (padDisk diskSize b).made = b.made := by
  have hsize := size_eq h.inside h.reaches
  have hdisk := requestedBlocks_le diskSize
  rw [maxBlocks_eq] at hsmall
  have hbytes : u32 (e * fsBlockSize) = e * fsBlockSize := by
    unfold fsBlockSize
    exact u32_eq (by omega)
  have hblocks : bytesToBlocks (e * fsBlockSize) = e := by
    rw [bytesToBlocks_eq]
    unfold fsBlockSize
    omega
  have hpad : padDisk diskSize b =
      padBlocks (requestedBlocks diskSize - e) (b.seek (e * fsBlockSize)) := by
    unfold padDisk
    rw [hsize]
    show padBlocks (sub32 (requestedBlocks diskSize) (bytesToBlocks (u32 (e * fsBlockSize)))) _ = _
    rw [hbytes, hblocks, sub32_eq (by omega) he]
  obtain ⟨hpadded, hmade⟩ := @padBlocks_size (requestedBlocks diskSize - e)
    (b.seek (e * fsBlockSize)) (e * fsBlockSize) rfl h.inside
    (h.reaches.mono (List.append_nil _).symm)
  rw [hpad]
  refine ⟨hpadded.trans ?_, hmade⟩
  rw [← Nat.add_mul, Nat.add_sub_cancel' he]

/-! ## 6. A build on a working host -/

mutual

/-- Where every directory can be opened, a pass meets every entry. -/
theorem Node.met_length : ∀ (node : Node) (path : HostPath),
    (node.met (fun _ => true) path).length = node.count
  | .file _, _ => by
    unfold Node.met Node.count
    rfl
  | .dir entries, path => by
    unfold Node.met Node.count
    rw [if_pos rfl]
    exact entries.met_length path

theorem Entries.met_length : ∀ (entries : Entries) (path : HostPath),
    (entries.met (fun _ => true) path).length = entries.count
  | .nil, _ => by
    unfold Entries.met Entries.count
    rfl
  | .cons name node rest, path => by
    unfold Entries.met Entries.count
    rw [List.length_cons, List.length_append, node.met_length, rest.met_length]

end

theorem writeSuperblockFor_inodes (disk numFiles fileBlocks : Nat) :
    (writeSuperblockFor disk numFiles fileBlocks).numInodes = builtInodes numFiles := by
  unfold writeSuperblockFor Superblock.numInodes
  simp (disch := decide) only [Packed.get32_set32, Packed.get32_set8_ne, Packed.get32_set16_ne,
    Packed.get32_set32_ne]
  exact u32_eq (u32_lt _)

section

variable (diskSize : Nat) (root : Entries)

theorem working_counted : (Host.working.nodeInfo (.dir root) [] ⟨0, 0⟩).1 = true := by
  rw [working_nodeInfo]

/-- The superblock has no more inodes than the tree needs. -/
theorem working_numInodes : (Host.working.superblock diskSize root).numInodes ≤ root.count + 2 := by
  have hlength := (Node.dir root).met_length []
  unfold Node.count at hlength
  rw [Host.working.superblock_met diskSize root (working_counted root)]
  unfold Host.metSuperblock
  rw [writeSuperblockFor_inodes]
  unfold builtInodes
  refine Nat.le_trans (Nat.mod_le _ _) (Nat.add_le_add_right ?_ 2)
  exact Nat.le_trans (Nat.mod_le _ _) (Nat.le_of_eq hlength)

/-- **A build that reaches the second pass** writes the tree and pads the image. -/
theorem main_writes (hwrites : Host.working.Writes diskSize root) :
    ∃ b, HeaderWrote (Host.working.superblock diskSize root) b ∧
      Host.working.main diskSize root = (.success, padDisk diskSize
        (writeNode (Host.working.superblock diskSize root) (.dir root) [] 1 1
          { b with firstBlock := (Host.working.superblock diskSize root).firstDataBlock })) := by
  obtain ⟨hboots, hpad⟩ := hwrites
  rw [← Host.working.superblock_met diskSize root (working_counted root)] at hpad
  obtain ⟨bootBlock, hboot⟩ := (Host.working.readBootBlock_ok root).mpr hboots
  obtain ⟨b, hheader, hrun⟩ := writeHeader_wrote bootBlock (Host.working.superblock diskSize root)
  obtain ⟨b', hok⟩ := (writeHeader_ok bootBlock (Host.working.superblock diskSize root)
    newImage).mpr hpad
  obtain rfl : b' = b := by
    rcases hrun with hrun | hrun
    · exact Except.ok.inj (hok.symm.trans hrun)
    · cases hok.symm.trans hrun
  refine ⟨b', hheader, ?_⟩
  unfold Host.main
  rw [if_pos (working_counted root), hboot]
  simp only [hok, working_writeNode]

/-- **A build that stops before** fails, after no more writes than the bitmaps take. -/
theorem main_stops (hstops : ¬ Host.working.Writes diskSize root) :
    (Host.working.main diskSize root).1 ≠ .success ∧
      (Host.working.main diskSize root).2.writes.length ≤ root.count + 4096 := by
  refine ⟨fun hsuccess =>
    hstops ((Host.working.main_success_iff diskSize root).mp hsuccess).2.1, ?_⟩
  unfold Host.main
  rw [if_pos (working_counted root)]
  cases hboot : Host.working.readBootBlock root with
  | error exit => exact Nat.zero_le _
  | ok bootBlock =>
    obtain ⟨b, hheader, hrun⟩ := writeHeader_wrote bootBlock (Host.working.superblock diskSize root)
    rcases hrun with hrun | hrun
    · refine absurd ⟨(Host.working.readBootBlock_ok root).mp ⟨bootBlock, hboot⟩, ?_⟩ hstops
      rw [← Host.working.superblock_met diskSize root (working_counted root)]
      exact (writeHeader_ok bootBlock _ newImage).mp ⟨b, hrun⟩
    · simp only [hrun]
      have hcount := hheader.count
      have hinodes := working_numInodes diskSize root
      have hbits := bitmapBlocks_eq (Host.working.superblock diskSize root).numInodes
      have hdataBits := bitmapBlocks_eq (numDataBlocks (Host.working.superblock diskSize root))
      have hblocks : numDataBlocks (Host.working.superblock diskSize root) < 65536 :=
        Packed.get16_lt _ _
      omega

/-- **The image has the size of the disk, or the build fails**: on success the image is as long as
the disk and holds every extent, and a tree that needs more makes the build fail after a number of
writes that the size of the tree bounds. -/
def DiskKept : Prop :=
  ((Host.working.main diskSize root).1 = .success →
    (Host.working.main diskSize root).2.size = requestedBlocks diskSize * fsBlockSize ∧
      ∀ m ∈ (Host.working.main diskSize root).2.made,
        m.first + m.length ≤ requestedBlocks diskSize) ∧
    (requestedBlocks diskSize < blocksNeeded diskSize root →
      (Host.working.main diskSize root).1 ≠ .success ∧
        (Host.working.main diskSize root).2.writes.length ≤ root.count + 4096)

variable {diskSize} {root}

/-- **Where the tree fits**, the image has the size of the disk. -/
theorem room_kept (hwrites : Host.working.Writes diskSize root)
    (hneeded : blocksNeeded diskSize root ≤ requestedBlocks diskSize) :
    (Host.working.main diskSize root).2.size = requestedBlocks diskSize * fsBlockSize ∧
      ∀ m ∈ (Host.working.main diskSize root).2.made,
        m.first + m.length ≤ requestedBlocks diskSize := by
  have hdisk := requestedBlocks_le diskSize
  have hcount := hwrites.1.count_le
  have hroom := writeSuperblockFor_room hneeded
  obtain ⟨b, hheader, hrun⟩ := main_writes diskSize root hwrites
  have hpad := hwrites.2.2
  rw [← Host.working.superblock_met diskSize root (working_counted root)] at hpad
  have hsb : Host.working.superblock diskSize root =
      writeSuperblockFor (requestedBlocks diskSize) root.count (Node.dir root).blocks := by
    have hblocks : 2 + builtInodeBlocks root.count + (Node.dir root).blocks ≤
        requestedBlocks diskSize := by
      unfold blocksNeeded at hneeded
      simp only at hneeded
      omega
    have htable : builtInodeBlocks root.count = ((root.count + 2) * 64 + 4095) / 4096 :=
      bytesToBlocks_eq _
    have hinfo := nodeInfo_eq (.dir root) ⟨0, 0⟩
      (show 0 + root.count < _ by omega) (show 0 + _ ≤ _ by rw [maxBlocks_eq]; omega)
    unfold Host.superblock
    rw [working_nodeInfo, hinfo]
    simp only [Nat.zero_add]
    rfl
  rw [hsb] at hheader hrun hpad
  obtain ⟨hsmall, hfilled⟩ := hroom.filled hdisk hcount hpad hheader
  obtain ⟨hsize, hmade⟩ := hfilled.padded hsmall hroom.fits
  rw [hrun]
  refine ⟨hsize, fun m hm => ?_⟩
  rw [hmade] at hm
  exact Nat.le_trans (hfilled.extents m hm) hroom.fits

end

/-- **When a disk is kept**: where the build stops before the second pass, or the tree fits. -/
theorem diskKept_iff (diskSize : Nat) (root : Entries) :
    DiskKept diskSize root ↔ ¬ Host.working.Writes diskSize root ∨
      blocksNeeded diskSize root ≤ requestedBlocks diskSize := by
  unfold DiskKept
  constructor
  · rintro ⟨-, hfails⟩
    rw [or_iff_not_imp_left, not_not]
    intro hwrites
    by_contra hlarge
    obtain ⟨b, -, hrun⟩ := main_writes diskSize root hwrites
    refine (hfails (Nat.lt_of_not_le hlarge)).1 ?_
    rw [hrun]
  · rintro (hstops | hneeded)
    · obtain ⟨hfailure, hcount⟩ := main_stops diskSize root hstops
      exact ⟨fun hsuccess => absurd hsuccess hfailure, fun _ => ⟨hfailure, hcount⟩⟩
    · refine ⟨fun hsuccess => ?_, fun hlarge => absurd hneeded (Nat.not_le_of_lt hlarge)⟩
      exact room_kept ((Host.working.main_success_iff diskSize root).mp hsuccess).2.1 hneeded

/-- The boot files, and nothing else. -/
def bootTree : Entries := .cons (text "sys") sysDir .nil

/-- **On a disk of eight blocks** the tree needs nine, and `main` returns 0. -/
theorem small_disk_overrun : ¬ ∀ (diskSize : Nat) (root : Entries), DiskKept diskSize root := by
  intro h
  have hboots : Host.working.Boots bootTree :=
    ⟨List.replicate 512 0, [], rfl, Nat.le_of_eq List.length_replicate.symm, rfl, by decide⟩
  have hneeded : requestedBlocks 32768 < blocksNeeded 32768 bootTree := by
    decide +kernel
  have hpad : Padded (Host.working.metSuperblock 32768 bootTree).numInodes ∧
      Padded (numDataBlocks (Host.working.metSuperblock 32768 bootTree)) := by
    decide +kernel
  obtain ⟨b, -, hrun⟩ := main_writes 32768 bootTree ⟨hboots, hpad⟩
  refine ((h 32768 bootTree).2 hneeded).1 ?_
  rw [hrun]

end AmateurOs.MakeDisk
