/-
# The inode table

Four functions compute where an inode is.  `inode_from_id` and `update_inode_on_disk` take the sector
with `INODES_PER_SECTOR`, `inode_for_name_in_directory` with `SECTORS_PER_BLOCK`, and `write_file_data`
of the image builder the block with `INODES_PER_BLOCK`.  The kernel's three go through `temp_sector`;
a write puts the sector back with the seven other inodes in it.

They agree for every number in the inode blocks (`inodeTable_faithful`): what is updated is read back
by number and by name, and all else on the disk is as it was.  The inode blocks of an image always lie
in the bytes that a `uint32_t` counts, whatever the kernel has made of the hints of its superblock.
-/
import AmateurOs.MakeDisk.Main

namespace AmateurOs.MakeDisk

open AmateurOs.Lib AmateurOs.Fs

/-! ## 1. The functions with `temp_sector` -/

/-- The disk, and the memory from `temp_sector` on. -/
structure Scratch where
  disk : Bytes
  tempSector : Bytes

/-- A sector read into `temp_sector`. -/
def Scratch.read (t : Scratch) (sector : Nat) : Scratch :=
  { t with tempSector := Fs.readSectors t.disk t.tempSector 1 sector 0 }

/-- `temp_sector` written to a sector. -/
def Scratch.write (t : Scratch) (sector : Nat) : Scratch :=
  { t with disk := writeSectors t.disk t.tempSector 1 sector 0 }

/-- `*((inode_t *)temp_sector + index)`. -/
def Scratch.inodeAt (t : Scratch) (index : Nat) : Inode := Packed.load t.tempSector (index * 64)

/-- That inode set. -/
def Scratch.setInodeAt (t : Scratch) (index : Nat) (inode : Inode) : Scratch :=
  { t with tempSector := Packed.store t.tempSector (index * 64) inode }

/-- `inode_from_id`. -/
def inodeFromIdAt (sb : Superblock) (id : Nat) (t : Scratch) : Inode × Scratch :=
  if id = 0 then (noInode, t)
  else
    let t := t.read (u32 (u32 (sb.firstInodeBlock * sectorsPerBlock) + id / inodesPerSector))
    (t.inodeAt (id % inodesPerSector), t)

/-- The end of `inode_for_name_in_directory`, where the entry has been found. -/
def entryInodeAt (sb : Superblock) (id : Nat) (t : Scratch) : Inode × Scratch :=
  let t := t.read (u32 (u32 (sb.firstInodeBlock * sectorsPerBlock) + id / sectorsPerBlock))
  (t.inodeAt (id % sectorsPerBlock), t)

/-- The number in the entry that the search finds. -/
def foundId (env : Env) (sb : Superblock) (directory : Inode) (fileName : List UInt8)
    (disk : Bytes) : Option Nat :=
  (searchedBlocks sb directory).findSome? fun nextBlock =>
    findInBlock (readBlock disk env.afterTempBlock nextBlock) fileName

/-- `inode_for_name_in_directory`. -/
def inodeForNameAt (env : Env) (sb : Superblock) (directory : Inode) (fileName : List UInt8)
    (t : Scratch) : Inode × Scratch :=
  match foundId env sb directory fileName t.disk with
  | some id => entryInodeAt sb id t
  | none => (noInode, t)

/-- `update_inode_on_disk`. -/
def updateInodeAt (sb : Superblock) (inode : Inode) (t : Scratch) : Scratch :=
  let sector := u32 (u32 (sb.firstInodeBlock * sectorsPerBlock) + inode.id / inodesPerSector)
  let t := t.read sector
  let t := t.setInodeAt (inode.id % inodesPerSector) inode
  t.write sector

/-! ## 2. Without it -/

section

variable {sb : Superblock} {t : Scratch}

/-- An inode of the sector that was read. -/
theorem Scratch.read_inodeAt (t : Scratch) (sector : Nat) {index : Nat} (h : index < 8) :
    (t.read sector).inodeAt index =
      Packed.load (slice t.disk (sectorAddr sector)) (index * 64) := by
  refine Packed.load_congr fun k hk => ?_
  have hlen : transferSize 1 = 512 := by decide
  show Fs.readSectors t.disk t.tempSector 1 sector 0 _ = _
  unfold Fs.readSectors
  rw [hlen, blit_in (Nat.zero_le _) (by omega), Nat.sub_zero]

/-- **By number.** -/
theorem inodeFromIdAt_inode (id : Nat) : (inodeFromIdAt sb id t).1 =
    if id = 0 then noInode else loadInode t.disk sb id := by
  unfold inodeFromIdAt
  split
  · rfl
  · exact t.read_inodeAt _ (Nat.mod_lt _ (by decide))

/-- **By entry**, with the other constant. -/
theorem entryInodeAt_inode (id : Nat) : (entryInodeAt sb id t).1 = loadInode t.disk sb id :=
  t.read_inodeAt _ (Nat.mod_lt _ (by decide))

/-- **The update.** -/
theorem updateInodeAt_disk (inode : Inode) :
    (updateInodeAt sb inode t).disk = storeInode t.disk sb inode.id inode := by
  have hlen : transferSize 1 = 512 := by decide
  have hindex : inode.id % 8 * 64 + 64 ≤ 512 := by omega
  show writeSectors t.disk (Packed.store (Fs.readSectors t.disk t.tempSector 1 (inodeSector sb inode.id)
    0) (inode.id % 8 * 64) inode) 1 (inodeSector sb inode.id) 0 = _
  unfold storeInode writeSectors inodesPerSector
  rw [hlen]
  funext p
  -- in the sector, the bytes of the inode are new and the others those that were read
  by_cases hp : sectorAddr (inodeSector sb inode.id) ≤ p ∧
      p < sectorAddr (inodeSector sb inode.id) + 512
  · obtain ⟨q, rfl⟩ := Nat.exists_eq_add_of_le hp.1
    rw [blit_add (by omega), blit_add (by omega), slice_apply, slice_apply, Nat.zero_add]
    by_cases hin : inode.id % 8 * 64 ≤ q ∧ q < inode.id % 8 * 64 + 64
    · unfold Packed.store
      rw [blit_in hin.1 hin.2, blit_in hin.1 hin.2]
    · rw [Packed.store_out (by omega), Packed.store_out (by omega)]
      unfold Fs.readSectors
      rw [hlen, blit_in (Nat.zero_le _) (by omega), Nat.sub_zero]
  · rw [blit_out (by omega), blit_out (by omega)]

end

/-- The three functions are those of the model without `temp_sector`. -/
theorem inodeFromIdAt_eq (s : State) (tempSector : Bytes) (id : Nat) :
    (inodeFromIdAt s.superblock id ⟨s.disk, tempSector⟩).1 = inodeFromId s id :=
  inodeFromIdAt_inode id

theorem inodeForNameAt_eq (env : Env) (s : State) (tempSector : Bytes) (directory : Inode)
    (fileName : List UInt8) :
    (inodeForNameAt env s.superblock directory fileName ⟨s.disk, tempSector⟩).1 =
      inodeForNameInDirectory env s directory fileName := by
  unfold inodeForNameAt inodeForNameInDirectory foundId
  split
  · next id hfound =>
    simp only at hfound
    rw [hfound]
    exact entryInodeAt_inode id
  · next hnone =>
    simp only at hnone
    rw [hnone]

theorem updateInodeAt_eq (s : State) (tempSector : Bytes) (inode : Inode) :
    (updateInodeAt s.superblock inode ⟨s.disk, tempSector⟩).disk =
      (updateInodeOnDisk s inode).disk := updateInodeAt_disk inode

/-! ## 3. The byte position -/

/-- **The inode blocks lie in the bytes that a `uint32_t` counts.** -/
def TableInside (sb : Superblock) : Prop :=
  (sb.firstInodeBlock + sb.numInodeBlocks) * fsBlockSize ≤ 4294967296

/-- The inode number is in the inode blocks. -/
def InTable (sb : Superblock) (id : Nat) : Prop := id < sb.numInodeBlocks * 64

section

variable {sb : Superblock} {id : Nat}

theorem TableInside.fits (h : TableInside sb) (hid : InTable sb id) : InodeFits sb id := by
  unfold TableInside InTable fsBlockSize at *
  unfold InodeFits
  omega

/-- **The image builder's position** is the kernel's. -/
theorem TableInside.inodePos (h : TableInside sb) (hid : InTable sb id) :
    inodePos sb id = inodeAddr sb id := by
  unfold TableInside InTable fsBlockSize at *
  unfold MakeDisk.inodePos inodeAddr fsBlockSize
  rw [@u32_eq (sb.firstInodeBlock + id / 64) (by omega), u32_eq (by omega)]
  omega

/-- **The superblock of an image**: its two fields have 16 bits in the sum and in the number. -/
theorem writeSuperblockFor_table (disk numFiles fileBlocks : Nat) :
    TableInside (writeSuperblockFor disk numFiles fileBlocks) := by
  have hfirst : (writeSuperblockFor disk numFiles fileBlocks).firstInodeBlock ≤ 131070 := by
    unfold writeSuperblockFor Superblock.firstInodeBlock
    simp (disch := decide) only [Packed.get32_set32, Packed.get32_set8_ne, Packed.get32_set16_ne,
      Packed.get32_set32_ne]
    refine Nat.le_trans (Nat.mod_le _ _) ?_
    unfold u16
    omega
  have hnum : (writeSuperblockFor disk numFiles fileBlocks).numInodeBlocks < 65536 :=
    Packed.get16_lt _ _
  unfold TableInside fsBlockSize
  omega

/-- The kernel keeps the layout. -/
theorem TableInside.of_layout {sb' : Superblock} (h : TableInside sb)
    (hlayout : sb'.layout = sb.layout) : TableInside sb' := by
  have harea : sb'.firstInodeBlock = sb.firstInodeBlock := congrArg Layout.inodeArea hlayout
  have hblocks : sb'.numInodeBlocks = sb.numInodeBlocks := congrArg Layout.inodeBlocks hlayout
  unfold TableInside
  rw [harea, hblocks]
  exact h

end

/-! ## 4. A faithful store -/

section

variable {sb : Superblock} {id : Nat}

/-- Where an inode is read. -/
theorem TableInside.reads (h : TableInside sb) (hid : InTable sb id) (t : Scratch) :
    (entryInodeAt sb id t).1 = Packed.load t.disk (MakeDisk.inodePos sb id) := by
  rw [entryInodeAt_inode, h.inodePos hid, loadInode_eq (h.fits hid)]

/-- Where one is written. -/
theorem TableInside.update (h : TableInside sb) (t : Scratch) {v : Inode} (hid : InTable sb v.id) :
    (updateInodeAt sb v t).disk = Packed.store t.disk (MakeDisk.inodePos sb v.id) v := by
  rw [updateInodeAt_disk, h.inodePos hid, storeInode_eq (h.fits hid)]

/-- Different inodes are at different places. -/
theorem TableInside.apart (h : TableInside sb) {id' : Nat} (hid : InTable sb id)
    (hid' : InTable sb id') (hne : id ≠ id') :
    MakeDisk.inodePos sb id + 64 ≤ MakeDisk.inodePos sb id' ∨
      MakeDisk.inodePos sb id' + 64 ≤ MakeDisk.inodePos sb id := by
  rw [h.inodePos hid, h.inodePos hid']
  unfold inodeAddr
  omega

end

section

variable {sb : Superblock}

/-- What is read after an update. -/
theorem TableInside.read_update (h : TableInside sb) (t : Scratch) {v : Inode} {j : Nat}
    (hid : InTable sb v.id) (hj : InTable sb j) (tempSector : Bytes) :
    (entryInodeAt sb j ⟨(updateInodeAt sb v t).disk, tempSector⟩).1 =
      if j = v.id then v else (entryInodeAt sb j t).1 := by
  rw [h.reads hj, h.reads hj, h.update t hid]
  split
  · next heq =>
    rw [heq]
    exact Packed.load_store _ _ _
  · next hne => exact Packed.load_store_ne (h.apart hj hid hne)

/-- **Any number of updates** leave the table that a function from numbers to inodes would. -/
theorem TableInside.updates (h : TableInside sb) {f : Nat → Inode} : ∀ (vs : List Inode)
    {t : Scratch}, (∀ v ∈ vs, InTable sb v.id) → (∀ j, InTable sb j → (entryInodeAt sb j t).1 = f j) →
    ∀ j, InTable sb j → (entryInodeAt sb j (vs.foldl (fun t v => updateInodeAt sb v t) t)).1 =
      vs.foldl (fun f v => Function.update f v.id v) f j := by
  intro vs
  induction vs generalizing f with
  | nil => exact fun _ hf => hf
  | cons v vs ih =>
    intro t hvs hf
    refine ih (fun v' hv' => hvs v' (List.mem_cons_of_mem _ hv')) fun j hj => ?_
    have hread := h.read_update t (hvs v List.mem_cons_self) hj (updateInodeAt sb v t).tempSector
    show _ = Function.update f v.id v j
    rw [Function.update_apply, ← hf j hj]
    exact hread

end

/-- **The table after `update_inode_on_disk(v)`**, whatever `temp_sector` holds when it is read. -/
structure TableFaithful (env : Env) (sb : Superblock) (v : Inode) (t : Scratch) : Prop where
  /-- `inode_from_id` finds `v`, and so does `inode_for_name_in_directory` for an entry with its
  number. -/
  byId : v.id ≠ 0 → ∀ tempSector,
    (inodeFromIdAt sb v.id ⟨(updateInodeAt sb v t).disk, tempSector⟩).1 = v
  byName : ∀ directory fileName tempSector,
    foundId env sb directory fileName (updateInodeAt sb v t).disk = some v.id →
      (inodeForNameAt env sb directory fileName ⟨(updateInodeAt sb v t).disk, tempSector⟩).1 = v
  /-- Every other inode is as it was. -/
  others : ∀ j, InTable sb j → j ≠ v.id → ∀ tempSector,
    (inodeFromIdAt sb j ⟨(updateInodeAt sb v t).disk, tempSector⟩).1 = (inodeFromIdAt sb j t).1 ∧
      (entryInodeAt sb j ⟨(updateInodeAt sb v t).disk, tempSector⟩).1 = (entryInodeAt sb j t).1
  /-- `v` is where the image builder puts the inode with its number, and every other byte is as it
  was. -/
  written : ∀ k < 64, (updateInodeAt sb v t).disk (inodePos sb v.id + k) = v.bytes k
  built : ∀ (b : Image) (m : Made), m.id = v.id → ∀ k < 64,
    (b.addInode sb m).bytes (inodePos sb v.id + k) = (madeInode m).bytes k
  kept : ∀ p, ¬ Inside p (inodePos sb v.id, 64) → (updateInodeAt sb v t).disk p = t.disk p

/-- **The inode table is a faithful store**, on every disk with the layout of an image. -/
theorem inodeTable_faithful :
    (∀ (disk numFiles fileBlocks : Nat) (sb : Superblock),
      sb.layout = (writeSuperblockFor disk numFiles fileBlocks).layout → TableInside sb) ∧
    ∀ (env : Env) (sb : Superblock) (v : Inode) (t : Scratch), TableInside sb → InTable sb v.id →
      TableFaithful env sb v t := by
  refine ⟨fun disk numFiles fileBlocks sb hlayout =>
    (writeSuperblockFor_table disk numFiles fileBlocks).of_layout hlayout,
    fun env sb v t hinside hid => ?_⟩
  have hdisk := hinside.update t hid
  have hsame : ∀ tempSector,
      (entryInodeAt sb v.id ⟨(updateInodeAt sb v t).disk, tempSector⟩).1 = v := fun tempSector =>
    (hinside.read_update t hid hid tempSector).trans (if_pos rfl)
  refine ⟨fun hne tempSector => ?_, fun directory fileName tempSector hfound => ?_,
    fun j hj hne tempSector => ?_, fun k hk => ?_, fun b m hm k hk => ?_, fun p hp => ?_⟩
  · rw [inodeFromIdAt_inode, if_neg hne, ← entryInodeAt_inode]
    exact hsame tempSector
  · unfold inodeForNameAt
    rw [hfound]
    exact hsame tempSector
  · have hother := (hinside.read_update t hid hj tempSector).trans (if_neg hne)
    refine ⟨?_, hother⟩
    rw [inodeFromIdAt_inode, inodeFromIdAt_inode, ← entryInodeAt_inode, ← entryInodeAt_inode, hother]
  · rw [hdisk]
    exact blit_add hk
  · rw [← hm]
    exact blit_add hk
  · rw [hdisk]
    unfold Inside at hp
    exact Packed.store_out (by simp only at hp; omega)

/-- Inode 5 of a disk of 360 blocks with four files. -/
theorem inodeTable_faithful_five :
    TableFaithful ⟨fun _ => Packed.zero, fun _ => 0, fun _ => 0, fun _ => 0, fun _ => 0,
      fun _ => 0, 0⟩ (writeSuperblockFor 360 4 4) (noInode.setId 5) ⟨fun _ => 0, fun _ => 0⟩ :=
  inodeTable_faithful.2 _ _ _ _ (inodeTable_faithful.1 360 4 4 _ rfl)
    (by unfold InTable; decide +kernel)

end AmateurOs.MakeDisk
