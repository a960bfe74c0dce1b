/-
# Disks that `make_disk` builds

`write_superblock` of `build/make_disk.c` sizes the areas of the disk from the number of files
and their blocks, and the image from `disk_size`.  `Built` says what else of an image the kernel
relies on: the bits that `write_inode_bitmap_blocks` and `write_data_bitmap_blocks` set, and the
extents that `write_file_data` hands out.

`emptyFiles` is such an image: a root directory of empty files.
-/
import AmateurOs.Fs.Effects

namespace AmateurOs.Fs

open AmateurOs.Lib

/-! ## 1. `write_superblock` -/

/-- `disk_size`. -/
def diskSize : Nat := 512 * 2880

/-- The blocks of the image. -/
def imageBlocks : Nat := bytesToBlocks diskSize

/-- The blocks of a bitmap with `bits` bits. -/
def bitmapBlocks (bits : Nat) : Nat := bits / bitsPerBlock + if bits % bitsPerBlock > 0 then 1 else 0

/-- `num_inodes`: the files, the invalid inode 0 and the root directory. -/
def builtInodes (numFiles : Nat) : Nat := u32 (numFiles + 2)

/-- The superblock that `write_superblock` writes. -/
def writeSuperblock (numFiles fileBlocks : Nat) : Superblock :=
  let numInodes := builtInodes numFiles
  let numInodeBitmapBlocks := u16 (bitmapBlocks numInodes)
  let firstDataBitmapBlock := u16 (2 + numInodeBitmapBlocks)
  let numInodeBlocks := u16 (bytesToBlocks (u32 (numInodes * 64)))
  let numDataBits := sub32 (sub32 (sub32 imageBlocks firstDataBitmapBlock) numInodeBlocks) 1
  let numDataBitmapBlocks := u16 (bitmapBlocks numDataBits)
  let firstInodeBlock := firstDataBitmapBlock + numDataBitmapBlocks
  let firstDataBlock := firstInodeBlock + numInodeBlocks
  ((((((((((((((((((Packed.zero.set32 0 numInodes).set16 4 2).set16 8
    numInodeBitmapBlocks).set16 6 firstDataBitmapBlock).set16 20 numInodeBlocks).set16 10
    numDataBitmapBlocks).set32 12 firstInodeBlock).set32 16 firstDataBlock).set16 22
    (firstDataBlock + fileBlocks)).set32 24 0xFFFFFFFF).set16 28 fsBlockSize).set8 30 64).set32 31
    0).set8 35 (fsBlockSize / 64)).set8 36 4).set16 37 (fsBlockSize / 8)).set32 39
    numInodes).set32 43 (firstDataBlock + fileBlocks)).set16 47 1 |>.set8 49 3

/-- The sizes of the areas, where the image has room for what it holds. -/
theorem built_sizes {numFiles fileBlocks inodeBlocks : Nat} (hroot : 1 ≤ fileBlocks)
    (hinode : inodeBlocks = bytesToBlocks ((numFiles + 2) * 64))
    (hfits : 4 + inodeBlocks + fileBlocks ≤ imageBlocks) :
    builtInodes numFiles = numFiles + 2 ∧ u16 (bitmapBlocks (numFiles + 2)) = 1 ∧
      u16 (bytesToBlocks (u32 ((numFiles + 2) * 64))) = inodeBlocks ∧
      u16 (bitmapBlocks (sub32 (sub32 (sub32 imageBlocks 3) inodeBlocks) 1)) = 1 := by
  have himage : imageBlocks = 360 := by decide
  have hdiv : inodeBlocks = ((numFiles + 2) * 64 + 4095) / 4096 := hinode.trans (bytesToBlocks_eq _)
  have hone : ∀ bits, 0 < bits → bits < 32768 → u16 (bitmapBlocks bits) = 1 := by
    intro bits hpos hlt
    unfold bitmapBlocks bitsPerBlock u16
    rw [if_pos (by omega)]
    omega
  rw [himage] at hfits ⊢
  refine ⟨u32_eq (by omega), hone _ (by omega) (by omega), ?_, ?_⟩
  · rw [u32_eq (by omega), ← hinode]
    exact Nat.mod_eq_of_lt (by omega)
  · have hrest : sub32 (sub32 (sub32 360 3) inodeBlocks) 1 = 356 - inodeBlocks := by
      have h3 : sub32 360 3 = 357 := by decide
      have h1 : sub32 357 inodeBlocks = 357 - inodeBlocks := sub32_eq (by decide) (by omega)
      rw [h3, h1, sub32_eq (by omega) (by omega)]
      omega
    rw [hrest]
    exact hone _ (by omega) (by omega)

/-- **The numbers of the superblock** of such an image. -/
theorem writeSuperblock_fields {numFiles fileBlocks inodeBlocks address : Nat}
    (hroot : 1 ≤ fileBlocks) (hinode : inodeBlocks = bytesToBlocks ((numFiles + 2) * 64))
    (hfits : 4 + inodeBlocks + fileBlocks ≤ imageBlocks) {sb : Superblock}
    (hsb : sb = (writeSuperblock numFiles fileBlocks).setRootInodePointer address) :
    sb.layout = ⟨2, 1, 3, 1, 4, inodeBlocks, 4 + inodeBlocks, 4⟩ ∧
      sb.firstFreeInodeBit = numFiles + 2 ∧
      sb.firstFreeDataBit = 4 + inodeBlocks + fileBlocks := by
  obtain ⟨hinodes, hinodeBitmap, hblocks, hdataBitmap⟩ := built_sizes hroot hinode hfits
  have himage : imageBlocks = 360 := by decide
  have hdiv : inodeBlocks = ((numFiles + 2) * 64 + 4095) / 4096 := hinode.trans (bytesToBlocks_eq _)
  have hthree : u16 (2 + 1) = 3 := by decide
  have h16 : ∀ v, v < 65536 → u16 v = v := fun v hv => Nat.mod_eq_of_lt hv
  unfold writeSuperblock at hsb
  simp only [hinodes, hinodeBitmap, hthree, hblocks, hdataBitmap] at hsb
  unfold Superblock.setRootInodePointer at hsb
  subst hsb
  unfold Superblock.layout Superblock.firstFreeInodeBit Superblock.firstFreeDataBit
    Superblock.firstInodeBitmapBlock Superblock.numInodeBitmapBlocks
    Superblock.firstDataBitmapBlock Superblock.numDataBitmapBlocks Superblock.firstInodeBlock
    Superblock.numInodeBlocks Superblock.firstDataBlock Superblock.directExtentsPerInode
  simp (disch := decide) only [Packed.get8_set8, Packed.get8_set8_ne, Packed.get8_set16_ne,
    Packed.get8_set32_ne, Packed.get16_set16, Packed.get16_set8_ne, Packed.get16_set16_ne,
    Packed.get16_set32_ne, Packed.get32_set32, Packed.get32_set8_ne, Packed.get32_set16_ne,
    Packed.get32_set32_ne]
  rw [himage] at hfits
  rw [h16 2 (by decide), h16 1 (by decide), h16 3 (by decide), h16 _ (by omega),
    u32_eq (by omega), u32_eq (by omega), u32_eq (by omega), u32_eq (by omega)]
  exact ⟨rfl, rfl, rfl⟩

/-! ## 2. Built disks -/

/-- The blocks of the inodes of an image. -/
def builtInodeBlocks (numFiles : Nat) : Nat := bytesToBlocks ((numFiles + 2) * 64)

/-- The first block of the data area, and the block after the last one in use. -/
def builtFirstBlock (numFiles : Nat) : Nat := 4 + builtInodeBlocks numFiles

def builtEndBlock (numFiles fileBlocks : Nat) : Nat := builtFirstBlock numFiles + fileBlocks

/-- **A disk as `make_disk` builds it**, with the superblock as `init_fs_vars` leaves it: the
inodes and the blocks in use are marked, and the blocks of the files follow each other. -/
structure Built (numFiles fileBlocks : Nat) (s : State) : Prop where
  root : 1 ≤ fileBlocks
  fits : builtEndBlock numFiles fileBlocks ≤ imageBlocks
  superblock : ∃ address,
    s.superblock = (writeSuperblock numFiles fileBlocks).setRootInodePointer address
  inodeBit : ∀ i, s.volume.inodeBit i = true ↔ i < numFiles + 2
  dataBit : ∀ b, s.volume.dataBit b = true ↔ b < builtEndBlock numFiles fileBlocks
  extents : ∀ i < numFiles + 2, ∀ b, (s.volume.inode i).Holds b →
    builtFirstBlock numFiles ≤ b ∧ b < builtEndBlock numFiles fileBlocks
  disjoint : ∀ i j b, i < numFiles + 2 → j < numFiles + 2 → i ≠ j →
    (s.volume.inode i).Holds b → ¬ (s.volume.inode j).Holds b

/-- The layout and the hints of a built disk. -/
theorem Built.fields {numFiles fileBlocks : Nat} {s : State} (h : Built numFiles fileBlocks s) :
    s.superblock.layout = ⟨2, 1, 3, 1, 4, builtInodeBlocks numFiles, builtFirstBlock numFiles, 4⟩ ∧
      s.superblock.firstFreeInodeBit = numFiles + 2 ∧
      s.superblock.firstFreeDataBit = builtEndBlock numFiles fileBlocks := by
  obtain ⟨address, hsb⟩ := h.superblock
  exact writeSuperblock_fields h.root rfl h.fits hsb

/-- The inodes of a built disk lie in the inode blocks, and the image is small. -/
theorem Built.bounds {numFiles fileBlocks : Nat} {s : State} (h : Built numFiles fileBlocks s) :
    numFiles + 2 ≤ builtInodeBlocks numFiles * 64 ∧
      builtInodeBlocks numFiles + fileBlocks + 4 ≤ 360 := by
  have himage : imageBlocks = 360 := by decide
  have hfits := h.fits
  have hdiv : builtInodeBlocks numFiles = ((numFiles + 2) * 64 + 4095) / 4096 := bytesToBlocks_eq _
  unfold builtEndBlock builtFirstBlock at hfits
  omega

theorem Built.sound {numFiles fileBlocks : Nat} {s : State} (h : Built numFiles fileBlocks s) :
    s.superblock.layout.Sound := by
  have hbounds := h.bounds.2
  rw [h.fields.1]
  unfold builtFirstBlock
  refine ⟨Nat.le_refl _, Nat.le_refl _, Nat.le_refl _, Nat.le_refl _, ?_, rfl⟩
  unfold diskBlocks
  show 4 + builtInodeBlocks numFiles ≤ 33554432
  omega

/-! ## 3. A directory of empty files -/

/-- Byte `k` of a bitmap in which the first `n` bits are set. -/
def bitmapByte (n k : Nat) : UInt8 := UInt8.ofNat (2 ^ min 8 (n - 8 * k) - 1)

theorem testBit_bitmapByte {n k j : Nat} (hj : j < 8) :
    (bitmapByte n k).toNat.testBit j = decide (8 * k + j < n) := by
  have hlt : 2 ^ min 8 (n - 8 * k) - 1 < 256 := by
    have hle : 2 ^ min 8 (n - 8 * k) ≤ 2 ^ 8 := Nat.pow_le_pow_right (by decide) (Nat.min_le_left ..)
    omega
  unfold bitmapByte
  rw [UInt8.toNat_ofNat', Nat.mod_eq_of_lt hlt, Nat.testBit_two_pow_sub_one]
  exact decide_eq_decide.mpr (by omega)

/-- Inode `id`: the root directory, whose blocks are the first of the data area, or an empty
file. -/
def emptyFilesInode (numFiles id : Nat) : Inode :=
  let bytes := (numFiles + 2) * 64
  if id = 0 then noInode
  else if id = 1 then
    (((((noInode.setId id).setType filetypeDir).setSizeBytes bytes).setSizeSectors
      (bytesToSectors bytes)).setExtentFirst 0 (builtFirstBlock numFiles)).setExtentLength 0
      (builtInodeBlocks numFiles)
  else
    (noInode.setId id).setExtentFirst 0 (builtEndBlock numFiles (builtInodeBlocks numFiles))

/-- Byte `off` of entry `count` of the root directory: `.`, `..`, and files with names of two
letters or more. -/
def emptyFilesEntry (count off : Nat) : UInt8 :=
  if off < 4 then wordByte (max 1 count) off
  else if count < 2 then if off ≤ 4 + count then dot else 0
  else
    match off with
    | 4 => UInt8.ofNat (97 + count % 26)
    | 5 => UInt8.ofNat (97 + count / 26 % 26)
    | 6 => if count < 676 then 0 else UInt8.ofNat (97 + count / 676)
    | _ => 0

/-- The image of a root directory with `numFiles` empty files. -/
def emptyFilesDisk (numFiles : Nat) : Bytes := fun p =>
  let bytes := (numFiles + 2) * 64
  let root := builtFirstBlock numFiles * 4096
  if p / 4096 = 2 then bitmapByte (numFiles + 2) (p % 4096)
  else if p / 4096 = 3 then
    bitmapByte (builtEndBlock numFiles (builtInodeBlocks numFiles)) (p % 4096)
  else if 16384 ≤ p ∧ p < 16384 + bytes then
    (emptyFilesInode numFiles ((p - 16384) / 64)).bytes (p % 64)
  else if root ≤ p ∧ p < root + bytes then emptyFilesEntry ((p - root) / 64) (p % 64)
  else 0

/-- The state of the file system with that disk. -/
def emptyFiles (numFiles : Nat) : State where
  disk := emptyFilesDisk numFiles
  superblock :=
    (writeSuperblock numFiles (builtInodeBlocks numFiles)).setRootInodePointer 0
  superblockArea := Packed.zero
  rootInode := emptyFilesInode numFiles 1
  currentDirInode := emptyFilesInode numFiles 1

theorem extentLength_emptyFilesInode {numFiles i k : Nat} (hk : k < 4) :
    (emptyFilesInode numFiles i).extentLength k
      = if i = 1 ∧ k = 0 then u32 (builtInodeBlocks numFiles) else 0 := by
  have hzero : ∀ off, noInode.get32 off = 0 := Packed.get32_zero
  unfold emptyFilesInode Inode.extentLength
  simp only []
  by_cases h0 : i = 0
  · rw [if_pos h0, if_neg (by omega), hzero]
  rw [if_neg h0]
  by_cases h1 : i = 1
  · rw [if_pos h1]
    by_cases hk0 : k = 0
    · rw [if_pos ⟨h1, hk0⟩, hk0]
      exact Packed.get32_set32 _ (by decide)
    · rw [if_neg fun h => hk0 h.2]
      unfold Inode.setExtentLength Inode.setExtentFirst Inode.setSizeSectors Inode.setSizeBytes
        Inode.setType Inode.setId
      rw [Packed.get32_set32_ne (by omega), Packed.get32_set32_ne (by omega),
        Packed.get32_set32_ne (by omega), Packed.get32_set32_ne (by omega),
        Packed.get32_set8_ne (by omega), Packed.get32_set32_ne (by omega), hzero]
  · rw [if_neg h1, if_neg fun h => h1 h.1]
    unfold Inode.setExtentFirst Inode.setId
    rw [Packed.get32_set32_ne (by omega), Packed.get32_set32_ne (by omega), hzero]

/-- A bit of a block that holds such a bitmap. -/
theorem bitAt_bitmapByte {disk : Bytes} {block n b : Nat}
    (hblock : ∀ p, p / 4096 = block → disk p = bitmapByte n (p % 4096)) (hn : n ≤ 32768) :
    (decide (b < 32768) && bitAt disk (block * 32768 + b)) = decide (b < n) := by
  by_cases hb : b < 32768
  · rw [decide_eq_true hb, Bool.true_and]
    unfold bitAt
    rw [hblock _ (by omega), testBit_bitmapByte (Nat.mod_lt _ (by decide))]
    exact decide_eq_decide.mpr (by omega)
  · rw [decide_eq_false hb, Bool.false_and, decide_eq_false (by omega)]

section

variable {numFiles : Nat}
  (hfits : builtEndBlock numFiles (builtInodeBlocks numFiles) ≤ imageBlocks)

include hfits

theorem emptyFiles_bounds : 1 ≤ builtInodeBlocks numFiles ∧
    numFiles + 2 ≤ builtInodeBlocks numFiles * 64 ∧ builtInodeBlocks numFiles ≤ 178 := by
  have himage : imageBlocks = 360 := by decide
  have hdiv : builtInodeBlocks numFiles = ((numFiles + 2) * 64 + 4095) / 4096 := bytesToBlocks_eq _
  unfold builtEndBlock builtFirstBlock at hfits
  omega

theorem emptyFiles_layout : (emptyFiles numFiles).superblock.layout
    = ⟨2, 1, 3, 1, 4, builtInodeBlocks numFiles, builtFirstBlock numFiles, 4⟩ :=
  (writeSuperblock_fields (emptyFiles_bounds hfits).1 rfl hfits rfl).1

theorem emptyFiles_inode {i : Nat} (hi : i < numFiles + 2) :
    (emptyFiles numFiles).volume.inode i = emptyFilesInode numFiles i := by
  obtain ⟨-, hcap, -⟩ := emptyFiles_bounds hfits
  unfold State.volume volume
  rw [emptyFiles_layout hfits]
  have hin : i < Layout.capacity
      ⟨2, 1, 3, 1, 4, builtInodeBlocks numFiles, builtFirstBlock numFiles, 4⟩ :=
    Nat.lt_of_lt_of_le hi hcap
  simp only [if_pos hin]
  funext k
  have hk := k.isLt
  show emptyFilesDisk numFiles (4 * 4096 + i * 64 + k.val) = emptyFilesInode numFiles i k
  unfold emptyFilesDisk
  simp only []
  rw [if_neg (by omega), if_neg (by omega), if_pos (by omega),
    (by omega : (4 * 4096 + i * 64 + k.val - 16384) / 64 = i),
    (by omega : (4 * 4096 + i * 64 + k.val) % 64 = k.val)]
  exact Packed.bytes_of_lt _ hk

/-- The root directory alone has blocks. -/
theorem emptyFiles_holds {i b : Nat} (hi : i < numFiles + 2) :
    ((emptyFiles numFiles).volume.inode i).Holds b ↔ i = 1 ∧ builtFirstBlock numFiles ≤ b ∧
      b < builtEndBlock numFiles (builtInodeBlocks numFiles) := by
  obtain ⟨hpos, -, hsmall⟩ := emptyFiles_bounds hfits
  rw [emptyFiles_inode hfits hi]
  have hend : builtEndBlock numFiles (builtInodeBlocks numFiles)
      = builtFirstBlock numFiles + builtInodeBlocks numFiles := rfl
  have hfirstEq : builtFirstBlock numFiles = 4 + builtInodeBlocks numFiles := rfl
  have hfirst : (emptyFilesInode numFiles 1).extentFirst 0 = builtFirstBlock numFiles := by
    have hget : (emptyFilesInode numFiles 1).extentFirst 0 = u32 (builtFirstBlock numFiles) :=
      (Packed.get32_set32_ne (by decide)).trans (Packed.get32_set32 _ (by decide))
    rw [hget, u32_eq (by omega)]
  constructor
  · rintro ⟨k, hk, hlo, hhi⟩
    rw [extentLength_emptyFilesInode hk] at hhi
    by_cases hroot : i = 1 ∧ k = 0
    · obtain ⟨rfl, rfl⟩ := hroot
      rw [if_pos ⟨rfl, rfl⟩, hfirst, u32_eq (by omega)] at hhi
      rw [hfirst] at hlo
      exact ⟨rfl, hlo, by omega⟩
    · rw [if_neg hroot] at hhi
      omega
  · rintro ⟨rfl, hlo, hhi⟩
    refine ⟨0, by decide, by rw [hfirst]; exact hlo, ?_⟩
    rw [extentLength_emptyFilesInode (by decide), if_pos ⟨rfl, rfl⟩, hfirst, u32_eq (by omega)]
    omega

end

/-- **The image is one that `make_disk` builds.** -/
theorem emptyFiles_built {numFiles : Nat}
    (hfits : builtEndBlock numFiles (builtInodeBlocks numFiles) ≤ imageBlocks) :
    Built numFiles (builtInodeBlocks numFiles) (emptyFiles numFiles) := by
  obtain ⟨hpos, hcap, hsmall⟩ := emptyFiles_bounds hfits
  have hlayout := emptyFiles_layout hfits
  refine ⟨hpos, hfits, ⟨0, rfl⟩, fun i => ?_, fun b => ?_, fun i hi b hb => ?_,
    fun i j b hi hj hne hb hb' => ?_⟩
  · have hbit : (emptyFiles numFiles).volume.inodeBit i = decide (i < numFiles + 2) := by
      unfold State.volume volume
      rw [hlayout]
      show (decide (i < 1 * 32768) && bitAt (emptyFilesDisk numFiles) (2 * 32768 + i)) = _
      rw [Nat.one_mul]
      exact bitAt_bitmapByte (fun p hp => if_pos hp) (by omega)
    rw [hbit, decide_eq_true_iff]
  · have hbit : (emptyFiles numFiles).volume.dataBit b
        = decide (b < builtEndBlock numFiles (builtInodeBlocks numFiles)) := by
      have himage : imageBlocks = 360 := by decide
      unfold State.volume volume
      rw [hlayout]
      show (decide (b < 1 * 32768) && bitAt (emptyFilesDisk numFiles) (3 * 32768 + b)) = _
      rw [Nat.one_mul]
      refine bitAt_bitmapByte (fun p hp => ?_) (by omega)
      exact (if_neg (by omega)).trans (if_pos hp)
    rw [hbit, decide_eq_true_iff]
  · exact ((emptyFiles_holds hfits hi).mp hb).2
  · exact hne (((emptyFiles_holds hfits hi).mp hb).1.trans ((emptyFiles_holds hfits hj).mp hb').1.symm)

end AmateurOs.Fs
