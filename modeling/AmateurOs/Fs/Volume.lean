/-
# The volume: what the file system functions see of the disk

A `Volume` is the disk as the file system reads it: the two bitmaps as sets of bits, the inodes
by number and the blocks of the data area by number.  `volume` is the view of a disk under a
layout, the numbers of the superblock that say where things lie.

Under a sound layout (`Layout.Sound`: the areas follow each other and their sectors have 28-bit
numbers) each function that writes to the disk acts on the volume as one operation:

* setting or clearing a bit of a bitmap changes that bit alone (`volume_setInodeBit`,
  `volume_setDataBit`, `volume_clearInodeBit`, `volume_clearDataBit`);
* `update_inode_on_disk` replaces one inode (`volume_storeInode`);
* writing a block of the data area, or the boot block, replaces that block
  (`volume_writeBlock`);
* `update_superblock` changes nothing of it (`volume_updateSuperblock`).

The boot block, block 0, is a block of the volume like those of the data area: nothing else
lies in it.
-/
import AmateurOs.Fs.Files

namespace AmateurOs.Fs

open AmateurOs.Lib

/-! ## 1. Layouts -/

/-- Where things lie: block numbers, and the number of direct extents. -/
structure Layout where
  inodeBitmap : Nat
  inodeBitmapBlocks : Nat
  dataBitmap : Nat
  dataBitmapBlocks : Nat
  inodeArea : Nat
  inodeBlocks : Nat
  dataArea : Nat
  directExtents : Nat

namespace Layout

/-- The bits of the inode bitmap. -/
def inodeBits (l : Layout) : Nat := l.inodeBitmapBlocks * 32768

/-- The bits of the data bitmap. -/
def dataBits (l : Layout) : Nat := l.dataBitmapBlocks * 32768

/-- The inodes that the inode blocks hold. -/
def capacity (l : Layout) : Nat := l.inodeBlocks * 64

/-- The areas follow each other on the disk. -/
structure Sound (l : Layout) : Prop where
  superblock : 2 ≤ l.inodeBitmap
  inodeBitmap : l.inodeBitmap + l.inodeBitmapBlocks ≤ l.dataBitmap
  dataBitmap : l.dataBitmap + l.dataBitmapBlocks ≤ l.inodeArea
  inodeArea : l.inodeArea + l.inodeBlocks ≤ l.dataArea
  dataArea : l.dataArea ≤ diskBlocks
  extents : l.directExtents = 4

/-- The blocks that the volume shows: the boot block and the data area. -/
def Shown (l : Layout) (block : Nat) : Prop := block = 0 ∨ l.dataArea ≤ block

instance (l : Layout) (block : Nat) : Decidable (l.Shown block) :=
  inferInstanceAs (Decidable (_ ∨ _))

end Layout

namespace Superblock

/-- The layout that a superblock describes. -/
def layout (sb : Superblock) : Layout where
  inodeBitmap := sb.firstInodeBitmapBlock
  inodeBitmapBlocks := sb.numInodeBitmapBlocks
  dataBitmap := sb.firstDataBitmapBlock
  dataBitmapBlocks := sb.numDataBitmapBlocks
  inodeArea := sb.firstInodeBlock
  inodeBlocks := sb.numInodeBlocks
  dataArea := sb.firstDataBlock
  directExtents := sb.directExtentsPerInode

/-- The layout is read from bytes 4 to 21 and byte 36. -/
theorem layout_set32 {sb : Superblock} {off v : Nat} (h : off = 31 ∨ 37 ≤ off) :
    layout (sb.set32 off v) = layout sb := by
  have hlow : Packed.Same (sb.set32 off v) sb 4 18 := Packed.same_set32 (by omega)
  have hextents : Packed.Same (sb.set32 off v) sb 36 1 := Packed.same_set32 (by omega)
  have h16 : ∀ {f}, 4 ≤ f → f + 2 ≤ 22 → (sb.set32 off v).get16 f = sb.get16 f :=
    fun h1 h2 => (hlow.mono h1 h2).get16
  have h32 : ∀ {f}, 4 ≤ f → f + 4 ≤ 22 → (sb.set32 off v).get32 f = sb.get32 f :=
    fun h1 h2 => (hlow.mono h1 h2).get32
  unfold layout firstInodeBitmapBlock numInodeBitmapBlocks firstDataBitmapBlock
    numDataBitmapBlocks firstInodeBlock numInodeBlocks firstDataBlock directExtentsPerInode
  rw [h16 (by decide) (by decide), h16 (by decide) (by decide), h16 (by decide) (by decide),
    h16 (by decide) (by decide), h32 (by decide) (by decide), h16 (by decide) (by decide),
    h32 (by decide) (by decide), hextents.get8]

@[simp] theorem layout_setFirstFreeInodeBit (sb : Superblock) (v : Nat) :
    (sb.setFirstFreeInodeBit v).layout = sb.layout := layout_set32 (by decide)

@[simp] theorem layout_setFirstFreeDataBit (sb : Superblock) (v : Nat) :
    (sb.setFirstFreeDataBit v).layout = sb.layout := layout_set32 (by decide)

@[simp] theorem firstFreeDataBit_setFirstFreeInodeBit (sb : Superblock) (v : Nat) :
    (sb.setFirstFreeInodeBit v).firstFreeDataBit = sb.firstFreeDataBit :=
  (Packed.same_set32 (by decide)).get32

@[simp] theorem firstFreeInodeBit_setFirstFreeDataBit (sb : Superblock) (v : Nat) :
    (sb.setFirstFreeDataBit v).firstFreeInodeBit = sb.firstFreeInodeBit :=
  (Packed.same_set32 (by decide)).get32

@[simp] theorem firstFreeInodeBit_setFirstFreeInodeBit (sb : Superblock) (v : Nat) :
    (sb.setFirstFreeInodeBit v).firstFreeInodeBit = u32 v := Packed.get32_set32 sb (by decide)

@[simp] theorem firstFreeDataBit_setFirstFreeDataBit (sb : Superblock) (v : Nat) :
    (sb.setFirstFreeDataBit v).firstFreeDataBit = u32 v := Packed.get32_set32 sb (by decide)

end Superblock

/-! ## 2. Volumes -/

/-- The bitmaps, the inodes and the data blocks. -/
@[ext]
structure Volume where
  inodeBit : Nat → Bool
  dataBit : Nat → Bool
  inode : Nat → Inode
  content : Nat → Bytes

namespace Volume

/-- An inode bit set to `value`. -/
def putInodeBit (v : Volume) (i : Nat) (value : Bool) : Volume :=
  { v with inodeBit := Function.update v.inodeBit i value }

/-- A data bit set to `value`. -/
def putDataBit (v : Volume) (b : Nat) (value : Bool) : Volume :=
  { v with dataBit := Function.update v.dataBit b value }

/-- An inode replaced. -/
def putInode (v : Volume) (i : Nat) (inode : Inode) : Volume :=
  { v with inode := Function.update v.inode i inode }

/-- A block replaced by the first 4096 bytes of `bytes`. -/
def putBlock (v : Volume) (b : Nat) (bytes : Bytes) : Volume :=
  { v with content := Function.update v.content b fun p => if p < 4096 then bytes p else 0 }

end Volume

/-- The volume on a disk. -/
def volume (l : Layout) (disk : Bytes) : Volume where
  inodeBit i := decide (i < l.inodeBits) && bitAt disk (l.inodeBitmap * 32768 + i)
  dataBit b := decide (b < l.dataBits) && bitAt disk (l.dataBitmap * 32768 + b)
  inode i := if i < l.capacity then Packed.load disk (l.inodeArea * 4096 + i * 64) else noInode
  content b p := if l.Shown b ∧ p < 4096 then disk (b * 4096 + p) else 0

/-- The volume of a state. -/
def State.volume (s : State) : Volume := Fs.volume s.superblock.layout s.disk

/-! ## 3. One block changed -/

/-- At most one block of the disk differs. -/
def OnlyBlock (disk disk' : Bytes) (block : Nat) : Prop :=
  ∀ p, p / 4096 ≠ block → disk' p = disk p

theorem onlyBlock_writeBlock {disk tempBlock : Bytes} {block : Nat} (h : block < diskBlocks) :
    OnlyBlock disk (writeBlock disk block tempBlock) block := by
  intro p hp
  rw [writeBlock_eq h]
  exact blit_out (by omega)

theorem onlyBlock_storeInode {disk : Bytes} {sb : Superblock} {id : Nat} {inode : Inode}
    (h : InodeFits sb id) :
    OnlyBlock disk (storeInode disk sb id inode) (sb.firstInodeBlock + id / 64) := by
  intro p hp
  rw [storeInode_eq h]
  unfold inodeAddr
  exact Packed.store_out (by omega)

theorem onlyBlock_updateSuperblock (s : State) :
    OnlyBlock s.disk (updateSuperblock s).disk 1 := by
  intro p hp
  have haddr : sectorAddr superblockDiskSector = 4096 := by decide
  have hlen : transferSize 1 = 512 := by decide
  unfold updateSuperblock writeSectors
  rw [haddr, hlen]
  exact blit_out (by omega)

namespace OnlyBlock

variable {l : Layout} {disk disk' : Bytes} {block : Nat}

theorem inodeBit (h : OnlyBlock disk disk' block)
    (hb : block < l.inodeBitmap ∨ l.inodeBitmap + l.inodeBitmapBlocks ≤ block) :
    (volume l disk').inodeBit = (volume l disk).inodeBit := by
  funext i
  unfold volume Layout.inodeBits
  by_cases hi : i < l.inodeBitmapBlocks * 32768
  · simp only [bitAt_congr (h ((l.inodeBitmap * 32768 + i) / 8) (by omega))]
  · simp only [decide_eq_false hi, Bool.false_and]

theorem dataBit (h : OnlyBlock disk disk' block)
    (hb : block < l.dataBitmap ∨ l.dataBitmap + l.dataBitmapBlocks ≤ block) :
    (volume l disk').dataBit = (volume l disk).dataBit := by
  funext i
  unfold volume Layout.dataBits
  by_cases hi : i < l.dataBitmapBlocks * 32768
  · simp only [bitAt_congr (h ((l.dataBitmap * 32768 + i) / 8) (by omega))]
  · simp only [decide_eq_false hi, Bool.false_and]

theorem inode (h : OnlyBlock disk disk' block)
    (hb : block < l.inodeArea ∨ l.inodeArea + l.inodeBlocks ≤ block) :
    (volume l disk').inode = (volume l disk).inode := by
  funext i
  unfold volume Layout.capacity
  by_cases hi : i < l.inodeBlocks * 64
  · simp only [if_pos hi]
    exact Packed.load_congr fun k hk => h _ (by omega)
  · simp only [if_neg hi]

theorem content (h : OnlyBlock disk disk' block) (hb : ¬ l.Shown block) :
    (volume l disk').content = (volume l disk).content := by
  funext b p
  unfold volume
  by_cases hs : l.Shown b ∧ p < 4096
  · simp only [if_pos hs]
    refine h _ fun heq => hb ?_
    rw [← heq, (by omega : (b * 4096 + p) / 4096 = b)]
    exact hs.1
  · simp only [if_neg hs]

end OnlyBlock

/-- A disk that differs in blocks of the data area only. -/
theorem volume_outside {l : Layout} (hl : l.Sound) {disk disk' : Bytes} {held : Nat → Prop}
    (harea : ∀ b, held b → l.dataArea ≤ b) (hsame : ∀ p, ¬ held (p / 4096) → disk' p = disk p) :
    (volume l disk').inodeBit = (volume l disk).inodeBit ∧
      (volume l disk').dataBit = (volume l disk).dataBit ∧
      (volume l disk').inode = (volume l disk).inode ∧
      ∀ b, ¬ held b → (volume l disk').content b = (volume l disk).content b := by
  obtain ⟨-, h1, h2, h3, -, -⟩ := hl
  have hbefore : ∀ p, p / 4096 < l.dataArea → disk' p = disk p := fun p hp =>
    hsame p fun hheld => absurd (harea _ hheld) (Nat.not_le.mpr hp)
  refine ⟨funext fun i => ?_, funext fun i => ?_, funext fun i => ?_, fun b hb => funext fun p => ?_⟩
  · unfold volume Layout.inodeBits
    by_cases hi : i < l.inodeBitmapBlocks * 32768
    · simp only [bitAt_congr (hbefore ((l.inodeBitmap * 32768 + i) / 8) (by omega))]
    · simp only [decide_eq_false hi, Bool.false_and]
  · unfold volume Layout.dataBits
    by_cases hi : i < l.dataBitmapBlocks * 32768
    · simp only [bitAt_congr (hbefore ((l.dataBitmap * 32768 + i) / 8) (by omega))]
    · simp only [decide_eq_false hi, Bool.false_and]
  · unfold volume Layout.capacity
    by_cases hi : i < l.inodeBlocks * 64
    · simp only [if_pos hi]
      exact Packed.load_congr fun k hk => hbefore _ (by omega)
    · simp only [if_neg hi]
  · unfold volume
    by_cases hs : l.Shown b ∧ p < 4096
    · simp only [if_pos hs]
      have hblock : (b * 4096 + p) / 4096 = b := by omega
      refine hsame _ fun hheld => hb ?_
      rwa [hblock] at hheld
    · simp only [if_neg hs]

/-! ## 4. The bitmaps -/

section

variable {l : Layout} {disk : Bytes}

theorem Layout.Sound.inodeBitmap_lt (hl : l.Sound) {i : Nat} (h : i < l.inodeBits) :
    u32 (l.inodeBitmap + i / 32768) = l.inodeBitmap + i / 32768 ∧
      l.inodeBitmap + i / 32768 < l.inodeBitmap + l.inodeBitmapBlocks ∧
      l.inodeBitmap + i / 32768 < diskBlocks := by
  obtain ⟨-, h1, h2, h3, h4, -⟩ := hl
  unfold Layout.inodeBits at h
  unfold diskBlocks at *
  refine ⟨u32_eq (by omega), by omega, by omega⟩

theorem Layout.Sound.dataBitmap_lt (hl : l.Sound) {b : Nat} (h : b < l.dataBits) :
    u32 (l.dataBitmap + b / 32768) = l.dataBitmap + b / 32768 ∧
      l.dataBitmap + b / 32768 < l.dataBitmap + l.dataBitmapBlocks ∧
      l.dataBitmap + b / 32768 < diskBlocks := by
  obtain ⟨-, h1, h2, h3, h4, -⟩ := hl
  unfold Layout.dataBits at h
  unfold diskBlocks at *
  refine ⟨u32_eq (by omega), by omega, by omega⟩

/-- A disk whose inode bitmap has one bit changed. -/
theorem volume_putInodeBit (hl : l.Sound) {disk' : Bytes} {i : Nat} {value : Bool}
    (hi : i < l.inodeBits) (honly : OnlyBlock disk disk' (l.inodeBitmap + i / 32768))
    (hbit : ∀ j, bitAt disk' j = if j = l.inodeBitmap * 32768 + i then value else bitAt disk j) :
    volume l disk' = (volume l disk).putInodeBit i value := by
  obtain ⟨-, hblock, -⟩ := hl.inodeBitmap_lt hi
  obtain ⟨h0, h1, h2, h3, -, -⟩ := hl
  refine Volume.ext (funext fun j => ?_) (honly.dataBit (by omega)) (honly.inode (by omega))
    (honly.content ?_)
  · show (decide (j < l.inodeBits) && bitAt disk' (l.inodeBitmap * 32768 + j))
      = Function.update (volume l disk).inodeBit i value j
    rw [hbit]
    by_cases hj : j = i
    · subst hj
      rw [if_pos rfl, decide_eq_true hi, Bool.true_and, Function.update_self]
    · rw [if_neg (by omega), Function.update_of_ne hj]
      rfl
  · rintro (hz | hd) <;> omega

/-- A disk whose data bitmap has one bit changed. -/
theorem volume_putDataBit (hl : l.Sound) {disk' : Bytes} {b : Nat} {value : Bool}
    (hb : b < l.dataBits) (honly : OnlyBlock disk disk' (l.dataBitmap + b / 32768))
    (hbit : ∀ j, bitAt disk' j = if j = l.dataBitmap * 32768 + b then value else bitAt disk j) :
    volume l disk' = (volume l disk).putDataBit b value := by
  obtain ⟨-, hblock, -⟩ := hl.dataBitmap_lt hb
  obtain ⟨h0, h1, h2, h3, -, -⟩ := hl
  refine Volume.ext (honly.inodeBit (by omega)) (funext fun j => ?_) (honly.inode (by omega))
    (honly.content ?_)
  · show (decide (j < l.dataBits) && bitAt disk' (l.dataBitmap * 32768 + j))
      = Function.update (volume l disk).dataBit b value j
    rw [hbit]
    by_cases hj : j = b
    · subst hj
      rw [if_pos rfl, decide_eq_true hb, Bool.true_and, Function.update_self]
    · rw [if_neg (by omega), Function.update_of_ne hj]
      rfl
  · rintro (hz | hd) <;> omega

/-- A bit that is set, as one value for every bit. -/
theorem bitAt_set {block bit : Nat} (h : block < diskBlocks) {pos : Nat}
    (hpos : block * 32768 + bit % 32768 = pos) (j : Nat) :
    bitAt (setBitInDiskBlock disk block bit) j = if j = pos then true else bitAt disk j := by
  rw [bitAt_setBitInDiskBlock h, hpos]
  by_cases hj : j = pos
  · rw [if_pos hj, decide_eq_true hj, Bool.or_true]
  · rw [if_neg hj, decide_eq_false hj, Bool.or_false]

theorem bitAt_clear {block bit : Nat} (h : block < diskBlocks) {pos : Nat}
    (hpos : block * 32768 + bit % 32768 = pos) (j : Nat) :
    bitAt (clearBitInDiskBlock disk block bit) j = if j = pos then false else bitAt disk j := by
  rw [bitAt_clearBitInDiskBlock h, hpos]
  by_cases hj : j = pos
  · rw [if_pos hj, decide_eq_false (not_not_intro hj), Bool.and_false]
  · rw [if_neg hj, decide_eq_true hj, Bool.and_true]

/-- **Taking an inode number** sets its bit. -/
theorem volume_setInodeBit (hl : l.Sound) {i : Nat} (hi : i < l.inodeBits) :
    volume l (setBitInDiskBlock disk (u32 (l.inodeBitmap + i / bitsPerBlock)) i)
      = (volume l disk).putInodeBit i true := by
  obtain ⟨hword, -, hlt⟩ := hl.inodeBitmap_lt hi
  rw [bitsPerBlock, hword]
  exact volume_putInodeBit hl hi (onlyBlock_writeBlock hlt) (bitAt_set hlt (by omega))

/-- **Taking a data block** sets its bit. -/
theorem volume_setDataBit (hl : l.Sound) {b : Nat} (hb : b < l.dataBits) :
    volume l (setBitInDiskBlock disk (u32 (l.dataBitmap + b / bitsPerBlock)) b)
      = (volume l disk).putDataBit b true := by
  obtain ⟨hword, -, hlt⟩ := hl.dataBitmap_lt hb
  rw [bitsPerBlock, hword]
  exact volume_putDataBit hl hb (onlyBlock_writeBlock hlt) (bitAt_set hlt (by omega))

end

section

variable {disk : Bytes} {sb : Superblock}

/-- **`clear_bit_in_inode_bitmap`**. -/
theorem volume_clearInodeBit (hl : sb.layout.Sound) {i : Nat} (hi : i < sb.layout.inodeBits) :
    volume sb.layout (clearBitInInodeBitmap disk sb i)
      = (volume sb.layout disk).putInodeBit i false := by
  obtain ⟨hword, -, hlt⟩ := hl.inodeBitmap_lt hi
  unfold clearBitInInodeBitmap
  rw [bitsPerBlock]
  show volume _ (clearBitInDiskBlock disk (u32 (sb.layout.inodeBitmap + i / 32768)) _) = _
  rw [hword]
  exact volume_putInodeBit hl hi (onlyBlock_writeBlock hlt) (bitAt_clear hlt (by omega))

/-- **`clear_bit_in_data_bitmap`**. -/
theorem volume_clearDataBit (hl : sb.layout.Sound) {b : Nat} (hb : b < sb.layout.dataBits) :
    volume sb.layout (clearBitInDataBitmap disk sb b)
      = (volume sb.layout disk).putDataBit b false := by
  obtain ⟨hword, -, hlt⟩ := hl.dataBitmap_lt hb
  unfold clearBitInDataBitmap
  rw [bitsPerBlock]
  show volume _ (clearBitInDiskBlock disk (u32 (sb.layout.dataBitmap + b / 32768)) _) = _
  rw [hword]
  exact volume_putDataBit hl hb (onlyBlock_writeBlock hlt) (bitAt_clear hlt (by omega))

/-! ## 5. Inodes and blocks -/

/-- The inodes of the inode blocks have sectors. -/
theorem inodeFits (hl : sb.layout.Sound) {id : Nat} (h : id < sb.layout.capacity) :
    InodeFits sb id := by
  obtain ⟨-, -, -, h3, h4, -⟩ := hl
  unfold Layout.capacity at h
  unfold diskBlocks at h4
  show sb.layout.inodeArea * 8 + id / 8 < 268435456
  omega

/-- **`update_inode_on_disk`** replaces one inode. -/
theorem volume_storeInode (hl : sb.layout.Sound) {id : Nat} {inode : Inode}
    (h : id < sb.layout.capacity) :
    volume sb.layout (storeInode disk sb id inode)
      = (volume sb.layout disk).putInode id inode := by
  have honly : OnlyBlock disk (storeInode disk sb id inode) (sb.firstInodeBlock + id / 64) :=
    onlyBlock_storeInode (inodeFits hl h)
  have hstore : storeInode disk sb id inode = Packed.store disk (inodeAddr sb id) inode :=
    storeInode_eq (inodeFits hl h)
  have hblock : sb.firstInodeBlock + id / 64 < sb.layout.inodeArea + sb.layout.inodeBlocks := by
    unfold Layout.capacity at h
    show sb.layout.inodeArea + id / 64 < _
    omega
  have harea : sb.layout.inodeArea ≤ sb.firstInodeBlock + id / 64 := Nat.le_add_right _ _
  obtain ⟨h0, h1, h2, h3, -, -⟩ := hl
  refine Volume.ext (honly.inodeBit (by omega)) (honly.dataBit (by omega)) (funext fun j => ?_)
    (honly.content ?_)
  · show (if j < sb.layout.capacity then
        Packed.load (storeInode disk sb id inode) (inodeAddr sb j) else noInode)
      = Function.update (volume sb.layout disk).inode id inode j
    rw [hstore]
    by_cases hj : j = id
    · subst hj
      rw [if_pos h, Packed.load_store, Function.update_self]
    · rw [Function.update_of_ne hj]
      by_cases hcap : j < sb.layout.capacity
      · rw [if_pos hcap, Packed.load_store_ne (by unfold inodeAddr; omega)]
        exact (if_pos hcap).symm
      · rw [if_neg hcap]
        exact (if_neg hcap).symm
  · rintro (hz | hd) <;> omega

/-- An inode behind the inode blocks overwrites data; the bitmaps and the inodes stay. -/
theorem volume_storeInode_behind (hl : sb.layout.Sound) {id : Nat} {inode : Inode}
    (h : sb.layout.capacity ≤ id) (hfits : InodeFits sb id) :
    (volume sb.layout (storeInode disk sb id inode)).inodeBit = (volume sb.layout disk).inodeBit ∧
    (volume sb.layout (storeInode disk sb id inode)).dataBit = (volume sb.layout disk).dataBit ∧
    (volume sb.layout (storeInode disk sb id inode)).inode = (volume sb.layout disk).inode := by
  have honly : OnlyBlock disk (storeInode disk sb id inode) (sb.firstInodeBlock + id / 64) :=
    onlyBlock_storeInode hfits
  have hblock : sb.layout.inodeArea + sb.layout.inodeBlocks ≤ sb.firstInodeBlock + id / 64 := by
    unfold Layout.capacity at h
    show _ ≤ sb.layout.inodeArea + id / 64
    omega
  obtain ⟨h0, h1, h2, h3, -, -⟩ := hl
  exact ⟨honly.inodeBit (by omega), honly.dataBit (by omega), honly.inode (by omega)⟩

/-- The inode that is loaded from the inode blocks. -/
theorem volume_loadInode (hl : sb.layout.Sound) {id : Nat} (h : id < sb.layout.capacity) :
    (volume sb.layout disk).inode id = loadInode disk sb id := by
  rw [loadInode_eq (inodeFits hl h)]
  exact if_pos h

/-- **Writing a block** of the data area, or the boot block. -/
theorem volume_writeBlock {l : Layout} (hl : l.Sound) {block : Nat} {tempBlock : Bytes}
    (hs : l.Shown block) (h : block < diskBlocks) :
    volume l (writeBlock disk block tempBlock) = (volume l disk).putBlock block tempBlock := by
  have honly : OnlyBlock disk (writeBlock disk block tempBlock) block := onlyBlock_writeBlock h
  have hout : block < 2 ∨ l.dataArea ≤ block := hs.imp (by omega) id
  obtain ⟨h0, h1, h2, h3, -, -⟩ := hl
  refine Volume.ext (honly.inodeBit (by omega)) (honly.dataBit (by omega))
    (honly.inode (by omega)) (funext fun b => funext fun p => ?_)
  show (if l.Shown b ∧ p < 4096 then writeBlock disk block tempBlock (b * 4096 + p) else 0)
    = Function.update (volume l disk).content block
      (fun p => if p < 4096 then tempBlock p else 0) b p
  by_cases hb : b = block
  · subst hb
    rw [Function.update_self]
    by_cases hp : p < 4096
    · rw [if_pos ⟨hs, hp⟩, if_pos hp, writeBlock_eq h, blit_add hp]
    · rw [if_neg fun hand => hp hand.2, if_neg hp]
  · rw [Function.update_of_ne hb]
    by_cases hp : l.Shown b ∧ p < 4096
    · rw [if_pos hp, honly _ (by omega)]
      exact (if_pos hp).symm
    · rw [if_neg hp]
      exact (if_neg hp).symm

/-- A block that is read from the data area. -/
theorem volume_readBlock {l : Layout} {after : Bytes} {block p : Nat}
    (hs : l.Shown block) (h : block < diskBlocks) (hp : p < 4096) :
    readBlock disk after block p = (volume l disk).content block p := by
  rw [readBlock_in h hp]
  exact (if_pos ⟨hs, hp⟩).symm

/-- Blocks with the same content are read alike. -/
theorem readBlock_congr {l l' : Layout} {disk disk' after : Bytes} {block : Nat} (hs : l.Shown block)
    (hs' : l'.Shown block) (hb : block < diskBlocks)
    (h : (volume l disk).content block = (volume l' disk').content block) :
    readBlock disk after block = readBlock disk' after block := by
  funext k
  by_cases hk : k < 4096
  · rw [volume_readBlock hs hb hk, h, volume_readBlock hs' hb hk]
  · rw [readBlock_out (Nat.le_of_not_lt hk), readBlock_out (Nat.le_of_not_lt hk)]

/-- **`update_superblock`** changes nothing of the volume. -/
theorem volume_updateSuperblock (s : State) (hl : s.superblock.layout.Sound) :
    (updateSuperblock s).volume = s.volume := by
  have honly := onlyBlock_updateSuperblock s
  obtain ⟨h0, h1, h2, h3, -, -⟩ := hl
  show volume s.superblock.layout (updateSuperblock s).disk = volume s.superblock.layout s.disk
  refine Volume.ext (honly.inodeBit (by omega)) (honly.dataBit (by omega))
    (honly.inode (by omega)) (honly.content ?_)
  rintro (hz | hd) <;> omega

/-- **The next free data bit**: the least one of the volume; 0 when there is none. -/
theorem volume_firstFreeData (hl : sb.layout.Sound) :
    ∃ r, FirstClear (volume sb.layout disk).dataBit sb.layout.dataBits r ∧
      findFirstFreeBitInDiskBlocks disk sb.firstDataBitmapBlock sb.numDataBitmapBlocks
        = (r.map (· % 32768)).getD 0 := by
  obtain ⟨-, h1, h2, h3, h4, -⟩ := hl
  have hfits : sb.layout.dataBitmap + sb.layout.dataBitmapBlocks ≤ diskBlocks := by omega
  obtain ⟨r, hr, hfind⟩ := @findFirstFree_spec disk _ _ hfits
  refine ⟨r, hr.congr fun b hb => ?_, hfind⟩
  have hin : b < sb.layout.dataBits := hb
  show _ = (decide (b < sb.layout.dataBits) && _)
  rw [decide_eq_true hin, Bool.true_and]

/-- **The next free inode bit**. -/
theorem volume_firstFreeInode (hl : sb.layout.Sound) :
    ∃ r, FirstClear (volume sb.layout disk).inodeBit sb.layout.inodeBits r ∧
      findFirstFreeBitInDiskBlocks disk sb.firstInodeBitmapBlock sb.numInodeBitmapBlocks
        = (r.map (· % 32768)).getD 0 := by
  obtain ⟨-, h1, h2, h3, h4, -⟩ := hl
  have hfits : sb.layout.inodeBitmap + sb.layout.inodeBitmapBlocks ≤ diskBlocks := by omega
  obtain ⟨r, hr, hfind⟩ := @findFirstFree_spec disk _ _ hfits
  refine ⟨r, hr.congr fun i hi => ?_, hfind⟩
  have hin : i < sb.layout.inodeBits := hi
  show _ = (decide (i < sb.layout.inodeBits) && _)
  rw [decide_eq_true hin, Bool.true_and]

end

end AmateurOs.Fs
