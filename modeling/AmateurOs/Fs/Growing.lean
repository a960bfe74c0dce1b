/-
# A new file in a directory of any size

`fs_create_file` adds one entry to the directory, when the directory has room for it.  Where the
entries in use fill blocks exactly, the directory should grow by a block, and never does: the loop
that looks for the last extent in use leaves its index behind the last of the four.  What is
counted up then is the second indirect block number, and the block that is set to zero is the boot
block; or, when the bit behind the last block is seen in use, a block that no disk has.

Directories that hold more blocks than their entries need have an unused entry all the same, and
so `createAdds_iff` has a condition on both.  It has one on the number of the new inode, too: a
number behind the inode blocks has its record written over data.
-/
import AmateurOs.Fs.Entries
import AmateurOs.Fs.Bootable

namespace AmateurOs.Fs

open AmateurOs.Lib

/-! ## 1. Whole disks -/

/-- **A whole disk**: it is well formed, the next inode number has a bit, directories have each
block once and no indirect ones, and there is something in the boot block. -/
structure Whole (s : State) : Prop extends WellFormed s where
  inBitmap : s.superblock.firstFreeInodeBit < s.superblock.layout.inodeBits
  once : ∀ i, IsDir s i → (directBlocks s.superblock (s.volume.inode i)).Nodup
  direct : ∀ i, IsDir s i →
    (s.volume.inode i).extentFirst 4 = 0 ∧ (s.volume.inode i).extentLength 4 = 0
  boot : s.volume.content 0 ≠ fun _ => 0

/-- **One entry more**, in one directory: the result of creating a file of that name there. -/
structure EntryAdded (s : State) (parent : Inode) (name : List UInt8) (result : Inode × State) :
    Prop where
  added : dirEntries result.2 (result.2.volume.inode parent.id) =
    (result.1.id, name) ::ₘ dirEntries s parent
  others : ∀ i, IsDir s i → i ≠ parent.id →
    dirEntries result.2 (result.2.volume.inode i) = dirEntries s (s.volume.inode i)
  sizeBytes : (result.2.volume.inode parent.id).sizeBytes =
    dirEntrySize * (dirEntries result.2 (result.2.volume.inode parent.id)).card
  boot : result.2.volume.content 0 = s.volume.content 0
  files : ∀ i, Carries s i → i ≠ parent.id → ∀ b, (s.volume.inode i).Holds b →
    result.2.volume.content b = s.volume.content b

/-- The block that the record of the new inode is written to. -/
def recordBlock (s : State) : Nat :=
  s.superblock.layout.inodeArea + s.superblock.firstFreeInodeBit / 64

/-- The record lies in the inode blocks, or over nothing: in no block that is held, or where one
holds the same bytes. -/
def RecordFits (env : Env) (s : State) : Prop :=
  s.superblock.firstFreeInodeBit < s.superblock.layout.capacity ∨
    ∀ i, Carries s i → (s.volume.inode i).Holds (recordBlock s) → ∀ k < 64,
      s.volume.content (recordBlock s) (s.superblock.firstFreeInodeBit % 64 * 64 + k) =
        (createdInode env s).bytes k

/-- The bit behind the last block of the directory, as it is seen once the new file has its block:
past the buffer of one sector the bytes behind it are taken for bits. -/
def growthSeen (env : Env) (s : State) (parent : Inode) : Bool :=
  let bit := growthBit s.superblock parent
  if bit < 4096 then s.volume.dataBit bit || bit == s.superblock.firstFreeDataBit
  else (env.afterTempSector (bit / 8 - fsSectorSize)).toNat.testBit (bit % 8)

/-- **There is room for an entry**: the entries in use leave the last block they need unfilled, or
the directory has another block, and the bit behind its last one is seen in use. -/
structure RoomForEntry (env : Env) (s : State) (parent : Inode) : Prop where
  record : RecordFits env s
  room : ¬ dirEntriesPerBlock ∣ (dirEntries s parent).card ∨
    (dirEntries s parent).card <
        dirEntriesPerBlock * (directBlocks s.superblock parent).length ∧
      growthSeen env s parent = true

/-! ## 2. Allocation -/

section

variable {env : Env} {s : State} (h : Whole s)

include h

theorem Whole.dataArea_le : s.superblock.layout.dataArea ≤ 32768 := by
  by_contra hgt
  have hset := h.reserved 32768 (Nat.lt_of_not_le hgt)
  have hlt : 32768 < s.superblock.layout.dataBits :=
    of_decide_eq_true (Bool.and_eq_true_iff.mp hset).1
  rw [h.dataBits] at hlt
  exact Nat.lt_irrefl _ hlt

theorem Whole.canAllocate : CanAllocate s := by
  refine ⟨h.inBitmap, ?_, ?_⟩
  · rcases h.dataHint with hnone | ⟨hlt, -⟩
    · rw [hnone, h.dataBits]
      decide
    · exact hlt
  · have harea := h.dataArea_le
    have hinodes := h.sound.inodeArea
    have hbit := h.inBitmap
    unfold Layout.inodeBits at hbit
    rw [h.inodeBitmap] at hbit
    show s.superblock.layout.inodeArea * 8 + s.superblock.firstFreeInodeBit / 8 < 268435456
    omega

theorem Whole.allocated : Allocated env s (allocate env s) :=
  allocate_allocated h.sound h.canAllocate

/-- Allocation writes to the data area only the record of an inode behind the inode blocks. -/
theorem Whole.allocated_content {b p : Nat} (hs : s.superblock.layout.Shown b) (hp : p < 4096) :
    (allocate env s).volume.content b p =
      if s.superblock.layout.capacity ≤ s.superblock.firstFreeInodeBit ∧ b = recordBlock s ∧
          p / 64 = s.superblock.firstFreeInodeBit % 64 then
        (createdInode env s).bytes (p % 64)
      else s.volume.content b p := by
  have halloc := @Whole.allocated env s h
  by_cases hcap : s.superblock.firstFreeInodeBit < s.superblock.layout.capacity
  · rw [if_neg fun hall => absurd hcap (Nat.not_lt.mpr hall.1), halloc.content hcap]
  obtain ⟨hi, hd, hfits⟩ := h.canAllocate
  obtain ⟨disk1, next1, htake1, hvol1, -⟩ := takeInodeBit_spec h.sound hi
  have hlayout1 := Superblock.layout_setFirstFreeInodeBit s.superblock next1
  have hd1 : (s.superblock.setFirstFreeInodeBit next1).firstFreeDataBit
      = s.superblock.firstFreeDataBit := Superblock.firstFreeDataBit_setFirstFreeInodeBit ..
  obtain ⟨disk2, next2, htake2, hvol2, -⟩ := @takeDataBit_spec
    { s with disk := disk1, superblock := s.superblock.setFirstFreeInodeBit next1 }
    (by rw [hlayout1]; exact h.sound) (by rw [hlayout1, hd1]; exact hd)
  simp only [State.volume, hlayout1, hd1, hvol1] at htake2 hvol2
  have hcontent : (volume s.superblock.layout disk2).content b p = s.volume.content b p := by
    rw [hvol2]
    rfl
  generalize hsb : (s.superblock.setFirstFreeInodeBit next1).setFirstFreeDataBit next2 = sb at *
  have hlayout : sb.layout = s.superblock.layout := by
    rw [← hsb, Superblock.layout_setFirstFreeDataBit, hlayout1]
  have hstate : allocate env s = { s with
      disk := storeInode disk2 sb s.superblock.firstFreeInodeBit (createdInode env s)
      superblock := sb } := by
    unfold allocate
    rw [htake1, htake2, updateInodeOnDisk, id_createdInode]
  have haddr : inodeAddr sb s.superblock.firstFreeInodeBit =
      s.superblock.layout.inodeArea * 4096 + s.superblock.firstFreeInodeBit * 64 := by
    rw [← hlayout]
    rfl
  have hfits' : InodeFits sb s.superblock.firstFreeInodeBit := by
    unfold InodeFits at hfits ⊢
    rw [show sb.firstInodeBlock = s.superblock.firstInodeBlock from
      congrArg Layout.inodeArea hlayout]
    exact hfits
  have hdisk : (allocate env s).volume.content b p =
      Packed.store disk2 (inodeAddr sb s.superblock.firstFreeInodeBit) (createdInode env s)
        (b * 4096 + p) := by
    rw [hstate, ← storeInode_eq hfits']
    exact if_pos ⟨by rw [hlayout]; exact hs, hp⟩
  have hbefore : s.volume.content b p = disk2 (b * 4096 + p) := by
    rw [← hcontent]
    exact if_pos ⟨hs, hp⟩
  rw [hdisk, haddr, hbefore]
  unfold recordBlock
  split
  · next hin =>
    have hplace : b * 4096 + p = s.superblock.layout.inodeArea * 4096 +
        s.superblock.firstFreeInodeBit * 64 + p % 64 := by omega
    unfold Packed.store
    rw [hplace, blit_add (by omega)]
  · next hout =>
    refine Packed.store_out ?_
    omega

/-- **Blocks that are held keep their content** where the record fits. -/
theorem Whole.allocated_held (hrecord : RecordFits env s) {i b : Nat} (hi : Carries s i)
    (hb : (s.volume.inode i).Holds b) :
    (allocate env s).volume.content b = s.volume.content b := by
  have hplaced := h.placed i hi b hb
  have hlayout := (@Whole.allocated env s h).layout
  funext p
  by_cases hp : p < 4096
  · rw [h.allocated_content (Or.inr hplaced.1) hp]
    split
    · next hall =>
      obtain ⟨hcap, rfl, hslot⟩ := hall
      have hsame := hrecord.resolve_left (Nat.not_lt.mpr hcap) i hi hb (p % 64) (by omega)
      rw [← hsame, ← hslot, Nat.div_add_mod' p 64]
    · rfl
  · have hzero : ∀ (l : Layout) (disk : Bytes), (volume l disk).content b p = 0 := fun _ _ =>
      if_neg fun hand => hp hand.2
    exact (hzero _ _).trans (hzero _ _).symm

/-- The boot block is not reached. -/
theorem Whole.allocated_boot : (allocate env s).volume.content 0 = s.volume.content 0 := by
  have hsuper := h.sound.superblock
  have hbitmap := h.sound.inodeBitmap
  have hdata := h.sound.dataBitmap
  funext p
  by_cases hp : p < 4096
  · rw [h.allocated_content (Or.inl rfl) hp, if_neg]
    unfold recordBlock
    omega
  · have hzero : ∀ (l : Layout) (disk : Bytes), (volume l disk).content 0 p = 0 := fun _ _ =>
      if_neg fun hand => hp hand.2
    exact (hzero _ _).trans (hzero _ _).symm

/-- The probe of the bit behind the last block. -/
theorem Whole.nextBitInUse_seen (parent : Inode) : nextBitInUse env (allocate env s)
    (growthBit (allocate env s).superblock parent) = growthSeen env s parent := by
  have halloc := @Whole.allocated env s h
  have hbit : growthBit (allocate env s).superblock parent = growthBit s.superblock parent := by
    have hextents : (allocate env s).superblock.directExtentsPerInode =
        s.superblock.directExtentsPerInode := congrArg Layout.directExtents halloc.layout
    unfold growthBit lastUsedBlock
    rw [hextents]
  have hlen : transferSize 1 = 512 := by decide
  rw [hbit]
  unfold growthSeen nextBitInUse bitmapTempSector readSectors
  simp only [hlen]
  generalize growthBit s.superblock parent = bit
  split
  · next hlow =>
    have hdataBit := congrFun halloc.dataBit bit
    have hpos : 0 < (allocate env s).superblock.layout.dataBits := by
      rw [halloc.layout, h.dataBits]
      decide
    have hin : bit < (allocate env s).superblock.layout.dataBits := by
      rw [halloc.layout, h.dataBits]
      omega
    have haddr := @bitmapSectorAddr (allocate env s) (by rw [halloc.layout]; exact h.sound)
      hpos bit hlow
    have hread : (allocate env s).volume.dataBit bit = bitAt (allocate env s).disk
        ((allocate env s).superblock.layout.dataBitmap * 32768 + bit) := by
      show (decide (bit < (allocate env s).superblock.layout.dataBits) && _) = _
      rw [decide_eq_true hin, Bool.true_and]
    rw [blit_in (Nat.zero_le _) (by omega), slice_apply, haddr, Nat.sub_zero]
    have hseen : (s.volume.dataBit bit || bit == s.superblock.firstFreeDataBit) =
        (allocate env s).volume.dataBit bit := by
      rw [hdataBit, Function.update_apply]
      by_cases heq : bit = s.superblock.firstFreeDataBit
      · rw [if_pos heq, beq_iff_eq.mpr heq, Bool.or_true]
      · rw [if_neg heq, beq_eq_false_iff_ne.mpr heq, Bool.or_false]
    rw [hseen, hread]
    unfold bitAt
    have hbyte : ((allocate env s).superblock.layout.dataBitmap * 32768 + bit) / 8 =
        (allocate env s).superblock.layout.dataBitmap * 4096 + bit / 8 := by omega
    have hoff : ((allocate env s).superblock.layout.dataBitmap * 32768 + bit) % 8 = bit % 8 := by
      omega
    rw [hbyte, hoff]
  · next hhigh =>
    rw [blit_out (by omega)]

end

/-! ## 3. The directory that grows -/

/-- The bits that growing sets are no data. -/
theorem Volume.grow_data (v : Volume) (bit hint : Nat) (inUse : Bool) :
    (v.grow bit inUse hint).inode = v.inode ∧ (v.grow bit inUse hint).content = v.content := by
  unfold Volume.grow
  split
  · exact ⟨rfl, rfl⟩
  · split <;> exact ⟨rfl, rfl⟩

theorem Volume.content_zeroBlock_ne (v : Volume) (l : Layout) {b block : Nat} (hne : b ≠ block) :
    (v.zeroBlock l block).content b = v.content b := by
  unfold Volume.zeroBlock
  split
  · exact Function.update_of_ne hne _ _
  · rfl

/-- The boot block set to zero. -/
theorem Volume.content_zeroBlock_boot (v : Volume) (l : Layout) :
    (v.zeroBlock l 0).content 0 = fun _ => 0 := by
  unfold Volume.zeroBlock
  rw [if_pos (show l.Shown 0 from Or.inl rfl)]
  show Function.update v.content 0 _ 0 = _
  rw [Function.update_self]
  exact funext fun p => ite_self _

section

variable {env : Env} {s : State} (h : Whole s)

include h

/-- **The directory once it has grown**, if it must: the boot block is blank when the bit behind the
last block was seen free, and no other block of the disk has changed. -/
structure Grew (env : Env) (s : State) (parent parent' : Inode) (g : State) : Prop where
  extents : SameExtents parent' parent
  sizeBytes : parent'.sizeBytes = parent.sizeBytes
  layout : g.superblock.layout = s.superblock.layout
  inode : g.volume.inode = (allocate env s).volume.inode
  data : ∀ b, s.superblock.layout.dataArea ≤ b → b < 32768 →
    g.volume.content b = (allocate env s).volume.content b
  boot : needsBlock parent = false ∨ growthSeen env s parent = true →
    g.volume.content 0 = s.volume.content 0
  blank : needsBlock parent = true → growthSeen env s parent = false →
    g.volume.content 0 = fun _ => 0

theorem Whole.grew {parent : Inode} (hp : OnDisk s parent) (hdir : parent.type = filetypeDir) :
    ∃ parent' g, (if needsBlock parent then growDirectory env (allocate env s) parent
        else (parent, allocate env s)) = (parent', g) ∧ Grew env s parent parent' g := by
  have halloc := @Whole.allocated env s h
  have hboot := @Whole.allocated_boot env s h
  by_cases hneed : needsBlock parent = true
  swap
  · rw [Bool.not_eq_true] at hneed
    rw [hneed]
    exact ⟨parent, allocate env s, rfl, ⟨fun _ _ _ => rfl, fun _ _ _ => rfl, fun _ _ _ => rfl⟩, rfl,
      halloc.layout, rfl, fun _ _ _ => rfl, fun _ => hboot, fun hneed' => by
        rw [hneed] at hneed'
        cases hneed'⟩
  rw [if_pos hneed]
  have hdirect : parent.extentFirst 4 = 0 ∧ parent.extentLength 4 = 0 := by
    have hd := h.direct parent.id ⟨hp.carries, hp.2.symm ▸ hdir⟩
    rwa [hp.2] at hd
  have hseen := @Whole.nextBitInUse_seen env s h parent
  have hzeroed : zeroedBlock parent (growthSeen env s parent) % diskBlocks =
      if growthSeen env s parent then 33554431 else 0 := by
    unfold zeroedBlock
    rw [hdirect.1, hdirect.2]
    cases growthSeen env s parent <;> decide
  have harea := h.dataArea_le
  have hout : ZeroesOutside s.superblock.layout (zeroedBlock parent (growthSeen env s parent)) := by
    unfold ZeroesOutside
    rw [hzeroed]
    split <;> omega
  have hgrown := @growDirectory_grown env (allocate env s) parent
    (by rw [halloc.layout]; exact h.sound)
    (by
      rw [halloc.layout, h.dataBits]
      exact halloc.dataNext.lt)
    (growthSeen env s parent) hseen (by rw [halloc.layout]; exact hout)
  generalize growDirectory env (allocate env s) parent = r at hgrown ⊢
  obtain ⟨parent', g⟩ := r
  have hvolume := hgrown.volume
  rw [hzeroed, halloc.layout] at hvolume
  obtain ⟨hinode, hcontent⟩ := (allocate env s).volume.grow_data
    (growthBit (allocate env s).superblock parent) (allocate env s).superblock.firstFreeDataBit
    (growthSeen env s parent)
  generalize (allocate env s).volume.grow _ _ _ = v at hvolume hinode hcontent
  refine ⟨parent', g, rfl, hgrown.extents, hgrown.sizeBytes, hgrown.layout.trans halloc.layout, ?_,
    fun b hlo hhi => ?_, fun hkept => ?_, fun _ hfree => ?_⟩
  · rw [hvolume, Volume.inode_zeroBlock, hinode]
  · have hsuper := h.sound.superblock
    have hbitmap := h.sound.inodeBitmap
    have hdata := h.sound.dataBitmap
    have hinodes := h.sound.inodeArea
    rw [hvolume, Volume.content_zeroBlock_ne _ _ (by split <;> omega), hcontent]
  · have hin := hkept.resolve_left fun hfits => by
      rw [hneed] at hfits
      cases hfits
    rw [hvolume, hin, if_pos rfl, Volume.content_zeroBlock_ne _ _ (by decide), hcontent, hboot]
  · rw [hvolume, hfree, if_neg Bool.false_ne_true, Volume.content_zeroBlock_boot]

/-! ## 4. The new file -/

/-- The blocks of a directory are less than those of a bitmap. -/
theorem Whole.blocks_le {parent : Inode} (hp : OnDisk s parent) (hdir : parent.type = filetypeDir) :
    (directBlocks s.superblock parent).length ≤ 32768 := by
  have hnodup := h.once parent.id ⟨hp.carries, hp.2.symm ▸ hdir⟩
  rw [hp.2] at hnodup
  have hsub : directBlocks s.superblock parent ⊆ List.range 32768 := fun b hb => by
    have hplaced := (h.onDisk_placed hp).2 b (holds_of_mem_directBlocks h.sound.extents hb)
    rw [h.dataBits] at hplaced
    exact List.mem_range.mpr hplaced.2
  exact (hnodup.subperm hsub).length_le.trans_eq List.length_range

theorem Whole.mem_blocks {parent : Inode} (hp : OnDisk s parent) {b : Nat} :
    b ∈ directBlocks s.superblock parent ↔ parent.Holds b := by
  have hplaced := (h.onDisk_placed hp).2
  rw [← indexedBlocks_direct h.sound hplaced h.dataBits_le]
  exact mem_indexedBlocks h.sound.extents hplaced h.dataBits_le

/-- No other inode has a block of the directory. -/
theorem Whole.not_blocks {parent : Inode} (hp : OnDisk s parent) {i b : Nat} (hi : Carries s i)
    (hne : i ≠ parent.id) (hb : (s.volume.inode i).Holds b) :
    b ∉ directBlocks s.superblock parent := by
  intro hmem
  have hold := (h.mem_blocks hp).mp hmem
  rw [← hp.2] at hold
  exact h.apart i parent.id hi hp.carries hne b hb hold

/-- Neither is the boot block one. -/
theorem Whole.boot_not_blocks {parent : Inode} (hp : OnDisk s parent) :
    0 ∉ directBlocks s.superblock parent := by
  intro hmem
  have hplaced := (h.onDisk_placed hp).2 0 ((h.mem_blocks hp).mp hmem)
  have hsuper := h.sound.superblock
  have hbitmap := h.sound.inodeBitmap
  have hdata := h.sound.dataBitmap
  have hinodes := h.sound.inodeArea
  omega

/-- The number that is handed out is that of no inode. -/
theorem Whole.hint_free (hne : s.superblock.firstFreeInodeBit ≠ 0) :
    ¬ Carries s s.superblock.firstFreeInodeBit := by
  intro hcarries
  have hset := h.live _ hcarries
  rw [h.inodeHint.resolve_left hne] at hset
  cases hset

/-- The size of a directory counts its entries. -/
theorem Whole.size {parent : Inode} (hp : OnDisk s parent) (hdir : parent.type = filetypeDir) :
    parent.sizeBytes = dirEntrySize * (dirEntries s parent).card ∧
      (dirEntries s parent).card ≤
        dirEntriesPerBlock * (directBlocks s.superblock parent).length := by
  have hsize := h.sizeBytes parent.id ⟨hp.carries, hp.2.symm ▸ hdir⟩
  rw [hp.2, ← card_dirEntries] at hsize
  refine ⟨hsize, ?_⟩
  rw [card_dirEntries]
  exact (liveEntries_sum _ _).1

/-- The entry makes the directory larger by a block where the entries fill blocks. -/
theorem Whole.needsBlock_iff {parent : Inode} (hp : OnDisk s parent)
    (hdir : parent.type = filetypeDir) :
    needsBlock parent = true ↔ dirEntriesPerBlock ∣ (dirEntries s parent).card := by
  obtain ⟨hsize, hle⟩ := h.size hp hdir
  have hblocks := h.blocks_le hp hdir
  unfold needsBlock
  rw [hsize, bytesToBlocks_eq, bytesToBlocks_eq, decide_eq_true_iff]
  generalize (dirEntries s parent).card = k at *
  unfold dirEntriesPerBlock at hle ⊢
  rw [u32_eq (by unfold dirEntrySize; omega)]
  unfold dirEntrySize
  omega

/-- A file that is created: past the checks, and with a number. -/
theorem Whole.created {path : CString} (hp : OnDisk s (parentInodeFromPath env s path))
    (hdir : (parentInodeFromPath env s path).type = filetypeDir)
    (hne : (fsCreateFile env s path).1.id ≠ 0) :
    s.superblock.firstFreeInodeBit ≠ 0 ∧ ∃ parent' g,
      Grew env s (parentInodeFromPath env s path) parent' g ∧
      fsCreateFile env s path = (createdInode env s, enterFile g (enlarged env parent')
        s.superblock.firstFreeInodeBit (lastNameInPath path)) := by
  have hpassed : ¬ CreateRefused env s path := fun hrefused => by
    rw [fsCreateFile_refused hrefused] at hne
    exact hne id_noInode
  obtain ⟨hname, hparent⟩ := not_or.mp hpassed
  obtain ⟨parent', g, hif, hgrew⟩ := @Whole.grew env s h _ hp hdir
  have hcall := fsCreateFile_eq (Bool.not_eq_true _ ▸ hname) hparent
  simp only [hif, id_createdInode] at hcall
  rw [hcall] at hne
  exact ⟨fun hzero => hne ((id_createdInode env s).trans hzero), parent', g, hgrew, hcall⟩

end

/-! ## 5. What the call leaves -/

theorem superblock_enterFile (s : State) (p : Inode) (id : Nat) (name : List UInt8) :
    (enterFile s p id name).superblock = s.superblock := by
  obtain ⟨disk, hadd, -⟩ := addEntry_disk (updateInodeOnDisk s p) p id name
  unfold enterFile
  rw [hadd]
  rfl

section

variable {env : Env} {s g : State} {parent parent' : Inode} (hg : Grew env s parent parent' g)

include hg

theorem Grew.id : (enlarged env parent').id = parent.id :=
  ((sameExtents_enlarged env parent').trans hg.extents).id

/-- The blocks of the directory stay the same. -/
theorem Grew.blocks (hext : s.superblock.directExtentsPerInode = 4) :
    directBlocks g.superblock (enlarged env parent') = directBlocks s.superblock parent := by
  rw [directBlocks_layout hg.layout,
    ((sameExtents_enlarged env parent').trans hg.extents).directBlocks hext]

variable (h : Whole s) (hp : OnDisk s parent) {id : Nat} {name : List UInt8}

include h hp

theorem Grew.shownDir : ShownDir g (enlarged env parent') := by
  refine ⟨?_, ?_, fun b hb => ?_⟩
  · rw [hg.layout]
    exact h.sound
  · rw [hg.layout, hg.id]
    exact hp.carries.lt
  · rw [hg.blocks h.sound.extents] at hb
    rw [hg.layout]
    exact (h.block hp (holds_of_mem_directBlocks h.sound.extents hb)).1

/-- The inodes: that of the directory is the enlarged one, the others are those of before. -/
theorem Grew.inode_after (i : Nat) :
    (enterFile g (enlarged env parent') id name).volume.inode i =
      if i = parent.id then enlarged env parent' else (allocate env s).volume.inode i := by
  have hshown := hg.shownDir h hp
  have hput : (enterFile g (enlarged env parent') id name).volume.inode =
      Function.update g.volume.inode (enlarged env parent').id (enlarged env parent') := by
    rcases hslot : newSlot g (enlarged env parent') with - | ⟨j, count⟩
    · rw [hshown.notEntered hslot]
      rfl
    · obtain ⟨-, -, -, hvol⟩ := @ShownDir.entered g _ hshown id name j count hslot
      rw [hvol]
      rfl
  rw [hput, hg.id, hg.inode, Function.update_apply]

/-- Blocks that are none of the directory. -/
theorem Grew.content_after {b : Nat} (hb : b ∉ directBlocks s.superblock parent) :
    (enterFile g (enlarged env parent') id name).volume.content b = g.volume.content b := by
  have hshown := hg.shownDir h hp
  rcases hslot : newSlot g (enlarged env parent') with - | ⟨j, count⟩
  · rw [hshown.notEntered hslot]
    rfl
  · obtain ⟨hj, -, -, hvol⟩ := @ShownDir.entered g _ hshown id name j count hslot
    rw [hg.blocks h.sound.extents] at hj
    rw [hvol]
    have hne : b ≠ j := fun heq => hb (heq.symm ▸ hj)
    exact Function.update_of_ne hne _ _

/-- The entries in use stay as they are in the blocks of the directory. -/
theorem Grew.entry_after {b n : Nat} (hn : n < dirEntriesPerBlock) (hlen : name.length < 60)
    (hused : entryId (g.volume.content b) n ≠ 0) :
    slotEntry ((enterFile g (enlarged env parent') id name).volume.content b) n =
      slotEntry (g.volume.content b) n := by
  have hshown := hg.shownDir h hp
  rcases hslot : newSlot g (enlarged env parent') with - | ⟨j, count⟩
  · rw [hshown.notEntered hslot]
    rfl
  obtain ⟨-, -, hunused, hvol⟩ := @ShownDir.entered g _ hshown id name j count hslot
  rw [hvol]
  by_cases hj : b = j
  · subst hj
    have hne : n ≠ count := fun heq => hused (heq ▸ hunused)
    obtain ⟨hnumber, hname⟩ := @entry_putBlock (writeEntry (g.volume.content b) count id name) n
      (g.volume.putInode (enlarged env parent').id (enlarged env parent')) b hn
    exact slotEntry_congr (hnumber.trans (entryId_writeEntry_ne hlen hne)) fun k hk =>
      (hname k hk).trans (entryName_writeEntry_ne hlen hne hk)
  · refine congrArg (slotEntry · n) ?_
    exact Function.update_of_ne hj _ _

/-! ## 6. When an entry is added -/

/-- **A record over data** would show in a file, or in a directory as an entry without a name. -/
theorem Grew.recordFits (hdir : parent.type = filetypeDir)
    (hne : s.superblock.firstFreeInodeBit ≠ 0) (hname : name ≠ []) (hlen : name.length < 60)
    (hadded : EntryAdded s parent name (createdInode env s,
      enterFile g (enlarged env parent') s.superblock.firstFreeInodeBit name)) :
    RecordFits env s := by
  by_cases hcap : s.superblock.firstFreeInodeBit < s.superblock.layout.capacity
  · exact Or.inl hcap
  refine Or.inr fun i hi hb k hk => ?_
  have hplaced := h.placed i hi _ hb
  rw [h.dataBits] at hplaced
  have hrecord : ∀ k < 64, g.volume.content (recordBlock s)
      (s.superblock.firstFreeInodeBit % 64 * 64 + k) = (createdInode env s).bytes k := by
    intro k hk
    rw [hg.data _ hplaced.1 hplaced.2, h.allocated_content (Or.inr hplaced.1) (by omega),
      if_pos ⟨Nat.not_lt.mp hcap, rfl, by omega⟩]
    congr 1
    omega
  by_cases hown : i = parent.id
  · -- the directory would have an entry with the new number and no name
    exfalso
    subst hown
    rw [hp.2] at hb
    have hmem := (h.mem_blocks hp).mpr hb
    have hn : s.superblock.firstFreeInodeBit % 64 < dirEntriesPerBlock := Nat.mod_lt _ (by decide)
    have hnumber : entryId (g.volume.content (recordBlock s))
        (s.superblock.firstFreeInodeBit % 64) = s.superblock.firstFreeInodeBit := by
      rw [← id_createdInode env s]
      refine le32_congr fun k hk => ?_
      rw [id_createdInode, Nat.zero_add]
      exact hrecord k (by omega)
    have htext : entryText (g.volume.content (recordBlock s))
        (s.superblock.firstFreeInodeBit % 64) = [] := by
      refine entryText_eq (fun k hk => ?_) (fun c hc => absurd hc List.not_mem_nil) (by decide)
      obtain rfl := Nat.le_zero.mp hk
      have htype : ((createdInode env s).bytes 4).toNat = 0 := type_newInode ..
      unfold entryName
      rw [slice_apply]
      refine (hrecord 4 (by decide)).trans ?_
      exact UInt8.toNat_inj.mp htype
    have hused : entryId (g.volume.content (recordBlock s))
        (s.superblock.firstFreeInodeBit % 64) ≠ 0 := by
      rw [hnumber]
      exact hne
    have hkept := @Grew.entry_after env s g parent parent' hg h hp
      s.superblock.firstFreeInodeBit name (recordBlock s) _ hn hlen hused
    have hentry : (s.superblock.firstFreeInodeBit, []) ∈ dirEntries
        (enterFile g (enlarged env parent') s.superblock.firstFreeInodeBit name)
        ((enterFile g (enlarged env parent') s.superblock.firstFreeInodeBit name).volume.inode
          parent.id) := by
      have hslot : (s.superblock.firstFreeInodeBit, []) ∈ slotEntry
          ((enterFile g (enlarged env parent') s.superblock.firstFreeInodeBit name).volume.content
            (recordBlock s)) (s.superblock.firstFreeInodeBit % 64) := by
        rw [hkept, mem_slotEntry, hnumber, htext]
        exact ⟨hne, rfl⟩
      obtain ⟨hnonzero, heq⟩ := mem_slotEntry.mp hslot
      refine mem_dirEntries.mpr ⟨recordBlock s, ?_, _, hn, hnonzero, heq⟩
      rw [superblock_enterFile, hg.inode_after h hp, if_pos rfl, hg.blocks h.sound.extents]
      exact hmem
    rw [hadded.added] at hentry
    rcases Multiset.mem_cons.mp hentry with heq | hold
    · exact hname (Prod.mk.inj heq).2.symm
    · obtain ⟨b, hb, n, hn, -, heq⟩ := mem_dirEntries.mp hold
      have hleads := (h.entries_inOrder hp hdir ((h.mem_blocks hp).mp hb) n hn).leads
      rw [← (Prod.mk.inj heq).1] at hleads
      exact h.hint_free hne (hleads.resolve_left fun hunused => hne hunused.1)
  · rw [← hrecord k hk, ← hadded.files i hi hown _ hb,
      hg.content_after h hp (h.not_blocks hp hi hown hb)]

/-- The directory has the entries of before when the new one is looked for. -/
theorem Grew.entries (hrecord : RecordFits env s) :
    dirEntries g (enlarged env parent') = dirEntries s parent := by
  refine dirEntries_congr (hg.blocks h.sound.extents) fun b hb => ?_
  have hold := (h.mem_blocks hp).mp hb
  have hplaced := (h.onDisk_placed hp).2 b hold
  rw [h.dataBits] at hplaced
  rw [hg.data b hplaced.1 hplaced.2]
  exact h.allocated_held hrecord hp.carries (hp.2.symm ▸ hold)

theorem Grew.sizes (hdir : parent.type = filetypeDir) : (enlarged env parent').sizeBytes =
    dirEntrySize * ((dirEntries s parent).card + 1) := by
  obtain ⟨hsize, hle⟩ := h.size hp hdir
  have hblocks := h.blocks_le hp hdir
  unfold dirEntriesPerBlock at hle
  rw [sizeBytes_enlarged env (by rw [hg.sizeBytes, hsize]; unfold dirEntrySize; omega),
    hg.sizeBytes, hsize, Nat.mul_add, Nat.mul_one]

section

variable (hdir : parent.type = filetypeDir) (hrecord : RecordFits env s)

include hdir hrecord

/-- **The entry is not written** exactly where the blocks are full. -/
theorem Grew.newSlot_none : newSlot g (enlarged env parent') = none ↔
    (dirEntries s parent).card =
      dirEntriesPerBlock * (directBlocks s.superblock parent).length := by
  have hentries := hg.entries h hp hrecord
  have htotal : (dirEntries g (enlarged env parent')).card <
      (enlarged env parent').sizeBytes / dirEntrySize := by
    rw [hentries, hg.sizes h hp hdir, Nat.mul_div_cancel_left _ (by decide)]
    exact Nat.lt_succ_self _
  rw [(hg.shownDir h hp).newSlot_none htotal, hentries, hg.blocks h.sound.extents]

/-- **There was room**, when an entry was added. -/
theorem Grew.room (hadded : EntryAdded s parent name (createdInode env s,
      enterFile g (enlarged env parent') id name)) : RoomForEntry env s parent := by
  refine ⟨hrecord, ?_⟩
  by_cases hdvd : dirEntriesPerBlock ∣ (dirEntries s parent).card
  swap
  · exact Or.inl hdvd
  have hneed := (h.needsBlock_iff hp hdir).mpr hdvd
  refine Or.inr ⟨?_, ?_⟩
  · -- where all blocks are full, the entries are those of before
    refine Nat.lt_of_le_of_ne (h.size hp hdir).2 fun hfull => ?_
    have hvol := @ShownDir.notEntered g _ (hg.shownDir h hp) id name
      ((hg.newSlot_none h hp hdir hrecord).mpr hfull)
    have hsame : dirEntries (enterFile g (enlarged env parent') id name)
        (enlarged env parent') = dirEntries s parent := by
      rw [← hg.entries h hp hrecord]
      refine dirEntries_congr (by rw [superblock_enterFile]) fun b _ => ?_
      rw [hvol]
      rfl
    have hmore := congrArg Multiset.card hadded.added
    rw [hg.inode_after h hp, if_pos rfl, hsame, Multiset.card_cons] at hmore
    omega
  · -- where the bit is seen free, the boot block is blank
    by_contra hfree
    refine h.boot ?_
    rw [← hadded.boot, hg.content_after h hp (h.boot_not_blocks hp)]
    exact hg.blank hneed (Bool.not_eq_true _ ▸ hfree)

end

/-- **With room, one entry is added.** -/
theorem Grew.entryAdded (hdir : parent.type = filetypeDir)
    (hne : s.superblock.firstFreeInodeBit ≠ 0) (hnonzero : ∀ c ∈ name, c ≠ 0)
    (hlen : name.length < 60) (hroom : RoomForEntry env s parent) :
    EntryAdded s parent name (createdInode env s,
      enterFile g (enlarged env parent') s.superblock.firstFreeInodeBit name) := by
  obtain ⟨hrecord, hroom⟩ := hroom
  have hle := (h.size hp hdir).2
  have hkept : needsBlock parent = false ∨ growthSeen env s parent = true := by
    refine hroom.imp (fun hdvd => ?_) And.right
    rw [← Bool.not_eq_true, h.needsBlock_iff hp hdir]
    exact hdvd
  have hless : (dirEntries s parent).card ≠
      dirEntriesPerBlock * (directBlocks s.superblock parent).length :=
    hroom.elim (fun hdvd heq => hdvd (heq ▸ Nat.dvd_mul_right _ _)) fun hand => Nat.ne_of_lt hand.1
  obtain ⟨⟨j, count⟩, hslot⟩ := Option.ne_none_iff_exists'.mp fun hnone =>
    hless ((hg.newSlot_none h hp hdir hrecord).mp hnone)
  obtain ⟨hj, hcount, hunused, hvol⟩ := @ShownDir.entered g _ (hg.shownDir h hp)
    s.superblock.firstFreeInodeBit name j count hslot
  have hentries := hg.entries h hp hrecord
  have hblocks := hg.blocks h.sound.extents
  have hadded : dirEntries (enterFile g (enlarged env parent') s.superblock.firstFreeInodeBit name)
      (enlarged env parent') = (s.superblock.firstFreeInodeBit, name) ::ₘ dirEntries s parent := by
    rw [← hentries]
    refine dirEntries_added (by rw [superblock_enterFile]) ?_ hj (fun b _ hne => ?_) ?_
    · rw [hblocks]
      have hnodup := h.once parent.id ⟨hp.carries, hp.2.symm ▸ hdir⟩
      rwa [hp.2] at hnodup
    · rw [hvol]
      exact Function.update_of_ne hne _ _
    · rw [hvol]
      exact blockEntries_added hcount hunused hne (Packed.get32_lt _ _) hnonzero hlen
        fun n hn => entry_putBlock hn
  have hcontent : ∀ b, b ∉ directBlocks s.superblock parent → s.superblock.layout.dataArea ≤ b →
      b < 32768 → (enterFile g (enlarged env parent') s.superblock.firstFreeInodeBit
        name).volume.content b = (allocate env s).volume.content b := fun b hb hlo hhi =>
    (hg.content_after h hp hb).trans (hg.data b hlo hhi)
  have hfiles : ∀ i, Carries s i → i ≠ parent.id → ∀ b, (s.volume.inode i).Holds b →
      (enterFile g (enlarged env parent') s.superblock.firstFreeInodeBit name).volume.content b =
        s.volume.content b := by
    intro i hi hne b hb
    have hplaced := h.placed i hi b hb
    rw [h.dataBits] at hplaced
    rw [hcontent b (h.not_blocks hp hi hne hb) hplaced.1 hplaced.2]
    exact h.allocated_held hrecord hi hb
  have hparent := @Grew.inode_after env s g parent parent' hg h hp
    s.superblock.firstFreeInodeBit name parent.id
  rw [if_pos rfl] at hparent
  refine ⟨?_, fun i hi hne => ?_, ?_, ?_, hfiles⟩
  · rw [hparent, hadded, id_createdInode]
  · have hinode : (allocate env s).volume.inode i = s.volume.inode i := by
      rw [(@Whole.allocated env s h).inode]
      split
      · refine Function.update_of_ne (fun heq => ?_) _ _
        exact h.hint_free (by assumption) (heq ▸ hi.1)
      · rfl
    rw [hg.inode_after h hp, if_neg hne, hinode]
    have hon := hi.1.onDisk
    refine dirEntries_congr ?_ fun b hb => ?_
    · rw [superblock_enterFile]
      exact directBlocks_layout hg.layout _
    · exact hfiles i hi.1 hne b (holds_of_mem_directBlocks h.sound.extents hb)
  · rw [hparent, hadded, Multiset.card_cons]
    exact hg.sizes h hp hdir
  · rw [hg.content_after h hp (h.boot_not_blocks hp)]
    exact hg.boot hkept

end

/-- **Creating a file adds one entry** exactly where there is room for it. -/
theorem createAdds_iff (env : Env) (s : State) (path : CString) (h : Whole s)
    (hp : OnDisk s (parentInodeFromPath env s path))
    (hdir : (parentInodeFromPath env s path).type = filetypeDir)
    (hname : 1 ≤ (lastNameInPath path).length ∧ (lastNameInPath path).length ≤ 59)
    (hne : (fsCreateFile env s path).1.id ≠ 0) :
    EntryAdded s (parentInodeFromPath env s path) (lastNameInPath path)
        (fsCreateFile env s path) ↔
      RoomForEntry env s (parentInodeFromPath env s path) := by
  obtain ⟨hhint, parent', g, hg, hcall⟩ := h.created hp hdir hne
  have hlen := Nat.lt_succ_of_le hname.2
  have hnonzero : ∀ c ∈ lastNameInPath path, c ≠ 0 := fun c hc =>
    path.nonzero c ((List.rtakeWhile_suffix _ _).subset hc)
  have hnonempty : lastNameInPath path ≠ [] := List.ne_nil_of_length_pos hname.1
  rw [hcall]
  constructor
  · intro hadded
    exact hg.room h hp hdir (hg.recordFits h hp hdir hhint hnonempty hlen hadded) hadded
  · exact hg.entryAdded h hp hdir hhint hnonzero hlen

/-! ## 7. A full directory -/

theorem bootable_whole {numFiles : Nat} (hfew : numFiles ≤ 62) : Whole (bootable numFiles) := by
  obtain ⟨hlayout, hinodeHint, -⟩ := (bootable_built hfew).fields
  have hinode : (bootable numFiles).volume.inode 1 = emptyFilesInode numFiles 1 := by
    rw [bootable_inode hfew (by decide), if_pos (by omega)]
  refine ⟨bootable_wellFormed hfew, ?_, fun i hi => ?_, fun i hi => ?_, fun hblank => ?_⟩
  · rw [hinodeHint, hlayout]
    show numFiles + 2 < 1 * 32768
    omega
  · obtain rfl := (bootable_isDir hfew).mp hi
    rw [hinode, bootable_blocks hfew]
    exact List.nodup_singleton 5
  · obtain rfl := (bootable_isDir hfew).mp hi
    rw [hinode]
    exact bootable_direct
  · have hbyte : (bootable numFiles).volume.content 0 510 = 0x55 := by
      rw [bootable_volume hfew]
      rfl
    rw [hblank] at hbyte
    exact absurd hbyte (by decide)

/-- The root directory holds the name of a plain path, `x`. -/
theorem bootable_parent (env : Env) (numFiles : Nat) :
    parentInodeFromPath env (bootable numFiles) plainPath = emptyFilesInode numFiles 1 :=
  if_pos (by decide)

/-- The entries of the root directory: as many as its size says. -/
theorem bootable_card {numFiles : Nat} (hfew : numFiles ≤ 62) :
    (dirEntries (bootable numFiles) (emptyFilesInode numFiles 1)).card = numFiles + 2 := by
  rw [card_dirEntries, bootable_blocks hfew, List.map_singleton, List.sum_singleton,
    bootable_live hfew]

/-- The theorem in a directory with room. -/
theorem createAdds_one : EntryAdded (bootable 1)
    (parentInodeFromPath quietEnv (bootable 1) plainPath) (lastNameInPath plainPath)
    (fsCreateFile quietEnv (bootable 1) plainPath) := by
  have hparent := bootable_parent quietEnv 1
  obtain ⟨hroot, hdir, -⟩ := @bootable_root 1 (by decide)
  refine (createAdds_iff quietEnv (bootable 1) plainPath (bootable_whole (by decide))
    (by rw [hparent]; exact hroot) (by rw [hparent]; exact hdir) (by decide)
    (by decide +kernel)).mpr ⟨Or.inl (by decide +kernel), Or.inl ?_⟩
  rw [hparent, bootable_card (by decide)]
  decide

/-- A name that no entry of its one block has is not listed. -/
theorem not_listed {s : State} {d : Inode} {b : Nat} {name : List UInt8}
    (hblocks : directBlocks s.superblock d = [b])
    (hnames : ∀ n < dirEntriesPerBlock, entryText (s.volume.content b) n ≠ name) (id : Nat) :
    (id, name) ∉ dirEntries s d := by
  intro hid
  obtain ⟨b', hb', n, hn, -, heq⟩ := mem_dirEntries.mp hid
  rw [hblocks, List.mem_singleton] at hb'
  subst hb'
  exact hnames n hn (Prod.mk.inj heq).2.symm

/-- Where the entries fill the one block of the directory, none is added. -/
theorem bootable_full {env : Env} {numFiles : Nat} (hfew : numFiles ≤ 62)
    (hfull : numFiles + 2 = 64)
    (hnumber : (fsCreateFile env (bootable numFiles) plainPath).1.id ≠ 0) :
    ¬ EntryAdded (bootable numFiles) (emptyFilesInode numFiles 1) (lastNameInPath plainPath)
      (fsCreateFile env (bootable numFiles) plainPath) := by
  intro hadded
  have h := bootable_whole hfew
  have hparent := bootable_parent env numFiles
  obtain ⟨hroot, hdir, -⟩ := bootable_root hfew
  obtain ⟨hhint, parent', g, hg, hcall⟩ := @Whole.created env (bootable numFiles) h plainPath
    (by rw [hparent]; exact hroot) (by rw [hparent]; exact hdir) hnumber
  rw [hparent] at hg
  rw [hcall] at hadded
  have hrecord := hg.recordFits h hroot hdir hhint (by decide) (by decide) hadded
  obtain ⟨-, hroom⟩ := hg.room h hroot hdir hrecord hadded
  rw [bootable_card hfew, hfull, bootable_blocks hfew] at hroom
  rcases hroom with hpart | ⟨hless, -⟩
  · exact hpart (by decide)
  · exact absurd hless (by decide)

/-- **A directory with 64 entries** gets none more: on a disk with 62 files in the root directory
the new one is not listed. -/
theorem create_adds_nothing : ¬ ∀ (env : Env) (s : State) (path : CString), Whole s →
    OnDisk s (parentInodeFromPath env s path) →
    (parentInodeFromPath env s path).type = filetypeDir →
    2 ≤ (dirEntries s (parentInodeFromPath env s path)).card →
    1 ≤ (lastNameInPath path).length ∧ (lastNameInPath path).length ≤ 59 →
    (∀ id, (id, lastNameInPath path) ∉ dirEntries s (parentInodeFromPath env s path)) →
    (fsCreateFile env s path).1.id ≠ 0 →
      EntryAdded s (parentInodeFromPath env s path) (lastNameInPath path)
        (fsCreateFile env s path) := by
  intro hall
  have hfew : 62 ≤ 62 := Nat.le_refl 62
  have h := bootable_whole hfew
  have hparent := bootable_parent quietEnv 62
  have hcard := bootable_card hfew
  obtain ⟨hroot, hdir, -⟩ := bootable_root hfew
  have hnumber : (fsCreateFile quietEnv (bootable 62) plainPath).1.id ≠ 0 := by decide +kernel
  have htexts : ∀ c < dirEntriesPerBlock,
      entryText ((bootable 62).volume.content 5) c ≠ lastNameInPath plainPath := by decide +kernel
  have hadded := hall quietEnv (bootable 62) plainPath h
  rw [hparent] at hadded
  refine bootable_full hfew rfl hnumber (hadded hroot hdir ?_ (by decide)
    (not_listed (bootable_blocks hfew) htexts) hnumber)
  rw [hcard]
  exact Nat.le_add_left 2 62

end AmateurOs.Fs
