/-
# What creating, deleting and renaming do to the volume

Each of `fs_create_file`, `fs_delete_file` and `fs_rename_file` is cut at the points where the
disk is written, and each part gets one lemma in terms of the volume.  All results on histories
of these calls rest on the lemmas of this module, and on no definition of `Fs.Files`.

The inode number that is handed out need not be one that the inode blocks hold; the inode is
then written over data (`Allocated.content` says nothing about it).
-/
import AmateurOs.Fs.Volume

namespace AmateurOs.Fs

open AmateurOs.Lib

/-! ## 1. The hints -/

/-- The number that the search of a bitmap of `n` bits returns. -/
def IsNext (bit : Nat → Bool) (n next : Nat) : Prop :=
  ∃ r, FirstClear bit n r ∧ next = (r.map (· % 32768)).getD 0

theorem IsNext.lt {bit : Nat → Bool} {n next : Nat} (h : IsNext bit n next) : next < 32768 := by
  obtain ⟨r, -, rfl⟩ := h
  cases r with
  | none => exact by decide
  | some b => exact Nat.mod_lt _ (by decide)

/-- **The least clear bit**, when there is one in the first block of the bitmap. -/
theorem IsNext.least {bit : Nat → Bool} {n next b : Nat} (h : IsNext bit n next) (hb : b < n)
    (hsmall : b < 32768) (hclear : bit b = false) :
    next ≤ b ∧ bit next = false ∧ ∀ c < next, bit c = true := by
  obtain ⟨r, hr, rfl⟩ := h
  cases hr with
  | full hset => exact absurd (hset b hb) (Bool.not_eq_true _ ▸ hclear)
  | @found a hlt hfirst hset =>
    have hle : a ≤ b := by
      by_contra hgt
      exact absurd (hset b (Nat.not_le.mp hgt)) (Bool.not_eq_true _ ▸ hclear)
    have hnum : (Option.map (· % 32768) (some a)).getD 0 = a := Nat.mod_eq_of_lt (by omega)
    rw [hnum]
    exact ⟨hle, hfirst, hset⟩

/-! ## 2. Allocation -/

section

variable {s : State} (hl : s.superblock.layout.Sound)

include hl

theorem takeInodeBit_spec (hi : s.superblock.firstFreeInodeBit < s.superblock.layout.inodeBits) :
    ∃ disk next, takeInodeBit s = (s.superblock.firstFreeInodeBit,
        { s with disk := disk, superblock := s.superblock.setFirstFreeInodeBit next }) ∧
      volume s.superblock.layout disk
        = s.volume.putInodeBit s.superblock.firstFreeInodeBit true ∧
      IsNext (volume s.superblock.layout disk).inodeBit s.superblock.layout.inodeBits next := by
  refine ⟨_, _, rfl, volume_setInodeBit hl hi, ?_⟩
  exact volume_firstFreeInode hl

theorem takeDataBit_spec (hb : s.superblock.firstFreeDataBit < s.superblock.layout.dataBits) :
    ∃ disk next, takeDataBit s = (s.superblock.firstFreeDataBit,
        { s with disk := disk, superblock := s.superblock.setFirstFreeDataBit next }) ∧
      volume s.superblock.layout disk
        = s.volume.putDataBit s.superblock.firstFreeDataBit true ∧
      IsNext (volume s.superblock.layout disk).dataBit s.superblock.layout.dataBits next := by
  refine ⟨_, _, rfl, volume_setDataBit hl hb, ?_⟩
  exact volume_firstFreeData hl

end

/-- The inode that `fs_create_file` returns. -/
def createdInode (env : Env) (s : State) : Inode :=
  newInode env s.superblock.firstFreeInodeBit s.superblock.firstFreeDataBit

/-- The state after the inode number and the block were taken and the inode was written. -/
def allocate (env : Env) (s : State) : State :=
  updateInodeOnDisk (takeDataBit (takeInodeBit s).2).2 (createdInode env s)

/-- **What allocation does.** -/
structure Allocated (env : Env) (s s' : State) : Prop where
  layout : s'.superblock.layout = s.superblock.layout
  rootInode : s'.rootInode = s.rootInode
  currentDirInode : s'.currentDirInode = s.currentDirInode
  inodeNext : IsNext s'.volume.inodeBit s.superblock.layout.inodeBits
    s'.superblock.firstFreeInodeBit
  dataNext : IsNext s'.volume.dataBit s.superblock.layout.dataBits s'.superblock.firstFreeDataBit
  inodeBit : s'.volume.inodeBit
    = Function.update s.volume.inodeBit s.superblock.firstFreeInodeBit true
  dataBit : s'.volume.dataBit
    = Function.update s.volume.dataBit s.superblock.firstFreeDataBit true
  inode : s'.volume.inode = if s.superblock.firstFreeInodeBit < s.superblock.layout.capacity then
      Function.update s.volume.inode s.superblock.firstFreeInodeBit (createdInode env s)
    else s.volume.inode
  content : s.superblock.firstFreeInodeBit < s.superblock.layout.capacity →
    s'.volume.content = s.volume.content

/-- The numbers that allocation takes are in the bitmaps, and the sector of the new inode has a
28-bit number. -/
structure CanAllocate (s : State) : Prop where
  inodeBit : s.superblock.firstFreeInodeBit < s.superblock.layout.inodeBits
  dataBit : s.superblock.firstFreeDataBit < s.superblock.layout.dataBits
  fits : InodeFits s.superblock s.superblock.firstFreeInodeBit

/-! ## 3. The inodes written -/

section

variable (env : Env) (id block : Nat)

@[simp] theorem id_newInode : (newInode env id block).id = u32 id := by
  have hsame : Packed.Same (newInode env id block) (noInode.setId id) 0 4 :=
    (((Packed.same_set32 (by decide)).trans (Packed.same_set32 (by decide))).trans
      (Packed.same_setPart (by decide))).trans (Packed.same_set8 (by decide))
  exact hsame.get32.trans (Packed.get32_set32 _ (by decide))

@[simp] theorem extentFirst_newInode : (newInode env id block).extentFirst 0 = u32 block :=
  Packed.Same.get32 (Packed.same_set32 (by decide)) |>.trans (Packed.get32_set32 _ (by decide))

@[simp] theorem extentLength_newInode : (newInode env id block).extentLength 0 = 1 :=
  Packed.get32_set32 _ (by decide)

/-- The bytes behind the first extent are 0. -/
theorem newInode_same {a k : Nat} (h : 29 ≤ a) :
    Packed.Same (newInode env id block) noInode a k :=
  ((((Packed.same_set32 (by omega)).trans (Packed.same_set32 (by omega))).trans
    (Packed.same_setPart (by omega))).trans (Packed.same_set8 (by omega))).trans
    (Packed.same_set32 (by omega))

end

/-- The parent keeps its id, its type, its extents and its reference count. -/
structure SameExtents (i j : Inode) : Prop where
  head : Packed.Same i j 0 5
  extents : Packed.Same i j 21 32
  refCount : Packed.Same i j 61 1

theorem SameExtents.trans {i j k : Inode} (h : SameExtents i j) (h' : SameExtents j k) :
    SameExtents i k :=
  ⟨h.head.trans h'.head, h.extents.trans h'.extents, h.refCount.trans h'.refCount⟩

namespace SameExtents

variable {i j : Inode} (h : SameExtents i j)

include h

theorem id : i.id = j.id := (h.head.mono (by decide) (by decide)).get32

theorem type : i.type = j.type := (h.head.mono (by decide) (by decide)).get8

theorem extentFirst {k : Nat} (hk : k < 4) : i.extentFirst k = j.extentFirst k :=
  (h.extents.mono (by omega) (by omega)).get32

theorem extentLength {k : Nat} (hk : k < 4) : i.extentLength k = j.extentLength k :=
  (h.extents.mono (by omega) (by omega)).get32

end SameExtents

theorem sameExtents_setSize {i : Inode} {v w : Nat} :
    SameExtents ((i.setSizeBytes v).setSizeSectors w) i :=
  ⟨(Packed.same_set32 (by decide)).trans (Packed.same_set32 (by decide)),
    (Packed.same_set32 (by decide)).trans (Packed.same_set32 (by decide)),
    (Packed.same_set32 (by decide)).trans (Packed.same_set32 (by decide))⟩

theorem sameExtents_enlarged (env : Env) (parent : Inode) :
    SameExtents (enlarged env parent) parent := by
  have htime : ∀ i : Inode, SameExtents (i.setTimestamp (env.clock 1)) i := fun _ =>
    ⟨Packed.same_setPart (by decide), Packed.same_setPart (by decide),
      Packed.same_setPart (by decide)⟩
  exact (htime _).trans sameExtents_setSize

theorem sameExtents_reduced (parent : Inode) : SameExtents (reduced parent) parent :=
  sameExtents_setSize

theorem sameExtents_setExtentLength {i : Inode} {v : Nat} :
    SameExtents (i.setExtentLength 4 v) i :=
  ⟨Packed.same_set32 (by decide), Packed.same_set32 (by decide), Packed.same_set32 (by decide)⟩

theorem sizeBytes_setExtentLength (i : Inode) (v : Nat) :
    (i.setExtentLength 4 v).sizeBytes = i.sizeBytes :=
  Packed.Same.get32 (Packed.same_set32 (by decide))

/-! ## 4. Allocation of an inode and a block -/

theorem allocate_allocated {env : Env} {s : State} (hl : s.superblock.layout.Sound)
    (h : CanAllocate s) : Allocated env s (allocate env s) := by
  obtain ⟨hi, hd, hfits⟩ := h
  obtain ⟨disk1, next1, htake1, hvol1, hnext1⟩ := takeInodeBit_spec hl hi
  have hlayout1 := Superblock.layout_setFirstFreeInodeBit s.superblock next1
  have hd1 : (s.superblock.setFirstFreeInodeBit next1).firstFreeDataBit
      = s.superblock.firstFreeDataBit := Superblock.firstFreeDataBit_setFirstFreeInodeBit ..
  obtain ⟨disk2, next2, htake2, hvol2, hnext2⟩ := @takeDataBit_spec
    { s with disk := disk1, superblock := s.superblock.setFirstFreeInodeBit next1 }
    (by rw [hlayout1]; exact hl) (by rw [hlayout1, hd1]; exact hd)
  simp only [State.volume, hlayout1, hd1, hvol1] at htake2 hvol2 hnext2
  obtain ⟨sb, hsb⟩ : ∃ sb, sb = (s.superblock.setFirstFreeInodeBit next1).setFirstFreeDataBit next2 :=
    ⟨_, rfl⟩
  have hlayout : sb.layout = s.superblock.layout := by
    rw [hsb, Superblock.layout_setFirstFreeDataBit, hlayout1]
  have hid : (createdInode env s).id = s.superblock.firstFreeInodeBit := by
    exact (id_newInode ..).trans (u32_eq (Packed.get32_lt _ _))
  have hstate : allocate env s = { s with
      disk := storeInode disk2 sb s.superblock.firstFreeInodeBit (createdInode env s)
      superblock := sb } := by
    unfold allocate
    rw [htake1, htake2, updateInodeOnDisk, hid, hsb]
  have hfits' : InodeFits sb s.superblock.firstFreeInodeBit := by
    unfold InodeFits
    have harea : sb.firstInodeBlock = s.superblock.firstInodeBlock :=
      congrArg Layout.inodeArea hlayout
    rw [harea]
    exact hfits
  have hnext : sb.firstFreeInodeBit = next1 ∧ sb.firstFreeDataBit = next2 := by
    rw [hsb, Superblock.firstFreeInodeBit_setFirstFreeDataBit,
      Superblock.firstFreeInodeBit_setFirstFreeInodeBit,
      Superblock.firstFreeDataBit_setFirstFreeDataBit]
    have h1 := hnext1.lt
    have h2 := hnext2.lt
    exact ⟨u32_eq (by omega), u32_eq (by omega)⟩
  -- The volume before the inode is written, and what writing it changes.
  generalize hnewEq : createdInode env s = new at *
  generalize hiEq : s.superblock.firstFreeInodeBit = i at *
  generalize hbEq : s.superblock.firstFreeDataBit = b at *
  have hvol : (allocate env s).volume
      = volume s.superblock.layout (storeInode disk2 sb i new) := by
    rw [hstate]
    show volume sb.layout _ = _
    rw [hlayout]
  have hbits : (allocate env s).volume.inodeBit = Function.update s.volume.inodeBit i true ∧
      (allocate env s).volume.dataBit = Function.update s.volume.dataBit b true ∧
      (allocate env s).volume.inode = (if i < s.superblock.layout.capacity then
        Function.update s.volume.inode i new else s.volume.inode) ∧
      (i < s.superblock.layout.capacity →
        (allocate env s).volume.content = s.volume.content) := by
    rw [hvol]
    by_cases hcap : i < s.superblock.layout.capacity
    · have hstore : volume sb.layout (storeInode disk2 sb i new)
          = (volume sb.layout disk2).putInode i new :=
        volume_storeInode (by rw [hlayout]; exact hl) (by rw [hlayout]; exact hcap)
      rw [hlayout, hvol2] at hstore
      rw [hstore, if_pos hcap]
      exact ⟨rfl, rfl, rfl, fun _ => rfl⟩
    · obtain ⟨h1, h2, h3⟩ := @volume_storeInode_behind disk2 sb (by rw [hlayout]; exact hl) i new
        (by rw [hlayout]; exact Nat.not_lt.mp hcap) hfits'
      rw [hlayout, hvol2] at h1 h2 h3
      rw [h1, h2, h3, if_neg hcap]
      exact ⟨rfl, rfl, rfl, fun h => absurd h hcap⟩
  obtain ⟨hinodeBit, hdataBit, hinode, hcontent⟩ := hbits
  subst hnewEq hiEq hbEq
  refine ⟨?_, ?_, ?_, ?_, ?_, hinodeBit, hdataBit, hinode, hcontent⟩
  · rw [hstate]
    exact hlayout
  · rw [hstate]
  · rw [hstate]
  · rw [hinodeBit, hstate]
    rw [hvol1] at hnext1
    exact hnext.1 ▸ hnext1
  · rw [hdataBit, hstate]
    rw [hvol2] at hnext2
    exact hnext.2 ▸ hnext2

/-! ## 5. A directory grows

The probe of the bitmap reads the byte of the bit in a buffer that holds one sector: the bit is
looked up in the bitmap below 4096, and in what lies behind the buffer from there on. -/

/-- `bit_to_check`. -/
def growthBit (sb : Superblock) (parent : Inode) : Nat := u32 (lastUsedBlock sb parent + 1)

/-- `block_to_use`, the block that is set to zero. -/
def zeroedBlock (parent : Inode) (inUse : Bool) : Nat :=
  sub32 (u32 (parent.extentFirst 4
    + if inUse then parent.extentLength 4 else u32 (parent.extentLength 4 + 1))) 1

section

variable {env : Env} {s : State} (hl : s.superblock.layout.Sound)

include hl

theorem bitmapSectorAddr (hpos : 0 < s.superblock.layout.dataBits) {bit : Nat} (h : bit < 4096) :
    sectorAddr (bitmapSector s.superblock bit) = s.superblock.layout.dataBitmap * 4096 := by
  obtain ⟨-, h1, h2, h3, h4, -⟩ := hl
  unfold diskBlocks at h4
  unfold Layout.dataBits at hpos
  show (s.superblock.layout.dataBitmap * 8 + bit / 8 / 512) % 268435456 * 512 = _
  omega

omit hl in
end

/-- The disk after the buffer with the changed byte was written back. -/
def probeWritten (env : Env) (s : State) (bit : Nat) : Bytes :=
  let tempSector := bitmapTempSector env s bit
  let byte := tempSector (bit / 8) ||| UInt8.ofNat (1 <<< (bit % 8))
  writeSectors s.disk (blit tempSector (bit / 8) 1 fun _ => byte) 1 (bitmapSector s.superblock bit)
    0

/-- A byte with one bit set. -/
theorem testBit_setInByte (x : UInt8) {k i : Nat} (hk : k < 8) :
    (x ||| UInt8.ofNat (1 <<< k)).toNat.testBit i = (x.toNat.testBit i || decide (i = k)) := by
  have hpow : 1 <<< k % 256 = 2 ^ k := by
    rw [Nat.one_shiftLeft]
    exact Nat.mod_eq_of_lt (Nat.pow_lt_pow_right (a := 2) (n := 8) (by decide) hk)
  rw [UInt8.toNat_or, Nat.testBit_or, UInt8.toNat_ofNat', hpow, Nat.testBit_two_pow]
  congr 1
  exact decide_eq_decide.mpr eq_comm

section

variable {env : Env} {s : State} (hl : s.superblock.layout.Sound)

/-- A changed byte behind the buffer is not written. -/
theorem probeWritten_high {bit : Nat} (h : 4096 ≤ bit) : probeWritten env s bit = s.disk := by
  have hlen : transferSize 1 = 512 := by decide
  funext p
  unfold probeWritten writeSectors
  rw [hlen]
  by_cases hp : sectorAddr (bitmapSector s.superblock bit) ≤ p ∧
      p < sectorAddr (bitmapSector s.superblock bit) + 512
  · rw [blit_in hp.1 hp.2, slice_apply, blit_out (by omega)]
    unfold bitmapTempSector readSectors
    rw [hlen, blit_in (by omega) (by omega), slice_apply, Nat.sub_zero, Nat.zero_add,
      Nat.add_sub_of_le hp.1]
  · rw [blit_out (by omega)]

include hl

/-- **A free bit after the last block is taken** when its byte is in the buffer. -/
theorem volume_probeWritten (hpos : 0 < s.superblock.layout.dataBits) {bit : Nat}
    (h : bit < 4096) :
    volume s.superblock.layout (probeWritten env s bit) = s.volume.putDataBit bit true := by
  have hbits : bit < s.superblock.layout.dataBits := by
    unfold Layout.dataBits at *
    omega
  have hlen : transferSize 1 = 512 := by decide
  have haddr := bitmapSectorAddr hl hpos h
  generalize ha : s.superblock.layout.dataBitmap = a at *
  have htemp : ∀ q < 512, bitmapTempSector env s bit q = s.disk (a * 4096 + q) := by
    intro q hq
    unfold bitmapTempSector readSectors
    rw [haddr, blit_in (Nat.zero_le _) (by omega), slice_apply, Nat.sub_zero]
  have hdisk : probeWritten env s bit = Function.update s.disk (a * 4096 + bit / 8)
      (s.disk (a * 4096 + bit / 8) ||| UInt8.ofNat (1 <<< (bit % 8))) := by
    funext p
    unfold probeWritten writeSectors
    rw [hlen, haddr]
    by_cases hp : p = a * 4096 + bit / 8
    · subst hp
      rw [Function.update_self, blit_add (by omega), slice_apply, Nat.zero_add,
        blit_in (Nat.le_refl _) (by omega), htemp _ (by omega)]
    · rw [Function.update_of_ne hp]
      by_cases hin : a * 4096 ≤ p ∧ p < a * 4096 + 512
      · obtain ⟨q, rfl⟩ := Nat.exists_eq_add_of_le hin.1
        rw [blit_add (by omega), slice_apply, Nat.zero_add, blit_out (by omega),
          htemp _ (by omega)]
      · rw [blit_out (by omega)]
  refine volume_putDataBit hl hbits (fun p hp => ?_) fun j => ?_
  · rw [hdisk, Function.update_of_ne]
    rintro rfl
    exact hp (by omega)
  · rw [hdisk, ha]
    unfold bitAt
    by_cases hj : j / 8 = a * 4096 + bit / 8
    · rw [hj, Function.update_self, testBit_setInByte _ (Nat.mod_lt _ (by decide))]
      by_cases hbit : j = a * 32768 + bit
      · rw [if_pos hbit, decide_eq_true (by omega), Bool.or_true]
      · rw [if_neg hbit, decide_eq_false (by omega), Bool.or_false]
    · rw [Function.update_of_ne hj, if_neg (by omega)]

end

/-- Sector numbers have 28 bits. -/
theorem writeBlock_mod (disk tempBlock : Bytes) (block : Nat) :
    writeBlock disk block tempBlock = writeBlock disk (block % diskBlocks) tempBlock := by
  have haddr : sectorAddr (blockSector block) = sectorAddr (blockSector (block % diskBlocks)) := by
    unfold sectorAddr blockSector sectorsPerBlock fsSectorSize diskBlocks u32
    omega
  unfold writeBlock writeSectors
  rw [haddr]

/-- The block that growing sets to zero holds no bitmap and no inode. -/
def ZeroesOutside (l : Layout) (block : Nat) : Prop :=
  block % diskBlocks < 2 ∨ l.dataArea ≤ block % diskBlocks

/-- A block set to zero, if the volume shows it. -/
def Volume.zeroBlock (v : Volume) (l : Layout) (block : Nat) : Volume :=
  if l.Shown block then v.putBlock block fun _ => 0 else v

namespace Volume

variable (v : Volume) (l : Layout) (block : Nat)

@[simp] theorem inodeBit_zeroBlock : (v.zeroBlock l block).inodeBit = v.inodeBit := by
  unfold zeroBlock
  split <;> rfl

@[simp] theorem dataBit_zeroBlock : (v.zeroBlock l block).dataBit = v.dataBit := by
  unfold zeroBlock
  split <;> rfl

@[simp] theorem inode_zeroBlock : (v.zeroBlock l block).inode = v.inode := by
  unfold zeroBlock
  split <;> rfl

end Volume

/-- What setting such a block to zero does. -/
theorem volume_zeroed {l : Layout} (hl : l.Sound) {disk : Bytes} {block : Nat}
    (h : ZeroesOutside l block) :
    volume l (writeBlock disk block fun _ => 0)
      = (volume l disk).zeroBlock l (block % diskBlocks) := by
  have hlt : block % diskBlocks < diskBlocks := Nat.mod_lt _ (by decide)
  rw [writeBlock_mod]
  unfold ZeroesOutside at h
  generalize block % diskBlocks = z at *
  unfold Volume.zeroBlock
  by_cases hs : l.Shown z
  · rw [if_pos hs, volume_writeBlock hl hs hlt]
  · have honly : OnlyBlock disk (writeBlock disk z fun _ => 0) z := onlyBlock_writeBlock hlt
    have hz : z = 1 := by
      unfold Layout.Shown at hs
      omega
    obtain ⟨h0, h1, h2, h3, -, -⟩ := hl
    rw [if_neg hs]
    exact Volume.ext (honly.inodeBit (by omega)) (honly.dataBit (by omega))
      (honly.inode (by omega)) (honly.content hs)

/-- The bits that growing sets. -/
def Volume.grow (v : Volume) (bit : Nat) (inUse : Bool) (hint : Nat) : Volume :=
  if inUse then v.putDataBit hint true
  else if bit < 4096 then v.putDataBit bit true
  else v

/-- **What growing does**, with the answer of the probe. -/
structure Grown (s : State) (parent : Inode) (inUse : Bool) (parent' : Inode) (s' : State) :
    Prop where
  layout : s'.superblock.layout = s.superblock.layout
  rootInode : s'.rootInode = s.rootInode
  currentDirInode : s'.currentDirInode = s.currentDirInode
  inodeHint : s'.superblock.firstFreeInodeBit = s.superblock.firstFreeInodeBit
  extents : SameExtents parent' parent
  sizeBytes : parent'.sizeBytes = parent.sizeBytes
  volume : s'.volume = (s.volume.grow (growthBit s.superblock parent) inUse
    s.superblock.firstFreeDataBit).zeroBlock s.superblock.layout
      (zeroedBlock parent inUse % diskBlocks)
  /-- A free bit after the last block is taken without a look at the hint. -/
  hintKept : inUse = false → s'.superblock.firstFreeDataBit = s.superblock.firstFreeDataBit
  hintNext : inUse = true →
    IsNext s'.volume.dataBit s.superblock.layout.dataBits s'.superblock.firstFreeDataBit

theorem growDirectory_free {env : Env} {s : State} {parent : Inode}
    (hext : s.superblock.directExtentsPerInode = 4)
    (h : nextBitInUse env s (growthBit s.superblock parent) = false) :
    growDirectory env s parent =
      (parent.setExtentLength 4 (u32 (parent.extentLength 4 + 1)), { s with
        disk := writeBlock (probeWritten env s (growthBit s.superblock parent))
          (zeroedBlock parent false) fun _ => 0 }) := by
  have hfirst : ∀ v, (parent.setExtentLength 4 v).extentFirst 4 = parent.extentFirst 4 := fun _ =>
    (Packed.same_set32 (by decide)).get32
  have hlength : ∀ v, (parent.setExtentLength 4 v).extentLength 4 = u32 v := fun _ =>
    Packed.get32_set32 _ (by decide)
  unfold growthBit at *
  unfold growDirectory
  simp only [hext, h, Bool.not_false, if_true, hfirst, hlength]
  rw [zeroedBlock, if_neg Bool.false_ne_true, u32_eq (u32_lt _)]
  rfl

theorem growDirectory_inUse {env : Env} {s : State} {parent : Inode}
    (hext : s.superblock.directExtentsPerInode = 4)
    (h : nextBitInUse env s (growthBit s.superblock parent) = true) :
    growDirectory env s parent = (parent, { (takeDataBit s).2 with
      disk := writeBlock (takeDataBit s).2.disk (zeroedBlock parent true) fun _ => 0 }) := by
  have hlast : ¬ 4 + 1 < 4 := by decide
  unfold growthBit at h
  unfold growDirectory
  simp only [hext, h, Bool.not_true, Bool.false_eq_true, if_false, if_neg hlast]
  rfl

/-- The state that growing leaves. -/
theorem growDirectory_state {env : Env} {s : State} {parent : Inode}
    (hl : s.superblock.layout.Sound)
    (hd : s.superblock.firstFreeDataBit < s.superblock.layout.dataBits) {inUse : Bool}
    (hprobe : nextBitInUse env s (growthBit s.superblock parent) = inUse) :
    ∃ disk sb, growDirectory env s parent =
        (if inUse then parent
          else parent.setExtentLength 4 (u32 (parent.extentLength 4 + 1)), { s with
          disk := writeBlock disk (zeroedBlock parent inUse) fun _ => 0
          superblock := sb }) ∧
      sb.layout = s.superblock.layout ∧
      sb.firstFreeInodeBit = s.superblock.firstFreeInodeBit ∧
      volume s.superblock.layout disk = s.volume.grow (growthBit s.superblock parent) inUse
        s.superblock.firstFreeDataBit ∧
      (inUse = false → sb.firstFreeDataBit = s.superblock.firstFreeDataBit) ∧
      (inUse = true → IsNext (volume s.superblock.layout disk).dataBit
        s.superblock.layout.dataBits sb.firstFreeDataBit) := by
  cases inUse with
  | false =>
    rw [if_neg Bool.false_ne_true]
    refine ⟨_, _, growDirectory_free hl.extents hprobe, rfl, rfl, ?_, fun _ => rfl,
      fun h => absurd h Bool.false_ne_true⟩
    unfold Volume.grow
    rw [if_neg Bool.false_ne_true]
    by_cases hlow : growthBit s.superblock parent < 4096
    · rw [if_pos hlow, volume_probeWritten hl (Nat.zero_lt_of_lt hd) hlow]
    · rw [if_neg hlow, probeWritten_high (Nat.not_lt.mp hlow)]
      rfl
  | true =>
    obtain ⟨disk, next, htake, hvol, hnext⟩ := takeDataBit_spec hl hd
    have hgrow := growDirectory_inUse hl.extents hprobe
    rw [htake] at hgrow
    have hhint : (s.superblock.setFirstFreeDataBit next).firstFreeDataBit = next := by
      rw [Superblock.firstFreeDataBit_setFirstFreeDataBit]
      have := hnext.lt
      exact u32_eq (by omega)
    rw [if_pos rfl]
    refine ⟨disk, _, hgrow, Superblock.layout_setFirstFreeDataBit ..,
      Superblock.firstFreeInodeBit_setFirstFreeDataBit .., hvol,
      fun h => absurd h.symm Bool.false_ne_true, fun _ => ?_⟩
    rw [hhint]
    exact hnext

/-- **Growing**, when the block it sets to zero holds no bitmap and no inode. -/
theorem growDirectory_grown {env : Env} {s : State} {parent : Inode}
    (hl : s.superblock.layout.Sound)
    (hd : s.superblock.firstFreeDataBit < s.superblock.layout.dataBits) {inUse : Bool}
    (hprobe : nextBitInUse env s (growthBit s.superblock parent) = inUse)
    (hz : ZeroesOutside s.superblock.layout (zeroedBlock parent inUse)) :
    Grown s parent inUse (growDirectory env s parent).1 (growDirectory env s parent).2 := by
  obtain ⟨disk, sb, hgrow, hlayout, hinodeHint, hvol, hfree, hused⟩ :=
    growDirectory_state hl hd hprobe
  obtain ⟨hparent, hstate⟩ := Prod.mk.inj (Prod.mk.eta.trans hgrow)
  generalize growDirectory env s parent = r at *
  obtain ⟨parent', s'⟩ := r
  simp only at hparent hstate
  generalize hblock : writeBlock disk (zeroedBlock parent inUse) (fun _ => 0) = disk' at *
  have hzeroed : volume s.superblock.layout disk'
      = (s.volume.grow (growthBit s.superblock parent) inUse
        s.superblock.firstFreeDataBit).zeroBlock s.superblock.layout
          (zeroedBlock parent inUse % diskBlocks) := by
    rw [← hblock, volume_zeroed hl hz, hvol]
  have hvolume : s'.volume = volume s.superblock.layout disk' := by
    rw [hstate, State.volume, hlayout]
  have hdataBit : s'.volume.dataBit = (volume s.superblock.layout disk).dataBit := by
    rw [hvolume, hzeroed, Volume.dataBit_zeroBlock, hvol]
  have hsb : s'.superblock = sb := by rw [hstate]
  have hroot : s'.rootInode = s.rootInode := by rw [hstate]
  have hcurrent : s'.currentDirInode = s.currentDirInode := by rw [hstate]
  show Grown s parent inUse parent' s'
  refine ⟨by rw [hsb, hlayout], hroot, hcurrent, by rw [hsb, hinodeHint], ?_, ?_,
    hvolume.trans hzeroed, fun h => ?_, fun h => ?_⟩
  · cases inUse with
    | false =>
      rw [hparent, if_neg Bool.false_ne_true]
      exact sameExtents_setExtentLength
    | true =>
      rw [hparent, if_pos rfl]
      exact ⟨fun _ _ _ => rfl, fun _ _ _ => rfl, fun _ _ _ => rfl⟩
  · cases inUse with
    | false =>
      rw [hparent, if_neg Bool.false_ne_true]
      exact sizeBytes_setExtentLength parent _
    | true => rw [hparent, if_pos rfl]
  · rw [hsb]
    exact hfree h
  · rw [hsb, hdataBit]
    exact hused h

/-! ## 6. The blocks of an inode -/

/-- Block `b` lies in a direct extent. -/
def Inode.Holds (inode : Inode) (b : Nat) : Prop :=
  ∃ k < 4, inode.extentFirst k ≤ b ∧ b < inode.extentFirst k + inode.extentLength k

theorem SameExtents.holds {i j : Inode} (h : SameExtents i j) (b : Nat) :
    i.Holds b ↔ j.Holds b := by
  unfold Inode.Holds
  refine exists_congr fun k => and_congr_right fun hk => ?_
  rw [h.extentFirst hk, h.extentLength hk]

/-- A new inode holds its block. -/
theorem holds_newInode {env : Env} {id block b : Nat} (h : block < 4294967296) :
    (newInode env id block).Holds b ↔ b = block := by
  unfold Inode.Holds
  constructor
  · rintro ⟨k, hk, hlo, hhi⟩
    by_cases h0 : k = 0
    · subst h0
      rw [extentFirst_newInode, u32_eq h] at hlo hhi
      rw [extentLength_newInode] at hhi
      omega
    · have hzero : (newInode env id block).extentLength k = 0 :=
        (newInode_same env id block (by omega)).get32.trans (Packed.get32_zero _)
      omega
  · rintro rfl
    refine ⟨0, by decide, ?_⟩
    rw [extentFirst_newInode, extentLength_newInode, u32_eq h]
    omega

theorem not_holds_noInode (b : Nat) : ¬ noInode.Holds b := by
  rintro ⟨k, -, hlo, hhi⟩
  have hzero : noInode.extentLength k = 0 := Packed.get32_zero _
  omega

/-- The blocks of an inode are blocks of the data area that have a bit. -/
def Inode.Placed (inode : Inode) (l : Layout) : Prop :=
  ∀ b, inode.Holds b → l.dataArea ≤ b ∧ b < l.dataBits

theorem mem_extentBlocks {inode : Inode} {k b : Nat} (h : b ∈ extentBlocks inode k) :
    inode.extentFirst k ≤ b ∧ b < inode.extentFirst k + inode.extentLength k := by
  obtain ⟨i, hi, rfl⟩ := List.mem_range'.mp h
  have hwrap : u32 (inode.extentFirst k + inode.extentLength k)
      ≤ inode.extentFirst k + inode.extentLength k := Nat.mod_le _ _
  omega

theorem holds_of_mem_directBlocks {sb : Superblock} {inode : Inode} {b : Nat}
    (hext : sb.directExtentsPerInode = 4) (h : b ∈ directBlocks sb inode) : inode.Holds b := by
  obtain ⟨k, hk, hb⟩ := List.mem_flatMap.mp h
  exact ⟨k, hext ▸ List.mem_range.mp hk, mem_extentBlocks hb⟩

theorem mem_indexedBlocks {sb : Superblock} {inode : Inode} {b : Nat}
    (hext : sb.directExtentsPerInode = 4) (hplaced : inode.Placed sb.layout)
    (hbits : sb.layout.dataBits ≤ diskBlocks) :
    b ∈ indexedBlocks sb inode ↔ inode.Holds b := by
  unfold indexedBlocks
  rw [hext]
  unfold diskBlocks at hbits
  constructor
  · intro h
    obtain ⟨k, hk, hb⟩ := List.mem_flatMap.mp h
    obtain ⟨j, hj, rfl⟩ := List.mem_map.mp hb
    have hold : inode.Holds (inode.extentFirst k + j) :=
      ⟨k, List.mem_range.mp hk, Nat.le_add_right _ _, Nat.add_lt_add_left (List.mem_range.mp hj) _⟩
    have hlt := (hplaced _ hold).2
    rw [u32_eq (by omega)]
    exact hold
  · rintro ⟨k, hk, hlo, hhi⟩
    have hlt := (hplaced b ⟨k, hk, hlo, hhi⟩).2
    refine List.mem_flatMap.mpr ⟨k, List.mem_range.mpr hk, List.mem_map.mpr
      ⟨b - inode.extentFirst k, List.mem_range.mpr (by omega), ?_⟩⟩
    rw [Nat.add_sub_of_le hlo]
    exact u32_eq (by omega)

/-! ## 7. The entry, the caches and the superblock -/

/-- The bitmaps and the inodes stay as they are. -/
structure SameRecords (v v' : Volume) : Prop where
  inodeBit : v'.inodeBit = v.inodeBit
  dataBit : v'.dataBit = v.dataBit
  inode : v'.inode = v.inode

theorem SameRecords.refl (v : Volume) : SameRecords v v := ⟨rfl, rfl, rfl⟩

theorem SameRecords.trans {v v' v'' : Volume} (h : SameRecords v v') (h' : SameRecords v' v'') :
    SameRecords v v'' :=
  ⟨h'.inodeBit.trans h.inodeBit, h'.dataBit.trans h.dataBit, h'.inode.trans h.inode⟩

/-- Writing a block of the data area. -/
theorem sameRecords_writeBlock {l : Layout} (hl : l.Sound) (hbits : l.dataBits ≤ diskBlocks)
    {disk tempBlock : Bytes} {b : Nat} (hb : l.dataArea ≤ b ∧ b < l.dataBits) :
    SameRecords (volume l disk) (volume l (writeBlock disk b tempBlock)) := by
  rw [volume_writeBlock hl (Or.inr hb.1) (Nat.lt_of_lt_of_le hb.2 hbits)]
  exact ⟨rfl, rfl, rfl⟩

/-- The scan of a block stops at one of the entries that it looks at. -/
theorem scanSlots_lt {tempBlock : Bytes} {total : Nat} : ∀ {fuel count n c n' : Nat},
    scanSlots tempBlock total fuel count n = (some c, n') → c < count + fuel := by
  intro fuel
  induction fuel with
  | zero =>
    intro count n c n' h
    cases h
  | succ fuel ih =>
    intro count n c n' h
    unfold scanSlots at h
    split at h
    · split at h
      · have := ih h
        omega
      · obtain ⟨hc, -⟩ := Prod.mk.inj h
        have := Option.some.inj hc
        omega
    · cases h

/-- The slot that is found lies in one of the blocks. -/
theorem findSlot_mem {disk : Bytes} {total j count : Nat} : ∀ {blocks : List Nat} {n : Nat},
    findSlot disk total blocks n = some (j, count) → j ∈ blocks ∧ count < dirEntriesPerBlock := by
  intro blocks
  induction blocks with
  | nil =>
    intro n h
    cases h
  | cons block blocks ih =>
    intro n h
    unfold findSlot at h
    cases hscan : scanSlots (readBlock disk (fun _ => 0) block) total dirEntriesPerBlock 0 n with
    | mk slot n' =>
      simp only [hscan] at h
      cases slot with
      | some c =>
        obtain ⟨rfl, rfl⟩ := Prod.mk.inj (Option.some.inj h)
        exact ⟨List.mem_cons_self, (scanSlots_lt hscan).trans_eq (Nat.zero_add _)⟩
      | none => exact (ih h).imp_left (List.mem_cons_of_mem _)

/-- What `fs_create_file` does with the parent whose size has grown. -/
def enterFile (s : State) (parent : Inode) (id : Nat) (fileName : List UInt8) : State :=
  updateSuperblock (refreshCaches (addEntry (updateInodeOnDisk s parent) parent id fileName)
    parent)

theorem addEntry_disk (s : State) (parent : Inode) (id : Nat) (fileName : List UInt8) :
    ∃ disk, addEntry s parent id fileName = { s with disk := disk } ∧
      (disk = s.disk ∨ ∃ j ∈ directBlocks s.superblock parent, ∃ count < dirEntriesPerBlock,
        disk = writeBlock s.disk j
          (writeEntry (readBlock s.disk (fun _ => 0) j) count id fileName)) := by
  unfold addEntry
  cases hfind : findSlot s.disk (parent.sizeBytes / dirEntrySize)
      (directBlocks s.superblock parent) 0 with
  | none => exact ⟨s.disk, rfl, Or.inl rfl⟩
  | some slot =>
    obtain ⟨hj, hcount⟩ := findSlot_mem hfind
    exact ⟨_, rfl, Or.inr ⟨slot.1, hj, slot.2, hcount, rfl⟩⟩

/-- **The parent is stored and the entry is written**: of the records only the inode of the
parent changes. -/
theorem enterFile_records {s : State} {parent : Inode} {id : Nat} {fileName : List UInt8}
    (hl : s.superblock.layout.Sound) (hbits : s.superblock.layout.dataBits ≤ diskBlocks)
    (hid : parent.id < s.superblock.layout.capacity)
    (hplaced : parent.Placed s.superblock.layout) :
    (enterFile s parent id fileName).superblock = s.superblock ∧
      SameRecords (s.volume.putInode parent.id parent) (enterFile s parent id fileName).volume := by
  obtain ⟨disk, hadd, hdisk⟩ := addEntry_disk (updateInodeOnDisk s parent) parent id fileName
  have hstate : (refreshCaches (addEntry (updateInodeOnDisk s parent) parent id fileName)
      parent).superblock = s.superblock := by
    rw [hadd]
    rfl
  refine ⟨hstate, ?_⟩
  have hsuper := volume_updateSuperblock (refreshCaches (addEntry (updateInodeOnDisk s parent)
    parent id fileName) parent) (by rw [hstate]; exact hl)
  have hstore : volume s.superblock.layout (updateInodeOnDisk s parent).disk
      = s.volume.putInode parent.id parent := volume_storeInode hl hid
  unfold enterFile
  rw [hsuper, hadd, ← hstore]
  show SameRecords _ (volume s.superblock.layout disk)
  rcases hdisk with rfl | ⟨j, hj, count, -, rfl⟩
  · exact .refl _
  · exact sameRecords_writeBlock hl hbits (hplaced j (holds_of_mem_directBlocks hl.extents hj))

/-- `fs_create_file` past its checks. -/
theorem fsCreateFile_eq {env : Env} {s : State} {path : CString}
    (hname : createRefused env path = false) (hparent : (parentInodeFromPath env s path).id ≠ 0) :
    fsCreateFile env s path =
      let parent := parentInodeFromPath env s path
      let grown := if needsBlock parent then growDirectory env (allocate env s) parent
        else (parent, allocate env s)
      (createdInode env s, enterFile grown.2 (enlarged env grown.1) (createdInode env s).id
        (lastNameInPath path)) := by
  unfold fsCreateFile
  rw [if_neg (by rw [hname]; exact Bool.false_ne_true), if_neg hparent]
  rfl

/-! ## 8. The whole call -/

/-- The directory and the state after it has grown, where the entry makes it larger by a
block. -/
inductive GrownIf (env : Env) (s : State) (parent : Inode) : Inode → State → Prop
  | fits (hneed : needsBlock parent = false) : GrownIf env s parent parent s
  | grown {parent' : Inode} {s' : State} (hneed : needsBlock parent = true)
      (h : Grown s parent (nextBitInUse env s (growthBit s.superblock parent)) parent' s') :
      GrownIf env s parent parent' s'

theorem GrownIf.extents {env : Env} {s s' : State} {parent parent' : Inode}
    (h : GrownIf env s parent parent' s') : SameExtents parent' parent := by
  cases h with
  | fits => exact ⟨fun _ _ _ => rfl, fun _ _ _ => rfl, fun _ _ _ => rfl⟩
  | grown _ hg => exact hg.extents

theorem GrownIf.sizeBytes {env : Env} {s s' : State} {parent parent' : Inode}
    (h : GrownIf env s parent parent' s') : parent'.sizeBytes = parent.sizeBytes := by
  cases h with
  | fits => rfl
  | grown _ hg => exact hg.sizeBytes

theorem GrownIf.layout {env : Env} {s s' : State} {parent parent' : Inode}
    (h : GrownIf env s parent parent' s') : s'.superblock.layout = s.superblock.layout := by
  cases h with
  | fits => rfl
  | grown _ hg => exact hg.layout

/-- **What creating a file does**, past its checks: an inode and a block are allocated, the
directory grows if it must, its inode is stored and the entry is written. -/
structure Created (env : Env) (s : State) (parent : Inode) (result : Inode × State) : Prop where
  allocated : Allocated env s (allocate env s)
  inode : result.1 = createdInode env s
  entered : ∃ parent' s', GrownIf env (allocate env s) parent parent' s' ∧
    result.2.superblock = s'.superblock ∧
    SameRecords (s'.volume.putInode parent.id (enlarged env parent')) result.2.volume

theorem fsCreateFile_created {env : Env} {s : State} {path : CString} {parent : Inode}
    (hl : s.superblock.layout.Sound) (hbits : s.superblock.layout.dataBits ≤ diskBlocks)
    (hname : createRefused env path = false) (hpath : parentInodeFromPath env s path = parent)
    (hne : parent.id ≠ 0) (hid : parent.id < s.superblock.layout.capacity)
    (hplaced : parent.Placed s.superblock.layout) (hcan : CanAllocate s)
    (hgrow : needsBlock parent = true →
      (allocate env s).superblock.firstFreeDataBit < s.superblock.layout.dataBits ∧
      ZeroesOutside s.superblock.layout (zeroedBlock parent
        (nextBitInUse env (allocate env s) (growthBit (allocate env s).superblock parent)))) :
    Created env s parent (fsCreateFile env s path) := by
  have halloc : Allocated env s (allocate env s) := allocate_allocated hl hcan
  rw [fsCreateFile_eq hname (hpath ▸ hne), hpath]
  obtain ⟨grown, hgrown⟩ : ∃ grown, grown = (if needsBlock parent then
      growDirectory env (allocate env s) parent else (parent, allocate env s)) := ⟨_, rfl⟩
  have hif : GrownIf env (allocate env s) parent grown.1 grown.2 := by
    by_cases hneed : needsBlock parent = true
    · rw [if_pos hneed] at hgrown
      obtain ⟨hhint, hz⟩ := hgrow hneed
      rw [hgrown]
      refine .grown hneed (growDirectory_grown ?_ ?_ rfl ?_)
      · rw [halloc.layout]
        exact hl
      · rw [halloc.layout]
        exact hhint
      · rw [halloc.layout]
        exact hz
    · rw [if_neg hneed] at hgrown
      rw [hgrown]
      exact .fits (Bool.not_eq_true _ ▸ hneed)
  have hsame := (sameExtents_enlarged env grown.1).trans hif.extents
  have hlayout := hif.layout.trans halloc.layout
  obtain ⟨hsb, hrec⟩ := @enterFile_records grown.2 (enlarged env grown.1)
    (createdInode env s).id (lastNameInPath path) (by rw [hlayout]; exact hl)
    (by rw [hlayout]; exact hbits) (by rw [hsame.id, hlayout]; exact hid)
    fun b hb => by rw [hlayout]; exact hplaced b ((hsame.holds b).mp hb)
  rw [hsame.id] at hrec
  simp only [← hgrown]
  exact ⟨halloc, rfl, grown.1, grown.2, hif, hsb, hrec⟩

/-- `fs_create_file` does nothing: a special name, or no directory. -/
def CreateRefused (env : Env) (s : State) (path : CString) : Prop :=
  createRefused env path = true ∨ (parentInodeFromPath env s path).id = 0

theorem fsCreateFile_refused {env : Env} {s : State} {path : CString}
    (h : CreateRefused env s path) : fsCreateFile env s path = (noInode, s) := by
  unfold fsCreateFile
  by_cases hname : createRefused env path = true
  · rw [if_pos hname]
  rw [if_neg hname]
  simp only [h.resolve_left hname, if_true]

end AmateurOs.Fs
