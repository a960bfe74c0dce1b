/-
# Running out of inodes or blocks

`fs_create_file` takes the numbers that the hints of the superblock name.  The bitmaps have
32768 bits a block, the inode blocks hold 64 inodes each and the image ends at `imageBlocks`;
nothing compares the numbers with the two, and a full bitmap gives the number 0.

`CallBounded` says what a call should do: hand out inode numbers that the inode blocks hold and
blocks between the first data block and the end of the image, and leave the disk as it is when
there is none.  Along a run of creations from a disk that `make_disk` built, calls that meet
`Roomy` do so (`creation_bounded`): an inode number of the inode blocks is free, a block of the
image is free, and so is another one where the directory must grow.  A directory tree with 62
files fills its inode block when it is built, and the first creation hands out number 64
(`creation_unbounded`).
-/
import AmateurOs.Fs.Ownership

namespace AmateurOs.Fs

open AmateurOs.Lib

/-! ## 1. What a call hands out -/

/-- The blocks of the inode returned, and the bits that are set. -/
def handedOut (s : State) (result : Inode × State) : Set Nat :=
  {b | (result.1.id ≠ 0 ∧ result.1.Holds b) ∨
    (s.volume.dataBit b = false ∧ result.2.volume.dataBit b = true)}

/-- No inode of the inode blocks is free, or no block of the image. -/
def Exhausted (s : State) : Prop :=
  (∀ i < s.superblock.layout.capacity, s.volume.inodeBit i = true) ∨
    ∀ b < imageBlocks, s.volume.dataBit b = true

/-- **Numbers in range, and refusal when there is none.** -/
structure CallBounded (s : State) (result : Inode × State) : Prop where
  id : result.1.id < s.superblock.layout.capacity
  blocks : ∀ b ∈ handedOut s result, s.superblock.layout.dataArea ≤ b ∧ b < imageBlocks
  exhausted : Exhausted s → result.1.id = 0 ∧ result.2.disk = s.disk

/-- A call of `fs_create_file`, with what it reads besides the state. -/
structure Creation where
  env : Env
  path : CString

/-- The call and the state after it. -/
def CreationStep (s : State) (call : Creation) (s' : State) : Prop :=
  s' = (fsCreateFile call.env s call.path).2

/-- A block of the image is free. -/
def BlockFree (s : State) : Prop := ∃ b < imageBlocks, s.volume.dataBit b = false

/-- The directory can grow, from the state after allocation: the block set to zero is no bitmap
and no inode block, and the bit taken is one of a block of the image. -/
structure GrowthRoomy (env : Env) (s : State) (parent : Inode) : Prop where
  zeroed : ZeroesOutside s.superblock.layout
    (zeroedBlock parent (nextBitInUse env s (growthBit s.superblock parent)))
  free : nextBitInUse env s (growthBit s.superblock parent) = false →
    growthBit s.superblock parent < imageBlocks
  inUse : nextBitInUse env s (growthBit s.superblock parent) = true → BlockFree s

/-- A creation that is refused for its path, or in a directory of the disk with what it takes
still there. -/
def Roomy (s : State) (call : Creation) : Prop :=
  let parent := parentInodeFromPath call.env s call.path
  CreateRefused call.env s call.path ∨
    (Genuine s parent ∧
      (∃ i < s.superblock.layout.capacity, s.volume.inodeBit i = false) ∧ BlockFree s ∧
      (needsBlock parent = true → GrowthRoomy call.env (allocate call.env s) parent))

/-! ## 2. The invariant -/

/-- The areas, what is marked, and that the hints are at most the least clear bits. -/
structure InBounds (s : State) : Prop where
  sound : s.superblock.layout.Sound
  inodeBitmap : s.superblock.layout.inodeBitmapBlocks = 1
  dataBitmap : s.superblock.layout.dataBitmapBlocks = 1
  capacity : 0 < s.superblock.layout.capacity ∧
    s.superblock.layout.capacity ≤ s.superblock.layout.inodeBits
  live : ∀ i, s.volume.inodeBit i = true → i < s.superblock.layout.capacity
  zero : s.volume.inodeBit 0 = true
  reserved : ∀ b < s.superblock.layout.dataArea, s.volume.dataBit b = true
  placed : ∀ i, s.volume.inodeBit i = true → (s.volume.inode i).Placed s.superblock.layout
  inodeHint : ∀ i < s.superblock.layout.inodeBits, s.volume.inodeBit i = false →
    0 < s.superblock.firstFreeInodeBit ∧ s.superblock.firstFreeInodeBit ≤ i
  dataHint : ∀ b < s.superblock.layout.dataBits, s.volume.dataBit b = false →
    s.superblock.layout.dataArea ≤ s.superblock.firstFreeDataBit ∧
      s.superblock.firstFreeDataBit ≤ b

section

variable {s : State} (h : InBounds s)

include h

theorem InBounds.bits : s.superblock.layout.inodeBits = 32768 ∧
    s.superblock.layout.dataBits = 32768 := by
  unfold Layout.inodeBits Layout.dataBits
  rw [h.inodeBitmap, h.dataBitmap]
  exact ⟨rfl, rfl⟩

theorem InBounds.dataBits_le : s.superblock.layout.dataBits ≤ diskBlocks := by
  rw [h.bits.2]
  exact by decide

/-- What is free in the image has a bit. -/
theorem InBounds.hint_of_free (hfree : BlockFree s) :
    s.superblock.layout.dataArea ≤ s.superblock.firstFreeDataBit ∧
      s.superblock.firstFreeDataBit < imageBlocks ∧
      s.superblock.firstFreeDataBit < s.superblock.layout.dataBits := by
  obtain ⟨b, hb, hclear⟩ := hfree
  have himage : imageBlocks = 360 := by decide
  have hbits := h.bits.2
  obtain ⟨hlo, hhi⟩ := h.dataHint b (by omega) hclear
  omega

end

/-- **Built disks** are in bounds. -/
theorem Built.inBounds {numFiles fileBlocks : Nat} {s : State}
    (h : Built numFiles fileBlocks s) : InBounds s := by
  obtain ⟨hlayout, hinodeHint, hdataHint⟩ := h.fields
  obtain ⟨hcap, hsmall⟩ := h.bounds
  have hlaid := h.laidOut
  have hend : builtEndBlock numFiles fileBlocks
      = 4 + builtInodeBlocks numFiles + fileBlocks := rfl
  have hfirst : builtFirstBlock numFiles = 4 + builtInodeBlocks numFiles := rfl
  refine ⟨h.sound, ?_, hlaid.dataBitmap, ⟨?_, hlaid.inodeBits⟩, hlaid.live,
    (h.inodeBit 0).mpr (Nat.succ_pos _), hlaid.reserved, fun i hi b hb => ?_,
    fun i _ hi => ?_, fun b _ hb => ?_⟩
  · rw [hlayout]
  · rw [hlayout]
    exact Nat.lt_of_lt_of_le (Nat.succ_pos _) hcap
  · obtain ⟨hlo, hhi⟩ := h.extents i ((h.inodeBit i).mp hi) b hb
    rw [hlayout]
    refine ⟨hlo, ?_⟩
    show b < 1 * 32768
    omega
  · have hnot : ¬ i < numFiles + 2 := fun hlt => by
      rw [(h.inodeBit i).mpr hlt] at hi
      cases hi
    omega
  · have hnot : ¬ b < builtEndBlock numFiles fileBlocks := fun hlt => by
      rw [(h.dataBit b).mpr hlt] at hb
      cases hb
    rw [hlayout, hdataHint]
    show builtFirstBlock numFiles ≤ _ ∧ _
    omega

/-- Changed records with the same layout. -/
theorem InBounds.next {s s' : State} (h : InBounds s)
    (hlayout : s'.superblock.layout = s.superblock.layout)
    (hlive : ∀ i, s'.volume.inodeBit i = true → i < s.superblock.layout.capacity)
    (hzero : s'.volume.inodeBit 0 = true)
    (hreserved : ∀ b < s.superblock.layout.dataArea, s'.volume.dataBit b = true)
    (hplaced : ∀ i, s'.volume.inodeBit i = true →
      (s'.volume.inode i).Placed s.superblock.layout)
    (hinodeHint : ∀ i < s.superblock.layout.inodeBits, s'.volume.inodeBit i = false →
      0 < s'.superblock.firstFreeInodeBit ∧ s'.superblock.firstFreeInodeBit ≤ i)
    (hdataHint : ∀ b < s.superblock.layout.dataBits, s'.volume.dataBit b = false →
      s.superblock.layout.dataArea ≤ s'.superblock.firstFreeDataBit ∧
        s'.superblock.firstFreeDataBit ≤ b) : InBounds s' := by
  obtain ⟨hsound, hinode, hdata, hcap, -, -, -, -, -, -⟩ := h
  rw [← hlayout] at hsound hinode hdata hcap hlive hreserved hplaced hinodeHint hdataHint
  exact ⟨hsound, hinode, hdata, hcap, hlive, hzero, hreserved, hplaced, hinodeHint, hdataHint⟩

/-- The next hint of the data bitmap is the least clear bit. -/
theorem IsNext.dataHint {s s' : State} (h : InBounds s)
    (hreserved : ∀ b < s.superblock.layout.dataArea, s'.volume.dataBit b = true)
    (hnext : IsNext s'.volume.dataBit s.superblock.layout.dataBits
      s'.superblock.firstFreeDataBit) :
    ∀ b < s.superblock.layout.dataBits, s'.volume.dataBit b = false →
      s.superblock.layout.dataArea ≤ s'.superblock.firstFreeDataBit ∧
        s'.superblock.firstFreeDataBit ≤ b := by
  intro b hb hclear
  obtain ⟨hle, hfree, -⟩ := hnext.least hb (h.bits.2 ▸ hb) hclear
  refine ⟨?_, hle⟩
  by_contra hlt
  rw [hreserved _ (Nat.not_le.mp hlt)] at hfree
  cases hfree

/-! ## 3. One call -/

/-- **Allocation** of numbers in range. -/
theorem Allocated.inBounds {env : Env} {s s' : State} (hs : InBounds s)
    (h : Allocated env s s') (hinode : 0 < s.superblock.firstFreeInodeBit ∧
      s.superblock.firstFreeInodeBit < s.superblock.layout.capacity)
    (hfree : BlockFree s) : InBounds s' := by
  obtain ⟨hpos, hcap⟩ := hinode
  obtain ⟨hlo, -, hhi⟩ := hs.hint_of_free hfree
  have hreserved : ∀ b < s.superblock.layout.dataArea, s'.volume.dataBit b = true := by
    intro b hb
    rw [h.dataBit]
    by_cases heq : b = s.superblock.firstFreeDataBit
    · rw [heq, Function.update_self]
    · rw [Function.update_of_ne heq]
      exact hs.reserved b hb
  have hzero : s'.volume.inodeBit 0 = true := by
    rw [h.inodeBit, Function.update_of_ne (Nat.ne_of_lt hpos)]
    exact hs.zero
  refine hs.next h.layout (fun i hi => ?_) hzero hreserved (fun i hi => ?_)
    (fun i hi hclear => ?_) (h.dataNext.dataHint hs hreserved)
  · rw [h.inodeBit] at hi
    by_cases heq : i = s.superblock.firstFreeInodeBit
    · exact heq ▸ hcap
    · rw [Function.update_of_ne heq] at hi
      exact hs.live i hi
  · rw [h.inodeBit] at hi
    rw [h.inode, if_pos hcap]
    by_cases heq : i = s.superblock.firstFreeInodeBit
    · rw [heq, Function.update_self]
      intro b hb
      obtain rfl := (holds_newInode (Packed.get32_lt _ _)).mp hb
      exact ⟨hlo, hhi⟩
    · rw [Function.update_of_ne heq] at hi ⊢
      exact hs.placed i hi
  · obtain ⟨hle, hnext, -⟩ := h.inodeNext.least hi (hs.bits.1 ▸ hi) hclear
    refine ⟨Nat.pos_of_ne_zero fun heq => ?_, hle⟩
    rw [heq, hzero] at hnext
    cases hnext

/-- **Growing** takes a bit of the image. -/
theorem Grown.inBounds {s s' : State} {parent parent' : Inode} {inUse : Bool}
    (hs : InBounds s) (h : Grown s parent inUse parent' s') : InBounds s' := by
  obtain ⟨hinodeBit, hinode, hdata⟩ := h.records
  have hmono : ∀ b, s.volume.dataBit b = true → s'.volume.dataBit b = true := fun b hb => by
    rw [hdata]
    exact Volume.grow_mono hb
  have hreserved : ∀ b < s.superblock.layout.dataArea, s'.volume.dataBit b = true :=
    fun b hb => hmono b (hs.reserved b hb)
  refine hs.next h.layout ?_ ?_ hreserved ?_ ?_ ?_
  · rw [hinodeBit]
    exact hs.live
  · rw [hinodeBit]
    exact hs.zero
  · rw [hinodeBit, hinode]
    exact hs.placed
  · rw [hinodeBit, h.inodeHint]
    exact hs.inodeHint
  · cases inUse with
    | true => exact (h.hintNext rfl).dataHint hs hreserved
    | false =>
      rw [h.hintKept rfl]
      intro b hb hclear
      refine hs.dataHint b hb ?_
      rw [← Bool.not_eq_true]
      intro hset
      rw [hmono b hset] at hclear
      cases hclear

/-- **Storing the directory**, whose blocks stay where they are. -/
theorem InBounds.of_putInode {s s' : State} {i : Nat} {inode : Inode} (hs : InBounds s)
    (hsb : s'.superblock = s.superblock) (hrec : SameRecords (s.volume.putInode i inode) s'.volume)
    (hplaced : inode.Placed s.superblock.layout) : InBounds s' := by
  have hinodeBit : s'.volume.inodeBit = s.volume.inodeBit := hrec.inodeBit
  have hdataBit : s'.volume.dataBit = s.volume.dataBit := hrec.dataBit
  refine hs.next (by rw [hsb]) ?_ ?_ ?_ (fun j hj => ?_) ?_ ?_
  · rw [hinodeBit]
    exact hs.live
  · rw [hinodeBit]
    exact hs.zero
  · rw [hdataBit]
    exact hs.reserved
  · rw [hinodeBit] at hj
    rw [hrec.inode]
    show (Function.update s.volume.inode i inode j).Placed _
    by_cases heq : j = i
    · rw [heq, Function.update_self]
      exact hplaced
    · rw [Function.update_of_ne heq]
      exact hs.placed j hj
  · rw [hinodeBit, hsb]
    exact hs.inodeHint
  · rw [hdataBit, hsb]
    exact hs.dataHint

/-- The bits that growing sets are those of blocks of the image. -/
theorem Grown.newBits {env : Env} {s s' : State} {parent parent' : Inode} (hs : InBounds s)
    (hroom : GrowthRoomy env s parent)
    (h : Grown s parent (nextBitInUse env s (growthBit s.superblock parent)) parent' s')
    {b : Nat} (hclear : s.volume.dataBit b = false) (hset : s'.volume.dataBit b = true) :
    b < imageBlocks := by
  obtain ⟨-, hfree, hinUse⟩ := hroom
  have hdata := h.records.2.2
  generalize nextBitInUse env s (growthBit s.superblock parent) = inUse at *
  have hput : ∀ c, (s.volume.putDataBit c true).dataBit b = true → b = c := by
    intro c hc
    by_contra hne
    have hsame : (s.volume.putDataBit c true).dataBit b = s.volume.dataBit b :=
      Function.update_of_ne hne _ _
    rw [hsame, hclear] at hc
    cases hc
  rw [hdata] at hset
  unfold Volume.grow at hset
  cases inUse with
  | true =>
    rw [if_pos rfl] at hset
    rw [hput _ hset]
    exact (hs.hint_of_free (hinUse rfl)).2.1
  | false =>
    rw [if_neg Bool.false_ne_true] at hset
    split at hset
    · rw [hput _ hset]
      exact hfree rfl
    · rw [hclear] at hset
      cases hset

/-- **One call** with what it takes still there. -/
theorem creation_step {s : State} {call : Creation} (hs : InBounds s) (h : Roomy s call) :
    CallBounded s (fsCreateFile call.env s call.path) ∧
      InBounds (fsCreateFile call.env s call.path).2 := by
  by_cases hrefused : CreateRefused call.env s call.path
  · rw [fsCreateFile_refused hrefused]
    refine ⟨⟨id_noInode ▸ hs.capacity.1, fun b hb => ?_, fun _ => ⟨id_noInode, rfl⟩⟩, hs⟩
    rcases hb with ⟨hid, -⟩ | ⟨hclear, hset⟩
    · exact absurd id_noInode hid
    · rw [hclear] at hset
      cases hset
  obtain ⟨hg, ⟨i, hi, hclear⟩, hfree, hgrow⟩ := h.resolve_left hrefused
  obtain ⟨hname, hne⟩ := not_or.mp hrefused
  obtain ⟨env, path⟩ := call
  simp only at *
  generalize hp : parentInodeFromPath env s path = parent at *
  obtain ⟨hpos, hle⟩ := hs.inodeHint i (Nat.lt_of_lt_of_le hi hs.capacity.2) hclear
  have hcap := Nat.lt_of_le_of_lt hle hi
  obtain ⟨hlo, himage, hbit⟩ := hs.hint_of_free hfree
  have hid : parent.id < s.superblock.layout.capacity := hs.live _ hg.1
  have hplaced : parent.Placed s.superblock.layout := hg.2 ▸ hs.placed _ hg.1
  have hcan : CanAllocate s := ⟨Nat.lt_of_lt_of_le hcap hs.capacity.2, hbit,
    inodeFits hs.sound hcap⟩
  have halloc : Allocated env s (allocate env s) := allocate_allocated hs.sound hcan
  have hs1 : InBounds (allocate env s) := halloc.inBounds hs ⟨hpos, hcap⟩ hfree
  have hcreated : Created env s parent (fsCreateFile env s path) := by
    refine fsCreateFile_created hs.sound hs.dataBits_le (Bool.not_eq_true _ ▸ hname) hp hne hid
      hplaced hcan fun hneed => ⟨?_, ?_⟩
    · rw [hs.bits.2]
      exact halloc.dataNext.lt
    · rw [← halloc.layout]
      exact (hgrow hneed).zeroed
  obtain ⟨-, hinode, parent', s2, hif, hsb, hrec⟩ := hcreated
  have hs2 : InBounds s2 ∧ ∀ b, (allocate env s).volume.dataBit b = false →
      s2.volume.dataBit b = true → b < imageBlocks := by
    cases hif with
    | fits =>
      refine ⟨hs1, fun b hclear hset => ?_⟩
      rw [hclear] at hset
      cases hset
    | grown hneed hgrown =>
      exact ⟨hgrown.inBounds hs1, fun b => hgrown.newBits hs1 (hgrow hneed)⟩
  obtain ⟨hbounds2, hnew⟩ := hs2
  have hlayout := hif.layout.trans halloc.layout
  have hsame := (sameExtents_enlarged env parent').trans hif.extents
  have hcreatedId : (createdInode env s).id = s.superblock.firstFreeInodeBit :=
    (id_newInode ..).trans (u32_eq (Packed.get32_lt _ _))
  refine ⟨⟨?_, fun b hb => ?_, fun hexhausted => ?_⟩, hbounds2.of_putInode hsb hrec ?_⟩
  · rw [hinode, hcreatedId]
    exact hcap
  · rcases hb with ⟨-, hold⟩ | ⟨hb, hset⟩
    · rw [hinode] at hold
      obtain rfl := (holds_newInode (Packed.get32_lt _ _)).mp hold
      exact ⟨hlo, himage⟩
    · refine ⟨?_, ?_⟩
      · by_contra hlt
        rw [hs.reserved b (Nat.not_le.mp hlt)] at hb
        cases hb
      · have hset2 : s2.volume.dataBit b = true := by
          rw [← hset, hrec.dataBit]
          rfl
        by_cases heq : b = s.superblock.firstFreeDataBit
        · exact heq ▸ himage
        · refine hnew b ?_ hset2
          rw [halloc.dataBit, Function.update_of_ne heq]
          exact hb
  · obtain ⟨b, hb, hbclear⟩ := hfree
    rcases hexhausted with hall | hall
    · rw [hall i hi] at hclear
      cases hclear
    · rw [hall b hb] at hbclear
      cases hbclear
  · intro b hb
    rw [hlayout]
    exact hplaced b ((hsame.holds b).mp hb)

/-! ## 4. Runs -/

/-- **Creations along runs** hand out numbers in range. -/
theorem creation_bounded {numFiles fileBlocks : Nat} {s₀ s : State} {call : Creation}
    (h₀ : Built numFiles fileBlocks s₀) (hrun : Reach CreationStep Roomy s₀ s)
    (hroom : Roomy s call) : CallBounded s (fsCreateFile call.env s call.path) := by
  have hbounds : InBounds s := hrun.invariant h₀.inBounds
    fun t call' t' ht hroom' (hstep : t' = _) => hstep ▸ (creation_step ht hroom').2
  exact (creation_step hbounds hroom).1

/-- **The first creation** in a tree that fills its inode block hands out a number behind it. -/
theorem creation_unbounded : ¬ ∀ (numFiles fileBlocks : Nat) (s₀ s : State) (call : Creation),
    Built numFiles fileBlocks s₀ → Reach CreationStep (fun _ _ => True) s₀ s →
    CallBounded s (fsCreateFile call.env s call.path) := by
  intro hall
  have hbounded := hall 62 1 (emptyFiles 62) _ ⟨quietEnv, newPath⟩
    (emptyFiles_built (by decide)) .refl
  have hid := hbounded.id
  have hnumbers : (fsCreateFile quietEnv (emptyFiles 62) newPath).1.id = 64 ∧
      (emptyFiles 62).superblock.layout.capacity = 64 := by decide +kernel
  rw [hnumbers.1, hnumbers.2] at hid
  exact Nat.lt_irrefl _ hid

/-- The theorem at the first creation in a tree with 63 files. -/
theorem creation_bounded_first :
    CallBounded (emptyFiles 63) (fsCreateFile quietEnv (emptyFiles 63) newPath) := by
  have hbuilt : Built 63 2 (emptyFiles 63) := emptyFiles_built (by decide)
  obtain ⟨hparent, hgenuine⟩ := @newPath_parent 63 (by decide)
  have hroom : Roomy (emptyFiles 63) ⟨quietEnv, newPath⟩ := by
    unfold Roomy
    simp only [hparent]
    refine Or.inr ⟨hgenuine, ⟨65, by decide +kernel⟩, ⟨8, by decide +kernel⟩, fun hneed => ?_⟩
    have hfits : needsBlock (emptyFilesInode 63 1) = false := by decide +kernel
    rw [hfits] at hneed
    cases hneed
  exact creation_bounded hbuilt .refl hroom

end AmateurOs.Fs
