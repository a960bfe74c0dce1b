/-
# Ownership of data blocks

Which file owns a data block is recorded three times: in the extents of the inodes, in the data
bitmap and in `first_free_data_bit`.  `BlocksOwned` says that the three agree: the ledger of the
volume, in which the live inodes hold the blocks of their direct extents and the bitmap marks
what is taken, is sound, and the hint is a clear bit.

Creating a file grants the block of the hint to the new inode and reserves what the directory
grows by; deleting releases the blocks of the file; renaming leaves the ledger as it is.  So
along a run of these calls `BlocksOwned` holds throughout, when each call meets `Kept`
(`ownership_kept`).  The calls that do not are those that

* take the last free data bit: the search then answers 0, which is a bit in use;
* grow a directory into the bit that the hint names, or set a block of the bitmaps or of the
  inodes to zero, or hand out an inode number behind the inode blocks;
* delete the last entry of a block of a directory: the bit of the block is cleared, and the
  extent of the directory still has it (`ownership_lost`).
-/
import AmateurOs.Lib.Ledger
import AmateurOs.Lib.Run
import AmateurOs.Fs.Deletion
import AmateurOs.Fs.Image

namespace AmateurOs.Fs

open AmateurOs.Lib

/-! ## 1. The ledger of a volume -/

/-- The live inodes hold the blocks of their direct extents; the data bitmap marks blocks. -/
def Volume.ledger (v : Volume) : Ledger Nat Nat where
  holds i := {b | v.inodeBit i = true ∧ (v.inode i).Holds b}
  marked := {b | v.dataBit b = true}

/-- **The three records agree.** -/
structure BlocksOwned (s : State) : Prop where
  ledger : s.volume.ledger.Sound
  hint : s.superblock.firstFreeDataBit < s.superblock.layout.dataBits ∧
    s.volume.dataBit s.superblock.firstFreeDataBit = false

/-- A disk as `make_disk` lays it out, with a data bitmap of one block. -/
structure LaidOut (s : State) : Prop where
  sound : s.superblock.layout.Sound
  dataBitmap : s.superblock.layout.dataBitmapBlocks = 1
  /-- Every inode of the inode blocks has a bit, and no other number is in use. -/
  inodeBits : s.superblock.layout.capacity ≤ s.superblock.layout.inodeBits
  live : ∀ i, s.volume.inodeBit i = true → i < s.superblock.layout.capacity
  /-- The blocks before the data area are marked, and no inode holds one. -/
  reserved : ∀ b < s.superblock.layout.dataArea, s.volume.dataBit b = true
  placed : ∀ i, s.volume.inodeBit i = true → ∀ b, (s.volume.inode i).Holds b →
    s.superblock.layout.dataArea ≤ b
  owned : BlocksOwned s

/-- The record of a live inode, as the disk has it. -/
def Genuine (s : State) (inode : Inode) : Prop :=
  s.volume.inodeBit inode.id = true ∧ s.volume.inode inode.id = inode

/-! ## 2. The calls -/

/-- The calls, each with what it reads besides the state. -/
inductive FileCall
  | create (env : Env) (path : CString)
  | delete (env : Env) (path : CString)
  | rename (env : Env) (path newName : CString)

/-- The state after a call. -/
def FileCall.after (s : State) : FileCall → State
  | .create env path => (fsCreateFile env s path).2
  | .delete env path => (fsDeleteFile env s path).2
  | .rename env path newName => (fsRenameFile env s path newName).2

/-- A data block is free besides the one that the hint names. -/
def AnotherFree (s : State) : Prop :=
  ∃ b < s.superblock.layout.dataBits, b ≠ s.superblock.firstFreeDataBit ∧
    s.volume.dataBit b = false

/-- The directory grows without harm, from the state after allocation: the block set to zero is
no bitmap and no inode block; a bit taken after the last block is not the one of the hint, and
a bit taken from the hint is not the last one. -/
structure GrowthKept (env : Env) (s : State) (parent : Inode) : Prop where
  zeroed : ZeroesOutside s.superblock.layout
    (zeroedBlock parent (nextBitInUse env s (growthBit s.superblock parent)))
  free : nextBitInUse env s (growthBit s.superblock parent) = false →
    growthBit s.superblock parent < 4096 →
    growthBit s.superblock parent ≠ s.superblock.firstFreeDataBit
  inUse : nextBitInUse env s (growthBit s.superblock parent) = true → AnotherFree s

/-- A creation that is refused, or that keeps the records: the directory is a live inode as the
disk has it, the inode number is one of the inode blocks, and blocks are left. -/
def CreateKept (env : Env) (s : State) (path : CString) : Prop :=
  let parent := parentInodeFromPath env s path
  CreateRefused env s path ∨
    (Genuine s parent ∧ s.superblock.firstFreeInodeBit < s.superblock.layout.capacity ∧
      AnotherFree s ∧ (needsBlock parent = true → GrowthKept env (allocate env s) parent))

/-- A deletion that is refused, or that keeps the records: file and directory are live inodes as
the disk has them, and the block with the entry is not released. -/
def DeleteKept (env : Env) (s : State) (path : CString) : Prop :=
  let inode := inodeFromPath env s path
  let parent := parentInodeFromPath env s path
  DeleteRefused env s path ∨ (Genuine s inode ∧ Genuine s parent ∧
    (parent.id = inode.id ∨ ¬ ReleasesBlock env (releaseInode s inode) parent inode.id))

/-- A renaming that is refused, or whose directory is a live inode as the disk has it. -/
def RenameKept (env : Env) (s : State) (path : CString) : Prop :=
  RenameRefused env s path ∨ Genuine s (parentInodeFromPath env s path)

/-- The calls that keep the records. -/
def Kept (s : State) : FileCall → Prop
  | .create env path => CreateKept env s path
  | .delete env path => DeleteKept env s path
  | .rename env path _ => RenameKept env s path

/-! ## 3. The invariant -/

section

variable {s : State} (h : LaidOut s)

include h

theorem LaidOut.dataBits : s.superblock.layout.dataBits = 32768 := by
  unfold Layout.dataBits
  rw [h.dataBitmap, Nat.one_mul]

theorem LaidOut.dataBits_le : s.superblock.layout.dataBits ≤ diskBlocks := by
  rw [h.dataBits]
  exact by decide

/-- A live inode is one of the inode blocks, and its blocks are in the data area. -/
theorem LaidOut.genuine {inode : Inode} (hg : Genuine s inode) :
    inode.id < s.superblock.layout.capacity ∧ inode.Placed s.superblock.layout := by
  refine ⟨h.live _ hg.1, fun b hb => ?_⟩
  have hold : (s.volume.inode inode.id).Holds b := hg.2.symm ▸ hb
  refine ⟨h.placed _ hg.1 b hold, ?_⟩
  have hmarked : s.volume.dataBit b = true := h.owned.ledger.marked inode.id ⟨hg.1, hold⟩
  exact of_decide_eq_true (Bool.and_eq_true_iff.mp hmarked).1

/-- The block of the hint is one of the data area. -/
theorem LaidOut.hint_placed : s.superblock.layout.dataArea ≤ s.superblock.firstFreeDataBit := by
  by_contra hlt
  have hset := h.reserved _ (Nat.not_le.mp hlt)
  rw [h.owned.hint.2] at hset
  cases hset

end

/-- **Disks are built laid out.** -/
theorem Built.laidOut {numFiles fileBlocks : Nat} {s : State}
    (h : Built numFiles fileBlocks s) : LaidOut s := by
  obtain ⟨hlayout, -, hhint⟩ := h.fields
  obtain ⟨hcap, hsmall⟩ := h.bounds
  have hend : builtEndBlock numFiles fileBlocks
      = 4 + builtInodeBlocks numFiles + fileBlocks := rfl
  refine ⟨h.sound, ?_, ?_, fun i hi => ?_, ?_, fun i hi b hb => ?_, ⟨⟨?_, ?_⟩, ?_, ?_⟩⟩
  · rw [hlayout]
  · rw [hlayout]
    show builtInodeBlocks numFiles * 64 ≤ 1 * 32768
    omega
  · rw [hlayout]
    exact Nat.lt_of_lt_of_le ((h.inodeBit i).mp hi) hcap
  · rw [hlayout]
    exact fun b hb => (h.dataBit b).mpr (Nat.lt_of_lt_of_le hb (Nat.le_add_right _ _))
  · rw [hlayout]
    exact (h.extents i ((h.inodeBit i).mp hi) b hb).1
  · intro i j hne b hi hj
    exact h.disjoint i j b ((h.inodeBit i).mp hi.1) ((h.inodeBit j).mp hj.1) hne hi.2 hj.2
  · intro i b hb
    exact (h.dataBit b).mpr (h.extents i ((h.inodeBit i).mp hb.1) b hb.2).2
  · rw [hlayout, hhint, hend]
    show _ < 1 * 32768
    omega
  · rw [hhint, ← Bool.not_eq_true, h.dataBit]
    exact Nat.lt_irrefl _

/-- Changed records with the same layout, in which the ledger is sound again. -/
theorem LaidOut.next {s s' : State} (h : LaidOut s)
    (hlayout : s'.superblock.layout = s.superblock.layout)
    (hlive : ∀ i, s'.volume.inodeBit i = true → i < s.superblock.layout.capacity)
    (hreserved : ∀ b < s.superblock.layout.dataArea, s'.volume.dataBit b = true)
    (hplaced : ∀ i b, b ∈ s'.volume.ledger.holds i → s.superblock.layout.dataArea ≤ b)
    (howned : BlocksOwned s') : LaidOut s' := by
  obtain ⟨hsound, hbitmap, hbits, -, -, -, -⟩ := h
  refine ⟨?_, ?_, ?_, ?_, ?_, ?_, howned⟩
  · rw [hlayout]
    exact hsound
  · rw [hlayout]
    exact hbitmap
  · rw [hlayout]
    exact hbits
  · rw [hlayout]
    exact hlive
  · rw [hlayout]
    exact hreserved
  · rw [hlayout]
    exact fun i hi b hb => hplaced i b ⟨hi, hb⟩

/-- The ledger reads the bitmaps and the inodes. -/
theorem SameRecords.ledger {v v' : Volume} (h : SameRecords v v') : v'.ledger = v.ledger := by
  unfold Volume.ledger
  rw [h.inodeBit, h.dataBit, h.inode]

/-- An inode replaced. -/
theorem ledger_putInode (v : Volume) (i : Nat) (inode : Inode) : (v.putInode i inode).ledger
    = v.ledger.assign i {b | v.inodeBit i = true ∧ inode.Holds b} := by
  refine Ledger.ext (funext fun j => Set.ext fun b => ?_) rfl
  rw [Ledger.mem_assign]
  show v.inodeBit j = true ∧ (Function.update v.inode i inode j).Holds b ↔ _
  by_cases hij : j = i
  · subst hij
    rw [Function.update_self]
    simp
  · rw [Function.update_of_ne hij]
    simp only [hij, false_and, false_or, ne_eq, not_false_eq_true, true_and]
    rfl

/-- **An inode replaced by one whose blocks nobody else holds.** -/
theorem LaidOut.of_putInode {s s' : State} {inode : Inode} (hs : LaidOut s)
    (hsb : s'.superblock = s.superblock)
    (hrec : SameRecords (s.volume.putInode inode.id inode) s'.volume)
    (hheld : s.volume.inodeBit inode.id = true → ∀ b, inode.Holds b →
      s.superblock.layout.dataArea ≤ b ∧ b ∈ s.volume.ledger.marked ∧
        ∀ j ≠ inode.id, b ∉ s.volume.ledger.holds j) : LaidOut s' := by
  have hledger := hrec.ledger.trans (ledger_putInode s.volume inode.id inode)
  refine hs.next (by rw [hsb]) (fun i hi => ?_) (fun b hb => ?_) (fun i b hb => ?_) ⟨?_, ?_⟩
  · rw [hrec.inodeBit] at hi
    exact hs.live i hi
  · rw [hrec.dataBit]
    exact hs.reserved b hb
  · rw [hledger] at hb
    rcases Ledger.mem_assign.mp hb with ⟨-, hlive, hold⟩ | ⟨-, hold⟩
    · exact (hheld hlive b hold).1
    · exact hs.placed i hold.1 b hold.2
  · rw [hledger]
    exact hs.owned.ledger.assign (fun b hb => (hheld hb.1 b hb.2).2.1) fun j hj b hb =>
      (hheld hb.1 b hb.2).2.2 j hj
  · rw [hsb, hrec.dataBit]
    exact hs.owned.hint

/-! ## 4. Creating a file -/

/-- **Allocation** grants the block of the hint to the new inode. -/
theorem Allocated.ledger {env : Env} {s s' : State} (h : Allocated env s s')
    (hcap : s.superblock.firstFreeInodeBit < s.superblock.layout.capacity) :
    s'.volume.ledger
      = s.volume.ledger.grant s.superblock.firstFreeInodeBit s.superblock.firstFreeDataBit := by
  have hb : s.superblock.firstFreeDataBit < 4294967296 := Packed.get32_lt _ _
  refine Ledger.ext (funext fun i => Set.ext fun b => ?_) (Set.ext fun b => ?_)
  · rw [Ledger.mem_grant]
    show s'.volume.inodeBit i = true ∧ (s'.volume.inode i).Holds b ↔ _
    rw [h.inodeBit, h.inode, if_pos hcap]
    by_cases hi : i = s.superblock.firstFreeInodeBit
    · subst hi
      rw [Function.update_self, Function.update_self]
      unfold createdInode
      rw [holds_newInode hb]
      simp
    · rw [Function.update_of_ne hi, Function.update_of_ne hi]
      simp only [hi, false_and, false_or, ne_eq, not_false_eq_true, true_and]
      rfl
  · show s'.volume.dataBit b = true ↔
      s.volume.dataBit b = true ∨ b = s.superblock.firstFreeDataBit
    rw [h.dataBit]
    by_cases hb' : b = s.superblock.firstFreeDataBit
    · rw [hb', Function.update_self]
      simp
    · rw [Function.update_of_ne hb']
      simp [hb']

/-- **Allocation keeps the layout and the ledger**, and the next hint is a clear bit. -/
theorem Allocated.laidOut {env : Env} {s s' : State} (hs : LaidOut s) (h : Allocated env s s')
    (hcap : s.superblock.firstFreeInodeBit < s.superblock.layout.capacity)
    (hfree : AnotherFree s) : LaidOut s' := by
  obtain ⟨c, hc, hne, hclear⟩ := hfree
  have hledger := h.ledger hcap
  have hclear' : s'.volume.dataBit c = false := by
    rw [h.dataBit, Function.update_of_ne hne]
    exact hclear
  have hsmall : c < 32768 := hs.dataBits ▸ hc
  obtain ⟨-, hnext, -⟩ := h.dataNext.least hc hsmall hclear'
  refine hs.next h.layout (fun i hi => ?_) (fun b hb => ?_) (fun i b hb => ?_) ⟨?_, ?_, hnext⟩
  · rw [h.inodeBit] at hi
    by_cases heq : i = s.superblock.firstFreeInodeBit
    · exact heq ▸ hcap
    · rw [Function.update_of_ne heq] at hi
      exact hs.live i hi
  · rw [h.dataBit]
    by_cases heq : b = s.superblock.firstFreeDataBit
    · rw [heq, Function.update_self]
    · rw [Function.update_of_ne heq]
      exact hs.reserved b hb
  · rw [hledger] at hb
    rcases Ledger.mem_grant.mp hb with ⟨-, rfl⟩ | ⟨-, hold⟩
    · exact hs.hint_placed
    · exact hs.placed i hold.1 b hold.2
  · rw [hledger]
    refine hs.owned.ledger.grant fun hmarked => ?_
    have hset : s.volume.dataBit s.superblock.firstFreeDataBit = true := hmarked
    rw [hs.owned.hint.2] at hset
    cases hset
  · rw [h.layout, hs.dataBits]
    exact h.dataNext.lt

/-- The records after growing: at most one more bit is set. -/
theorem Grown.records {s s' : State} {parent parent' : Inode} {inUse : Bool}
    (h : Grown s parent inUse parent' s') : s'.volume.inodeBit = s.volume.inodeBit ∧
      s'.volume.inode = s.volume.inode ∧ s'.volume.dataBit = (s.volume.grow
        (growthBit s.superblock parent) inUse s.superblock.firstFreeDataBit).dataBit := by
  rw [h.volume, Volume.inodeBit_zeroBlock, Volume.inode_zeroBlock, Volume.dataBit_zeroBlock]
  unfold Volume.grow
  split
  · exact ⟨rfl, rfl, rfl⟩
  · split <;> exact ⟨rfl, rfl, rfl⟩

theorem Volume.grow_mono {v : Volume} {bit hint b : Nat} {inUse : Bool}
    (h : v.dataBit b = true) : (v.grow bit inUse hint).dataBit b = true := by
  have hput : ∀ c, (v.putDataBit c true).dataBit b = true := by
    intro c
    show Function.update v.dataBit c true b = true
    by_cases hbc : b = c
    · rw [hbc, Function.update_self]
    · rw [Function.update_of_ne hbc]
      exact h
  unfold Volume.grow
  split
  · exact hput _
  · split
    · exact hput _
    · exact h

/-- **Growing** reserves blocks. -/
theorem Grown.ledger {s s' : State} {parent parent' : Inode} {inUse : Bool}
    (h : Grown s parent inUse parent' s') :
    s'.volume.ledger = s.volume.ledger.reserve {b | s'.volume.dataBit b = true} := by
  obtain ⟨hinodeBit, hinode, hdata⟩ := h.records
  refine Ledger.ext ?_ (Set.ext fun b => ?_)
  · show (fun i => {b | s'.volume.inodeBit i = true ∧ (s'.volume.inode i).Holds b}) = _
    rw [hinodeBit, hinode]
    rfl
  · refine ⟨Or.inr, fun hb => hb.elim (fun hold => ?_) id⟩
    show s'.volume.dataBit b = true
    rw [hdata]
    exact Volume.grow_mono hold

/-- **Growing keeps the layout and the ledger**, and the next hint is a clear bit. -/
theorem Grown.laidOut {env : Env} {s s' : State} {parent parent' : Inode}
    (hs : LaidOut s) (hkept : GrowthKept env s parent)
    (h : Grown s parent (nextBitInUse env s (growthBit s.superblock parent)) parent' s') :
    LaidOut s' := by
  obtain ⟨-, hfree, hinUse⟩ := hkept
  obtain ⟨hinodeBit, -, hdata⟩ := h.records
  have hledger := h.ledger
  generalize nextBitInUse env s (growthBit s.superblock parent) = inUse at *
  have hhint : s'.superblock.firstFreeDataBit < s'.superblock.layout.dataBits ∧
      s'.volume.dataBit s'.superblock.firstFreeDataBit = false := by
    cases inUse with
    | true =>
      obtain ⟨c, hc, hne, hclear⟩ := hinUse rfl
      have hnext := h.hintNext rfl
      have hclear' : s'.volume.dataBit c = false := by
        rw [hdata]
        exact (Function.update_of_ne hne _ _).trans hclear
      have hsmall : c < 32768 := hs.dataBits ▸ hc
      refine ⟨?_, (hnext.least hc hsmall hclear').2.1⟩
      rw [h.layout, hs.dataBits]
      exact hnext.lt
    | false =>
      rw [h.hintKept rfl, h.layout]
      refine ⟨hs.owned.hint.1, ?_⟩
      rw [hdata]
      unfold Volume.grow
      rw [if_neg Bool.false_ne_true]
      split
      · next hlow =>
        exact (Function.update_of_ne (hfree rfl hlow).symm _ _).trans hs.owned.hint.2
      · exact hs.owned.hint.2
  refine hs.next h.layout (fun i hi => ?_) (fun b hb => ?_) (fun i b hb => ?_) ⟨?_, hhint⟩
  · rw [hinodeBit] at hi
    exact hs.live i hi
  · rw [hdata]
    exact Volume.grow_mono (hs.reserved b hb)
  · rw [hledger] at hb
    exact hs.placed i hb.1 b hb.2
  · rw [hledger]
    exact hs.owned.ledger.reserve _

/-- **Creating a file.** -/
theorem create_laidOut {env : Env} {s : State} {path : CString} (hs : LaidOut s)
    (h : CreateKept env s path) : LaidOut (fsCreateFile env s path).2 := by
  by_cases hrefused : CreateRefused env s path
  · rw [fsCreateFile_refused hrefused]
    exact hs
  obtain ⟨hg, hcap, hfree, hgrow⟩ := h.resolve_left hrefused
  obtain ⟨hname, hparent⟩ := not_or.mp hrefused
  generalize hp : parentInodeFromPath env s path = parent at *
  obtain ⟨hid, hplaced⟩ := hs.genuine hg
  have hcan : CanAllocate s := ⟨Nat.lt_of_lt_of_le hcap hs.inodeBits, hs.owned.hint.1,
    inodeFits hs.sound hcap⟩
  have halloc : Allocated env s (allocate env s) := allocate_allocated hs.sound hcan
  have hs1 : LaidOut (allocate env s) := halloc.laidOut hs hcap hfree
  have hcreated : Created env s parent (fsCreateFile env s path) := by
    refine fsCreateFile_created hs.sound hs.dataBits_le (Bool.not_eq_true _ ▸ hname) hp hparent
      hid hplaced hcan fun hneed => ?_
    rw [← halloc.layout]
    exact ⟨hs1.owned.hint.1, (hgrow hneed).zeroed⟩
  obtain ⟨-, -, parent', s2, hif, hsb, hrec⟩ := hcreated
  -- After growing, where the directory needs a block.
  have hs2 : LaidOut s2 ∧ ∃ taken,
      s2.volume.ledger = (allocate env s).volume.ledger.reserve taken := by
    cases hif with
    | fits => exact ⟨hs1, ∅, Ledger.ext rfl (Set.union_empty _).symm⟩
    | grown hneed hgrown => exact ⟨hgrown.laidOut hs1 (hgrow hneed), _, hgrown.ledger⟩
  obtain ⟨hlaid2, taken, hledger2⟩ := hs2
  have hsame := (sameExtents_enlarged env parent').trans hif.extents
  -- After the entry: what the directory holds, nobody else does.
  rw [← hsame.id] at hrec
  refine hlaid2.of_putInode hsb hrec fun _ b hb => ?_
  have hold : b ∈ s.volume.ledger.holds parent.id := by
    refine ⟨hg.1, ?_⟩
    rw [hg.2]
    exact (hsame.holds b).mp hb
  have hmarked := hs.owned.ledger.marked _ hold
  rw [hif.layout, halloc.layout, hledger2, halloc.ledger hcap, hsame.id]
  refine ⟨hs.placed _ hold.1 b hold.2, Or.inl (Or.inl hmarked), fun j hj hmem => ?_⟩
  rcases Ledger.mem_grant.mp hmem with ⟨-, rfl⟩ | ⟨-, hold'⟩
  · have hset : s.volume.dataBit s.superblock.firstFreeDataBit = true := hmarked
    rw [hs.owned.hint.2] at hset
    cases hset
  · exact hs.owned.ledger.disjoint _ _ hj b hold' hold

/-! ## 5. Deleting and renaming a file -/

/-- Records that stay as they are. -/
theorem LaidOut.of_records {s s' : State} (hs : LaidOut s) (hsb : s'.superblock = s.superblock)
    (hrec : SameRecords s.volume s'.volume) : LaidOut s' := by
  refine hs.next (by rw [hsb]) (fun i hi => ?_) (fun b hb => ?_) (fun i b hb => ?_) ⟨?_, ?_⟩
  · rw [hrec.inodeBit] at hi
    exact hs.live i hi
  · rw [hrec.dataBit]
    exact hs.reserved b hb
  · rw [hrec.ledger] at hb
    exact hs.placed i hb.1 b hb.2
  · rw [hrec.ledger]
    exact hs.owned.ledger
  · rw [hsb, hrec.dataBit]
    exact hs.owned.hint

/-- **Releasing** a live inode takes its blocks back. -/
theorem Released.ledger {s s' : State} {file : Inode} (hg : Genuine s file)
    (h : Released s s' file) : s'.volume.ledger = s.volume.ledger.release file.id := by
  refine Ledger.ext (funext fun i => Set.ext fun b => ?_) (Set.ext fun b => ?_)
  · rw [Ledger.mem_release]
    show s'.volume.inodeBit i = true ∧ (s'.volume.inode i).Holds b ↔ _
    rw [h.inodeBit, h.inode]
    by_cases hi : i = file.id
    · subst hi
      rw [Function.update_self]
      simp
    · rw [Function.update_of_ne hi, Function.update_of_ne hi]
      simp only [hi, ne_eq, not_false_eq_true, true_and]
      rfl
  · show s'.volume.dataBit b = true ↔
      s.volume.dataBit b = true ∧ ¬ (s.volume.inodeBit file.id = true ∧
        (s.volume.inode file.id).Holds b)
    rw [h.dataBit b, hg.1, hg.2]
    simp only [true_and]

theorem Released.laidOut {s s' : State} {file : Inode} (hs : LaidOut s) (hg : Genuine s file)
    (h : Released s s' file) : LaidOut s' := by
  have hledger := h.ledger hg
  refine hs.next (by rw [h.superblock]) (fun i hi => ?_) (fun b hb => ?_) (fun i b hb => ?_)
    ⟨?_, ?_⟩
  · rw [h.inodeBit] at hi
    by_cases heq : i = file.id
    · exact heq ▸ hs.live _ hg.1
    · rw [Function.update_of_ne heq] at hi
      exact hs.live i hi
  · refine (h.dataBit b).mpr ⟨hs.reserved b hb, fun hold => ?_⟩
    exact absurd ((hs.genuine hg).2 b hold).1 (Nat.not_le.mpr hb)
  · rw [hledger] at hb
    have hold := (Ledger.mem_release.mp hb).2
    exact hs.placed i hold.1 b hold.2
  · rw [hledger]
    exact hs.owned.ledger.release
  · rw [h.superblock]
    refine ⟨hs.owned.hint.1, ?_⟩
    rw [← Bool.not_eq_true, h.dataBit]
    rintro ⟨hset, -⟩
    rw [hs.owned.hint.2] at hset
    cases hset

/-- **Deleting a file.** -/
theorem delete_laidOut {env : Env} {s : State} {path : CString} (hs : LaidOut s)
    (h : DeleteKept env s path) : LaidOut (fsDeleteFile env s path).2 := by
  by_cases hrefused : DeleteRefused env s path
  · rw [fsDeleteFile_refused hrefused]
    exact hs
  obtain ⟨hfile, hdir, hkeep⟩ := h.resolve_left hrefused
  rw [fsDeleteFile_eq hrefused]
  generalize inodeFromPath env s path = file at *
  generalize parentInodeFromPath env s path = parent at *
  obtain ⟨hid, hplaced⟩ := hs.genuine hfile
  obtain ⟨hid', hplaced'⟩ := hs.genuine hdir
  have hrel : Released s (releaseInode s file) file := releaseInode_released hs.sound
    hs.dataBits_le hid (Nat.lt_of_lt_of_le hid hs.inodeBits) hplaced
  have hs1 : LaidOut (releaseInode s file) := hrel.laidOut hs hfile
  generalize releaseInode s file = s1 at *
  rw [← hrel.superblock] at hid' hplaced'
  obtain ⟨hsb, hinodeBit, hinode, hdata⟩ := @deleteEntry_deleted env s1 parent file.id hs1.sound
    hs1.dataBits_le hid' hplaced'
  generalize (deleteEntry env s1 parent file.id).2 = s2 at *
  -- No bit is cleared that was set.
  have hkept : s2.volume.dataBit = s1.volume.dataBit := by
    rcases hdata with hsame | ⟨b, hold, hreleases, hcleared⟩
    · exact hsame
    · have heq := hkeep.resolve_right (not_not_intro hreleases)
      have hclear : s1.volume.dataBit b = false := by
        rw [← Bool.not_eq_true, hrel.dataBit]
        rintro ⟨-, hnot⟩
        have hsame : parent = file := by
          rw [← hdir.2, heq, hfile.2]
        exact hnot (hsame ▸ hold)
      rw [hcleared]
      exact Function.update_eq_self_iff.mpr hclear.symm
  rcases hinode with hsame | hput
  · exact hs1.of_records hsb ⟨hinodeBit, hkept, hsame⟩
  have hext := sameExtents_reduced parent
  refine @LaidOut.of_putInode s1 s2 (reduced parent) hs1 hsb ⟨hinodeBit, hkept, ?_⟩
    fun hlive b hb => ?_
  · rw [hput, hext.id]
    rfl
  · rw [hext.id] at hlive ⊢
    have hne : parent.id ≠ file.id := by
      intro heq
      rw [hrel.inodeBit, heq, Function.update_self] at hlive
      cases hlive
    have hold : b ∈ s1.volume.ledger.holds parent.id := by
      refine ⟨hlive, ?_⟩
      rw [hrel.inode, Function.update_of_ne hne, hdir.2]
      exact (hext.holds b).mp hb
    exact ⟨hs1.placed _ hold.1 b hold.2, hs1.owned.ledger.marked _ hold, fun j hj hmem =>
      hs1.owned.ledger.disjoint _ _ hj b hmem hold⟩

/-- **Renaming a file.** -/
theorem rename_laidOut {env : Env} {s : State} {path newName : CString} (hs : LaidOut s)
    (h : RenameKept env s path) : LaidOut (fsRenameFile env s path newName).2 := by
  by_cases hrefused : RenameRefused env s path
  · rw [fsRenameFile_refused hrefused]
    exact hs
  have hg : Genuine s (parentInodeFromPath env s path) := h.resolve_left hrefused
  obtain ⟨hsb, hrec⟩ := @fsRenameFile_records env s path newName hs.sound hs.dataBits_le
    (hs.genuine hg).2
  exact hs.of_records hsb hrec

/-! ## 6. Runs -/

/-- A call and the state after it. -/
def FileStep (s : State) (call : FileCall) (s' : State) : Prop := s' = call.after s

/-- **One call** keeps the layout and the ledger. -/
theorem laidOut_step {s : State} {call : FileCall} (hs : LaidOut s) (hkept : Kept s call) :
    LaidOut (call.after s) := by
  cases call with
  | create env path => exact create_laidOut hs hkept
  | delete env path => exact delete_laidOut hs hkept
  | rename env path newName => exact rename_laidOut hs hkept

/-- **Ownership along runs.** -/
theorem ownership_kept {s₀ s : State} (h₀ : LaidOut s₀) (hrun : Reach FileStep Kept s₀ s) :
    BlocksOwned s := by
  have hlaid : LaidOut s := hrun.invariant h₀ fun t call t' ht hkept (hstep : t' = call.after t) =>
    hstep ▸ laidOut_step ht hkept
  exact hlaid.owned

/-! ## 7. The last entry of a block

In a root directory with 63 files the last entry is alone in the second block. -/

theorem emptyFiles_laidOut : LaidOut (emptyFiles 63) :=
  (emptyFiles_built (by decide)).laidOut

/-- Nothing but zeros behind the buffers. -/
def quietEnv : Env := ⟨fun _ => Packed.zero, fun _ => 0, fun _ => 0, fun _ => 0, fun _ => 0,
  fun _ => 0, 0⟩

/-- `/mc`, the name of the last entry. -/
def lastPath : CString where
  chars := [slash, 109, 99]
  nonzero := by decide +kernel
  after := fun _ => 0

/-- `/new`. -/
def newPath : CString where
  chars := [slash, 110, 101, 119]
  nonzero := by decide +kernel
  after := fun _ => 0

/-- **Ownership is lost** when the last entry of a block is deleted: the bit of the block is
cleared, and the directory still has the block. -/
theorem ownership_lost : ¬ ∀ s₀ s : State, LaidOut s₀ →
    Reach FileStep (fun _ _ => True) s₀ s → BlocksOwned s := by
  intro hall
  have howned := hall (emptyFiles 63) _ emptyFiles_laidOut
    (.tail .refl trivial (rfl : FileStep (emptyFiles 63) (.delete quietEnv lastPath) _))
  obtain ⟨s, hs⟩ : ∃ s, s = FileCall.after (emptyFiles 63) (.delete quietEnv lastPath) := ⟨_, rfl⟩
  have hrecords : s.volume.inodeBit 1 = true ∧ (s.volume.inode 1).extentFirst 0 = 6 ∧
      (s.volume.inode 1).extentLength 0 = 2 ∧ s.volume.dataBit 7 = false := by
    rw [hs]
    decide +kernel
  obtain ⟨hbit, hfirst, hlength, hclear⟩ := hrecords
  rw [← hs] at howned
  have hset : s.volume.dataBit 7 = true :=
    howned.ledger.marked 1 ⟨hbit, 0, by decide, by omega, by omega⟩
  rw [hclear] at hset
  cases hset

/-- The directory of `/new` is the root directory as the disk has it. -/
theorem newPath_parent {numFiles : Nat}
    (hfits : builtEndBlock numFiles (builtInodeBlocks numFiles) ≤ imageBlocks) :
    parentInodeFromPath quietEnv (emptyFiles numFiles) newPath
        = emptyFilesInode numFiles 1 ∧
      Genuine (emptyFiles numFiles) (emptyFilesInode numFiles 1) := by
  have hbuilt := emptyFiles_built hfits
  have hone : 1 < numFiles + 2 := by omega
  have hinode : (emptyFiles numFiles).volume.inode 1 = emptyFilesInode numFiles 1 :=
    emptyFiles_inode hfits hone
  constructor
  · have hslash : slash ∈ newPath.chars := by decide
    have hcut : newPath.cut.chars.length = 0 := by decide +kernel
    unfold parentInodeFromPath inodeFromId
    rw [if_neg (not_not_intro hslash), if_pos hcut, if_neg (by decide), ← hinode]
    refine (volume_loadInode hbuilt.sound ?_).symm
    rw [hbuilt.fields.1]
    exact Nat.lt_of_lt_of_le hone hbuilt.bounds.1
  · have hid : (emptyFilesInode numFiles 1).id = 1 := by
      unfold emptyFilesInode Inode.id
      simp only [if_neg (by decide : ¬ 1 = 0), if_true]
      unfold Inode.setExtentLength Inode.setExtentFirst Inode.setSizeSectors Inode.setSizeBytes
        Inode.setType Inode.setId
      rw [Packed.get32_set32_ne (by decide), Packed.get32_set32_ne (by decide),
        Packed.get32_set32_ne (by decide), Packed.get32_set32_ne (by decide),
        Packed.get32_set8_ne (by decide)]
      exact Packed.get32_set32 _ (by decide)
    unfold Genuine
    rw [hid]
    exact ⟨(hbuilt.inodeBit 1).mpr hone, hinode⟩

/-- The theorem at a run of one creation. -/
theorem ownership_kept_first :
    BlocksOwned (FileCall.after (emptyFiles 63) (.create quietEnv newPath)) := by
  obtain ⟨hparent, hgenuine⟩ := @newPath_parent 63 (by decide)
  have hkept : Kept (emptyFiles 63) (.create quietEnv newPath) := by
    show CreateKept quietEnv (emptyFiles 63) newPath
    unfold CreateKept
    rw [hparent]
    refine Or.inr ⟨hgenuine, by decide +kernel, ⟨9, by decide +kernel⟩, fun hneed => ?_⟩
    have hfits : needsBlock (emptyFilesInode 63 1) = false := by decide +kernel
    rw [hfits] at hneed
    cases hneed
  exact ownership_kept emptyFiles_laidOut (.tail .refl hkept rfl)

end AmateurOs.Fs
