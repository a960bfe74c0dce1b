/-
# What deleting and renaming do to the records

`fs_delete_file` first releases the inode (`releaseInode`: the bits of its blocks, its record and
its own bit are cleared) and then removes the entry (`deleteEntry`).  When the removal makes the
size of the directory a multiple of the block size and the block with the entry looks clear, the
bit of that block is cleared too, and the extents of the directory still name it
(`ReleasesBlock`).  `fs_rename_file` changes an entry in place.
-/
import AmateurOs.Fs.Effects

namespace AmateurOs.Fs

open AmateurOs.Lib

/-! ## 1. The blocks of the file -/

/-- The bits of the blocks are cleared; other blocks keep what they hold. -/
structure Wiped (v v' : Volume) (blocks : List Nat) : Prop where
  inodeBit : v'.inodeBit = v.inodeBit
  inode : v'.inode = v.inode
  dataBit : ∀ b, v'.dataBit b = (v.dataBit b && decide (b ∉ blocks))
  content : ∀ b ∉ blocks, v'.content b = v.content b

section

variable {sb : Superblock} (hl : sb.layout.Sound) (hbits : sb.layout.dataBits ≤ diskBlocks)

include hl hbits

/-- One block written over and its bit cleared. -/
theorem volume_wipeBlock {st : Bytes × Bytes} {b : Nat}
    (hb : sb.layout.dataArea ≤ b ∧ b < sb.layout.dataBits) :
    volume sb.layout (wipeBlock sb st b).1
      = ((volume sb.layout st.1).putBlock b st.2).putDataBit b false := by
  unfold wipeBlock
  rw [volume_clearDataBit hl hb.2,
    volume_writeBlock hl (Or.inr hb.1) (Nat.lt_of_lt_of_le hb.2 hbits)]

/-- **The loop over the blocks of the file.** -/
theorem wiped_foldl : ∀ (blocks : List Nat) (st : Bytes × Bytes),
    (∀ b ∈ blocks, sb.layout.dataArea ≤ b ∧ b < sb.layout.dataBits) →
    Wiped (volume sb.layout st.1) (volume sb.layout (blocks.foldl (wipeBlock sb) st).1)
      blocks := by
  intro blocks
  induction blocks with
  | nil =>
    intro st _
    exact ⟨rfl, rfl, fun b => by simp, fun _ _ => rfl⟩
  | cons a blocks ih =>
    intro st hin
    have hone := @volume_wipeBlock sb hl hbits st a (hin a List.mem_cons_self)
    obtain ⟨hinodeBit, hinode, hdata, hcontent⟩ := ih (wipeBlock sb st a) fun b hb =>
      hin b (List.mem_cons_of_mem a hb)
    rw [hone] at hinodeBit hinode hdata hcontent
    refine ⟨hinodeBit, hinode, fun b => ?_, fun b hb => ?_⟩
    · rw [List.foldl_cons, hdata b]
      show (Function.update (volume sb.layout st.1).dataBit a false b && _) = _
      by_cases hab : b = a
      · subst hab
        simp
      · simp [hab]
    · have hne : b ≠ a := fun heq => hb (heq ▸ List.mem_cons_self)
      have hnot : b ∉ blocks := fun hin => hb (List.mem_cons_of_mem a hin)
      rw [List.foldl_cons, hcontent b hnot]
      exact Function.update_of_ne hne _ _

end

/-- **The inode is released.** -/
structure Released (s s' : State) (file : Inode) : Prop where
  superblock : s'.superblock = s.superblock
  rootInode : s'.rootInode = s.rootInode
  currentDirInode : s'.currentDirInode = s.currentDirInode
  inodeBit : s'.volume.inodeBit = Function.update s.volume.inodeBit file.id false
  inode : s'.volume.inode = Function.update s.volume.inode file.id noInode
  dataBit : ∀ b, s'.volume.dataBit b = true ↔ s.volume.dataBit b = true ∧ ¬ file.Holds b
  content : ∀ b, ¬ file.Holds b → s'.volume.content b = s.volume.content b

/-- The blocks are wiped, and then the record and its bit are cleared. -/
theorem volume_releaseInode {s : State} {inode : Inode} (hl : s.superblock.layout.Sound)
    (hcap : inode.id < s.superblock.layout.capacity)
    (hbit : inode.id < s.superblock.layout.inodeBits) : (releaseInode s inode).volume
      = ((volume s.superblock.layout ((indexedBlocks s.superblock inode).foldl
        (wipeBlock s.superblock) (s.disk, fun _ => 0)).1).putInode inode.id noInode).putInodeBit
          inode.id false := by
  show volume s.superblock.layout (releaseInode s inode).disk = _
  unfold releaseInode
  rw [volume_clearInodeBit hl hbit, volume_storeInode hl hcap]

theorem releaseInode_released {s : State} {inode : Inode} (hl : s.superblock.layout.Sound)
    (hbits : s.superblock.layout.dataBits ≤ diskBlocks)
    (hcap : inode.id < s.superblock.layout.capacity)
    (hbit : inode.id < s.superblock.layout.inodeBits)
    (hplaced : inode.Placed s.superblock.layout) :
    Released s (releaseInode s inode) inode := by
  have hmem : ∀ b, b ∈ indexedBlocks s.superblock inode ↔ inode.Holds b := fun _ =>
    mem_indexedBlocks hl.extents hplaced hbits
  obtain ⟨hinodeBit, hinode, hdata, hcontent⟩ := wiped_foldl hl hbits
    (indexedBlocks s.superblock inode) (s.disk, fun _ => 0) fun b hb => hplaced b ((hmem b).mp hb)
  have hvol := volume_releaseInode hl hcap hbit
  refine ⟨rfl, rfl, rfl, ?_, ?_, fun b => ?_, fun b hb => ?_⟩
  · rw [hvol]
    exact congrArg (Function.update · inode.id false) hinodeBit
  · rw [hvol]
    exact congrArg (Function.update · inode.id noInode) hinode
  · rw [hvol, ← hmem b]
    show (volume s.superblock.layout _).dataBit b = true ↔ _
    rw [hdata b, Bool.and_eq_true, decide_eq_true_iff]
    rfl
  · rw [hvol]
    exact hcontent b fun hin => hb ((hmem b).mp hin)

/-- **The first block of the file** holds zeros afterwards, if it is not among the others. -/
theorem releaseInode_zeros {s : State} {inode : Inode} (hl : s.superblock.layout.Sound)
    (hbits : s.superblock.layout.dataBits ≤ diskBlocks)
    (hcap : inode.id < s.superblock.layout.capacity)
    (hbit : inode.id < s.superblock.layout.inodeBits)
    (hplaced : inode.Placed s.superblock.layout) {b : Nat} (hb : inode.Holds b)
    (hfirst : b ∉ (indexedBlocks s.superblock inode).tail) (p : Nat) :
    (releaseInode s inode).volume.content b p = 0 := by
  have hmem : ∀ b, b ∈ indexedBlocks s.superblock inode ↔ inode.Holds b := fun _ =>
    mem_indexedBlocks hl.extents hplaced hbits
  rw [volume_releaseInode hl hcap hbit]
  show (volume s.superblock.layout _).content b p = 0
  have hin := (hmem b).mpr hb
  have hall : ∀ b ∈ indexedBlocks s.superblock inode,
      s.superblock.layout.dataArea ≤ b ∧ b < s.superblock.layout.dataBits := fun b hb =>
    hplaced b ((hmem b).mp hb)
  cases hblocks : indexedBlocks s.superblock inode with
  | nil =>
    rw [hblocks] at hin
    exact absurd hin List.not_mem_nil
  | cons a rest =>
    rw [hblocks] at hin hfirst hall
    obtain rfl : b = a := (List.mem_cons.mp hin).resolve_right hfirst
    obtain ⟨-, -, -, hcontent⟩ := wiped_foldl hl hbits rest
      (wipeBlock s.superblock (s.disk, fun _ => 0) b) fun c hc => hall c (List.mem_cons_of_mem _ hc)
    rw [List.foldl_cons, hcontent b hfirst, volume_wipeBlock hl hbits (hall b List.mem_cons_self)]
    have hput : ∀ v : Volume, (v.putBlock b fun _ => 0).content b p = 0 := by
      intro v
      show Function.update v.content b (fun p => if p < 4096 then (0 : UInt8) else 0) b p = 0
      rw [Function.update_self]
      exact ite_self _
    exact hput _

/-! ## 2. The entry -/

theorem findEntry_mem {env : Env} {s : State} {directory : Inode} {id block count : Nat}
    (h : findEntry env s directory id = some (block, count)) :
    block ∈ indexedBlocks s.superblock directory := by
  obtain ⟨b, hb, hfound⟩ := List.exists_of_findSome?_eq_some h
  simp only at hfound
  split at hfound
  · have heq := Option.some.inj hfound
    exact (Prod.mk.inj heq).1 ▸ hb
  · cases hfound

/-- The bit of the block with the entry is cleared. -/
def ReleasesBlock (env : Env) (s : State) (parent : Inode) (id : Nat) : Prop :=
  ∃ block count, findEntry env s parent id = some (block, count) ∧
    (reduced parent).sizeBytes % fsBlockSize = 0 ∧
    isClear (clearEntry (readBlock s.disk env.afterTempBlock block) count) = true

/-- **The volume without the entry.** -/
theorem volume_deleteEntry {env : Env} {s : State} {parent : Inode} {id b count : Nat}
    (hl : s.superblock.layout.Sound) (hbits : s.superblock.layout.dataBits ≤ diskBlocks)
    (hcap : parent.id < s.superblock.layout.capacity)
    (hplaced : parent.Placed s.superblock.layout)
    (hfind : findEntry env s parent id = some (b, count)) :
    parent.Holds b ∧ ∃ value : Bool,
      (value = s.volume.dataBit b ∨ value = false ∧ ReleasesBlock env s parent id) ∧
      (deleteEntry env s parent id).2.volume =
        ((s.volume.putBlock b (clearEntry (readBlock s.disk env.afterTempBlock b) count)).putInode
          parent.id (reduced parent)).putDataBit b value := by
  have hold := (mem_indexedBlocks hl.extents hplaced hbits).mp (findEntry_mem hfind)
  have hb := hplaced b hold
  have hid : (reduced parent).id = parent.id := (sameExtents_reduced parent).id
  unfold deleteEntry
  rw [hfind]
  simp only []
  generalize htemp : clearEntry (readBlock s.disk env.afterTempBlock b) count = tempBlock
  have hstore : volume s.superblock.layout (storeInode (writeBlock s.disk b tempBlock)
      s.superblock (reduced parent).id (reduced parent)) =
        (s.volume.putBlock b tempBlock).putInode parent.id (reduced parent) := by
    rw [volume_storeInode hl (by rw [hid]; exact hcap), hid,
      volume_writeBlock hl (Or.inr hb.1) (Nat.lt_of_lt_of_le hb.2 hbits)]
    rfl
  refine ⟨hold, ?_⟩
  by_cases hrel : (reduced parent).sizeBytes % fsBlockSize = 0 ∧ isClear tempBlock = true
  · rw [if_pos hrel]
    refine ⟨false, Or.inr ⟨rfl, b, count, hfind, hrel.1, htemp ▸ hrel.2⟩, ?_⟩
    rw [← hstore]
    exact volume_clearDataBit hl hb.2
  · rw [if_neg hrel]
    refine ⟨s.volume.dataBit b, Or.inl rfl, ?_⟩
    have hkept : ((s.volume.putBlock b tempBlock).putInode parent.id (reduced parent)).putDataBit b
        (s.volume.dataBit b) =
          (s.volume.putBlock b tempBlock).putInode parent.id (reduced parent) := by
      unfold Volume.putDataBit Volume.putInode Volume.putBlock
      rw [Function.update_eq_self]
    rw [hkept]
    exact hstore

/-- **The entry is removed.** -/
structure EntryDeleted (env : Env) (s s' : State) (parent : Inode) (id : Nat) : Prop where
  superblock : s'.superblock = s.superblock
  inodeBit : s'.volume.inodeBit = s.volume.inodeBit
  inode : s'.volume.inode = s.volume.inode ∨
    s'.volume.inode = Function.update s.volume.inode parent.id (reduced parent)
  dataBit : s'.volume.dataBit = s.volume.dataBit ∨ ∃ b, parent.Holds b ∧
    ReleasesBlock env s parent id ∧ s'.volume.dataBit = Function.update s.volume.dataBit b false

theorem deleteEntry_deleted {env : Env} {s : State} {parent : Inode} {id : Nat}
    (hl : s.superblock.layout.Sound) (hbits : s.superblock.layout.dataBits ≤ diskBlocks)
    (hcap : parent.id < s.superblock.layout.capacity)
    (hplaced : parent.Placed s.superblock.layout) :
    EntryDeleted env s (deleteEntry env s parent id).2 parent id := by
  have hsuperblock : (deleteEntry env s parent id).2.superblock = s.superblock := by
    unfold deleteEntry
    split
    · rfl
    · simp only []
      split <;> rfl
  cases hfind : findEntry env s parent id with
  | none =>
    unfold deleteEntry
    rw [hfind]
    exact ⟨rfl, rfl, Or.inl rfl, Or.inl rfl⟩
  | some found =>
    obtain ⟨b, count⟩ := found
    obtain ⟨hold, value, hvalue, hvol⟩ := volume_deleteEntry hl hbits hcap hplaced hfind
    refine ⟨hsuperblock, ?_, Or.inr ?_, ?_⟩
    · rw [hvol]
      rfl
    · rw [hvol]
      rfl
    · rw [hvol]
      rcases hvalue with rfl | ⟨rfl, hreleases⟩
      · exact Or.inl (Function.update_eq_self b _)
      · exact Or.inr ⟨b, hold, hreleases, rfl⟩

/-! ## 3. The calls -/

/-- `fs_delete_file` does nothing: a special path, no file or no directory, a directory, or a
file whose count says that it is open elsewhere. -/
def DeleteRefused (env : Env) (s : State) (path : CString) : Prop :=
  specialPath path = true ∨ (inodeFromPath env s path).id = 0 ∨
    (parentInodeFromPath env s path).id = 0 ∨ (inodeFromPath env s path).type ≠ filetypeFile ∨
    (inodeFromPath env s path).refCount > 1

theorem fsDeleteFile_refused {env : Env} {s : State} {path : CString}
    (h : DeleteRefused env s path) : (fsDeleteFile env s path).2 = s := by
  unfold fsDeleteFile
  by_cases hspecial : specialPath path = true
  · rw [if_pos hspecial]
  rw [if_neg hspecial]
  simp only []
  by_cases hnone : (inodeFromPath env s path).id = 0 ∨ (parentInodeFromPath env s path).id = 0
  · rw [if_pos hnone]
  rw [if_neg hnone]
  by_cases htype : (inodeFromPath env s path).type ≠ filetypeFile
  · rw [if_pos htype]
  rw [if_neg htype]
  have hcount : (inodeFromPath env s path).refCount > 1 := by
    rcases h with h | h | h | h | h
    · exact absurd h hspecial
    · exact absurd (Or.inl h) hnone
    · exact absurd (Or.inr h) hnone
    · exact absurd h htype
    · exact h
  rw [if_pos hcount]

theorem fsDeleteFile_eq {env : Env} {s : State} {path : CString}
    (h : ¬ DeleteRefused env s path) : fsDeleteFile env s path =
      deleteEntry env (releaseInode s (inodeFromPath env s path))
        (parentInodeFromPath env s path) (inodeFromPath env s path).id := by
  unfold DeleteRefused at h
  push Not at h
  obtain ⟨hspecial, hinode, hparent, htype, hcount⟩ := h
  unfold fsDeleteFile
  rw [if_neg hspecial]
  simp only []
  rw [if_neg (not_or.mpr ⟨hinode, hparent⟩), if_neg (not_not_intro htype),
    if_neg (Nat.not_lt.mpr hcount)]

/-- `fs_rename_file` does nothing: a special path, no file or no directory. -/
def RenameRefused (env : Env) (s : State) (path : CString) : Prop :=
  specialPath path = true ∨ (inodeFromPath env s path).id = 0 ∨
    (parentInodeFromPath env s path).id = 0

/-- **What renaming does**: nothing, or the entry that its number finds is written again. -/
theorem fsRenameFile_cases (env : Env) (s : State) (path newName : CString) :
    fsRenameFile env s path newName = (false, s) ∨
    ∃ b count, ¬ RenameRefused env s path ∧
      findEntry env s (parentInodeFromPath env s path) (inodeFromPath env s path).id
        = some (b, count) ∧
      fsRenameFile env s path newName = (true, { s with
        disk := writeBlock s.disk b (writeEntry (clearEntry (readBlock s.disk env.afterTempBlock b)
          count) count (inodeFromPath env s path).id newName.chars) }) := by
  unfold fsRenameFile RenameRefused
  by_cases hspecial : specialPath path = true
  · exact Or.inl (if_pos hspecial)
  rw [if_neg hspecial]
  simp only []
  by_cases hinode : (inodeFromPath env s path).id = 0
  · exact Or.inl (if_pos hinode)
  rw [if_neg hinode]
  by_cases hparent : (parentInodeFromPath env s path).id = 0
  · exact Or.inl (if_pos hparent)
  rw [if_neg hparent]
  cases hfind : findEntry env s (parentInodeFromPath env s path) (inodeFromPath env s path).id with
  | none => exact Or.inl rfl
  | some found =>
    exact Or.inr ⟨found.1, found.2, not_or.mpr ⟨hspecial, not_or.mpr ⟨hinode, hparent⟩⟩, rfl, rfl⟩

theorem fsRenameFile_refused {env : Env} {s : State} {path newName : CString}
    (h : RenameRefused env s path) : (fsRenameFile env s path newName).2 = s := by
  rcases fsRenameFile_cases env s path newName with hsame | ⟨-, -, hgo, -⟩
  · rw [hsame]
  · exact absurd h hgo

/-- **Renaming** changes a block of the directory at most. -/
theorem fsRenameFile_records {env : Env} {s : State} {path newName : CString}
    (hl : s.superblock.layout.Sound) (hbits : s.superblock.layout.dataBits ≤ diskBlocks)
    (hplaced : (parentInodeFromPath env s path).Placed s.superblock.layout) :
    (fsRenameFile env s path newName).2.superblock = s.superblock ∧
      SameRecords s.volume (fsRenameFile env s path newName).2.volume := by
  rcases fsRenameFile_cases env s path newName with hsame | ⟨b, count, -, hfind, hafter⟩
  · rw [hsame]
    exact ⟨rfl, .refl _⟩
  · have hold := (mem_indexedBlocks hl.extents hplaced hbits).mp (findEntry_mem hfind)
    rw [hafter]
    exact ⟨rfl, sameRecords_writeBlock hl hbits (hplaced b hold)⟩

end AmateurOs.Fs
