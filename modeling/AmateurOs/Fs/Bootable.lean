/-
# Images that boot

An image of `make_disk` with a boot sector, whose root directory has up to 64 entries: `.`, `..`
and empty files (`bootable`).  It is the image `emptyFiles` but for block 0, so its superblock, its
bitmaps and its inodes are those of `Built`; the entries are read off its one block of the root
directory, and the disk is well formed (`bootable_wellFormed`).
-/
import AmateurOs.Fs.Tree

namespace AmateurOs.Fs

open AmateurOs.Lib

/-! ## 1. The image -/

/-- The last bytes of the boot sector. -/
def bootBlock : Bytes := fun p => if p = 510 then 0x55 else if p = 511 then 0xAA else 0

/-- An image with a boot sector and a root directory of empty files. -/
def bootable (numFiles : Nat) : State :=
  { emptyFiles numFiles with disk := writeBlock (emptyFiles numFiles).disk 0 bootBlock }

section

variable {numFiles : Nat} (hfew : numFiles ≤ 62)

include hfew

/-- The inodes and the entries fit in one block each. -/
theorem bootable_sizes : builtInodeBlocks numFiles = 1 ∧ builtFirstBlock numFiles = 5 ∧
    builtEndBlock numFiles (builtInodeBlocks numFiles) = 6 ∧
    builtEndBlock numFiles (builtInodeBlocks numFiles) ≤ imageBlocks := by
  have hone : builtInodeBlocks numFiles = 1 := by
    have hdiv : builtInodeBlocks numFiles = ((numFiles + 2) * 64 + 4095) / 4096 :=
      bytesToBlocks_eq _
    omega
  have himage : imageBlocks = 360 := by decide
  have hfirst : builtFirstBlock numFiles = 5 := by
    unfold builtFirstBlock
    rw [hone]
  have hend : builtEndBlock numFiles (builtInodeBlocks numFiles) = 6 := by
    unfold builtEndBlock
    rw [hfirst, hone]
  exact ⟨hone, hfirst, hend, by rw [hend, himage]; decide⟩

theorem bootable_layout : (bootable numFiles).superblock.layout = ⟨2, 1, 3, 1, 4, 1, 5, 4⟩ := by
  obtain ⟨hone, hfirst, -, hfits⟩ := bootable_sizes hfew
  have hlayout := emptyFiles_layout hfits
  rw [hone, hfirst] at hlayout
  exact hlayout

theorem bootable_volume :
    (bootable numFiles).volume = (emptyFiles numFiles).volume.putBlock 0 bootBlock :=
  volume_writeBlock (emptyFiles_built (bootable_sizes hfew).2.2.2).sound (Or.inl rfl) (by decide)

theorem bootable_built : Built numFiles (builtInodeBlocks numFiles) (bootable numFiles) := by
  obtain ⟨hroot, hfits, hsuper, hinodeBit, hdataBit, hextents, hdisjoint⟩ :=
    emptyFiles_built (bootable_sizes hfew).2.2.2
  have hvol := bootable_volume hfew
  have hinodeBits : (bootable numFiles).volume.inodeBit = (emptyFiles numFiles).volume.inodeBit :=
    (congrArg Volume.inodeBit hvol).trans rfl
  have hdataBits : (bootable numFiles).volume.dataBit = (emptyFiles numFiles).volume.dataBit :=
    (congrArg Volume.dataBit hvol).trans rfl
  have hinodes : (bootable numFiles).volume.inode = (emptyFiles numFiles).volume.inode :=
    (congrArg Volume.inode hvol).trans rfl
  refine ⟨hroot, hfits, hsuper, ?_, ?_, ?_, ?_⟩
  · rw [hinodeBits]
    exact hinodeBit
  · rw [hdataBits]
    exact hdataBit
  · rw [hinodes]
    exact hextents
  · rw [hinodes]
    exact hdisjoint

/-- The inodes. -/
theorem bootable_inode {i : Nat} (hi : i < 64) : (bootable numFiles).volume.inode i =
    if i < numFiles + 2 then emptyFilesInode numFiles i else noInode := by
  have hvol := congrFun (congrArg Volume.inode (bootable_volume hfew)) i
  obtain ⟨hone, hfirst, -, hfits⟩ := bootable_sizes hfew
  rw [hvol]
  show (emptyFiles numFiles).volume.inode i = _
  split
  · next hlt => exact emptyFiles_inode hfits hlt
  · next hge =>
    unfold State.volume volume
    rw [emptyFiles_layout hfits, hone, hfirst]
    have hin : i < Layout.capacity ⟨2, 1, 3, 1, 4, 1, 5, 4⟩ := hi
    simp only [if_pos hin]
    funext k
    have hk := k.isLt
    show emptyFilesDisk numFiles (4 * 4096 + i * 64 + k.val) = 0
    unfold emptyFilesDisk
    simp only [hfirst]
    rw [if_neg (by omega), if_neg (by omega), if_neg (by omega), if_neg (by omega)]

/-- The block of the root directory. -/
theorem bootable_content {p : Nat} (hp : p < 4096) : (bootable numFiles).volume.content 5 p =
    if p < (numFiles + 2) * 64 then emptyFilesEntry (p / 64) (p % 64) else 0 := by
  have hvol := congrFun (congrArg Volume.content (bootable_volume hfew)) 5
  obtain ⟨-, hfirst, -, hfits⟩ := bootable_sizes hfew
  have hkept : (bootable numFiles).volume.content 5 = (emptyFiles numFiles).volume.content 5 := by
    rw [hvol]
    rfl
  have hshown : (emptyFiles numFiles).superblock.layout.Shown 5 := by
    rw [emptyFiles_layout hfits, hfirst]
    exact Or.inr (Nat.le_refl 5)
  have hread : (emptyFiles numFiles).volume.content 5 p =
      emptyFilesDisk numFiles (5 * 4096 + p) := if_pos ⟨hshown, hp⟩
  rw [hkept, hread]
  unfold emptyFilesDisk
  simp only [hfirst]
  rw [if_neg (by omega), if_neg (by omega), if_neg (by omega)]
  have hoff : 5 * 4096 + p - 5 * 4096 = p := by omega
  have hmod : (5 * 4096 + p) % 64 = p % 64 := by omega
  rw [hoff, hmod]
  exact if_congr (by omega) rfl rfl

/-- Its entries. -/
theorem bootable_entry {c : Nat} (hc : c < dirEntriesPerBlock) :
    entryId ((bootable numFiles).volume.content 5) c = (if c < numFiles + 2 then max 1 c else 0) ∧
      ∀ k < 60, entryName ((bootable numFiles).volume.content 5) c k =
        if c < numFiles + 2 then emptyFilesEntry c (4 + k) else 0 := by
  unfold dirEntriesPerBlock at hc
  have hbyte : ∀ k < 64, (bootable numFiles).volume.content 5 (c * 64 + k) =
      if c < numFiles + 2 then emptyFilesEntry c k else 0 := by
    intro k hk
    rw [bootable_content hfew (by omega), (by omega : (c * 64 + k) / 64 = c),
      (by omega : (c * 64 + k) % 64 = k)]
    exact if_congr (by omega) rfl rfl
  constructor
  · have hword : ∀ k < 4, (bootable numFiles).volume.content 5 (c * dirEntrySize + k) =
        (if c < numFiles + 2 then wordByte (max 1 c) else fun _ => 0) (0 + k) := by
      intro k hk
      refine (hbyte k (by omega)).trans ?_
      rw [Nat.zero_add]
      split
      · exact if_pos hk
      · rfl
    unfold entryId
    rw [le32_congr hword]
    split
    · rw [le32_wordByte]
      exact u32_eq (by omega)
    · rfl
  · intro k hk
    unfold entryName dirEntrySize
    rw [slice_apply, Nat.add_assoc]
    exact hbyte (4 + k) (by omega)

/-! ## 2. Inodes -/

theorem id_emptyFilesInode {i : Nat} (hi : i < numFiles + 2) :
    (emptyFilesInode numFiles i).id = i := by
  have hword : u32 i = i := u32_eq (by omega)
  unfold emptyFilesInode Inode.id
  by_cases h0 : i = 0
  · rw [if_pos h0, h0]
    exact Packed.get32_zero _
  rw [if_neg h0]
  by_cases h1 : i = 1
  · rw [if_pos h1]
    unfold Inode.setExtentLength Inode.setExtentFirst Inode.setSizeSectors Inode.setSizeBytes
      Inode.setType Inode.setId
    rw [Packed.get32_set32_ne (by decide), Packed.get32_set32_ne (by decide),
      Packed.get32_set32_ne (by decide), Packed.get32_set32_ne (by decide),
      Packed.get32_set8_ne (by decide), Packed.get32_set32 _ (by decide), hword]
  · rw [if_neg h1]
    unfold Inode.setExtentFirst Inode.setId
    rw [Packed.get32_set32_ne (by decide), Packed.get32_set32 _ (by decide), hword]

/-- The inodes in use are those of the root directory and of the files. -/
theorem bootable_carries {i : Nat} : Carries (bootable numFiles) i ↔ i ≠ 0 ∧ i < numFiles + 2 := by
  constructor
  · intro hi
    have hcap := hi.lt
    rw [bootable_layout hfew] at hcap
    have hinode := bootable_inode hfew (show i < 64 from hcap)
    refine ⟨hi.1, ?_⟩
    by_contra hge
    rw [if_neg hge] at hinode
    have hid := hi.2
    rw [hinode, id_noInode] at hid
    exact hi.1 hid.symm
  · rintro ⟨hne, hlt⟩
    refine ⟨hne, ?_⟩
    rw [bootable_inode hfew (by omega), if_pos hlt]
    exact id_emptyFilesInode hfew hlt

theorem bootable_isDir {i : Nat} : IsDir (bootable numFiles) i ↔ i = 1 := by
  have htype : ∀ i < numFiles + 2, i ≠ 0 → ((bootable numFiles).volume.inode i).type =
      if i = 1 then filetypeDir else filetypeFile := by
    intro i hi h0
    rw [bootable_inode hfew (by omega), if_pos hi]
    unfold emptyFilesInode Inode.type
    rw [if_neg h0]
    by_cases h1 : i = 1
    · rw [if_pos h1, if_pos h1]
      unfold Inode.setExtentLength Inode.setExtentFirst Inode.setSizeSectors Inode.setSizeBytes
        Inode.setType
      rw [Packed.get8_set32_ne (by decide), Packed.get8_set32_ne (by decide),
        Packed.get8_set32_ne (by decide), Packed.get8_set32_ne (by decide),
        Packed.get8_set8 _ (by decide)]
      rfl
    · rw [if_neg h1, if_neg h1]
      unfold Inode.setExtentFirst Inode.setId
      rw [Packed.get8_set32_ne (by decide), Packed.get8_set32_ne (by decide)]
      rfl
  constructor
  · intro hi
    obtain ⟨hne, hlt⟩ := (bootable_carries hfew).mp hi.1
    have hdir := htype i hlt hne
    rw [hi.2] at hdir
    by_contra h1
    rw [if_neg h1] at hdir
    exact absurd hdir (by decide)
  · rintro rfl
    exact ⟨(bootable_carries hfew).mpr ⟨by decide, by omega⟩, htype 1 (by omega) (by decide)⟩

theorem bootable_holds {i b : Nat} (hi : i < numFiles + 2) :
    ((bootable numFiles).volume.inode i).Holds b ↔ i = 1 ∧ b = 5 := by
  obtain ⟨-, hfirst, hend, hfits⟩ := bootable_sizes hfew
  rw [bootable_inode hfew (by omega), if_pos hi, ← emptyFiles_inode hfits hi,
    emptyFiles_holds hfits hi, hfirst, hend]
  omega

/-! ## 3. The root directory -/

/-- The copy of its inode. -/
theorem bootable_root : OnDisk (bootable numFiles) (emptyFilesInode numFiles 1) ∧
    (emptyFilesInode numFiles 1).type = filetypeDir ∧ (emptyFilesInode numFiles 1).id = 1 := by
  have hinode := bootable_inode hfew (show 1 < 64 by decide)
  rw [if_pos (by omega)] at hinode
  have hid := id_emptyFilesInode hfew (show 1 < numFiles + 2 by omega)
  have hdir := ((bootable_isDir hfew).mpr rfl).2
  rw [hinode] at hdir
  refine ⟨⟨by rw [hid]; decide, by rw [hid]; exact hinode⟩, hdir, hid⟩

theorem bootable_blocks :
    directBlocks (bootable numFiles).superblock (emptyFilesInode numFiles 1) = [5] := by
  obtain ⟨hone, hfirst, -, -⟩ := bootable_sizes hfew
  have hextents : (bootable numFiles).superblock.directExtentsPerInode = 4 :=
    congrArg Layout.directExtents (bootable_layout hfew)
  have hstart : (emptyFilesInode numFiles 1).extentFirst 0 = 5 := by
    have hget : (emptyFilesInode numFiles 1).extentFirst 0 = u32 (builtFirstBlock numFiles) :=
      (Packed.get32_set32_ne (by decide)).trans (Packed.get32_set32 _ (by decide))
    rw [hget, hfirst]
    rfl
  have hlength : ∀ k < 4, (emptyFilesInode numFiles 1).extentLength k = if k = 0 then 1 else 0 := by
    intro k hk
    rw [extentLength_emptyFilesInode hk, hone]
    exact if_congr (by simp) rfl rfl
  have hnone : ∀ k, k = 1 ∨ k = 2 ∨ k = 3 → extentBlocks (emptyFilesInode numFiles 1) k = [] := by
    intro k hk
    have hlen := hlength k (by omega)
    rw [if_neg (by omega)] at hlen
    have hfirst : (emptyFilesInode numFiles 1).extentFirst k < 4294967296 := Packed.get32_lt _ _
    unfold extentBlocks
    rw [hlen, Nat.add_zero, u32_eq hfirst, Nat.sub_self]
    rfl
  have hfirstBlocks : extentBlocks (emptyFilesInode numFiles 1) 0 = [5] := by
    unfold extentBlocks
    rw [hstart, hlength 0 (by decide)]
    rfl
  unfold directBlocks
  rw [hextents]
  show extentBlocks _ 0 ++ (extentBlocks _ 1 ++ (extentBlocks _ 2 ++ (extentBlocks _ 3 ++ []))) = _
  rw [hfirstBlocks, hnone 1 (by decide), hnone 2 (by decide), hnone 3 (by decide)]
  rfl

omit hfew in
/-- It has no indirect blocks. -/
theorem bootable_direct : (emptyFilesInode numFiles 1).extentFirst 4 = 0 ∧
    (emptyFilesInode numFiles 1).extentLength 4 = 0 := by
  have hzero : ∀ off, 29 ≤ off → (emptyFilesInode numFiles 1).get32 off = 0 := by
    intro off hoff
    unfold emptyFilesInode
    simp only [if_neg (by decide : ¬ 1 = 0), if_true]
    unfold Inode.setExtentLength Inode.setExtentFirst Inode.setSizeSectors Inode.setSizeBytes
      Inode.setType Inode.setId
    rw [Packed.get32_set32_ne (by omega), Packed.get32_set32_ne (by omega),
      Packed.get32_set32_ne (by omega), Packed.get32_set32_ne (by omega),
      Packed.get32_set8_ne (by omega), Packed.get32_set32_ne (by omega)]
    exact Packed.get32_zero off
  exact ⟨hzero _ (by decide), hzero _ (by decide)⟩

theorem bootable_live :
    liveEntries ((bootable numFiles).volume.content 5) = numFiles + 2 := by
  have hcount : ∀ m ≤ 64, (List.range 64).countP (fun c => decide (c < m)) = m := by
    decide +kernel
  refine (List.countP_congr fun c hc => ?_).trans (hcount (numFiles + 2) (by omega))
  have hentry := (bootable_entry hfew (List.mem_range.mp hc)).1
  rw [hentry, decide_eq_true_iff, decide_eq_true_iff]
  split <;> omega

/-- The sizes of the root directory are those of its entries. -/
theorem bootable_size : (emptyFilesInode numFiles 1).sizeBytes = dirEntrySize * (numFiles + 2) ∧
    (emptyFilesInode numFiles 1).sizeSectors =
      bytesToSectors (emptyFilesInode numFiles 1).sizeBytes := by
  have hsize : (emptyFilesInode numFiles 1).sizeBytes = u32 ((numFiles + 2) * 64) := by
    unfold emptyFilesInode Inode.sizeBytes
    simp only [if_neg (by decide : ¬ 1 = 0), if_true]
    unfold Inode.setExtentLength Inode.setExtentFirst Inode.setSizeSectors Inode.setSizeBytes
    rw [Packed.get32_set32_ne (by decide), Packed.get32_set32_ne (by decide),
      Packed.get32_set32_ne (by decide), Packed.get32_set32 _ (by decide)]
  have hsectors : (emptyFilesInode numFiles 1).sizeSectors =
      u32 (bytesToSectors ((numFiles + 2) * 64)) := by
    unfold emptyFilesInode Inode.sizeSectors
    simp only [if_neg (by decide : ¬ 1 = 0), if_true]
    unfold Inode.setExtentLength Inode.setExtentFirst Inode.setSizeSectors
    rw [Packed.get32_set32_ne (by decide), Packed.get32_set32_ne (by decide),
      Packed.get32_set32 _ (by decide)]
  have hword : u32 ((numFiles + 2) * 64) = (numFiles + 2) * 64 := u32_eq (by omega)
  rw [hsectors, hsize, hword]
  refine ⟨Nat.mul_comm _ _, u32_eq ?_⟩
  unfold bytesToSectors fsSectorSize
  split
  · decide
  split
  · decide
  · split <;> omega

/-! ## 4. The disk -/

theorem bootable_sane : Sane (bootable numFiles) := by
  obtain ⟨-, hfirst, -, -⟩ := bootable_sizes hfew
  obtain ⟨hroot, hdir, -⟩ := bootable_root hfew
  refine (bootable_built hfew).sane (fun i hi => ((bootable_carries hfew).mp hi).2)
    (fun i hi b hb c hc => ?_) ((bootable_isDir hfew).mpr rfl) ⟨hroot, hdir⟩ ⟨hroot, hdir⟩
  obtain rfl := (bootable_isDir hfew).mp hi
  obtain ⟨-, rfl⟩ := (bootable_holds hfew (by omega)).mp hb
  rw [(bootable_entry hfew hc).1]
  split
  · next hlt =>
    have hcarries : Carries (bootable numFiles) (max 1 c) :=
      (bootable_carries hfew).mpr ⟨by omega, by omega⟩
    exact Or.inr ⟨hcarries.lt, Or.inl hcarries⟩
  · exact Or.inl rfl

/-- **The image is well formed.** -/
theorem bootable_wellFormed : WellFormed (bootable numFiles) := by
  have hbuilt := bootable_built hfew
  obtain ⟨-, hfirst, hend, -⟩ := bootable_sizes hfew
  obtain ⟨hroot, hdir, hid⟩ := bootable_root hfew
  obtain ⟨hsize, hsectors⟩ := bootable_size hfew
  have hinode : (bootable numFiles).volume.inode 1 = emptyFilesInode numFiles 1 := by
    rw [bootable_inode hfew (by decide), if_pos (by omega)]
  refine ⟨bootable_sane hfew, (hbuilt.inodeBit 0).mpr (by omega), hid, fun i hi b hb => ?_,
    fun i j hi hj hne b hb hb' => ?_, fun i hi b hb c hc => ?_, fun i hi b bs hbs => ?_,
    fun i hi => ?_, fun i hi => ?_, fun _ => 0, fun i hi b hb c hc hchild hdot => ?_⟩
  · obtain ⟨-, rfl⟩ := (bootable_holds hfew ((bootable_carries hfew).mp hi).2).mp hb
    exact (hbuilt.dataBit 5).mpr (by rw [hend]; decide)
  · have hone := ((bootable_holds hfew ((bootable_carries hfew).mp hi).2).mp hb).1
    have hone' := ((bootable_holds hfew ((bootable_carries hfew).mp hj).2).mp hb').1
    exact hne (hone.trans hone'.symm)
  · obtain rfl := (bootable_isDir hfew).mp hi
    obtain ⟨-, rfl⟩ := (bootable_holds hfew (by omega)).mp hb
    obtain ⟨hnumber, hname⟩ := bootable_entry hfew hc
    refine ⟨?_, 3, by decide, ?_⟩
    · rw [hnumber, hname 0 (by decide)]
      split
      · next hlt => exact Or.inr ((bootable_carries hfew).mpr ⟨by omega, by omega⟩)
      · exact Or.inl ⟨rfl, rfl⟩
    · rw [hname 3 (by decide)]
      split
      · unfold emptyFilesEntry
        rw [if_neg (by decide)]
        split
        · exact if_neg (by omega)
        · rfl
      · rfl
  · obtain rfl := (bootable_isDir hfew).mp hi
    rw [hinode, bootable_blocks hfew] at hbs
    obtain ⟨rfl, -⟩ := List.cons.inj hbs
    rw [(bootable_entry hfew (by decide)).1, if_pos (by omega)]
    rfl
  · obtain rfl := (bootable_isDir hfew).mp hi
    rw [hinode, bootable_blocks hfew, List.map_singleton, List.sum_singleton, bootable_live hfew]
    exact hsize
  · obtain rfl := (bootable_isDir hfew).mp hi
    rw [hinode]
    exact hsectors
  · -- the only directory is the root, with entries for itself that begin with a dot
    obtain rfl := (bootable_isDir hfew).mp hi
    obtain ⟨-, rfl⟩ := (bootable_holds hfew (by omega)).mp hb
    obtain ⟨hnumber, hname⟩ := bootable_entry hfew hc
    have hroot := (bootable_isDir hfew).mp hchild
    rw [hnumber] at hroot
    rw [hname 0 (by decide)] at hdot
    have hc2 : c < 2 ∧ c < numFiles + 2 := by
      split at hroot <;> omega
    rw [if_pos hc2.2] at hdot
    refine absurd ?_ hdot
    unfold emptyFilesEntry
    rw [if_neg (by decide), if_pos hc2.1, if_pos (by omega)]

end

end AmateurOs.Fs
