/-
# Files that are lost

`fs_delete_file` clears the blocks, the inode and the bits of the file first, and then looks for its
entry in the directory of the path.  When there is none it returns false, and the file is gone.
Whether there is one depends on how the path ends:

* behind a last slash with nothing or `.` behind it, the file is its own directory.  Its blocks were
  just wiped, and only what they were wiped with can have its number (`LeavesNumber`);
* a name of two dots and another character is looked for in the directory above, and the directory
  of the path need not have an entry for the file;
* every other name is looked for in the directory of the path, and the entry by which the file was
  found is found again, if that is a directory and the name does not lie behind `temp_block`.

**A failed delete changes nothing when the path ends so that the entry is kept**, and only then
where the path leads to inodes of the disk (`delete_failed_spelled`).  On other paths, which go
through what is no directory, an entry is kept that lies apart from all that is written.
-/
import AmateurOs.Fs.Spelling
import AmateurOs.Fs.Removal
import AmateurOs.Fs.Wiping

namespace AmateurOs.Fs

open AmateurOs.Lib

/-! ## 1. The property -/

/-- **A failed delete changes nothing.** -/
def FailsClean (env : Env) (s : State) (path : CString) : Prop :=
  (fsDeleteFile env s path).1 = false → (fsDeleteFile env s path).2 = s

/-- In the bitmap without the bits of `pre` there is `id` in the place of an entry's number. -/
def BitmapSpells (s : State) (pre : List Nat) (id : Nat) : Prop :=
  ∃ count < dirEntriesPerBlock, ∀ k < 32, id.testBit k =
    (s.volume.dataBit (512 * count + k) && decide (512 * count + k ∉ pre))

/-- **The number of the file is where its blocks were**: behind `temp_block`, or in the bitmap that
a block was wiped with which comes behind the blocks `pre` of the file. -/
def LeavesNumber (env : Env) (s : State) (file : Inode) : Prop :=
  (indexedBlocks s.superblock file ≠ [] ∧ entryId env.afterTempBlock 0 = file.id) ∨
  ∃ pre b behind, indexedBlocks s.superblock file = pre ++ b :: behind ∧ pre ≠ [] ∧ b ∉ behind ∧
    BitmapSpells s pre file.id

/-- The directory has the number of the file, where the file is not its own directory. -/
def NumberLeft (env : Env) (s : State) (file parent : Inode) : Prop :=
  file = parent ∧ LeavesNumber env s file ∨ file ≠ parent ∧ HasNumber env s parent file.id

/-- How a path ends: with a name of two dots and another character, with nothing or a dot behind
the last slash, or with any other name. -/
inductive Ending where
  | itself
  | dotted
  | name

def ending (path : CString) : Ending :=
  if lastNameInPath path = [] ∨ lastNameInPath path = [dot] then .itself
  else if isDotted (lastNameInPath path) then .dotted
  else .name

/-- **The entry is kept**, by how the path ends. -/
def EntryKept (env : Env) (s : State) (path : CString) : Prop :=
  match ending path with
  | .itself => LeavesNumber env s (inodeFromPath env s path)
  | .dotted => NumberLeft env s (inodeFromPath env s path) (parentInodeFromPath env s path)
  | .name =>
    NoFile (parentInodeFromPath env s path) ∧
        entryMatches env.afterTempBlock (lastNameInPath path) 0 = false ∨
      NumberLeft env s (inodeFromPath env s path) (parentInodeFromPath env s path)

/-- The blocks that are written when a file is released: its own and those of the bitmaps, and the
one with the inode. -/
def releasedBlocks (sb : Superblock) (file : Inode) : List Nat :=
  ((indexedBlocks sb file).flatMap fun c =>
    [c % diskBlocks, u32 (sb.firstDataBitmapBlock + c / bitsPerBlock) % diskBlocks]) ++
  [sectorAddr (inodeSector sb file.id) / 4096,
    u32 (sb.firstInodeBitmapBlock + file.id / bitsPerBlock) % diskBlocks]

/-- **An entry apart**: the directory has the number of the file in a block that is not written. -/
def EntryApart (env : Env) (s : State) (path : CString) : Prop :=
  ∃ b ∈ indexedBlocks s.superblock (parentInodeFromPath env s path),
    b % diskBlocks ∉ releasedBlocks s.superblock (inodeFromPath env s path) ∧
    ∃ i ≤ dirEntriesPerBlock,
      entryId (readBlock s.disk env.afterTempBlock b) i = (inodeFromPath env s path).id

/-- The file and the directory of a path are inodes of the disk. -/
structure Resolved (env : Env) (s : State) (path : CString) : Prop where
  file : OnDisk s (inodeFromPath env s path)
  parent : OnDisk s (parentInodeFromPath env s path)

/-! ## 2. Numbers in a wiped block -/

theorem testBit_entryId {m : Bytes} {count k : Nat} (hk : k < 32) :
    (entryId m count).testBit k = bitAt m (512 * count + k) := by
  unfold entryId bitAt dirEntrySize
  rw [testBit_le32_byte m _ hk, (by omega : (512 * count + k) / 8 = count * 64 + k / 8),
    (by omega : (512 * count + k) % 8 = k % 8)]

/-- The number of an entry, bit by bit. -/
theorem entryId_eq_iff {m : Bytes} {count id : Nat} (hid : id < 4294967296) :
    entryId m count = id ↔ ∀ k < 32, id.testBit k = bitAt m (512 * count + k) := by
  constructor
  · rintro rfl k hk
    exact testBit_entryId hk
  · intro hall
    have hlt : entryId m count < 4294967296 := le32_lt m _
    refine Nat.eq_of_testBit_eq fun k => ?_
    by_cases hk : k < 32
    · rw [testBit_entryId hk, hall k hk]
    · have hpow : 2 ^ 32 ≤ 2 ^ k := Nat.pow_le_pow_right (by decide) (Nat.not_lt.mp hk)
      rw [Nat.testBit_lt_two_pow (Nat.lt_of_lt_of_le hlt hpow),
        Nat.testBit_lt_two_pow (Nat.lt_of_lt_of_le hid hpow)]

theorem entryId_congr {m m' : Bytes} (h : ∀ p < 4096, m p = m' p) {count : Nat}
    (hc : count < dirEntriesPerBlock) : entryId m count = entryId m' count := by
  unfold dirEntriesPerBlock at hc
  exact le32_congr fun k hk => h _ (by unfold dirEntrySize; omega)

section

variable {env : Env} {s : State} (h : Sane s)

include h

/-- `temp_block` behind some blocks of the file: the bitmap without their bits. -/
theorem Sane.temp_number {front : List Nat} {a count id : Nat} (hc : count < dirEntriesPerBlock)
    (hid : id < 4294967296)
    (hin : ∀ c ∈ front ++ [a], s.superblock.layout.dataArea ≤ c ∧ c < s.superblock.layout.dataBits) :
    entryId ((front ++ [a]).foldl (wipeBlock s.superblock) (s.disk, fun _ => 0)).2 count = id ↔
      ∀ k < 32, id.testBit k =
        (s.volume.dataBit (512 * count + k) && decide (512 * count + k ∉ front ++ [a])) := by
  have ha := (hin a (List.mem_append_right _ (List.mem_singleton_self a))).2
  have hfirst : a / bitsPerBlock = 0 := by
    rw [h.dataBits] at ha
    exact Nat.div_eq_of_lt ha
  have hdata := (wiped_foldl h.sound h.dataBits_le (front ++ [a]) (s.disk, fun _ => 0) hin).dataBit
  rw [entryId_eq_iff hid]
  refine forall_congr' fun k => imp_congr_right fun hk => ?_
  have hi : 512 * count + k < bitsPerBlock := by
    unfold dirEntriesPerBlock bitsPerBlock at *
    omega
  have hbit := @bitAt_loaded s.superblock h.sound
    ((front ++ [a]).foldl (wipeBlock s.superblock) (s.disk, fun _ => 0)).1 a _ ha hi
  rw [hfirst, Nat.zero_mul, Nat.zero_add, hdata, Nat.add_zero] at hbit
  rw [List.foldl_append, List.foldl_cons, List.foldl_nil] at hbit ⊢
  have htemp : (wipeBlock s.superblock (front.foldl (wipeBlock s.superblock)
      (s.disk, fun _ => 0)) a).2 = readBlock (wipeBlock s.superblock (front.foldl
        (wipeBlock s.superblock) (s.disk, fun _ => 0)) a).1 (fun _ => 0)
          (u32 s.superblock.firstDataBitmapBlock) := by
    unfold wipeBlock
    rw [hfirst, Nat.add_zero]
  rw [htemp, hbit]
  rfl

variable {file : Inode} (hf : OnDisk s file)

include hf

/-- An entry of a block of the file, when the file is released: what `temp_block` held when the
block was wiped last. -/
theorem Sane.released_entry {pre behind : List Nat} {b count : Nat}
    (hsplit : indexedBlocks s.superblock file = pre ++ b :: behind) (hlast : b ∉ behind)
    (hc : count < dirEntriesPerBlock) :
    entryId (readBlock (releaseInode s file).disk env.afterTempBlock b) count =
      entryId (pre.foldl (wipeBlock s.superblock) (s.disk, fun _ => 0)).2 count := by
  obtain ⟨hcap, hplaced⟩ := h.onDisk_placed hf
  have hin : ∀ c ∈ pre ++ b :: behind,
      s.superblock.layout.dataArea ≤ c ∧ c < s.superblock.layout.dataBits := fun c hc =>
    hplaced c ((mem_indexedBlocks h.sound.extents hplaced h.dataBits_le).mp (hsplit ▸ hc))
  have hb := hin b (List.mem_append_right _ List.mem_cons_self)
  have hshown : s.superblock.layout.Shown b := Or.inr hb.1
  rw [entryId_content hshown (Nat.lt_of_lt_of_le hb.2 h.dataBits_le) hc]
  refine entryId_congr (fun p hp => ?_) hc
  have hcontent := @content_wiped s.superblock h.sound h.dataBits_le pre behind b
    (s.disk, fun _ => 0) hin hlast p hp
  rw [← hcontent, ← hsplit]
  have hvolume := volume_releaseInode h.sound hcap (Nat.lt_of_lt_of_le hcap h.inodeBits)
  exact congrFun (congrFun (congrArg Volume.content hvolume) b) p

/-- **A file in the place of its own directory**, when it is released. -/
theorem Sane.hasNumber_itself : HasNumber env (releaseInode s file) file file.id ↔
    LeavesNumber env s file := by
  have hid : file.id < 4294967296 := le32_lt _ _
  obtain ⟨-, hplaced⟩ := h.onDisk_placed hf
  have hin : ∀ pre behind, indexedBlocks s.superblock file = pre ++ behind → ∀ c ∈ pre,
      s.superblock.layout.dataArea ≤ c ∧ c < s.superblock.layout.dataBits :=
    fun pre behind hsplit c hc => hplaced c ((mem_indexedBlocks h.sound.extents hplaced
      h.dataBits_le).mp (hsplit ▸ List.mem_append_left _ hc))
  constructor
  · rintro ⟨b, hb, i, hi, hnumber⟩
    change b ∈ indexedBlocks s.superblock file at hb
    rcases Nat.lt_or_eq_of_le hi with hlt | rfl
    · obtain ⟨pre, behind, hsplit, hlast⟩ := last_place hb
      rw [h.released_entry hf hsplit hlast hlt] at hnumber
      rcases List.eq_nil_or_concat pre with rfl | ⟨front, a, rfl⟩
      · exact absurd hnumber.symm hf.1
      · rw [List.concat_eq_append] at *
        refine Or.inr ⟨_, b, behind, hsplit, by simp, hlast, i, hlt, ?_⟩
        exact (h.temp_number hlt hid (hin _ _ hsplit)).mp hnumber
    · rw [entryId_past] at hnumber
      exact Or.inl ⟨List.ne_nil_of_mem hb, hnumber⟩
  · rintro (⟨hne, hbehind⟩ | ⟨pre, b, behind, hsplit, hne, hlast, i, hlt, hbits⟩)
    · obtain ⟨b, hb⟩ := List.exists_mem_of_ne_nil _ hne
      exact ⟨b, hb, dirEntriesPerBlock, Nat.le_refl _, by rw [entryId_past, hbehind]⟩
    · refine ⟨b, ?_, i, Nat.le_of_lt hlt, ?_⟩
      · show b ∈ indexedBlocks s.superblock file
        rw [hsplit]
        exact List.mem_append_right _ List.mem_cons_self
      · rw [h.released_entry hf hsplit hlast hlt]
        rcases List.eq_nil_or_concat pre with rfl | ⟨front, a, rfl⟩
        · exact absurd rfl hne
        · rw [List.concat_eq_append] at *
          exact (h.temp_number hlt hid (hin _ _ hsplit)).mpr hbits

/-- Releasing a file leaves the entries of a directory alone that shares no block with it. -/
theorem Sane.hasNumber_released {p : Inode} (hp : OnDisk s p)
    (hapart : ∀ b, p.Holds b → ¬ file.Holds b) (id : Nat) :
    HasNumber env (releaseInode s file) p id ↔ HasNumber env s p id := by
  have hr := h.released hf
  have hread : ∀ b ∈ indexedBlocks s.superblock p,
      readBlock (releaseInode s file).disk env.afterTempBlock b =
        readBlock s.disk env.afterTempBlock b := by
    intro b hb
    have hold := (mem_indexedBlocks h.sound.extents (h.onDisk_placed hp).2 h.dataBits_le).mp hb
    obtain ⟨⟨hshown, hlt⟩, -, -⟩ := h.block hp hold
    exact readBlock_congr hshown hshown hlt (hr.content b (hapart b hold))
  unfold HasNumber
  rw [hr.superblock]
  constructor
  · rintro ⟨b, hb, i, hi, hid⟩
    exact ⟨b, hb, i, hi, hread b hb ▸ hid⟩
  · rintro ⟨b, hb, i, hi, hid⟩
    exact ⟨b, hb, i, hi, (hread b hb).symm ▸ hid⟩

/-- **What is left of the number**, on a disk whose inodes share no blocks. -/
theorem Sane.hasNumber_left (hl : LaidOut s) {p : Inode} (hp : OnDisk s p) :
    HasNumber env (releaseInode s file) p file.id ↔ NumberLeft env s file p := by
  unfold NumberLeft
  by_cases hsame : file = p
  · subst hsame
    rw [h.hasNumber_itself hf]
    simp
  · have hne : p.id ≠ file.id := fun heq => hsame (by rw [← hf.2, ← heq, hp.2])
    rw [h.hasNumber_released hf hp fun b hb => h.apart hl hp hf hne hb]
    simp [hsame]

/-- The inode of a file that is released is no longer the same. -/
theorem Sane.released_ne : releaseInode s file ≠ s := by
  intro heq
  have hinode := h.released_inode hf file.id
  rw [heq, if_pos rfl, hf.2] at hinode
  exact hf.1 (by rw [hinode, id_noInode])

end

/-! ## 3. Blocks that are not written -/

theorem writeBlock_other (disk tempBlock : Bytes) (b : Nat) {p : Nat}
    (h : p / 4096 ≠ b % diskBlocks) : writeBlock disk b tempBlock p = disk p := by
  rw [writeBlock_mod]
  exact onlyBlock_writeBlock (mod_diskBlocks b) p h

theorem storeInode_other (disk : Bytes) (sb : Superblock) (id : Nat) (inode : Inode) {p : Nat}
    (h : p / 4096 ≠ sectorAddr (inodeSector sb id) / 4096) :
    storeInode disk sb id inode p = disk p := by
  have hsector : sectorAddr (inodeSector sb id) % 512 = 0 := Nat.mul_mod_left _ _
  have hlen : transferSize 1 = 512 := by decide
  unfold storeInode writeSectors
  rw [hlen]
  exact blit_out (by omega)

/-- Wiping blocks writes them and the bitmap. -/
theorem wiped_other (sb : Superblock) {p : Nat} : ∀ (bs : List Nat) (st : Bytes × Bytes),
    p / 4096 ∉ (bs.flatMap fun c =>
      [c % diskBlocks, u32 (sb.firstDataBitmapBlock + c / bitsPerBlock) % diskBlocks]) →
    (bs.foldl (wipeBlock sb) st).1 p = st.1 p := by
  intro bs
  induction bs with
  | nil => exact fun _ _ => rfl
  | cons c bs ih =>
    intro st h
    rw [List.flatMap_cons, List.mem_append, not_or] at h
    obtain ⟨hfirst, hrest⟩ := h
    have hfirst := not_or.mp (mt List.mem_cons.mpr hfirst)
    rw [List.foldl_cons, ih _ hrest]
    exact (writeBlock_other _ _ _ fun heq => hfirst.2 (heq ▸ List.mem_singleton_self _)).trans
      (writeBlock_other _ _ _ hfirst.1)

/-- **The release of a file** leaves the blocks alone that are not among those it writes. -/
theorem releaseInode_other (s : State) (file : Inode) {p : Nat}
    (h : p / 4096 ∉ releasedBlocks s.superblock file) :
    (releaseInode s file).disk p = s.disk p := by
  unfold releasedBlocks at h
  simp only [List.mem_append, List.mem_cons, List.not_mem_nil, or_false, not_or] at h
  obtain ⟨hblocks, hinode, hbit⟩ := h
  exact (writeBlock_other _ _ _ hbit).trans
    ((storeInode_other _ _ _ _ hinode).trans (wiped_other _ _ _ hblocks))

theorem readBlock_other {s : State} {file : Inode} {b : Nat} (after : Bytes)
    (h : b % diskBlocks ∉ releasedBlocks s.superblock file) :
    readBlock (releaseInode s file).disk after b = readBlock s.disk after b := by
  rw [readBlock_mod _ _ b, readBlock_mod s.disk _ b]
  funext k
  by_cases hk : k < 4096
  · have hplace : (b % diskBlocks * 4096 + k) / 4096 = b % diskBlocks := by omega
    rw [readBlock_in (mod_diskBlocks b) hk, readBlock_in (mod_diskBlocks b) hk]
    exact releaseInode_other s file (by rwa [hplace])
  · rw [readBlock_out (Nat.le_of_not_lt hk), readBlock_out (Nat.le_of_not_lt hk)]

/-- An entry apart is found. -/
theorem EntryApart.failsClean {env : Env} {s : State} {path : CString}
    (h : EntryApart env s path) : FailsClean env s path := by
  obtain ⟨b, hb, hother, i, hi, hnumber⟩ := h
  by_cases hrefused : DeleteRefused env s path
  · exact fun _ => fsDeleteFile_refused hrefused
  have hhas : HasNumber env (releaseInode s (inodeFromPath env s path))
      (parentInodeFromPath env s path) (inodeFromPath env s path).id :=
    ⟨b, hb, i, hi, by rw [readBlock_other _ hother, hnumber]⟩
  unfold FailsClean
  rw [fsDeleteFile_eq hrefused]
  exact fun hfailed => absurd hhas (deleteEntry_fails.1.mp hfailed)

/-! ## 4. The spellings -/

section

variable {env : Env} {s : State} {path : CString} (h : Sane s)

include h

/-- A path through directories is resolved. -/
theorem resolved_of_dirs (hpath : PathOk env s path) (hgo : ¬ DeleteRefused env s path) :
    Resolved env s path := by
  unfold DeleteRefused at hgo
  push Not at hgo
  exact ⟨(h.inodeFromPath hpath).onDisk hgo.2.1, (h.parent hpath).1.onDisk hgo.2.2.1⟩

variable (hone : s.rootInode.id = 1)

include hone

/-- Nothing or a dot behind the last slash: the file is its own directory. -/
theorem file_itself (hend : lastNameInPath path = [] ∨ lastNameInPath path = [dot]) :
    inodeFromPath env s path = parentInodeFromPath env s path := by
  have hlast : isDotted (lastNameInPath path) = false := by
    rcases hend with hend | hend <;> rw [hend] <;> rfl
  rw [inodeFromPath_last (h.rootInode_loaded hone) hlast]
  exact if_pos hend

/-- **A path with a slash behind it**, through directories to a file, is resolved. -/
theorem resolved_slashed (hend : lastNameInPath path = [] ∨ lastNameInPath path = [dot])
    (hdirs : ∀ pre, pre <+: walked path.cut → pre ≠ walked path.cut →
      NoFile (followAll env s (startInode s path.chars) pre))
    (hquiet : QuietFor env (walked path.cut)) (hgo : ¬ DeleteRefused env s path) :
    Resolved env s path := by
  unfold DeleteRefused at hgo
  push Not at hgo
  have hparent : OnDisk s (parentInodeFromPath env s path) := by
    refine Found.onDisk ?_ hgo.2.2.1
    rw [parentInodeFromPath_way env s path (h.rootInode_loaded hone)]
    exact h.walk _ (Or.inr (h.start _)) hdirs hquiet
  refine ⟨?_, hparent⟩
  rw [file_itself h hone hend]
  exact hparent

/-- **A name in a directory**: the entry by which the file is found has its number. -/
theorem name_number (hpath : Resolved env s path)
    (hend : ¬ (lastNameInPath path = [] ∨ lastNameInPath path = [dot]))
    (hlast : isDotted (lastNameInPath path) = false)
    (hdir : NoFile (parentInodeFromPath env s path))
    (hquiet : entryMatches env.afterTempBlock (lastNameInPath path) 0 = false) :
    HasNumber env s (parentInodeFromPath env s path) (inodeFromPath env s path).id := by
  have hlookup : inodeFromPath env s path = inodeForNameInDirectory env s
      (parentInodeFromPath env s path) (lastNameInPath path) := by
    rw [inodeFromPath_last (h.rootInode_loaded hone) hlast]
    exact if_neg hend
  have hsome : inodeForNameInDirectory env s (parentInodeFromPath env s path)
      (lastNameInPath path) ≠ noInode := fun hnone =>
    hpath.file.1 (by rw [hlookup, hnone, id_noInode])
  obtain ⟨b, hold, count, hcount, hname, hload⟩ :=
    h.lookup_entry (Or.inr hpath.parent) hdir hquiet hsome
  have hinode : s.volume.inode (entryId (readBlock s.disk env.afterTempBlock b) count) =
      inodeFromPath env s path := by
    rw [hlookup, hload]
    exact volume_loadInode h.sound hname.1
  have hcarries := hname.2.resolve_right fun hnone =>
    hpath.file.1 (by rw [← hinode, hnone, id_noInode])
  refine ⟨b, ?_, count, Nat.le_of_lt hcount, ?_⟩
  · exact (mem_indexedBlocks h.sound.extents (h.onDisk_placed hpath.parent).2
      h.dataBits_le).mpr hold
  · rw [← hinode, hcarries.2]

/-! ## 5. A failed delete -/

/-- A call that is not refused fails cleanly when the path ends so that the entry is kept, and only
then. -/
theorem failsClean_ending (hl : LaidOut s) (hgo : ¬ DeleteRefused env s path)
    (hpath : Resolved env s path) : FailsClean env s path ↔ EntryKept env s path := by
  have htype : (inodeFromPath env s path).type = filetypeFile := by
    unfold DeleteRefused at hgo
    push Not at hgo
    exact hgo.2.2.2.1
  -- the call fails exactly when nothing is left of the number
  have hleft : FailsClean env s path ↔ NumberLeft env s (inodeFromPath env s path)
      (parentInodeFromPath env s path) := by
    obtain ⟨hfails, hclean⟩ := @deleteEntry_fails env (releaseInode s (inodeFromPath env s path))
      (parentInodeFromPath env s path) (inodeFromPath env s path).id
    rw [← h.hasNumber_left hpath.file hl hpath.parent]
    unfold FailsClean
    rw [fsDeleteFile_eq hgo]
    refine ⟨fun hsame => not_not.mp fun hno => ?_, fun hnumber hfailed =>
      absurd hnumber (hfails.mp hfailed)⟩
    have hstate := hsame (hfails.mpr hno)
    rw [hclean (hfails.mpr hno)] at hstate
    exact h.released_ne hpath.file hstate
  rw [hleft]
  unfold EntryKept ending
  by_cases hend : lastNameInPath path = [] ∨ lastNameInPath path = [dot]
  · rw [if_pos hend]
    have hsame := @file_itself env s path h hone hend
    simp only [NumberLeft, ← hsame, true_and, ne_eq, not_true_eq_false, false_and, or_false]
  rw [if_neg hend]
  by_cases hdotted : isDotted (lastNameInPath path) = true
  · rw [if_pos hdotted]
  rw [if_neg hdotted]
  refine ⟨Or.inr, fun hor => hor.elim (fun ⟨hdir, hquiet⟩ => Or.inr ⟨fun hsame => ?_, ?_⟩) id⟩
  · -- the file is not a directory
    have hdirtype := (hsame ▸ hdir).resolve_left hpath.file.1
    rw [htype] at hdirtype
    exact absurd hdirtype (by decide)
  · exact name_number h hone hpath hend (Bool.not_eq_true _ ▸ hdotted) hdir hquiet

/-- **A failed delete changes nothing** when it is refused, when the path ends so that the entry is
kept, and when there is an entry apart; where the path leads to inodes of the disk, only in the
first two cases. -/
theorem delete_failed_spelled (hl : LaidOut s) :
    (DeleteRefused env s path ∨ Resolved env s path ∧ EntryKept env s path ∨
      EntryApart env s path → FailsClean env s path) ∧
    (Resolved env s path → FailsClean env s path →
      DeleteRefused env s path ∨ EntryKept env s path) := by
  by_cases hrefused : DeleteRefused env s path
  · exact ⟨fun _ _ => fsDeleteFile_refused hrefused, fun _ _ => Or.inl hrefused⟩
  · refine ⟨?_, fun hpath hclean => Or.inr ?_⟩
    · rintro (hno | ⟨hpath, hkept⟩ | hapart)
      · exact absurd hno hrefused
      · exact (failsClean_ending h hone hl hrefused hpath).mpr hkept
      · exact hapart.failsClean
    · exact (failsClean_ending h hone hl hrefused hpath).mp hclean

end

/-! ## 6. A slash behind the path -/

/-- `ca/`, the only file and a slash behind it. -/
def slashedPath : CString where
  chars := [99, 97, slash]
  nonzero := by decide +kernel
  after := fun _ => 0

/-- `./ca` is deleted, and `ca/` is not and is lost. -/
theorem delete_failed_small : FailsClean quietEnv (emptyFiles 1) filePath ∧
    ¬ FailsClean quietEnv (emptyFiles 1) slashedPath := by
  have hone : (emptyFiles 1).rootInode.id = 1 := by decide +kernel
  have hl : LaidOut (emptyFiles 1) := (emptyFiles_built (by decide)).laidOut
  constructor
  · have hdirs : ∀ pre ∈ (walked filePath).inits, pre ≠ walked filePath →
        (followAll quietEnv (emptyFiles 1) (startInode (emptyFiles 1) filePath.chars) pre).id = 0 ∨
        (followAll quietEnv (emptyFiles 1) (startInode (emptyFiles 1) filePath.chars) pre).type
          = filetypeDir := by decide +kernel
    have hquiet : ∀ c ∈ walked filePath,
        c = [] ∨ c = [dot] ∨ entryMatches quietEnv.afterTempBlock c 0 = false := by decide +kernel
    have hparent : (parentInodeFromPath quietEnv (emptyFiles 1) filePath).type = filetypeDir := by
      decide +kernel
    have hgo : ¬ DeleteRefused quietEnv (emptyFiles 1) filePath := by
      unfold DeleteRefused
      decide +kernel
    have hpath := resolved_of_dirs emptyFiles_sane
      ⟨fun pre hpre hne => hdirs pre ((List.mem_inits _ _).mpr hpre) hne, hquiet⟩ hgo
    refine (delete_failed_spelled emptyFiles_sane hone hl).1 (Or.inr (Or.inl ⟨hpath, ?_⟩))
    exact Or.inl ⟨Or.inr hparent, by decide +kernel⟩
  · have hend : lastNameInPath slashedPath = [] := by decide +kernel
    have hdirs : ∀ pre ∈ (walked slashedPath.cut).inits, pre ≠ walked slashedPath.cut →
        (followAll quietEnv (emptyFiles 1) (startInode (emptyFiles 1) slashedPath.chars) pre).id = 0 ∨
        (followAll quietEnv (emptyFiles 1) (startInode (emptyFiles 1) slashedPath.chars) pre).type
          = filetypeDir := by decide +kernel
    have hquiet : ∀ c ∈ walked slashedPath.cut,
        c = [] ∨ c = [dot] ∨ entryMatches quietEnv.afterTempBlock c 0 = false := by decide +kernel
    have hchecks : specialPath slashedPath = false ∧
        (inodeFromPath quietEnv (emptyFiles 1) slashedPath).id = 2 ∧
        (parentInodeFromPath quietEnv (emptyFiles 1) slashedPath).id = 2 ∧
        (inodeFromPath quietEnv (emptyFiles 1) slashedPath).type = filetypeFile ∧
        (inodeFromPath quietEnv (emptyFiles 1) slashedPath).refCount = 0 ∧
        indexedBlocks (emptyFiles 1).superblock
          (inodeFromPath quietEnv (emptyFiles 1) slashedPath) = [] := by decide +kernel
    obtain ⟨hspecial, hfile, hdir, htype, hcount, hblocks⟩ := hchecks
    have hgo : ¬ DeleteRefused quietEnv (emptyFiles 1) slashedPath := by
      unfold DeleteRefused
      rw [hspecial, hfile, hdir, htype, hcount]
      decide
    have hpath := resolved_slashed emptyFiles_sane hone (Or.inl hend)
      (fun pre hpre hne => hdirs pre ((List.mem_inits _ _).mpr hpre) hne) hquiet hgo
    intro hclean
    rcases (delete_failed_spelled emptyFiles_sane hone hl).2 hpath hclean with hrefused | hkept
    · exact hgo hrefused
    · unfold EntryKept ending at hkept
      rw [if_pos (Or.inl hend)] at hkept
      obtain ⟨hne, -⟩ | ⟨pre, b, behind, hsplit, -⟩ := hkept
      · exact hne hblocks
      · rw [hblocks] at hsplit
        simp at hsplit

/-- **A path that ends in a slash** leads to a file twice, once as its own directory.  It has no
entries: the call fails, and the inode is gone. -/
theorem delete_failed_loses : ¬ ∀ (env : Env) (s : State) (path : CString),
    Sane s → LaidOut s → FailsClean env s path := by
  intro hall
  have hfails : (fsDeleteFile quietEnv (emptyFiles 1) slashedPath).1 = false := by decide +kernel
  have hsame := hall quietEnv (emptyFiles 1) slashedPath emptyFiles_sane
    (emptyFiles_built (by decide)).laidOut hfails
  -- the first byte of inode 2
  have hbyte : (fsDeleteFile quietEnv (emptyFiles 1) slashedPath).2.disk 16512 = 0 ∧
      (emptyFiles 1).disk 16512 = 2 := by decide +kernel
  rw [hsame, hbyte.2] at hbyte
  exact absurd hbyte.1 (by decide)

end AmateurOs.Fs
