/-
# What a rename changes

`fs_rename_file` finds the inode of its path by the names, and then the entry to rewrite by the
number of that inode: the first entry of the directory that has the number, the four bytes behind
`temp_block` standing for one more in each block (`FirstNumbered`).  The new name is copied as it
is, whatever its length and whatever names there are, and of the special names only the whole paths
`/`, `.` and `..` are refused.

So a rename that succeeds has renamed one entry, the one that the path names, when these agree, the
name fits and no other entry has it (`renamed_one_iff`).  `./.` renames the entry `.` of the current
directory.
-/
import AmateurOs.Fs.Caches
import AmateurOs.Fs.Lookup
import AmateurOs.Fs.Spelling

namespace AmateurOs.Fs

open AmateurOs.Lib

/-! ## 1. Entries on the disk -/

/-- Byte `p` of the disk belongs to entry `i` of block `b`. -/
def InEntry (b i p : Nat) : Prop := b * 4096 + i * 64 ≤ p ∧ p < b * 4096 + i * 64 + 64

/-- The names in the entries of `d` are pairwise distinct. -/
def NamesDistinct (s : State) (d : Inode) : Prop :=
  ∀ b b', d.Holds b → d.Holds b' → ∀ i < dirEntriesPerBlock, ∀ j < dirEntriesPerBlock,
    ∀ name : FileName, IsNamed (diskBlock s b) name.chars i →
      IsNamed (diskBlock s b') name.chars j → b = b' ∧ i = j

/-- **The entry that a path names**: it has the number of the inode found, and the last name. -/
structure Names (env : Env) (s : State) (path : CString) (b i : Nat) : Prop where
  holds : (parentInodeFromPath env s path).Holds b
  index : i < dirEntriesPerBlock
  number : entryId (diskBlock s b) i = (inodeFromPath env s path).id
  named : IsNamed (diskBlock s b) (lastNameInPath path) i

/-- **Entry `i` of block `b` is renamed**, and nothing else is changed. -/
structure EntryRenamed (s s' : State) (d : Inode) (name : List UInt8) (b i : Nat) : Prop where
  number : entryId (diskBlock s' b) i = entryId (diskBlock s b) i
  fits : name.length < 60
  named : IsNamed (diskBlock s' b) name i
  others : ∀ p, ¬ InEntry b i p → s'.disk p = s.disk p
  state : s' = { s with disk := s'.disk }
  distinct : NamesDistinct s' d

/-- **Renaming changes one name**: of the entry that the path names, which is not special. -/
def RenamedOne (env : Env) (s : State) (path newName : CString) : Prop :=
  lastNameInPath path ≠ [dot] ∧ lastNameInPath path ≠ [dot, dot] ∧ ∃ b i, Names env s path b i ∧
    EntryRenamed s (fsRenameFile env s path newName).2 (parentInodeFromPath env s path)
      newName.chars b i

/-- Two names of one entry are the same. -/
theorem IsNamed.unique {tempBlock : Bytes} {i : Nat} {name name' : List UInt8}
    (h : IsNamed tempBlock name i) (h' : IsNamed tempBlock name' i)
    (hzero : ∀ c ∈ name, c ≠ 0) (hzero' : ∀ c ∈ name', c ≠ 0) : name = name' := by
  have hlength : name.length = name'.length := by
    rcases Nat.lt_trichotomy name.length name'.length with hlt | heq | hgt
    · exact absurd ((h'.1 _ hlt).symm.trans h.2) (hzero' _ (List.getElem_mem _))
    · exact heq
    · exact absurd ((h.1 _ hgt).symm.trans h'.2) (hzero _ (List.getElem_mem _))
  exact List.ext_getElem hlength fun k hk hk' => (h.1 k hk).symm.trans (h'.1 k hk')

/-- A name that fits is read from the bytes of the entry. -/
theorem isNamed_congr {m m' : Bytes} {i : Nat} {name : List UInt8} (hshort : name.length < 60)
    (h : ∀ k < 60, entryName m' i k = entryName m i k) : IsNamed m' name i ↔ IsNamed m name i := by
  unfold IsNamed Begins
  rw [h _ hshort]
  refine and_congr_left fun _ => forall_congr' fun k => forall_congr' fun hk => ?_
  rw [h k (by omega)]

/-- An entry whose bytes are those of before. -/
theorem entry_kept {s s' : State} {b i : Nat} (hb : b < diskBlocks) (hi : i < dirEntriesPerBlock)
    (h : ∀ p, InEntry b i p → s'.disk p = s.disk p) :
    entryId (diskBlock s' b) i = entryId (diskBlock s b) i ∧
      ∀ k < 60, entryName (diskBlock s' b) i k = entryName (diskBlock s b) i k := by
  unfold dirEntriesPerBlock at hi
  have hbyte : ∀ k < 64, diskBlock s' b (i * 64 + k) = diskBlock s b (i * 64 + k) := by
    intro k hk
    unfold diskBlock
    rw [readBlock_in hb (by omega), readBlock_in hb (by omega)]
    refine h _ ?_
    unfold InEntry
    omega
  constructor
  · exact le32_congr fun k hk => hbyte k (by omega)
  · intro k hk
    show diskBlock s' b (i * 64 + 4 + k) = diskBlock s b (i * 64 + 4 + k)
    rw [Nat.add_assoc]
    exact hbyte _ (by omega)

/-- Entries do not overlap. -/
theorem InEntry.unique {b b' i j p : Nat} (hi : i < dirEntriesPerBlock)
    (hj : j < dirEntriesPerBlock) (h : InEntry b i p) (h' : InEntry b' j p) : b = b' ∧ i = j := by
  unfold dirEntriesPerBlock at hi hj
  unfold InEntry at h h'
  omega

/-! ## 2. The entry that is rewritten -/

/-- **The first entry with a number**, entry 64 of a block being behind it. -/
def FirstNumbered (env : Env) (s : State) (d : Inode) (id b i : Nat) : Prop :=
  ∃ front behind, indexedBlocks s.superblock d = front ++ b :: behind ∧ i ≤ dirEntriesPerBlock ∧
    entryId (readBlock s.disk env.afterTempBlock b) i = id ∧
    (∀ j < i, entryId (readBlock s.disk env.afterTempBlock b) j ≠ id) ∧
    ∀ b' ∈ front, ∀ j ≤ dirEntriesPerBlock, entryId (readBlock s.disk env.afterTempBlock b') j ≠ id

/-- The scan of a block stops at the first entry with the number, if there is one. -/
theorem scanIds_first {tempBlock : Bytes} {id j : Nat} (hj : j < scanIds tempBlock id) :
    entryId tempBlock j ≠ id := by
  intro hid
  unfold scanIds at hj
  cases hfind : (List.range dirEntriesPerBlock).find? fun count =>
    entryId tempBlock count == id with
  | none =>
    rw [hfind, Option.getD_none] at hj
    have hnot := List.find?_range_eq_none.mp hfind j hj
    rw [hid, beq_self_eq_true] at hnot
    cases hnot
  | some i =>
    rw [hfind, Option.getD_some] at hj
    have hnot := (List.find?_range_eq_some.mp hfind).2.2 j hj
    rw [hid, beq_self_eq_true] at hnot
    cases hnot

/-- **The search for an entry** finds the first one with the number. -/
theorem findEntry_some_iff {env : Env} {s : State} {d : Inode} {id b i : Nat} :
    findEntry env s d id = some (b, i) ↔ FirstNumbered env s d id b i := by
  unfold findEntry FirstNumbered
  rw [List.findSome?_eq_some_iff]
  constructor
  · rintro ⟨front, block, behind, hsplit, hfound, hfront⟩
    simp only at hfound
    split at hfound
    · next hid =>
      obtain ⟨rfl, rfl⟩ := Prod.mk.inj (Option.some.inj hfound)
      refine ⟨front, behind, hsplit, scanIds_le _ _, hid, fun j hj => scanIds_first hj,
        fun b' hb' j hj hnumber => ?_⟩
      have hmissed := hfront b' hb'
      simp only [entryId_scanIds hj hnumber, if_true] at hmissed
      cases hmissed
    · cases hfound
  · rintro ⟨front, behind, hsplit, hi, hid, hbefore, hfront⟩
    have hscan : scanIds (readBlock s.disk env.afterTempBlock b) id = i := by
      rcases Nat.lt_trichotomy (scanIds (readBlock s.disk env.afterTempBlock b) id) i with
        hlt | heq | hgt
      · exact absurd (entryId_scanIds hi hid) (hbefore _ hlt)
      · exact heq
      · exact absurd hid (scanIds_first hgt)
    refine ⟨front, b, behind, hsplit, ?_, fun b' hb' => if_neg fun hnumber =>
      hfront b' hb' _ (scanIds_le _ _) hnumber⟩
    simp only [hscan, hid, if_true]

/-- A rename that succeeds has found an entry. -/
theorem fsRenameFile_true {env : Env} {s : State} {path newName : CString}
    (h : (fsRenameFile env s path newName).1 = true) : ∃ b i,
      FirstNumbered env s (parentInodeFromPath env s path) (inodeFromPath env s path).id b i ∧
      (fsRenameFile env s path newName).2 = { s with
        disk := writeBlock s.disk b (writeEntry (clearEntry (readBlock s.disk env.afterTempBlock b)
          i) i (inodeFromPath env s path).id newName.chars) } := by
  rcases fsRenameFile_cases env s path newName with hsame | ⟨b, i, -, hfind, hafter⟩
  · rw [hsame] at h
    cases h
  · exact ⟨b, i, findEntry_some_iff.mp hfind, by rw [hafter]⟩

section

variable {env : Env} {s : State} {b i id : Nat} {name : List UInt8}

/-- The disk with one entry rewritten. -/
def renamedDisk (env : Env) (s : State) (b i id : Nat) (name : List UInt8) : Bytes :=
  writeBlock s.disk b (writeEntry (clearEntry (readBlock s.disk env.afterTempBlock b) i) i id name)

/-- Bytes outside of the entry are kept, when the name fits. -/
theorem renamedDisk_out (hb : b < diskBlocks) (hname : name.length < 60) {p : Nat}
    (hp : ¬ InEntry b i p) : renamedDisk env s b i id name p = s.disk p := by
  unfold InEntry at hp
  unfold renamedDisk
  rw [writeBlock_eq hb]
  by_cases hin : b * 4096 ≤ p ∧ p < b * 4096 + 4096
  · rw [blit_in hin.1 hin.2]
    unfold writeEntry strcpyAt clearEntry dirEntrySize
    rw [blit_out (by omega), put32_out (by omega), blit_out (by omega), readBlock_in hb (by omega)]
    congr 1
    omega
  · exact blit_out (by omega)

/-- **Behind the block** nothing is written. -/
theorem renamedDisk_behind (hb : b < diskBlocks) :
    renamedDisk env s b dirEntriesPerBlock id name = s.disk := by
  funext p
  unfold renamedDisk dirEntriesPerBlock
  rw [writeBlock_eq hb]
  by_cases hin : b * 4096 ≤ p ∧ p < b * 4096 + 4096
  · rw [blit_in hin.1 hin.2]
    unfold writeEntry strcpyAt clearEntry dirEntrySize
    rw [blit_out (by omega), put32_out (by omega), blit_out (by omega), readBlock_in hb (by omega)]
    congr 1
    omega
  · exact blit_out (by omega)

/-- **The entry** has the number and the name. -/
theorem renamedDisk_entry (hb : b < diskBlocks) (hi : i < dirEntriesPerBlock)
    (hid : id < 4294967296) (hname : name.length < 60) :
    entryId (diskBlock { s with disk := renamedDisk env s b i id name } b) i = id ∧
      IsNamed (diskBlock { s with disk := renamedDisk env s b i id name } b) name i := by
  unfold dirEntriesPerBlock at hi
  have hbyte : ∀ p < 4096, diskBlock { s with disk := renamedDisk env s b i id name } b p =
      writeEntry (clearEntry (readBlock s.disk env.afterTempBlock b) i) i id name p := by
    intro p hp
    unfold diskBlock
    rw [readBlock_in hb hp]
    show renamedDisk env s b i id name (b * 4096 + p) = _
    unfold renamedDisk
    rw [writeBlock_eq hb, blit_add hp]
  have hletter : ∀ k ≤ name.length,
      entryName (diskBlock { s with disk := renamedDisk env s b i id name } b) i k =
        cstr name (fun _ => 0) k := by
    intro k hk
    unfold entryName
    rw [slice_apply, hbyte _ (by unfold dirEntrySize; omega)]
    unfold writeEntry strcpyAt
    exact blit_add (by omega)
  have hnumber : entryId (diskBlock { s with disk := renamedDisk env s b i id name } b) i =
      entryId (writeEntry (clearEntry (readBlock s.disk env.afterTempBlock b) i) i id name) i := by
    unfold entryId dirEntrySize
    exact le32_congr fun k hk => hbyte _ (by omega)
  refine ⟨hnumber.trans (entryId_writeEntry hid), fun k hk => ?_, ?_⟩
  · rw [hletter k (Nat.le_of_lt hk), cstr_lt hk]
  · rw [hletter _ (Nat.le_refl _), cstr_length]

end

/-! ## 3. When one name changes -/

/-- **A directory in order**: on a well laid out disk, its blocks are in the data area, and its
entries are well-formed. -/
structure DirInOrder (s : State) (d : Inode) : Prop where
  sound : s.superblock.layout.Sound
  bits : s.superblock.layout.dataBits ≤ diskBlocks
  placed : d.Placed s.superblock.layout
  tidy : Tidy s d

/-- **What the path and the new name have to be**: the path names an entry that is not special and
is the first one with its number, and the new name fits and is in no other entry.  (Where the number
is found behind `temp_block` first, nothing is written.) -/
def RenameFits (env : Env) (s : State) (path newName : CString) : Prop :=
  lastNameInPath path ≠ [dot] ∧ lastNameInPath path ≠ [dot, dot] ∧ newName.chars.length < 60 ∧
    ∃ b i, Names env s path b i ∧
      (∀ b' j, (parentInodeFromPath env s path).Holds b' → j < dirEntriesPerBlock →
        IsNamed (diskBlock s b') newName.chars j → b' = b ∧ j = i) ∧
      (FirstNumbered env s (parentInodeFromPath env s path) (inodeFromPath env s path).id b i ∨
        newName.chars = lastNameInPath path ∧ ∃ b', FirstNumbered env s
          (parentInodeFromPath env s path) (inodeFromPath env s path).id b' dirEntriesPerBlock)

section

variable {env : Env} {s : State} {d : Inode} {b i id : Nat} {name : FileName}
  (hdir : DirInOrder s d)

include hdir

/-- The other entries keep their names. -/
theorem DirInOrder.kept {s' : State} {b' j : Nat}
    (hout : ∀ p, ¬ InEntry b i p → s'.disk p = s.disk p) (hi : i < dirEntriesPerBlock)
    (hb : d.Holds b') (hj : j < dirEntriesPerBlock)
    (hne : ¬ (b' = b ∧ j = i)) (other : FileName) :
    IsNamed (diskBlock s' b') other.chars j ↔ IsNamed (diskBlock s b') other.chars j := by
  refine isNamed_congr (Nat.lt_succ_of_le other.short)
    (entry_kept (hdir.tidy.blocks b' hb) hj fun p hp => hout p fun hin => hne ?_).2
  exact hp.unique hj hi hin

/-- **The names stay distinct** when no other entry has the new one. -/
theorem DirInOrder.distinct {s' : State} (hout : ∀ p, ¬ InEntry b i p → s'.disk p = s.disk p)
    (hi : i < dirEntriesPerBlock) (hnamed : IsNamed (diskBlock s' b) name.chars i)
    (hfresh : ∀ b' j, d.Holds b' → j < dirEntriesPerBlock →
      IsNamed (diskBlock s b') name.chars j → b' = b ∧ j = i) : NamesDistinct s' d := by
  -- an entry with a name that the renamed one has is the renamed one
  have hself : ∀ {b' j : Nat} {other : FileName}, d.Holds b' → j < dirEntriesPerBlock →
      IsNamed (diskBlock s' b') other.chars j → IsNamed (diskBlock s' b) other.chars i →
        b' = b ∧ j = i := by
    intro b' j other hb' hj hother hthere
    have hsame := hthere.unique hnamed other.nonzero name.nonzero
    by_contra hne
    rw [hdir.kept hout hi hb' hj hne, hsame] at hother
    exact hne (hfresh b' j hb' hj hother)
  intro b₁ b₂ hb₁ hb₂ i₁ hi₁ i₂ hi₂ other h₁ h₂
  by_cases hfirst : b₁ = b ∧ i₁ = i
  · obtain ⟨rfl, rfl⟩ := hfirst
    exact (hself hb₂ hi₂ h₂ h₁).imp Eq.symm Eq.symm
  by_cases hsecond : b₂ = b ∧ i₂ = i
  · obtain ⟨rfl, rfl⟩ := hsecond
    exact hself hb₁ hi₁ h₁ h₂
  · rw [hdir.kept hout hi hb₁ hi₁ hfirst] at h₁
    rw [hdir.kept hout hi hb₂ hi₂ hsecond] at h₂
    exact hdir.tidy.distinct b₁ b₂ hb₁ hb₂ i₁ hi₁ i₂ hi₂ other h₁ h₂

end

/-- **Renaming changes one name and nothing else** when the path and the new name are such, and only
then. -/
theorem renamed_one_iff (env : Env) (s : State) (path newName : CString)
    (hnew : newName.chars ≠ []) (hdir : DirInOrder s (parentInodeFromPath env s path))
    (htrue : (fsRenameFile env s path newName).1 = true) :
    RenamedOne env s path newName ↔ RenameFits env s path newName := by
  obtain ⟨b₀, i₀, hfirst, hafter⟩ := fsRenameFile_true htrue
  have hword : (inodeFromPath env s path).id < 4294967296 := Packed.get32_lt _ _
  have hlastZero : ∀ c ∈ lastNameInPath path, c ≠ 0 := fun c hc =>
    path.nonzero c ((List.rtakeWhile_suffix _ _).subset hc)
  have hheld : (parentInodeFromPath env s path).Holds b₀ := by
    obtain ⟨front, behind, hsplit, -⟩ := hfirst
    refine (mem_indexedBlocks hdir.sound.extents hdir.placed hdir.bits).mp ?_
    rw [hsplit]
    exact List.mem_append_right _ List.mem_cons_self
  have hb₀ := hdir.tidy.blocks b₀ hheld
  have hwithin : i₀ ≤ dirEntriesPerBlock := hfirst.elim fun _ h => h.elim fun _ h => h.2.1
  have hunique : ∀ {b i}, FirstNumbered env s (parentInodeFromPath env s path)
      (inodeFromPath env s path).id b i → b = b₀ ∧ i = i₀ := fun h =>
    Prod.mk.inj (Option.some.inj
      ((findEntry_some_iff.mpr h).symm.trans (findEntry_some_iff.mpr hfirst)))
  unfold RenamedOne RenameFits
  rw [hafter]
  refine and_congr_right fun _ => and_congr_right fun _ => ?_
  constructor
  · rintro ⟨b, i, hnames, hrenamed⟩
    let name : FileName :=
      ⟨newName.chars, hnew, Nat.le_of_lt_succ hrenamed.fits, newName.nonzero⟩
    refine ⟨hrenamed.fits, b, i, hnames, fun b' j hb' hj hnamed => ?_, ?_⟩
    · by_contra hne
      have hthere := (hdir.kept hrenamed.others hnames.index hb' hj hne name).mpr hnamed
      exact hne (hrenamed.distinct b' b hb' hnames.holds j hj i hnames.index name hthere
        hrenamed.named)
    rcases Nat.lt_or_eq_of_le hwithin with hlt | heq
    · -- the entry that was written has the name too
      obtain ⟨-, hwritten⟩ := @renamedDisk_entry env s b₀ i₀ _ newName.chars hb₀ hlt hword
        hrenamed.fits
      obtain ⟨rfl, rfl⟩ := hrenamed.distinct b₀ b hheld hnames.holds i₀ hlt i hnames.index name
        hwritten hrenamed.named
      exact Or.inl hfirst
    · -- nothing was written
      subst heq
      have hnone : renamedDisk env s b₀ dirEntriesPerBlock (inodeFromPath env s path).id
          newName.chars = s.disk := renamedDisk_behind hb₀
      unfold renamedDisk at hnone
      rw [hnone] at hrenamed
      have hnamed : IsNamed (diskBlock s b) newName.chars i := hrenamed.named
      exact Or.inr ⟨hnamed.unique hnames.named newName.nonzero hlastZero, b₀, hfirst⟩
  · rintro ⟨hfits, b, i, hnames, hfresh, hreached⟩
    let name : FileName := ⟨newName.chars, hnew, Nat.le_of_lt_succ hfits, newName.nonzero⟩
    refine ⟨b, i, hnames, ?_⟩
    rcases hreached with hthere | ⟨hsame, b', hbehind⟩
    · obtain ⟨rfl, rfl⟩ := hunique hthere
      obtain ⟨hnumber, hnamed⟩ := @renamedDisk_entry env s b i _ newName.chars hb₀ hnames.index
        hword hfits
      have hout := fun p hp => @renamedDisk_out env s b i (inodeFromPath env s path).id
        newName.chars hb₀ hfits p hp
      exact ⟨hnumber.trans hnames.number.symm, hfits, hnamed, hout, rfl,
        @DirInOrder.distinct _ _ _ _ name hdir _ hout hnames.index hnamed hfresh⟩
    · obtain ⟨rfl, rfl⟩ := hunique hbehind
      have hnone : renamedDisk env s b' dirEntriesPerBlock (inodeFromPath env s path).id
          newName.chars = s.disk := renamedDisk_behind hb₀
      unfold renamedDisk at hnone
      rw [hnone]
      exact ⟨rfl, hfits, hsame ▸ hnames.named, fun _ _ => rfl, rfl, hdir.tidy.distinct⟩

/-! ## 4. The only file of a small disk -/

theorem smallRoot_inOrder : DirInOrder (emptyFiles 1) (emptyFilesInode 1 1) :=
  ⟨emptyFiles_sane.sound, emptyFiles_sane.dataBits_le,
    (emptyFiles_sane.onDisk_placed emptyFiles_sane.root.1).2, smallRoot_tidy⟩

/-- `cb`. -/
def otherName : CString where
  chars := [99, 98]
  nonzero := by decide +kernel
  after := fun _ => 0

/-- `./ca` is renamed to `cb`. -/
theorem renamed_one_file : RenamedOne quietEnv (emptyFiles 1) filePath otherName := by
  have hparent : parentInodeFromPath quietEnv (emptyFiles 1) filePath = emptyFilesInode 1 1 :=
    funext (by decide +kernel : ∀ k : Fin 64,
      parentInodeFromPath quietEnv (emptyFiles 1) filePath k = emptyFilesInode 1 1 k)
  have hfile : (inodeFromPath quietEnv (emptyFiles 1) filePath).id = 2 := by decide +kernel
  have hlast : lastNameInPath filePath = [99, 97] := by decide +kernel
  have hheld : (emptyFilesInode 1 1).Holds 5 := ⟨0, by decide, by decide +kernel, by decide +kernel⟩
  have hentry : entryId (diskBlock (emptyFiles 1) 5) 2 = 2 ∧
      IsNamed (diskBlock (emptyFiles 1) 5) [99, 97] 2 :=
    ⟨by decide +kernel, by unfold Begins; decide +kernel, by decide +kernel⟩
  have hothers : ∀ j < dirEntriesPerBlock, entryName (diskBlock (emptyFiles 1) 5) j 1 ≠ 98 := by
    decide +kernel
  have hfirst : FirstNumbered quietEnv (emptyFiles 1) (emptyFilesInode 1 1) 2 5 2 :=
    findEntry_some_iff.mp (by decide +kernel)
  refine (renamed_one_iff quietEnv (emptyFiles 1) filePath otherName (by decide)
    (hparent ▸ smallRoot_inOrder) (by decide +kernel)).mpr ?_
  unfold RenameFits
  rw [hparent, hfile, hlast]
  refine ⟨by decide, by decide, by decide, 5, 2, ⟨hparent ▸ hheld, by decide, hfile ▸ hentry.1,
    hlast ▸ hentry.2⟩, fun b' j hb' hj hnamed => ?_, Or.inl hfirst⟩
  obtain rfl := smallRoot_holds hb'
  exact absurd (hnamed.1 1 (by decide)) (hothers j hj)

/-- `./.`. -/
def dotPath : CString where
  chars := [dot, slash, dot]
  nonzero := by decide +kernel
  after := fun _ => 0

/-- **A special name at the end of a path** is renamed: the current directory loses its `.`. -/
theorem renamed_special : ¬ ∀ (env : Env) (s : State) (path newName : CString),
    newName.chars ≠ [] → DirInOrder s (parentInodeFromPath env s path) →
      (fsRenameFile env s path newName).1 = true → RenamedOne env s path newName := by
  intro hall
  have hparent : parentInodeFromPath quietEnv (emptyFiles 1) dotPath = emptyFilesInode 1 1 :=
    funext (by decide +kernel : ∀ k : Fin 64,
      parentInodeFromPath quietEnv (emptyFiles 1) dotPath k = emptyFilesInode 1 1 k)
  obtain ⟨hspecial, -⟩ := hall quietEnv (emptyFiles 1) dotPath otherName (by decide)
    (hparent ▸ smallRoot_inOrder) (by decide +kernel)
  exact hspecial (by decide +kernel)

end AmateurOs.Fs
