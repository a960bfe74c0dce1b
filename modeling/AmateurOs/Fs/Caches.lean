/-
# The copies of directory inodes

`root_inode` and `current_dir_inode` are copies of inodes on the disk.  Every call that rewrites
the inode of a directory refreshes both of them on the way out, whichever of the copies or the
disk the directory was read from.  So in a run of `fs_create_file`, `fs_delete_file`,
`fs_rename_file` and `fs_change_dir` on a sane disk the copies are those of the disk after every
call (`caches_agree`).

Entries that name inodes are not enough for it: where the bitmap hands out the number of the root
directory, a new file is written over its inode (`caches_disagree`).
-/
import Mathlib.Data.List.Infix
import AmateurOs.Fs.Directories
import AmateurOs.Fs.WorkingDir

namespace AmateurOs.Fs

open AmateurOs.Lib

/-! ## 1. Entries rewritten -/

section

variable {tempBlock : Bytes} {count id k : Nat} {name : List UInt8}

/-- An entry that is written has its number. -/
theorem entryId_writeEntry (hid : id < 4294967296) :
    entryId (writeEntry tempBlock count id name) count = id := by
  have hword : le32 (put32 tempBlock (count * dirEntrySize) id) (count * dirEntrySize) = id := by
    rw [le32_put32, u32_eq hid]
  unfold entryId writeEntry strcpyAt
  conv_rhs => rw [← hword]
  exact le32_congr fun j hj => blit_out (Or.inl (by omega))

/-- The other entries keep theirs, because the name fits. -/
theorem entryId_writeEntry_ne (hname : name.length < 60) (hk : k ≠ count) :
    entryId (writeEntry tempBlock count id name) k = entryId tempBlock k := by
  unfold entryId writeEntry strcpyAt dirEntrySize
  refine le32_congr fun j hj => ?_
  rw [blit_out (by omega), put32_out (by omega)]

theorem entryId_clearEntry : entryId (clearEntry tempBlock count) k =
    if k = count then 0 else entryId tempBlock k := by
  unfold clearEntry
  by_cases hk : k = count
  · have hzero : ∀ j < 4, blit tempBlock (count * dirEntrySize) dirEntrySize (fun _ => 0)
        (k * dirEntrySize + j) = 0 := by
      intro j hj
      unfold dirEntrySize
      rw [blit_in (by omega) (by omega)]
    rw [if_pos hk]
    unfold entryId le32
    rw [hzero 1 (by decide), hzero 2 (by decide), hzero 3 (by decide)]
    have h0 := hzero 0 (by decide)
    rw [Nat.add_zero] at h0
    rw [h0]
    rfl
  · rw [if_neg hk]
    unfold entryId dirEntrySize
    exact le32_congr fun j hj => blit_out (by omega)

end

/-- A block of entries written over another one. -/
def putContent (v : Volume) (b : Nat) (tempBlock : Bytes) : Nat → Bytes :=
  Function.update v.content b fun p => if p < 4096 then tempBlock p else 0

/-- **A block rewritten entry by entry**: each entry is that of before, or may be one. -/
theorem listing_putContent {s : State} {tempBlock : Bytes} {b : Nat}
    (hentries : Listing s (s.volume.content b) → Listing s tempBlock)
    (b' : Nat) (h : Listing s (s.volume.content b')) :
    Listing s (putContent s.volume b tempBlock b') := by
  unfold putContent
  by_cases hne : b' = b
  · subst hne
    rw [Function.update_self]
    intro count hcount
    have hsame : entryId (fun p => if p < 4096 then tempBlock p else 0) count =
        entryId tempBlock count := by
      unfold dirEntriesPerBlock at hcount
      unfold entryId dirEntrySize
      refine le32_congr fun k hk => if_pos ?_
      omega
    rw [hsame]
    exact hentries h count hcount
  · rw [Function.update_of_ne hne]
    exact h

/-- The block as it is read. -/
theorem listing_readBlock {s : State} {disk after : Bytes} {b : Nat}
    (hs : s.superblock.layout.Shown b) (hb : b < diskBlocks)
    (h : Listing s ((volume s.superblock.layout disk).content b)) :
    Listing s (readBlock disk after b) := by
  intro count hcount
  have hsame : entryId (readBlock disk after b) count =
      entryId ((volume s.superblock.layout disk).content b) count := entryId_content hs hb hcount
  rw [hsame]
  exact h count hcount

theorem listing_clearEntry {s : State} {tempBlock : Bytes} (h : Listing s tempBlock)
    (count : Nat) : Listing s (clearEntry tempBlock count) := by
  intro k hk
  rw [entryId_clearEntry]
  split
  · exact Or.inl rfl
  · exact h k hk

theorem listing_writeEntry {s : State} {tempBlock : Bytes} {id : Nat} {name : List UInt8}
    (h : Listing s tempBlock) (hid : Nameable s id) (hlt : id < 4294967296)
    (hname : name.length < 60) (count : Nat) :
    Listing s (writeEntry tempBlock count id name) := by
  intro k hk
  by_cases heq : k = count
  · subst heq
    rw [entryId_writeEntry hlt]
    exact Or.inr hid
  · rw [entryId_writeEntry_ne hname heq]
    exact h k hk

/-! ## 2. Creating a file -/

section

variable {s : State} (h : Sane s)

include h

/-- The numbers of inodes are words. -/
theorem Sane.nameable_lt {e : Nat} (he : Nameable s e) : e < 4294967296 := by
  have hbits := Nat.lt_of_lt_of_le he.1 h.inodeBits
  unfold Layout.inodeBits at hbits
  rw [h.inodeBitmap] at hbits
  omega

/-- The blocks of a directory are blocks of the data area. -/
theorem Sane.block {p : Inode} (hp : OnDisk s p) {b : Nat} (hb : p.Holds b) :
    (s.superblock.layout.Shown b ∧ b < diskBlocks) ∧
      s.superblock.layout.dataArea ≤ b ∧ b < s.superblock.layout.dataBits := by
  have hplaced := (h.onDisk_placed hp).2 b hb
  exact ⟨⟨Or.inr hplaced.1, Nat.lt_of_lt_of_le hplaced.2 h.dataBits_le⟩, hplaced⟩

/-- **The entry, the directory and the copies**, as `fs_create_file` leaves them. -/
theorem Sane.entered {p p' : Inode} (hp : OnDisk s p) (hsame : SameExtents p' p) {id : Nat}
    {name : List UInt8} (hid : Nameable s id) (hname : name.length < 60) :
    Rewritten s (enterFile s p' id name) p p' := by
  have hcap := (h.onDisk_placed hp).1
  obtain ⟨hsb, hrec⟩ := @enterFile_records s p' id name h.sound h.dataBits_le
    (by rw [hsame.id]; exact hcap)
    fun b hb => (h.onDisk_placed hp).2 b ((hsame.holds b).mp hb)
  obtain ⟨disk, hadd, hdisk⟩ := addEntry_disk (updateInodeOnDisk s p') p' id name
  have hstored : volume s.superblock.layout (updateInodeOnDisk s p').disk =
      s.volume.putInode p'.id p' := volume_storeInode h.sound (by rw [hsame.id]; exact hcap)
  have hvolume : (Fs.enterFile s p' id name).volume =
      volume s.superblock.layout disk := by
    unfold Fs.enterFile
    rw [volume_updateSuperblock, hadd]
    · rfl
    · rw [hadd]
      exact h.sound
  refine ⟨hsb, hrec.inodeBit, fun b hb => ?_, fun b _ => ?_, ?_, hsame, fun b hb => ?_, ?_, ?_⟩
  · rw [hrec.dataBit] at hb
    exact hb
  · rw [hrec.dataBit]
    rfl
  · rw [hrec.inode, ← hsame.id]
    rfl
  · rw [hvolume]
    rcases hdisk with rfl | ⟨j, hj, count, -, rfl⟩
    · rw [hstored]
      exact hb
    · have hold := (hsame.holds j).mp (holds_of_mem_directBlocks h.sound.extents hj)
      obtain ⟨⟨hshown, hlt⟩, -⟩ := h.block hp hold
      rw [volume_writeBlock h.sound hshown hlt, hstored]
      refine listing_putContent (fun hl => ?_) b hb
      refine listing_writeEntry (listing_readBlock hshown hlt ?_) hid (h.nameable_lt hid) hname _
      rw [hstored]
      exact hl
  · unfold Fs.enterFile refreshed
    rw [hadd, ← hsame.id]
    rfl
  · unfold Fs.enterFile refreshed
    rw [hadd, ← hsame.id]
    rfl

end

theorem Found.onDisk {s : State} {inode : Inode} (h : Found s inode) (hne : inode.id ≠ 0) :
    OnDisk s inode := by
  refine h.resolve_left fun hnone => hne ?_
  rw [hnone]
  exact id_noInode

/-- **The condition on a creation**: the directories of the path, a name that fits, and unless
the call is refused an entry within the blocks of the directory and numbers that are left. -/
structure CreateOk (env : Env) (s : State) (path : CString) : Prop where
  directories : PathOk env s path
  name : (lastNameInPath path).length < 60
  room : CreateRefused env s path ∨
    (needsBlock (parentInodeFromPath env s path) = false ∧ s.superblock.firstFreeInodeBit ≠ 0 ∧
      s.superblock.firstFreeInodeBit < s.superblock.layout.capacity ∧
      s.superblock.firstFreeDataBit ≠ 0)

/-- **Creating a file keeps the disk sane.** -/
theorem Sane.create {env : Env} {s : State} {path : CString} (h : Sane s)
    (hok : CreateOk env s path) : Sane (fsCreateFile env s path).2 := by
  by_cases hrefused : CreateRefused env s path
  · rw [fsCreateFile_refused hrefused]
    exact h
  obtain ⟨hfits, hinode, hcap, hdata⟩ := hok.room.resolve_left hrefused
  obtain ⟨hname, hne⟩ := not_or.mp hrefused
  obtain ⟨hfound, hnofile⟩ := h.parent hok.directories
  have hafter : (fsCreateFile env s path).2 = enterFile (Fs.allocate env s)
      (enlarged env (parentInodeFromPath env s path)) (createdInode env s).id
      (lastNameInPath path) := by
    rw [fsCreateFile_eq (Bool.not_eq_true _ ▸ hname) hne]
    simp only [hfits, Bool.false_eq_true, if_false]
  rw [hafter]
  generalize parentInodeFromPath env s path = p at *
  have hp : OnDisk (Fs.allocate env s) p :=
    h.allocated_onDisk hinode hcap hdata (hfound.onDisk hne)
  have hid : (createdInode env s).id = s.superblock.firstFreeInodeBit :=
    (id_newInode ..).trans (u32_eq (Packed.get32_lt _ _))
  have hcarries : Carries (Fs.allocate env s) (createdInode env s).id :=
    (h.allocated_carries hinode hcap hdata _).mpr (Or.inl hid)
  have hallocated : Sane (Fs.allocate env s) := h.allocate hinode hcap hdata
  exact hallocated.rewrite hp (hallocated.entered hp (sameExtents_enlarged env p)
    ⟨hcarries.lt, Or.inl hcarries⟩ hok.name)

/-! ## 3. Deleting a file -/

/-- **The entry, the directory and the copies**, as `fs_delete_file` leaves them. -/
theorem Sane.entryDeleted {env : Env} {s : State} (h : Sane s) {p : Inode} (hp : OnDisk s p)
    (id : Nat) : Sane (deleteEntry env s p id).2 := by
  cases hfind : findEntry env s p id with
  | none =>
    unfold Fs.deleteEntry
    rw [hfind]
    exact h
  | some found =>
    obtain ⟨b, count⟩ := found
    obtain ⟨hcap, hplaced⟩ := h.onDisk_placed hp
    obtain ⟨hold, value, hvalue, hvol⟩ :=
      volume_deleteEntry h.sound h.dataBits_le hcap hplaced hfind
    obtain ⟨⟨hshown, hlt⟩, harea, -⟩ := h.block hp hold
    have hstate : ∃ disk, (Fs.deleteEntry env s p id).2 =
        refreshCaches { s with disk := disk } (reduced p) := by
      unfold Fs.deleteEntry
      rw [hfind]
      simp only []
      split <;> exact ⟨_, rfl⟩
    obtain ⟨disk, hstate⟩ := hstate
    have hid : (reduced p).id = p.id := (sameExtents_reduced p).id
    suffices hr : Rewritten s (Fs.deleteEntry env s p id).2 p (reduced p) from h.rewrite hp hr
    refine ⟨by rw [hstate]; rfl, ?_, fun b' hb => ?_, fun b' hb => ?_, ?_,
      sameExtents_reduced p, fun b' hb => ?_, ?_, ?_⟩
    · rw [hvol]
      rfl
    · rw [hvol] at hb
      change Function.update s.volume.dataBit b value b' = true at hb
      by_cases hsame : b' = b
      · subst hsame
        rw [Function.update_self] at hb
        rcases hvalue with rfl | ⟨rfl, -⟩
        · exact hb
        · cases hb
      · rwa [Function.update_of_ne hsame] at hb
    · rw [hvol]
      exact Function.update_of_ne (by omega) _ _
    · rw [hvol]
      rfl
    · rw [hvol]
      refine listing_putContent (fun hl => listing_clearEntry ?_ count) b' hb
      exact listing_readBlock hshown hlt hl
    · rw [hstate]
      unfold refreshCaches refreshed
      rw [hid]
    · rw [hstate]
      unfold refreshCaches refreshed
      rw [hid]

/-- **Deleting a file keeps the disk sane.** -/
theorem Sane.delete {env : Env} {s : State} {path : CString} (h : Sane s)
    (hpath : PathOk env s path) : Sane (fsDeleteFile env s path).2 := by
  by_cases hrefused : DeleteRefused env s path
  · rw [fsDeleteFile_refused hrefused]
    exact h
  rw [fsDeleteFile_eq hrefused]
  unfold DeleteRefused at hrefused
  push Not at hrefused
  obtain ⟨-, hinode, hparent, htype, -⟩ := hrefused
  have hfile := (h.inodeFromPath hpath).onDisk hinode
  obtain ⟨hfound, hnofile⟩ := h.parent hpath
  have hdir := hnofile.resolve_left hparent
  exact (h.release hfile htype).entryDeleted
    (h.released_onDisk hfile htype (hfound.onDisk hparent) hdir) _

/-! ## 4. Renaming a file -/

theorem refreshed_self {s : State} {cache p : Inode} (hc : OnDisk s cache) (hp : OnDisk s p) :
    refreshed cache p p = cache := by
  unfold refreshed
  split
  · next hid => rw [← hp.2, ← hid, hc.2]
  · rfl

/-- One block of a directory is rewritten. -/
theorem Sane.rewriteBlock {s : State} (h : Sane s) {p : Inode} (hp : OnDisk s p) {b : Nat}
    {disk tempBlock : Bytes}
    (hvol : volume s.superblock.layout disk = s.volume.putBlock b tempBlock)
    (hlisting : Listing s (s.volume.content b) → Listing s tempBlock) :
    Sane { s with disk := disk } := by
  have hvolume : State.volume { s with disk := disk } = s.volume.putBlock b tempBlock := hvol
  suffices hr : Rewritten s { s with disk := disk } p p from h.rewrite hp hr
  refine ⟨rfl, by rw [hvolume]; rfl, fun b' hb => ?_, fun b' _ => ?_, ?_, .refl p,
    fun b' hb => ?_, (refreshed_self h.root.1 hp).symm, (refreshed_self h.current.1 hp).symm⟩
  · rw [hvolume] at hb
    exact hb
  · rw [hvolume]
    rfl
  · rw [hvolume]
    refine (Function.update_eq_self_iff.mpr ?_).symm
    exact hp.2.symm
  · rw [hvolume]
    exact listing_putContent hlisting b' hb

/-- **Renaming a file keeps the disk sane.** -/
theorem Sane.rename {env : Env} {s : State} {path newName : CString} (h : Sane s)
    (hpath : PathOk env s path) (hname : newName.chars.length < 60) :
    Sane (fsRenameFile env s path newName).2 := by
  rcases fsRenameFile_cases env s path newName with hsame | ⟨b, count, hrefused, hfind, hafter⟩
  · rw [hsame]
    exact h
  unfold RenameRefused at hrefused
  push Not at hrefused
  obtain ⟨-, hinode, hparent⟩ := hrefused
  have hfile : OnDisk s (Fs.inodeFromPath env s path) := (h.inodeFromPath hpath).onDisk hinode
  have hid : Nameable s (Fs.inodeFromPath env s path).id :=
    ⟨hfile.carries.lt, Or.inl hfile.carries⟩
  have hp := (h.parent hpath).1.onDisk hparent
  have hold := (mem_indexedBlocks h.sound.extents (h.onDisk_placed hp).2 h.dataBits_le).mp
    (findEntry_mem hfind)
  obtain ⟨⟨hshown, hlt⟩, -⟩ := h.block hp hold
  rw [hafter]
  refine h.rewriteBlock hp (volume_writeBlock h.sound hshown hlt) fun hl => ?_
  refine listing_writeEntry (listing_clearEntry ?_ count) hid (h.nameable_lt hid) hname count
  exact listing_readBlock hshown hlt hl

/-! ## 5. Changing the directory -/

/-- What `fs_change_dir` does to the file system: nothing, or the inode of its argument is the
current directory. -/
theorem ChangeStep.moves {env : Env} {sh sh' : Shell} {argument : Option CString}
    (h : ChangeStep env sh argument sh') : sh'.fs = sh.fs ∨
      ∃ path, argument = some path ∧ (inodeFromPath env sh.fs path).id ≠ 0 ∧
        (inodeFromPath env sh.fs path).type = filetypeDir ∧
        sh'.fs = { sh.fs with currentDirInode := inodeFromPath env sh.fs path } := by
  obtain ⟨hret⟩ := h
  rename_i fuel done
  unfold fsChangeDir at hret
  cases argument with
  | none =>
    obtain ⟨-, rfl⟩ := Prod.mk.inj (Option.some.inj hret)
    exact Or.inl rfl
  | some path =>
    simp only at hret
    by_cases hself : strncmpEq path.bytes (cstr [dot] fun _ => 0) 2 = true
    · rw [if_pos hself] at hret
      obtain ⟨-, rfl⟩ := Prod.mk.inj (Option.some.inj hret)
      exact Or.inl rfl
    rw [if_neg hself] at hret
    by_cases hfound : (inodeFromPath env sh.fs path).id = 0
    · rw [if_pos hfound] at hret
      obtain ⟨-, rfl⟩ := Prod.mk.inj (Option.some.inj hret)
      exact Or.inl rfl
    rw [if_neg hfound] at hret
    by_cases htype : (inodeFromPath env sh.fs path).type ≠ filetypeDir
    · rw [if_pos htype] at hret
      obtain ⟨-, rfl⟩ := Prod.mk.inj (Option.some.inj hret)
      exact Or.inl rfl
    rw [if_neg htype] at hret
    obtain ⟨e, -, hret⟩ := Option.bind_eq_some_iff.mp hret
    obtain ⟨e', -, hret⟩ := Option.bind_eq_some_iff.mp hret
    obtain ⟨-, rfl⟩ := Prod.mk.inj (Option.some.inj hret)
    exact Or.inr ⟨path, rfl, hfound, not_not.mp htype, rfl⟩

/-- Another directory is the current one. -/
theorem Sane.moved {s : State} (h : Sane s) {d : Inode} (hd : OnDisk s d)
    (hdir : d.type = filetypeDir) : Sane { s with currentDirInode := d } where
  sound := h.sound
  inodeBitmap := h.inodeBitmap
  dataBitmap := h.dataBitmap
  inodeBits := h.inodeBits
  live := h.live
  reserved := h.reserved
  inodeHint := h.inodeHint
  dataHint := h.dataHint
  placed := h.placed
  entries := h.entries
  tails := h.tails
  first := h.first
  root := h.root
  current := ⟨hd, hdir⟩

/-! ## 6. Runs -/

/-- The calls that rewrite directories or move between them. -/
inductive DirCall
  | file (call : FileCall)
  | changeDir (env : Env) (argument : Option CString)

/-- A call that returns, and the shell after it. -/
def DirStep (sh : Shell) : DirCall → Shell → Prop
  | .file call, sh' => sh' = { sh with fs := call.after sh.fs }
  | .changeDir env argument, sh' => ChangeStep env sh argument sh'

/-- The condition on a call. -/
def DirOk (sh : Shell) : DirCall → Prop
  | .file (.create env path) => CreateOk env sh.fs path
  | .file (.delete env path) => PathOk env sh.fs path
  | .file (.rename env path newName) => PathOk env sh.fs path ∧ newName.chars.length < 60
  | .changeDir env argument => ∀ path, argument = some path → PathOk env sh.fs path

/-- **The copies are those of the disk.** -/
structure CachesAgree (s : State) : Prop where
  root : inodeFromId s s.rootInode.id = s.rootInode
  current : inodeFromId s s.currentDirInode.id = s.currentDirInode

theorem Sane.cachesAgree {s : State} (h : Sane s) : CachesAgree s := by
  have hcopy : ∀ {d : Inode}, OnDisk s d → inodeFromId s d.id = d := by
    intro d hd
    unfold inodeFromId
    rw [if_neg hd.1]
    exact (volume_loadInode h.sound hd.carries.lt).symm.trans hd.2
  exact ⟨hcopy h.root.1, hcopy h.current.1⟩

/-- **One call.** -/
theorem Sane.step {sh sh' : Shell} {call : DirCall} (h : Sane sh.fs) (hok : DirOk sh call)
    (hstep : DirStep sh call sh') : Sane sh'.fs := by
  cases call with
  | file call =>
    obtain rfl : sh' = { sh with fs := call.after sh.fs } := hstep
    cases call with
    | create env path => exact h.create hok
    | delete env path => exact h.delete hok
    | rename env path newName => exact h.rename hok.1 hok.2
  | changeDir env argument =>
    rcases ChangeStep.moves hstep with hsame | ⟨path, harg, hne, hdir, hafter⟩
    · rw [hsame]
      exact h
    · rw [hafter]
      exact h.moved ((h.inodeFromPath (hok path harg)).onDisk hne) hdir

/-- **The copies are those of the disk after every call** of a run on a sane disk. -/
theorem caches_agree (sh₀ sh : Shell) (h₀ : Sane sh₀.fs) (hrun : Reach DirStep DirOk sh₀ sh) :
    CachesAgree sh.fs :=
  have hsane : Sane sh.fs := @Reach.invariant _ _ _ _ _ (fun t => Sane t.fs) h₀
    (fun _ _ _ h hok hstep => h.step hok hstep) _ hrun
  hsane.cachesAgree

/-! ## 7. Disks of `make_disk` -/

/-- **Disks are built sane**, when their directories name inodes and the others hold none. -/
theorem Built.sane {numFiles fileBlocks : Nat} {s : State} (h : Built numFiles fileBlocks s)
    (hlive : ∀ i, Carries s i → i < numFiles + 2)
    (hentries : ∀ i, IsDir s i → ∀ b, (s.volume.inode i).Holds b → Listing s (s.volume.content b))
    (hfirst : IsDir s 1) (hroot : OnDisk s s.rootInode ∧ s.rootInode.type = filetypeDir)
    (hcurrent : OnDisk s s.currentDirInode ∧ s.currentDirInode.type = filetypeDir) : Sane s := by
  obtain ⟨hlayout, hinodeHint, hdataHint⟩ := h.fields
  obtain ⟨hcap, hsmall⟩ := h.bounds
  have hend : builtEndBlock numFiles fileBlocks
      = 4 + builtInodeBlocks numFiles + fileBlocks := rfl
  have hclear : ∀ {bit : Bool} {n m : Nat}, (bit = true ↔ n < m) → n = m → bit = false :=
    fun hiff heq => Bool.eq_false_iff.mpr fun hset => absurd (hiff.mp hset) (by omega)
  have hplaced : ∀ i < numFiles + 2, (s.volume.inode i).Placed s.superblock.layout := by
    intro i hi b hb
    obtain ⟨hlo, hhi⟩ := h.extents i hi b hb
    rw [hlayout]
    refine ⟨hlo, ?_⟩
    show b < 1 * 32768
    omega
  refine ⟨h.sound, by rw [hlayout], by rw [hlayout], ?_, fun i hi => (h.inodeBit i).mpr (hlive i hi),
    fun b hb => (h.dataBit b).mpr ?_, Or.inr (hclear (h.inodeBit _) hinodeHint),
    Or.inr ⟨?_, hclear (h.dataBit _) hdataHint⟩, fun i hi => hplaced i (hlive i hi), hentries,
    fun i j hi hfile hj b hb => ?_, hfirst, hroot, hcurrent⟩
  · rw [hlayout]
    show builtInodeBlocks numFiles * 64 ≤ 1 * 32768
    omega
  · rw [hlayout] at hb
    exact Nat.lt_of_lt_of_le hb (Nat.le_add_right _ _)
  · rw [hlayout, hdataHint, hend]
    show _ < 1 * 32768
    omega
  · have hbits : s.superblock.layout.dataBits ≤ diskBlocks := by
      rw [hlayout]
      show 1 * 32768 ≤ diskBlocks
      decide
    have hne : i ≠ j := by
      rintro rfl
      rw [hj.2] at hfile
      exact absurd hfile (by decide)
    exact h.disjoint i j b (hlive i hi) (hlive j hj.1) hne
      ((mem_indexedBlocks h.sound.extents (hplaced i (hlive i hi)) hbits).mp
        (List.mem_of_mem_tail hb))

/-- An image with one file. -/
theorem emptyFiles_sane : Sane (emptyFiles 1) := by
  have hfits : builtEndBlock 1 (builtInodeBlocks 1) ≤ imageBlocks := by decide
  have hlayout := emptyFiles_layout hfits
  have hcapacity : (emptyFiles 1).superblock.layout.capacity = 64 := by
    rw [hlayout]
    decide
  have hnumbers : ∀ i < 64, ((emptyFiles 1).volume.inode i).id = i → i < 3 := by decide +kernel
  have hcarried : ∀ i < 3, ((emptyFiles 1).volume.inode i).id = i := by decide +kernel
  have hdirectory : ∀ i < 3, ((emptyFiles 1).volume.inode i).type = filetypeDir → i = 1 := by
    decide +kernel
  have hnames : ∀ count < dirEntriesPerBlock,
      entryId ((emptyFiles 1).volume.content 5) count < 3 := by decide +kernel
  have hlive : ∀ i, Carries (emptyFiles 1) i → i < 3 := fun i hi =>
    hnumbers i (hcapacity ▸ hi.lt) hi.2
  have hinode : (emptyFiles 1).volume.inode 1 = (emptyFiles 1).rootInode :=
    emptyFiles_inode hfits (by decide)
  have hone : (emptyFiles 1).rootInode.id = 1 := by decide +kernel
  have htype : (emptyFiles 1).rootInode.type = filetypeDir := by decide +kernel
  have hroot : OnDisk (emptyFiles 1) (emptyFiles 1).rootInode := by
    unfold OnDisk
    rw [hone]
    exact ⟨by decide, hinode⟩
  refine (emptyFiles_built hfits).sane hlive (fun i hi b hb count hcount => ?_)
    ⟨⟨by decide, hcarried 1 (by decide)⟩, hinode ▸ htype⟩ ⟨hroot, htype⟩ ⟨hroot, htype⟩
  obtain ⟨-, hlo, hhi⟩ := (emptyFiles_holds hfits (hlive i hi.1)).mp hb
  have hblock : builtFirstBlock 1 = 5 ∧ builtEndBlock 1 (builtInodeBlocks 1) = 6 := by decide
  obtain rfl : b = 5 := by omega
  have hlt := hnames count hcount
  refine (Nat.eq_zero_or_pos _).imp_right fun hpos => ⟨by omega, Or.inl ⟨by omega, hcarried _ hlt⟩⟩

/-- A creation in that image. -/
theorem caches_agree_first :
    CachesAgree (FileCall.after (emptyFiles 1) (.create quietEnv newPath)) := by
  have hdirs : ∀ pre ∈ (walked newPath).inits, pre ≠ walked newPath →
      (followAll quietEnv (emptyFiles 1) (startInode (emptyFiles 1) newPath.chars) pre).id = 0 ∨
      (followAll quietEnv (emptyFiles 1) (startInode (emptyFiles 1) newPath.chars) pre).type
        = filetypeDir := by decide +kernel
  have hquiet : ∀ c ∈ walked newPath,
      c = [] ∨ c = [dot] ∨ entryMatches quietEnv.afterTempBlock c 0 = false := by decide +kernel
  have hok : CreateOk quietEnv (emptyFiles 1) newPath := by
    refine ⟨⟨fun pre hpre hne => hdirs pre ((List.mem_inits _ _).mpr hpre) hne, hquiet⟩,
      by decide +kernel, Or.inr ⟨?_, by decide +kernel, by decide +kernel, by decide +kernel⟩⟩
    rw [(@newPath_parent 1 (by decide)).1]
    decide +kernel
  exact caches_agree smallShell { smallShell with
    fs := FileCall.after (emptyFiles 1) (.create quietEnv newPath) } emptyFiles_sane
      (.tail .refl (show DirOk smallShell (.file (.create quietEnv newPath)) from hok) rfl)

/-! ## 8. A number handed out twice

`fs_create_file` takes the number of a new inode from the superblock.  Where that is the number of
the root directory, a file is written over it; the copy of the root is refreshed only when the
root is the directory of the new file. -/

/-- Every entry of a directory names an inode of the table that carries the number. -/
def EntriesName (s : State) : Prop :=
  ∀ i, IsDir s i → ∀ b, (s.volume.inode i).Holds b → ∀ count < dirEntriesPerBlock,
    entryId (s.volume.content b) count = 0 ∨ Carries s (entryId (s.volume.content b) count)

/-- The inode of a directory in block 6. -/
def secondInode : Inode :=
  ((((noInode.setId 2).setType filetypeDir).setSizeBytes 128).setExtentFirst 0 6).setExtentLength 0 1

/-- That image with a second directory, which is the current one; the next number is 1. -/
def handedTwice : State :=
  let s := emptyFiles 1
  { s with
    disk := storeInode s.disk s.superblock 2 secondInode
    superblock := (s.superblock.setFirstFreeInodeBit 1).setFirstFreeDataBit 7
    currentDirInode := secondInode }

/-- `x`. -/
def plainPath : CString where
  chars := [120]
  nonzero := by decide +kernel
  after := fun _ => 0

theorem handedTwice_entries : EntriesName handedTwice := by
  have hcapacity : handedTwice.superblock.layout.capacity = 64 := by decide +kernel
  have hnumbers : ∀ i < 64, (handedTwice.volume.inode i).id = i → i < 3 := by decide +kernel
  have hcarried : ∀ i < 3, (handedTwice.volume.inode i).id = i := by decide +kernel
  have hextents : ∀ i < 3, ∀ k < 4, (handedTwice.volume.inode i).extentFirst k +
      (handedTwice.volume.inode i).extentLength k ≤ 7 ∧
        ((handedTwice.volume.inode i).extentLength k ≠ 0 →
          5 ≤ (handedTwice.volume.inode i).extentFirst k) := by decide +kernel
  have hnames : ∀ count < dirEntriesPerBlock, entryId (handedTwice.volume.content 5) count < 3 ∧
      entryId (handedTwice.volume.content 6) count < 3 := by decide +kernel
  intro i hi b hb count hcount
  have hthree := hnumbers i (hcapacity ▸ hi.1.lt) hi.1.2
  obtain ⟨k, hk, hlo, hhi⟩ := hb
  obtain ⟨hend, hbegin⟩ := hextents i hthree k hk
  have hfive := hbegin (by omega)
  have hlt : entryId (handedTwice.volume.content b) count < 3 := by
    rcases (by omega : b = 5 ∨ b = 6) with rfl | rfl
    · exact (hnames count hcount).1
    · exact (hnames count hcount).2
  exact (Nat.eq_zero_or_pos _).imp_right fun hpos => ⟨by omega, hcarried _ hlt⟩

/-- The name is looked up in the directory that the walk starts in, and nowhere else. -/
theorem plainPath_ok {s : State} (hstart : (startInode s plainPath.chars).type = filetypeDir) :
    PathOk quietEnv s plainPath := by
  have hwalked : walked plainPath = [[120]] := by decide +kernel
  refine ⟨fun pre hpre hne => ?_, ?_⟩
  · rw [hwalked] at hpre hne
    obtain rfl : pre = [] := by
      rcases List.prefix_cons_iff.mp hpre with hnil | ⟨rest, rfl, hrest⟩
      · exact hnil
      · exact absurd (congrArg ([120] :: ·) (List.prefix_nil.mp hrest)) hne
    exact Or.inr hstart
  · have hquiet : ∀ c ∈ walked plainPath,
        c = [] ∨ c = [dot] ∨ entryMatches quietEnv.afterTempBlock c 0 = false := by decide +kernel
    exact hquiet

/-- The number is not out of the table, and the directory has room. -/
theorem handedTwice_createOk : CreateOk quietEnv handedTwice plainPath :=
  ⟨plainPath_ok (by decide +kernel), by decide +kernel, Or.inr ⟨by decide +kernel,
    by decide +kernel, by decide +kernel, by decide +kernel⟩⟩

/-- **Entries that name inodes are not enough**: the copy of the root is a directory, and the disk
has a file. -/
theorem caches_disagree : ¬ ∀ sh₀ sh : Shell, EntriesName sh₀.fs → CachesAgree sh₀.fs →
    Reach DirStep DirOk sh₀ sh → CachesAgree sh.fs := by
  intro hall
  have hbefore : CachesAgree handedTwice := by
    have hroot : ∀ k : Fin 64, inodeFromId handedTwice handedTwice.rootInode.id k =
        handedTwice.rootInode k := by decide +kernel
    have hcurrent : ∀ k : Fin 64, inodeFromId handedTwice handedTwice.currentDirInode.id k =
        handedTwice.currentDirInode k := by decide +kernel
    exact ⟨funext hroot, funext hcurrent⟩
  have hafter := hall { smallShell with fs := handedTwice } { smallShell with
      fs := FileCall.after handedTwice (.create quietEnv plainPath) } handedTwice_entries hbefore
    (.tail .refl (show DirOk _ (.file (.create quietEnv plainPath)) from handedTwice_createOk) rfl)
  obtain ⟨s, hs⟩ : ∃ s, s = FileCall.after handedTwice (.create quietEnv plainPath) := ⟨_, rfl⟩
  have htypes : s.rootInode.type = filetypeDir ∧
      (inodeFromId s s.rootInode.id).type = filetypeFile := by
    rw [hs]
    decide +kernel
  rw [← hs] at hafter
  obtain ⟨hdir, hfile⟩ := htypes
  rw [hafter.root, hdir] at hfile
  exact absurd hfile (by decide)

end AmateurOs.Fs
