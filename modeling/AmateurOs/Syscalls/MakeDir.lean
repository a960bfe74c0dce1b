/-
# Making a directory

`fs_make_dir` is the shell's `mkdir`.  It opens the path with `O_CREAT`, writes the entries `.` and
`..` through the descriptor, stores the inode of the path as a directory of 128 bytes, and closes the
descriptor.  `open` takes a name that exists for success: nothing of this depends on whether the file
was created by the call.

So a path that resolves is never refused (`make_dir_never_refuses`), and the inode found becomes a
directory of 128 bytes, whatever it was (`madeDir_stored`).
-/
import AmateurOs.Syscalls.Counts
import AmateurOs.Fs.Spelling

namespace AmateurOs.Syscalls

open AmateurOs.Lib
open AmateurOs.Fs (Inode State CString dot)

/-! ## 1. `fs_make_dir` -/

/-- What the calls of `fs_make_dir` get from outside, in their order. -/
structure MakeExt where
  opening : Ext
  /-- For the two look-ups between `open` and the first `write`. -/
  looking : Fs.Env
  first : Ext
  second : Ext
  closing : Ext

/-- A `dir_entry_t` in memory, with zeros behind the name. -/
def dirEntry (id : Nat) (name : List UInt8) : Bytes := fun p =>
  if p < 4 then wordByte id p else Fs.cstr name (fun _ => 0) (p - 4)

/-- `dir_inode` when it is written to disk. -/
def madeDir (dirInode : Inode) : Inode :=
  ((dirInode.setType Fs.filetypeDir).setSizeBytes 128).setSizeSectors (Fs.bytesToSectors 128)

/-- The part of `fs_make_dir` between `open` and `close`. -/
def fillDir (ext : MakeExt) (k : Kernel) (fd : Int) (path : CString) : Kernel :=
  let dirInode := Fs.inodeFromPath ext.looking k.fs path
  let parentInode := Fs.parentInodeFromPath ext.looking k.fs path
  let k := (syscallWrite ext.first k fd (dirEntry dirInode.id [dot]) Fs.dirEntrySize).2
  let k := (syscallWrite ext.second k fd (dirEntry parentInode.id [dot, dot]) Fs.dirEntrySize).2
  { k with fs := Fs.refreshCaches (Fs.updateInodeOnDisk k.fs (madeDir dirInode)) parentInode }

/-- `fs_make_dir`. -/
def fsMakeDir (ext : MakeExt) (k : Kernel) (path : CString) : Bool × Kernel :=
  let opened := syscallOpen ext.opening k path (oCreat ||| oWronly)
  if opened.1 < 0 then (false, opened.2)
  else (true, (syscallClose ext.closing (fillDir ext opened.2 opened.1 path) opened.1).2)

/-! ## 2. A path that exists -/

/-- An inode that exists, its blocks and the copies of directory inodes are as they were. -/
structure Unharmed (k k' : Kernel) (inode : Inode) : Prop where
  type : (Fs.inodeFromId k'.fs inode.id).type = inode.type
  size : (Fs.inodeFromId k'.fs inode.id).sizeBytes = inode.sizeBytes
  extents : ∀ b, (Fs.inodeFromId k'.fs inode.id).Holds b ↔ inode.Holds b
  content : ∀ b, inode.Holds b → ∀ p, p / 4096 = b → k'.fs.disk p = k.fs.disk p
  root : k'.fs.rootInode = k.fs.rootInode
  current : k'.fs.currentDirInode = k.fs.currentDirInode

/-- **What exists is refused**, and not touched. -/
def RefusedUnharmed (ext : MakeExt) (k : Kernel) (path : CString) : Prop :=
  (fsMakeDir ext k path).1 = false ∧
    Unharmed k (fsMakeDir ext k path).2 (Fs.inodeFromPath ext.opening.fsEnv k.fs path)

/-- `close` leaves the file system alone. -/
theorem syscallClose_fs (ext : Ext) (k : Kernel) (fd : Int) :
    (syscallClose ext k fd).2.fs = k.fs := by
  unfold syscallClose
  split
  · rfl
  · simp only
    split
    · rfl
    · split
      · rfl
      · split <;> rfl

/-- Opening a file that exists leaves the file system alone, and returns a descriptor. -/
theorem syscallOpen_existing {ext : Ext} {k : Kernel} {path : CString} {flags : Nat}
    (h : (Fs.inodeFromPath ext.fsEnv k.fs path).id ≠ 0) :
    0 ≤ (syscallOpen ext k path flags).1 ∧ (syscallOpen ext k path flags).2.fs = k.fs := by
  unfold syscallOpen
  simp only [if_pos h]
  exact ⟨Int.natCast_nonneg _, rfl⟩

/-- The superblock stays when a directory is filled. -/
theorem syscallWrite_superblock (ext : Ext) (k : Kernel) (fd : Int) (buf : Bytes) (len : Nat) :
    (syscallWrite ext k fd buf len).2.fs.superblock = k.fs.superblock := by
  unfold syscallWrite
  split
  · rfl
  · split
    · rfl
    · simp only
      split
      · rfl
      · split
        · rfl
        · split <;> rfl

/-- **The inode stored** is a directory of 128 bytes. -/
theorem madeDir_stored {ext : MakeExt} {k : Kernel} {path : CString}
    (hret : (fsMakeDir ext k path).1 = true)
    (hfits : Fs.InodeFits (syscallOpen ext.opening k path (oCreat ||| oWronly)).2.fs.superblock
      (madeDir (Fs.inodeFromPath ext.looking
        (syscallOpen ext.opening k path (oCreat ||| oWronly)).2.fs path)).id)
    (hid : (madeDir (Fs.inodeFromPath ext.looking
      (syscallOpen ext.opening k path (oCreat ||| oWronly)).2.fs path)).id ≠ 0) :
    Fs.inodeFromId (fsMakeDir ext k path).2.fs (madeDir (Fs.inodeFromPath ext.looking
        (syscallOpen ext.opening k path (oCreat ||| oWronly)).2.fs path)).id =
      madeDir (Fs.inodeFromPath ext.looking
        (syscallOpen ext.opening k path (oCreat ||| oWronly)).2.fs path) := by
  unfold fsMakeDir at hret ⊢
  generalize syscallOpen ext.opening k path (oCreat ||| oWronly) = opened at hret hfits hid ⊢
  simp only at hret ⊢
  split at hret
  · cases hret
  next hnot =>
  rw [if_neg hnot, Fs.inodeFromId, if_neg hid, syscallClose_fs]
  unfold fillDir
  simp only
  generalize Fs.inodeFromPath ext.looking opened.2.fs path = dirInode at *
  generalize Fs.parentInodeFromPath ext.looking opened.2.fs path = parentInode
  have hsuper : ∀ d e : Nat, (syscallWrite ext.second (syscallWrite ext.first opened.2 opened.1
      (dirEntry d [dot]) Fs.dirEntrySize).2 opened.1 (dirEntry e [dot, dot])
        Fs.dirEntrySize).2.fs.superblock = opened.2.fs.superblock := fun d e => by
    rw [syscallWrite_superblock, syscallWrite_superblock]
  have hstored := hsuper dirInode.id parentInode.id
  generalize (syscallWrite ext.second _ _ _ _).2.fs = fs at hstored ⊢
  show Fs.loadInode (Fs.storeInode fs.disk fs.superblock _ _) fs.superblock _ = _
  rw [hstored, Fs.loadInode_eq hfits, Fs.storeInode_eq hfits, Packed.load_store]

/-- **A path that exists is never refused.** -/
theorem make_dir_never_refuses (ext : MakeExt) (k : Kernel) (path : CString)
    (h : (Fs.inodeFromPath ext.opening.fsEnv k.fs path).id ≠ 0) : ¬ RefusedUnharmed ext k path := by
  rintro ⟨hfalse, -⟩
  obtain ⟨hfd, -⟩ := @syscallOpen_existing _ _ _ (oCreat ||| oWronly) h
  unfold fsMakeDir at hfalse
  simp only at hfalse
  rw [if_neg (Int.not_lt.mpr hfd)] at hfalse
  cases hfalse

/-! ## 3. The only file of a small disk -/

/-- A kernel with that disk, and nothing open. -/
def smallKernel : Kernel where
  fs := Fs.emptyFiles 1
  mem := fun _ => 0
  openFileTable := fun _ => OpenFile.zero
  openInodeTable := fun _ => Fs.noInode
  nextAvailableFileVirtualAddress := 0x40000000

def quietMake : MakeExt := ⟨quietExt, quietExt.fsEnv, quietExt, quietExt, quietExt⟩

theorem make_dir_file : ¬ RefusedUnharmed quietMake smallKernel Fs.filePath :=
  make_dir_never_refuses quietMake smallKernel Fs.filePath (by decide +kernel)

/-- **The file becomes a directory** of 128 bytes. -/
theorem make_dir_damages : ¬ ∀ (ext : MakeExt) (k : Kernel) (path : CString), Fs.Sane k.fs →
    (Fs.inodeFromPath ext.opening.fsEnv k.fs path).id ≠ 0 → RefusedUnharmed ext k path := by
  intro hall
  have hunharmed := (hall quietMake smallKernel Fs.filePath Fs.emptyFiles_sane (by decide +kernel)).2
  have htype := hunharmed.type
  have hid : (Fs.inodeFromPath quietExt.fsEnv smallKernel.fs Fs.filePath).id = 2 := by
    decide +kernel
  have hbefore : (Fs.inodeFromPath quietExt.fsEnv smallKernel.fs Fs.filePath).type =
      Fs.filetypeFile := by decide +kernel
  have hafter : (Fs.inodeFromId (fsMakeDir quietMake smallKernel Fs.filePath).2.fs 2).type =
      Fs.filetypeDir := by decide +kernel
  change (Fs.inodeFromId _ (Fs.inodeFromPath quietExt.fsEnv smallKernel.fs Fs.filePath).id).type =
    (Fs.inodeFromPath quietExt.fsEnv smallKernel.fs Fs.filePath).type at htype
  rw [hid, hafter, hbefore] at htype
  cases htype

end AmateurOs.Syscalls
