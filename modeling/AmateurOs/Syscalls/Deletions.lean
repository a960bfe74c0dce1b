/-
# Deletion and open descriptors

`fs_delete_file` keeps a file whose inode on the disk has a count above 1.  That count is a copy of
the one in `open_inode_table`, and is written with the inode when a descriptor writes to the file;
no `open` and no `close` brings it up to date.  So a file that is open can be deleted
(`open_file_deleted`).

Along calls that meet `RequestOk` the disk stays sane and laid out, and each open descriptor has the
inode that is on it (`Settled`).  A deletion behind such a run, if it decides by a count that is
right, leaves the file to its descriptors, or removes the path, the inode and the blocks
(`deletions_respect`).
-/
import AmateurOs.Syscalls.Reopen
import AmateurOs.Fs.Removal

namespace AmateurOs.Syscalls

open AmateurOs.Lib
open AmateurOs.Fs (Inode State CString PlainFile)

/-! ## 1. A file saved -/

section

variable {s : State} {inode : Inode} {n : Nat} (h : Fs.Sane s) (hf : PlainFile s n)
  (hsame : Fs.SameFile inode (s.volume.inode n))

include h hf hsame

/-- What saving a file leaves of the disk: the inode is the one saved, and the blocks of other files
stay. -/
theorem fsSaveFile_volume (mem : Bytes) (a : Nat) :
    (fsSaveFile (Fs.updateInodeOnDisk s inode) mem inode a).volume.inodeBit = s.volume.inodeBit ∧
      (fsSaveFile (Fs.updateInodeOnDisk s inode) mem inode a).volume.dataBit = s.volume.dataBit ∧
      (fsSaveFile (Fs.updateInodeOnDisk s inode) mem inode a).volume.inode =
        Function.update s.volume.inode n inode ∧
      ∀ b, ¬ inode.Holds b →
        (fsSaveFile (Fs.updateInodeOnDisk s inode) mem inode a).volume.content b =
          s.volume.content b := by
  have hid : inode.id = n := hsame.id.trans hf.carries.2
  have hput : (Fs.updateInodeOnDisk s inode).volume = s.volume.putInode n inode := by
    rw [← hid]
    exact Fs.volume_storeInode h.sound (hid ▸ hf.carries.lt)
  have hplaced := h.placed n hf.carries
  have hext : (Fs.updateInodeOnDisk s inode).superblock.directExtentsPerInode = 4 := h.sound.extents
  obtain ⟨hinodeBit, hdataBit, hinode, hcontent⟩ := @Fs.volume_outside s.superblock.layout h.sound
    (Fs.updateInodeOnDisk s inode).disk
    (fsSaveFile (Fs.updateInodeOnDisk s inode) mem inode a).disk inode.Holds
    (fun b hb => (hplaced b ((hsame.holds b).mp hb)).1) fun p hp => by
      unfold fsSaveFile
      rw [hext]
      refine saveExtents_out (fun i hi hlen => ?_) fun i hi hin => hp ⟨i, List.mem_range.mp hi, hin⟩
      -- the last block of the extent is one of the file
      have hlast : inode.Holds (inode.extentFirst i + inode.extentLength i - 1) :=
        ⟨i, List.mem_range.mp hi, by omega, by omega⟩
      have hlt := (hplaced _ ((hsame.holds _).mp hlast)).2
      have hdisk := h.dataBits_le
      omega
  change (fsSaveFile (Fs.updateInodeOnDisk s inode) mem inode a).volume.inodeBit =
    (Fs.updateInodeOnDisk s inode).volume.inodeBit at hinodeBit
  change (fsSaveFile (Fs.updateInodeOnDisk s inode) mem inode a).volume.dataBit =
    (Fs.updateInodeOnDisk s inode).volume.dataBit at hdataBit
  change (fsSaveFile (Fs.updateInodeOnDisk s inode) mem inode a).volume.inode =
    (Fs.updateInodeOnDisk s inode).volume.inode at hinode
  rw [hput] at hinodeBit hdataBit hinode
  refine ⟨hinodeBit, hdataBit, hinode, fun b hb => (hcontent b hb).trans ?_⟩
  show (Fs.updateInodeOnDisk s inode).volume.content b = s.volume.content b
  rw [hput]
  rfl

/-- **Saving a file** changes its inode and its blocks. -/
theorem fsSaveFile_inPlace (mem : Bytes) (a : Nat) :
    Fs.InPlace s (fsSaveFile (Fs.updateInodeOnDisk s inode) mem inode a) n := by
  obtain ⟨hinodeBit, hdataBit, hinode, hcontent⟩ := fsSaveFile_volume h hf hsame mem a
  refine ⟨⟨rfl, rfl, rfl, fun i hi => ?_, fun b hb => ?_⟩, hinodeBit, hdataBit, ?_⟩
  · rw [hinode]
    exact Function.update_of_ne hi _ _
  · exact hcontent b fun hold => hb ((hsame.holds b).mp hold)
  · rw [hinode, Function.update_self]
    exact hsame

end

/-! ## 2. Runs -/

/-- The calls on regular files. -/
inductive Request
  | open (ext : Ext) (filepath : CString) (flags : Nat)
  | write (ext : Ext) (fd : Int) (buf : Bytes) (len : Nat)
  | close (ext : Ext) (fd : Int)
  | create (env : Fs.Env) (path : CString)
  | delete (env : Fs.Env) (path : CString)

/-- One call, with the record of the files that are open. -/
def Session.request (s : Session) : Request → Session
  | .open ext filepath flags => s.call (.open ext filepath flags)
  | .write ext fd buf len => s.call (.write ext fd buf len)
  | .close ext fd => s.call (.close ext fd)
  | .create env path =>
    ⟨{ s.kernel with fs := (Fs.fsCreateFile env s.kernel.fs path).2 }, s.file⟩
  | .delete env path =>
    ⟨{ s.kernel with fs := (Fs.fsDeleteFile env s.kernel.fs path).2 }, s.file⟩

/-- Every call leads to one state. -/
def RequestStep (s : Session) (r : Request) (s' : Session) : Prop := s' = s.request r

/-- A descriptor is open on inode `n`. -/
def Session.IsOn (s : Session) (n : Nat) : Prop := ∃ fd, s.file fd = some n

/-- The path leads nowhere, and the bits of the inode and of its blocks are clear. -/
structure Gone (env : Fs.Env) (t : State) (path : CString) (file : Inode) : Prop where
  path : (Fs.inodeFromPath env t path).id = 0
  inodeBit : t.volume.inodeBit file.id = false
  dataBits : ∀ b, file.Holds b → t.volume.dataBit b = false

/-- The inode, its blocks and their bits are as before. -/
structure Intact (s t : State) (file : Inode) : Prop where
  inode : t.volume.inode file.id = s.volume.inode file.id
  inodeBit : t.volume.inodeBit file.id = s.volume.inodeBit file.id
  dataBits : ∀ b, file.Holds b → t.volume.dataBit b = s.volume.dataBit b
  content : ∀ b, file.Holds b → t.volume.content b = s.volume.content b

/-- **A deletion respects the descriptors**: when it returns true, the file is gone if no descriptor
is open on it, and left as it is if one is. -/
def Respects (s : Session) (env : Fs.Env) (path : CString) : Prop :=
  (Fs.fsDeleteFile env s.kernel.fs path).1 = true →
    (¬ s.IsOn (Fs.inodeFromPath env s.kernel.fs path).id →
      Gone env (Fs.fsDeleteFile env s.kernel.fs path).2 path
        (Fs.inodeFromPath env s.kernel.fs path)) ∧
    (s.IsOn (Fs.inodeFromPath env s.kernel.fs path).id →
      Intact s.kernel.fs (Fs.fsDeleteFile env s.kernel.fs path).2
        (Fs.inodeFromPath env s.kernel.fs path))

/-! ## 3. The condition on a call -/

/-- When a regular file is opened as the disk has it: both tables have an element for it, and one
that has its number already has its type and its extents. -/
structure Openable (k : Kernel) (inode : Inode) : Prop where
  regular : inode.type = Fs.filetypeFile
  descriptor : ∃ d < maxOpen, (k.openFileTable d).refCount = 0
  element : HasElement k.openInodeTable inode.id
  agrees : ∀ i < maxOpen, (k.openInodeTable i).id = inode.id →
    Fs.SameFile (k.openInodeTable i) inode

/-- When a creation keeps the disk in order: the new file gets an inode and a block of its own. -/
def CreationOk (env : Fs.Env) (s : State) (path : CString) : Prop :=
  Fs.CreateOk env s path ∧ (Fs.CreateRefused env s path ∨ Fs.AnotherFree s)

/-- When an `open` keeps the tables and the disk in order: the path leads through directories, a
file that is created gets an inode and a block of its own, and the file can be opened. -/
structure OpenOk (s : Session) (ext : Ext) (filepath : CString) (flags : Nat) : Prop where
  way : Fs.PathOk ext.fsEnv s.kernel.fs filepath
  create : (Fs.inodeFromPath ext.fsEnv s.kernel.fs filepath).id = 0 → hasFlag flags oCreat = true →
    CreationOk ext.fsEnv s.kernel.fs filepath
  openable : (inodeToOpen ext s.kernel filepath flags).id ≠ 0 →
    Openable s.kernel (inodeToOpen ext s.kernel filepath flags)

/-- When a `close` clears no element in use: its count is not 1 while another descriptor has it. -/
def CloseOk (s : Session) (fd : Int) : Prop :=
  ∀ i, (s.kernel.openFileTable fd.toNat).inode = some i → (s.kernel.openInodeTable i).refCount = 1 →
    ∀ e, e ≠ fd.toNat → (s.kernel.openFileTable e).inode ≠ some i

/-- When the file has one entry: the names of the path fit into entries, the size of the directory
counts the entry, and no other one that begins with the name leads elsewhere. -/
structure EntryOk (env : Fs.Env) (s : State) (path : CString) : Prop where
  names : ∀ c ∈ Fs.walked path, c.length < 60
  size : Fs.dirEntrySize ≤ (Fs.parentInodeFromPath env s path).sizeBytes
  only : ∀ c, (Fs.walked path).getLast? = some c → Fs.OnlyEntry env s
    (Fs.parentInodeFromPath env s path) (Fs.inodeFromPath env s path).id c

/-- When a deletion decides by a count that is right: the path leads through directories, to a file
with one entry unless the call is refused, and the count of a file on the disk is above 1 when a
descriptor is open on it, and only then. -/
structure DeleteOk (s : Session) (env : Fs.Env) (path : CString) : Prop where
  way : Fs.PathOk env s.kernel.fs path
  entry : Fs.DeleteRefused env s.kernel.fs path ∨ EntryOk env s.kernel.fs path
  counted : (Fs.inodeFromPath env s.kernel.fs path).type = Fs.filetypeFile →
    (1 < (Fs.inodeFromPath env s.kernel.fs path).refCount ↔
      s.IsOn (Fs.inodeFromPath env s.kernel.fs path).id)

/-- When a deletion keeps the disk in order and the files that are open: the path leads through
directories, the directory keeps the block of the entry, and the count of a file on which a
descriptor is open is above 1. -/
structure DeletionKept (s : Session) (env : Fs.Env) (path : CString) : Prop where
  way : Fs.PathOk env s.kernel.fs path
  kept : Fs.DeleteRefused env s.kernel.fs path ∨
    ¬ Fs.ReleasesBlock env (Fs.releaseInode s.kernel.fs (Fs.inodeFromPath env s.kernel.fs path))
      (Fs.parentInodeFromPath env s.kernel.fs path) (Fs.inodeFromPath env s.kernel.fs path).id
  counted : (Fs.inodeFromPath env s.kernel.fs path).type = Fs.filetypeFile →
    s.IsOn (Fs.inodeFromPath env s.kernel.fs path).id →
      1 < (Fs.inodeFromPath env s.kernel.fs path).refCount

/-- The condition on a call. -/
def RequestOk (s : Session) : Request → Prop
  | .open ext filepath flags => OpenOk s ext filepath flags
  | .write _ _ _ _ => True
  | .close _ fd => CloseOk s fd
  | .create env path => CreationOk env s.kernel.fs path
  | .delete env path => DeletionKept s env path

/-! ## 4. The invariant -/

/-- **An open descriptor**: its element of the inode table has the number, the type and the extents
of a regular file on the disk. -/
structure OnFile (k : Kernel) (fd id : Nat) : Prop where
  once : (k.openFileTable fd).refCount = 1
  carries : Fs.Carries k.fs id
  regular : (k.fs.volume.inode id).type = Fs.filetypeFile
  element : ∃ i, (k.openFileTable fd).inode = some i ∧
    Fs.SameFile (k.openInodeTable i) (k.fs.volume.inode id)

/-- **The invariant**: the disk is sane and laid out, open descriptors have the inode that is on
it, and the others have none. -/
structure Settled (s : Session) : Prop where
  sane : Fs.Sane s.kernel.fs
  laid : Fs.LaidOut s.kernel.fs
  opened : ∀ fd id, s.file fd = some id → OnFile s.kernel fd id
  closed : ∀ fd, s.file fd = none → (s.kernel.openFileTable fd).inode = none

/-- A file of a disk that is laid out. -/
theorem plainFile_carries {s : State} (h : Fs.Sane s) (hl : Fs.LaidOut s) {n : Nat}
    (hn : Fs.Carries s n) (htype : (s.volume.inode n).type = Fs.filetypeFile) : PlainFile s n := by
  refine ⟨hn, htype, fun j hj b hb => ?_⟩
  have hne : (s.volume.inode n).id ≠ (s.volume.inode j).id := by
    rw [hn.2, hj.1.2]
    rintro rfl
    rw [hj.2] at htype
    exact absurd htype (by decide)
  exact h.apart hl hn.onDisk hj.1.onDisk hne hb

/-- The disk changes, and keeps the files that are open. -/
theorem OnFile.disk {k : Kernel} {fd id : Nat} (h : OnFile k fd id) {t : State}
    (hsame : Fs.SameFile (t.volume.inode id) (k.fs.volume.inode id)) :
    OnFile { k with fs := t } fd id := by
  obtain ⟨i, hptr, helement⟩ := h.element
  exact ⟨h.once, ⟨h.carries.1, hsame.id.trans h.carries.2⟩, hsame.type.trans h.regular, i, hptr,
    helement.trans hsame.symm⟩

/-- **The disk changes**, and keeps the files that are open. -/
theorem Settled.disk {s : Session} (h : Settled s) {t : State} (hsane : Fs.Sane t)
    (hlaid : Fs.LaidOut t) (hsame : ∀ fd id, s.file fd = some id →
      Fs.SameFile (t.volume.inode id) (s.kernel.fs.volume.inode id)) :
    Settled ⟨{ s.kernel with fs := t }, s.file⟩ :=
  ⟨hsane, hlaid, fun fd id hfile => (h.opened fd id hfile).disk (hsame fd id hfile), h.closed⟩

/-! ## 5. `syscall_open` -/

theorem sameFile_setRefCount (inode : Inode) (v : Nat) :
    Fs.SameFile (inode.setRefCount v) inode := by
  have hsame := same_setRefCount inode v
  exact ⟨(hsame.mono (by decide) (by decide)).get32, (hsame.mono (by decide) (by decide)).get8,
    fun k hk => (hsame.mono (by omega) (by omega)).get32,
    fun k hk => (hsame.mono (by omega) (by omega)).get32⟩

/-- The element of a file that is opened: it agrees with the inode, and was empty or is what it
was. -/
theorem Openable.enter {k : Kernel} {f : Inode} (h : Openable k f) : ∃ i inode,
    enterInode k.openInodeTable f = (i, Function.update k.openInodeTable i inode) ∧
      Fs.SameFile inode f ∧
      ((k.openInodeTable i).id = 0 ∨ Fs.SameFile inode (k.openInodeTable i)) := by
  unfold enterInode
  by_cases hin : ∃ i < maxOpen, (k.openInodeTable i).id = f.id
  · obtain ⟨hlt, hid⟩ := searchInode_found hin
    have hsame := sameFile_setRefCount (k.openInodeTable (searchInode k.openInodeTable f.id))
    simp only [if_pos hid.symm]
    exact ⟨_, _, rfl, (hsame _).trans (h.agrees _ hlt hid), Or.inr (hsame _)⟩
  · obtain ⟨hbehind, hempty⟩ := h.element.resolve_left hin
    have habsent : ∀ j < maxOpen, (k.openInodeTable j).id ≠ f.id := fun j hj hid => hin ⟨j, hj, hid⟩
    rw [searchInode_absent habsent]
    simp only [if_neg hbehind.symm]
    exact ⟨_, _, rfl, .refl f, Or.inl (searchInode_found hempty).2⟩

/-- **A file is opened** as the disk has it. -/
theorem Settled.opens {s : Session} (h : Settled s) {ext : Ext} {f : Inode} {flags : Nat}
    (hf : Fs.OnDisk s.kernel.fs f) (hok : Openable s.kernel f) :
    Settled ⟨(openInode ext s.kernel f flags).2,
      Function.update s.file (openInode ext s.kernel f flags).1 (some f.id)⟩ := by
  obtain ⟨i, inode, henter, hsame, hslot⟩ := hok.enter
  obtain ⟨fd, hfd⟩ : ∃ fd, fd = (openInode ext s.kernel f flags).1 := ⟨_, rfl⟩
  obtain ⟨k, hk⟩ : ∃ k, k = (openInode ext s.kernel f flags).2 := ⟨_, rfl⟩
  obtain ⟨-, hinodes, hfiles, -, -, hfs⟩ := openInode_tables
    (Prod.ext hfd.symm hk.symm : openInode ext s.kernel f flags = (fd, k)) henter
  rw [← hfd, ← hk]
  refine ⟨?_, ?_, fun e id hfile => ?_, fun e hfile => ?_⟩
  · show Fs.Sane k.fs
    rw [hfs]
    exact h.sane
  · show Fs.LaidOut k.fs
    rw [hfs]
    exact h.laid
  · show OnFile k e id
    change Function.update s.file fd (some f.id) e = some id at hfile
    by_cases he : e = fd
    · subst he
      rw [Function.update_self] at hfile
      obtain rfl := Option.some.inj hfile
      refine ⟨?_, ?_, ?_, i, ?_, ?_⟩
      · rw [hfiles, Function.update_self]
        rfl
      · rw [hfs]
        exact hf.carries
      · rw [hfs, hf.2]
        exact hok.regular
      · rw [hfiles, Function.update_self]
        rfl
      · rw [hinodes, Function.update_self, hfs, hf.2]
        exact hsame
    · rw [Function.update_of_ne he] at hfile
      obtain ⟨honce, hcarries, hregular, j, hptr, helement⟩ := h.opened e id hfile
      refine ⟨?_, ?_, ?_, j, ?_, ?_⟩
      · rw [hfiles, Function.update_of_ne he]
        exact honce
      · rw [hfs]
        exact hcarries
      · rw [hfs]
        exact hregular
      · rw [hfiles, Function.update_of_ne he]
        exact hptr
      · rw [hinodes, hfs]
        by_cases hj : j = i
        · subst hj
          rw [Function.update_self]
          -- an element in use is not an empty one
          have hused : (s.kernel.openInodeTable j).id ≠ 0 := by
            rw [helement.id, hcarries.2]
            exact hcarries.1
          exact (hslot.resolve_left hused).trans helement
        · rw [Function.update_of_ne hj]
          exact helement
  · show (k.openFileTable e).inode = none
    change Function.update s.file fd (some f.id) e = none at hfile
    by_cases he : e = fd
    · subst he
      rw [Function.update_self] at hfile
      cases hfile
    · rw [Function.update_of_ne he] at hfile
      rw [hfiles, Function.update_of_ne he]
      exact h.closed e hfile

/-- **A file is created** next to those that are open. -/
theorem Settled.creates {s : Session} (h : Settled s) {env : Fs.Env} {path : CString}
    (hok : CreationOk env s.kernel.fs path) :
    Settled ⟨{ s.kernel with fs := (Fs.fsCreateFile env s.kernel.fs path).2 }, s.file⟩ ∧
      ((Fs.fsCreateFile env s.kernel.fs path).1.id ≠ 0 →
        Fs.OnDisk (Fs.fsCreateFile env s.kernel.fs path).2
          (Fs.fsCreateFile env s.kernel.fs path).1) := by
  obtain ⟨hok, hfree⟩ := hok
  by_cases hrefused : Fs.CreateRefused env s.kernel.fs path
  · rw [Fs.fsCreateFile_refused hrefused]
    exact ⟨h, fun hne => absurd Fs.id_noInode hne⟩
  obtain ⟨hfits, hinode, hcap, -⟩ := hok.room.resolve_left hrefused
  obtain ⟨hname, hparent⟩ := not_or.mp hrefused
  have hid : (Fs.fsCreateFile env s.kernel.fs path).1.id =
      s.kernel.fs.superblock.firstFreeInodeBit := by
    have hcall := Fs.fsCreateFile_eq (Bool.not_eq_true _ ▸ hname) hparent
    rw [hcall]
    exact Fs.id_createdInode env s.kernel.fs
  have hne : (Fs.fsCreateFile env s.kernel.fs path).1.id ≠ 0 := hid ▸ hinode
  obtain ⟨hstored, hothers⟩ := h.sane.created_inode hok hne
  have hp := (h.sane.created hok hne).2.2.1
  have hkept : Fs.CreateKept env s.kernel.fs path := by
    refine Or.inr ⟨⟨h.sane.live _ hp.carries, hp.2⟩, hcap, hfree.resolve_left hrefused,
      fun hneed => ?_⟩
    rw [hfits] at hneed
    cases hneed
  refine ⟨h.disk (h.sane.create hok) (Fs.create_laidOut h.laid hkept) fun fd id hfile =>
    (hothers id (h.opened fd id hfile).carries).sameFile, fun _ => ⟨hne, ?_⟩⟩
  rw [hid, hstored, (h.sane.created hok hne).1]

/-- **`syscall_open`.** -/
theorem Settled.open {s : Session} (h : Settled s) {ext : Ext} {filepath : CString} {flags : Nat}
    (hok : OpenOk s ext filepath flags) : Settled (s.call (.open ext filepath flags)) := by
  obtain ⟨hway, hcreate, hopenable⟩ := hok
  have hneg : ¬ ∀ n : Nat, (n : Int) < 0 := fun hall => absurd (hall 0) (by decide)
  unfold Session.call syscallOpen
  unfold inodeToOpen at hopenable ⊢
  by_cases hfound : (Fs.inodeFromPath ext.fsEnv s.kernel.fs filepath).id ≠ 0
  · simp only [if_pos hfound] at hopenable ⊢
    have hf := (h.sane.inodeFromPath hway).onDisk hfound
    rw [if_neg (Int.not_lt.mpr (Int.natCast_nonneg _)), Int.toNat_natCast]
    exact h.opens hf (hopenable hfound)
  simp only [if_neg hfound] at hopenable ⊢
  by_cases hflag : hasFlag flags oCreat = true
  · obtain ⟨hcreated, hstored⟩ := h.creates (hcreate (not_not.mp hfound) hflag)
    simp only [hflag, Bool.not_true, Bool.false_eq_true, if_false] at hopenable ⊢
    by_cases hid : (Fs.fsCreateFile ext.fsEnv s.kernel.fs filepath).1.id = 0
    · simp only [if_pos hid]
      exact hcreated
    · simp only [if_neg hid]
      rw [if_neg (Int.not_lt.mpr (Int.natCast_nonneg _)), Int.toNat_natCast]
      obtain ⟨hregular, hdescriptor, helement, hagrees⟩ := hopenable hid
      exact hcreated.opens (hstored hid) ⟨hregular, hdescriptor, helement, hagrees⟩
  · rw [Bool.not_eq_true] at hflag
    simp only [hflag, Bool.not_false, if_true]
    exact h

/-! ## 6. `syscall_write` and `syscall_close` -/

/-- **`syscall_write`** rewrites the file in place. -/
theorem Settled.write {s : Session} (h : Settled s) (ext : Ext) (fd : Int) (buf : Bytes)
    (len : Nat) : Settled (s.call (.write ext fd buf len)) := by
  show Settled ⟨(syscallWrite ext s.kernel fd buf len).2, s.file⟩
  rcases syscallWrite_cases ext s.kernel fd buf len with hsame | ⟨i, -, hptr, -, hwrites⟩
  · rw [hsame]
    exact h
  rw [hwrites]
  cases hfile : s.file fd.toNat with
  | none =>
    rw [h.closed _ hfile] at hptr
    cases hptr
  | some n =>
    obtain ⟨-, hcarries, hregular, j, hptr', helement⟩ := h.opened _ n hfile
    obtain rfl := Option.some.inj (hptr'.symm.trans hptr)
    obtain ⟨offset, hoffset⟩ : ∃ offset, offset =
        u32 (writeOffset s.kernel (s.kernel.openFileTable fd.toNat) + len) := ⟨_, rfl⟩
    have hresized := (sameExtents_resized (s.kernel.openInodeTable j) offset).sameFile
    have hdisk := fsSaveFile_inPlace h.sane (plainFile_carries h.sane h.laid hcarries hregular)
      (hresized.trans helement) (writeFile ext s.kernel fd.toNat j buf len).mem
      (s.kernel.openFileTable fd.toNat).address
    have hfs : (writeFile ext s.kernel fd.toNat j buf len).fs =
        fsSaveFile (Fs.updateInodeOnDisk s.kernel.fs (resized (s.kernel.openInodeTable j) offset))
          (writeFile ext s.kernel fd.toNat j buf len).mem
          (resized (s.kernel.openInodeTable j) offset)
          (s.kernel.openFileTable fd.toNat).address := by
      rw [hoffset]
      rfl
    have hinodes : (writeFile ext s.kernel fd.toNat j buf len).openInodeTable =
        Function.update s.kernel.openInodeTable j (resized (s.kernel.openInodeTable j) offset) := by
      rw [hoffset]
      rfl
    have hfiles : ∀ e, ((writeFile ext s.kernel fd.toNat j buf len).openFileTable e).inode =
        (s.kernel.openFileTable e).inode ∧
        ((writeFile ext s.kernel fd.toNat j buf len).openFileTable e).refCount =
          (s.kernel.openFileTable e).refCount := by
      intro e
      unfold writeFile
      by_cases he : e = fd.toNat
      · subst he
        simp only [Function.update_self, and_self]
      · simp only [Function.update_of_ne he, and_self]
    rw [← hfs] at hdisk
    generalize writeFile ext s.kernel fd.toNat j buf len = k at *
    refine ⟨hdisk.sane h.sane (plainFile_carries h.sane h.laid hcarries hregular),
      hdisk.laidOut h.laid, fun e id he => ?_, fun e he => (hfiles e).1.trans (h.closed e he)⟩
    obtain ⟨honce, hc, hr, j', hj', hsame⟩ := h.opened e id he
    have hkept := hdisk.sameFile id
    refine ⟨(hfiles e).2.trans honce, (hdisk.carries id).mpr hc, hkept.type.trans hr, j',
      (hfiles e).1.trans hj', ?_⟩
    show Fs.SameFile (k.openInodeTable j') _
    rw [hinodes]
    by_cases heq : j' = j
    · rw [heq, Function.update_self]
      exact (hresized.trans (heq ▸ hsame)).trans hkept.symm
    · rw [Function.update_of_ne heq]
      exact hsame.trans hkept.symm

/-- An element whose count is not 1 keeps its file. -/
theorem sameFile_releasedInode {inode : Inode} (h : inode.refCount ≠ 1) :
    Fs.SameFile (releasedInode inode) inode := by
  have hroom : inode.refCount < 256 := Packed.get8_lt _ _
  unfold releasedInode
  have hcount : (inode.setRefCount (u8 (inode.refCount + 255))).refCount ≠ 0 := by
    rw [Fs.Inode.refCount_setRefCount]
    unfold u8
    omega
  simp only [if_neg hcount]
  exact sameFile_setRefCount _ _

/-- **`syscall_close`** clears no element in use. -/
theorem Settled.close {s : Session} (h : Settled s) {ext : Ext} {fd : Int}
    (hok : CloseOk s fd) : Settled (s.call (.close ext fd)) := by
  show Settled ⟨(syscallClose ext s.kernel fd).2,
    if fd < 0 then s.file else Function.update s.file fd.toNat none⟩
  by_cases hneg : fd < 0
  · have hsame : syscallClose ext s.kernel fd = (-1, s.kernel) := if_pos hneg
    rw [hsame, if_pos hneg]
    exact h
  rw [if_neg hneg]
  obtain ⟨d, rfl⟩ := Int.eq_ofNat_of_zero_le (Int.not_lt.mp hneg)
  unfold CloseOk at hok
  rw [Int.toNat_natCast] at *
  have hfs := syscallClose_fs ext s.kernel d
  cases hfile : s.file d with
  | none =>
    have hsame : syscallClose ext s.kernel d = (-1, s.kernel) := by
      unfold syscallClose
      rw [if_neg hneg]
      simp only [Int.toNat_natCast, h.closed d hfile]
    rw [hsame]
    have hupdate : Function.update s.file d none = s.file := Function.update_eq_self_iff.mpr hfile.symm
    rw [hupdate]
    exact h
  | some n =>
    obtain ⟨honce, hcarries, -, i, hptr, helement⟩ := h.opened d n hfile
    obtain ⟨hfiles, hinodes, -⟩ := @syscallClose_tables ext s.kernel d i honce hptr
    generalize (syscallClose ext s.kernel d).2 = k at *
    refine ⟨hfs ▸ h.sane, hfs ▸ h.laid, fun e id he => ?_, fun e he => ?_⟩
    · change Function.update s.file d none e = some id at he
      by_cases hed : e = d
      · subst hed
        rw [Function.update_self] at he
        cases he
      rw [Function.update_of_ne hed] at he
      obtain ⟨honce', hc, hr, j, hj, hsame⟩ := h.opened e id he
      show OnFile k e id
      refine ⟨?_, hfs ▸ hc, hfs ▸ hr, j, ?_, ?_⟩
      · rw [hfiles, Function.update_of_ne hed]
        exact honce'
      · rw [hfiles, Function.update_of_ne hed]
        exact hj
      · rw [hinodes, hfs]
        by_cases heq : j = i
        · subst heq
          rw [Function.update_self]
          -- the element is still in use, and keeps all but its count
          have hcount : (s.kernel.openInodeTable j).refCount ≠ 1 := fun hone =>
            hok j hptr hone e hed hj
          exact (sameFile_releasedInode hcount).trans hsame
        · rw [Function.update_of_ne heq]
          exact hsame
    · change Function.update s.file d none e = none at he
      show (k.openFileTable e).inode = none
      rw [hfiles]
      by_cases hed : e = d
      · subst hed
        rw [Function.update_self]
        rfl
      · rw [Function.update_of_ne hed] at he ⊢
        exact h.closed e he

/-! ## 7. `fs_delete_file` -/

/-- A deletion that is refused and returns true found the count above 1. -/
theorem fsDeleteFile_shared {env : Fs.Env} {s : State} {path : CString}
    (hrefused : Fs.DeleteRefused env s path) (hdone : (Fs.fsDeleteFile env s path).1 = true) :
    (Fs.inodeFromPath env s path).type = Fs.filetypeFile ∧
      1 < (Fs.inodeFromPath env s path).refCount := by
  unfold Fs.fsDeleteFile at hdone
  split at hdone
  · cases hdone
  next hspecial =>
    simp only at hdone
    split at hdone
    · cases hdone
    next hnone =>
      split at hdone
      · cases hdone
      next htype =>
        obtain ⟨hinode, hparent⟩ := not_or.mp hnone
        rcases hrefused with h | h | h | h | h
        · exact absurd h hspecial
        · exact absurd h hinode
        · exact absurd h hparent
        · exact absurd h htype
        · exact ⟨not_not.mp htype, h⟩

section

variable {s : Session} (h : Settled s) {env : Fs.Env} {path : CString}

include h

/-- **A deletion respects the descriptors.** -/
theorem Settled.respects (hok : DeleteOk s env path) : Respects s env path := by
  intro hdone
  by_cases hrefused : Fs.DeleteRefused env s.kernel.fs path
  · obtain ⟨htype, hcount⟩ := fsDeleteFile_shared hrefused hdone
    have hon := (hok.counted htype).mp hcount
    rw [Fs.fsDeleteFile_refused hrefused]
    exact ⟨fun hnot => absurd hon hnot, fun _ => ⟨rfl, rfl, fun _ _ => rfl, fun _ _ => rfl⟩⟩
  have hentry := hok.entry.resolve_left hrefused
  obtain ⟨hremoved, hbit, hbits⟩ := Fs.removed_delete h.sane h.laid hok.way hrefused hdone
  unfold Fs.DeleteRefused at hrefused
  push Not at hrefused
  obtain ⟨-, hinode, -, htype, hcount⟩ := hrefused
  have hfile := (h.sane.inodeFromPath hok.way).onDisk hinode
  refine ⟨fun _ => ⟨?_, hbit, hbits⟩, fun hon => ?_⟩
  · exact hremoved.unresolved h.sane hentry.size hok.way rfl (hfile.2.symm ▸ htype) hentry.names
      hentry.only
  · exact absurd ((hok.counted htype).mpr hon) (Nat.not_lt.mpr hcount)

/-- **The other files stay.** -/
theorem Settled.delete (hok : DeletionKept s env path) :
    Settled (s.request (.delete env path)) := by
  show Settled ⟨{ s.kernel with fs := (Fs.fsDeleteFile env s.kernel.fs path).2 }, s.file⟩
  by_cases hrefused : Fs.DeleteRefused env s.kernel.fs path
  · rw [Fs.fsDeleteFile_refused hrefused]
    exact h
  have hreleases := hok.kept.resolve_left hrefused
  have hothers := fun i => @Fs.delete_inode env s.kernel.fs path h.sane hok.way hrefused i
  have hgo := hrefused
  unfold Fs.DeleteRefused at hgo
  push Not at hgo
  obtain ⟨-, hinode, hparent, htype, hcount⟩ := hgo
  have hfile := (h.sane.inodeFromPath hok.way).onDisk hinode
  obtain ⟨hfound, hnofile⟩ := h.sane.parent hok.way
  have hp := hfound.onDisk hparent
  have hkept : Fs.DeleteKept env s.kernel.fs path := Or.inr
    ⟨⟨h.sane.live _ hfile.carries, hfile.2⟩, ⟨h.sane.live _ hp.carries, hp.2⟩, Or.inr hreleases⟩
  refine h.disk (h.sane.delete hok.way) (Fs.delete_laidOut h.laid hkept) fun fd id hfd => ?_
  rw [hothers id, if_neg]
  · exact .refl _
  · rintro rfl
    exact absurd (hok.counted htype ⟨fd, hfd⟩) (Nat.not_lt.mpr hcount)
  · rintro rfl
    have hregular := (h.opened fd _ hfd).regular
    rw [hp.2, hnofile.resolve_left hparent] at hregular
    exact absurd hregular (by decide)

end

/-! ## 8. Whole runs -/

/-- A kernel without open files, on a sane disk that is laid out. -/
structure Started (k : Kernel) : Prop where
  sane : Fs.Sane k.fs
  laid : Fs.LaidOut k.fs
  tables : Booted k

theorem Started.settled {k : Kernel} (h : Started k) : Settled ⟨k, fun _ => none⟩ := by
  refine ⟨h.sane, h.laid, fun fd id hfile => (by cases hfile), fun fd _ => ?_⟩
  show (k.openFileTable fd).inode = none
  rw [h.tables.1 fd]
  rfl

/-- **One call.** -/
theorem Settled.step {s s' : Session} {r : Request} (h : Settled s) (hok : RequestOk s r)
    (hstep : RequestStep s r s') : Settled s' := by
  obtain rfl : s' = s.request r := hstep
  cases r with
  | «open» ext filepath flags => exact h.open hok
  | write ext fd buf len => exact h.write ext fd buf len
  | close ext fd => exact h.close hok
  | create env path => exact (h.creates hok).1
  | delete env path => exact h.delete hok

/-- **Deletions respect open descriptors**, in every run of calls that meet the condition. -/
theorem deletions_respect (k : Kernel) (h : Started k) (s : Session)
    (hrun : Reach RequestStep RequestOk ⟨k, fun _ => none⟩ s) (env : Fs.Env) (path : CString)
    (hok : DeleteOk s env path) : Respects s env path :=
  have hsettled : Settled s :=
    hrun.invariant h.settled fun _ _ _ hs hok' hstep => hs.step hok' hstep
  hsettled.respects hok

/-! ## 9. A file that is open -/

/-- `x` was created, and a descriptor is open on it. -/
def createdSession : Session :=
  Session.request ⟨quietKernel, fun _ => none⟩ (.open zeroExt Fs.plainPath (oCreat ||| oRdwr))

theorem quietKernel_started : Started quietKernel :=
  ⟨(Fs.bootable_wellFormed (by decide)).toSane, (Fs.bootable_built (by decide)).laidOut,
    fun _ => rfl, fun _ _ => rfl⟩

theorem plainPath_opened :
    (inodeToOpen zeroExt quietKernel Fs.plainPath (oCreat ||| oRdwr)).id = 3 ∧
      createdSession.file = Function.update (fun _ => none) 0 (some 3) := by
  have hid : (inodeToOpen zeroExt quietKernel Fs.plainPath (oCreat ||| oRdwr)).id = 3 := by
    decide +kernel
  have hfd : (syscallOpen zeroExt quietKernel Fs.plainPath (oCreat ||| oRdwr)).1 = 0 := by
    decide +kernel
  refine ⟨hid, ?_⟩
  unfold createdSession Session.request Session.call
  simp only [hfd, hid]
  rfl

/-- The path leads to inode 3, which the deletion clears. -/
theorem plainPath_deleted :
    (Fs.inodeFromPath Fs.quietEnv createdKernel.fs Fs.plainPath).id = 3 ∧
      createdKernel.fs.volume.inodeBit 3 = true ∧
      (Fs.fsDeleteFile Fs.quietEnv createdKernel.fs Fs.plainPath).1 = true ∧
      (Fs.fsDeleteFile Fs.quietEnv createdKernel.fs Fs.plainPath).2.volume.inodeBit 3 = false := by
  decide +kernel

/-- **An open file is deleted**: the count on the disk is 0. -/
theorem open_file_deleted : ¬ ∀ (k : Kernel), Started k → ∀ s : Session,
    Reach RequestStep (fun _ _ => True) ⟨k, fun _ => none⟩ s → ∀ (env : Fs.Env) (path : CString),
      Respects s env path := by
  intro hall
  obtain ⟨-, hfile⟩ := plainPath_opened
  obtain ⟨hid, hset, hdone, hclear⟩ := plainPath_deleted
  have hrespects := hall quietKernel quietKernel_started createdSession (.tail .refl trivial rfl)
    Fs.quietEnv Fs.plainPath hdone
  have hon : createdSession.IsOn (Fs.inodeFromPath Fs.quietEnv createdSession.kernel.fs
      Fs.plainPath).id := by
    refine ⟨0, ?_⟩
    rw [hfile, Function.update_self]
    exact congrArg some hid.symm
  have hkept := (hrespects.2 hon).inodeBit
  change (Fs.fsDeleteFile Fs.quietEnv createdKernel.fs Fs.plainPath).2.volume.inodeBit
    (Fs.inodeFromPath Fs.quietEnv createdKernel.fs Fs.plainPath).id =
      createdKernel.fs.volume.inodeBit
        (Fs.inodeFromPath Fs.quietEnv createdKernel.fs Fs.plainPath).id at hkept
  rw [hid, hset, hclear] at hkept
  cases hkept

theorem plainPath_openOk : OpenOk ⟨quietKernel, fun _ => none⟩ zeroExt Fs.plainPath
    (oCreat ||| oRdwr) := by
  obtain ⟨hid, -⟩ := plainPath_opened
  have hempty : ∀ i, (quietKernel.openInodeTable i).id = 0 := fun _ => Fs.id_noInode
  have hother : ∀ i, (quietKernel.openInodeTable i).id ≠
      (inodeToOpen zeroExt quietKernel Fs.plainPath (oCreat ||| oRdwr)).id := fun i => by
    rw [hempty, hid]
    decide
  refine ⟨Fs.plainPath_ok ?_, fun _ _ => ⟨⟨Fs.plainPath_ok ?_, ?_, Or.inr ⟨?_, ?_, ?_, ?_⟩⟩,
    Or.inr ⟨7, ?_, ?_, ?_⟩⟩, fun _ => ⟨?_, ⟨0, by decide, rfl⟩,
      Or.inr ⟨hother _, 0, by decide, hempty 0⟩, fun i _ heq => absurd heq (hother i)⟩⟩
  · decide +kernel
  · decide +kernel
  · decide +kernel
  · decide +kernel
  · decide +kernel
  · decide +kernel
  · decide +kernel
  · decide +kernel
  · decide +kernel
  · decide +kernel
  · decide +kernel

/-- The descriptor is closed again. -/
def closedSession : Session := createdSession.request (.close zeroExt 0)

theorem closedSession_state : closedSession.kernel.fs = createdKernel.fs ∧
    ∀ fd, closedSession.file fd = none := by
  refine ⟨syscallClose_fs zeroExt createdKernel 0, fun fd => ?_⟩
  have hfile : closedSession.file = Function.update createdSession.file 0 none := rfl
  rw [hfile, plainPath_opened.2]
  by_cases hfd : fd = 0
  · rw [hfd, Function.update_self]
  · rw [Function.update_of_ne hfd, Function.update_of_ne hfd]

theorem closedSession_closeOk : CloseOk createdSession 0 := by
  intro i hi hcount e he hptr
  have hsettled : Settled createdSession := quietKernel_started.settled.open plainPath_openOk
  have hother : (createdSession.kernel.openFileTable e).inode = none := by
    refine hsettled.closed e ?_
    rw [plainPath_opened.2]
    exact Function.update_of_ne he _ _
  rw [hother] at hptr
  cases hptr

theorem closedSession_notOn (n : Nat) : ¬ closedSession.IsOn n := by
  rintro ⟨fd, hfd⟩
  rw [closedSession_state.2] at hfd
  cases hfd

theorem closedSession_deleteOk : DeleteOk closedSession Fs.quietEnv Fs.plainPath := by
  have hfs := closedSession_state.1
  have hwalked : Fs.walked Fs.plainPath = [[120]] := by decide +kernel
  refine ⟨?_, Or.inr ⟨?_, ?_, fun c hc => ?_⟩, fun _ => ?_⟩
  · rw [hfs]
    exact Fs.plainPath_ok (by decide +kernel)
  · rw [hwalked]
    decide
  · rw [hfs]
    decide +kernel
  · rw [hwalked] at hc
    obtain rfl : [120] = c := Option.some.inj hc
    rw [hfs]
    unfold Fs.OnlyEntry
    decide +kernel
  · refine iff_of_false ?_ (closedSession_notOn _)
    rw [hfs]
    decide +kernel

/-- The theorem at a run that creates the file and closes it: the deletion removes it. -/
theorem deletions_respect_closed :
    (Fs.fsDeleteFile Fs.quietEnv closedSession.kernel.fs Fs.plainPath).1 = true ∧
      Gone Fs.quietEnv (Fs.fsDeleteFile Fs.quietEnv closedSession.kernel.fs Fs.plainPath).2
        Fs.plainPath (Fs.inodeFromPath Fs.quietEnv closedSession.kernel.fs Fs.plainPath) := by
  have hopened : Reach RequestStep RequestOk ⟨quietKernel, fun _ => none⟩ createdSession :=
    .tail .refl (show RequestOk _ (.open zeroExt Fs.plainPath (oCreat ||| oRdwr)) from
      plainPath_openOk) rfl
  have hclosed : Reach RequestStep RequestOk ⟨quietKernel, fun _ => none⟩ closedSession :=
    .tail hopened (show RequestOk _ (.close zeroExt 0) from closedSession_closeOk) rfl
  have hdone : (Fs.fsDeleteFile Fs.quietEnv closedSession.kernel.fs Fs.plainPath).1 = true := by
    rw [closedSession_state.1]
    exact plainPath_deleted.2.2.1
  have hrespects := deletions_respect quietKernel quietKernel_started closedSession hclosed
    Fs.quietEnv Fs.plainPath closedSession_deleteOk
  exact ⟨hdone, (hrespects hdone).1 (closedSession_notOn _)⟩

end AmateurOs.Syscalls
