/-
# The inode table and the disk

`syscall_open` looks for the number of the file in `open_inode_table`, and uses the element that it
finds there instead of the inode on the disk.  An element leaves the table when a counter becomes
0; creations and deletions do not look at the table, and the numbers of deleted files are given to
new ones.

`opens_agree` is about the runs in which the two stay the same: along calls that meet
`RequestAgrees`, every `open` that succeeds has an element with the number, the type, the size and
the extents of the inode to which the path leads then (`OpensDisk`).  The number of a deleted file
may stay in the table, as long as it is not given to a file that differs.
-/
import AmateurOs.Syscalls.Deletions
import AmateurOs.Fs.Addition

namespace AmateurOs.Syscalls

open AmateurOs.Lib
open AmateurOs.Fs (Inode State CString PlainFile)

/-! ## 1. The property -/

/-- The number, the type, the extents and the size of two inodes are the same. -/
structure SameData (i j : Inode) : Prop where
  file : Fs.SameFile i j
  size : i.sizeBytes = j.sizeBytes

theorem SameData.refl (i : Inode) : SameData i i := ⟨.refl i, rfl⟩

theorem SameData.trans {i j k : Inode} (h : SameData i j) (h' : SameData j k) : SameData i k :=
  ⟨h.file.trans h'.file, h.size.trans h'.size⟩

theorem sameData_setRefCount (inode : Inode) (v : Nat) : SameData (inode.setRefCount v) inode :=
  ⟨sameFile_setRefCount inode v, ((same_setRefCount inode v).mono (by decide) (by decide)).get32⟩

/-- **An `open` uses the inode on the disk**: where it returns a descriptor, the element of that
descriptor has the data of the inode to which the path leads afterwards. -/
def OpensDisk (ext : Ext) (k : Kernel) (filepath : CString) (flags : Nat) : Prop :=
  ∀ fd k', syscallOpen ext k filepath flags = (fd, k') → 0 ≤ fd →
    ∃ i < maxOpen, (k'.openFileTable fd.toNat).inode = some i ∧
      SameData (k'.openInodeTable i) (Fs.inodeFromPath ext.fsEnv k'.fs filepath)

/-- The number is that of no element. -/
def Unlisted (k : Kernel) (n : Nat) : Prop := ∀ i < maxOpen, (k.openInodeTable i).id ≠ n

/-! ## 2. The condition on a call -/

/-- When a creation keeps the table right: the directory is not in it, and an element that has the
number of the new file agrees with its inode. -/
structure CreateAgrees (env : Fs.Env) (k : Kernel) (path : CString) : Prop where
  keeps : CreationOk env k.fs path
  parent : Fs.CreateRefused env k.fs path ∨ Unlisted k (Fs.parentInodeFromPath env k.fs path).id
  number : Fs.CreateRefused env k.fs path ∨ ∀ i < maxOpen,
    (k.openInodeTable i).id = k.fs.superblock.firstFreeInodeBit →
      SameData (k.openInodeTable i) (Fs.createdInode env k.fs)

/-- When an `open` finds what is on the disk: both tables have an element for the file; and a file
that is created can be reached by the path, and has an entry without a name in its directory. -/
structure OpenAgrees (ext : Ext) (k : Kernel) (filepath : CString) (flags : Nat) : Prop where
  way : Fs.PathOk ext.fsEnv k.fs filepath
  create : (Fs.inodeFromPath ext.fsEnv k.fs filepath).id = 0 → hasFlag flags oCreat = true →
    CreateAgrees ext.fsEnv k filepath ∧ (Fs.CreateRefused ext.fsEnv k.fs filepath ∨
      Fs.Reachable ext.fsEnv k.fs filepath ∧ ∃ b count,
        Fs.Place ext.fsEnv k.fs (Fs.parentInodeFromPath ext.fsEnv k.fs filepath) b count)
  element : (inodeToOpen ext k filepath flags).id ≠ 0 →
    HasElement k.openInodeTable (inodeToOpen ext k filepath flags).id

/-- When a write goes to a regular file of the disk. -/
def WriteAgrees (k : Kernel) (fd : Int) : Prop :=
  ∀ i, (k.openFileTable fd.toNat).inode = some i → (k.openFileTable fd.toNat).refCount ≠ 0 →
    Fs.Carries k.fs (k.openInodeTable i).id ∧ (k.openInodeTable i).type = Fs.filetypeFile

/-- When a deletion keeps the table right: the directory is not in it, and keeps its blocks. -/
structure DeleteAgrees (env : Fs.Env) (k : Kernel) (path : CString) : Prop where
  way : Fs.PathOk env k.fs path
  parent : Fs.DeleteRefused env k.fs path ∨ Unlisted k (Fs.parentInodeFromPath env k.fs path).id
  kept : Fs.DeleteRefused env k.fs path ∨
    ¬ Fs.ReleasesBlock env (Fs.releaseInode k.fs (Fs.inodeFromPath env k.fs path))
      (Fs.parentInodeFromPath env k.fs path) (Fs.inodeFromPath env k.fs path).id

/-- The condition on a call. -/
def RequestAgrees (s : Session) : Request → Prop
  | .open ext filepath flags => OpenAgrees ext s.kernel filepath flags
  | .write _ fd _ _ => WriteAgrees s.kernel fd
  | .close _ _ => True
  | .create env path => CreateAgrees env s.kernel path
  | .delete env path => DeleteAgrees env s.kernel path

/-! ## 3. The invariant -/

/-- **The table agrees with the disk**: no number is in it twice, and an element whose number an
inode carries has the data of that inode. -/
structure TableAgrees (k : Kernel) : Prop where
  sane : Fs.Sane k.fs
  laid : Fs.LaidOut k.fs
  root : k.fs.rootInode.id = 1
  index : ∀ fd i, (k.openFileTable fd).inode = some i → i < maxOpen
  unique : ∀ i < maxOpen, ∀ j < maxOpen, (k.openInodeTable i).id ≠ 0 →
    (k.openInodeTable i).id = (k.openInodeTable j).id → i = j
  agrees : ∀ i < maxOpen, Fs.Carries k.fs (k.openInodeTable i).id →
    SameData (k.openInodeTable i) (k.fs.volume.inode (k.openInodeTable i).id)

/-- **The disk changes**, and the inodes of the table stay. -/
theorem TableAgrees.disk {k : Kernel} (h : TableAgrees k) {t : State} (hsane : Fs.Sane t)
    (hlaid : Fs.LaidOut t) (hroot : t.rootInode.id = 1)
    (hsame : ∀ i < maxOpen, Fs.Carries t (k.openInodeTable i).id →
      SameData (k.openInodeTable i) (t.volume.inode (k.openInodeTable i).id)) :
    TableAgrees { k with fs := t } :=
  ⟨hsane, hlaid, hroot, h.index, h.unique, hsame⟩

/-- **The tables change**: one element, to one with its number and its data or to an empty one. -/
theorem TableAgrees.element {k k' : Kernel} (h : TableAgrees k) {i : Nat} {inode : Inode}
    (hfs : k'.fs = k.fs) (hinodes : k'.openInodeTable = Function.update k.openInodeTable i inode)
    (hfiles : ∀ fd j, (k'.openFileTable fd).inode = some j →
      (k.openFileTable fd).inode = some j ∨ j = i) (hi : i < maxOpen)
    (hunique : inode.id ≠ 0 → ∀ j < maxOpen, (k.openInodeTable j).id = inode.id → j = i)
    (hagrees : Fs.Carries k.fs inode.id → SameData inode (k.fs.volume.inode inode.id)) :
    TableAgrees k' := by
  refine ⟨hfs ▸ h.sane, hfs ▸ h.laid, hfs ▸ h.root, fun fd j hj => ?_, fun a ha b hb hne heq => ?_,
    fun j hj hc => ?_⟩
  · rcases hfiles fd j hj with hbefore | rfl
    · exact h.index fd j hbefore
    · exact hi
  · rw [hinodes] at hne heq
    by_cases hai : a = i
    · subst hai
      rw [Function.update_self] at hne heq
      by_cases hbi : b = a
      · exact hbi.symm
      · rw [Function.update_of_ne hbi] at heq
        exact (hunique hne b hb heq.symm).symm
    · rw [Function.update_of_ne hai] at hne heq
      by_cases hbi : b = i
      · subst hbi
        rw [Function.update_self] at heq
        exact hunique (heq ▸ hne) a ha heq
      · rw [Function.update_of_ne hbi] at heq
        exact h.unique a ha b hb hne heq
  · rw [hinodes] at hc ⊢
    rw [hfs] at hc ⊢
    by_cases hji : j = i
    · subst hji
      rw [Function.update_self] at hc ⊢
      exact hagrees hc
    · rw [Function.update_of_ne hji] at hc ⊢
      exact h.agrees j hj hc

/-! ## 4. `syscall_open` -/

/-- The element of a file that is opened: one that has its number already, or an empty one. -/
theorem HasElement.enter {table : Nat → Inode} {f : Inode} (h : HasElement table f.id) :
    ∃ i < maxOpen, ∃ inode, enterInode table f = (i, Function.update table i inode) ∧
      (((table i).id = f.id ∧ SameData inode (table i)) ∨
        (inode = f ∧ ∀ j < maxOpen, (table j).id ≠ f.id)) := by
  unfold enterInode
  by_cases hin : ∃ i < maxOpen, (table i).id = f.id
  · obtain ⟨hlt, hid⟩ := searchInode_found hin
    simp only [if_pos hid.symm]
    exact ⟨_, hlt, _, rfl, Or.inl ⟨hid, sameData_setRefCount _ _⟩⟩
  · obtain ⟨hbehind, hempty⟩ := h.resolve_left hin
    have habsent : ∀ j < maxOpen, (table j).id ≠ f.id := fun j hj hid => hin ⟨j, hj, hid⟩
    rw [searchInode_absent habsent]
    simp only [if_neg hbehind.symm]
    exact ⟨_, (searchInode_found hempty).1, _, rfl, Or.inr ⟨rfl, habsent⟩⟩

/-- **An inode of the disk is opened**: the descriptor has an element with its data. -/
theorem TableAgrees.opens {k : Kernel} (h : TableAgrees k) (ext : Ext) (flags : Nat) {f : Inode}
    (hf : Fs.OnDisk k.fs f) (helement : HasElement k.openInodeTable f.id) :
    TableAgrees (openInode ext k f flags).2 ∧ (openInode ext k f flags).2.fs = k.fs ∧
      ∃ i < maxOpen, ((openInode ext k f flags).2.openFileTable
          (openInode ext k f flags).1).inode = some i ∧
        SameData ((openInode ext k f flags).2.openInodeTable i) f := by
  obtain ⟨i, hi, inode, henter, hcases⟩ := helement.enter
  obtain ⟨fd, hfd⟩ : ∃ fd, fd = (openInode ext k f flags).1 := ⟨_, rfl⟩
  obtain ⟨k', hk'⟩ : ∃ k', k' = (openInode ext k f flags).2 := ⟨_, rfl⟩
  obtain ⟨-, hinodes, hfiles, -, -, hfs⟩ := openInode_tables
    (Prod.ext hfd.symm hk'.symm : openInode ext k f flags = (fd, k')) henter
  rw [← hfd, ← hk']
  have hdata : SameData inode f := by
    rcases hcases with ⟨hid, hsame⟩ | ⟨rfl, -⟩
    · have hagrees := h.agrees i hi (hid ▸ hf.carries)
      rw [hid, hf.2] at hagrees
      exact hsame.trans hagrees
    · exact .refl _
  have hid : inode.id = f.id := hdata.file.id
  refine ⟨h.element hfs hinodes (fun e j hj => ?_) hi (fun hne j hj heq => ?_) fun hc => ?_, hfs, i,
    hi, ?_, ?_⟩
  · rw [hfiles] at hj
    by_cases he : e = fd
    · subst he
      rw [Function.update_self] at hj
      exact Or.inr (Option.some.inj hj).symm
    · rw [Function.update_of_ne he] at hj
      exact Or.inl hj
  · rw [hid] at heq
    rcases hcases with ⟨hthis, -⟩ | ⟨-, habsent⟩
    · exact h.unique j hj i hi (heq ▸ hid ▸ hne) (heq.trans hthis.symm)
    · exact absurd heq (habsent j hj)
  · rw [hid, hf.2]
    exact hdata
  · rw [hfiles, Function.update_self]
    rfl
  · rw [hinodes, Function.update_self]
    exact hdata

/-- **A file is created** next to the elements of the table. -/
theorem TableAgrees.creates {k : Kernel} (h : TableAgrees k) {env : Fs.Env} {path : CString}
    (hok : CreateAgrees env k path) :
    TableAgrees { k with fs := (Fs.fsCreateFile env k.fs path).2 } ∧
      ((Fs.fsCreateFile env k.fs path).1.id ≠ 0 →
        ¬ Fs.CreateRefused env k.fs path ∧
        (Fs.fsCreateFile env k.fs path).1 = Fs.createdInode env k.fs ∧
        Fs.OnDisk (Fs.fsCreateFile env k.fs path).2 (Fs.createdInode env k.fs)) := by
  obtain ⟨⟨hok, hfree⟩, hparent, hnumber⟩ := hok
  by_cases hrefused : Fs.CreateRefused env k.fs path
  · rw [Fs.fsCreateFile_refused hrefused]
    exact ⟨h, fun hne => absurd Fs.id_noInode hne⟩
  obtain ⟨hfits, hinode, hcap, hdata⟩ := hok.room.resolve_left hrefused
  have hid := Fs.id_createdInode env k.fs
  have hne : (Fs.fsCreateFile env k.fs path).1.id ≠ 0 := by
    obtain ⟨hname, hparent⟩ := not_or.mp hrefused
    rw [Fs.fsCreateFile_eq (Bool.not_eq_true _ ▸ hname) hparent]
    exact hid ▸ hinode
  obtain ⟨hcall, -, hp, hr⟩ := h.sane.created hok hne
  have hstored := (h.sane.created_inode hok hne).1
  have hkept : Fs.CreateKept env k.fs path := by
    refine Or.inr ⟨⟨h.sane.live _ hp.carries, hp.2⟩, hcap, hfree.resolve_left hrefused,
      fun hneed => ?_⟩
    rw [hfits] at hneed
    cases hneed
  have hroot : (Fs.fsCreateFile env k.fs path).2.rootInode.id = 1 := by
    rw [hr.root]
    unfold Fs.refreshed
    split
    · next heq => exact (Fs.sameExtents_enlarged env _).id.trans (heq.symm.trans h.root)
    · exact h.root
  refine ⟨h.disk (h.sane.create hok) (Fs.create_laidOut h.laid hkept) hroot fun i hi hc => ?_,
    fun _ => ⟨hrefused, hcall, ?_, ?_⟩⟩
  · have hother := hparent.resolve_left hrefused i hi
    have hthis := h.agrees i hi
    have hnew := hnumber.resolve_left hrefused i hi
    generalize (k.openInodeTable i) = inode at *
    have hnow : (Fs.fsCreateFile env k.fs path).2.volume.inode inode.id =
        if inode.id = k.fs.superblock.firstFreeInodeBit then Fs.createdInode env k.fs
        else k.fs.volume.inode inode.id := by
      rw [hr.inode, Function.update_of_ne hother, h.sane.allocated_inode hinode hcap hdata]
    unfold Fs.Carries at hc
    rw [hnow] at hc ⊢
    by_cases hfresh : inode.id = k.fs.superblock.firstFreeInodeBit
    · rw [if_pos hfresh]
      exact hnew hfresh
    · rw [if_neg hfresh] at hc ⊢
      exact hthis hc
  · exact hid ▸ hinode
  · rw [hid]
    exact hstored

/-- **`syscall_open`** keeps the table right, and uses the inode on the disk. -/
theorem TableAgrees.open {k : Kernel} (h : TableAgrees k) {ext : Ext} {filepath : CString}
    {flags : Nat} (hok : OpenAgrees ext k filepath flags) :
    TableAgrees (syscallOpen ext k filepath flags).2 ∧ OpensDisk ext k filepath flags := by
  obtain ⟨hway, hcreate, helement⟩ := hok
  unfold OpensDisk syscallOpen
  unfold inodeToOpen at helement
  by_cases hfound : (Fs.inodeFromPath ext.fsEnv k.fs filepath).id ≠ 0
  · simp only [if_pos hfound] at helement ⊢
    have hf := (h.sane.inodeFromPath hway).onDisk hfound
    obtain ⟨hnow, hfs, i, hi, hptr, hdata⟩ := h.opens ext flags hf (helement hfound)
    refine ⟨hnow, fun fd k' hret _ => ?_⟩
    obtain ⟨rfl, rfl⟩ := Prod.mk.inj hret
    refine ⟨i, hi, hptr, ?_⟩
    rw [hfs]
    exact hdata
  simp only [if_neg hfound] at helement ⊢
  by_cases hflag : hasFlag flags oCreat = true
  · obtain ⟨hcreated, hplaced⟩ := hcreate (not_not.mp hfound) hflag
    obtain ⟨hkept, hstored⟩ := h.creates hcreated
    simp only [hflag, Bool.not_true, Bool.false_eq_true, if_false] at helement ⊢
    by_cases hid : (Fs.fsCreateFile ext.fsEnv k.fs filepath).1.id = 0
    · simp only [if_pos hid]
      refine ⟨hkept, fun fd k' hret hfd => ?_⟩
      obtain ⟨rfl, -⟩ := Prod.mk.inj hret
      exact absurd hfd (by decide)
    · simp only [if_neg hid]
      obtain ⟨hgiven, hcall, hon⟩ := hstored hid
      obtain ⟨hreach, b, count, hplace⟩ := hplaced.resolve_left hgiven
      have hadded := Fs.added_create h.sane hcreated.keeps.1 hid h.laid hplace
      have hpath := hadded.path h.sane h.root hway hreach
      have helement := helement hid
      rw [hcall] at helement ⊢
      obtain ⟨hnow, hfs, i, hi, hptr, hdata⟩ := hkept.opens ext flags hon helement
      refine ⟨hnow, fun fd k' hret _ => ?_⟩
      obtain ⟨rfl, rfl⟩ := Prod.mk.inj hret
      refine ⟨i, hi, hptr, ?_⟩
      rw [hfs]
      show SameData _ (Fs.inodeFromPath ext.fsEnv (Fs.fsCreateFile ext.fsEnv k.fs filepath).2 _)
      rw [hpath]
      exact hdata
  · rw [Bool.not_eq_true] at hflag
    simp only [hflag, Bool.not_false, if_true]
    refine ⟨h, fun fd k' hret hfd => ?_⟩
    obtain ⟨rfl, -⟩ := Prod.mk.inj hret
    exact absurd hfd (by decide)

/-! ## 5. `syscall_write` and `syscall_close` -/

/-- **`syscall_write`** stores the element that it leaves in the table. -/
theorem TableAgrees.write {k : Kernel} (h : TableAgrees k) {fd : Int} (hok : WriteAgrees k fd)
    (ext : Ext) (buf : Bytes) (len : Nat) : TableAgrees (syscallWrite ext k fd buf len).2 := by
  rcases syscallWrite_cases ext k fd buf len with hsame | ⟨i, -, hptr, hopen, hwrites⟩
  · rw [hsame]
    exact h
  rw [hwrites]
  obtain ⟨hcarries, hregular⟩ := hok i hptr hopen
  have hi := h.index _ i hptr
  have hon := (h.agrees i hi hcarries).file
  obtain ⟨offset, hoffset⟩ : ∃ offset, offset =
      u32 (writeOffset k (k.openFileTable fd.toNat) + len) := ⟨_, rfl⟩
  have hresized := (sameExtents_resized (k.openInodeTable i) offset).sameFile
  have hfile : PlainFile k.fs (k.openInodeTable i).id :=
    plainFile_carries h.sane h.laid hcarries (hon.type.symm.trans hregular)
  have hdisk := fsSaveFile_inPlace h.sane hfile (hresized.trans hon)
    (writeFile ext k fd.toNat i buf len).mem (k.openFileTable fd.toNat).address
  obtain ⟨-, -, hinode, -⟩ := fsSaveFile_volume h.sane hfile (hresized.trans hon)
    (writeFile ext k fd.toNat i buf len).mem (k.openFileTable fd.toNat).address
  have hfs : (writeFile ext k fd.toNat i buf len).fs =
      fsSaveFile (Fs.updateInodeOnDisk k.fs (resized (k.openInodeTable i) offset))
        (writeFile ext k fd.toNat i buf len).mem (resized (k.openInodeTable i) offset)
        (k.openFileTable fd.toNat).address := by
    rw [hoffset]
    rfl
  have hinodes : (writeFile ext k fd.toNat i buf len).openInodeTable =
      Function.update k.openInodeTable i (resized (k.openInodeTable i) offset) := by
    rw [hoffset]
    rfl
  have hfiles : ∀ e j, ((writeFile ext k fd.toNat i buf len).openFileTable e).inode = some j →
      (k.openFileTable e).inode = some j := by
    intro e j hj
    unfold writeFile at hj
    by_cases he : e = fd.toNat
    · subst he
      simp only [Function.update_self] at hj
      exact hj
    · simp only [Function.update_of_ne he] at hj
      exact hj
  rw [← hfs] at hdisk hinode
  generalize writeFile ext k fd.toNat i buf len = k' at *
  generalize resized (k.openInodeTable i) offset = inode at *
  refine ⟨hdisk.sane h.sane hfile, hdisk.laidOut h.laid, ?_, fun e j hj => h.index e j (hfiles e j hj),
    fun a ha b hb => ?_, fun j hj hc => ?_⟩
  · rw [hdisk.root]
    exact h.root
  · have hids : ∀ j, (k'.openInodeTable j).id = (k.openInodeTable j).id := by
      intro j
      rw [hinodes]
      by_cases hji : j = i
      · rw [hji, Function.update_self]
        exact hresized.id
      · rw [Function.update_of_ne hji]
    rw [hids, hids]
    exact h.unique a ha b hb
  · rw [hinodes] at hc ⊢
    rw [hinode]
    by_cases hji : j = i
    · -- the inode on the disk is the element now
      rw [hji, Function.update_self, hresized.id, Function.update_self]
      exact .refl _
    · rw [Function.update_of_ne hji] at hc ⊢
      rw [hdisk.carries] at hc
      have hother : (k.openInodeTable j).id ≠ (k.openInodeTable i).id := fun heq =>
        hji (h.unique j hj i hi hc.1 heq)
      rw [Function.update_of_ne hother]
      exact h.agrees j hj hc

/-- An element that is released keeps its data, or is emptied. -/
theorem releasedInode_cases (inode : Inode) :
    releasedInode inode = Fs.noInode ∨ SameData (releasedInode inode) inode := by
  unfold releasedInode
  simp only
  split
  · exact Or.inl rfl
  · exact Or.inr (sameData_setRefCount _ _)

/-- What `syscall_close` does to the tables. -/
theorem syscallClose_element (ext : Ext) (k : Kernel) (fd : Int) :
    (syscallClose ext k fd).2 = k ∨ ∃ i, (k.openFileTable fd.toNat).inode = some i ∧
      ∃ inode, (syscallClose ext k fd).2.openInodeTable = Function.update k.openInodeTable i inode ∧
        (inode = Fs.noInode ∨ SameData inode (k.openInodeTable i)) ∧
        ∀ e j, ((syscallClose ext k fd).2.openFileTable e).inode = some j →
          (k.openFileTable e).inode = some j := by
  unfold syscallClose
  split
  · exact Or.inl rfl
  · simp only
    split
    · exact Or.inl rfl
    next i hptr =>
      split
      · exact Or.inl rfl
      · split
        · refine Or.inr ⟨i, hptr, _, rfl, releasedInode_cases _, fun e j hj => ?_⟩
          by_cases he : e = fd.toNat
          · subst he
            simp only [Function.update_self] at hj
            cases hj
          · simp only [Function.update_of_ne he] at hj
            exact hj
        · refine Or.inr ⟨i, hptr, _, rfl, Or.inr (sameData_setRefCount _ _), fun e j hj => ?_⟩
          by_cases he : e = fd.toNat
          · subst he
            simp only [Function.update_self] at hj
            exact hj
          · simp only [Function.update_of_ne he] at hj
            exact hj

/-- **`syscall_close`** keeps the table right. -/
theorem TableAgrees.close {k : Kernel} (h : TableAgrees k) (ext : Ext) (fd : Int) :
    TableAgrees (syscallClose ext k fd).2 := by
  rcases syscallClose_element ext k fd with hsame | ⟨i, hptr, inode, hinodes, hcases, hfiles⟩
  · rw [hsame]
    exact h
  have hi := h.index _ i hptr
  refine h.element (syscallClose_fs ext k fd) hinodes (fun e j hj => Or.inl (hfiles e j hj)) hi
    (fun hne j hj heq => ?_) fun hc => ?_
  · rcases hcases with rfl | hsame
    · exact absurd Fs.id_noInode hne
    · exact h.unique j hj i hi (heq ▸ hne) (heq.trans hsame.file.id)
  · rcases hcases with rfl | hsame
    · exact absurd Fs.id_noInode hc.1
    · rw [hsame.file.id] at hc ⊢
      exact hsame.trans (h.agrees i hi hc)

/-! ## 6. `fs_delete_file` -/

/-- The copy of the root directory keeps its number. -/
theorem deleteEntry_rootNumber (env : Fs.Env) (s : State) (parent : Inode) (id : Nat) :
    (Fs.deleteEntry env s parent id).2.rootInode.id = s.rootInode.id := by
  unfold Fs.deleteEntry
  cases Fs.findEntry env s parent id with
  | none => rfl
  | some found =>
    have hrefresh : ∀ t : State, t.rootInode = s.rootInode →
        (Fs.refreshCaches t (Fs.reduced parent)).rootInode.id = s.rootInode.id := by
      intro t ht
      unfold Fs.refreshCaches
      simp only
      split
      · next heq => exact heq.symm.trans (congrArg Inode.id ht)
      · exact congrArg Inode.id ht
    simp only
    split <;> exact hrefresh _ rfl

/-- **A deletion** changes no inode of the table but the one that it clears. -/
theorem TableAgrees.delete {k : Kernel} (h : TableAgrees k) {env : Fs.Env} {path : CString}
    (hok : DeleteAgrees env k path) :
    TableAgrees { k with fs := (Fs.fsDeleteFile env k.fs path).2 } := by
  obtain ⟨hway, hparent, hkeeps⟩ := hok
  by_cases hrefused : Fs.DeleteRefused env k.fs path
  · rw [Fs.fsDeleteFile_refused hrefused]
    exact h
  have hothers := fun i => @Fs.delete_inode env k.fs path h.sane hway hrefused i
  have hapart := hparent.resolve_left hrefused
  have hblocks := hkeeps.resolve_left hrefused
  have hroot : (Fs.fsDeleteFile env k.fs path).2.rootInode.id = 1 := by
    rw [Fs.fsDeleteFile_eq hrefused]
    exact (deleteEntry_rootNumber _ _ _ _).trans h.root
  have hgo := hrefused
  unfold Fs.DeleteRefused at hgo
  push Not at hgo
  obtain ⟨-, hinode, hparent, htype, -⟩ := hgo
  have hfile := (h.sane.inodeFromPath hway).onDisk hinode
  have hp := (h.sane.parent hway).1.onDisk hparent
  have hkept : Fs.DeleteKept env k.fs path := Or.inr
    ⟨⟨h.sane.live _ hfile.carries, hfile.2⟩, ⟨h.sane.live _ hp.carries, hp.2⟩, Or.inr hblocks⟩
  refine h.disk (h.sane.delete hway) (Fs.delete_laidOut h.laid hkept) hroot fun i hi hc => ?_
  have hnow := hothers _ (hapart i hi)
  unfold Fs.Carries at hc
  rw [hnow] at hc ⊢
  by_cases hcleared : (k.openInodeTable i).id = (Fs.inodeFromPath env k.fs path).id
  · rw [if_pos hcleared, Fs.id_noInode] at hc
    exact absurd hc.2.symm hc.1
  · rw [if_neg hcleared] at hc ⊢
    exact h.agrees i hi hc

/-! ## 7. Whole runs -/

/-- A kernel without open files. -/
theorem Started.agrees {k : Kernel} (h : Started k) (hroot : k.fs.rootInode.id = 1) :
    TableAgrees k := by
  have hempty : ∀ i < maxOpen, (k.openInodeTable i).id = 0 := fun i hi => by
    rw [h.tables.2 i hi]
    exact Fs.id_noInode
  refine ⟨h.sane, h.laid, hroot, fun fd i hi => ?_, fun i hi j _ hne => ?_, fun i hi hc => ?_⟩
  · rw [h.tables.1 fd] at hi
    cases hi
  · exact absurd (hempty i hi) hne
  · exact absurd (hempty i hi) hc.1

/-- **One call.** -/
theorem TableAgrees.step {s s' : Session} {r : Request} (h : TableAgrees s.kernel)
    (hok : RequestAgrees s r) (hstep : RequestStep s r s') : TableAgrees s'.kernel := by
  obtain rfl : s' = s.request r := hstep
  cases r with
  | «open» ext filepath flags => exact (h.open hok).1
  | write ext fd buf len => exact h.write hok ext buf len
  | close ext fd => exact h.close ext fd
  | create env path => exact (h.creates hok).1
  | delete env path => exact h.delete hok

theorem plainPath_reachable : Fs.Reachable Fs.quietEnv quietKernel.fs Fs.plainPath := by
  have hname : Fs.lastNameInPath Fs.plainPath = [120] := by decide +kernel
  refine ⟨⟨?_, ?_, ?_⟩, ?_, fun pre c hpre _ hne => ?_, ?_⟩
  · rw [hname]
    decide
  · rw [hname]
    decide
  · rw [hname]
    decide
  · decide +kernel
  · -- no name is looked up on the way
    have hwalked : Fs.walked Fs.plainPath.cut = [[]] := by decide +kernel
    have hmem := hpre.subset (List.mem_append_right pre (List.mem_singleton_self c))
    rw [hwalked] at hmem
    exact absurd (List.mem_singleton.mp hmem) hne
  · rw [hname]
    decide +kernel

theorem plainPath_place : Fs.Place Fs.quietEnv quietKernel.fs
    (Fs.parentInodeFromPath Fs.quietEnv quietKernel.fs Fs.plainPath) 5 3 := by
  refine ⟨?_, ?_, ?_⟩
  · decide +kernel
  · decide +kernel
  · decide +kernel

theorem plainPath_openAgrees : OpenAgrees zeroExt quietKernel Fs.plainPath (oCreat ||| oRdwr) := by
  obtain ⟨hway, hcreate, hopenable⟩ := plainPath_openOk
  have hempty : ∀ i, (quietKernel.openInodeTable i).id = 0 := fun _ => Fs.id_noInode
  refine ⟨hway, fun hnone hflag => ⟨⟨hcreate hnone hflag, Or.inr fun i _ => ?_,
    Or.inr fun i _ heq => ?_⟩, Or.inr ⟨plainPath_reachable, 5, 3, plainPath_place⟩⟩,
    fun hne => (hopenable hne).element⟩
  · rw [hempty]
    decide +kernel
  · rw [hempty] at heq
    have hused : quietKernel.fs.superblock.firstFreeInodeBit ≠ 0 := by decide +kernel
    exact absurd heq.symm hused

theorem createdKernel_openAgrees : OpenAgrees zeroExt createdKernel Fs.plainPath oRdwr := by
  have hid : (Fs.inodeFromPath zeroExt.fsEnv createdKernel.fs Fs.plainPath).id = 3 :=
    plainPath_deleted.1
  refine ⟨Fs.plainPath_ok (by decide +kernel), fun hnone => ?_, fun _ => Or.inl ⟨0, by decide, ?_⟩⟩
  · rw [hid] at hnone
    cases hnone
  · unfold inodeToOpen
    simp only [hid]
    decide +kernel

/-- The root directory is open when `x` is created in it. -/
def staleSession : Session :=
  Session.request (Session.request ⟨quietKernel, fun _ => none⟩ (.open zeroExt rootPath oRdwr))
    (.create Fs.quietEnv Fs.plainPath)

/-- **Without the condition** an `open` uses an element that is out of date: the directory has
become larger by an entry on the disk, and not in the table. -/
theorem stale_element : ¬ OpensDisk zeroExt staleSession.kernel rootPath oRdwr := by
  intro hopens
  obtain ⟨i, -, hptr, hdata⟩ := hopens 1
    (syscallOpen zeroExt staleSession.kernel rootPath oRdwr).2 (Prod.ext (by decide +kernel) rfl)
    (by decide)
  have hfirst : ((syscallOpen zeroExt staleSession.kernel rootPath oRdwr).2.openFileTable 1).inode =
      some 0 := by decide +kernel
  obtain rfl := Option.some.inj (hptr.symm.trans hfirst)
  have hsizes : ((syscallOpen zeroExt staleSession.kernel rootPath oRdwr).2.openInodeTable 0).sizeBytes
      ≠ (Fs.inodeFromPath zeroExt.fsEnv
        (syscallOpen zeroExt staleSession.kernel rootPath oRdwr).2.fs rootPath).sizeBytes := by
    decide +kernel
  exact hsizes hdata.size

end AmateurOs.Syscalls
