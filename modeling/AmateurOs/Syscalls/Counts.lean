/-
# Reference counts of open inodes

`open_inode_table` holds one element for each open file, with a count that `syscall_open` and
`syscall_close` keep.  `CountsExact` is what the count stands for: a file is in the table
exactly when a descriptor is open on it, once, and its `ref_count` is the number of those
descriptors.

The first `open` of a file copies its inode from disk, `ref_count` included, and does not count
itself; later ones add 1.  Inodes are written to disk with a `ref_count` of 0, so one `open`
leaves a count of 0 (`counts_fail`) and the next `close` makes it 255.  `FirstOpenCounted` is
the condition under which the first `open` leaves the right count; `counts_exact` proves that
along a run of opens that meet it, and of closes, `CountsExact` holds throughout.

A `Session` keeps next to the kernel which file each descriptor was opened on.  The invariant
`Tracked` ties the two tables to that record; the counting is that of `Lib.Holders`.
-/
import AmateurOs.Lib.Holders
import AmateurOs.Lib.Run
import AmateurOs.Syscalls.Calls

namespace AmateurOs.Syscalls

open AmateurOs.Lib
open AmateurOs.Fs (Inode State CString)

/-! ## 1. The table searches -/

theorem find_range {n : Nat} {p : Nat → Bool} {r : Nat}
    (h : ((List.range n).find? p).getD n = r) :
    (r < n ∧ p r = true ∧ ∀ j < r, p j = false) ∨ (r = n ∧ ∀ j < n, p j = false) := by
  cases hf : (List.range n).find? p with
  | some i =>
    rw [hf, Option.getD_some] at h
    subst h
    obtain ⟨hp, hmem, hbefore⟩ := List.find?_range_eq_some.mp hf
    exact Or.inl ⟨List.mem_range.mp hmem, hp, fun j hj => by simpa using hbefore j hj⟩
  | none =>
    rw [hf, Option.getD_none] at h
    refine Or.inr ⟨h.symm, fun j hj => ?_⟩
    simpa using List.find?_eq_none.mp hf j (List.mem_range.mpr hj)

/-- The search for an id that is in the table. -/
theorem searchInode_found {table : Nat → Inode} {id : Nat}
    (h : ∃ i < maxOpen, (table i).id = id) :
    searchInode table id < maxOpen ∧ (table (searchInode table id)).id = id := by
  rcases find_range (rfl : searchInode table id = _) with ⟨hlt, hp, -⟩ | ⟨-, hnone⟩
  · exact ⟨hlt, eq_of_beq hp⟩
  · obtain ⟨i, hi, hid⟩ := h
    have := hnone i hi
    rw [hid, beq_self_eq_true] at this
    cases this

/-- The search for an id that is not. -/
theorem searchInode_absent {table : Nat → Inode} {id : Nat}
    (h : ∀ i < maxOpen, (table i).id ≠ id) : searchInode table id = maxOpen := by
  rcases find_range (rfl : searchInode table id = _) with ⟨hlt, hp, -⟩ | ⟨heq, -⟩
  · exact absurd (eq_of_beq hp) (h _ hlt)
  · exact heq

/-- The search for a free descriptor when there is one. -/
theorem searchFd_found {table : Nat → OpenFile} (h : ∃ d < maxOpen, (table d).refCount = 0) :
    searchFd table < maxOpen ∧
      ((table (searchFd table)).address = 0 ∨ (table (searchFd table)).refCount = 0) := by
  rcases find_range (rfl : searchFd table = _) with ⟨hlt, hp, -⟩ | ⟨-, hnone⟩
  · exact ⟨hlt, by simpa using hp⟩
  · obtain ⟨d, hd, hfree⟩ := h
    have := hnone d hd
    simp [hfree] at this

/-! ## 2. Sessions -/

/-- The kernel, and the file that each open descriptor was opened on. -/
structure Session where
  kernel : Kernel
  file : Nat → Option Nat

/-- The system calls of a session. -/
inductive Call
  | open (ext : Ext) (filepath : CString) (flags : Nat)
  | close (ext : Ext) (fd : Nat)

/-- The inode that `syscall_open` opens: the one on the path, or the one it creates. -/
def inodeToOpen (ext : Ext) (k : Kernel) (filepath : CString) (flags : Nat) : Inode :=
  let fileInode := Fs.inodeFromPath ext.fsEnv k.fs filepath
  if fileInode.id ≠ 0 then fileInode
  else if !hasFlag flags oCreat then Fs.noInode
  else (Fs.fsCreateFile ext.fsEnv k.fs filepath).1

/-- The descriptors that are open. -/
def Session.opened (s : Session) : Finset Nat := takenSlots maxOpen s.file

/-- Successful calls, with fewer than 256 descriptors open at once. -/
inductive Step : Session → Call → Session → Prop
  | open {s : Session} {ext : Ext} {filepath : CString} {flags fd : Nat} {k : Kernel}
      (hret : syscallOpen ext s.kernel filepath flags = ((fd : Int), k))
      (hroom : s.opened.card + 1 < maxOpen) :
      Step s (.open ext filepath flags) ⟨k, Function.update s.file fd
        (some (inodeToOpen ext s.kernel filepath flags).id)⟩
  | close {s : Session} {ext : Ext} {fd : Nat} {k : Kernel} (hopen : fd ∈ s.opened)
      (hret : syscallClose ext s.kernel fd = (0, k)) :
      Step s (.close ext fd) ⟨k, Function.update s.file fd none⟩

/-- The descriptors open on a file. -/
def Session.on (s : Session) (id : Nat) : Finset Nat := holders maxOpen s.file id

/-- **What the counts stand for.** -/
structure CountsExact (s : Session) : Prop where
  present : ∀ id ≠ 0, (∃ i < maxOpen, (s.kernel.openInodeTable i).id = id) ↔
    ∃ fd < maxOpen, s.file fd = some id
  unique : ∀ i < maxOpen, ∀ j < maxOpen, (s.kernel.openInodeTable i).id ≠ 0 →
    (s.kernel.openInodeTable i).id = (s.kernel.openInodeTable j).id → i = j
  count : ∀ i < maxOpen, (s.kernel.openInodeTable i).id ≠ 0 →
    (s.kernel.openInodeTable i).refCount = (s.on (s.kernel.openInodeTable i).id).card
  kept : ∀ fd < maxOpen, ∀ id, s.file fd = some id →
    ∃ i < maxOpen, (s.kernel.openFileTable fd).inode = some i ∧
      (s.kernel.openInodeTable i).id = id

/-- **When the first `open` of a file counts itself.**  The file is in the table already; or it
is not, also not behind the end of the table, and its `ref_count` on disk is 1.  The address
that the file gets is not 0, which marks a free descriptor. -/
def FirstOpenCounted (s : Session) : Call → Prop
  | .open ext filepath flags =>
    let inode := inodeToOpen ext s.kernel filepath flags
    s.kernel.nextAvailableFileVirtualAddress ≠ 0 ∧
      ((∃ i < maxOpen, (s.kernel.openInodeTable i).id = inode.id) ∨
        ((s.kernel.openInodeTable maxOpen).id ≠ inode.id ∧ inode.refCount = 1))
  | .close _ _ => True

/-- A kernel with both tables empty. -/
def Booted (k : Kernel) : Prop :=
  (∀ fd, k.openFileTable fd = OpenFile.zero) ∧ ∀ i < maxOpen, k.openInodeTable i = Fs.noInode

/-! ## 3. The invariant -/

/-- The tables agree with the record of the session. -/
structure Tracked (s : Session) : Prop where
  free : ∀ fd < maxOpen, s.file fd = none → (s.kernel.openFileTable fd).refCount = 0
  used : ∀ fd < maxOpen, ∀ id, s.file fd = some id → id ≠ 0 ∧
    (s.kernel.openFileTable fd).refCount = 1 ∧ (s.kernel.openFileTable fd).address ≠ 0 ∧
    ∃ i < maxOpen, (s.kernel.openFileTable fd).inode = some i ∧
      (s.kernel.openInodeTable i).id = id
  unique : ∀ i < maxOpen, ∀ j < maxOpen, (s.kernel.openInodeTable i).id ≠ 0 →
    (s.kernel.openInodeTable i).id = (s.kernel.openInodeTable j).id → i = j
  count : ∀ i < maxOpen, (s.kernel.openInodeTable i).id ≠ 0 →
    0 < (s.kernel.openInodeTable i).refCount ∧
    (s.kernel.openInodeTable i).refCount = (s.on (s.kernel.openInodeTable i).id).card

theorem Tracked.exact {s : Session} (h : Tracked s) : CountsExact s := by
  refine ⟨fun id hid => ⟨?_, ?_⟩, h.unique, fun i hi hne => (h.count i hi hne).2, ?_⟩
  · rintro ⟨i, hi, rfl⟩
    obtain ⟨hpos, heq⟩ := h.count i hi hid
    exact card_holders_pos.mp (heq ▸ hpos)
  · rintro ⟨fd, hfd, hfile⟩
    obtain ⟨-, -, -, i, hi, -, hii⟩ := h.used fd hfd id hfile
    exact ⟨i, hi, hii⟩
  · intro fd hfd id hfile
    obtain ⟨-, -, -, hkept⟩ := h.used fd hfd id hfile
    exact hkept

/-! ## 4. `syscall_open` -/

/-- `syscall_open` fails, or opens `inodeToOpen`; creating a file changes the file system
alone. -/
theorem syscallOpen_cases (ext : Ext) (k : Kernel) (filepath : CString) (flags : Nat) :
    ((inodeToOpen ext k filepath flags).id = 0 ∧
      ∃ fs, syscallOpen ext k filepath flags = (-1, { k with fs := fs })) ∨
    ((inodeToOpen ext k filepath flags).id ≠ 0 ∧ ∃ fs,
      syscallOpen ext k filepath flags
        = (((openInode ext { k with fs := fs } (inodeToOpen ext k filepath flags) flags).1 : Int),
          (openInode ext { k with fs := fs } (inodeToOpen ext k filepath flags) flags).2)) := by
  unfold syscallOpen inodeToOpen
  by_cases hfound : (Fs.inodeFromPath ext.fsEnv k.fs filepath).id ≠ 0
  · simp only [if_pos hfound]
    exact Or.inr ⟨hfound, k.fs, rfl⟩
  · simp only [if_neg hfound]
    by_cases hflag : (!hasFlag flags oCreat) = true
    · simp only [if_pos hflag]
      exact Or.inl ⟨Fs.id_noInode, k.fs, rfl⟩
    · simp only [if_neg hflag]
      by_cases hid : (Fs.fsCreateFile ext.fsEnv k.fs filepath).1.id = 0
      · simp only [if_pos hid]
        exact Or.inl ⟨hid, _, rfl⟩
      · simp only [if_neg hid]
        exact Or.inr ⟨hid, _, rfl⟩

/-- A successful `syscall_open` opens `inodeToOpen`. -/
theorem syscallOpen_ok {ext : Ext} {k k' : Kernel} {filepath : CString} {flags fd : Nat}
    (h : syscallOpen ext k filepath flags = ((fd : Int), k')) :
    (inodeToOpen ext k filepath flags).id ≠ 0 ∧ ∃ fs, openInode ext { k with fs := fs }
      (inodeToOpen ext k filepath flags) flags = (fd, k') := by
  rcases syscallOpen_cases ext k filepath flags with ⟨-, fs, heq⟩ | ⟨hid, fs, heq⟩
  · have hneg := congrArg Prod.fst (heq.symm.trans h)
    simp only [] at hneg
    omega
  · have hboth := Prod.mk.inj (heq.symm.trans h)
    exact ⟨hid, fs, Prod.ext (Int.natCast_inj.mp hboth.1) hboth.2⟩

/-- What `syscall_open` does to `open_inode_table`: element `i` becomes `inode`, which is one
counted once more, or the first for its file. -/
structure Entered (table : Nat → Inode) (fileInode : Inode) (i : Nat) (inode : Inode) : Prop where
  index : i < maxOpen
  id : inode.id = fileInode.id
  counted : ((table i).id = fileInode.id ∧ inode.refCount = u8 ((table i).refCount + 1)) ∨
    ((table i).id = 0 ∧ i = searchInode table 0 ∧
      (∀ j < maxOpen, (table j).id ≠ fileInode.id) ∧ inode = fileInode)

/-- `open_inode_table` has the id, or an empty element; and the id is not found behind the end of
the table. -/
def HasElement (table : Nat → Inode) (id : Nat) : Prop :=
  (∃ i < maxOpen, (table i).id = id) ∨
    ((table maxOpen).id ≠ id ∧ ∃ i < maxOpen, (table i).id = 0)

theorem enterInode_entered {table : Nat → Inode} {fileInode : Inode}
    (h : HasElement table fileInode.id) :
    ∃ i inode, enterInode table fileInode = (i, Function.update table i inode) ∧
      Entered table fileInode i inode := by
  unfold enterInode
  by_cases hin : ∃ i < maxOpen, (table i).id = fileInode.id
  · obtain ⟨hlt, hid⟩ := searchInode_found hin
    simp only [if_pos hid.symm]
    refine ⟨_, _, rfl, hlt, ?_, Or.inl ⟨hid, ?_⟩⟩
    · rw [Fs.Inode.id_setRefCount, hid]
    · rw [Fs.Inode.refCount_setRefCount, u8, u8, Nat.mod_mod]
  · obtain ⟨hbehind, hempty⟩ := h.resolve_left hin
    have habsent : ∀ j < maxOpen, (table j).id ≠ fileInode.id :=
      fun j hj hid => hin ⟨j, hj, hid⟩
    rw [searchInode_absent habsent]
    simp only [if_neg hbehind.symm]
    obtain ⟨hlt, hid⟩ := searchInode_found hempty
    exact ⟨_, _, rfl, hlt, rfl, Or.inr ⟨hid, rfl, habsent, rfl⟩⟩

/-- The tables after a file was opened. -/
theorem openInode_tables {ext : Ext} {k k' : Kernel} {fileInode inode : Inode}
    {flags fd i : Nat} (hopen : openInode ext k fileInode flags = (fd, k'))
    (henter : enterInode k.openInodeTable fileInode
      = (i, Function.update k.openInodeTable i inode)) :
    fd = searchFd k.openFileTable ∧
    k'.openInodeTable = Function.update k.openInodeTable i inode ∧
    k'.openFileTable = Function.update k.openFileTable fd (openedFile k fd i inode flags) ∧
    k'.nextAvailableFileVirtualAddress
      = u32 (k.nextAvailableFileVirtualAddress + sizeInPages inode.sizeBytes * pageSize) ∧
    k'.mem = fsLoadFile k.fs (Malloc.mapPages ext.frames (sizeInPages inode.sizeBytes) k.mem
      k.nextAvailableFileVirtualAddress) inode k.nextAvailableFileVirtualAddress ∧
    k'.fs = k.fs := by
  unfold openInode at hopen
  simp only [henter, Function.update_self, Prod.mk.injEq] at hopen
  obtain ⟨rfl, rfl⟩ := hopen
  exact ⟨rfl, rfl, rfl, rfl, rfl, rfl⟩

/-- **A counted `open`** keeps the invariant. -/
theorem tracked_open {s : Session} {ext : Ext} {filepath : CString} {flags fd : Nat} {k : Kernel}
    (h : Tracked s) (hret : syscallOpen ext s.kernel filepath flags = ((fd : Int), k))
    (hroom : s.opened.card + 1 < maxOpen) (hok : FirstOpenCounted s (.open ext filepath flags)) :
    Tracked ⟨k, Function.update s.file fd
      (some (inodeToOpen ext s.kernel filepath flags).id)⟩ := by
  obtain ⟨hid, fs, hopen⟩ := syscallOpen_ok hret
  obtain ⟨hnext, hcounted⟩ := hok
  generalize inodeToOpen ext s.kernel filepath flags = f at *
  -- There is an empty element in each table.
  have hcell : ∃ i < maxOpen, (s.kernel.openInodeTable i).id = 0 := by
    have hheld : ∀ i < maxOpen, (s.kernel.openInodeTable i).id ≠ 0 →
        ∃ d < maxOpen, s.file d = some (s.kernel.openInodeTable i).id := by
      intro i hi hne
      obtain ⟨hpos, heq⟩ := h.count i hi hne
      exact card_holders_pos.mp (heq ▸ hpos)
    obtain ⟨i, hi, hempty⟩ := exists_empty_cell
      (fun i hi j hj hne _ heq => h.unique i hi j hj hne heq) hheld
      (Nat.lt_of_succ_lt hroom)
    exact ⟨i, hi, not_not.mp hempty⟩
  obtain ⟨i, inode, henter, hent⟩ := enterInode_entered
    (hcounted.imp_right fun hb => ⟨hb.1, hcell⟩)
  obtain ⟨hfd, hinodes, hfiles, -⟩ := openInode_tables hopen henter
  have hfree : fd < maxOpen ∧ s.file fd = none := by
    obtain ⟨d, hd, hnone⟩ := exists_free (Nat.lt_of_succ_lt hroom)
    obtain ⟨hlt, hslot⟩ := searchFd_found ⟨d, hd, h.free d hd hnone⟩
    rw [← hfd] at hlt hslot
    refine ⟨hlt, ?_⟩
    by_contra hsome
    obtain ⟨id, hfile⟩ := Option.ne_none_iff_exists'.mp hsome
    obtain ⟨-, hone, hne, -⟩ := h.used fd hlt id hfile
    rcases hslot with hslot | hslot <;> omega
  obtain ⟨hlt, hnone⟩ := hfree
  -- The only element with the file's id is element `i`.
  have honly : ∀ j < maxOpen, j ≠ i → (s.kernel.openInodeTable j).id ≠ f.id := by
    intro j hj hji hjf
    rcases hent.counted with ⟨hif, -⟩ | ⟨-, -, habsent, -⟩
    · exact hji (h.unique j hj i hent.index (hjf ▸ hid) (hjf.trans hif.symm))
    · exact habsent j hj hjf
  have hcard : ∀ id, (holders maxOpen (Function.update s.file fd (some f.id)) id).card
      = (s.on id).card + if f.id = id then 1 else 0 := fun id => card_holders_take hlt hnone
  refine ⟨fun d hd hfile => ?_, fun d hd id hfile => ?_, fun a ha b hb hne heq => ?_,
    fun a ha hne => ?_⟩
  · by_cases hdf : d = fd
    · subst hdf
      simp at hfile
    · simp only [Function.update_of_ne hdf] at hfile
      simp only [hfiles, Function.update_of_ne hdf]
      exact h.free d hd hfile
  · by_cases hdf : d = fd
    · subst hdf
      simp only [Function.update_self, Option.some.injEq] at hfile
      subst hfile
      refine ⟨hid, ?_, ?_, i, hent.index, ?_, ?_⟩
      · simp only [hfiles, Function.update_self]
        rfl
      · simp only [hfiles, Function.update_self]
        exact hnext
      · simp only [hfiles, Function.update_self]
        rfl
      · simp only [hinodes, Function.update_self, hent.id]
    · simp only [Function.update_of_ne hdf] at hfile
      obtain ⟨hne, hone, hadr, j, hj, hjp, hjid⟩ := h.used d hd id hfile
      simp only [hfiles, hinodes, Function.update_of_ne hdf]
      refine ⟨hne, hone, hadr, j, hj, hjp, ?_⟩
      by_cases hji : j = i
      · subst hji
        rw [Function.update_self, hent.id]
        rcases hent.counted with ⟨hif, -⟩ | ⟨hzero, -⟩
        · exact hif.symm.trans hjid
        · exact absurd (hjid.symm.trans hzero) hne
      · rw [Function.update_of_ne hji, hjid]
  · simp only [hinodes] at hne heq
    by_cases hai : a = i <;> by_cases hbi : b = i
    · rw [hai, hbi]
    · subst hai
      rw [Function.update_self, Function.update_of_ne hbi, hent.id] at heq
      exact absurd heq.symm (honly b hb hbi)
    · subst hbi
      rw [Function.update_self, Function.update_of_ne hai, hent.id] at heq
      exact absurd heq (honly a ha hai)
    · rw [Function.update_of_ne hai] at hne heq
      rw [Function.update_of_ne hbi] at heq
      exact h.unique a ha b hb hne heq
  · simp only [hinodes, Session.on, hcard] at hne ⊢
    by_cases hai : a = i
    · subst hai
      rw [Function.update_self, hent.id, if_pos rfl]
      rcases hent.counted with ⟨haf, hcount⟩ | ⟨-, -, habsent, rfl⟩
      · obtain ⟨hpos, heq⟩ := h.count a ha (haf ▸ hid)
        have hle : (s.on f.id).card ≤ s.opened.card := card_holders_le
        rw [haf] at heq
        unfold maxOpen at hroom
        rw [hcount, heq, u8, Nat.mod_eq_of_lt (by omega)]
        exact ⟨Nat.succ_pos _, rfl⟩
      · have hzero : (holders maxOpen s.file inode.id).card = 0 := by
          by_contra hpos
          obtain ⟨d, hd, hfile⟩ := card_holders_pos.mp (Nat.pos_of_ne_zero hpos)
          obtain ⟨-, -, -, j, hj, -, hjid⟩ := h.used d hd _ hfile
          exact habsent j hj hjid
        have hnew : ¬ ∃ j < maxOpen, (s.kernel.openInodeTable j).id = inode.id := by
          rintro ⟨j, hj, hjid⟩
          exact habsent j hj hjid
        have hone := (hcounted.resolve_left hnew).2
        rw [hzero, hone]
        exact ⟨Nat.one_pos, rfl⟩
    · rw [Function.update_of_ne hai] at hne ⊢
      rw [if_neg fun hf => honly a ha hai hf.symm, Nat.add_zero]
      exact h.count a ha hne

/-! ## 5. `syscall_close` -/

/-- The inode whose last descriptor was closed is cleared. -/
def releasedInode (inode : Inode) : Inode :=
  let inode := inode.setRefCount (u8 (inode.refCount + 255))
  if inode.refCount = 0 then Fs.noInode else inode

/-- Closing the only reference of a descriptor. -/
theorem syscallClose_tables {ext : Ext} {k : Kernel} {fd i : Nat}
    (hone : (k.openFileTable fd).refCount = 1) (hptr : (k.openFileTable fd).inode = some i) :
    (syscallClose ext k fd).2.openFileTable
      = Function.update k.openFileTable fd OpenFile.zero ∧
    (syscallClose ext k fd).2.openInodeTable
      = Function.update k.openInodeTable i (releasedInode (k.openInodeTable i)) ∧
    (syscallClose ext k fd).2.nextAvailableFileVirtualAddress
      = k.nextAvailableFileVirtualAddress := by
  have hsub : sub32 1 1 = 0 := by decide
  have hneg : ¬ (fd : Int) < 0 := by omega
  unfold syscallClose
  rw [if_neg hneg]
  simp only [Int.toNat_natCast, hptr, hone, hsub, if_neg Nat.one_ne_zero]
  exact ⟨rfl, rfl, rfl⟩

/-- **Every `close`** keeps the invariant. -/
theorem tracked_close {s : Session} {ext : Ext} {fd : Nat} {k : Kernel} (h : Tracked s)
    (hopen : fd ∈ s.opened) (hret : syscallClose ext s.kernel fd = (0, k)) :
    Tracked ⟨k, Function.update s.file fd none⟩ := by
  obtain ⟨hlt, hsome⟩ := mem_takenSlots.mp hopen
  obtain ⟨id, hfile⟩ := Option.isSome_iff_exists.mp hsome
  obtain ⟨hid, hone, -, i, hi, hptr, hiid⟩ := h.used fd hlt id hfile
  obtain ⟨hfiles, hinodes, -⟩ := @syscallClose_tables ext _ _ _ hone hptr
  rw [hret] at hfiles hinodes
  simp only [] at hfiles hinodes
  have hcard : ∀ a, (holders maxOpen (Function.update s.file fd none) a).card
      + (if id = a then 1 else 0) = (s.on a).card := fun a => card_holders_release hlt hfile
  -- The count of the file goes down by one; it is cleared when that was the last.
  obtain ⟨hpos, hcount⟩ := h.count i hi (hiid ▸ hid)
  rw [hiid] at hcount
  have hafter := hcard id
  rw [if_pos rfl] at hafter
  have hroom : (s.kernel.openInodeTable i).refCount < 256 := Packed.get8_lt _ _
  have hdec : u8 ((s.kernel.openInodeTable i).refCount + 255)
      = (holders maxOpen (Function.update s.file fd none) id).card := by
    unfold u8
    omega
  have hreleased : (releasedInode (s.kernel.openInodeTable i)).id ≠ 0 →
      (releasedInode (s.kernel.openInodeTable i)).id = id ∧
      0 < (holders maxOpen (Function.update s.file fd none) id).card ∧
      (releasedInode (s.kernel.openInodeTable i)).refCount
        = (holders maxOpen (Function.update s.file fd none) id).card := by
    unfold releasedInode
    simp only [Fs.Inode.refCount_setRefCount, hdec]
    rw [u8, Nat.mod_eq_of_lt (by omega)]
    split
    · exact fun hne => absurd Fs.id_noInode hne
    · next hne =>
      intro _
      rw [Fs.Inode.id_setRefCount, Fs.Inode.refCount_setRefCount, u8, Nat.mod_eq_of_lt (by omega)]
      exact ⟨hiid, Nat.pos_of_ne_zero hne, rfl⟩
  have hkeeps : 0 < (holders maxOpen (Function.update s.file fd none) id).card →
      (releasedInode (s.kernel.openInodeTable i)).id = id := by
    intro hheld
    unfold releasedInode
    simp only [Fs.Inode.refCount_setRefCount, hdec]
    rw [u8, Nat.mod_eq_of_lt (by omega), if_neg (Nat.pos_iff_ne_zero.mp hheld),
      Fs.Inode.id_setRefCount, hiid]
  refine ⟨fun d hd hnone => ?_, fun d hd a ha => ?_, fun a ha b hb hne heq => ?_,
    fun a ha hne => ?_⟩
  · simp only [hfiles]
    by_cases hdf : d = fd
    · subst hdf
      rw [Function.update_self]
      rfl
    · simp only [Function.update_of_ne hdf] at hnone ⊢
      exact h.free d hd hnone
  · by_cases hdf : d = fd
    · subst hdf
      simp at ha
    · have hheld := ha
      simp only [Function.update_of_ne hdf] at ha
      obtain ⟨hane, haone, hadr, j, hj, hjp, hjid⟩ := h.used d hd a ha
      simp only [hfiles, hinodes, Function.update_of_ne hdf]
      refine ⟨hane, haone, hadr, j, hj, hjp, ?_⟩
      by_cases hji : j = i
      · subst hji
        obtain rfl : a = id := hjid.symm.trans hiid
        rw [Function.update_self]
        exact hkeeps (card_holders_pos.mpr ⟨d, hd, hheld⟩)
      · rw [Function.update_of_ne hji, hjid]
  · simp only [hinodes] at hne heq
    have honly : ∀ j < maxOpen, j ≠ i → (s.kernel.openInodeTable j).id ≠ id :=
      fun j hj hji hjid => hji (h.unique j hj i hi (hjid ▸ hid) (hjid.trans hiid.symm))
    by_cases hai : a = i <;> by_cases hbi : b = i
    · rw [hai, hbi]
    · subst hai
      rw [Function.update_self] at hne heq
      rw [Function.update_of_ne hbi, (hreleased hne).1] at heq
      exact absurd heq.symm (honly b hb hbi)
    · subst hbi
      rw [Function.update_of_ne hai] at hne heq
      rw [Function.update_self] at heq
      exact absurd (heq.trans (hreleased (heq ▸ hne)).1) (honly a ha hai)
    · rw [Function.update_of_ne hai] at hne heq
      rw [Function.update_of_ne hbi] at heq
      exact h.unique a ha b hb hne heq
  · simp only [hinodes, Session.on] at hne ⊢
    by_cases hai : a = i
    · subst hai
      rw [Function.update_self] at hne ⊢
      obtain ⟨hrid, hheld, hrcount⟩ := hreleased hne
      rw [hrid, hrcount]
      exact ⟨hheld, rfl⟩
    · rw [Function.update_of_ne hai] at hne ⊢
      obtain ⟨hapos, hacount⟩ := h.count a ha hne
      have hother : id ≠ (s.kernel.openInodeTable a).id :=
        fun heq => hai (h.unique a ha i hi hne (heq.symm.trans hiid.symm))
      have hsame := hcard (s.kernel.openInodeTable a).id
      rw [if_neg hother, Nat.add_zero] at hsame
      rw [hsame]
      exact ⟨hapos, hacount⟩

/-! ## 6. Whole runs -/

theorem tracked_booted {k : Kernel} (h : Booted k) : Tracked ⟨k, fun _ => none⟩ := by
  obtain ⟨hfiles, hinodes⟩ := h
  have hempty : ∀ i < maxOpen, (k.openInodeTable i).id = 0 := fun i hi => by
    rw [hinodes i hi, Fs.id_noInode]
  refine ⟨fun fd _ _ => ?_, fun fd _ id hfile => (by cases hfile),
    fun i hi _ _ hne => absurd (hempty i hi) hne, fun i hi hne => absurd (hempty i hi) hne⟩
  show (k.openFileTable fd).refCount = 0
  rw [hfiles fd]
  rfl

/-- **Open reference counts are exact**, in every state of a session whose first opens count
themselves. -/
theorem counts_exact (k : Kernel) (hboot : Booted k) (s : Session)
    (h : Reach Step FirstOpenCounted ⟨k, fun _ => none⟩ s) : CountsExact s := by
  refine (h.invariant (tracked_booted hboot) ?_).exact
  intro s c s' hs hok hstep
  cases hstep with
  | «open» hret hroom => exact tracked_open hs hret hroom hok
  | close hopen hret => exact tracked_close hs hopen hret

/-! ## 7. The first open of a file -/

/-- The path `/`. -/
def rootPath : CString where
  chars := [Fs.slash]
  nonzero := List.forall_mem_singleton.mpr (by decide)
  after := fun _ => 0

theorem inodeFromPath_root (env : Fs.Env) (s : State) :
    Fs.inodeFromPath env s rootPath = s.rootInode := by
  simp [Fs.inodeFromPath, rootPath, Fs.walk]

/-- A kernel with empty tables, an empty memory and the given root directory. -/
def freshKernel (rootInode : Inode) : Kernel where
  fs := ⟨fun _ => 0, fun _ => 0, fun _ => 0, rootInode, rootInode⟩
  mem := fun _ => 0
  openFileTable := fun _ => OpenFile.zero
  openInodeTable := fun _ => Fs.noInode
  nextAvailableFileVirtualAddress := 0x40000000

/-- Nothing but zeros around the kernel. -/
def quietExt : Ext := ⟨⟨fun _ => Packed.zero, fun _ => 0, fun _ => 0, fun _ => 0, fun _ => 0,
  fun _ => 0, 0⟩, fun _ => 0, 0⟩

theorem freshKernel_booted (rootInode : Inode) : Booted (freshKernel rootInode) :=
  ⟨fun _ => rfl, fun _ _ => rfl⟩

/-- Opening `/` for the first time enters the root inode as it is, with an empty buffer. -/
theorem open_root {rootInode : Inode} (hid : rootInode.id ≠ 0) (flags : Nat) :
    inodeToOpen quietExt (freshKernel rootInode) rootPath flags = rootInode ∧
    ∃ k i, syscallOpen quietExt (freshKernel rootInode) rootPath flags = (((0 : Nat) : Int), k) ∧
      i < maxOpen ∧ k.openInodeTable i = rootInode ∧
      k.openFileTable 0 = openedFile (freshKernel rootInode) 0 i rootInode flags ∧
      (k.nextAvailableFileVirtualAddress
        = u32 (0x40000000 + sizeInPages rootInode.sizeBytes * pageSize)) ∧
      k.mem = Malloc.mapPages (fun _ => 0) (sizeInPages rootInode.sizeBytes) (fun _ => 0)
        0x40000000 := by
  have hpath : Fs.inodeFromPath quietExt.fsEnv (freshKernel rootInode).fs rootPath = rootInode :=
    inodeFromPath_root _ _
  have hempty : ∀ i, ((freshKernel rootInode).openInodeTable i).id = 0 := fun _ => Fs.id_noInode
  have hbehind : ((freshKernel rootInode).openInodeTable maxOpen).id ≠ rootInode.id := by
    rw [hempty]
    exact hid.symm
  obtain ⟨i, inode, henter, hent⟩ := enterInode_entered
    (Or.inr ⟨hbehind, 0, by decide, hempty 0⟩)
  obtain rfl : inode = rootInode := by
    rcases hent.counted with ⟨hzero, -⟩ | ⟨-, -, -, heq⟩
    · exact absurd (hzero.symm.trans Fs.id_noInode) hid
    · exact heq
  have hsplit : openInode quietExt (freshKernel inode) inode flags = (_, _) := Prod.mk.eta.symm
  obtain ⟨hfd, hinodes, hfiles, hnext, hmem, -⟩ := openInode_tables hsplit henter
  have hzero : searchFd (fun _ => OpenFile.zero) = 0 := by decide
  have hfd0 : (openInode quietExt (freshKernel inode) inode flags).1 = 0 := hfd.trans hzero
  refine ⟨?_, (openInode quietExt (freshKernel inode) inode flags).2, i, ?_, hent.index, ?_, ?_,
    hnext, hmem⟩
  · unfold inodeToOpen
    simp only [hpath, if_pos hid]
  · unfold syscallOpen
    simp only [hpath, if_pos hid]
    rw [hfd0]
  · rw [hinodes, Function.update_self]
  · rw [hfiles, hfd0, Function.update_self]

/-- **Counts are wrong after one `open`** of an inode with a `ref_count` of 0 on disk. -/
theorem counts_fail : ¬ ∀ (k : Kernel) (s : Session), Booted k →
    Reach Step (fun _ _ => True) ⟨k, fun _ => none⟩ s → CountsExact s := by
  intro hall
  have hid : (Fs.noInode.setId 1).id ≠ 0 := by decide
  obtain ⟨hopened, k, i, hret, hi, hroot, -⟩ := open_root hid 0
  have hroom : (takenSlots maxOpen fun _ : Nat => (none : Option Nat)).card + 1 < maxOpen := by
    decide
  have hexact := hall _ _ (freshKernel_booted (Fs.noInode.setId 1))
    (.tail .refl trivial (.open hret hroom))
  have hcount := hexact.count i hi (hroot ▸ hid)
  have hnone : (k.openInodeTable i).refCount = 0 := by
    rw [hroot]
    decide
  -- Descriptor 0 is open on the file.
  have hheld : 0 < (holders maxOpen (Function.update (fun _ => none) 0
      (some (inodeToOpen quietExt (freshKernel (Fs.noInode.setId 1)) rootPath 0).id))
      (k.openInodeTable i).id).card := by
    rw [hopened, hroot]
    exact card_holders_pos.mpr ⟨0, by decide, Function.update_self ..⟩
  have hzero := hcount.symm.trans hnone
  exact absurd hzero (Nat.pos_iff_ne_zero.mp hheld)

/-- The theorem at a session of one `open` of an inode that counts itself on disk. -/
theorem counts_exact_first : ∃ k, CountsExact ⟨k, Function.update (fun _ => none) 0 (some 1)⟩ := by
  have hid : ((Fs.noInode.setId 1).setRefCount 1).id = 1 := by decide
  have hne : ((Fs.noInode.setId 1).setRefCount 1).id ≠ 0 := by decide
  obtain ⟨hopened, k, -, hret, -⟩ := open_root hne 0
  have hroom : (takenSlots maxOpen fun _ : Nat => (none : Option Nat)).card + 1 < maxOpen := by
    decide
  have hok : FirstOpenCounted ⟨freshKernel ((Fs.noInode.setId 1).setRefCount 1), fun _ => none⟩
      (.open quietExt rootPath 0) := by
    refine ⟨by decide, Or.inr ⟨?_, ?_⟩⟩
    · rw [hopened]
      exact hne.symm
    · rw [hopened]
      decide
  refine ⟨k, ?_⟩
  have hrun := counts_exact _ (freshKernel_booted _) _ (.tail .refl hok (.open hret hroom))
  rwa [hopened, hid] at hrun

end AmateurOs.Syscalls
