/-
# Files on the disk behind the calls

A file that is open is there three times: its bytes in the buffer, its size in the table of open
inodes, and both on the disk.  `fs_load_file` fills the buffer when the file is opened, and
`syscall_write` saves the whole file each time: its inode, and its blocks from the buffer.

So the disk always has the byte array that the descriptor stands for, and nothing else of the disk
is touched: `file_durable` says what every path leads to after any calls on the descriptor.  A file
does not get new blocks, so this ends where its extents do.
-/
import AmateurOs.Syscalls.Agreement

namespace AmateurOs.Syscalls

open AmateurOs.Lib
open AmateurOs.Fs (Inode State CString PlainFile diskBlocks)

/-! ## 1. Files on the disk -/

/-- Byte `k` of a file on the disk. -/
def diskByte (s : State) (inode : Inode) (k : Nat) : UInt8 :=
  match locate inode (List.range s.superblock.directExtentsPerInode) (k / 4096) with
  | some (i, j) => s.disk (4096 * (inode.extentFirst i + j) + k % 4096)
  | none => 0

/-- The bytes of a file on the disk. -/
def diskFile (s : State) (inode : Inode) : List UInt8 :=
  (List.range inode.sizeBytes).map (diskByte s inode)

/-- **A file that is loaded whole**: its extents cover its blocks, lie on the disk and have less
than 32 blocks each, and there is room for them at the address `a`. -/
structure Loadable (s : State) (inode : Inode) (a : Nat) : Prop where
  covers : ∀ k < Fs.bytesToBlocks inode.sizeBytes, ∃ i j,
    locate inode (List.range s.superblock.directExtentsPerInode) k = some (i, j)
  placed : ∀ i < s.superblock.directExtentsPerInode,
    inode.extentFirst i + inode.extentLength i ≤ diskBlocks
  short : ∀ i < s.superblock.directExtentsPerInode, inode.extentLength i < 32
  room : a + 4096 * blockCount inode (List.range s.superblock.directExtentsPerInode) ≤ 4294967296

theorem locate_some {inode : Inode} {i j : Nat} : ∀ {is : List Nat} {k : Nat},
    locate inode is k = some (i, j) →
      i ∈ is ∧ j < inode.extentLength i ∧ k < blockCount inode is := by
  intro is
  induction is with
  | nil => exact fun h => absurd h (by simp [locate])
  | cons h is ih =>
    intro k hk
    rw [locate] at hk
    rw [blockCount]
    split at hk
    · next hlt =>
      obtain ⟨rfl, rfl⟩ := Prod.mk.inj (Option.some.inj hk)
      exact ⟨List.mem_cons_self, hlt, Nat.lt_add_right _ hlt⟩
    · obtain ⟨hmem, hj, hcount⟩ := ih hk
      exact ⟨List.mem_cons_of_mem _ hmem, hj, by omega⟩

/-- The extents of inodes with the same data. -/
theorem locate_congr {inode inode' : Inode} : ∀ {is : List Nat} {k : Nat},
    (∀ i ∈ is, inode'.extentLength i = inode.extentLength i) →
      locate inode' is k = locate inode is k := by
  intro is
  induction is with
  | nil => exact fun _ => rfl
  | cons i is ih =>
    intro k hsame
    rw [locate, locate, hsame i List.mem_cons_self,
      ih fun i hi => hsame i (List.mem_cons_of_mem _ hi)]

theorem blockCount_congr {inode inode' : Inode} : ∀ {is : List Nat},
    (∀ i ∈ is, inode'.extentLength i = inode.extentLength i) →
      blockCount inode' is = blockCount inode is := by
  intro is
  induction is with
  | nil => exact fun _ => rfl
  | cons i is ih =>
    intro hsame
    rw [blockCount, blockCount, hsame i List.mem_cons_self,
      ih fun i hi => hsame i (List.mem_cons_of_mem _ hi)]

/-- The bytes of inodes with the same extents. -/
theorem diskByte_congr {s : State} {inode inode' : Inode}
    (hfour : s.superblock.directExtentsPerInode = 4) (hsame : Fs.SameFile inode' inode) (k : Nat) :
    diskByte s inode' k = diskByte s inode k := by
  rw [diskByte, diskByte, locate_congr fun i hi => hsame.length i (hfour ▸ List.mem_range.mp hi)]
  cases hat : locate inode (List.range s.superblock.directExtentsPerInode) (k / 4096) with
  | none => rfl
  | some ij =>
    have hi := (locate_some hat).1
    simp only [hsame.first ij.1 (hfour ▸ List.mem_range.mp hi)]

theorem diskFile_congr {s : State} {inode inode' : Inode}
    (hfour : s.superblock.directExtentsPerInode = 4) (hdata : SameData inode' inode) :
    diskFile s inode' = diskFile s inode := by
  rw [diskFile, diskFile, hdata.size]
  exact List.map_congr_left fun k _ => diskByte_congr hfour hdata.file k

section

variable {s : State} {inode : Inode} {a : Nat} (h : Loadable s inode a)

include h

/-- The size in the extents. -/
theorem Loadable.size_le :
    inode.sizeBytes ≤ 4096 * blockCount inode (List.range s.superblock.directExtentsPerInode) := by
  rcases Nat.eq_zero_or_pos inode.sizeBytes with hzero | hpos
  · omega
  · have hblocks := Fs.bytesToBlocks_eq inode.sizeBytes
    obtain ⟨i, j, hlocate⟩ := h.covers (Fs.bytesToBlocks inode.sizeBytes - 1) (by omega)
    have hlast := (locate_some hlocate).2.2
    omega

/-- **`fs_load_file`** puts the bytes of the file at the address. -/
theorem Loadable.loaded (mem : Bytes) {k : Nat} (hk : k < inode.sizeBytes) :
    fsLoadFile s mem inode a (a + k) = diskByte s inode k := by
  have hsize : inode.sizeBytes < 4294967296 := Packed.get32_lt _ _
  have hblocks := Fs.bytesToBlocks_eq inode.sizeBytes
  obtain ⟨i, j, hlocate⟩ := h.covers (k / 4096) (by omega)
  obtain ⟨hi, hj, -⟩ := locate_some hlocate
  have hload := @loadExtents_at s.disk inode a i j (k % 4096) (Nat.mod_lt _ (by decide)) _ _
    (Fs.bytesToBlocks inode.sizeBytes) 0 mem (fun i hi => h.placed i (List.mem_range.mp hi))
    (by rw [Nat.zero_add]; exact h.room) hlocate (by omega) (by omega)
  rw [Nat.zero_add, Nat.mul_zero, u32_eq (by decide),
    (by omega : a + 4096 * (k / 4096) + k % 4096 = a + k),
    Nat.mod_eq_of_lt (h.short i (List.mem_range.mp hi)), if_pos hj] at hload
  rw [diskByte, hlocate]
  exact hload

/-- An inode with the same data. -/
theorem Loadable.congr {inode' : Inode} (hfour : s.superblock.directExtentsPerInode = 4)
    (hdata : SameData inode' inode) : Loadable s inode' a := by
  have hlengths : ∀ i ∈ List.range s.superblock.directExtentsPerInode,
      inode'.extentLength i = inode.extentLength i := fun i hi =>
    hdata.file.length i (hfour ▸ List.mem_range.mp hi)
  have hlocate : ∀ k, locate inode' (List.range s.superblock.directExtentsPerInode) k =
      locate inode (List.range s.superblock.directExtentsPerInode) k := fun k =>
    locate_congr hlengths
  refine ⟨fun k hk => ?_, fun i hi => ?_, fun i hi => ?_, ?_⟩
  · rw [hlocate]
    exact h.covers k (hdata.size ▸ hk)
  · rw [hdata.file.first i (hfour ▸ hi), hdata.file.length i (hfour ▸ hi)]
    exact h.placed i hi
  · rw [hdata.file.length i (hfour ▸ hi)]
    exact h.short i hi
  · rw [blockCount_congr hlengths]
    exact h.room

end

/-! ## 2. A file that is opened -/

/-- **A file is opened for reading**: all of it can be read, and its bytes are those on the disk. -/
structure OpenedFile (k : Kernel) (f : Inode) (fd : Nat) (k' : Kernel) : Prop where
  readable : Readable k' fd
  start : (k'.openFileTable fd).offset = 0
  size : fileSize k' fd = f.sizeBytes
  bytes : loadedBytes k' fd 0 f.sizeBytes = diskFile k.fs f
  element : ∃ i, (k'.openFileTable fd).inode = some i
  refCount : (k'.openFileTable fd).refCount = 1
  others : ∀ e, e ≠ fd → k'.openFileTable e = k.openFileTable e
  fs : k'.fs = k.fs

/-- Opening an inode leaves the disk alone. -/
theorem openInode_fs (ext : Ext) (k : Kernel) (f : Inode) (flags : Nat) :
    (openInode ext k f flags).2.fs = k.fs := rfl

/-- **An inode of the disk is opened**: its element has its data, and its bytes are in the buffer. -/
theorem openInode_loaded {k : Kernel} (h : TableAgrees k) (ext : Ext) (flags : Nat) {f : Inode}
    (hf : Fs.OnDisk k.fs f) (helement : HasElement k.openInodeTable f.id)
    (hload : Loadable k.fs f k.nextAvailableFileVirtualAddress) :
    ∃ i inode, SameData inode f ∧ (openInode ext k f flags).2.openInodeTable i = inode ∧
      (openInode ext k f flags).2.openFileTable = Function.update k.openFileTable
        (openInode ext k f flags).1 (openedFile k (openInode ext k f flags).1 i inode flags) ∧
      ∀ j < f.sizeBytes, (openInode ext k f flags).2.mem (k.nextAvailableFileVirtualAddress + j) =
        diskByte k.fs f j := by
  obtain ⟨i, hi, inode, henter, hcases⟩ := helement.enter
  obtain ⟨fd, hfd⟩ : ∃ fd, fd = (openInode ext k f flags).1 := ⟨_, rfl⟩
  obtain ⟨k', hk'⟩ : ∃ k', k' = (openInode ext k f flags).2 := ⟨_, rfl⟩
  obtain ⟨-, hinodes, hfiles, -, hmem, -⟩ := openInode_tables
    (Prod.ext hfd.symm hk'.symm : openInode ext k f flags = (fd, k')) henter
  rw [← hfd, ← hk']
  have hdata : SameData inode f := by
    rcases hcases with ⟨hid, hsame⟩ | ⟨rfl, -⟩
    · have hagrees := h.agrees i hi (hid ▸ hf.carries)
      rw [hid, hf.2] at hagrees
      exact hsame.trans hagrees
    · exact .refl _
  have hloads := hload.congr h.sane.sound.extents hdata
  refine ⟨i, inode, hdata, ?_, hfiles, fun j hj => ?_⟩
  · rw [hinodes, Function.update_self]
  · rw [hmem, hloads.loaded _ (hdata.size ▸ hj)]
    exact diskByte_congr h.sane.sound.extents hdata.file j

theorem openInode_opened {k : Kernel} (h : TableAgrees k) (ext : Ext) {f : Inode}
    (hf : Fs.OnDisk k.fs f) (helement : HasElement k.openInodeTable f.id)
    (hload : Loadable k.fs f k.nextAvailableFileVirtualAddress)
    (hnext : k.nextAvailableFileVirtualAddress ≠ 0) (hsize : f.sizeBytes < 2147483648) :
    OpenedFile k f (openInode ext k f oRdonly).1 (openInode ext k f oRdonly).2 := by
  obtain ⟨i, inode, hdata, hinode, hfiles, hbytes⟩ :=
    openInode_loaded h ext oRdonly hf helement hload
  have hfs := openInode_fs ext k f oRdonly
  generalize (openInode ext k f oRdonly).1 = fd at *
  generalize (openInode ext k f oRdonly).2 = k' at *
  have hentry : k'.openFileTable fd = openedFile k fd i inode oRdonly := by
    rw [hfiles, Function.update_self]
  have hfile : fileSize k' fd = f.sizeBytes := by
    rw [fileSize, Kernel.inodeOf, hentry]
    simp only [openedFile, hinode]
    exact hdata.size
  have hroom := hload.room
  have hsizes := hload.size_le
  refine ⟨⟨?_, ?_, ?_, ?_, ?_⟩, ?_, hfile, ?_, ⟨i, ?_⟩, ?_, fun e he => ?_, hfs⟩
  · rw [hentry]
    exact ⟨Nat.one_ne_zero, hnext⟩
  · rw [hentry]
    exact (by decide : hasFlag oRdonly oWronly = false)
  · rw [hfile, hentry]
    exact (Nat.add_le_add_left hsizes _).trans hroom
  · rw [hfile]
    exact hsize
  · rw [hentry]
    exact Nat.zero_le _
  · rw [hentry]
    rfl
  · rw [loadedBytes, hentry, diskFile, ← List.range_eq_range', Nat.sub_zero]
    exact List.map_congr_left fun j hj => hbytes j (List.mem_range.mp hj)
  · rw [hentry]
    rfl
  · rw [hentry]
    rfl
  · rw [hfiles, Function.update_of_ne he]

/-- The descriptor of a file that is closed again: its element is empty, and no other is changed. -/
theorem OpenedFile.closed {k k' : Kernel} {f : Inode} {fd : Nat} (h : OpenedFile k f fd k')
    (closeExt : Ext) (v : Nat) :
    (syscallClose closeExt (moveOffset k' fd v) fd).2.fs = k.fs ∧
      (syscallClose closeExt (moveOffset k' fd v) fd).2.openFileTable =
        Function.update k.openFileTable fd OpenFile.zero := by
  obtain ⟨i, hi⟩ := h.element
  have hneg : ¬ (fd : Int) < 0 := by omega
  have hentry : (moveOffset k' fd v).openFileTable fd = { k'.openFileTable fd with offset := v } :=
    Function.update_self ..
  have hlast : sub32 1 1 = 0 := by decide
  unfold syscallClose
  simp only [if_neg hneg, Int.toNat_natCast, hentry, hi, h.refCount, Nat.one_ne_zero, if_false,
    hlast, if_true]
  refine ⟨h.fs, ?_⟩
  rw [moveOffset]
  simp only [Function.update_idem]
  funext e
  by_cases he : e = fd
  · rw [he, Function.update_self, Function.update_self]
  · rw [Function.update_of_ne he, Function.update_of_ne he, h.others e he]

/-! ## 3. A file that is saved -/

/-- **The extents of an open file** with its buffer at `a`: on the disk, apart, of less than 32
blocks each, and with room in memory for all of them. -/
structure Backed (inode : Inode) (a : Nat) : Prop where
  placed : ∀ i < 4, inode.extentFirst i + inode.extentLength i ≤ diskBlocks
  short : ∀ i < 4, inode.extentLength i < 32
  apart : ∀ i < 4, ∀ j < 4, i ≠ j → ∀ c, InExtent inode c i → ¬ InExtent inode c j
  room : a + 4096 * blockCount inode (List.range 4) ≤ 4294967296

/-- The bytes that the extents of a file have room for. -/
def capacity (inode : Inode) : Nat := 4096 * blockCount inode (List.range 4)

theorem capacity_congr {inode inode' : Inode} (h : Fs.SameFile inode' inode) :
    capacity inode' = capacity inode := by
  rw [capacity, capacity, blockCount_congr fun i hi => h.length i (List.mem_range.mp hi)]

theorem Backed.congr {inode inode' : Inode} {a : Nat} (h : Backed inode a)
    (hsame : Fs.SameFile inode' inode) : Backed inode' a := by
  have hin : ∀ i < 4, ∀ c, InExtent inode' c i ↔ InExtent inode c i := fun i hi c => by
    rw [InExtent, InExtent, hsame.first i hi, hsame.length i hi]
  refine ⟨fun i hi => ?_, fun i hi => ?_, fun i hi j hj hne c => ?_, ?_⟩
  · rw [hsame.first i hi, hsame.length i hi]
    exact h.placed i hi
  · rw [hsame.length i hi]
    exact h.short i hi
  · rw [hin i hi, hin j hj]
    exact h.apart i hi j hj hne c
  · rw [blockCount_congr fun i hi => hsame.length i (List.mem_range.mp hi)]
    exact h.room

/-- Every block that there is has its place. -/
theorem locate_exists {inode : Inode} : ∀ {is : List Nat} {k : Nat}, k < blockCount inode is →
    ∃ i j, locate inode is k = some (i, j) := by
  intro is
  induction is with
  | nil => exact fun h => absurd h (Nat.not_lt_zero _)
  | cons i is ih =>
    intro k hk
    rw [blockCount] at hk
    rw [locate]
    split
    · exact ⟨i, k, rfl⟩
    · exact ih (by omega)

/-- **A file that is saved** has the bytes of its buffer. -/
theorem Backed.saved {s : State} {inode : Inode} {a : Nat} (h : Backed inode a)
    (hfour : s.superblock.directExtentsPerInode = 4) (hsize : inode.sizeBytes ≤ capacity inode)
    (mem : Bytes) {k : Nat} (hk : k < inode.sizeBytes) :
    diskByte (fsSaveFile s mem inode a) inode k = mem (a + k) := by
  have hsmall : inode.sizeBytes < 4294967296 := Packed.get32_lt _ _
  have hblocks := Fs.bytesToBlocks_eq inode.sizeBytes
  unfold capacity at hsize
  obtain ⟨i, j, hlocate⟩ := @locate_exists inode (List.range 4) (k / 4096) (by omega)
  obtain ⟨hi, hj, -⟩ := locate_some hlocate
  have hmod := Nat.mod_eq_of_lt (h.short i (List.mem_range.mp hi))
  have happart : (List.range 4).Pairwise
      fun i i' => ∀ c, InExtent inode c i → ¬ InExtent inode c i' := by
    refine List.Pairwise.imp_of_mem (fun {i j} hi hj hne => ?_) List.nodup_range
    exact h.apart i (List.mem_range.mp hi) j (List.mem_range.mp hj) hne
  have hsave := @saveExtents_at mem inode a i j (k % 4096) (Nat.mod_lt _ (by decide))
    (hmod.symm ▸ hj) _ _ (Fs.bytesToBlocks inode.sizeBytes) 0 s.disk
    (fun i hi => h.placed i (List.mem_range.mp hi)) happart
    (by rw [Nat.zero_add]; exact h.room) hlocate (by omega) (by omega)
  rw [Nat.zero_add, Nat.mul_zero, u32_eq (by decide),
    (by omega : a + 4096 * (k / 4096) + k % 4096 = a + k)] at hsave
  have hsb : (fsSaveFile s mem inode a).superblock.directExtentsPerInode = 4 := hfour
  rw [diskByte, hsb, hlocate]
  simp only [fsSaveFile, hfour]
  exact hsave

/-- The bytes of a file whose blocks are as before. -/
theorem diskFile_content {s t : State} {inode : Inode} (hsb : t.superblock = s.superblock)
    (hfour : s.superblock.directExtentsPerInode = 4) (hplaced : inode.Placed s.superblock.layout)
    (hcontent : ∀ b, inode.Holds b → t.volume.content b = s.volume.content b) :
    diskFile t inode = diskFile s inode := by
  refine List.map_congr_left fun k hk => ?_
  rw [diskByte, diskByte, hsb]
  cases hat : locate inode (List.range s.superblock.directExtentsPerInode) (k / 4096) with
  | none => rfl
  | some ij =>
    obtain ⟨hi, hj, -⟩ := locate_some hat
    have hholds : inode.Holds (inode.extentFirst ij.1 + ij.2) :=
      ⟨ij.1, hfour ▸ List.mem_range.mp hi, Nat.le_add_right _ _, by omega⟩
    have hshown : s.superblock.layout.Shown (inode.extentFirst ij.1 + ij.2) ∧ k % 4096 < 4096 :=
      ⟨Or.inr (hplaced _ hholds).1, Nat.mod_lt _ (by decide)⟩
    have hbyte := congrFun (hcontent _ hholds) (k % 4096)
    unfold State.volume Fs.volume at hbyte
    simp only [hsb, if_pos hshown] at hbyte
    simp only [Nat.mul_comm 4096]
    exact hbyte

/-! ## 4. Calls on a descriptor -/

/-- The kernel after some calls. -/
def afterOps (fd : Nat) : Kernel → List FileOp → Kernel
  | k, [] => k
  | k, op :: ops => afterOps fd (runOp k fd op).2 ops

/-- The byte array after some calls. -/
def fileAfter : ByteFile → List FileOp → ByteFile
  | f, [] => f
  | f, op :: ops => fileAfter (runFile f op).2 ops

theorem inPlace_trans {s t u : State} {n : Nat} (h : Fs.InPlace s t n) (h' : Fs.InPlace t u n) :
    Fs.InPlace s u n := by
  refine ⟨⟨h'.superblock.trans h.superblock, h'.root.trans h.root, h'.current.trans h.current,
    fun i hi => (h'.inode i hi).trans (h.inode i hi), fun b hb => ?_⟩,
    h'.inodeBit.trans h.inodeBit, h'.dataBit.trans h.dataBit, h'.same.trans h.same⟩
  exact (h'.content b fun hold => hb ((h.same.holds b).mp hold)).trans (h.content b hb)

/-- **A descriptor and the disk**: element `i` of the table has the file `n`, the byte array `f`
stands for the descriptor, and the disk has its bytes; since `k₀` only this file was written. -/
structure Behind (k₀ : Kernel) (n fd i : Nat) (f : ByteFile) (k : Kernel) : Prop where
  agrees : TableAgrees k
  place : Fs.InPlace k₀.fs k.fs n
  element : (k.openFileTable fd).inode = some i
  number : (k.openInodeTable i).id = n
  carries : Fs.Carries k.fs n
  regular : (k.openInodeTable i).type = Fs.filetypeFile
  represents : Represents k fd f
  backed : Backed (k.openInodeTable i) (k.openFileTable fd).address
  inside : (k.openFileTable fd).pagesAllocated * pageSize ≤ capacity (k.openInodeTable i)
  stored : diskFile k.fs (k.openInodeTable i) = f.data

/-- A seek leaves the bytes alone. -/
theorem seekFile_data (f : ByteFile) (delta : Int) (whence : Whence) :
    (seekFile f delta whence).2.data = f.data := by
  cases whence with
  | seekSet =>
    rw [seekFile]
    split <;> rfl
  | seekCur => rfl
  | seekEnd => rfl
  | invalid => rfl

/-- A call that is not a write moves the offset. -/
theorem runOp_moves (k : Kernel) (fd : Nat) {op : FileOp} (h : ∀ ext bytes, op ≠ .write ext bytes) :
    (runOp k fd op).2 = k ∨ ∃ v, (runOp k fd op).2 = moveOffset k fd v := by
  cases op with
  | read len =>
    have hneg : ¬ (fd : Int) < 0 := by omega
    unfold runOp syscallRead
    simp only [if_neg hneg, Int.toNat_natCast]
    split
    · exact Or.inl rfl
    · split
      · exact Or.inl rfl
      · exact Or.inr ⟨_, rfl⟩
  | write ext bytes => exact absurd rfl (h ext bytes)
  | seek delta whence =>
    have hneg : ¬ (fd : Int) < 0 := by omega
    unfold runOp syscallSeek
    simp only [if_neg hneg, Int.toNat_natCast]
    split
    · exact Or.inl rfl
    · exact Or.inr ⟨_, rfl⟩

/-- A write stores through `writeFile`. -/
theorem runOp_write {k : Kernel} {fd i : Nat} (h : ReadWrite k fd)
    (hi : (k.openFileTable fd).inode = some i) (ext : Ext) (bytes : List UInt8) :
    (runOp k fd (.write ext bytes)).2 =
      writeFile ext k fd i (fun j => bytes.getD j 0) bytes.length := by
  have hneg : ¬ (fd : Int) < 0 := by omega
  have hstd : ¬ ((fd : Int) = 1 ∨ (fd : Int) = 2) := by
    rintro (h1 | h2)
    · exact h.number.1 (by omega)
    · exact h.number.2 (by omega)
  unfold runOp syscallWrite
  simp only [if_neg hneg, if_neg hstd, Int.toNat_natCast, hi, if_neg h.opened.1, h.flags.1,
    Bool.not_true, Bool.and_false]
  rfl

section

variable {k₀ k : Kernel} {n fd i : Nat} {f : ByteFile} (h : Behind k₀ n fd i f k)

include h

/-- Moving the offset. -/
theorem Behind.move {v : Nat} {f' : ByteFile} (hrep : Represents (moveOffset k fd v) fd f')
    (hdata : f'.data = f.data) : Behind k₀ n fd i f' (moveOffset k fd v) := by
  have hentry : (moveOffset k fd v).openFileTable fd =
      { k.openFileTable fd with offset := v } := Function.update_self ..
  have hfiles : ∀ e j, ((moveOffset k fd v).openFileTable e).inode = some j →
      (k.openFileTable e).inode = some j := by
    intro e j hj
    by_cases he : e = fd
    · rw [he, hentry] at hj
      rw [he]
      exact hj
    · unfold moveOffset at hj
      simp only [Function.update_of_ne he] at hj
      exact hj
  refine ⟨⟨h.agrees.sane, h.agrees.laid, h.agrees.root, fun e j hj => h.agrees.index e j
    (hfiles e j hj), h.agrees.unique, h.agrees.agrees⟩, h.place, ?_, h.number, h.carries, h.regular,
    hrep, ?_, ?_, h.stored.trans hdata.symm⟩
  · rw [hentry]
    exact h.element
  · rw [hentry]
    exact h.backed
  · rw [hentry]
    exact h.inside

/-- **A write** brings its bytes to the disk. -/
theorem Behind.write {ext : Ext} {bytes : List UInt8} (hin : InRange k fd (.write ext bytes))
    (hok : CursorOk k fd (.write ext bytes)) :
    Behind k₀ n fd i (f.write bytes) (runOp k fd (.write ext bytes)).2 := by
  have hready := h.represents.ready
  have hrep : Represents (runOp k fd (.write ext bytes)).2 fd (f.write bytes) :=
    (runOp_represents h.represents hin hok).2
  obtain ⟨hstart, hadded, -⟩ := hready.write_start ext
  obtain ⟨offset, hoffset⟩ : ∃ offset, offset =
      u32 (writeOffset k (k.openFileTable fd) + bytes.length) := ⟨_, rfl⟩
  have hwritten := runOp_write hready h.element ext bytes
  have hagrees : TableAgrees (runOp k fd (.write ext bytes)).2 :=
    @TableAgrees.write _ h.agrees (fd : Int) (fun j hj _ => by
      obtain rfl := Option.some.inj (h.element.symm.trans hj)
      exact ⟨h.number.symm ▸ h.carries, h.regular⟩) ext _ _
  -- the element and its file
  have hi := h.agrees.index fd i h.element
  have hon := (h.agrees.agrees i hi (h.number.symm ▸ h.carries)).file
  rw [h.number] at hon
  have hresized := (sameExtents_resized (k.openInodeTable i) offset).sameFile
  have hplain : PlainFile k.fs n :=
    plainFile_carries h.agrees.sane h.agrees.laid h.carries (hon.type.symm.trans h.regular)
  -- the state after the write
  generalize (runOp k fd (.write ext bytes)).2 = k' at *
  have hinode : k'.openInodeTable i = resized (k.openInodeTable i) offset := by
    rw [hwritten, hoffset]
    exact Function.update_self ..
  have haddress : (k'.openFileTable fd).address = (k.openFileTable fd).address := by
    rw [hwritten, writeFile]
    simp only [Function.update_self]
  have hkept : (k'.openFileTable fd).pagesAllocated = (k.openFileTable fd).pagesAllocated := by
    rw [hwritten, writeFile]
    simp only [Function.update_self, hadded]
    have hpages := hready.pages
    exact u32_eq (by unfold pageSize at hpages; omega)
  have helement : (k'.openFileTable fd).inode = some i := by
    rw [hwritten, writeFile]
    simp only [Function.update_self]
    exact h.element
  have hfs : k'.fs = fsSaveFile (Fs.updateInodeOnDisk k.fs (resized (k.openInodeTable i) offset))
      k'.mem (resized (k.openInodeTable i) offset) (k.openFileTable fd).address := by
    rw [hwritten, hoffset]
    rfl
  have hdisk := fsSaveFile_inPlace h.agrees.sane hplain (hresized.trans hon) k'.mem
    (k.openFileTable fd).address
  rw [← hfs] at hdisk
  have hbacked := h.backed.congr hresized
  have hsize : (resized (k.openInodeTable i) offset).sizeBytes ≤
      capacity (resized (k.openInodeTable i) offset) := by
    obtain ⟨hend, hpages⟩ := hin
    have hold : (k.openInodeTable i).sizeBytes ≤ (k.openFileTable fd).pagesAllocated * pageSize := by
      have hsize := hready.size
      rw [fileSize, Kernel.inodeOf, h.element] at hsize
      exact hsize
    rw [hoffset, hstart, u32_eq (by omega), capacity_congr
      (sameExtents_resized (k.openInodeTable i) _).sameFile, sizeBytes_resized _ (by omega)]
    exact (Nat.max_le.mpr ⟨hold, hpages⟩).trans h.inside
  refine ⟨hagrees, inPlace_trans h.place hdisk, helement, ?_, ?_, ?_, hrep, ?_, ?_, ?_⟩
  · rw [hinode, hresized.id]
    exact h.number
  · exact (hdisk.carries n).mpr h.carries
  · rw [hinode, hresized.type]
    exact h.regular
  · rw [hinode, haddress]
    exact hbacked
  · rw [hinode, hkept, capacity_congr hresized]
    exact h.inside
  · -- the bytes on the disk are those of the buffer, and these those of the byte array
    have hfileSize : fileSize k' fd = (resized (k.openInodeTable i) offset).sizeBytes := by
      rw [fileSize, Kernel.inodeOf, helement]
      simp only [hinode]
    refine List.ext_getElem ?_ fun j hj hj' => ?_
    · rw [hrep.length, hfileSize, hinode, diskFile, List.length_map, List.length_range]
    · rw [diskFile, List.length_map, List.length_range, hinode] at hj
      have hbyte := hrep.bytes j (hfileSize ▸ hj)
      rw [ByteFile.byte, List.getD_eq_getElem _ _ hj', haddress] at hbyte
      rw [hbyte]
      simp only [diskFile, List.getElem_map, List.getElem_range, hinode]
      have hsaved := hbacked.saved (s := Fs.updateInodeOnDisk k.fs
        (resized (k.openInodeTable i) offset)) h.agrees.sane.sound.extents hsize k'.mem hj
      rw [← hfs] at hsaved
      exact hsaved

/-- **One call.** -/
theorem Behind.step {op : FileOp} (hin : InRange k fd op) (hok : CursorOk k fd op) :
    Behind k₀ n fd i (runFile f op).2 (runOp k fd op).2 := by
  have hrep := (runOp_represents h.represents hin hok).2
  cases op with
  | read len =>
    rcases runOp_moves k fd (fun ext bytes => by simp :
      ∀ ext bytes, FileOp.read len ≠ .write ext bytes) with hmove | ⟨v, hmove⟩
    · rw [hmove] at hrep ⊢
      exact { h with represents := hrep, stored := h.stored }
    · rw [hmove] at hrep ⊢
      exact h.move hrep rfl
  | write ext bytes => exact h.write hin hok
  | seek delta whence =>
    have hdata : (runFile f (.seek delta whence)).2.data = f.data := seekFile_data f delta whence
    rcases runOp_moves k fd (fun ext bytes => by simp :
      ∀ ext bytes, FileOp.seek delta whence ≠ .write ext bytes) with hmove | ⟨v, hmove⟩
    · rw [hmove] at hrep ⊢
      exact { h with represents := hrep, stored := h.stored.trans hdata.symm }
    · rw [hmove] at hrep ⊢
      exact h.move hrep hdata

end

/-- **Every sequence of calls.** -/
theorem Behind.run {k₀ : Kernel} {n fd i : Nat} : ∀ (ops : List FileOp) {k : Kernel} {f : ByteFile},
    Behind k₀ n fd i f k → Along InRange k fd ops → Along CursorOk k fd ops →
      Behind k₀ n fd i (fileAfter f ops) (afterOps fd k ops) := by
  intro ops
  induction ops with
  | nil => exact fun h _ _ => h
  | cons op ops ih => exact fun h hin hok => ih (h.step hin.1 hok.1) hin.2 hok.2

/-! ## 5. From `open` to the disk -/

/-- **When a path leads to a file that can be edited**: it is a regular one with an element for it,
and all pages of its buffer have their blocks. -/
structure Editable (ext : Ext) (k : Kernel) (path : CString) (f : Inode) : Prop where
  way : Fs.PathOk ext.fsEnv k.fs path
  found : Fs.inodeFromPath ext.fsEnv k.fs path = f
  exist : f.id ≠ 0
  regular : f.type = Fs.filetypeFile
  element : HasElement k.openInodeTable f.id
  extents : Backed f k.nextAvailableFileVirtualAddress
  pages : sizeInPages f.sizeBytes * pageSize ≤ capacity f
  address : k.nextAvailableFileVirtualAddress ≠ 0

section

variable {ext : Ext} {k k₁ : Kernel} {path : CString} {f : Inode} {fd : Nat}
  (h : Editable ext k path f)

include h

theorem Editable.loadable (hfour : k.fs.superblock.directExtentsPerInode = 4) :
    Loadable k.fs f k.nextAvailableFileVirtualAddress := by
  have hpages := h.pages
  unfold capacity pageSize sizeInPages at hpages
  refine ⟨fun b hb => ?_, ?_, ?_, ?_⟩
  · rw [hfour]
    refine locate_exists ?_
    split at hpages <;> omega
  · rw [hfour]
    exact h.extents.placed
  · rw [hfour]
    exact h.extents.short
  · rw [hfour]
    exact h.extents.room

/-- **The file is opened.** -/
theorem Editable.behind (hagrees : TableAgrees k)
    (hopen : syscallOpen ext k path oRdwr = ((fd : Int), k₁)) (hnumber : fd ≠ 1 ∧ fd ≠ 2)
    (hfree : (k.openFileTable fd).pagesAllocated = 0) :
    ∃ i, Behind k f.id fd i ⟨diskFile k.fs f, 0⟩ k₁ := by
  have hexist : (Fs.inodeFromPath ext.fsEnv k.fs path).id ≠ 0 := by
    rw [h.found]
    exact h.exist
  have hf : Fs.OnDisk k.fs f := h.found ▸ (hagrees.sane.inodeFromPath h.way).onDisk hexist
  have hfour := h.loadable hagrees.sane.sound.extents
  obtain ⟨i, inode, hdata, hinode, hfiles, hbytes⟩ :=
    openInode_loaded hagrees ext oRdwr hf h.element hfour
  have hnow := (hagrees.opens ext oRdwr hf h.element).1
  have hfs := openInode_fs ext k f oRdwr
  have hcall : (((openInode ext k f oRdwr).1 : Int), (openInode ext k f oRdwr).2) =
      ((fd : Int), k₁) := by
    rw [← hopen]
    unfold syscallOpen
    simp only [if_pos hexist]
    rw [h.found]
  obtain ⟨hret, rfl⟩ := Prod.mk.inj hcall
  obtain rfl : (openInode ext k f oRdwr).1 = fd := Int.natCast_inj.mp hret
  have hentry : (openInode ext k f oRdwr).2.openFileTable (openInode ext k f oRdwr).1 =
      openedFile k (openInode ext k f oRdwr).1 i inode oRdwr := by
    rw [hfiles, Function.update_self]
  generalize (openInode ext k f oRdwr).1 = fd at *
  generalize (openInode ext k f oRdwr).2 = k₁ at *
  have helement : (k₁.openFileTable fd).inode = some i := by
    rw [hentry]
    rfl
  have haddress : (k₁.openFileTable fd).address = k.nextAvailableFileVirtualAddress := by
    rw [hentry]
    rfl
  have hsize : fileSize k₁ fd = f.sizeBytes := by
    rw [fileSize, Kernel.inodeOf, helement]
    simp only [hinode]
    exact hdata.size
  have hroom := h.extents.room
  have hpages := h.pages
  unfold capacity at hpages
  obtain ⟨hready, hcursor⟩ := readWrite_opened hopen hnumber (by decide) h.address hfree (by
    rw [hsize, Malloc.addressSpace]
    omega)
  have hheld : (k₁.openFileTable fd).pagesAllocated = sizeInPages f.sizeBytes := by
    have hfew : sizeInPages f.sizeBytes < 4294967296 := by
      unfold pageSize at hpages
      omega
    rw [hentry]
    simp only [openedFile, hfree, Nat.zero_add, hdata.size]
    exact u32_eq hfew
  have hbuffer : (contents k₁ fd) = ⟨diskFile k.fs f, 0⟩ := by
    refine (ByteFile.mk.injEq ..).mpr ⟨?_, hcursor⟩
    rw [hsize, haddress]
    exact List.map_congr_left fun j hj => hbytes j (List.mem_range.mp hj)
  refine ⟨i, hnow, ⟨⟨?_, ?_, ?_, fun _ _ => ?_, fun _ _ => ?_⟩, ?_, ?_, ?_⟩, helement, ?_, ?_, ?_, ?_,
    ?_, ?_, ?_⟩
  · rw [hfs]
  · rw [hfs]
  · rw [hfs]
  · rw [hfs]
  · rw [hfs]
  · rw [hfs]
  · rw [hfs]
  · rw [hfs]
    exact .refl _
  · rw [hinode]
    exact hdata.file.id
  · rw [hfs]
    exact hf.carries
  · rw [hinode]
    exact hdata.file.type.trans h.regular
  · rw [← hbuffer]
    exact represents_contents hready
  · rw [hinode, haddress]
    exact h.extents.congr hdata.file
  · rw [hheld, hinode, capacity_congr hdata.file]
    exact h.pages
  · rw [hfs, hinode]
    exact diskFile_congr hagrees.sane.sound.extents hdata

end

/-- **What every path leads to**, with the disk behind the descriptor. -/
theorem Behind.path {k₀ k : Kernel} {n fd i : Nat} {f : ByteFile} (h : Behind k₀ n fd i f k)
    (hagrees : TableAgrees k₀) {env : Fs.Env} {path : CString} (hpath : Fs.PathOk env k₀.fs path) :
    (Fs.inodeFromPath env k.fs path).id = (Fs.inodeFromPath env k₀.fs path).id ∧
      ((Fs.inodeFromPath env k₀.fs path).id = n →
        diskFile k.fs (Fs.inodeFromPath env k.fs path) = f.data) ∧
      ((Fs.inodeFromPath env k₀.fs path).id ≠ n →
        Fs.inodeFromPath env k.fs path = Fs.inodeFromPath env k₀.fs path ∧
          diskFile k.fs (Fs.inodeFromPath env k.fs path) =
            diskFile k₀.fs (Fs.inodeFromPath env k₀.fs path)) := by
  have hi := h.agrees.index fd i h.element
  have hon := h.agrees.agrees i hi (h.number.symm ▸ h.carries)
  rw [h.number] at hon
  have hplain : PlainFile k₀.fs n := plainFile_carries hagrees.sane hagrees.laid
    ((h.place.carries n).mp h.carries)
    ((h.place.same.type.symm.trans hon.file.type.symm).trans h.regular)
  have hafter := Fs.FileRewritten.path hagrees.sane hplain h.place.toFileRewritten hpath
  have hfound := hagrees.sane.inodeFromPath hpath
  rw [hafter]
  unfold Fs.afresh
  refine ⟨?_, fun hid => ?_, fun hid => ?_⟩
  · split
    · next hid => rw [hid, h.place.same.id, hplain.carries.2]
    · rfl
  · rw [if_pos hid, ← h.stored]
    exact (diskFile_congr h.agrees.sane.sound.extents hon).symm
  · rw [if_neg hid]
    refine ⟨rfl, ?_⟩
    rcases hfound with hnone | hdisk
    · rw [hnone]
      rfl
    · refine diskFile_content h.place.superblock hagrees.sane.sound.extents ?_ fun b hb => ?_
      · rw [← hdisk.2]
        exact hagrees.sane.placed _ hdisk.carries
      · refine h.place.content b fun hheld => ?_
        exact hagrees.sane.apart hagrees.laid hdisk hplain.carries.onDisk
          (hplain.carries.2.symm ▸ hid) hb hheld

/-- The file of `closedSession` has one block and no bytes. -/
theorem plainPath_empty :
    (Fs.inodeFromPath Fs.quietEnv createdKernel.fs Fs.plainPath).id = 3 ∧
      (Fs.inodeFromPath Fs.quietEnv createdKernel.fs Fs.plainPath).type = Fs.filetypeFile ∧
      (Fs.inodeFromPath Fs.quietEnv createdKernel.fs Fs.plainPath).sizeBytes = 0 ∧
      (Fs.inodeFromPath Fs.quietEnv createdKernel.fs Fs.plainPath).extentFirst 0 ≤ 7 ∧
      (Fs.inodeFromPath Fs.quietEnv createdKernel.fs Fs.plainPath).extentLength 0 = 1 ∧
      (∀ i < 4, i ≠ 0 →
        (Fs.inodeFromPath Fs.quietEnv createdKernel.fs Fs.plainPath).extentFirst i = 0 ∧
        (Fs.inodeFromPath Fs.quietEnv createdKernel.fs Fs.plainPath).extentLength i = 0) ∧
      (Fs.startInode createdKernel.fs Fs.plainPath.chars).type = Fs.filetypeDir ∧
      (closedSession.kernel.openInodeTable 0).id = 3 ∧
      closedSession.kernel.nextAvailableFileVirtualAddress = 0x40001000 ∧
      quietKernel.fs.rootInode.id = 1 := by
  decide +kernel

theorem plainPath_editable : Editable zeroExt closedSession.kernel Fs.plainPath
    (Fs.inodeFromPath Fs.quietEnv createdKernel.fs Fs.plainPath) := by
  obtain ⟨hid, htype, hsize, hfirst, hlength, hrest, hstart, helement, hnext, -⟩ := plainPath_empty
  have hfs := closedSession_state.1
  generalize hf : Fs.inodeFromPath Fs.quietEnv createdKernel.fs Fs.plainPath = f at *
  have hone : blockCount f (List.range 4) = 1 := by
    have hsum : blockCount f (List.range 4) = f.extentLength 0 + (f.extentLength 1 +
      (f.extentLength 2 + (f.extentLength 3 + 0))) := rfl
    rw [hsum, hlength, (hrest 1 (by decide) (by decide)).2, (hrest 2 (by decide) (by decide)).2,
      (hrest 3 (by decide) (by decide)).2]
  have hshort : ∀ i < 4, f.extentFirst i ≤ 7 ∧ f.extentLength i ≤ 1 := fun i hi => by
    by_cases hzero : i = 0
    · subst hzero
      omega
    · have := hrest i hi hzero
      omega
  refine ⟨Fs.plainPath_ok (by rw [hfs]; exact hstart), hfs ▸ hf, hid ▸ (by decide), htype,
    ?_, ⟨?_, ?_, ?_, ?_⟩, ?_, ?_⟩
  · rw [hid]
    exact Or.inl ⟨0, by decide, helement⟩
  · exact fun i hi => (Nat.add_le_add (hshort i hi).1 (hshort i hi).2).trans (by decide)
  · exact fun i hi => (hshort i hi).2.trans_lt (by decide)
  · intro i hi j hj hne c hin hin'
    have hposi : f.extentLength i ≠ 0 := by
      unfold InExtent at hin
      omega
    have hposj : f.extentLength j ≠ 0 := by
      unfold InExtent at hin'
      omega
    have hi0 : i = 0 := by_contra fun hz => hposi (hrest i hi hz).2
    have hj0 : j = 0 := by_contra fun hz => hposj (hrest j hj hz).2
    exact hne (hi0.trans hj0.symm)
  · rw [hone, hnext]
    decide
  · rw [hsize, capacity, hone]
    decide
  · rw [hnext]
    decide

/-- The kernel after the file is opened again. -/
def reopenedKernel : Kernel := (syscallOpen zeroExt closedSession.kernel Fs.plainPath oRdwr).2

theorem reopenedKernel_opened :
    (syscallOpen zeroExt closedSession.kernel Fs.plainPath oRdwr).1 = 0 ∧
      (closedSession.kernel.openFileTable 0).pagesAllocated = 0 ∧
      (reopenedKernel.openFileTable 0).offset = 0 ∧
      (reopenedKernel.openFileTable 0).pagesAllocated = 1 := by
  decide +kernel

theorem closedSession_reached : Reach RequestStep RequestAgrees ⟨quietKernel, fun _ => none⟩
    closedSession :=
  .tail (.tail .refl (show RequestAgrees _ (.open zeroExt Fs.plainPath (oCreat ||| oRdwr)) from
    plainPath_openAgrees) (rfl : createdSession = _))
    (show RequestAgrees _ (.close zeroExt 0) from trivial) rfl

/-- Two bytes are written, and read from the start. -/
def roundOps : List FileOp := [.write quietExt [72, 105], .seek 0 .seekSet, .read 2]

end AmateurOs.Syscalls
