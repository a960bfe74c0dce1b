/-
# Open files do not share memory

The buffer of an open descriptor is `[address, address + pages_allocated * 4096)`, handed out by
the counter `next_available_file_virtual_address`.  `Separate` is what the calls should keep: the
buffers of two open descriptors have no address in common, and a `syscall_write` stores in the
buffer of its own descriptor (`WriteLocal`), so that no read through a descriptor on another
file sees it.

Three things break it.

* The shell sets the counter back when a process ends, whether or not it left files open
  (`separate_fails`).
* A write decides from the offset with which it starts whether the file needs pages, so it
  stores behind the buffer when it ends there; and the pages it adds are those at the counter,
  wherever the buffer ends.
* Nothing checks the ends of the two tables or of the address space.

`Confined` is the condition on one call, and `buffers_separate` proves that along a run of calls
that meet it, both properties hold.  The invariant `Separated` says that every buffer ends before
the counter.
-/
import AmateurOs.Syscalls.Counts

namespace AmateurOs.Syscalls

open AmateurOs.Lib
open AmateurOs.Fs (Inode State CString)
open AmateurOs.Malloc (mapPages_out)

/-! ## 1. Runs of system calls -/

/-- The system calls on files, and the end of a process. -/
inductive FileCall
  | open (ext : Ext) (filepath : CString) (flags : Nat)
  | close (ext : Ext) (fd : Int)
  | read (fd : Int) (len : Nat)
  | write (ext : Ext) (fd : Int) (buf : Bytes) (len : Nat)
  | seek (fd delta : Int) (whence : Whence)
  | exit (ext : Ext)

/-- One call, with the record of the files that are open. -/
def Session.call (s : Session) : FileCall → Session
  | .open ext filepath flags =>
    let r := syscallOpen ext s.kernel filepath flags
    ⟨r.2, if r.1 < 0 then s.file
      else Function.update s.file r.1.toNat (some (inodeToOpen ext s.kernel filepath flags).id)⟩
  | .close ext fd => ⟨(syscallClose ext s.kernel fd).2,
      if fd < 0 then s.file else Function.update s.file fd.toNat none⟩
  | .read fd len => ⟨(syscallRead s.kernel fd len).2.2, s.file⟩
  | .write ext fd buf len => ⟨(syscallWrite ext s.kernel fd buf len).2, s.file⟩
  | .seek fd delta whence => ⟨(syscallSeek s.kernel fd delta whence).2, s.file⟩
  | .exit ext => ⟨syscallExit ext s.kernel,
      Function.update (Function.update (Function.update s.file 0 none) 1 none) 2 none⟩

/-- Every call leads to one state. -/
def FileStep (s : Session) (c : FileCall) (s' : Session) : Prop := s' = s.call c

/-! ## 2. The property -/

/-- The buffer of a descriptor: its address and its length. -/
def OpenFile.buffer (oft : OpenFile) : Nat × Nat :=
  (oft.address, oft.pagesAllocated * pageSize)

/-- A descriptor of the table that is open. -/
def IsOpen (k : Kernel) (fd : Nat) : Prop := fd < maxOpen ∧ (k.openFileTable fd).refCount ≠ 0

/-- The buffers of distinct open descriptors are disjoint. -/
def Separate (k : Kernel) : Prop :=
  ∀ d e, IsOpen k d → IsOpen k e → d ≠ e →
    Apart (k.openFileTable d).buffer (k.openFileTable e).buffer

/-- A write through `fd` is local.  The addresses that change lie in its own buffer after the
call, or in pages that the call mapped; no buffer of another descriptor changes; and a read
through a descriptor on another file, inside that one's buffer, returns the same bytes. -/
structure WriteLocal (ext : Ext) (s : Session) (fd : Nat) (buf : Bytes) (len : Nat) : Prop where
  stores : ∀ p, (s.call (.write ext fd buf len)).kernel.mem p ≠ s.kernel.mem p →
    Inside p ((s.call (.write ext fd buf len)).kernel.openFileTable fd).buffer ∨
    Inside p (s.kernel.nextAvailableFileVirtualAddress,
      (s.call (.write ext fd buf len)).kernel.nextAvailableFileVirtualAddress
        - s.kernel.nextAvailableFileVirtualAddress)
  others : ∀ e, IsOpen s.kernel e → e ≠ fd → ∀ p, Inside p (s.kernel.openFileTable e).buffer →
    (s.call (.write ext fd buf len)).kernel.mem p = s.kernel.mem p
  reads : ∀ e, IsOpen s.kernel e → s.file e ≠ s.file fd → ∀ n,
    (s.kernel.openFileTable e).offset + bytesRead
      (s.kernel.inodeOf (s.kernel.openFileTable e)).sizeBytes (s.kernel.openFileTable e).offset n
        ≤ (s.kernel.openFileTable e).pagesAllocated * pageSize →
    (syscallRead (s.call (.write ext fd buf len)).kernel e n).2.1
      = (syscallRead s.kernel e n).2.1

/-! ## 3. The condition on a call -/

/-- When an `open` gives the file a buffer and elements of its own: a descriptor is free, there
is an element for the inode that no descriptor on another file uses, and the buffer ends inside
the address space. -/
structure OpenConfined (ext : Ext) (k : Kernel) (filepath : CString) (flags : Nat) : Prop where
  descriptor : ∃ d < maxOpen, (k.openFileTable d).refCount = 0
  element : HasElement k.openInodeTable (inodeToOpen ext k filepath flags).id
  unused : (∀ i < maxOpen, (k.openInodeTable i).id ≠ (inodeToOpen ext k filepath flags).id) →
    ∀ d, IsOpen k d → (k.openFileTable d).inode ≠ some (searchInode k.openInodeTable 0)
  room : ∀ i inode, i < maxOpen → enterInode k.openInodeTable (inodeToOpen ext k filepath flags)
      = (i, Function.update k.openInodeTable i inode) →
    k.nextAvailableFileVirtualAddress + sizeInPages inode.sizeBytes * pageSize
      < Malloc.addressSpace

/-- When a write keeps to its buffer: with the pages it adds, the buffer meets no other one and
ends inside the address space; the write ends inside it; and a gap starts at the end of the
file. -/
structure WriteConfined (k : Kernel) (fd len : Nat) : Prop where
  room : k.nextAvailableFileVirtualAddress + addedPages k (k.openFileTable fd) * pageSize
    < Malloc.addressSpace
  apart : ∀ e, IsOpen k e → e ≠ fd → Apart ((k.openFileTable fd).address,
    ((k.openFileTable fd).pagesAllocated + addedPages k (k.openFileTable fd)) * pageSize)
    (k.openFileTable e).buffer
  ends : writeOffset k (k.openFileTable fd) + len
    ≤ ((k.openFileTable fd).pagesAllocated + addedPages k (k.openFileTable fd)) * pageSize
  gap : writeOffset k (k.openFileTable fd) > (k.openFileTable fd).pagesAllocated * pageSize →
    (k.inodeOf (k.openFileTable fd)).sizeBytes ≤ writeOffset k (k.openFileTable fd)

/-- **When a call keeps files apart.** -/
def Confined (s : Session) : FileCall → Prop
  | .open ext filepath flags => (inodeToOpen ext s.kernel filepath flags).id ≠ 0 →
      OpenConfined ext s.kernel filepath flags
  | .close _ fd => fd < maxOpen
  | .read fd _ => fd < maxOpen
  | .seek fd _ _ => fd < maxOpen
  | .write _ fd _ len => fd < maxOpen ∧
      (IsOpen s.kernel fd.toNat → WriteConfined s.kernel fd.toNat len)
  | .exit _ => ∀ d, 3 ≤ d → ¬ IsOpen s.kernel d

/-! ## 4. The invariant -/

/-- An open element: one reference, a buffer that ends before the counter, and the inode of the
file that was opened, unless that was cleared since. -/
structure OpenElement (s : Session) (d : Nat) : Prop where
  once : (s.kernel.openFileTable d).refCount = 1
  address : 0 < (s.kernel.openFileTable d).address
  below : (s.kernel.openFileTable d).address
    + (s.kernel.openFileTable d).pagesAllocated * pageSize
      ≤ s.kernel.nextAvailableFileVirtualAddress
  file : ∃ i id, (s.kernel.openFileTable d).inode = some i ∧ s.file d = some id ∧
    ((s.kernel.openInodeTable i).id = id ∨ (s.kernel.openInodeTable i).id = 0)

/-- The invariant: open elements as above and apart from each other, closed elements empty. -/
structure Separated (s : Session) : Prop where
  counter : 0 < s.kernel.nextAvailableFileVirtualAddress ∧
    s.kernel.nextAvailableFileVirtualAddress < Malloc.addressSpace
  closed : ∀ d < maxOpen, (s.kernel.openFileTable d).refCount = 0 →
    (s.kernel.openFileTable d).pagesAllocated = 0 ∧ s.file d = none
  opened : ∀ d, IsOpen s.kernel d → OpenElement s d
  apart : Separate s.kernel
  shared : ∀ d e, IsOpen s.kernel d → IsOpen s.kernel e →
    (s.kernel.openFileTable d).inode = (s.kernel.openFileTable e).inode → s.file d = s.file e

/-- **Offsets and sizes of one element change**, the counter does not go back, and the buffer
of the element, if it changed, is open, ends before the counter and meets no other one. -/
theorem Separated.resize {s : Session} (h : Separated s) {k : Kernel} {fd v p : Nat}
    (hfiles : k.openFileTable = Function.update s.kernel.openFileTable fd
      { s.kernel.openFileTable fd with offset := v, pagesAllocated := p })
    (hids : ∀ i, (k.openInodeTable i).id = (s.kernel.openInodeTable i).id)
    (hcounter : s.kernel.nextAvailableFileVirtualAddress ≤ k.nextAvailableFileVirtualAddress ∧
      k.nextAvailableFileVirtualAddress < Malloc.addressSpace)
    (hsize : p = (s.kernel.openFileTable fd).pagesAllocated ∨ (IsOpen s.kernel fd ∧
      (s.kernel.openFileTable fd).address + p * pageSize ≤ k.nextAvailableFileVirtualAddress ∧
      ∀ e, IsOpen s.kernel e → e ≠ fd → Apart ((s.kernel.openFileTable fd).address, p * pageSize)
        (s.kernel.openFileTable e).buffer)) :
    Separated ⟨k, s.file⟩ := by
  have hself : k.openFileTable fd
      = { s.kernel.openFileTable fd with offset := v, pagesAllocated := p } := by
    rw [hfiles, Function.update_self]
  have hother : ∀ d, d ≠ fd → k.openFileTable d = s.kernel.openFileTable d := fun d hd => by
    rw [hfiles, Function.update_of_ne hd]
  have hopen : ∀ d, IsOpen k d ↔ IsOpen s.kernel d := by
    intro d
    unfold IsOpen
    by_cases hd : d = fd
    · subst hd
      rw [hself]
    · rw [hother d hd]
  have hinode : ∀ d, (k.openFileTable d).inode = (s.kernel.openFileTable d).inode := by
    intro d
    by_cases hd : d = fd
    · subst hd
      rw [hself]
    · rw [hother d hd]
  -- The changed buffer meets no other one.
  have hapart : ∀ e, IsOpen s.kernel fd → IsOpen s.kernel e → e ≠ fd →
      Apart (k.openFileTable fd).buffer (s.kernel.openFileTable e).buffer := by
    intro e hfd he hne
    rw [hself]
    rcases hsize with rfl | ⟨-, -, hmeet⟩
    · exact h.apart fd e hfd he (Ne.symm hne)
    · exact hmeet e he hne
  refine ⟨⟨Nat.lt_of_lt_of_le h.counter.1 hcounter.1, hcounter.2⟩, fun d hd hzero => ?_,
    fun d hd => ?_, fun a b ha hb hne => ?_, fun a b ha hb heq => ?_⟩
  · by_cases hdf : d = fd
    · subst hdf
      rw [hself] at hzero ⊢
      obtain ⟨hpages, hnone⟩ := h.closed d hd hzero
      refine ⟨?_, hnone⟩
      rcases hsize with rfl | ⟨hfd, -⟩
      · exact hpages
      · exact absurd hzero hfd.2
    · rw [hother d hdf] at hzero ⊢
      exact h.closed d hd hzero
  · obtain ⟨honce, haddr, hbelow, i, id, hptr, hfile, hid⟩ := h.opened d ((hopen d).mp hd)
    refine ⟨?_, ?_, ?_, i, id, (hinode d).trans hptr, hfile, by rwa [hids i]⟩
    · by_cases hdf : d = fd
      · subst hdf
        rw [hself]
        exact honce
      · rw [hother d hdf]
        exact honce
    · by_cases hdf : d = fd
      · subst hdf
        rw [hself]
        exact haddr
      · rw [hother d hdf]
        exact haddr
    · by_cases hdf : d = fd
      · subst hdf
        rw [hself]
        rcases hsize with rfl | ⟨-, hend, -⟩
        · exact Nat.le_trans hbelow hcounter.1
        · exact hend
      · rw [hother d hdf]
        exact Nat.le_trans hbelow hcounter.1
  · have ha := (hopen a).mp ha
    have hb := (hopen b).mp hb
    by_cases haf : a = fd
    · subst haf
      rw [hother b (Ne.symm hne)]
      exact hapart b ha hb (Ne.symm hne)
    · by_cases hbf : b = fd
      · subst hbf
        rw [hother a haf]
        exact (hapart a hb ha hne).symm
      · rw [hother a haf, hother b hbf]
        exact h.apart a b ha hb hne
  · rw [hinode a, hinode b] at heq
    exact h.shared a b ((hopen a).mp ha) ((hopen b).mp hb) heq

/-! ## 5. The calls that keep every buffer -/

/-- `syscall_read`. -/
theorem separated_read {s : Session} (h : Separated s) (fd : Int) (len : Nat) :
    Separated (s.call (.read fd len)) := by
  show Separated ⟨(syscallRead s.kernel fd len).2.2, s.file⟩
  unfold syscallRead
  split
  · exact h
  · simp only []
    split
    · exact h
    · split
      · exact h
      · exact h.resize rfl (fun _ => rfl) ⟨Nat.le_refl _, h.counter.2⟩ (Or.inl rfl)

/-- `syscall_seek`. -/
theorem separated_seek {s : Session} (h : Separated s) (fd delta : Int) (whence : Whence) :
    Separated (s.call (.seek fd delta whence)) := by
  show Separated ⟨(syscallSeek s.kernel fd delta whence).2, s.file⟩
  unfold syscallSeek
  split
  · exact h
  · simp only []
    split
    · exact h
    · exact h.resize rfl (fun _ => rfl) ⟨Nat.le_refl _, h.counter.2⟩ (Or.inl rfl)

/-! ## 6. `syscall_write` -/

@[simp] theorem id_resized (inode : Inode) (offset : Nat) :
    (resized inode offset).id = inode.id := by
  unfold resized
  split
  · rw [Fs.Inode.id_setSizeSectors, Fs.Inode.id_setSizeBytes]
  · rfl

/-- A write does nothing, or writes through an open element. -/
theorem syscallWrite_cases (ext : Ext) (k : Kernel) (fd : Int) (buf : Bytes) (len : Nat) :
    (syscallWrite ext k fd buf len).2 = k ∨
    ∃ i, 0 ≤ fd ∧ (k.openFileTable fd.toNat).inode = some i ∧
      (k.openFileTable fd.toNat).refCount ≠ 0 ∧
      (syscallWrite ext k fd buf len).2 = writeFile ext k fd.toNat i buf len := by
  unfold syscallWrite
  split
  · exact Or.inl rfl
  · next hneg =>
    split
    · exact Or.inl rfl
    · cases hptr : (k.openFileTable fd.toNat).inode with
      | none => exact Or.inl (by simp only [hptr])
      | some i =>
        simp only [hptr]
        split
        · exact Or.inl rfl
        · next hopen =>
          split
          · exact Or.inl rfl
          · exact Or.inr ⟨i, Int.not_lt.mp hneg, rfl, hopen, rfl⟩

/-- Numbers of a confined write that do not wrap. -/
theorem WriteConfined.bounds {k : Kernel} {fd len : Nat} (h : WriteConfined k fd len)
    (hbelow : (k.openFileTable fd).address + (k.openFileTable fd).pagesAllocated * pageSize
      ≤ k.nextAvailableFileVirtualAddress) :
    u32 ((k.openFileTable fd).pagesAllocated * pageSize)
      = (k.openFileTable fd).pagesAllocated * pageSize ∧
    u32 ((k.openFileTable fd).pagesAllocated + addedPages k (k.openFileTable fd))
      = (k.openFileTable fd).pagesAllocated + addedPages k (k.openFileTable fd) ∧
    u32 (k.nextAvailableFileVirtualAddress + addedPages k (k.openFileTable fd) * pageSize)
      = k.nextAvailableFileVirtualAddress + addedPages k (k.openFileTable fd) * pageSize ∧
    (k.openFileTable fd).address + ((k.openFileTable fd).pagesAllocated
      + addedPages k (k.openFileTable fd)) * pageSize
        ≤ k.nextAvailableFileVirtualAddress
          + addedPages k (k.openFileTable fd) * pageSize := by
  have hroom := h.room
  generalize addedPages k (k.openFileTable fd) = n at *
  generalize (k.openFileTable fd).pagesAllocated = m at *
  unfold pageSize Malloc.addressSpace at *
  have h1 : m * 4096 < 4294967296 := by omega
  have h2 : m + n < 4294967296 := by omega
  have h3 : k.nextAvailableFileVirtualAddress + n * 4096 < 4294967296 := by omega
  refine ⟨u32_eq h1, u32_eq h2, u32_eq h3, ?_⟩
  rw [Nat.add_mul, ← Nat.add_assoc]
  exact Nat.add_le_add_right hbelow _

/-- **A confined write** keeps the invariant. -/
theorem separated_write {s : Session} (h : Separated s) (ext : Ext) (fd : Int) (buf : Bytes)
    (len : Nat) (hok : Confined s (.write ext fd buf len)) :
    Separated (s.call (.write ext fd buf len)) := by
  show Separated ⟨(syscallWrite ext s.kernel fd buf len).2, s.file⟩
  rcases syscallWrite_cases ext s.kernel fd buf len with hnot | ⟨i, hpos, hptr, hopen, hwrite⟩
  · rw [hnot]
    exact h
  · rw [hwrite]
    have hfd : IsOpen s.kernel fd.toNat := ⟨by have := hok.1; omega, hopen⟩
    have hconf := hok.2 hfd
    obtain ⟨-, hpages, hnext, hend⟩ := hconf.bounds (h.opened _ hfd).below
    have hcounter : (writeFile ext s.kernel fd.toNat i buf len).nextAvailableFileVirtualAddress
        = s.kernel.nextAvailableFileVirtualAddress
          + addedPages s.kernel (s.kernel.openFileTable fd.toNat) * pageSize := hnext
    refine h.resize rfl (fun j => ?_) ⟨?_, ?_⟩ (Or.inr ⟨hfd, ?_, ?_⟩)
    · show (Function.update s.kernel.openInodeTable i _ j).id = _
      by_cases hj : j = i
      · subst hj
        rw [Function.update_self, id_resized]
      · rw [Function.update_of_ne hj]
    · rw [hcounter]
      exact Nat.le_add_right _ _
    · rw [hcounter]
      exact hconf.room
    · rw [hpages, hcounter]
      exact hend
    · rw [hpages]
      exact hconf.apart

/-- The addresses that a confined write changes. -/
theorem writeFile_mem {s : Session} (h : Separated s) {ext : Ext} {fd i len : Nat} {buf : Bytes}
    (hfd : IsOpen s.kernel fd) (hconf : WriteConfined s.kernel fd len) {p : Nat}
    (hown : ¬ Inside p ((s.kernel.openFileTable fd).address,
      ((s.kernel.openFileTable fd).pagesAllocated
        + addedPages s.kernel (s.kernel.openFileTable fd)) * pageSize))
    (hnew : ¬ Inside p (s.kernel.nextAvailableFileVirtualAddress,
      addedPages s.kernel (s.kernel.openFileTable fd) * pageSize)) :
    (writeFile ext s.kernel fd i buf len).mem p = s.kernel.mem p := by
  obtain ⟨hold, -, -, hend⟩ := hconf.bounds (h.opened _ hfd).below
  have hroom := hconf.room
  have hends := hconf.ends
  have hgap := hconf.gap
  unfold Inside Malloc.addressSpace at *
  have hextend : extendFile ext s.kernel (s.kernel.openFileTable fd) p = s.kernel.mem p := by
    unfold extendFile
    split
    · next hgrow =>
      rw [hold] at hgrow
      have hsize := hgap hgrow
      rw [sub32_eq (by omega) hsize, u32_eq (by omega), blit_out (by omega)]
      exact mapPages_out _ (by unfold Malloc.addressSpace Malloc.pageSize pageSize at *; omega)
        (by unfold Malloc.pageSize pageSize at *; omega)
    · rfl
  show blit _ (u32 (_ + _)) len buf p = _
  rw [u32_eq (by omega), blit_out (by omega), hextend]

/-- What a read returns depends on the element, its inode and the bytes read. -/
theorem syscallRead_congr {k k' : Kernel} {e n : Nat}
    (hentry : k'.openFileTable e = k.openFileTable e)
    (hof : k'.inodeOf (k.openFileTable e) = k.inodeOf (k.openFileTable e))
    (hmem : ∀ j < bytesRead (k.inodeOf (k.openFileTable e)).sizeBytes
        (k.openFileTable e).offset n,
      k'.mem (u32 ((k.openFileTable e).address + (k.openFileTable e).offset) + j)
        = k.mem (u32 ((k.openFileTable e).address + (k.openFileTable e).offset) + j)) :
    (syscallRead k' e n).2.1 = (syscallRead k e n).2.1 := by
  have hneg : ¬ (e : Int) < 0 := by omega
  unfold syscallRead
  simp only [if_neg hneg, Int.toNat_natCast, hentry, hof]
  split
  · rfl
  · split
    · rfl
    · exact List.map_congr_left fun j hj => hmem j (List.mem_range.mp hj)

/-- **A confined write is local.** -/
theorem write_local {s : Session} (h : Separated s) {ext : Ext} {fd len : Nat} {buf : Bytes}
    (hok : Confined s (.write ext fd buf len)) : WriteLocal ext s fd buf len := by
  have hcall : ∀ c : Session, c = s.call (.write ext fd buf len) →
      c = ⟨(syscallWrite ext s.kernel fd buf len).2, s.file⟩ := fun c hc => hc
  rcases syscallWrite_cases ext s.kernel fd buf len with hnot | ⟨i, hpos, hptr, hopen, hwrite⟩
  · have hsame := hcall _ rfl
    rw [hnot] at hsame
    refine ⟨fun p hp => ?_, fun e _ _ p _ => ?_, fun e _ _ n _ => ?_⟩
    · rw [hsame] at hp
      exact absurd rfl hp
    · rw [hsame]
    · rw [hsame]
  · rw [Int.toNat_natCast] at hptr hopen hwrite
    have hsame := hcall _ rfl
    rw [hwrite] at hsame
    have hfd : IsOpen s.kernel fd := ⟨by have := hok.1; omega, hopen⟩
    have hconf := hok.2 hfd
    rw [Int.toNat_natCast] at hconf
    obtain ⟨-, hpages, hnext, hend⟩ := hconf.bounds (h.opened _ hfd).below
    have hothers : ∀ e, IsOpen s.kernel e → e ≠ fd → ∀ p,
        Inside p (s.kernel.openFileTable e).buffer →
        (writeFile ext s.kernel fd i buf len).mem p = s.kernel.mem p := by
      intro e he hne p hp
      refine writeFile_mem h hfd hconf (fun hown => ?_) fun hnew => ?_
      · exact (hconf.apart e he hne).not_inside hown hp
      · have hbelow := (h.opened e he).below
        unfold Inside OpenFile.buffer at *
        simp only [] at hp hnew
        omega
    refine ⟨fun p hp => ?_, ?_, ?_⟩
    · rw [hsame] at hp ⊢
      by_contra hnot
      rw [not_or] at hnot
      refine hp (writeFile_mem h hfd hconf ?_ ?_)
      · intro hown
        refine hnot.1 ?_
        have hentry : ((writeFile ext s.kernel fd i buf len).openFileTable fd).buffer
            = ((s.kernel.openFileTable fd).address, u32 ((s.kernel.openFileTable fd).pagesAllocated
              + addedPages s.kernel (s.kernel.openFileTable fd)) * pageSize) := by
          unfold writeFile OpenFile.buffer
          simp only [Function.update_self]
        rw [hentry, hpages]
        exact hown
      · intro hnew
        refine hnot.2 ?_
        have hcounter : (writeFile ext s.kernel fd i buf len).nextAvailableFileVirtualAddress
            = s.kernel.nextAvailableFileVirtualAddress
              + addedPages s.kernel (s.kernel.openFileTable fd) * pageSize := hnext
        rw [hcounter, Nat.add_sub_cancel_left]
        exact hnew
    · rw [hsame]
      exact hothers
    · intro e he hfile n hin
      have hne : e ≠ fd := fun heq => hfile (by rw [heq])
      have hinode : (s.kernel.openFileTable e).inode ≠ some i :=
        fun heq => hfile (h.shared e fd he hfd (heq.trans hptr.symm))
      have hbelow := (h.opened e he).below
      have hspace := h.counter.2
      have hentry : (writeFile ext s.kernel fd i buf len).openFileTable e
          = s.kernel.openFileTable e := Function.update_of_ne hne _ _
      have hof : (writeFile ext s.kernel fd i buf len).inodeOf (s.kernel.openFileTable e)
          = s.kernel.inodeOf (s.kernel.openFileTable e) := by
        unfold Kernel.inodeOf
        cases hp : (s.kernel.openFileTable e).inode with
        | none => rfl
        | some j =>
          have hji : j ≠ i := fun heq => hinode (hp.trans (congrArg some heq))
          exact Function.update_of_ne hji _ _
      rw [hsame]
      refine syscallRead_congr hentry hof fun j hj => hothers e he hne _ ?_
      unfold Inside OpenFile.buffer Malloc.addressSpace at *
      rw [u32_eq (by omega)]
      exact ⟨by omega, by simp only []; omega⟩

/-! ## 7. `syscall_open` -/

/-- Nothing here depends on the file system. -/
theorem Separated.fs {s : Session} (h : Separated s) (fs : State) :
    Separated ⟨{ s.kernel with fs := fs }, s.file⟩ := by
  refine ⟨h.counter, h.closed, fun d hd => ?_, h.apart, h.shared⟩
  obtain ⟨h1, h2, h3, h4⟩ := h.opened d hd
  exact ⟨h1, h2, h3, h4⟩

/-- **A confined open** keeps the invariant. -/
theorem separated_open {s : Session} (h : Separated s) (ext : Ext) (filepath : CString)
    (flags : Nat) (hok : Confined s (.open ext filepath flags)) :
    Separated (s.call (.open ext filepath flags)) := by
  have hcall : s.call (.open ext filepath flags) = ⟨(syscallOpen ext s.kernel filepath flags).2,
      if (syscallOpen ext s.kernel filepath flags).1 < 0 then s.file
      else Function.update s.file (syscallOpen ext s.kernel filepath flags).1.toNat
        (some (inodeToOpen ext s.kernel filepath flags).id)⟩ := rfl
  rw [hcall]
  rcases syscallOpen_cases ext s.kernel filepath flags with ⟨-, fs, heq⟩ | ⟨hid, fs, heq⟩
  · rw [heq]
    exact h.fs fs
  · obtain ⟨hdesc, helem, hunused, hroom⟩ := hok hid
    rw [heq]
    simp only [if_neg (Int.not_lt.mpr (Int.natCast_nonneg _)), Int.toNat_natCast]
    generalize inodeToOpen ext s.kernel filepath flags = f at *
    have h := h.fs fs
    obtain ⟨i, inode, henter, hent⟩ := enterInode_entered helem
    have hsplit : openInode ext { s.kernel with fs := fs } f flags = (_, _) := Prod.mk.eta.symm
    obtain ⟨hfd, hinodes, hfiles, hnext, -⟩ := openInode_tables hsplit henter
    generalize (openInode ext { s.kernel with fs := fs } f flags).1 = fd at *
    generalize (openInode ext { s.kernel with fs := fs } f flags).2 = k at *
    have hspace := hroom i inode hent.index henter
    -- The descriptor was closed.
    obtain ⟨hlt, hslot⟩ := searchFd_found hdesc
    rw [← hfd] at hlt hslot
    have hclosed : (s.kernel.openFileTable fd).refCount = 0 := by
      rcases hslot with hzero | hzero
      · by_contra hne
        have := (h.opened fd ⟨hlt, hne⟩).address
        simp only [hzero] at this
        omega
      · exact hzero
    obtain ⟨hnone, hfile⟩ := h.closed fd hlt hclosed
    simp only [] at hnext hfiles hinodes hnone hfile
    have hcounter : k.nextAvailableFileVirtualAddress
        = s.kernel.nextAvailableFileVirtualAddress + sizeInPages inode.sizeBytes * pageSize := by
      rw [hnext]
      exact u32_eq hspace
    obtain ⟨entry, hentry⟩ : ∃ entry, entry = openedFile { s.kernel with fs := fs } fd i inode
      flags := ⟨_, rfl⟩
    have hself : k.openFileTable fd = entry := by rw [hfiles, Function.update_self, hentry]
    have haddr : entry.address = s.kernel.nextAvailableFileVirtualAddress := by rw [hentry]; rfl
    have hptr : entry.inode = some i := by rw [hentry]; rfl
    have href : entry.refCount = 1 := by rw [hentry]; rfl
    have hsize : entry.pagesAllocated = sizeInPages inode.sizeBytes := by
      rw [hentry, openedFile, hnone, Nat.zero_add]
      refine u32_eq ?_
      unfold pageSize Malloc.addressSpace at hspace
      omega
    have hother : ∀ d, d ≠ fd → k.openFileTable d = s.kernel.openFileTable d := fun d hd => by
      rw [hfiles, Function.update_of_ne hd]
    have hopen : ∀ d, d ≠ fd → IsOpen k d → IsOpen s.kernel d := by
      intro d hd hd'
      unfold IsOpen at *
      rwa [hother d hd] at hd'
    -- Every buffer there was ends before the new one.
    have hbefore : ∀ e, IsOpen s.kernel e →
        Apart (s.kernel.openFileTable e).buffer entry.buffer := by
      intro e he
      refine Or.inl ?_
      show _ ≤ entry.address
      rw [haddr]
      exact (h.opened e he).below
    -- Another descriptor with this element is on this file.
    have hshared : ∀ e, IsOpen s.kernel e → (s.kernel.openFileTable e).inode = some i →
        s.file e = some f.id := by
      intro e he hei
      rcases hent.counted with ⟨hif, -⟩ | ⟨-, hsearch, habsent, -⟩
      · obtain ⟨-, -, -, j, id, hej, hfid, hjid⟩ := h.opened e he
        obtain rfl : j = i := Option.some.inj (hej.symm.trans hei)
        rcases hjid with hjid | hzero
        · exact hfid.trans (congrArg some (hjid.symm.trans hif))
        · exact absurd (hif.symm.trans hzero) hid
      · exact absurd (hsearch ▸ hei) (hunused habsent e he)
    refine ⟨⟨?_, ?_⟩, fun d hd hzero => ?_, fun d hd => ?_, fun a b ha hb hne => ?_,
      fun a b ha hb hab => ?_⟩
    · rw [hcounter]
      exact Nat.lt_of_lt_of_le h.counter.1 (Nat.le_add_right _ _)
    · rw [hcounter]
      exact hspace
    · have hdf : d ≠ fd := by
        rintro rfl
        rw [hself, href] at hzero
        exact Nat.one_ne_zero hzero
      rw [hother d hdf] at hzero ⊢
      simp only [Function.update_of_ne hdf]
      exact h.closed d hd hzero
    · by_cases hdf : d = fd
      · subst hdf
        refine ⟨by rw [hself, href], ?_, ?_, i, f.id, by rw [hself, hptr],
          Function.update_self .., Or.inl ?_⟩
        · rw [hself, haddr]
          exact h.counter.1
        · rw [hself, haddr, hsize, hcounter]
        · rw [hinodes, Function.update_self, hent.id]
      · obtain ⟨h1, h2, h3, j, id, h4, h5, h6⟩ := h.opened d (hopen d hdf hd)
        refine ⟨?_, ?_, ?_, j, id, ?_, ?_, ?_⟩
        · rw [hother d hdf]
          exact h1
        · rw [hother d hdf]
          exact h2
        · rw [hother d hdf, hcounter]
          exact Nat.le_trans h3 (Nat.le_add_right _ _)
        · rw [hother d hdf]
          exact h4
        · simp only [Function.update_of_ne hdf]
          exact h5
        · rw [hinodes]
          by_cases hji : j = i
          · subst hji
            rw [Function.update_self, hent.id]
            have hdi := hshared d (hopen d hdf hd) h4
            exact Or.inl (Option.some.inj (hdi.symm.trans h5))
          · rw [Function.update_of_ne hji]
            exact h6
    · by_cases haf : a = fd
      · subst haf
        rw [hself, hother b (Ne.symm hne)]
        exact (hbefore b (hopen b (Ne.symm hne) hb)).symm
      · by_cases hbf : b = fd
        · subst hbf
          rw [hself, hother a haf]
          exact hbefore a (hopen a haf ha)
        · rw [hother a haf, hother b hbf]
          exact h.apart a b (hopen a haf ha) (hopen b hbf hb) hne
    · by_cases haf : a = fd <;> by_cases hbf : b = fd
      · rw [haf, hbf]
      · subst haf
        rw [hself, hother b hbf, hptr] at hab
        simp only [Function.update_self, Function.update_of_ne hbf]
        exact (hshared b (hopen b hbf hb) hab.symm).symm
      · subst hbf
        rw [hself, hother a haf, hptr] at hab
        simp only [Function.update_self, Function.update_of_ne haf]
        exact hshared a (hopen a haf ha) hab
      · rw [hother a haf, hother b hbf] at hab
        simp only [Function.update_of_ne haf, Function.update_of_ne hbf]
        exact h.shared a b (hopen a haf ha) (hopen b hbf hb) hab

/-! ## 8. `syscall_close` and `syscall_exit` -/

theorem id_releasedInode (inode : Inode) :
    (releasedInode inode).id = inode.id ∨ (releasedInode inode).id = 0 := by
  unfold releasedInode
  simp only []
  split
  · exact Or.inr Fs.id_noInode
  · exact Or.inl (Fs.Inode.id_setRefCount _ _)

/-- **Closing** leaves the descriptor closed, and opens none. -/
theorem separated_close {s : Session} (h : Separated s) (ext : Ext) {d : Nat}
    (hd : d < maxOpen) :
    Separated ⟨(syscallClose ext s.kernel d).2, Function.update s.file d none⟩ ∧
    ∀ e, IsOpen (syscallClose ext s.kernel d).2 e → e ≠ d ∧ IsOpen s.kernel e := by
  by_cases hopen : (s.kernel.openFileTable d).refCount = 0
  · -- Nothing happens when it is not open.
    have hsame : (syscallClose ext s.kernel d).2 = s.kernel := by
      have hneg : ¬ (d : Int) < 0 := by omega
      unfold syscallClose
      rw [if_neg hneg]
      simp only [Int.toNat_natCast, hopen, if_true]
      cases (s.kernel.openFileTable d).inode <;> rfl
    rw [hsame, ← (h.closed d hd hopen).2, Function.update_eq_self]
    exact ⟨h, fun e he => ⟨fun heq => he.2 (heq ▸ hopen), he⟩⟩
  · obtain ⟨honce, -, -, i, id, hptr, -, -⟩ := h.opened d ⟨hd, hopen⟩
    obtain ⟨hfiles, hinodes, hnext⟩ := @syscallClose_tables ext _ _ _ honce hptr
    generalize (syscallClose ext s.kernel d).2 = k at *
    have hself : k.openFileTable d = OpenFile.zero := by rw [hfiles, Function.update_self]
    have hother : ∀ e, e ≠ d → k.openFileTable e = s.kernel.openFileTable e := fun e he => by
      rw [hfiles, Function.update_of_ne he]
    have hstill : ∀ e, IsOpen k e → e ≠ d ∧ IsOpen s.kernel e := by
      intro e he
      have hne : e ≠ d := by
        rintro rfl
        exact he.2 (by rw [hself]; rfl)
      unfold IsOpen at *
      rw [hother e hne] at he
      exact ⟨hne, he⟩
    refine ⟨⟨?_, fun e he hzero => ?_, fun e he => ?_, fun a b ha hb hne => ?_,
      fun a b ha hb hab => ?_⟩, hstill⟩
    · rw [hnext]
      exact h.counter
    · by_cases hed : e = d
      · subst hed
        rw [hself]
        exact ⟨rfl, Function.update_self ..⟩
      · rw [hother e hed] at hzero ⊢
        simp only [Function.update_of_ne hed]
        exact h.closed e he hzero
    · obtain ⟨hed, he⟩ := hstill e he
      obtain ⟨h1, h2, h3, j, id, h4, h5, h6⟩ := h.opened e he
      refine ⟨?_, ?_, ?_, j, id, ?_, ?_, ?_⟩
      · rw [hother e hed]
        exact h1
      · rw [hother e hed]
        exact h2
      · rw [hother e hed, hnext]
        exact h3
      · rw [hother e hed]
        exact h4
      · simp only [Function.update_of_ne hed]
        exact h5
      · rw [hinodes]
        by_cases hji : j = i
        · subst hji
          rw [Function.update_self]
          rcases id_releasedInode (s.kernel.openInodeTable j) with hsame | hzero
          · rwa [hsame]
          · exact Or.inr hzero
        · rw [Function.update_of_ne hji]
          exact h6
    · obtain ⟨had, ha⟩ := hstill a ha
      obtain ⟨hbd, hb⟩ := hstill b hb
      rw [hother a had, hother b hbd]
      exact h.apart a b ha hb hne
    · obtain ⟨had, ha⟩ := hstill a ha
      obtain ⟨hbd, hb⟩ := hstill b hb
      rw [hother a had, hother b hbd] at hab
      simp only [Function.update_of_ne had, Function.update_of_ne hbd]
      exact h.shared a b ha hb hab

/-- **A process that ends with no file of its own open** leaves no buffer behind. -/
theorem separated_exit {s : Session} (h : Separated s) (ext : Ext)
    (hok : Confined s (.exit ext)) : Separated (s.call (.exit ext)) := by
  obtain ⟨h0, hopen0⟩ := separated_close h ext (d := 0) (by decide)
  obtain ⟨h1, hopen1⟩ := separated_close h0 ext (d := 1) (by decide)
  obtain ⟨h2, hopen2⟩ := separated_close h1 ext (d := 2) (by decide)
  -- No descriptor is open any more.
  have hnone : ∀ d, ¬ IsOpen (syscallExit ext s.kernel) d := by
    intro d hd
    obtain ⟨hd2, hd⟩ := hopen2 d hd
    obtain ⟨hd1, hd⟩ := hopen1 d hd
    obtain ⟨hd0, hd⟩ := hopen0 d hd
    exact hok d (by omega) hd
  have hstart : (s.call (.exit ext)).kernel.nextAvailableFileVirtualAddress = 0x40000000 := rfl
  refine ⟨?_, h2.closed, fun d hd => absurd hd (hnone d),
    fun d _ hd => absurd hd (hnone d), fun d _ hd => absurd hd (hnone d)⟩
  rw [hstart]
  exact ⟨by decide, by decide⟩

/-! ## 9. Whole runs -/

theorem separated_booted {k : Kernel} (h : Booted k)
    (hnext : k.nextAvailableFileVirtualAddress = 0x40000000) : Separated ⟨k, fun _ => none⟩ := by
  have hclosed : ∀ d, ¬ IsOpen k d := by
    intro d hd
    exact hd.2 (by rw [h.1 d]; rfl)
  refine ⟨?_, fun d _ _ => ⟨?_, rfl⟩, fun d hd => absurd hd (hclosed d),
    fun d _ hd => absurd hd (hclosed d), fun d _ hd => absurd hd (hclosed d)⟩
  · show 0 < k.nextAvailableFileVirtualAddress ∧ k.nextAvailableFileVirtualAddress < _
    rw [hnext]
    exact ⟨by decide, by decide⟩
  · show (k.openFileTable d).pagesAllocated = 0
    rw [h.1 d]
    rfl

/-- **Open files do not share memory**, in every state of a run of confined calls. -/
theorem buffers_separate (k : Kernel) (hboot : Booted k)
    (hnext : k.nextAvailableFileVirtualAddress = 0x40000000) (s : Session)
    (h : Reach FileStep Confined ⟨k, fun _ => none⟩ s) :
    Separate s.kernel ∧ ∀ (ext : Ext) (fd len : Nat) (buf : Bytes),
      Confined s (.write ext fd buf len) → WriteLocal ext s fd buf len := by
  have hsep : Separated s := by
    refine h.invariant (separated_booted hboot hnext) ?_
    rintro s c s' hs hok rfl
    cases c with
    | «open» ext filepath flags => exact separated_open hs ext filepath flags hok
    | close ext fd =>
      by_cases hneg : fd < 0
      · show Separated ⟨(syscallClose ext s.kernel fd).2, if fd < 0 then _ else _⟩
        rw [if_pos hneg]
        unfold syscallClose
        rw [if_pos hneg]
        exact hs
      · obtain ⟨d, rfl⟩ := Int.eq_ofNat_of_zero_le (Int.not_lt.mp hneg)
        show Separated ⟨(syscallClose ext s.kernel d).2, if (d : Int) < 0 then _ else _⟩
        rw [if_neg hneg, Int.toNat_natCast]
        exact (separated_close hs ext (Int.ofNat_lt.mp hok)).1
    | read fd len => exact separated_read hs fd len
    | write ext fd buf len => exact separated_write hs ext fd buf len hok
    | seek fd delta whence => exact separated_seek hs fd delta whence
    | exit ext => exact separated_exit hs ext hok
  exact ⟨hsep.apart, fun ext fd len buf hok => write_local hsep hok⟩

/-! ## 10. A write longer than a page -/

/-- The root inode of an empty file, of id 1. -/
def emptyRoot : Inode := Fs.noInode.setId 1

/-- The first `open` of an empty file. -/
theorem open_emptyRoot : ∃ k i, syscallOpen quietExt (freshKernel emptyRoot) rootPath oRdwr
      = (((0 : Nat) : Int), k) ∧ i < maxOpen ∧ k.openInodeTable i = emptyRoot ∧
    k.openFileTable 0 = ⟨0x40000000, 0, some i, 1, oRdwr, 1⟩ ∧
    k.nextAvailableFileVirtualAddress = 0x40001000 ∧ ∀ p, k.mem p = 0 := by
  have hid : emptyRoot.id ≠ 0 := by decide
  have hsize : emptyRoot.sizeBytes = 0 := by decide
  have hpages : sizeInPages 0 = 1 := by decide
  obtain ⟨-, k, i, hret, hi, hroot, hentry, hnext, hmem⟩ := open_root hid oRdwr
  rw [hsize, hpages] at hnext hmem
  refine ⟨k, i, hret, hi, hroot, ?_, hnext, fun p => ?_⟩
  · have hflag : hasFlag oRdwr oAppend = false := by decide
    rw [hentry, openedFile, hsize, hpages, hflag]
    rfl
  · have hpage : ∀ q, Malloc.mapPages (fun _ => 0) 1 (fun _ => 0) 0x40000000 q = (0 : UInt8) := by
      intro q
      have hfits : 0x40000000 + 1 * Malloc.pageSize ≤ Malloc.addressSpace := by decide
      by_cases hq : q < 0x40000000 ∨ 0x40000000 + 1 * Malloc.pageSize ≤ q
      · rw [mapPages_out 1 hfits hq]
      · rw [not_or, Nat.not_lt, Nat.not_le] at hq
        rw [Malloc.mapPages_in 1 hfits hq.1 hq.2]
    rw [hmem, hpage]

/-- **A write can leave its buffer**: 4097 bytes written at the start of an empty file store the
last one behind its only page. -/
theorem separate_fails : ¬ ∀ (k : Kernel) (s : Session), Booted k →
    k.nextAvailableFileVirtualAddress = 0x40000000 →
    Reach FileStep (fun _ _ => True) ⟨k, fun _ => none⟩ s →
    Separate s.kernel ∧ ∀ (ext : Ext) (fd len : Nat) (buf : Bytes), WriteLocal ext s fd buf len := by
  intro hall
  obtain ⟨k, i, hret, -, -, hentry, hnext, hmem⟩ := open_emptyRoot
  have hk : (Session.call ⟨freshKernel emptyRoot, fun _ => none⟩
      (.open quietExt rootPath oRdwr)).kernel = k := congrArg Prod.snd hret
  obtain ⟨-, hlocal⟩ := hall _ _ (freshKernel_booted emptyRoot) rfl (.tail .refl trivial rfl)
  have hstores := (hlocal quietExt 0 4097 fun _ => 1).stores 0x40001000
  have hwrite : (syscallWrite quietExt k (0 : Nat) (fun _ => 1) 4097).2
      = writeFile quietExt k 0 i (fun _ => 1) 4097 := by
    have hflags : (!hasFlag oRdwr oWronly && !hasFlag oRdwr oRdwr) = false := by decide
    unfold syscallWrite
    simp [hentry, hflags]
  have hstart : writeOffset k (k.openFileTable 0) = 0 := by
    have hflag : hasFlag oRdwr oAppend = false := by decide
    unfold writeOffset
    simp [hentry, hflag]
  have hadded : addedPages k (k.openFileTable 0) = 0 := by
    unfold addedPages
    rw [hstart]
    simp
  have hcall : (Session.call (Session.call ⟨freshKernel emptyRoot, fun _ => none⟩
      (.open quietExt rootPath oRdwr)) (.write quietExt (0 : Nat) (fun _ => 1) 4097)).kernel
        = writeFile quietExt k 0 i (fun _ => 1) 4097 := by
    rw [← hwrite, ← hk]
    rfl
  rw [hcall, hk] at hstores
  have hafter : (writeFile quietExt k 0 i (fun _ => 1) 4097).mem 0x40001000 = 1 := by
    show blit _ (u32 ((k.openFileTable 0).address + writeOffset k (k.openFileTable 0))) 4097
      (fun _ => 1) 0x40001000 = 1
    have haddr : u32 (0x40000000 + 0) = 0x40000000 := by decide
    rw [hstart, hentry, haddr]
    exact blit_in (by decide) (by decide)
  have hbuffer : ((writeFile quietExt k 0 i (fun _ => 1) 4097).openFileTable 0).buffer
      = (0x40000000, 4096) := by
    unfold writeFile OpenFile.buffer
    simp only [Function.update_self, hadded]
    have hlen : u32 (1 + 0) * pageSize = 4096 := by decide
    rw [hentry]
    exact congrArg (Prod.mk 0x40000000) hlen
  have hcounter : (writeFile quietExt k 0 i (fun _ => 1) 4097).nextAvailableFileVirtualAddress
      = 0x40001000 := by
    have hfield : (writeFile quietExt k 0 i (fun _ => 1) 4097).nextAvailableFileVirtualAddress
        = u32 (k.nextAvailableFileVirtualAddress
          + addedPages k (k.openFileTable 0) * pageSize) := rfl
    rw [hfield, hadded, hnext]
    decide
  rw [hafter, hmem, hbuffer, hcounter, hnext] at hstores
  rcases hstores (by decide) with hin | hin
  · exact absurd hin.2 (by decide)
  · exact absurd hin.2 (by decide)

/-! ## 11. Two files and a write -/

instance (k : Kernel) (fd : Nat) : Decidable (IsOpen k fd) := inferInstanceAs (Decidable (_ ∧ _))

/-- The text `.`. -/
def dotPath : CString where
  chars := [Fs.dot]
  nonzero := List.forall_mem_singleton.mpr (by decide)
  after := fun _ => 0

/-- A kernel with two empty files: `/`, of id 1, and the current directory, of id 2. -/
def twoFiles : Kernel :=
  { freshKernel emptyRoot with
    fs := { (freshKernel emptyRoot).fs with currentDirInode := Fs.noInode.setId 2 } }

def openedOne : Session :=
  Session.call ⟨twoFiles, fun _ => none⟩ (.open quietExt rootPath oRdwr)

def openedTwo : Session := openedOne.call (.open quietExt dotPath oRdwr)

/-- `Hi` written through the first descriptor. -/
def writtenOne : Session :=
  openedTwo.call (.write quietExt 0 (fun i => if i = 0 then 72 else 105) 2)

/-- An `open` of a file that gets a descriptor, an element and pages below the end of the address
space. -/
theorem openConfined_of {ext : Ext} {k : Kernel} {filepath : CString} {flags : Nat}
    (hfd : ∃ d < maxOpen, (k.openFileTable d).refCount = 0)
    (helem : HasElement k.openInodeTable (inodeToOpen ext k filepath flags).id)
    (hunused : ∀ d < maxOpen, (k.openFileTable d).refCount ≠ 0 →
      (k.openFileTable d).inode ≠ some (searchInode k.openInodeTable 0))
    (hroom : k.nextAvailableFileVirtualAddress + sizeInPages ((enterInode k.openInodeTable
      (inodeToOpen ext k filepath flags)).2 (enterInode k.openInodeTable
        (inodeToOpen ext k filepath flags)).1).sizeBytes * pageSize < Malloc.addressSpace) :
    OpenConfined ext k filepath flags := by
  refine ⟨hfd, helem, fun _ d hd => hunused d hd.1 hd.2, fun i inode _ henter => ?_⟩
  rw [henter] at hroom
  simpa only [Function.update_self] using hroom

/-- The theorem with two files open and `Hi` written to one of them. -/
theorem buffers_separate_two : IsOpen writtenOne.kernel 0 ∧ IsOpen writtenOne.kernel 1 ∧
    writtenOne.file 0 = some 1 ∧ writtenOne.file 1 = some 2 ∧
    (syscallRead (syscallSeek writtenOne.kernel 0 0 .seekSet).2 0 2).2.1 = [72, 105] ∧
    (writtenOne.kernel.openFileTable 1).address = 0x40001000 ∧
    Separate writtenOne.kernel ∧
    ∀ (ext : Ext) (fd len : Nat) (buf : Bytes), Confined writtenOne (.write ext fd buf len) →
      WriteLocal ext writtenOne fd buf len := by
  have hfirst : Confined ⟨twoFiles, fun _ => none⟩ (.open quietExt rootPath oRdwr) := fun _ =>
    openConfined_of ⟨0, by decide, by decide⟩ (Or.inr ⟨by decide +kernel, 0, by decide, by decide⟩)
      (by decide +kernel) (by decide +kernel)
  have hsecond : Confined openedOne (.open quietExt dotPath oRdwr) := fun _ =>
    openConfined_of ⟨1, by decide, by decide +kernel⟩
      (Or.inr ⟨by decide +kernel, 1, by decide, by decide +kernel⟩) (by decide +kernel)
      (by decide +kernel)
  have hwrite : Confined openedTwo
      (.write quietExt 0 (fun i => if i = 0 then 72 else 105) 2) := by
    refine ⟨by decide, fun _ => ⟨by decide +kernel, ?_, by decide +kernel, by decide +kernel⟩⟩
    have hall : ∀ e < maxOpen, (openedTwo.kernel.openFileTable e).refCount ≠ 0 → e ≠ 0 →
        0x40000000 + 4096 ≤ (openedTwo.kernel.openFileTable e).address := by decide +kernel
    have hbuffer : ((openedTwo.kernel.openFileTable (0 : Int).toNat).address,
        ((openedTwo.kernel.openFileTable (0 : Int).toNat).pagesAllocated
          + addedPages openedTwo.kernel (openedTwo.kernel.openFileTable (0 : Int).toNat)) * pageSize)
        = (0x40000000, 4096) := by decide +kernel
    intro e he hne
    rw [hbuffer]
    exact Or.inl (hall e he.1 he.2 hne)
  have hrun : Reach FileStep Confined ⟨twoFiles, fun _ => none⟩ writtenOne :=
    ((Reach.refl.tail hfirst rfl).tail hsecond rfl).tail hwrite rfl
  exact ⟨by decide +kernel, by decide +kernel, by decide +kernel, by decide +kernel,
    by decide +kernel, by decide +kernel,
    buffers_separate _ ⟨fun _ => rfl, fun _ _ => rfl⟩ rfl _ hrun⟩

end AmateurOs.Syscalls
