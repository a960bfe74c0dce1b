/-
# `read`, `write` and `seek` as a byte array with a cursor

A program that has a file open for reading and writing sees a `ByteFile`: `contents` is the one
that a descriptor stands for, the first `size_bytes` bytes of its buffer and its offset.  The
three calls should act on it as the operations of `ByteFile` do.

Two things they do differently, both when the cursor is behind the end of the file.

* `syscall_read` computes the number of bytes left as an unsigned difference, so it does not
  return 0 but copies almost 4 GiB (`outputs_fail`).
* `syscall_write` sets the gap to zero only when it also adds pages; inside the pages of the file
  the gap keeps what the pages held.

`CursorOk` is the condition on a call that excludes both, and nothing else; `outputs_eq` proves
that every sequence of calls that meet it has the results of the byte array.  Offsets stay
inside the pages of the file and no sum overflows (`InRange`).
-/
import AmateurOs.Lib.ByteFile
import AmateurOs.Syscalls.Buffers

namespace AmateurOs.Syscalls

open AmateurOs.Lib
open AmateurOs.Fs (Inode State CString)

/-! ## 1. Calls on one descriptor -/

/-- A call on the descriptor. -/
inductive FileOp
  | read (len : Nat)
  | write (ext : Ext) (bytes : List UInt8)
  | seek (delta : Int) (whence : Whence)

/-- What a program sees of a call: the result and the bytes read. -/
abbrev Output := Int × List UInt8

/-- The system call. -/
def runOp (k : Kernel) (fd : Nat) : FileOp → Output × Kernel
  | .read len =>
    let r := syscallRead k fd len
    ((r.1, r.2.1), r.2.2)
  | .write ext bytes =>
    let r := syscallWrite ext k fd (fun j => bytes.getD j 0) bytes.length
    ((r.1, []), r.2)
  | .seek delta whence =>
    let r := syscallSeek k fd delta whence
    ((r.1, []), r.2)

/-- The results of a sequence of system calls. -/
def outputs (k : Kernel) (fd : Nat) : List FileOp → List Output
  | [] => []
  | op :: ops => (runOp k fd op).1 :: outputs (runOp k fd op).2 fd ops

/-- Moving the cursor of a byte array. -/
def seekFile (f : ByteFile) (delta : Int) : Whence → Int × ByteFile
  | .seekSet => if delta < 0 then (-1, { f with cursor := 0 })
      else (delta, { f with cursor := delta.toNat })
  | .seekCur => (max 0 (f.cursor + delta), { f with cursor := (max 0 (f.cursor + delta)).toNat })
  | .seekEnd => (max 0 (f.data.length + delta),
      { f with cursor := (max 0 (f.data.length + delta)).toNat })
  | .invalid => (-1, f)

/-- The same call on a byte array. -/
def runFile (f : ByteFile) : FileOp → Output × ByteFile
  | .read len => (((f.readBytes len).length, f.readBytes len), f.afterRead len)
  | .write _ bytes => ((bytes.length, []), f.write bytes)
  | .seek delta whence => (((seekFile f delta whence).1, []), (seekFile f delta whence).2)

/-- The results of a sequence of calls on a byte array. -/
def fileOutputs (f : ByteFile) : List FileOp → List Output
  | [] => []
  | op :: ops => (runFile f op).1 :: fileOutputs (runFile f op).2 ops

/-! ## 2. The descriptor and the calls considered -/

/-- `oft->inode->size_bytes`. -/
def fileSize (k : Kernel) (fd : Nat) : Nat := (k.inodeOf (k.openFileTable fd)).sizeBytes

/-- A descriptor open for reading and writing, without `O_APPEND`, with its buffer in the
address space and the file in the buffer. -/
structure ReadWrite (k : Kernel) (fd : Nat) : Prop where
  number : fd ≠ 1 ∧ fd ≠ 2
  opened : (k.openFileTable fd).refCount ≠ 0 ∧ (k.openFileTable fd).address ≠ 0
  inode : ∃ i, (k.openFileTable fd).inode = some i
  flags : hasFlag (k.openFileTable fd).flags oRdwr = true ∧
    hasFlag (k.openFileTable fd).flags oWronly = false ∧
    hasFlag (k.openFileTable fd).flags oAppend = false
  room : (k.openFileTable fd).address + (k.openFileTable fd).pagesAllocated * pageSize
    ≤ Malloc.addressSpace
  size : fileSize k fd ≤ (k.openFileTable fd).pagesAllocated * pageSize
  offset : (k.openFileTable fd).offset ≤ (k.openFileTable fd).pagesAllocated * pageSize ∧
    (k.openFileTable fd).offset < 2147483648

/-- The byte array a descriptor stands for. -/
def contents (k : Kernel) (fd : Nat) : ByteFile where
  data := (List.range (fileSize k fd)).map fun j => k.mem ((k.openFileTable fd).address + j)
  cursor := (k.openFileTable fd).offset

/-- The offset that a seek asks for. -/
def seekTarget (k : Kernel) (fd : Nat) (delta : Int) : Whence → Int
  | .seekCur => (k.openFileTable fd).offset + delta
  | .seekEnd => fileSize k fd + delta
  | _ => delta

/-- No sum overflows, and offsets stay inside the pages of the file. -/
def InRange (k : Kernel) (fd : Nat) : FileOp → Prop
  | .read len => (k.openFileTable fd).offset + len < 2147483648
  | .write _ bytes => (k.openFileTable fd).offset + bytes.length < 2147483648 ∧
      (k.openFileTable fd).offset + bytes.length
        ≤ (k.openFileTable fd).pagesAllocated * pageSize
  | .seek delta whence => -2147483648 ≤ seekTarget k fd delta whence ∧
      seekTarget k fd delta whence < 2147483648 ∧
      seekTarget k fd delta whence ≤ (k.openFileTable fd).pagesAllocated * pageSize

/-- **When the calls act as on a byte array.**  A read starts at or before the end of the file;
the gap that a write leaves, if any, holds zeros already. -/
def CursorOk (k : Kernel) (fd : Nat) : FileOp → Prop
  | .read _ => (k.openFileTable fd).offset ≤ fileSize k fd
  | .write _ _ => ∀ j, fileSize k fd ≤ j → j < (k.openFileTable fd).offset →
      k.mem ((k.openFileTable fd).address + j) = 0
  | .seek _ _ => True

/-- A condition on every call of a sequence, in the state the call is made in. -/
def Along (P : Kernel → Nat → FileOp → Prop) (k : Kernel) (fd : Nat) : List FileOp → Prop
  | [] => True
  | op :: ops => P k fd op ∧ Along P (runOp k fd op).2 fd ops

/-! ## 3. One call -/

/-- The byte array stands for the descriptor. -/
structure Represents (k : Kernel) (fd : Nat) (f : ByteFile) : Prop where
  ready : ReadWrite k fd
  cursor : f.cursor = (k.openFileTable fd).offset
  length : f.data.length = fileSize k fd
  bytes : ∀ j < fileSize k fd, f.byte j = k.mem ((k.openFileTable fd).address + j)

theorem represents_contents {k : Kernel} {fd : Nat} (h : ReadWrite k fd) :
    Represents k fd (contents k fd) := by
  refine ⟨h, rfl, by simp [contents], fun j hj => ?_⟩
  unfold ByteFile.byte contents
  rw [List.getD_eq_getElem?_getD, List.getElem?_map, List.getElem?_range hj]
  rfl

/-- The numbers of a descriptor do not wrap. -/
theorem ReadWrite.pages {k : Kernel} {fd : Nat} (h : ReadWrite k fd) :
    (k.openFileTable fd).pagesAllocated * pageSize < 4294967296 := by
  have hroom := h.room
  have hpos := Nat.pos_of_ne_zero h.opened.2
  unfold Malloc.addressSpace at hroom
  omega

/-- The state after a call that only moves the offset. -/
def moveOffset (k : Kernel) (fd v : Nat) : Kernel :=
  let entry := { k.openFileTable fd with offset := v }
  { k with openFileTable := Function.update k.openFileTable fd entry }

/-- A change of the offset alone. -/
theorem Represents.move {k : Kernel} {fd : Nat} {f : ByteFile} (h : Represents k fd f) {v : Nat}
    (hv : v ≤ (k.openFileTable fd).pagesAllocated * pageSize) (hv' : v < 2147483648) :
    Represents (moveOffset k fd v) fd { f with cursor := v } := by
  obtain ⟨⟨h1, h2, h3, h4, h5, h6, -⟩, -, hlength, hbytes⟩ := h
  unfold fileSize Kernel.inodeOf at *
  refine ⟨⟨h1, ?_, ?_, ?_, ?_, ?_, ?_⟩, ?_, ?_, ?_⟩ <;>
    simp only [moveOffset, fileSize, Kernel.inodeOf, Function.update_self]
  · exact h2
  · exact h3
  · exact h4
  · exact h5
  · exact h6
  · exact ⟨hv, hv'⟩
  · exact hlength
  · exact hbytes

/-- **`syscall_read`** from a cursor inside the file. -/
theorem read_represents {k : Kernel} {fd len : Nat} {f : ByteFile} (h : Represents k fd f)
    (hin : InRange k fd (.read len)) (hok : CursorOk k fd (.read len)) :
    (runOp k fd (.read len)).1 = (runFile f (.read len)).1 ∧
      Represents (runOp k fd (.read len)).2 fd (runFile f (.read len)).2 := by
  obtain ⟨hready, hcursor, hlength, hbytes⟩ := id h
  have hroom := hready.room
  have hsize := hready.size
  have hpages := hready.pages
  have hin : (k.openFileTable fd).offset + len < 2147483648 := hin
  have hok : (k.openFileTable fd).offset ≤ fileSize k fd := hok
  -- The number of bytes is the one of the byte array.
  have hcount : bytesRead (fileSize k fd) (k.openFileTable fd).offset len
      = (f.readBytes len).length := by
    rw [f.length_read, hlength, hcursor]
    unfold bytesRead
    rw [u32_eq (by omega)]
    split
    · rw [sub32_eq (by omega) hok]
      omega
    · omega
  have hle : (f.readBytes len).length ≤ len := by
    rw [f.length_read]
    exact Nat.min_le_left _ _
  have hin' : (f.readBytes len).length + (k.openFileTable fd).offset ≤ fileSize k fd := by
    rw [f.length_read, hlength, hcursor]
    omega
  have hread : syscallRead k fd len = (toInt32 (f.readBytes len).length,
      (List.range (f.readBytes len).length).map fun j =>
        k.mem (u32 ((k.openFileTable fd).address + (k.openFileTable fd).offset) + j),
      moveOffset k fd (u32 ((k.openFileTable fd).offset + (f.readBytes len).length))) := by
    have hneg : ¬ (fd : Int) < 0 := by omega
    have hopen : ¬ ((k.openFileTable fd).address = 0 ∨ (k.openFileTable fd).refCount = 0) := by
      rintro (hz | hz)
      · exact hready.opened.2 hz
      · exact hready.opened.1 hz
    unfold syscallRead
    simp only [if_neg hneg, Int.toNat_natCast, if_neg hopen, hready.flags.2.1]
    rw [← hcount]
    rfl
  show ((_, _) : Output) = _ ∧ Represents (syscallRead k fd len).2.2 fd (f.afterRead len)
  rw [hread]
  refine ⟨?_, ?_⟩
  · refine Prod.ext (toInt32_eq (by omega)) ?_
    show List.map _ _ = f.readBytes len
    apply List.ext_getElem
    · rw [List.length_map, List.length_range]
    · intro j hj hj'
      have hbyte : (f.readBytes len).getD j 0 = f.byte (f.cursor + j) := f.getD_read (by omega)
      rw [List.getD_eq_getElem _ _ hj', hcursor, hbytes _ (by omega)] at hbyte
      rw [List.getElem_map, List.getElem_range, hbyte]
      unfold Malloc.addressSpace at hroom
      rcases Nat.lt_or_ge ((k.openFileTable fd).address + (k.openFileTable fd).offset) 4294967296
        with hlt | hge
      · rw [u32_eq hlt, Nat.add_assoc]
      · omega
  · show Represents (moveOffset k fd _) fd (f.afterRead len)
    unfold ByteFile.afterRead
    rw [hcursor, u32_eq (by omega)]
    exact h.move (by omega) (by omega)

/-- A write inside the pages of the file adds none. -/
theorem ReadWrite.write_start {k : Kernel} {fd : Nat} (h : ReadWrite k fd) (ext : Ext) :
    writeOffset k (k.openFileTable fd) = (k.openFileTable fd).offset ∧
      addedPages k (k.openFileTable fd) = 0 ∧ extendFile ext k (k.openFileTable fd) = k.mem := by
  have hstart : writeOffset k (k.openFileTable fd) = (k.openFileTable fd).offset := by
    unfold writeOffset
    rw [h.flags.2.2]
    rfl
  have hinside : ¬ writeOffset k (k.openFileTable fd)
      > u32 ((k.openFileTable fd).pagesAllocated * pageSize) := by
    rw [hstart, u32_eq h.pages]
    exact Nat.not_lt.mpr h.offset.1
  exact ⟨hstart, if_neg hinside, if_neg hinside⟩

theorem sizeBytes_resized (inode : Inode) {offset : Nat} (h : offset < 4294967296) :
    (resized inode offset).sizeBytes = max inode.sizeBytes offset := by
  unfold resized
  split
  · rw [Fs.Inode.sizeBytes_setSizeSectors, Fs.Inode.sizeBytes_setSizeBytes, u32_eq h]
    omega
  · omega

/-- The descriptor and its buffer after `syscall_write`. -/
theorem syscallWrite_readWrite {k : Kernel} {fd : Nat} (h : ReadWrite k fd) {ext : Ext}
    {bytes : List UInt8} (hin : InRange k fd (.write ext bytes)) :
    ∃ k', runOp k fd (.write ext bytes) = (((bytes.length : Int), []), k') ∧
      k'.openFileTable fd = { k.openFileTable fd with
        offset := (k.openFileTable fd).offset + bytes.length } ∧
      fileSize k' fd = max (fileSize k fd) ((k.openFileTable fd).offset + bytes.length) ∧
      k'.mem = blit k.mem ((k.openFileTable fd).address + (k.openFileTable fd).offset)
        bytes.length fun j => bytes.getD j 0 := by
  obtain ⟨i, hi⟩ := h.inode
  obtain ⟨hstart, hadded, hextend⟩ := h.write_start ext
  obtain ⟨hend, hinside⟩ : (k.openFileTable fd).offset + bytes.length < 2147483648 ∧
    (k.openFileTable fd).offset + bytes.length
      ≤ (k.openFileTable fd).pagesAllocated * pageSize := hin
  have hroom := h.room
  have hpages := h.pages
  have hcall : syscallWrite ext k fd (fun j => bytes.getD j 0) bytes.length
      = ((bytes.length : Int), writeFile ext k fd i (fun j => bytes.getD j 0) bytes.length) := by
    have hneg : ¬ (fd : Int) < 0 := by omega
    have hstd : ¬ ((fd : Int) = 1 ∨ (fd : Int) = 2) := by
      rintro (h1 | h2)
      · exact h.number.1 (by omega)
      · exact h.number.2 (by omega)
    unfold syscallWrite
    simp only [if_neg hneg, if_neg hstd, Int.toNat_natCast, hi, if_neg h.opened.1, h.flags.1,
      Bool.not_true, Bool.and_false]
    rw [if_neg Bool.false_ne_true, toInt32_eq (by omega)]
  refine ⟨writeFile ext k fd i (fun j => bytes.getD j 0) bytes.length, ?_, ?_, ?_, ?_⟩
  · simp only [runOp, hcall]
  · have hwrapped : (writeFile ext k fd i (fun j => bytes.getD j 0) bytes.length).openFileTable fd
        = { k.openFileTable fd with
          offset := u32 (writeOffset k (k.openFileTable fd) + bytes.length)
          pagesAllocated := u32 ((k.openFileTable fd).pagesAllocated
            + addedPages k (k.openFileTable fd)) } := Function.update_self ..
    have hfew : (k.openFileTable fd).pagesAllocated < 4294967296 := by
      unfold pageSize at hpages
      omega
    rw [hwrapped, hstart, hadded, u32_eq (by omega), Nat.add_zero, u32_eq hfew]
  · have hsize : fileSize (writeFile ext k fd i (fun j => bytes.getD j 0) bytes.length) fd
        = (resized (k.openInodeTable i)
          (u32 (writeOffset k (k.openFileTable fd) + bytes.length))).sizeBytes := by
      unfold fileSize Kernel.inodeOf writeFile
      simp only [Function.update_self, hi]
    have hold : fileSize k fd = (k.openInodeTable i).sizeBytes := by
      unfold fileSize Kernel.inodeOf
      rw [hi]
    rw [hsize, hstart, u32_eq (by omega), sizeBytes_resized _ (by omega), hold]
  · have hmem : (writeFile ext k fd i (fun j => bytes.getD j 0) bytes.length).mem
        = blit (extendFile ext k (k.openFileTable fd))
          (u32 ((k.openFileTable fd).address + writeOffset k (k.openFileTable fd)))
          bytes.length fun j => bytes.getD j 0 := rfl
    rw [hmem, hstart, hextend]
    unfold Malloc.addressSpace at hroom
    rcases Nat.lt_or_ge ((k.openFileTable fd).address + (k.openFileTable fd).offset) 4294967296
      with hlt | hge
    · rw [u32_eq hlt]
    · -- The cursor is at the end of the address space, and nothing is written.
      have hempty : bytes.length = 0 := by omega
      rw [hempty, blit_zero, blit_zero]

/-- **`syscall_write`** with a gap, if any, that holds zeros. -/
theorem write_represents {k : Kernel} {fd : Nat} {ext : Ext} {bytes : List UInt8} {f : ByteFile}
    (h : Represents k fd f) (hin : InRange k fd (.write ext bytes))
    (hok : CursorOk k fd (.write ext bytes)) :
    (runOp k fd (.write ext bytes)).1 = (runFile f (.write ext bytes)).1 ∧
      Represents (runOp k fd (.write ext bytes)).2 fd (runFile f (.write ext bytes)).2 := by
  obtain ⟨hready, hcursor, hlength, hbytes⟩ := h
  obtain ⟨k', hrun, hentry, hsize, hmem⟩ := syscallWrite_readWrite hready hin
  rw [hrun]
  refine ⟨rfl, ?_⟩
  show Represents k' fd (f.write bytes)
  have hsizeOld := hready.size
  have hroom := hready.room
  refine ⟨⟨hready.number, ?_, ?_, ?_, ?_, ?_, ?_⟩, ?_, ?_, fun j hj => ?_⟩ <;>
    try simp only [hentry, hsize]
  · exact hready.opened
  · exact hready.inode
  · exact hready.flags
  · exact hready.room
  · exact Nat.max_le.mpr ⟨hready.size, hin.2⟩
  · exact ⟨hin.2, hin.1⟩
  · rw [← hcursor]
    rfl
  · rw [f.length_write, hlength, hcursor]
  · rw [hmem, f.byte_write, hcursor]
    split
    · next hnew =>
      rw [blit_in (by omega) (by omega), Nat.add_sub_add_left]
    · next hkept =>
      rw [blit_out (by omega)]
      by_cases hold : j < fileSize k fd
      · exact hbytes j hold
      · -- The gap: zeros in the byte array, and zeros in the buffer by the condition.
        rw [hsize] at hj
        unfold ByteFile.byte
        rw [hok j (by omega) (by omega), List.getD_eq_default _ _ (by omega)]

/-- A seek relative to `base`: the sum, or 0 when it is negative. -/
theorem seek_clamped {base pages : Nat} {delta : Int} (h : -2147483648 ≤ (base : Int) + delta ∧
    (base : Int) + delta < 2147483648 ∧ (base : Int) + delta ≤ pages) :
    ∃ v, ((if toInt32 (u32 (base + ofInt32 delta)) < 0 then (0, 0)
        else (toInt32 (u32 (base + ofInt32 delta)), u32 (base + ofInt32 delta)))
          = (max 0 ((base : Int) + delta), v) ∧ (max 0 ((base : Int) + delta)).toNat = v) ∧
      v ≤ pages ∧ v < 2147483648 := by
  obtain ⟨hlow, hhigh, hpages⟩ := h
  refine ⟨(max 0 ((base : Int) + delta)).toNat, ⟨?_, rfl⟩, by omega, by omega⟩
  rw [toInt32_add hlow hhigh]
  by_cases hneg : (base : Int) + delta < 0
  · rw [if_pos hneg, max_eq_left (Int.le_of_lt hneg)]
    rfl
  · rw [if_neg hneg, max_eq_right (Int.not_lt.mp hneg)]
    refine Prod.ext rfl ?_
    show u32 (base + ofInt32 delta) = ((base : Int) + delta).toNat
    unfold u32 ofInt32
    omega

/-- **`syscall_seek`**. -/
theorem seek_represents {k : Kernel} {fd : Nat} {delta : Int} {whence : Whence} {f : ByteFile}
    (h : Represents k fd f) (hin : InRange k fd (.seek delta whence)) :
    (runOp k fd (.seek delta whence)).1 = (runFile f (.seek delta whence)).1 ∧
      Represents (runOp k fd (.seek delta whence)).2 fd (runFile f (.seek delta whence)).2 := by
  obtain ⟨hready, hcursor, hlength, -⟩ := id h
  have hopen : (k.openFileTable fd).notOpen = false := by
    obtain ⟨i, hi⟩ := hready.inode
    unfold OpenFile.notOpen
    rw [hi, beq_eq_false_iff_ne.mpr hready.opened.1]
    rfl
  have hcall : syscallSeek k fd delta whence
      = ((seekResult (fileSize k fd) (k.openFileTable fd).offset delta whence).1,
        moveOffset k fd
          (seekResult (fileSize k fd) (k.openFileTable fd).offset delta whence).2) := by
    have hneg : ¬ (fd : Int) < 0 := by omega
    unfold syscallSeek
    simp only [if_neg hneg, Int.toNat_natCast, hopen]
    rfl
  -- The seek of the byte array, with the cursor that it leaves inside the pages.
  obtain ⟨v, r, hresult, hfile, hpages, hsmall⟩ : ∃ v r,
      seekResult (fileSize k fd) (k.openFileTable fd).offset delta whence = (r, v) ∧
      seekFile f delta whence = (r, { f with cursor := v }) ∧
      v ≤ (k.openFileTable fd).pagesAllocated * pageSize ∧ v < 2147483648 := by
    cases whence with
    | seekSet =>
      have hin : -2147483648 ≤ delta ∧ delta < 2147483648 ∧
        delta ≤ (k.openFileTable fd).pagesAllocated * pageSize := hin
      by_cases hneg : delta < 0
      · exact ⟨0, -1, if_pos hneg, if_pos hneg, Nat.zero_le _, by decide⟩
      · refine ⟨delta.toNat, delta, ?_, if_neg hneg, by omega, by omega⟩
        have hword : ofInt32 delta = delta.toNat := by
          unfold ofInt32
          omega
        unfold seekResult
        rw [if_neg hneg, hword]
    | seekCur =>
      obtain ⟨v, hclamp, hpages, hsmall⟩ := seek_clamped hin
      exact ⟨v, max 0 (((k.openFileTable fd).offset : Int) + delta), hclamp.1,
        by rw [seekFile, hcursor, hclamp.2], hpages, hsmall⟩
    | seekEnd =>
      obtain ⟨v, hclamp, hpages, hsmall⟩ := seek_clamped hin
      exact ⟨v, max 0 ((fileSize k fd : Int) + delta), hclamp.1,
        by rw [seekFile, hlength, hclamp.2], hpages, hsmall⟩
    | invalid => exact ⟨_, -1, rfl, by rw [← hcursor]; rfl, hready.offset⟩
  show (((syscallSeek k fd delta whence).1, []) : Output) = ((seekFile f delta whence).1, []) ∧
    Represents (syscallSeek k fd delta whence).2 fd (seekFile f delta whence).2
  rw [hcall, hresult, hfile]
  exact ⟨rfl, h.move hpages hsmall⟩

/-- A call adds no pages. -/
theorem runOp_pagesAllocated {k : Kernel} {fd : Nat} (h : ReadWrite k fd) {op : FileOp}
    (hin : InRange k fd op) :
    ((runOp k fd op).2.openFileTable fd).pagesAllocated = (k.openFileTable fd).pagesAllocated := by
  cases op with
  | read len =>
    unfold runOp syscallRead
    simp only [Int.toNat_natCast]
    split
    · rfl
    · split
      · rfl
      · split
        · rfl
        · simp only [Function.update_self]
  | write ext bytes =>
    obtain ⟨k', hrun, hentry, -⟩ := syscallWrite_readWrite h hin
    rw [hrun, hentry]
  | seek delta whence =>
    unfold runOp syscallSeek
    simp only [Int.toNat_natCast]
    split
    · rfl
    · split
      · rfl
      · simp only [Function.update_self]

/-! ## 4. The descriptor that `open` returns -/

theorem enterInode_update (table : Nat → Inode) (fileInode : Inode) :
    ∃ i inode, enterInode table fileInode = (i, Function.update table i inode) := by
  unfold enterInode
  simp only []
  split <;> exact ⟨_, _, rfl⟩

/-- A file opened with `O_RDWR` on a descriptor other than the standard ones, with a buffer that
fits below 4 GiB, can be read and written. -/
theorem readWrite_opened {ext : Ext} {k k' : Kernel} {filepath : CString} {flags fd : Nat}
    (hret : syscallOpen ext k filepath flags = ((fd : Int), k'))
    (hnumber : fd ≠ 1 ∧ fd ≠ 2)
    (hflags : hasFlag flags oRdwr = true ∧ hasFlag flags oWronly = false ∧
      hasFlag flags oAppend = false)
    (hnext : k.nextAvailableFileVirtualAddress ≠ 0)
    (hfree : (k.openFileTable fd).pagesAllocated = 0)
    (hroom : k.nextAvailableFileVirtualAddress + sizeInPages (fileSize k' fd) * pageSize
      ≤ Malloc.addressSpace) :
    ReadWrite k' fd ∧ (contents k' fd).cursor = 0 := by
  obtain ⟨-, fs, hopen⟩ := syscallOpen_ok hret
  obtain ⟨i, inode, henter⟩ := enterInode_update k.openInodeTable
    (inodeToOpen ext k filepath flags)
  obtain ⟨-, hinodes, hfiles, -⟩ := openInode_tables hopen henter
  have hentry : k'.openFileTable fd = openedFile { k with fs := fs } fd i inode flags := by
    rw [hfiles, Function.update_self]
  have hsize : fileSize k' fd = inode.sizeBytes := by
    unfold fileSize Kernel.inodeOf
    rw [hentry, hinodes]
    show Inode.sizeBytes (Function.update k.openInodeTable i inode i) = _
    rw [Function.update_self]
  rw [hsize] at hroom
  have hfew : sizeInPages inode.sizeBytes < 4294967296 := by
    unfold Malloc.addressSpace pageSize at hroom
    omega
  have hpages : (k'.openFileTable fd).pagesAllocated = sizeInPages inode.sizeBytes := by
    rw [hentry]
    show u32 ((k.openFileTable fd).pagesAllocated + _) = _
    rw [hfree, Nat.zero_add, u32_eq hfew]
  have hoffset : (k'.openFileTable fd).offset = 0 := by
    rw [hentry]
    show (if hasFlag flags oAppend then _ else 0) = 0
    rw [hflags.2.2]
    rfl
  have hholds : inode.sizeBytes ≤ sizeInPages inode.sizeBytes * pageSize := by
    unfold sizeInPages pageSize
    rw [Fs.bytesToBlocks_eq]
    split <;> omega
  refine ⟨⟨hnumber, ?_, ?_, ?_, ?_, ?_, ?_⟩, hoffset⟩
  · rw [hentry]
    exact ⟨Nat.one_ne_zero, hnext⟩
  · rw [hentry]
    exact ⟨i, rfl⟩
  · rw [hentry]
    exact hflags
  · rw [hpages, hentry]
    exact hroom
  · rw [hsize, hpages]
    exact hholds
  · rw [hoffset]
    exact ⟨Nat.zero_le _, by decide⟩

/-! ## 5. A sequence of calls -/

/-- One call: the result of the byte array, and what it leaves. -/
theorem runOp_represents {k : Kernel} {fd : Nat} {f : ByteFile} (h : Represents k fd f)
    {op : FileOp} (hin : InRange k fd op) (hok : CursorOk k fd op) :
    (runOp k fd op).1 = (runFile f op).1 ∧
      Represents (runOp k fd op).2 fd (runFile f op).2 := by
  cases op with
  | read len => exact read_represents h hin hok
  | write ext bytes => exact write_represents h hin hok
  | seek delta whence => exact seek_represents h hin

theorem Represents.outputs {fd : Nat} (ops : List FileOp) : ∀ {k : Kernel} {f : ByteFile},
    Represents k fd f → Along InRange k fd ops → Along CursorOk k fd ops →
    outputs k fd ops = fileOutputs f ops := by
  induction ops with
  | nil => exact fun _ _ _ => rfl
  | cons op ops ih =>
    rintro k f h ⟨hin, hins⟩ ⟨hok, hoks⟩
    obtain ⟨hresult, hnext⟩ := runOp_represents h hin hok
    show (runOp k fd op).1 :: _ = (runFile f op).1 :: _
    rw [hresult, ih hnext hins hoks]

/-- **`read`, `write` and `seek` refine a byte array with a cursor**, in every sequence of calls
that read from inside the file and leave no gap with bytes other than 0. -/
theorem outputs_eq (k : Kernel) (fd : Nat) (h : ReadWrite k fd) (ops : List FileOp)
    (hin : Along InRange k fd ops) (hok : Along CursorOk k fd ops) :
    outputs k fd ops = fileOutputs (contents k fd) ops :=
  (represents_contents h).outputs ops hin hok

/-! ## 6. Reading behind the end -/

/-- An empty file, opened for reading and writing. -/
theorem open_readWrite : ∃ k, ReadWrite k 0 ∧ fileSize k 0 = 0 ∧
    (k.openFileTable 0).offset = 0 ∧ (k.openFileTable 0).pagesAllocated = 1 := by
  obtain ⟨k, i, hret, -, hroot, hentry, -⟩ := open_emptyRoot
  have hsize : fileSize k 0 = 0 := by
    unfold fileSize Kernel.inodeOf
    rw [hentry]
    show (k.openInodeTable i).sizeBytes = 0
    rw [hroot]
    decide
  have hroom : 0x40000000 + sizeInPages (fileSize k 0) * pageSize ≤ Malloc.addressSpace := by
    rw [hsize]
    decide
  have hopened := readWrite_opened hret (by decide) (by decide) (by decide) rfl hroom
  exact ⟨k, hopened.1, hsize, hopened.2, by rw [hentry]⟩

/-- **A read behind the end returns bytes**: after a seek to 100 in an empty file, a read of 10
bytes returns -100 and not 0. -/
theorem outputs_fail : ¬ ∀ (k : Kernel) (fd : Nat), ReadWrite k fd → ∀ ops : List FileOp,
    Along InRange k fd ops → outputs k fd ops = fileOutputs (contents k fd) ops := by
  intro hall
  obtain ⟨k, hready, hsize, hoffset, hpages⟩ := open_readWrite
  have hseek : InRange k 0 (.seek 100 .seekSet) := by
    show (-2147483648 : Int) ≤ 100 ∧ (100 : Int) < 2147483648 ∧ (100 : Int) ≤ _
    rw [hpages]
    decide
  have hmoved := (seek_represents (represents_contents hready) hseek).2
  have hmovedOffset : ((runOp k 0 (.seek 100 .seekSet)).2.openFileTable 0).offset = 100 :=
    hmoved.cursor.symm
  have hmovedSize : fileSize (runOp k 0 (.seek 100 .seekSet)).2 0 = 0 := by
    rw [← hmoved.length]
    show (contents k 0).data.length = 0
    unfold contents
    rw [hsize]
    rfl
  have hread : (runOp (runOp k 0 (.seek 100 .seekSet)).2 0 (.read 10)).1.1 = -100 := by
    obtain ⟨-, hopen, -, hflags, -⟩ := hmoved.ready
    generalize (runOp k 0 (.seek 100 .seekSet)).2 = k' at *
    have hopen' : ¬ ((k'.openFileTable 0).address = 0 ∨ (k'.openFileTable 0).refCount = 0) := by
      rintro (hz | hz)
      · exact hopen.2 hz
      · exact hopen.1 hz
    have hcount : (syscallRead k' (0 : Nat) 10).1
        = toInt32 (bytesRead (fileSize k' 0) (k'.openFileTable 0).offset 10) := by
      have hneg : ¬ (((0 : Nat) : Int) < 0) := by decide
      unfold syscallRead
      simp only [if_neg hneg, Int.toNat_natCast, if_neg hopen', hflags.2.1]
      rfl
    show (syscallRead k' (0 : Nat) 10).1 = -100
    rw [hcount, hmovedOffset, hmovedSize]
    decide
  have hin : Along InRange k 0 [.seek 100 .seekSet, .read 10] := by
    refine ⟨hseek, ?_, trivial⟩
    show _ + 10 < 2147483648
    rw [hmovedOffset]
    decide
  -- The byte array is empty, and its second result is 0.
  have heq := hall k 0 hready _ hin
  have hsecond := congrArg (fun out => (out.getD 1 (0, [])).1) heq
  have hzero : ((fileOutputs (contents k 0) [.seek 100 .seekSet, .read 10]).getD 1 (0, [])).1
      = 0 := by
    show (((ByteFile.readBytes _ 10).length : Nat) : Int) = 0
    rw [ByteFile.length_read]
    show ((min 10 ((contents k 0).data.length - 100) : Nat) : Int) = 0
    unfold contents
    rw [hsize]
    rfl
  have hcode : ((outputs k 0 [.seek 100 .seekSet, .read 10]).getD 1 (0, [])).1 = -100 := hread
  exact absurd (hcode.symm.trans (hsecond.trans hzero)) (by decide)

/-- The theorem at a write of two bytes, a seek to the start and a read. -/
theorem outputs_eq_round : ∃ k, outputs k 0
    [.write quietExt [72, 105], .seek 0 .seekSet, .read 2]
      = [(2, []), (0, []), (2, [72, 105])] := by
  obtain ⟨k, hready, hsize, hoffset, hpages⟩ := open_readWrite
  have hempty : contents k 0 = ⟨[], 0⟩ := by
    unfold contents
    rw [hsize, hoffset]
    rfl
  have hwrite : InRange k 0 (.write quietExt [72, 105]) := by
    show (k.openFileTable 0).offset + 2 < 2147483648 ∧ (k.openFileTable 0).offset + 2 ≤ _
    rw [hoffset, hpages]
    decide
  have hgap : CursorOk k 0 (.write quietExt [72, 105]) := by
    intro j _ hj
    rw [hoffset] at hj
    exact absurd hj (Nat.not_lt_zero j)
  have hwritten := (write_represents (represents_contents hready) hwrite hgap).2
  have hseek : InRange (runOp k 0 (.write quietExt [72, 105])).2 0 (.seek 0 .seekSet) :=
    ⟨show (-2147483648 : Int) ≤ 0 by decide, show (0 : Int) < 2147483648 by decide,
      Int.natCast_nonneg _⟩
  have hsought := (seek_represents hwritten hseek).2
  have hstart : ((runOp (runOp k 0 (.write quietExt [72, 105])).2 0
      (.seek 0 .seekSet)).2.openFileTable 0).offset = 0 := hsought.cursor.symm
  have hin : Along InRange k 0 [.write quietExt [72, 105], .seek 0 .seekSet, .read 2] := by
    refine ⟨hwrite, hseek, ?_, trivial⟩
    show _ + 2 < 2147483648
    rw [hstart]
    decide
  have hok : Along CursorOk k 0 [.write quietExt [72, 105], .seek 0 .seekSet, .read 2] := by
    refine ⟨hgap, trivial, ?_, trivial⟩
    show _ ≤ _
    rw [hstart]
    exact Nat.zero_le _
  refine ⟨k, ?_⟩
  rw [outputs_eq k 0 hready _ hin hok, hempty]
  decide

end AmateurOs.Syscalls
