/-
# Reading a file to its end

`cmd_type` and `cmd_chgfont` read a file in pieces of 512 bytes, until `read` returns no more.  The
loop has no bound of its own: it ends because `syscall_read` moves the offset by what it returns, and
returns 0 at the end of the file and nowhere before it (`syscallRead_readable`).

So the pieces are those of the file from the offset on, each of the length asked for but the last
(`read_to_end`).
-/
import AmateurOs.Syscalls.Cursor

namespace AmateurOs.Syscalls

open AmateurOs.Lib

/-! ## 1. Descriptors that can be read -/

/-- An open descriptor, not only for writing, with the file in a buffer below 4 GiB and the offset
inside the file. -/
structure Readable (k : Kernel) (fd : Nat) : Prop where
  opened : (k.openFileTable fd).refCount ≠ 0 ∧ (k.openFileTable fd).address ≠ 0
  flags : hasFlag (k.openFileTable fd).flags oWronly = false
  room : (k.openFileTable fd).address + fileSize k fd ≤ Malloc.addressSpace
  size : fileSize k fd < 2147483648
  offset : (k.openFileTable fd).offset ≤ fileSize k fd

/-- The bytes of the file from `first` to before `last`, as they were loaded. -/
def loadedBytes (k : Kernel) (fd first last : Nat) : List UInt8 :=
  (List.range' first (last - first)).map fun j => k.mem ((k.openFileTable fd).address + j)

/-- The number of bytes of the next piece. -/
def nextLength (k : Kernel) (fd n : Nat) : Nat :=
  min n (fileSize k fd - (k.openFileTable fd).offset)

section

variable {k : Kernel} {fd : Nat}

@[simp] theorem length_loadedBytes (first last : Nat) :
    (loadedBytes k fd first last).length = last - first := by
  unfold loadedBytes
  rw [List.length_map, List.length_range']

theorem loadedBytes_append {first middle last : Nat} (hfirst : first ≤ middle)
    (hlast : middle ≤ last) : loadedBytes k fd first middle ++ loadedBytes k fd middle last =
      loadedBytes k fd first last := by
  unfold loadedBytes
  have hjoin := @List.range'_append_1 first (middle - first) (last - middle)
  rw [Nat.add_sub_cancel' hfirst, (by omega : middle - first + (last - middle) = last - first)]
    at hjoin
  rw [← List.map_append, hjoin]

/-- Moving the offset moves nothing else. -/
theorem fileSize_moveOffset (v : Nat) : fileSize (moveOffset k fd v) fd = fileSize k fd := by
  unfold fileSize Kernel.inodeOf moveOffset
  simp only [Function.update_self]

theorem loadedBytes_moveOffset (v first last : Nat) :
    loadedBytes (moveOffset k fd v) fd first last = loadedBytes k fd first last := by
  unfold loadedBytes moveOffset
  simp only [Function.update_self]

theorem moveOffset_moveOffset (v w : Nat) :
    moveOffset (moveOffset k fd v) fd w = moveOffset k fd w := by
  unfold moveOffset
  simp only [Function.update_self, Function.update_idem]

theorem offset_moveOffset (v : Nat) : ((moveOffset k fd v).openFileTable fd).offset = v := by
  unfold moveOffset
  simp only [Function.update_self]

theorem Readable.move (h : Readable k fd) {v : Nat} (hv : v ≤ fileSize k fd) :
    Readable (moveOffset k fd v) fd := by
  have hsize := @fileSize_moveOffset k fd v
  have hentry : (moveOffset k fd v).openFileTable fd =
      { k.openFileTable fd with offset := v } := Function.update_self ..
  refine ⟨?_, ?_, ?_, ?_, ?_⟩
  · rw [hentry]
    exact h.opened
  · rw [hentry]
    exact h.flags
  · rw [hsize, hentry]
    exact h.room
  · rw [hsize]
    exact h.size
  · rw [hsize, hentry]
    exact hv

/-- **`syscall_read` inside the file**: the next bytes, as many as asked for or as are left. -/
theorem syscallRead_readable (h : Readable k fd) {n : Nat} (hn : n < 2147483648) :
    syscallRead k fd n = ((nextLength k fd n : Int),
      loadedBytes k fd (k.openFileTable fd).offset
        ((k.openFileTable fd).offset + nextLength k fd n),
      moveOffset k fd ((k.openFileTable fd).offset + nextLength k fd n)) := by
  have hsize := h.size
  have hoffset := h.offset
  have hroom := h.room
  have hcount : bytesRead (fileSize k fd) (k.openFileTable fd).offset n = nextLength k fd n := by
    unfold bytesRead nextLength
    rw [u32_eq (by omega)]
    split
    · rw [sub32_eq (by omega) hoffset]
      omega
    · omega
  have hinside : (k.openFileTable fd).offset + nextLength k fd n ≤ fileSize k fd := by
    unfold nextLength
    omega
  have hneg : ¬ (fd : Int) < 0 := by omega
  have hopen : ¬ ((k.openFileTable fd).address = 0 ∨ (k.openFileTable fd).refCount = 0) :=
    not_or.mpr ⟨h.opened.2, h.opened.1⟩
  have hread : syscallRead k fd n = (toInt32 (nextLength k fd n),
      (List.range (nextLength k fd n)).map fun j =>
        k.mem (u32 ((k.openFileTable fd).address + (k.openFileTable fd).offset) + j),
      moveOffset k fd (u32 ((k.openFileTable fd).offset + nextLength k fd n))) := by
    unfold syscallRead
    simp only [if_neg hneg, Int.toNat_natCast, if_neg hopen, h.flags]
    rw [← hcount]
    rfl
  have hbytes : (List.range (nextLength k fd n)).map (fun j =>
      k.mem (u32 ((k.openFileTable fd).address + (k.openFileTable fd).offset) + j)) =
        loadedBytes k fd (k.openFileTable fd).offset
          ((k.openFileTable fd).offset + nextLength k fd n) := by
    unfold loadedBytes
    rw [Nat.add_sub_cancel_left, List.range'_eq_map_range, List.map_map]
    refine List.map_congr_left fun j hj => ?_
    have hj := List.mem_range.mp hj
    unfold Malloc.addressSpace at hroom
    rw [u32_eq (by omega), Nat.add_assoc]
    rfl
  rw [hread, hbytes, toInt32_eq (by omega), u32_eq (by omega)]

end

/-! ## 2. The loop -/

/-- `while ((len = read(fd, buf, n)) > 0)`: the pieces that are read, and the kernel at its end.
`none` when `fuel` turns are not enough. -/
def readLoop (fd n : Nat) : Nat → Kernel → Option (List (List UInt8) × Kernel)
  | 0, _ => none
  | fuel + 1, k =>
    let (len, bytes, k) := syscallRead k fd n
    if len > 0 then (readLoop fd n fuel k).map fun (pieces, k) => (bytes :: pieces, k)
    else some ([], k)

/-- The pieces of a file. -/
structure Pieces (n : Nat) (file : List UInt8) (pieces : List (List UInt8)) : Prop where
  count : pieces.length = (file.length + n - 1) / n
  nonempty : ∀ piece ∈ pieces, piece ≠ []
  full : ∀ i (hi : i + 1 < pieces.length), pieces[i].length = n
  bytes : pieces.flatten = file

theorem Pieces.nil {n : Nat} (hn : 1 ≤ n) : Pieces n [] [] := by
  refine ⟨?_, fun _ h => absurd h List.not_mem_nil, fun i hi => absurd hi (Nat.not_lt_zero _), rfl⟩
  rw [List.length_nil, List.length_nil, Nat.zero_add]
  exact (Nat.div_eq_of_lt (by omega)).symm

/-- One more piece in front: it is the last one, or as long as asked for. -/
theorem Pieces.cons {n : Nat} {piece file : List UInt8} {pieces : List (List UInt8)}
    (h : Pieces n file pieces) (hne : piece ≠ []) (hle : piece.length ≤ n)
    (hfull : file ≠ [] → piece.length = n) : Pieces n (piece ++ file) (piece :: pieces) := by
  have hpos := List.length_pos_of_ne_nil hne
  have hn : 0 < n := by omega
  refine ⟨?_, fun p hp => ?_, fun i hi => ?_, ?_⟩
  · rw [List.length_cons, h.count, List.length_append]
    by_cases hfile : file = []
    · have hone : piece.length + 0 + n - 1 = piece.length - 1 + n := by omega
      rw [hfile, List.length_nil, Nat.zero_add, hone, Nat.add_div_right _ hn,
        Nat.div_eq_of_lt (by omega), Nat.div_eq_of_lt (by omega)]
    · have hsum : piece.length + file.length + n - 1 = file.length + n - 1 + n := by
        rw [hfull hfile]
        omega
      rw [hsum, Nat.add_div_right _ hn]
  · rcases List.mem_cons.mp hp with rfl | hp
    · exact hne
    · exact h.nonempty p hp
  · rcases i with - | i
    · refine hfull fun hnil => ?_
      have hcount := h.count
      rw [hnil, List.length_nil, Nat.zero_add, Nat.div_eq_of_lt (by omega)] at hcount
      rw [List.length_cons, hcount] at hi
      omega
    · exact h.full i (Nat.lt_of_succ_lt_succ hi)
  · rw [List.flatten_cons, h.bytes]

/-- The loop from any offset, by induction on the turns. -/
theorem readLoop_pieces {fd n : Nat} (hn : 1 ≤ n) (hn' : n < 2147483648) :
    ∀ (fuel : Nat) {k : Kernel}, Readable k fd →
      (fileSize k fd - (k.openFileTable fd).offset + n - 1) / n < fuel →
      ∃ pieces, readLoop fd n fuel k = some (pieces, moveOffset k fd (fileSize k fd)) ∧
        Pieces n (loadedBytes k fd (k.openFileTable fd).offset (fileSize k fd)) pieces := by
  intro fuel
  induction fuel with
  | zero => exact fun _ hlt => absurd hlt (Nat.not_lt_zero _)
  | succ fuel ih =>
    intro k h hlt
    have hread := syscallRead_readable h hn'
    have hoffset := h.offset
    have hnext : nextLength k fd n = min n (fileSize k fd - (k.openFileTable fd).offset) := rfl
    generalize nextLength k fd n = len at hread hnext
    generalize hstart : (k.openFileTable fd).offset = start at *
    unfold readLoop
    simp only [hread]
    rcases Nat.eq_zero_or_pos len with hzero | hpos
    · -- the end of the file
      have hend : start = fileSize k fd := by omega
      rw [hzero, if_neg (by omega), Nat.add_zero, hend]
      refine ⟨[], rfl, ?_⟩
      have hempty : loadedBytes k fd (fileSize k fd) (fileSize k fd) = [] :=
        List.length_eq_zero_iff.mp (by rw [length_loadedBytes, Nat.sub_self])
      rw [hempty]
      exact Pieces.nil hn
    · have hinside : start + len ≤ fileSize k fd := by omega
      have hfewer : (fileSize k fd - (start + len) + n - 1) / n < fuel := by
        rcases Nat.lt_or_ge len n with hless | hge
        · have hlast : fileSize k fd - (start + len) = 0 := by omega
          have hone : fileSize k fd - start + n - 1 = len - 1 + n := by omega
          rw [hone, Nat.add_div_right _ hn] at hlt
          rw [hlast, Nat.zero_add, Nat.div_eq_of_lt (by omega)]
          exact Nat.lt_of_le_of_lt (Nat.zero_le _) (Nat.lt_of_succ_lt_succ hlt)
        · have hstep : fileSize k fd - start + n - 1 = fileSize k fd - (start + len) + n - 1 + n := by
            omega
          rw [hstep, Nat.add_div_right _ hn] at hlt
          omega
      obtain ⟨pieces, hloop, hpieces⟩ := ih (h.move hinside) (by
        rw [fileSize_moveOffset, offset_moveOffset]
        exact hfewer)
      rw [fileSize_moveOffset, moveOffset_moveOffset] at hloop
      rw [fileSize_moveOffset, loadedBytes_moveOffset, offset_moveOffset] at hpieces
      rw [if_pos (by omega), hloop]
      refine ⟨_, rfl, ?_⟩
      rw [← loadedBytes_append (Nat.le_add_right start len) hinside]
      refine hpieces.cons ?_ ?_ fun hmore => ?_
      · refine List.ne_nil_of_length_pos ?_
        rw [length_loadedBytes]
        omega
      · rw [length_loadedBytes]
        omega
      · have hlength := List.length_pos_of_ne_nil hmore
        rw [length_loadedBytes] at hlength ⊢
        omega

/-- **Reading to the end of a file** takes as many reads as the file has pieces and one more, and
yields the file. -/
theorem read_to_end (k : Kernel) (fd n : Nat) (h : Readable k fd) (hn : 1 ≤ n)
    (hn' : n < 2147483648) (fuel : Nat)
    (hfuel : (fileSize k fd - (k.openFileTable fd).offset + n - 1) / n < fuel) :
    ∃ pieces, readLoop fd n fuel k = some (pieces, moveOffset k fd (fileSize k fd)) ∧
      Pieces n (loadedBytes k fd (k.openFileTable fd).offset (fileSize k fd)) pieces :=
  readLoop_pieces hn hn' fuel h hfuel

/-- A file of five bytes on descriptor 3. -/
def fiveBytes : Kernel :=
  { freshKernel Fs.noInode with
    mem := fun p => UInt8.ofNat (p % 251)
    openFileTable := Function.update (fun _ => OpenFile.zero) 3 ⟨0x40000000, 0, some 0, 1, 0, 1⟩
    openInodeTable := fun _ => Fs.noInode.setSizeBytes 5 }

/-- It takes three reads of at most two bytes. -/
theorem read_to_end_five : ∃ pieces, readLoop 3 2 4 fiveBytes =
      some (pieces, moveOffset fiveBytes 3 5) ∧ pieces.length = 3 ∧
        pieces.flatten = loadedBytes fiveBytes 3 0 5 := by
  have hsize : fileSize fiveBytes 3 = 5 := by decide +kernel
  have hreadable : Readable fiveBytes 3 :=
    ⟨by decide, by decide, by rw [hsize]; decide, by rw [hsize]; decide, by rw [hsize]; decide⟩
  obtain ⟨pieces, hloop, hpieces⟩ := read_to_end fiveBytes 3 2 hreadable (by decide) (by decide) 4
    (by rw [hsize]; decide)
  rw [hsize] at hloop hpieces
  have hstart : (fiveBytes.openFileTable 3).offset = 0 := rfl
  rw [hstart] at hpieces
  exact ⟨pieces, hloop, by rw [hpieces.count, length_loadedBytes], hpieces.bytes⟩

end AmateurOs.Syscalls
