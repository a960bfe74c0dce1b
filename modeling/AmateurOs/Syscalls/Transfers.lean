/-
# Saving and loading a file

`fs_save_file` writes the blocks of a file from memory, extent by extent, and `fs_load_file` reads
them back.  Each extent is one call of `rw_sectors`, whose loop counts the sectors in a `uint8_t`:
of an extent of `n` blocks it transfers the first `n % 32`.

So a byte comes back when its block is among these, and stays what it was in memory otherwise
(`round_trip_iff`); extents of less than 32 blocks are transferred whole.
-/
import AmateurOs.Syscalls.Calls
import AmateurOs.Fs.Image

namespace AmateurOs.Syscalls

open AmateurOs.Lib
open AmateurOs.Fs (Inode State diskBlocks blockSector readSectors writeSectors)

/-! ## 1. The blocks of a file -/

/-- Block `k` of a file: the extent it lies in, and its place there. -/
def locate (inode : Inode) : List Nat → Nat → Option (Nat × Nat)
  | [], _ => none
  | i :: is, k =>
    if k < inode.extentLength i then some (i, k) else locate inode is (k - inode.extentLength i)

/-- The number of blocks of some extents. -/
def blockCount (inode : Inode) : List Nat → Nat
  | [] => 0
  | i :: is => inode.extentLength i + blockCount inode is

/-- Block `b` of the disk lies in extent `i`. -/
def InExtent (inode : Inode) (b i : Nat) : Prop :=
  inode.extentFirst i ≤ b ∧ b < inode.extentFirst i + inode.extentLength i

/-- **A file as it is stored**: its direct extents cover its blocks, lie on the disk, have no block
in common, and fit in memory at the addresses `a` and `b`. -/
structure Stored (s : State) (inode : Inode) (a b : Nat) : Prop where
  covers : ∀ k < Fs.bytesToBlocks inode.sizeBytes, ∃ i j,
    locate inode (List.range s.superblock.directExtentsPerInode) k = some (i, j)
  placed : ∀ i < s.superblock.directExtentsPerInode,
    inode.extentFirst i + inode.extentLength i ≤ diskBlocks
  disjoint : ∀ i < s.superblock.directExtentsPerInode,
    ∀ j < s.superblock.directExtentsPerInode, i ≠ j → ∀ c, InExtent inode c i → ¬ InExtent inode c j
  source : a + 4096 * blockCount inode (List.range s.superblock.directExtentsPerInode) ≤ 4294967296
  target : b + 4096 * blockCount inode (List.range s.superblock.directExtentsPerInode) ≤ 4294967296

/-- **Saving and loading**: the bytes are at `b` as they were at `a`, and the disk changes in the
extents of the file only. -/
structure RoundTrip (s : State) (mem : Bytes) (inode : Inode) (a b : Nat) : Prop where
  bytes : ∀ k < inode.sizeBytes,
    fsLoadFile (fsSaveFile s mem inode a) mem inode b (b + k) = mem (a + k)
  others : ∀ p, (∀ i < s.superblock.directExtentsPerInode, ¬ InExtent inode (p / 4096) i) →
    (fsSaveFile s mem inode a).disk p = s.disk p

/-! ## 2. One extent -/

theorem transferSize_extent (len : Nat) :
    Fs.transferSize (u32 (len * Fs.sectorsPerBlock)) = len % 32 * 4096 := by
  unfold Fs.transferSize Fs.sectorsPerBlock Fs.fsSectorSize u8 u32
  omega

/-- **An extent is read**: of its blocks the first, by their number modulo 32. -/
theorem readExtent_apply {disk mem : Bytes} {first len address q : Nat}
    (hplaced : first + len ≤ diskBlocks) :
    readSectors disk mem (u32 (len * Fs.sectorsPerBlock)) (blockSector first) address q =
      if address ≤ q ∧ q < address + len % 32 * 4096 then disk (first * 4096 + (q - address))
      else mem q := by
  unfold readSectors blit
  rw [transferSize_extent]
  split
  · next hin =>
    have hlt : first < diskBlocks := by omega
    rw [slice_apply, Fs.blockAddr hlt]
  · rfl

/-- **An extent is written**: of its blocks the first, by their number modulo 32. -/
theorem writeExtent_apply {disk mem : Bytes} {first len address p : Nat}
    (hplaced : len ≠ 0 → first + len ≤ diskBlocks) :
    writeSectors disk mem (u32 (len * Fs.sectorsPerBlock)) (blockSector first) address p =
      if first * 4096 ≤ p ∧ p < first * 4096 + len % 32 * 4096 then
        mem (address + (p - first * 4096))
      else disk p := by
  unfold writeSectors blit
  rw [transferSize_extent]
  by_cases hlen : len % 32 = 0
  · rw [hlen, if_neg (by omega), if_neg (by omega)]
  · have hend := hplaced fun hzero => hlen (by rw [hzero])
    rw [Fs.blockAddr (by omega), slice_apply]

/-- The address of an extent in memory. -/
theorem extent_address {b off len : Nat} (hlen : 0 < len)
    (hfits : b + 4096 * (off + len) ≤ 4294967296) :
    u32 (b + u32 (4096 * off)) = b + 4096 * off := by
  unfold u32
  omega

/-- `address_offset` behind an extent. -/
theorem next_offset (off len : Nat) :
    u32 (u32 (4096 * off) + u32 (len * Fs.fsBlockSize)) = u32 (4096 * (off + len)) := by
  unfold u32 Fs.fsBlockSize
  omega

/-! ## 3. Loading -/

section

variable {disk : Bytes} {inode : Inode} {b : Nat}

/-- An extent is read into its blocks of memory. -/
theorem readExtent_out {mem : Bytes} {first len off q : Nat} (hplaced : first + len ≤ diskBlocks)
    (hfits : b + 4096 * (off + len) ≤ 4294967296)
    (hout : q < b + 4096 * off ∨ b + 4096 * (off + len) ≤ q) :
    readSectors disk mem (u32 (len * Fs.sectorsPerBlock)) (blockSector first)
      (u32 (b + u32 (4096 * off))) q = mem q := by
  rw [readExtent_apply hplaced]
  rcases Nat.eq_zero_or_pos len with hzero | hpos
  · rw [hzero, if_neg (by omega)]
  · rw [extent_address hpos hfits, if_neg (by omega)]

/-- **The loop of `fs_load_file`** leaves the memory alone that is not the file's. -/
theorem loadExtents_out {q : Nat} : ∀ {is : List Nat} {remaining off : Nat} {mem : Bytes},
    (∀ i ∈ is, inode.extentFirst i + inode.extentLength i ≤ diskBlocks) →
    b + 4096 * (off + blockCount inode is) ≤ 4294967296 →
    q < b + 4096 * off ∨ b + 4096 * (off + blockCount inode is) ≤ q →
    loadExtents disk inode b is remaining (u32 (4096 * off)) mem q = mem q := by
  intro is
  induction is with
  | nil => exact fun _ _ _ => rfl
  | cons i is ih =>
    intro remaining off mem hplaced hfits hout
    unfold blockCount at hfits hout
    unfold loadExtents
    split
    · simp only
      rw [next_offset, ih (fun j hj => hplaced j (List.mem_cons_of_mem _ hj)) (by omega) (by omega),
        readExtent_out (hplaced i List.mem_cons_self) (by omega) (by omega)]
    · rfl

/-- **What it loads**: a block that is transferred, as the disk has it. -/
theorem loadExtents_at {i j r : Nat} (hr : r < 4096) :
    ∀ {is : List Nat} {k remaining off : Nat} {mem : Bytes},
    (∀ i ∈ is, inode.extentFirst i + inode.extentLength i ≤ diskBlocks) →
    b + 4096 * (off + blockCount inode is) ≤ 4294967296 →
    locate inode is k = some (i, j) → k < remaining → remaining < 4294967296 →
    loadExtents disk inode b is remaining (u32 (4096 * off)) mem (b + 4096 * (off + k) + r) =
      if j < inode.extentLength i % 32 then disk (4096 * (inode.extentFirst i + j) + r)
      else mem (b + 4096 * (off + k) + r) := by
  intro is
  induction is with
  | nil =>
    intro k _ _ _ _ _ hk
    cases hk
  | cons h is ih =>
    intro k remaining off mem hplaced hfits hk hlt hword
    have hrest : ∀ i ∈ is, inode.extentFirst i + inode.extentLength i ≤ diskBlocks :=
      fun j hj => hplaced j (List.mem_cons_of_mem _ hj)
    unfold blockCount at hfits
    unfold locate at hk
    unfold loadExtents
    rw [if_pos (by omega : remaining > 0), next_offset]
    by_cases hin : k < inode.extentLength h
    · -- the block lies in the first extent
      rw [if_pos hin] at hk
      obtain ⟨rfl, rfl⟩ := Prod.mk.inj (Option.some.inj hk)
      rw [loadExtents_out hrest (by omega) (by omega),
        readExtent_apply (hplaced h List.mem_cons_self),
        extent_address (Nat.zero_lt_of_lt hin) (by omega)]
      by_cases hmoved : k < inode.extentLength h % 32
      · rw [if_pos (by omega), if_pos hmoved]
        congr 1
        omega
      · rw [if_neg (by omega), if_neg hmoved]
    · rw [if_neg hin] at hk
      have hnext := @ih (k - inode.extentLength h) (sub32 remaining (inode.extentLength h))
        (off + inode.extentLength h) (readSectors disk mem
          (u32 (inode.extentLength h * Fs.sectorsPerBlock)) (blockSector (inode.extentFirst h))
            (u32 (b + u32 (4096 * off)))) hrest (by omega) hk
        (by rw [sub32_eq hword (by omega)]; omega) (by rw [sub32_eq hword (by omega)]; omega)
      have hplace : off + inode.extentLength h + (k - inode.extentLength h) = off + k := by omega
      rw [hplace] at hnext
      rw [hnext, readExtent_out (hplaced h List.mem_cons_self) (by omega) (by omega)]

end

/-! ## 4. Saving -/

section

variable {mem : Bytes} {inode : Inode} {a : Nat}

/-- **The loop of `fs_save_file`** leaves the disk alone outside the extents. -/
theorem saveExtents_out {p : Nat} : ∀ {is : List Nat} {remaining off : Nat} {disk : Bytes},
    (∀ i ∈ is, inode.extentLength i ≠ 0 →
      inode.extentFirst i + inode.extentLength i ≤ diskBlocks) →
    (∀ i ∈ is, ¬ InExtent inode (p / 4096) i) →
    saveExtents mem inode a is remaining off disk p = disk p := by
  intro is
  induction is with
  | nil => exact fun _ _ => rfl
  | cons i is ih =>
    intro remaining off disk hplaced hout
    unfold saveExtents
    split
    · simp only
      rw [ih (fun j hj => hplaced j (List.mem_cons_of_mem _ hj))
        (fun j hj => hout j (List.mem_cons_of_mem _ hj)),
        writeExtent_apply (hplaced i List.mem_cons_self), if_neg fun hin => ?_]
      have hnot := hout i List.mem_cons_self
      unfold InExtent at hnot
      omega
    · rfl

/-- **What it saves**: a block that is transferred, as it was in memory. -/
theorem saveExtents_at {i j r : Nat} (hr : r < 4096) (hmoved : j < inode.extentLength i % 32) :
    ∀ {is : List Nat} {k remaining off : Nat} {disk : Bytes},
    (∀ i ∈ is, inode.extentFirst i + inode.extentLength i ≤ diskBlocks) →
    is.Pairwise (fun i i' => ∀ c, InExtent inode c i → ¬ InExtent inode c i') →
    a + 4096 * (off + blockCount inode is) ≤ 4294967296 →
    locate inode is k = some (i, j) → k < remaining → remaining < 4294967296 →
    saveExtents mem inode a is remaining (u32 (4096 * off)) disk
      (4096 * (inode.extentFirst i + j) + r) = mem (a + 4096 * (off + k) + r) := by
  intro is
  induction is with
  | nil =>
    intro k _ _ _ _ _ _ hk
    cases hk
  | cons h is ih =>
    intro k remaining off disk hplaced hapart hfits hk hlt hword
    have hrest : ∀ i ∈ is, inode.extentFirst i + inode.extentLength i ≤ diskBlocks :=
      fun j hj => hplaced j (List.mem_cons_of_mem _ hj)
    obtain ⟨hhead, htail⟩ := List.pairwise_cons.mp hapart
    unfold blockCount at hfits
    unfold locate at hk
    unfold saveExtents
    rw [if_pos (by omega : remaining > 0), next_offset]
    by_cases hin : k < inode.extentLength h
    · -- later extents do not touch the block
      rw [if_pos hin] at hk
      obtain ⟨rfl, rfl⟩ := Prod.mk.inj (Option.some.inj hk)
      have hblock : (4096 * (inode.extentFirst h + k) + r) / 4096 = inode.extentFirst h + k := by
        omega
      rw [saveExtents_out (fun i hi _ => hrest i hi) fun i hi => by
          rw [hblock]
          exact hhead i hi _ ⟨Nat.le_add_right _ _, by omega⟩,
        writeExtent_apply (fun _ => hplaced h List.mem_cons_self), if_pos (by omega),
        extent_address (Nat.zero_lt_of_lt hin) (by omega)]
      congr 1
      omega
    · rw [if_neg hin] at hk
      have hnext := @ih (k - inode.extentLength h) (sub32 remaining (inode.extentLength h))
        (off + inode.extentLength h) (writeSectors disk mem
          (u32 (inode.extentLength h * Fs.sectorsPerBlock)) (blockSector (inode.extentFirst h))
            (u32 (a + u32 (4096 * off)))) hrest htail (by omega) hk
        (by rw [sub32_eq hword (by omega)]; omega) (by rw [sub32_eq hword (by omega)]; omega)
      have hplace : off + inode.extentLength h + (k - inode.extentLength h) = off + k := by omega
      rw [hplace] at hnext
      exact hnext

end

/-! ## 5. There and back -/

/-- The blocks that are not transferred hold the same bytes in memory already. -/
def LeftAlike (s : State) (mem : Bytes) (inode : Inode) (a b : Nat) : Prop :=
  ∀ k < inode.sizeBytes, ∀ i j,
    locate inode (List.range s.superblock.directExtentsPerInode) (k / 4096) = some (i, j) →
      inode.extentLength i % 32 ≤ j → mem (b + k) = mem (a + k)

/-- **Saving and loading are inverse** when what is not transferred is alike, and only then. -/
theorem round_trip_iff (s : State) (mem : Bytes) (inode : Inode) (a b : Nat)
    (h : Stored s inode a b) : RoundTrip s mem inode a b ↔ LeftAlike s mem inode a b := by
  have hplaced : ∀ i ∈ List.range s.superblock.directExtentsPerInode,
      inode.extentFirst i + inode.extentLength i ≤ diskBlocks := fun i hi =>
    h.placed i (List.mem_range.mp hi)
  have hapart : (List.range s.superblock.directExtentsPerInode).Pairwise
      fun i i' => ∀ c, InExtent inode c i → ¬ InExtent inode c i' := by
    refine List.Pairwise.imp_of_mem (fun {i j} hi hj hne => ?_) List.nodup_range
    exact h.disjoint i (List.mem_range.mp hi) j (List.mem_range.mp hj) hne
  have hword : Fs.bytesToBlocks inode.sizeBytes < 4294967296 := by
    have hsize : inode.sizeBytes < 4294967296 := Packed.get32_lt _ _
    rw [Fs.bytesToBlocks_eq]
    omega
  -- a byte of the file after both calls
  have hbyte : ∀ k < inode.sizeBytes, ∀ i j,
      locate inode (List.range s.superblock.directExtentsPerInode) (k / 4096) = some (i, j) →
      fsLoadFile (fsSaveFile s mem inode a) mem inode b (b + k) =
        if j < inode.extentLength i % 32 then mem (a + k) else mem (b + k) := by
    intro k hk i j hloc
    have hlt : k / 4096 < Fs.bytesToBlocks inode.sizeBytes := by
      rw [Fs.bytesToBlocks_eq]
      omega
    have hr : k % 4096 < 4096 := Nat.mod_lt _ (by decide)
    have hload := @loadExtents_at (fsSaveFile s mem inode a).disk inode b i j (k % 4096) hr _ _
      (Fs.bytesToBlocks inode.sizeBytes) 0 mem hplaced (by rw [Nat.zero_add]; exact h.target) hloc
      hlt hword
    rw [Nat.zero_add, Nat.mul_zero, u32_eq (by decide),
      (by omega : b + 4096 * (k / 4096) + k % 4096 = b + k)] at hload
    unfold fsLoadFile
    refine hload.trans ?_
    split
    · next hmoved =>
      have hsave := @saveExtents_at mem inode a i j (k % 4096) hr hmoved _ _
        (Fs.bytesToBlocks inode.sizeBytes) 0 s.disk hplaced hapart
        (by rw [Nat.zero_add]; exact h.source) hloc hlt hword
      rw [Nat.zero_add, Nat.mul_zero, u32_eq (by decide),
        (by omega : a + 4096 * (k / 4096) + k % 4096 = a + k)] at hsave
      exact hsave
    · rfl
  have hlocated : ∀ k < inode.sizeBytes, ∃ i j,
      locate inode (List.range s.superblock.directExtentsPerInode) (k / 4096) = some (i, j) := by
    intro k hk
    refine h.covers _ ?_
    rw [Fs.bytesToBlocks_eq]
    omega
  constructor
  · intro hround k hk i j hloc hleft
    have hsame := hround.bytes k hk
    rwa [hbyte k hk i j hloc, if_neg (Nat.not_lt.mpr hleft)] at hsame
  · intro hleft
    refine ⟨fun k hk => ?_, fun p hp => ?_⟩
    · obtain ⟨i, j, hloc⟩ := hlocated k hk
      rw [hbyte k hk i j hloc]
      split
      · rfl
      · next hnot => exact hleft k hk i j hloc (Nat.not_lt.mp hnot)
    · exact saveExtents_out (fun i hi _ => hplaced i hi) fun i hi => hp i (List.mem_range.mp hi)

/-- A file of `n` blocks in one extent. -/
def oneExtent (n : Nat) : Inode :=
  ((Fs.noInode.setSizeBytes (n * 4096)).setExtentFirst 0 6).setExtentLength 0 n

theorem oneExtent_stored {n : Nat} (hn : n ∈ [2, 32]) :
    Stored (Fs.emptyFiles 1) (oneExtent n) 0x100000 0x200000 := by
  have hextents : ∀ n ∈ [2, 32], ∀ i < 4, (oneExtent n).extentFirst i = (if i = 0 then 6 else 0) ∧
      (oneExtent n).extentLength i = if i = 0 then n else 0 := by decide +kernel
  have hcount : ∀ n ∈ [2, 32], Fs.bytesToBlocks (oneExtent n).sizeBytes = n ∧
      blockCount (oneExtent n) (List.range 4) = n ∧ n ≤ 32 := by decide +kernel
  have hextent : (Fs.emptyFiles 1).superblock.directExtentsPerInode = 4 := by decide +kernel
  have hzero : ∀ i < 4, i ≠ 0 → ∀ c, ¬ InExtent (oneExtent n) c i := by
    intro i hi hne c hc
    obtain ⟨hfirst, hlength⟩ := hextents n hn i hi
    unfold InExtent at hc
    rw [hfirst, hlength, if_neg hne, if_neg hne] at hc
    omega
  obtain ⟨hblocks, hsum, hle⟩ := hcount n hn
  refine ⟨fun k hk => ⟨0, k, ?_⟩, fun i hi => ?_, fun i hi j hj hne c hc => ?_, ?_, ?_⟩
  · rw [hblocks] at hk
    rw [hextent]
    show locate (oneExtent n) [0, 1, 2, 3] k = some (0, k)
    unfold locate
    rw [(hextents n hn 0 (by decide)).2, if_pos rfl, if_pos hk]
  · rw [hextent] at hi
    obtain ⟨hfirst, hlength⟩ := hextents n hn i hi
    rw [hfirst, hlength]
    unfold diskBlocks
    split <;> omega
  · rw [hextent] at hi hj
    by_cases hi0 : i = 0
    · exact hzero j hj (hi0 ▸ hne.symm) c
    · exact absurd hc (hzero i hi hi0 c)
  · rw [hextent, hsum]
    omega
  · rw [hextent, hsum]
    omega

/-- Ones below 2 MiB. -/
def onesBelow : Bytes := fun p => if p < 0x200000 then 1 else 0

/-- A file of two blocks of ones. -/
theorem round_trip_two : RoundTrip (Fs.emptyFiles 1) onesBelow (oneExtent 2) 0x100000 0x200000 := by
  refine (round_trip_iff (Fs.emptyFiles 1) onesBelow (oneExtent 2) 0x100000 0x200000
    (oneExtent_stored (by decide))).mpr fun k hk i j hloc hleft => ?_
  have hsize : (oneExtent 2).sizeBytes = 8192 := by decide +kernel
  have hplaces : ∀ b < 2, locate (oneExtent 2)
      (List.range (Fs.emptyFiles 1).superblock.directExtentsPerInode) b = some (0, b) ∧
        b < (oneExtent 2).extentLength 0 % 32 := by decide +kernel
  obtain ⟨hplace, hmoved⟩ := hplaces (k / 4096) (by omega)
  obtain ⟨rfl, rfl⟩ := Prod.mk.inj (Option.some.inj (hplace.symm.trans hloc))
  exact absurd hleft (Nat.not_le.mpr hmoved)

/-- **An extent of 32 blocks** is 256 sectors, a count of zero for the loop: nothing is saved and
nothing is loaded. -/
theorem round_trip_thirty_two : ¬ ∀ (s : State) (mem : Bytes) (inode : Inode) (a b : Nat),
    Stored s inode a b → RoundTrip s mem inode a b := by
  intro hall
  have hround := hall (Fs.emptyFiles 1) onesBelow (oneExtent 32) 0x100000 0x200000
    (oneExtent_stored (by decide))
  have hbyte := hround.bytes 0 (by decide +kernel)
  exact absurd hbyte (by decide +kernel)

end AmateurOs.Syscalls
