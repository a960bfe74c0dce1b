/-
# The bitmap writers and their asserts

`write_inode_bitmap_blocks` and `write_data_bitmap_blocks` of `build/make_disk.c`, with the loop over
full words, the last word, the padding, and the asserts.

The padding is written with `fwrite(null_block, n, 1, IMAGE_PTR)`, and the assert wants 1 in return.
When the words fill their blocks there is nothing to pad, `fwrite` returns 0, and the build is
aborted: for every number of bits in 32737, ..., 32768 beyond a multiple of 32768.  With more than
65535 blocks `num_inode_bitmap_blocks` is not the number of blocks any more.

The last word is computed as an `int`: `2 << 30` is taken to wrap, as it does on the machine.
-/
import AmateurOs.MakeDisk.Plan

namespace AmateurOs.MakeDisk

open AmateurOs.Lib AmateurOs.Fs

/-! ## 1. The writers -/

/-- `assert(fwrite(src, size, 1, IMAGE_PTR) == 1)`: `fwrite` returns 0 when there is nothing to
write.  An error is the end of the program, with the image as it is then. -/
def Image.assertWrite (b : Image) (src : Bytes) (size : Nat) : Except Image Image :=
  if size = 0 then .error b else .ok (b.write 0 src size)

/-- The loop over the full words, with `bytes_written`. -/
def writeFullWords : Nat → Image × Nat → Except Image (Image × Nat)
  | 0, s => .ok s
  | totalBlocks + 1, (b, bytesWritten) => do
    let b ← b.assertWrite (wordByte 0xFFFFFFFF) 4
    writeFullWords totalBlocks (b, u32 (bytesWritten + 4))

/-- The last word of `bits` bits. -/
def lastChunk (bits : Nat) : Nat := u32 ((2 <<< (bits % 32 - 1)) - 1)

/-- The last word, where it is not a full one. -/
def writeLastWord (bits : Nat) (s : Image × Nat) : Except Image (Image × Nat) :=
  if bits % 32 > 0 then do
    let b ← s.1.assertWrite (wordByte (lastChunk bits)) 4
    .ok (b, u32 (s.2 + 4))
  else .ok s

/-- What the two writers have in common. -/
def writeBits (bits : Nat) (b : Image) : Except Image Image := do
  let s ← writeFullWords (bits / 32) (b, 0)
  let s ← writeLastWord bits s
  s.1.assertWrite (fun _ => 0) (numPaddingBytes s.2 fsBlockSize)

/-- `write_inode_bitmap_blocks`. -/
def writeInodeBitmapBlocks (sb : Superblock) : Image → Except Image Image := writeBits sb.numInodes

/-- `num_data_blocks`. -/
def numDataBlocks (sb : Superblock) : Nat := sb.get16 22

/-- `write_data_bitmap_blocks`. -/
def writeDataBitmapBlocks (sb : Superblock) : Image → Except Image Image := writeBits (numDataBlocks sb)

/-! ## 2. What is written -/

/-- The words of `bits` bits. -/
def wordCount (bits : Nat) : Nat := (bits + 31) / 32

/-- **Word `w` of a bitmap** in which the first `bits` bits are set. -/
def bitmapWord (bits w : Nat) : Nat :=
  if w < bits / 32 then 0xFFFFFFFF else if w = bits / 32 then 2 ^ (bits % 32) - 1 else 0

theorem testBit_bitmapWord (bits i : Nat) :
    (bitmapWord bits (i / 32)).testBit (i % 32) = decide (i < bits) := by
  have hlt : i % 32 < 32 := Nat.mod_lt _ (by decide)
  unfold bitmapWord
  by_cases hfull : i / 32 < bits / 32
  · rw [if_pos hfull, show 0xFFFFFFFF = 2 ^ 32 - 1 from rfl, Nat.testBit_two_pow_sub_one,
      decide_eq_true hlt, decide_eq_true (by omega)]
  · rw [if_neg hfull]
    by_cases hlast : i / 32 = bits / 32
    · rw [if_pos hlast, Nat.testBit_two_pow_sub_one]
      exact decide_eq_decide.mpr (by omega)
    · rw [if_neg hlast, Nat.zero_testBit, decide_eq_false (by omega)]

theorem lastChunk_eq {bits : Nat} (h : bits % 32 > 0) :
    lastChunk bits = bitmapWord bits (bits / 32) := by
  have hshift : 2 <<< (bits % 32 - 1) = 2 ^ (bits % 32) := by
    have hexp : bits % 32 = bits % 32 - 1 + 1 := by omega
    rw [Nat.shiftLeft_eq, hexp, Nat.pow_succ', Nat.add_sub_cancel]
  have hlt : 2 ^ (bits % 32) < 2 ^ 32 := Nat.pow_lt_pow_right (by decide) (Nat.mod_lt _ (by decide))
  unfold lastChunk bitmapWord
  rw [hshift, if_neg (Nat.lt_irrefl _), if_pos rfl]
  exact u32_eq (Nat.lt_of_le_of_lt (Nat.sub_le _ _) hlt)

/-- **The words from `b` to `b'`**: the first `n` words of the bitmap, and nothing else, in no more
writes than words. -/
structure WroteWords (bits : Nat) (b b' : Image) (n : Nat) : Prop where
  pos : b'.pos = b.pos + 4 * n
  cursors : b'.nextInodeId = b.nextInodeId ∧ b'.made = b.made
  writes : ∃ ws, b'.writes = b.writes ++ ws ∧ ws.length ≤ n ∧
    ∀ w ∈ ws, w.start + w.length ≤ b.pos + 4 * n
  words : ∀ w < n, ∀ k < 4, b'.bytes (b.pos + 4 * w + k) = wordByte (bitmapWord bits w) k
  outside : ∀ p, ¬ Inside p (b.pos, 4 * n) → b'.bytes p = b.bytes p

section

variable {bits n : Nat} {b b' : Image}

theorem wroteWords_zero : WroteWords bits b b 0 :=
  ⟨rfl, ⟨rfl, rfl⟩, ⟨[], (List.append_nil _).symm, Nat.le_refl _, fun _ hw => absurd hw
    List.not_mem_nil⟩, fun _ hw => absurd hw (Nat.not_lt_zero _), fun _ _ => rfl⟩

/-- Some bytes behind the words: they are the words that follow. -/
theorem WroteWords.write (h : WroteWords bits b b' n) (owner : Nat) {m : Nat} {src : Bytes}
    (hm : 0 < m) (hsrc : ∀ w, n ≤ w → w < n + m → ∀ k < 4,
      src (4 * (w - n) + k) = wordByte (bitmapWord bits w) k) :
    WroteWords bits b (b'.write owner src (4 * m)) (n + m) := by
  have hpos := h.pos
  obtain ⟨ws, hws, hcount, hinside⟩ := h.writes
  refine ⟨?_, h.cursors, ⟨ws ++ [⟨owner, b'.pos, 4 * m⟩], ?_, ?_, fun w hw => ?_⟩,
    fun w hw k hk => ?_, fun p hp => ?_⟩
  · show b'.pos + 4 * m = _
    omega
  · rw [← List.append_assoc, ← hws]
    rfl
  · rw [List.length_append, List.length_singleton]
    omega
  · rcases List.mem_append.mp hw with hw | hw
    · have := hinside w hw
      omega
    · rw [List.mem_singleton.mp hw]
      show b'.pos + 4 * m ≤ _
      omega
  · show blit b'.bytes b'.pos (4 * m) src _ = _
    rcases Nat.lt_or_ge w n with hlt | hge
    · rw [blit_out (by omega)]
      exact h.words w hlt k hk
    · have hplace : b.pos + 4 * w + k = b'.pos + (4 * (w - n) + k) := by omega
      rw [hplace, blit_add (by omega)]
      exact hsrc w hge hw k hk
  · unfold Inside at hp
    simp only at hp
    show blit b'.bytes b'.pos (4 * m) src p = _
    rw [blit_out (by omega)]
    exact h.outside p (by unfold Inside; simp only; omega)

/-- The loop over the full words. -/
theorem writeFullWords_wrote : ∀ (total : Nat) {b' : Image} {n written : Nat},
    WroteWords bits b b' n → n + total = bits / 32 → written = 4 * n → bits < 4294967296 →
    ∃ b'', writeFullWords total (b', written) = .ok (b'', 4 * (bits / 32)) ∧
      WroteWords bits b b'' (bits / 32)
  | 0, b', n, written, h, htotal, hwritten, _ => by
    obtain rfl : n = bits / 32 := htotal
    exact ⟨b', by rw [hwritten]; rfl, h⟩
  | total + 1, b', n, written, h, htotal, hwritten, hbits => by
    have hword : bitmapWord bits n = 0xFFFFFFFF := if_pos (by omega)
    have hnext := h.write 0 Nat.one_pos fun w hge hlt k hk => by
      obtain rfl : w = n := by omega
      rw [hword, Nat.sub_self, Nat.mul_zero, Nat.zero_add]
    obtain ⟨b'', hrun, hwrote⟩ := writeFullWords_wrote total hnext (by omega)
      (show u32 (written + 4) = 4 * (n + 1) by rw [u32_eq (by omega)]; omega) hbits
    exact ⟨b'', hrun, hwrote⟩

/-- **The words of the bitmap**, before the padding. -/
theorem writeBits_words (hbits : bits < 4294967296) (b : Image) :
    ∃ b', WroteWords bits b b' (wordCount bits) ∧ writeBits bits b =
      b'.assertWrite (fun _ => 0) (numPaddingBytes (4 * wordCount bits) fsBlockSize) := by
  obtain ⟨b₁, hrun, hfull⟩ := writeFullWords_wrote (bits / 32) (@wroteWords_zero bits b)
    (Nat.zero_add _) rfl hbits
  unfold writeBits writeLastWord wordCount
  rw [hrun]
  by_cases hlast : bits % 32 > 0
  · have hcount : (bits + 31) / 32 = bits / 32 + 1 := by omega
    have hnext := hfull.write 0 Nat.one_pos fun w hge hlt k hk => by
      obtain rfl : w = bits / 32 := by omega
      rw [← lastChunk_eq hlast, Nat.sub_self, Nat.mul_zero, Nat.zero_add]
    have hwritten : u32 (4 * (bits / 32) + 4) = 4 * (bits / 32 + 1) := by
      rw [u32_eq (by omega)]
      rfl
    refine ⟨_, hcount ▸ hnext, ?_⟩
    simp only [if_pos hlast]
    rw [hcount, ← hwritten]
    rfl
  · have hcount : (bits + 31) / 32 = bits / 32 := by omega
    refine ⟨b₁, hcount ▸ hfull, ?_⟩
    simp only [if_neg hlast]
    rw [hcount]
    rfl

/-- **Room for padding**: the words do not fill their blocks. -/
def Padded (bits : Nat) : Prop := 1 ≤ bits % bitsPerBlock ∧ bits % bitsPerBlock ≤ 32736

instance (bits : Nat) : Decidable (Padded bits) := instDecidableAnd

theorem padding_zero_iff (bits : Nat) :
    numPaddingBytes (4 * wordCount bits) fsBlockSize = 0 ↔ ¬ Padded bits := by
  unfold numPaddingBytes wordCount Padded bitsPerBlock fsBlockSize
  split <;> omega

/-- The padding fills the last block. -/
theorem padding_eq (h : Padded bits) :
    numPaddingBytes (4 * wordCount bits) fsBlockSize =
        4 * (1024 * bitmapBlocks bits - wordCount bits) ∧
      wordCount bits + (1024 * bitmapBlocks bits - wordCount bits) = 1024 * bitmapBlocks bits := by
  unfold Padded bitsPerBlock at h
  unfold numPaddingBytes bitmapBlocks bitsPerBlock wordCount fsBlockSize
  rw [if_neg (by omega), if_pos (by omega)]
  omega

/-- **The writers complete** exactly where there is room for padding. -/
theorem writeBits_error (hbits : bits < 4294967296) (h : ¬ Padded bits) (b : Image) :
    ∃ b', WroteWords bits b b' (wordCount bits) ∧ writeBits bits b = .error b' := by
  obtain ⟨b', hwords, hrun⟩ := writeBits_words hbits b
  refine ⟨b', hwords, ?_⟩
  rw [hrun, (padding_zero_iff bits).mpr h]
  rfl

theorem writeBits_ok (hbits : bits < 4294967296) (h : Padded bits) (b : Image) :
    ∃ b', writeBits bits b = .ok b' ∧ WroteWords bits b b' (1024 * bitmapBlocks bits) := by
  obtain ⟨b', hwords, hrun⟩ := writeBits_words hbits b
  obtain ⟨hpad, htotal⟩ := padding_eq h
  have hsome : numPaddingBytes (4 * wordCount bits) fsBlockSize ≠ 0 := fun hzero =>
    (padding_zero_iff bits).mp hzero h
  have hmore : 0 < 1024 * bitmapBlocks bits - wordCount bits := by omega
  have hnext : WroteWords bits b
      (b'.write 0 (fun _ => 0) (4 * (1024 * bitmapBlocks bits - wordCount bits)))
      (wordCount bits + (1024 * bitmapBlocks bits - wordCount bits)) :=
    hwords.write 0 hmore fun w hge _ k _ => by
      have hnone : bitmapWord bits w = 0 := by
        unfold wordCount at hge
        unfold bitmapWord
        by_cases hlast : w = bits / 32
        · have hzero : bits % 32 = 0 := by omega
          rw [if_neg (by omega), if_pos hlast, hzero]
          rfl
        · rw [if_neg (by omega), if_neg hlast]
      rw [hnone]
      unfold wordByte
      rw [Nat.zero_div]
      rfl
  rw [htotal] at hnext
  refine ⟨_, ?_, hnext⟩
  rw [hrun, hpad]
  unfold Image.assertWrite
  rw [← hpad, if_neg hsome]

end

/-! ## 3. Exact bitmaps -/

/-- **A writer emits a bitmap**: it completes, writes `blocks` blocks, sets the first `bits` bits of
them and clears the others. -/
def Emits (write : Image → Except Image Image) (bits blocks : Nat) : Prop :=
  ∀ b : Image, ∃ b', write b = .ok b' ∧ b'.pos = b.pos + blocks * fsBlockSize ∧
    (∀ i < blocks * bitsPerBlock, bitAt (slice b'.bytes b.pos) i = decide (i < bits)) ∧
    ∀ p, ¬ Inside p (b.pos, blocks * fsBlockSize) → b'.bytes p = b.bytes p

section

variable {bits blocks : Nat}

theorem WroteWords.emits {b b' : Image} (h : WroteWords bits b b' (1024 * blocks)) :
    b'.pos = b.pos + blocks * fsBlockSize ∧
      (∀ i < blocks * bitsPerBlock, bitAt (slice b'.bytes b.pos) i = decide (i < bits)) ∧
      ∀ p, ¬ Inside p (b.pos, blocks * fsBlockSize) → b'.bytes p = b.bytes p := by
  have hpos := h.pos
  have hsize : 4 * (1024 * blocks) = blocks * fsBlockSize := by
    unfold fsBlockSize
    omega
  rw [hsize] at hpos
  have houtside := h.outside
  rw [hsize] at houtside
  refine ⟨hpos, fun i hi => ?_, houtside⟩
  have hw : i / 32 < 1024 * blocks := by
    unfold bitsPerBlock at hi
    omega
  have hword : le32 (slice b'.bytes b.pos) (4 * (i / 32)) =
      le32 (wordByte (bitmapWord bits (i / 32))) 0 := le32_congr fun k hk => by
    rw [slice_apply, Nat.zero_add, ← Nat.add_assoc]
    exact h.words _ hw k hk
  have hsmall : bitmapWord bits (i / 32) < 4294967296 := by
    have hpow : 2 ^ (bits % 32) < 2 ^ 32 :=
      Nat.pow_lt_pow_right (by decide) (Nat.mod_lt _ (by decide))
    unfold bitmapWord
    split
    · decide
    · split
      · exact Nat.lt_of_le_of_lt (Nat.sub_le _ _) hpow
      · decide
  rw [← testBit_le32, hword, le32_wordByte, u32_eq hsmall, testBit_bitmapWord]

/-- **When a bitmap is emitted**: where there is room for padding, in as many blocks as it needs. -/
theorem emits_iff (hbits : bits < 4294967296) :
    Emits (writeBits bits) bits blocks ↔ Padded bits ∧ blocks = bitmapBlocks bits := by
  constructor
  · intro h
    obtain ⟨b', hrun, hpos, _⟩ := h ⟨fun _ => 0, 0, 0, 0, [], []⟩
    by_cases hpad : Padded bits
    · obtain ⟨b'', hrun', hwords⟩ := writeBits_ok hbits hpad ⟨fun _ => 0, 0, 0, 0, [], []⟩
      obtain rfl := Except.ok.inj (hrun.symm.trans hrun')
      have hpos' := hwords.pos
      refine ⟨hpad, ?_⟩
      unfold fsBlockSize at hpos
      omega
    · obtain ⟨b'', _, hrun'⟩ := writeBits_error hbits hpad ⟨fun _ => 0, 0, 0, 0, [], []⟩
      cases hrun.symm.trans hrun'
  · rintro ⟨hpad, rfl⟩ b
    obtain ⟨b', hrun, hwords⟩ := writeBits_ok hbits hpad b
    exact ⟨b', hrun, hwords.emits⟩

end

/-- **The inode bitmap is exact**: at least as many blocks as it needs, and `num_inode_bitmap_blocks`
of them. -/
def InodeBitmapExact (sb : Superblock) : Prop :=
  ∃ blocks, bitmapBlocks sb.numInodes ≤ blocks ∧ blocks = sb.numInodeBitmapBlocks ∧
    Emits (writeInodeBitmapBlocks sb) sb.numInodes blocks

/-- **The data bitmap is exact.** -/
def DataBitmapExact (sb : Superblock) : Prop :=
  ∃ blocks, bitmapBlocks (numDataBlocks sb) ≤ blocks ∧
    Emits (writeDataBitmapBlocks sb) (numDataBlocks sb) blocks

/-- The fields of the superblock that the writers read. -/
theorem writeSuperblock_bitmaps (numFiles fileBlocks : Nat) :
    (writeSuperblock numFiles fileBlocks).numInodes = builtInodes numFiles ∧
      (writeSuperblock numFiles fileBlocks).numInodeBitmapBlocks =
        u16 (bitmapBlocks (builtInodes numFiles)) := by
  unfold writeSuperblock Superblock.numInodes Superblock.numInodeBitmapBlocks
  simp (disch := decide) only [Packed.get16_set16, Packed.get16_set8_ne, Packed.get16_set16_ne,
    Packed.get16_set32_ne, Packed.get32_set32, Packed.get32_set8_ne, Packed.get32_set16_ne,
    Packed.get32_set32_ne]
  exact ⟨u32_eq (u32_lt _), Nat.mod_mod _ _⟩

theorem inodeBitmapExact_iff (numFiles fileBlocks : Nat) :
    InodeBitmapExact (writeSuperblock numFiles fileBlocks) ↔
      Padded (builtInodes numFiles) ∧ bitmapBlocks (builtInodes numFiles) < 65536 := by
  obtain ⟨hinodes, hblocks⟩ := writeSuperblock_bitmaps numFiles fileBlocks
  have hlt : builtInodes numFiles < 4294967296 := u32_lt _
  unfold InodeBitmapExact writeInodeBitmapBlocks
  rw [hinodes, hblocks]
  constructor
  · rintro ⟨blocks, _, heq, hemits⟩
    obtain ⟨hpad, hneed⟩ := (emits_iff hlt).mp hemits
    refine ⟨hpad, ?_⟩
    rw [← hneed, heq]
    exact Nat.mod_lt _ (by decide)
  · rintro ⟨hpad, hsmall⟩
    exact ⟨_, Nat.le_refl _, (Nat.mod_eq_of_lt hsmall).symm, (emits_iff hlt).mpr ⟨hpad, rfl⟩⟩

theorem dataBitmapExact_iff (sb : Superblock) :
    DataBitmapExact sb ↔ Padded (numDataBlocks sb) := by
  have hlt : numDataBlocks sb < 4294967296 := Nat.lt_trans (Packed.get16_lt _ _) (by decide)
  constructor
  · rintro ⟨blocks, _, hemits⟩
    exact ((emits_iff hlt).mp hemits).1
  · exact fun hpad => ⟨_, Nat.le_refl _, (emits_iff hlt).mpr ⟨hpad, rfl⟩⟩

/-- **The bitmap writers emit exactly the reserved bits** where the bits leave room for padding in
their last block and the inode bitmap has fewer than 65536 blocks; otherwise they do not. -/
theorem bitmaps_exact_iff (numFiles fileBlocks : Nat) :
    (InodeBitmapExact (writeSuperblock numFiles fileBlocks) ↔
        Padded (builtInodes numFiles) ∧ bitmapBlocks (builtInodes numFiles) < 65536) ∧
      (DataBitmapExact (writeSuperblock numFiles fileBlocks) ↔
        Padded (numDataBlocks (writeSuperblock numFiles fileBlocks))) :=
  ⟨inodeBitmapExact_iff numFiles fileBlocks, dataBitmapExact_iff _⟩

/-- **32766 files**: their 32768 inodes fill the bitmap's block, and the build is aborted. -/
theorem bitmaps_abort : ¬ ∀ numFiles fileBlocks : Nat,
    1 ≤ (writeSuperblock numFiles fileBlocks).numInodes →
      1 ≤ numDataBlocks (writeSuperblock numFiles fileBlocks) →
      InodeBitmapExact (writeSuperblock numFiles fileBlocks) ∧
        DataBitmapExact (writeSuperblock numFiles fileBlocks) := by
  intro h
  obtain ⟨hinodes, _⟩ := writeSuperblock_bitmaps 32766 600
  have hnumber : builtInodes 32766 = 32768 := by decide
  have hdata : 1 ≤ numDataBlocks (writeSuperblock 32766 600) := by decide +kernel
  have hpad := ((inodeBitmapExact_iff 32766 600).mp (h 32766 600 (by omega) hdata).1).1
  rw [hnumber] at hpad
  exact absurd hpad (by decide)

end AmateurOs.MakeDisk
