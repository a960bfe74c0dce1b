/-
# Free bits

A bitmap is a number of blocks of 32768 bits each.  `set_bit_in_inode_bitmap` and
`set_bit_in_data_bitmap` split the number of a bit into a block and a bit of that block
(`bitPlace`); `find_first_free_bit_in_disk_blocks` has to put the two together again.

* It returns the number of the bit in its block, and 0 when there is no clear bit.  So the number
  returned is right when the first block has a clear bit, and only then (`finds_free_iff`).
* For a bitmap of one block, taking the bit of the hint, looking for the next one and clearing live
  bits keep the hint at a clear bit in every order (`hint_stays_clear`).
-/
import AmateurOs.Fs.Effects
import AmateurOs.Lib.Hinted
import AmateurOs.Lib.Run
import Mathlib.Data.Set.Function

namespace AmateurOs.Fs

open AmateurOs.Lib

/-! ## 1. Where a bit lies -/

/-- `set_bit_in_inode_bitmap`. -/
def setBitInInodeBitmap (disk : Bytes) (sb : Superblock) (bit : Nat) : Bytes :=
  setBitInDiskBlock disk (u32 (sb.firstInodeBitmapBlock + bit / bitsPerBlock)) (bit % bitsPerBlock)

/-- `set_bit_in_data_bitmap`. -/
def setBitInDataBitmap (disk : Bytes) (sb : Superblock) (bit : Nat) : Bytes :=
  setBitInDiskBlock disk (u32 (sb.firstDataBitmapBlock + bit / bitsPerBlock)) (bit % bitsPerBlock)

/-- The place of bit `i` of the blocks from `start` on, in the bit string of the disk. -/
def bitPlace (start i : Nat) : Nat :=
  u32 (start + i / bitsPerBlock) % diskBlocks * bitsPerBlock + i % bitsPerBlock

/-- The disk has 28-bit sector numbers: a block is found by its number modulo `diskBlocks`. -/
theorem blockAddr_mod (block : Nat) :
    sectorAddr (blockSector block) = sectorAddr (blockSector (block % diskBlocks)) := by
  unfold sectorAddr blockSector sectorsPerBlock fsSectorSize diskBlocks u32
  omega

theorem readBlock_mod (disk after : Bytes) (block : Nat) :
    readBlock disk after block = readBlock disk after (block % diskBlocks) := by
  unfold readBlock readSectors
  rw [blockAddr_mod]

theorem mod_diskBlocks (block : Nat) : block % diskBlocks < diskBlocks :=
  Nat.mod_lt _ (by decide)

/-- **Setting bit `i` of a bitmap** sets the bit at its place, and no other. -/
theorem bitAt_setBitInBlocks (disk : Bytes) (start i p : Nat) :
    bitAt (setBitInDiskBlock disk (u32 (start + i / bitsPerBlock)) (i % bitsPerBlock)) p =
      (bitAt disk p || decide (p = bitPlace start i)) := by
  have hmod : ∀ block bit, setBitInDiskBlock disk block bit =
      setBitInDiskBlock disk (block % diskBlocks) bit := by
    intro block bit
    unfold setBitInDiskBlock
    simp only [readBlock_mod _ _ block, writeBlock_mod _ _ block]
  have htwice : i % bitsPerBlock % 32768 = i % bitsPerBlock := Nat.mod_mod _ _
  rw [hmod, bitAt_setBitInDiskBlock (mod_diskBlocks _), htwice]
  rfl

/-! ## 2. The search -/

/-- The search of one block, in the bits of the disk. -/
theorem firstFreeInBlock_place (disk : Bytes) (start i : Nat) :
    FirstClear (fun k => bitAt disk (bitPlace start (i * bitsPerBlock + k))) bitsPerBlock
      (firstFreeInBlock (readBlock disk (fun _ => 0) (u32 (start + i)))) := by
  refine (firstFreeInBlock_spec _).congr fun k hk => ?_
  have hk : k < bitsPerBlock := hk
  have hblock : (i * bitsPerBlock + k) / bitsPerBlock = i := by
    unfold bitsPerBlock at *
    omega
  have hbit : (i * bitsPerBlock + k) % bitsPerBlock = k := by
    unfold bitsPerBlock at *
    omega
  unfold bitPlace
  rw [hblock, hbit, readBlock_mod, bitAt_readBlock (mod_diskBlocks _) hk]
  rfl

/-- **The search** finds the least clear bit, and returns its number in its block. -/
theorem findFirstFree_place (disk : Bytes) (start len : Nat) :
    ∃ r, FirstClear (fun b => bitAt disk (bitPlace start b)) (len * bitsPerBlock) r ∧
      findFirstFreeBitInDiskBlocks disk start len = (r.map (· % bitsPerBlock)).getD 0 := by
  have hall := @firstClear_range (fun b => bitAt disk (bitPlace start b)) bitsPerBlock _ len
    fun i _ => firstFreeInBlock_place disk start i
  have hnum := @findSome_unshift (fun b => bitAt disk (bitPlace start b)) bitsPerBlock _ len
    fun i _ => firstFreeInBlock_place disk start i
  refine ⟨_, hall, ?_⟩
  unfold findFirstFreeBitInDiskBlocks
  simp only [hnum]

/-- **The free bit that was asked for**: the least clear bit of all blocks, by the number under which
it is set, and no such number when every bit is set. -/
structure FindsFree (disk : Bytes) (start len : Nat) : Prop where
  least : ∀ i < len * bitsPerBlock, bitAt disk (bitPlace start i) = false →
    (∀ j < i, bitAt disk (bitPlace start j) = true) →
      findFirstFreeBitInDiskBlocks disk start len = i ∧
      ∀ p, bitAt (setBitInDiskBlock disk (u32 (start + i / bitsPerBlock)) (i % bitsPerBlock)) p =
        (bitAt disk p || decide (p = bitPlace start i))
  full : (∀ i < len * bitsPerBlock, bitAt disk (bitPlace start i) = true) →
    len * bitsPerBlock ≤ findFirstFreeBitInDiskBlocks disk start len

/-- **The search is right** when the first block has a clear bit, and only then. -/
theorem finds_free_iff (disk : Bytes) (start len : Nat) (hlen : 1 ≤ len) :
    FindsFree disk start len ↔ ∃ i < bitsPerBlock, bitAt disk (bitPlace start i) = false := by
  have hle : bitsPerBlock ≤ len * bitsPerBlock := Nat.le_mul_of_pos_left _ hlen
  have hpos : 0 < bitsPerBlock := by decide
  obtain ⟨r, hr, hfind⟩ := findFirstFree_place disk start len
  constructor
  · intro h
    cases hr with
    | full hset =>
      have hvalue := h.full hset
      rw [hfind] at hvalue
      exact absurd (Nat.le_trans hle hvalue) (Nat.not_le.mpr hpos)
    | @found a hlt hclear hset =>
      -- the number in the block is the number in the bitmap in the first block only
      have hvalue := (h.least a hlt hclear hset).1
      rw [hfind] at hvalue
      have hmod : a % bitsPerBlock = a := hvalue
      exact ⟨a, hmod ▸ Nat.mod_lt a hpos, hclear⟩
  · rintro ⟨i, hi, hclear⟩
    cases hr with
    | full hset =>
      have hfull : bitAt disk (bitPlace start i) = true := hset i (Nat.lt_of_lt_of_le hi hle)
      rw [hclear] at hfull
      cases hfull
    | @found a hlt hfound hset =>
      have hset : ∀ c < a, bitAt disk (bitPlace start c) = true := hset
      have hfirst : a ≤ i := by
        by_contra hgt
        have hbefore := hset i (Nat.not_le.mp hgt)
        rw [hclear] at hbefore
        cases hbefore
      have hvalue : findFirstFreeBitInDiskBlocks disk start len = a := by
        rw [hfind]
        exact Nat.mod_eq_of_lt (Nat.lt_of_le_of_lt hfirst hi)
      refine ⟨fun b _ hb hbefore => ⟨?_, bitAt_setBitInBlocks disk start b⟩, fun hall => ?_⟩
      · rw [hvalue]
        rcases Nat.lt_trichotomy a b with hab | hab | hab
        · have hset' := hbefore a hab
          rw [show bitAt disk (bitPlace start a) = false from hfound] at hset'
          cases hset'
        · exact hab
        · have hset' := hset b hab
          rw [hb] at hset'
          cases hset'
      · have hset' := hall a hlt
        rw [show bitAt disk (bitPlace start a) = false from hfound] at hset'
        cases hset'

/-- An empty disk. -/
theorem finds_free_empty : FindsFree (fun _ => 0) 2 1 :=
  (finds_free_iff (fun _ => 0) 2 1 (Nat.le_refl 1)).mpr ⟨0, by decide, by decide⟩

/-- **A full first block**: the bit found is the first of the second block, and its number is lost. -/
theorem finds_free_second : ¬ ∀ (disk : Bytes) (start len : Nat), 1 ≤ len →
    FindsFree disk start len := by
  intro hall
  let disk : Bytes := fun p => if p / 4096 = 2 then 0xFF else 0
  have hbits : ∀ i < 2 * bitsPerBlock, bitAt disk (bitPlace 2 i) = decide (i < bitsPerBlock) := by
    intro i hi
    unfold bitsPerBlock at hi
    have hplace : bitPlace 2 i = 65536 + i := by
      unfold bitPlace bitsPerBlock diskBlocks u32
      omega
    have hbyte : disk ((65536 + i) / 8) = if i < 32768 then 0xFF else 0 := by
      show (if (65536 + i) / 8 / 4096 = 2 then (0xFF : UInt8) else 0) = _
      congr 1
      exact propext ⟨fun h => by omega, fun h => by omega⟩
    have hones : ∀ k < 8, (0xFF : UInt8).toNat.testBit k = true := by decide
    unfold bitAt bitsPerBlock
    rw [hplace, hbyte]
    split
    · next hlow => rw [hones _ (Nat.mod_lt _ (by decide)), decide_eq_true hlow]
    · next hhigh =>
      rw [decide_eq_false hhigh]
      exact Nat.zero_testBit _
  have hclear : bitAt disk (bitPlace 2 bitsPerBlock) = false := by
    rw [hbits _ (by decide)]
    rfl
  have hset : ∀ j < bitsPerBlock, bitAt disk (bitPlace 2 j) = true := fun j hj => by
    rw [hbits j (Nat.lt_trans hj (by decide)), decide_eq_true hj]
  have hfound := ((hall disk 2 2 (by decide)).least bitsPerBlock (by decide) hclear hset).1
  obtain ⟨r, hr, hfind⟩ := findFirstFree_place disk 2 2
  have hlt : findFirstFreeBitInDiskBlocks disk 2 2 < bitsPerBlock := by
    rw [hfind]
    cases r with
    | none => exact (by decide : 0 < bitsPerBlock)
    | some a => exact Nat.mod_lt a (by decide)
  rw [hfound] at hlt
  exact Nat.lt_irrefl _ hlt

/-! ## 3. Taking and giving back -/

/-- The two bitmaps. -/
inductive Bitmap
  | inodes
  | data
  deriving DecidableEq

namespace Bitmap

def start (sb : Superblock) : Bitmap → Nat
  | inodes => sb.firstInodeBitmapBlock
  | data => sb.firstDataBitmapBlock

def blocks (sb : Superblock) : Bitmap → Nat
  | inodes => sb.numInodeBitmapBlocks
  | data => sb.numDataBitmapBlocks

/-- `first_free_inode_bit` and `first_free_data_bit`. -/
def hint (s : State) : Bitmap → Nat
  | inodes => s.superblock.firstFreeInodeBit
  | data => s.superblock.firstFreeDataBit

/-- The part of `fs_create_file` that takes a number: the number and the state left. -/
def take (s : State) : Bitmap → Nat × State
  | inodes => takeInodeBit s
  | data => takeDataBit s

/-- The part of `fs_delete_file` that gives a number back. -/
def give (s : State) (n : Nat) : Bitmap → State
  | inodes => { s with disk := clearBitInInodeBitmap s.disk s.superblock n }
  | data => { s with disk := clearBitInDataBitmap s.disk s.superblock n }

def bit (s : State) (k : Bitmap) (i : Nat) : Bool :=
  bitAt s.disk (bitPlace (k.start s.superblock) i)

end Bitmap

/-- A file system, and the numbers that were taken and not given back. -/
structure Numbers where
  fs : State
  live : Bitmap → Set Nat

/-- A number is taken, or a live one given back. -/
inductive NumberStep : Numbers → Bitmap × Option Nat → Numbers → Prop
  | take {s : Numbers} (k : Bitmap) : NumberStep s (k, none)
      ⟨(k.take s.fs).2, Function.update s.live k (insert (k.take s.fs).1 (s.live k))⟩
  | give {s : Numbers} {k : Bitmap} {n : Nat} (hn : n ∈ s.live k) : NumberStep s (k, some n)
      ⟨k.give s.fs n, Function.update s.live k (s.live k \ {n})⟩

/-- A bitmap in use; when a number is taken, another one stays clear. -/
def StaysClear (used : Set Bitmap) (s : Numbers) (call : Bitmap × Option Nat) : Prop :=
  call.1 ∈ used ∧ (call.2 = none →
    ∃ i < bitsPerBlock, i ≠ call.1.hint s.fs ∧ call.1.bit s.fs i = false)

/-- The bitmaps in use have one block each, and hints that point at clear bits. -/
structure OneBlock (used : Set Bitmap) (s : State) : Prop where
  blocks : ∀ k ∈ used, k.blocks s.superblock = 1
  hint : ∀ k ∈ used, k.hint s < bitsPerBlock ∧ k.bit s (k.hint s) = false
  apart : ∀ j ∈ used, ∀ k ∈ used, j ≠ k → j.start s.superblock ≠ k.start s.superblock

/-- **The hint points at a clear bit**, the number taken next is not live, and the bitmap is that of
the start with the live numbers. -/
structure HintHolds (s₀ : State) (k : Bitmap) (s : Numbers) : Prop where
  hint : k.hint s.fs < bitsPerBlock ∧ k.bit s.fs (k.hint s.fs) = false
  fresh : (k.take s.fs).1 ∉ s.live k
  bits : ∀ i < bitsPerBlock, k.bit s.fs i = true ↔ k.bit s₀ i = true ∨ i ∈ s.live k

theorem Bitmap.start_lt (sb : Superblock) (k : Bitmap) : k.start sb < 65536 := by
  cases k <;> exact Packed.get16_lt _ _

/-- A bitmap of one block lies in that block. -/
theorem bitPlace_first {start i : Nat} (hs : start < 65536) (hi : i < bitsPerBlock) :
    bitPlace start i = start * bitsPerBlock + i := by
  unfold bitPlace bitsPerBlock diskBlocks u32 at *
  omega

theorem bitPlace_inj {start i j : Nat} (hs : start < 65536) (hi : i < bitsPerBlock)
    (hj : j < bitsPerBlock) : bitPlace start i = bitPlace start j ↔ i = j := by
  rw [bitPlace_first hs hi, bitPlace_first hs hj]
  exact Nat.add_left_cancel_iff

theorem bitPlace_ne {start start' i j : Nat} (hs : start < 65536) (hs' : start' < 65536)
    (hne : start ≠ start') (hi : i < bitsPerBlock) (hj : j < bitsPerBlock) :
    bitPlace start i ≠ bitPlace start' j := by
  rw [bitPlace_first hs hi, bitPlace_first hs' hj]
  unfold bitsPerBlock at *
  omega

/-- **What taking a number does.** -/
structure Took (k : Bitmap) (s s' : State) : Prop where
  start : ∀ j : Bitmap, j.start s'.superblock = j.start s.superblock
  blocks : ∀ j : Bitmap, j.blocks s'.superblock = j.blocks s.superblock
  hint : ∀ j, j ≠ k → j.hint s' = j.hint s
  next : k.hint s' = u32 (findFirstFreeBitInDiskBlocks s'.disk (k.start s.superblock)
    (k.blocks s.superblock))
  bit : ∀ p, bitAt s'.disk p =
    (bitAt s.disk p || decide (p = bitPlace (k.start s.superblock) (k.hint s)))

theorem setBit_mod (disk : Bytes) (block bit : Nat) :
    setBitInDiskBlock disk block bit = setBitInDiskBlock disk block (bit % bitsPerBlock) := by
  unfold setBitInDiskBlock
  simp only [Nat.mod_mod]

theorem take_took (s : State) (k : Bitmap) : (k.take s).1 = k.hint s ∧ Took k s (k.take s).2 := by
  have hlayout : ∀ {sb sb' : Superblock}, sb'.layout = sb.layout → ∀ j : Bitmap,
      j.start sb' = j.start sb ∧ j.blocks sb' = j.blocks sb := by
    intro sb sb' h j
    cases j with
    | inodes => exact ⟨congrArg Layout.inodeBitmap h, congrArg Layout.inodeBitmapBlocks h⟩
    | data => exact ⟨congrArg Layout.dataBitmap h, congrArg Layout.dataBitmapBlocks h⟩
  cases k with
  | inodes =>
    have hsame := @hlayout s.superblock (takeInodeBit s).2.superblock
      (Superblock.layout_setFirstFreeInodeBit _ _)
    refine ⟨rfl, fun j => (hsame j).1, fun j => (hsame j).2, fun j hj => ?_, ?_, fun p => ?_⟩
    · cases j with
      | inodes => exact absurd rfl hj
      | data => exact Superblock.firstFreeDataBit_setFirstFreeInodeBit _ _
    · exact Superblock.firstFreeInodeBit_setFirstFreeInodeBit _ _
    · rw [← bitAt_setBitInBlocks, ← setBit_mod]
      rfl
  | data =>
    have hsame := @hlayout s.superblock (takeDataBit s).2.superblock
      (Superblock.layout_setFirstFreeDataBit _ _)
    refine ⟨rfl, fun j => (hsame j).1, fun j => (hsame j).2, fun j hj => ?_, ?_, fun p => ?_⟩
    · cases j with
      | inodes => exact Superblock.firstFreeInodeBit_setFirstFreeDataBit _ _
      | data => exact absurd rfl hj
    · exact Superblock.firstFreeDataBit_setFirstFreeDataBit _ _
    · rw [← bitAt_setBitInBlocks, ← setBit_mod]
      rfl

/-- **What giving a number back does.** -/
theorem give_bits (s : State) (k : Bitmap) (n : Nat) : (k.give s n).superblock = s.superblock ∧
    ∀ p, bitAt (k.give s n).disk p =
      (bitAt s.disk p && decide (p ≠ bitPlace (k.start s.superblock) n)) := by
  have hclear : ∀ (disk : Bytes) (start p : Nat),
      bitAt (clearBitInDiskBlock disk (u32 (start + n / bitsPerBlock)) (n % bitsPerBlock)) p =
        (bitAt disk p && decide (p ≠ bitPlace start n)) := by
    intro disk start p
    have hmod : ∀ block bit, clearBitInDiskBlock disk block bit =
        clearBitInDiskBlock disk (block % diskBlocks) bit := by
      intro block bit
      unfold clearBitInDiskBlock
      simp only [readBlock_mod _ _ block, writeBlock_mod _ _ block]
    have htwice : n % bitsPerBlock % 32768 = n % bitsPerBlock := Nat.mod_mod _ _
    rw [hmod, bitAt_clearBitInDiskBlock (mod_diskBlocks _), htwice]
    rfl
  cases k with
  | inodes => exact ⟨rfl, fun p => hclear _ _ p⟩
  | data => exact ⟨rfl, fun p => hclear _ _ p⟩

/-! ## 4. Runs -/

/-- The invariant: the places of the bitmaps stay, and each bitmap in use has its hint. -/
structure Numbered (used : Set Bitmap) (s₀ : State) (s : Numbers) : Prop where
  start : ∀ k : Bitmap, k.start s.fs.superblock = k.start s₀.superblock
  blocks : ∀ k : Bitmap, k.blocks s.fs.superblock = k.blocks s₀.superblock
  hinted : ∀ k ∈ used, Hinted bitsPerBlock (k.bit s₀) (k.bit s.fs) (k.hint s.fs) (s.live k)

section

variable {used : Set Bitmap} {s₀ : State} (h₀ : OneBlock used s₀)

include h₀

/-- A number is taken. -/
theorem Numbered.take {s : Numbers} (h : Numbered used s₀ s) {k : Bitmap} (hk : k ∈ used)
    (hleft : ∃ i < bitsPerBlock, i ≠ k.hint s.fs ∧ k.bit s.fs i = false) :
    Numbered used s₀
      ⟨(k.take s.fs).2, Function.update s.live k (insert (k.take s.fs).1 (s.live k))⟩ := by
  obtain ⟨hnumber, ht⟩ := take_took s.fs k
  have hlt := (h.hinted k hk).hint_lt
  refine ⟨fun j => (ht.start j).trans (h.start j), fun j => (ht.blocks j).trans (h.blocks j),
    fun j hj => ?_⟩
  by_cases hjk : j = k
  · subst hjk
    have hbit : ∀ i < bitsPerBlock, j.bit (j.take s.fs).2 i =
        (j.bit s.fs i || decide (i = j.hint s.fs)) := by
      intro i hi
      unfold Bitmap.bit
      rw [ht.start, ht.bit]
      congr 1
      exact decide_eq_decide.mpr (bitPlace_inj (j.start_lt _) hi hlt)
    obtain ⟨r, hr, hfind⟩ := findFirstFree_place (j.take s.fs).2.disk (j.start s.fs.superblock) 1
    rw [Nat.one_mul] at hr
    have hr' : FirstClear (j.bit (j.take s.fs).2) bitsPerBlock r := by
      unfold Bitmap.bit
      rw [ht.start]
      exact hr
    obtain ⟨next, rfl, hnext⟩ := (h.hinted j hk).take hbit hleft hr'
    have hhint : j.hint (j.take s.fs).2 = next := by
      have hsmall : next % bitsPerBlock = next := Nat.mod_eq_of_lt hnext.hint_lt
      have hword : next < 4294967296 := Nat.lt_trans hnext.hint_lt (by decide)
      rw [ht.next, h.blocks, h₀.blocks j hk, hfind, Option.map_some, Option.getD_some, hsmall,
        u32_eq hword]
    show Hinted bitsPerBlock _ _ _ (Function.update s.live j _ j)
    rw [Function.update_self, hnumber, hhint]
    exact hnext
  · show Hinted bitsPerBlock _ _ _ (Function.update s.live k _ j)
    rw [Function.update_of_ne hjk, ht.hint j hjk]
    refine (h.hinted j hj).congr fun i hi => ?_
    have hne : j.start s.fs.superblock ≠ k.start s.fs.superblock := by
      rw [h.start, h.start]
      exact h₀.apart j hj k hk hjk
    unfold Bitmap.bit
    rw [ht.start, ht.bit, decide_eq_false (bitPlace_ne (j.start_lt _) (k.start_lt _) hne hi hlt),
      Bool.or_false]

/-- A live number is given back. -/
theorem Numbered.give {s : Numbers} (h : Numbered used s₀ s) {k : Bitmap} (hk : k ∈ used) {n : Nat}
    (hn : n ∈ s.live k) :
    Numbered used s₀ ⟨k.give s.fs n, Function.update s.live k (s.live k \ {n})⟩ := by
  obtain ⟨hsb, hbits⟩ := give_bits s.fs k n
  have hlt := ((h.hinted k hk).live_clear n hn).1
  have hhint : ∀ j : Bitmap, j.hint (k.give s.fs n) = j.hint s.fs := by
    intro j
    cases j with
    | inodes => exact congrArg Superblock.firstFreeInodeBit hsb
    | data => exact congrArg Superblock.firstFreeDataBit hsb
  refine ⟨fun j => ?_, fun j => ?_, fun j hj => ?_⟩
  · rw [hsb]
    exact h.start j
  · rw [hsb]
    exact h.blocks j
  rw [hhint]
  by_cases hjk : j = k
  · subst hjk
    show Hinted bitsPerBlock _ _ _ (Function.update s.live j _ j)
    rw [Function.update_self]
    refine (h.hinted j hj).give hn fun i hi => ?_
    unfold Bitmap.bit
    rw [hsb, hbits]
    congr 1
    exact decide_eq_decide.mpr (not_congr (bitPlace_inj (j.start_lt _) hi hlt))
  · show Hinted bitsPerBlock _ _ _ (Function.update s.live k _ j)
    rw [Function.update_of_ne hjk]
    refine (h.hinted j hj).congr fun i hi => ?_
    have hne : j.start s.fs.superblock ≠ k.start s.fs.superblock := by
      rw [h.start, h.start]
      exact h₀.apart j hj k hk hjk
    unfold Bitmap.bit
    rw [hsb, hbits, decide_eq_true (bitPlace_ne (j.start_lt _) (k.start_lt _) hne hi hlt),
      Bool.and_true]

theorem Numbered.step {s s' : Numbers} {call : Bitmap × Option Nat} (h : Numbered used s₀ s)
    (hok : StaysClear used s call) (hs : NumberStep s call s') : Numbered used s₀ s' := by
  obtain ⟨hk, hleft⟩ := hok
  cases hs with
  | take k => exact h.take h₀ hk (hleft rfl)
  | give hn => exact h.give h₀ hk hn

theorem OneBlock.start : Numbered used s₀ ⟨s₀, fun _ => ∅⟩ :=
  ⟨fun _ => rfl, fun _ => rfl, fun k hk => .start (h₀.hint k hk).1 (h₀.hint k hk).2⟩

end

/-- **The hint stays at a clear bit**, whatever the order in which numbers are taken and given
back. -/
theorem hint_stays_clear (used : Set Bitmap) (s₀ : State) (h₀ : OneBlock used s₀) (s : Numbers)
    (hrun : Reach NumberStep (StaysClear used) ⟨s₀, fun _ => ∅⟩ s) :
    ∀ k ∈ used, HintHolds s₀ k s := by
  have hinv : Numbered used s₀ s :=
    hrun.invariant h₀.start fun s call s' hs hok hstep => hs.step h₀ hok hstep
  intro k hk
  have hhinted := hinv.hinted k hk
  refine ⟨⟨hhinted.hint_lt, hhinted.hint_clear⟩, ?_, hhinted.bits⟩
  rw [(take_took s.fs k).1]
  exact hhinted.fresh

/-- Two empty bitmaps in blocks 2 and 3. -/
def emptyBitmaps : State where
  disk := fun _ => 0
  superblock := fun k =>
    if k.val = 4 then 2 else if k.val = 6 then 3 else if k.val = 8 ∨ k.val = 10 then 1 else 0
  superblockArea := Packed.zero
  rootInode := noInode
  currentDirInode := noInode

theorem emptyBitmaps_oneBlock : OneBlock Set.univ emptyBitmaps := by
  refine ⟨fun k _ => ?_, fun k _ => ?_, fun j _ k _ hne => ?_⟩
  · cases k <;> decide
  · cases k <;> decide
  · revert hne
    cases j <;> cases k <;> decide

/-- The first number of an empty bitmap. -/
theorem hint_stays_clear_first : ∃ s : Numbers, s.live .inodes = {0} ∧
    HintHolds emptyBitmaps .inodes s := by
  have hnext : Bitmap.inodes.hint emptyBitmaps = 0 ∧ Bitmap.inodes.bit emptyBitmaps 1 = false := by
    decide
  have hok : StaysClear Set.univ ⟨emptyBitmaps, fun _ => ∅⟩ (.inodes, none) := by
    refine ⟨Set.mem_univ _, fun _ => ⟨1, by decide, ?_, hnext.2⟩⟩
    rw [hnext.1]
    exact Nat.one_ne_zero
  have hrun := hint_stays_clear Set.univ emptyBitmaps emptyBitmaps_oneBlock _
    (.tail .refl hok (.take .inodes)) .inodes (Set.mem_univ _)
  refine ⟨_, ?_, hrun⟩
  show Function.update (fun _ => (∅ : Set Nat)) Bitmap.inodes
    (insert (Bitmap.inodes.hint emptyBitmaps) ∅) Bitmap.inodes = {0}
  rw [Function.update_self, hnext.1, LawfulSingleton.insert_empty_eq]

end AmateurOs.Fs
