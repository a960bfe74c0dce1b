/-
# `memcpy32`

`memcpy32` of `include/C/string.h` copies words as long as there are four bytes left, and bytes
after that.  The index counts words first and bytes then (`i *= 4`).

It leaves the same memory as `memcpy` where the ranges are disjoint and where the destination is not
behind the source, at any distance (`memcpy32_copies`): a word is read before it is written, and what
it overwrites has been read.  So the model of scrolling, which moves the lines in one step, is the
`memcpy32` of the source (`scroll_memcpy32`).

A pointer is a 32-bit address, and a word may be at any address.  A range that is copied over itself
ends before the end of the address space, as every object does.
-/
import AmateurOs.Lib.Copying
import AmateurOs.Terminal.Write

namespace AmateurOs.Strings

open AmateurOs.Lib

/-! ## 1. The function -/

/-- `((uint8_t *)p)[k]`. -/
def byteAt (p k : Nat) : Nat := u32 (p + k)

/-- The word at an address, and a word stored there. -/
def loadWord (mem : Bytes) (p : Nat) : Nat := le32 (fun k => mem (byteAt p k)) 0

def storeWord (mem : Bytes) (p v : Nat) : Bytes :=
  (List.range 4).foldl (fun mem k => Function.update mem (byteAt p k) (wordByte v k)) mem

/-- The loop over the words. -/
def copyWords (mem : Bytes) (dst src words : Nat) : Bytes :=
  (List.range words).foldl
    (fun mem i => storeWord mem (byteAt dst (4 * i)) (loadWord mem (byteAt src (4 * i)))) mem

/-- `memcpy32`. -/
def memcpy32 (mem : Bytes) (dst src len : Nat) : Bytes :=
  let mem := copyWords mem dst src (len / 4)
  let i := u32 (len / 4 * 4)
  (List.range (len % 4)).foldl
    (fun mem j =>
      Function.update mem (byteAt dst (u32 (i + j))) (mem (byteAt src (u32 (i + j))))) mem

/-! ## 2. Its chunks -/

theorem byteAt_add (p i k : Nat) : byteAt (byteAt p i) k = byteAt p (i + k) := by
  unfold byteAt u32
  omega

theorem byteAt_u32 (p k : Nat) : byteAt p (u32 k) = byteAt p k := by
  unfold byteAt u32
  omega

/-- Byte `k` of a word. -/
theorem wordByte_loadWord (mem : Bytes) (p : Nat) {k : Nat} (hk : k < 4) :
    wordByte (loadWord mem p) k = mem (byteAt p k) := by
  have h0 := (mem (byteAt p 0)).toNat_lt
  have h1 := (mem (byteAt p 1)).toNat_lt
  have h2 := (mem (byteAt p 2)).toNat_lt
  have h3 := (mem (byteAt p 3)).toNat_lt
  apply UInt8.toNat_inj.mp
  rw [wordByte_toNat]
  unfold loadWord le32
  simp only [Nat.zero_add]
  obtain rfl | rfl | rfl | rfl : k = 0 ∨ k = 1 ∨ k = 2 ∨ k = 3 := by omega
  all_goals simp only [Nat.reducePow]; omega

/-- **A word** is read before it is written. -/
theorem storeWord_copied (mem : Bytes) (dst src : Nat) :
    Copied (byteAt dst) (byteAt src) 4 mem (storeWord mem dst (loadWord mem src)) := by
  have hne : ∀ {j k : Nat}, j < k → k < 4 → byteAt dst j ≠ byteAt dst k := by
    intro j k hjk hk
    unfold byteAt u32
    omega
  have hstore : storeWord mem dst (loadWord mem src) = Function.update (Function.update
      (Function.update (Function.update mem (byteAt dst 0) (mem (byteAt src 0))) (byteAt dst 1)
        (mem (byteAt src 1))) (byteAt dst 2) (mem (byteAt src 2))) (byteAt dst 3)
          (mem (byteAt src 3)) := by
    rw [← wordByte_loadWord mem src (by decide : 0 < 4), ← wordByte_loadWord mem src
      (by decide : 1 < 4), ← wordByte_loadWord mem src (by decide : 2 < 4),
      ← wordByte_loadWord mem src (by decide : 3 < 4)]
    rfl
  rw [hstore]
  refine ⟨fun k hk => ?_, fun a ha => ?_⟩
  · obtain rfl | rfl | rfl | rfl : k = 0 ∨ k = 1 ∨ k = 2 ∨ k = 3 := by omega
    · rw [Function.update_of_ne (hne (by decide) (by decide)),
        Function.update_of_ne (hne (by decide) (by decide)),
        Function.update_of_ne (hne (by decide) (by decide)), Function.update_self]
    · rw [Function.update_of_ne (hne (by decide) (by decide)),
        Function.update_of_ne (hne (by decide) (by decide)), Function.update_self]
    · rw [Function.update_of_ne (hne (by decide) (by decide)), Function.update_self]
    · rw [Function.update_self]
  · rw [Function.update_of_ne (ha 3 (by decide)), Function.update_of_ne (ha 2 (by decide)),
      Function.update_of_ne (ha 1 (by decide)), Function.update_of_ne (ha 0 (by decide))]

section

variable {dst src len : Nat}

/-- The words. -/
theorem copyWords_copied {words : Nat} (hahead : Ahead (byteAt dst) (byteAt src) (4 * words))
    (mem : Bytes) :
    Copied (byteAt dst) (byteAt src) (4 * words) mem (copyWords mem dst src words) := by
  refine Copied.chunks hahead (fun i _ m => ?_) mem
  have hword := storeWord_copied m (byteAt dst (4 * i)) (byteAt src (4 * i))
  simp only [funext (byteAt_add dst (4 * i)), funext (byteAt_add src (4 * i))] at hword
  exact hword

/-- **`memcpy`** is a copy where no byte is written before it is read. -/
theorem memcpy_copied (hahead : Ahead (byteAt dst) (byteAt src) len) (mem : Bytes) :
    Copied (byteAt dst) (byteAt src) len mem (memcpy mem dst src len) := by
  have hbytes : Copied (byteAt dst) (byteAt src) (1 * len) mem (memcpy mem dst src len) := by
    refine Copied.chunks (by rwa [Nat.one_mul]) (fun i _ m => ?_) mem
    simp only [Nat.one_mul]
    exact copied_one (fun k => byteAt dst (i + k)) (fun k => byteAt src (i + k)) m
  rwa [Nat.one_mul] at hbytes

/-- **`memcpy32`** is one there, too. -/
theorem memcpy32_copied (hlen : len < 4294967296) (hahead : Ahead (byteAt dst) (byteAt src) len)
    (mem : Bytes) : Copied (byteAt dst) (byteAt src) len mem (memcpy32 mem dst src len) := by
  have hsplit : 4 * (len / 4) + 1 * (len % 4) = len := by omega
  have hindex : u32 (len / 4 * 4) = 4 * (len / 4) := by
    rw [u32_eq (by omega), Nat.mul_comm]
  have hwords := copyWords_copied (hahead.mono (show 4 * (len / 4) ≤ len by omega)) mem
  unfold memcpy32
  simp only [hindex, byteAt_u32]
  rw [← hsplit] at hahead
  -- the bytes behind the words
  have htail : Ahead (fun k => byteAt dst (4 * (len / 4) + k))
      (fun k => byteAt src (4 * (len / 4) + k)) (1 * (len % 4)) := by
    refine ⟨fun j hj k hk heq => ?_, fun k hk j hj => ?_⟩
    · have hsame := hahead.once _ (Nat.add_lt_add_left hj _) _ (Nat.add_lt_add_left hk _) heq
      omega
    · exact hahead.unread _ (Nat.add_lt_add_left hk _) _ (Nat.add_lt_add_left hj _)
  have hbytes : Copied (fun k => byteAt dst (4 * (len / 4) + k))
      (fun k => byteAt src (4 * (len / 4) + k)) (1 * (len % 4)) (copyWords mem dst src (len / 4))
      ((List.range (len % 4)).foldl (fun mem j => Function.update mem
        (byteAt dst (4 * (len / 4) + j)) (mem (byteAt src (4 * (len / 4) + j))))
          (copyWords mem dst src (len / 4))) := by
    refine Copied.chunks htail (fun i _ m => ?_) _
    simp only [Nat.one_mul]
    exact copied_one (fun k => byteAt dst (4 * (len / 4) + (i + k))) _ m
  have hall := hwords.chunk hahead hbytes
  rwa [hsplit] at hall

/-! ## 3. Overlapping ranges -/

/-- No byte of one range is one of the other. -/
def Disjoint32 (dst src len : Nat) : Prop := ∀ j < len, ∀ k < len, byteAt dst j ≠ byteAt src k

/-- **The ranges of a copy**: disjoint, or with the destination not behind the source. -/
def CopyRanges (dst src len : Nat) : Prop :=
  Disjoint32 dst src len ∨ (dst ≤ src ∧ src + len ≤ 4294967296)

theorem byteAt_eq {p k : Nat} (h : p + k < 4294967296) : byteAt p k = p + k := u32_eq h

theorem CopyRanges.ahead (h : CopyRanges dst src len) (hlen : len < 4294967296) :
    Ahead (byteAt dst) (byteAt src) len := by
  refine ⟨fun j hj k hk heq => ?_, fun k hk j hj => ?_⟩
  · unfold byteAt u32 at heq
    omega
  · rcases h with hdisjoint | ⟨hle, hend⟩
    · exact hdisjoint j (Nat.lt_trans hj hk) k hk
    · rw [byteAt_eq (by omega), byteAt_eq (by omega)]
      omega

/-- **The copy by words is the copy by bytes**: every byte of the destination is what its source was
before, and nothing else has changed. -/
theorem memcpy32_copies (mem : Bytes) (dst src len : Nat) (hlen : len < 4294967296)
    (h : CopyRanges dst src len) :
    memcpy32 mem dst src len = memcpy mem dst src len ∧
      (∀ k < len, memcpy32 mem dst src len (byteAt dst k) = mem (byteAt src k)) ∧
      ∀ p, (∀ k < len, p ≠ byteAt dst k) → memcpy32 mem dst src len p = mem p := by
  have hahead := h.ahead hlen
  have hwords := memcpy32_copied hlen hahead mem
  exact ⟨hwords.unique (memcpy_copied hahead mem), hwords.copied, hwords.kept⟩

/-- Seven bytes moved down by one: a word over itself, and three bytes. -/
theorem memcpy32_copies_seven :
    (∀ k < 7, memcpy32 (fun p => UInt8.ofNat p) 16 17 7 (byteAt 16 k) = UInt8.ofNat (byteAt 17 k)) ∧
      memcpy32 (fun p => UInt8.ofNat p) 16 17 7 = memcpy (fun p => UInt8.ofNat p) 16 17 7 := by
  obtain ⟨hsame, hcopied, -⟩ := memcpy32_copies (fun p => UInt8.ofNat p) 16 17 7 (by decide)
    (Or.inr ⟨by decide, by decide⟩)
  exact ⟨hcopied, hsame⟩

/-- A copy down to a lower address, as one step. -/
theorem memcpy32_blit (mem : Bytes) (hlen : len < 4294967296) (hle : dst ≤ src)
    (hend : src + len ≤ 4294967296) :
    memcpy32 mem dst src len = blit mem dst len (slice mem src) := by
  have hranges : CopyRanges dst src len := Or.inr ⟨hle, hend⟩
  refine (memcpy32_copied hlen (hranges.ahead hlen) mem).unique ⟨fun k hk => ?_, fun a ha => ?_⟩
  · rw [byteAt_eq (by omega), byteAt_eq (by omega), blit_add hk, slice_apply]
  · refine blit_out ?_
    by_contra hin
    refine ha (a - dst) (by omega) ?_
    rw [byteAt_eq (by omega)]
    omega

end

open AmateurOs.Terminal in
/-- **Scrolling** is `memcpy32` from the second row of the screen to the first, where the screen lies
in the address space. -/
theorem scroll_memcpy32 (g : VbeModeInfo) (f : Font) (t : Tty)
    (hscreen : g.physicalBasePointer.toNat + g.xResolution.toNat * f.height * g.bytesPerPixel +
      u32 (sub32 g.yResolution.toNat f.height * g.linearBytesPerScanline.toNat) ≤ 4294967296) :
    (scroll g f t).mem = memcpy32 t.mem g.physicalBasePointer.toNat
      (g.physicalBasePointer.toNat + g.xResolution.toNat * f.height * g.bytesPerPixel)
      (u32 (sub32 g.yResolution.toNat f.height * g.linearBytesPerScanline.toNat)) :=
  (memcpy32_blit t.mem (u32_lt _) (Nat.le_add_right _ _) hscreen).symm

end AmateurOs.Strings
