/-
# Byte stores: copies, little-endian words and bit strings

A byte store is a function from addresses to bytes.  A disk image, a physical memory, a
virtual address space and a scratch buffer are all byte stores here, and a C struct is the
bytes it occupies.  Three views of one store are related below:

* **regions**: `blit` copies a run of bytes, and everything outside the run is unchanged;
* **words**: `le16` and `le32` read little-endian words and `put16`, `put32` store them;
* **bits**: `bitAt` numbers the bits of a store from its first byte on, low bit first, so
  that bit `i` of a store is bit `i % 32` of its `i / 32`-th 32-bit word (`testBit_le32`).

Nothing here knows what the bytes are for.
-/
import Mathlib.Data.Nat.Bitwise
import Mathlib.Data.List.Basic
import Mathlib.Logic.Function.Basic

namespace AmateurOs.Lib

/-- A byte store: a byte at every address. -/
abbrev Bytes := Nat → UInt8

/-! ## 1. Fixed-width unsigned arithmetic -/

/-- Reduction to an unsigned 32-bit integer. -/
def u32 (n : Nat) : Nat := n % 4294967296

/-- Reduction to an unsigned 16-bit integer. -/
def u16 (n : Nat) : Nat := n % 65536

/-- Reduction to an unsigned 8-bit integer. -/
def u8 (n : Nat) : Nat := n % 256

/-- Unsigned 32-bit subtraction. -/
def sub32 (a b : Nat) : Nat := u32 (a + (4294967296 - b % 4294967296))

theorem u32_lt (n : Nat) : u32 n < 4294967296 := Nat.mod_lt _ (by decide)

theorem u32_eq {n : Nat} (h : n < 4294967296) : u32 n = n := Nat.mod_eq_of_lt h

/-- Without a borrow the wrapped difference is the difference. -/
theorem sub32_eq {a b : Nat} (ha : a < 4294967296) (h : b ≤ a) : sub32 a b = a - b := by
  unfold sub32 u32
  omega

/-- The two's complement reading of a 32-bit word. -/
def toInt32 (n : Nat) : Int := if u32 n < 2147483648 then (u32 n : Int) else (u32 n : Int) - 4294967296

/-- The 32-bit word of an integer. -/
def ofInt32 (i : Int) : Nat := (i % 4294967296).toNat

/-- A small word is its own two's complement reading. -/
theorem toInt32_eq {n : Nat} (h : n < 2147483648) : toInt32 n = n := by
  unfold toInt32 u32
  rw [if_pos (by omega)]
  omega

/-- A sum that does not overflow is the sum of the readings. -/
theorem toInt32_add {a : Nat} {d : Int} (h : -2147483648 ≤ a + d) (h' : a + d < 2147483648) :
    toInt32 (u32 (a + ofInt32 d)) = a + d := by
  unfold toInt32 u32 ofInt32
  split <;> omega

/-! ## 2. Regions -/

/-- The store with the `len` bytes from `dst` on replaced by the first `len` bytes of
`src`. -/
def blit (m : Bytes) (dst len : Nat) (src : Bytes) : Bytes := fun p =>
  if dst ≤ p ∧ p < dst + len then src (p - dst) else m p

/-- The store seen from address `off` on. -/
def slice (m : Bytes) (off : Nat) : Bytes := fun k => m (off + k)

@[simp] theorem slice_apply (m : Bytes) (off k : Nat) : slice m off k = m (off + k) := rfl

theorem blit_in {m src : Bytes} {dst len p : Nat} (h : dst ≤ p) (h' : p < dst + len) :
    blit m dst len src p = src (p - dst) := if_pos ⟨h, h'⟩

theorem blit_out {m src : Bytes} {dst len p : Nat} (h : p < dst ∨ dst + len ≤ p) :
    blit m dst len src p = m p := if_neg (by omega)

/-- The `k`-th byte of the copied run. -/
theorem blit_add {m src : Bytes} {dst len k : Nat} (h : k < len) :
    blit m dst len src (dst + k) = src k := by
  rw [blit_in (by omega) (by omega), Nat.add_sub_cancel_left]

@[simp] theorem blit_zero (m src : Bytes) (dst : Nat) : blit m dst 0 src = m := by
  funext p
  exact blit_out (by omega)

/-- `memcpy`, byte by byte. -/
def memcpy (mem : Bytes) (dst src len : Nat) : Bytes :=
  (List.range len).foldl (fun mem i => Function.update mem (u32 (dst + i)) (mem (u32 (src + i)))) mem

/-- One byte more. -/
theorem memcpy_succ (mem : Bytes) (dst src n : Nat) :
    memcpy mem dst src (n + 1) = Function.update (memcpy mem dst src n) (u32 (dst + n))
      (memcpy mem dst src n (u32 (src + n))) := by
  unfold memcpy
  rw [List.range_succ, List.foldl_append]
  rfl

/-- What `memcpy` does not write. -/
theorem memcpy_out {mem : Bytes} {dst src len q : Nat} (h : ∀ k < len, q ≠ u32 (dst + k)) :
    memcpy mem dst src len q = mem q := by
  induction len with
  | zero => rfl
  | succ n ih =>
    rw [memcpy_succ, Function.update_of_ne (h n (Nat.lt_succ_self n))]
    exact ih fun k hk => h k (Nat.lt_succ_of_lt hk)

/-- What `memcpy` writes, when it reads nothing that it writes. -/
theorem memcpy_in {mem : Bytes} {dst src len k : Nat} (hlen : len ≤ 4294967296)
    (hapart : ∀ i < len, ∀ j < len, u32 (src + i) ≠ u32 (dst + j)) (hk : k < len) :
    memcpy mem dst src len (u32 (dst + k)) = mem (u32 (src + k)) := by
  induction len with
  | zero => exact absurd hk (Nat.not_lt_zero k)
  | succ n ih =>
    rw [memcpy_succ]
    by_cases heq : k = n
    · subst heq
      rw [Function.update_self]
      exact memcpy_out fun j hj => hapart k (Nat.lt_succ_self k) j (Nat.lt_succ_of_lt hj)
    · have hne : u32 (dst + k) ≠ u32 (dst + n) := by
        unfold u32
        omega
      rw [Function.update_of_ne hne]
      exact ih (Nat.le_of_succ_le hlen) (fun i hi j hj => hapart i (Nat.lt_succ_of_lt hi) j
        (Nat.lt_succ_of_lt hj)) (by omega)

/-- An address inside a range, which is given by its start and its length. -/
def Inside (p : Nat) (r : Nat × Nat) : Prop := r.1 ≤ p ∧ p < r.1 + r.2

/-- Two ranges do not meet. -/
def Apart (r s : Nat × Nat) : Prop := r.1 + r.2 ≤ s.1 ∨ s.1 + s.2 ≤ r.1

instance : Std.Symm Apart := ⟨fun _ _ => Or.symm⟩

/-- No address is inside both of two ranges that do not meet. -/
theorem Apart.not_inside {r s : Nat × Nat} (h : Apart r s) {p : Nat} (hr : Inside p r) :
    ¬ Inside p s := by
  unfold Apart Inside at *
  omega

/-! ## 3. Little-endian words -/

/-- The 16-bit little-endian word at `p`. -/
def le16 (m : Bytes) (p : Nat) : Nat := (m p).toNat + 256 * (m (p + 1)).toNat

/-- The 32-bit little-endian word at `p`. -/
def le32 (m : Bytes) (p : Nat) : Nat :=
  (m p).toNat + 256 * (m (p + 1)).toNat + 65536 * (m (p + 2)).toNat
    + 16777216 * (m (p + 3)).toNat

/-- Byte `i` of the little-endian representation of a word. -/
def wordByte (v i : Nat) : UInt8 := UInt8.ofNat (v / 256 ^ i)

/-- The store with the low 16 bits of `v` at `p`. -/
def put16 (m : Bytes) (p v : Nat) : Bytes := blit m p 2 (wordByte v)

/-- The store with the low 32 bits of `v` at `p`. -/
def put32 (m : Bytes) (p v : Nat) : Bytes := blit m p 4 (wordByte v)

theorem le32_lt (m : Bytes) (p : Nat) : le32 m p < 4294967296 := by
  have h0 := (m p).toNat_lt
  have h1 := (m (p + 1)).toNat_lt
  have h2 := (m (p + 2)).toNat_lt
  have h3 := (m (p + 3)).toNat_lt
  unfold le32
  omega

theorem le16_lt (m : Bytes) (p : Nat) : le16 m p < 65536 := by
  have h0 := (m p).toNat_lt
  have h1 := (m (p + 1)).toNat_lt
  unfold le16
  omega

/-- A word only depends on its four bytes. -/
theorem le32_congr {m m' : Bytes} {p p' : Nat} (h : ∀ k < 4, m (p + k) = m' (p' + k)) :
    le32 m p = le32 m' p' := by
  have h0 : m p = m' p' := h 0 (by decide)
  have h1 := h 1 (by decide)
  have h2 := h 2 (by decide)
  have h3 := h 3 (by decide)
  unfold le32
  rw [h0, h1, h2, h3]

theorem le16_congr {m m' : Bytes} {p p' : Nat} (h : ∀ k < 2, m (p + k) = m' (p' + k)) :
    le16 m p = le16 m' p' := by
  have h0 : m p = m' p' := h 0 (by decide)
  have h1 := h 1 (by decide)
  unfold le16
  rw [h0, h1]

theorem wordByte_toNat (v i : Nat) : (wordByte v i).toNat = v / 256 ^ i % 256 := by
  unfold wordByte
  rw [UInt8.toNat_ofNat']

/-- The bytes of a word denote the word. -/
theorem le32_wordByte (v : Nat) : le32 (wordByte v) 0 = u32 v := by
  unfold le32 u32
  simp only [wordByte_toNat, Nat.zero_add]
  omega

theorem le16_wordByte (v : Nat) : le16 (wordByte v) 0 = u16 v := by
  unfold le16 u16
  simp only [wordByte_toNat, Nat.zero_add]
  omega

@[simp] theorem le32_put32 (m : Bytes) (p v : Nat) : le32 (put32 m p v) p = u32 v := by
  rw [← le32_wordByte]
  exact le32_congr fun k hk => by rw [put32, blit_add hk, Nat.zero_add]

theorem put32_out {m : Bytes} {p v q : Nat} (h : q < p ∨ p + 4 ≤ q) : put32 m p v q = m q :=
  blit_out h

/-- Storing a word leaves every disjoint word as it was. -/
theorem le32_put32_ne {m : Bytes} {p v q : Nat} (h : q + 4 ≤ p ∨ p + 4 ≤ q) :
    le32 (put32 m p v) q = le32 m q :=
  le32_congr fun k hk => put32_out (by omega)

/-- The bytes of a word that is 0. -/
theorem byte_of_le32_zero {m : Bytes} {p k : Nat} (h : le32 m p = 0) (hk : k < 4) :
    m (p + k) = 0 := by
  unfold le32 at h
  refine UInt8.toNat_inj.mp ?_
  obtain rfl | rfl | rfl | rfl : k = 0 ∨ k = 1 ∨ k = 2 ∨ k = 3 := by omega
  all_goals
    simp only [Nat.add_zero, UInt8.toNat_zero]
    omega

/-- Zeros written over a word that is 0 leave it. -/
theorem le32_blit_zero {m : Bytes} {a n p : Nat} (h : le32 m p = 0) :
    le32 (blit m a n fun _ => 0) p = 0 := by
  have hsame : ∀ k < 4, blit m a n (fun _ => 0) (p + k) = m (p + k) := by
    intro k hk
    by_cases hin : a ≤ p + k ∧ p + k < a + n
    · rw [blit_in hin.1 hin.2, byte_of_le32_zero h hk]
    · exact blit_out (by omega)
  exact (le32_congr hsame).trans h

/-! ## 4. Bits -/

/-- Bit `i` of a store, counted from its first byte on, low bit first. -/
def bitAt (m : Bytes) (i : Nat) : Bool := (m (i / 8)).toNat.testBit (i % 8)

theorem bitAt_congr {m m' : Bytes} {i : Nat} (h : m (i / 8) = m' (i / 8)) :
    bitAt m i = bitAt m' i := by
  unfold bitAt
  rw [h]

/-- The bits of a word are the bits of its bytes, in order. -/
theorem testBit_le32_byte (m : Bytes) (p : Nat) {k : Nat} (hk : k < 32) :
    (le32 m p).testBit k = (m (p + k / 8)).toNat.testBit (k % 8) := by
  have h0 := (m p).toNat_lt
  have h1 := (m (p + 1)).toNat_lt
  have h2 := (m (p + 2)).toNat_lt
  have split : le32 m p = 2 ^ 8 * (2 ^ 8 * (2 ^ 8 * (m (p + 3)).toNat + (m (p + 2)).toNat)
      + (m (p + 1)).toNat) + (m p).toNat := by
    unfold le32
    omega
  rw [split, Nat.testBit_two_pow_mul_add _ h0, Nat.testBit_two_pow_mul_add _ h1,
    Nat.testBit_two_pow_mul_add _ h2]
  rcases (by omega : k < 8 ∨ (8 ≤ k ∧ k < 16) ∨ (16 ≤ k ∧ k < 24) ∨ (24 ≤ k ∧ k < 32))
    with h | h | h | h
  · rw [if_pos h, Nat.div_eq_of_lt h, Nat.mod_eq_of_lt h, Nat.add_zero]
  · rw [if_neg (by omega), if_pos (by omega), (by omega : k / 8 = 1), (by omega : k % 8 = k - 8)]
  · rw [if_neg (by omega), if_neg (by omega), if_pos (by omega), (by omega : k / 8 = 2),
      (by omega : k % 8 = k - 8 - 8)]
  · rw [if_neg (by omega), if_neg (by omega), if_neg (by omega), (by omega : k / 8 = 3),
      (by omega : k % 8 = k - 8 - 8 - 8)]

/-- **Words and bits agree**: bit `i` of the store is bit `i % 32` of its word `i / 32`. -/
theorem testBit_le32 (m : Bytes) (i : Nat) :
    (le32 m (4 * (i / 32))).testBit (i % 32) = bitAt m i := by
  rw [testBit_le32_byte m _ (Nat.mod_lt _ (by decide))]
  unfold bitAt
  rw [(by omega : 4 * (i / 32) + i % 32 / 8 = i / 8), (by omega : i % 32 % 8 = i % 8)]

/-- Replacing the word that holds bit `i` replaces the bits of that word and no other. -/
theorem bitAt_put32 (m : Bytes) (w v i : Nat) (hv : v < 4294967296) :
    bitAt (put32 m (4 * w) v) i = if i / 32 = w then v.testBit (i % 32) else bitAt m i := by
  split
  · next h =>
    subst h
    rw [← testBit_le32, le32_put32, u32_eq hv]
  · next h => exact bitAt_congr (put32_out (by omega))

/-- **Setting a bit of a word** sets that bit of the store. -/
theorem bitAt_setInWord (m : Bytes) (b i : Nat) :
    bitAt (put32 m (4 * (b / 32)) (le32 m (4 * (b / 32)) ||| 1 <<< (b % 32))) i
      = (bitAt m i || decide (i = b)) := by
  have hpow : 1 <<< (b % 32) < 4294967296 := by
    rw [Nat.one_shiftLeft]
    exact Nat.pow_lt_pow_right (a := 2) (n := 32) (by decide) (Nat.mod_lt _ (by decide))
  rw [bitAt_put32 _ _ _ _ (Nat.or_lt_two_pow (n := 32) (le32_lt _ _) hpow)]
  split
  · next hw =>
    rw [Nat.testBit_or, ← hw, testBit_le32, Nat.one_shiftLeft, Nat.testBit_two_pow]
    congr 1
    exact decide_eq_decide.mpr ⟨fun h => by omega, fun h => by omega⟩
  · next hw => rw [decide_eq_false (by omega), Bool.or_false]

/-- **Clearing a bit of a word** clears that bit of the store. -/
theorem bitAt_clearInWord (m : Bytes) (b i : Nat) :
    bitAt (put32 m (4 * (b / 32)) (le32 m (4 * (b / 32)) &&& (0xFFFFFFFF ^^^ 1 <<< (b % 32)))) i
      = (bitAt m i && decide (i ≠ b)) := by
  have hv : le32 m (4 * (b / 32)) &&& (0xFFFFFFFF ^^^ 1 <<< (b % 32)) < 4294967296 :=
    Nat.lt_of_le_of_lt Nat.and_le_left (le32_lt _ _)
  rw [bitAt_put32 _ _ _ _ hv]
  split
  · next hw =>
    have hones : (0xFFFFFFFF : Nat).testBit (i % 32) = true := by
      have h32 : (0xFFFFFFFF : Nat) = 2 ^ 32 - 1 := by decide
      rw [h32, Nat.testBit_two_pow_sub_one]
      simpa using Nat.mod_lt _ (by decide)
    rw [Nat.testBit_and, Nat.testBit_xor, ← hw, testBit_le32, hones, Bool.true_xor,
      Nat.one_shiftLeft, Nat.testBit_two_pow, ← decide_not]
    congr 1
    exact decide_eq_decide.mpr ⟨fun h => by omega, fun h => by omega⟩
  · next hw => rw [decide_eq_true (by omega), Bool.and_true]

/-! ## 5. The first clear bit -/

/-- `r` is the least clear bit below `n`, if there is one. -/
inductive FirstClear (bit : Nat → Bool) (n : Nat) : Option Nat → Prop
  | found {b : Nat} (hlt : b < n) (hclear : bit b = false) (hset : ∀ c < b, bit c = true) :
      FirstClear bit n (some b)
  | full (hset : ∀ b < n, bit b = true) : FirstClear bit n none

theorem FirstClear.congr {bit bit' : Nat → Bool} {n : Nat} {r : Option Nat}
    (h : FirstClear bit n r) (hb : ∀ b < n, bit b = bit' b) : FirstClear bit' n r := by
  cases h with
  | full hset => exact .full fun b hlt => (hb b hlt).symm.trans (hset b hlt)
  | found hlt hclear hset =>
    exact .found hlt ((hb _ hlt).symm.trans hclear) fun c hc =>
      (hb c (Nat.lt_trans hc hlt)).symm.trans (hset c hc)

/-- The least clear bit of a word that has one. -/
def firstClearInWord (word : Nat) : Option Nat :=
  if word ≠ 0xFFFFFFFF then (List.range 32).find? fun k => !word.testBit k else none

theorem firstClearInWord_spec (m : Bytes) (j : Nat) :
    FirstClear (fun k => bitAt m (j * 32 + k)) 32 (firstClearInWord (le32 m (4 * j))) := by
  have hbit : ∀ k < 32, bitAt m (j * 32 + k) = (le32 m (4 * j)).testBit k := by
    intro k hk
    have h := testBit_le32 m (j * 32 + k)
    rw [(by omega : (j * 32 + k) / 32 = j), (by omega : (j * 32 + k) % 32 = k)] at h
    exact h.symm
  unfold firstClearInWord
  by_cases hfull : le32 m (4 * j) = 0xFFFFFFFF
  · rw [if_neg (not_not_intro hfull)]
    refine .full fun k hk => ?_
    have h32 : (0xFFFFFFFF : Nat) = 2 ^ 32 - 1 := by decide
    show bitAt m (j * 32 + k) = true
    rw [hbit k hk, hfull, h32, Nat.testBit_two_pow_sub_one, decide_eq_true hk]
  · rw [if_pos hfull]
    cases hfind : (List.range 32).find? fun k => !(le32 m (4 * j)).testBit k with
    | some k =>
      obtain ⟨hk, hmem, hbefore⟩ := List.find?_range_eq_some.mp hfind
      have hk32 := List.mem_range.mp hmem
      refine .found hk32 ?_ fun k' hk' => ?_
      · have hclear : bitAt m (j * 32 + k) = false := by
          rw [hbit k hk32]
          simpa using hk
        exact hclear
      · have hset : bitAt m (j * 32 + k') = true := by
          rw [hbit k' (by omega)]
          simpa using hbefore k' hk'
        exact hset
    | none =>
      refine .full fun k hk => ?_
      show bitAt m (j * 32 + k) = true
      rw [hbit k hk]
      simpa using List.find?_eq_none.mp hfind k (List.mem_range.mpr hk)

/-- **Searching in parts.**  When `g i` is the first clear bit of the `i`-th run of `w` bits,
the first part that has one gives the first of all. -/
theorem firstClear_range {bit : Nat → Bool} {w : Nat} {g : Nat → Option Nat} : ∀ (n : Nat),
    (∀ i < n, FirstClear (fun k => bit (i * w + k)) w (g i)) →
    FirstClear bit (n * w) ((List.range n).findSome? fun i => (g i).map (i * w + ·)) := by
  intro n
  induction n with
  | zero =>
    intro _
    refine .full fun b hb => ?_
    omega
  | succ n ih =>
    intro h
    have hprev := ih fun i hi => h i (Nat.lt_succ_of_lt hi)
    have hlast := h n (Nat.lt_succ_self n)
    rw [List.range_succ, List.findSome?_append]
    generalize (List.range n).findSome? (fun i => (g i).map (i * w + ·)) = r at hprev
    cases hprev with
    | found hlt hclear hset =>
      rw [Nat.succ_mul]
      exact .found (Nat.lt_add_right _ hlt) hclear hset
    | full hset =>
      -- Bits of the last run are bits of the whole.
      have hrun : ∀ c, ¬ c < n * w → bit (n * w + (c - n * w)) = bit c := fun c hc => by
        rw [Nat.add_sub_cancel' (Nat.not_lt.mp hc)]
      rw [Option.none_or, List.findSome?_cons, List.findSome?_nil]
      generalize g n = r at hlast
      cases hlast with
      | full hset' =>
        refine .full fun b hb => ?_
        rw [Nat.succ_mul] at hb
        by_cases hlt : b < n * w
        · exact hset b hlt
        · rw [← hrun b hlt]
          exact hset' (b - n * w) (by omega)
      | @found k hlt hclear hset' =>
        rw [Nat.succ_mul]
        refine .found (Nat.add_lt_add_left hlt _) hclear fun c (hc : c < n * w + k) => ?_
        by_cases hlt' : c < n * w
        · exact hset c hlt'
        · rw [← hrun c hlt']
          exact hset' (c - n * w) (by omega)

/-- The number of the bit in its part. -/
theorem findSome_unshift {bit : Nat → Bool} {w : Nat} {g : Nat → Option Nat} : ∀ (n : Nat),
    (∀ i < n, FirstClear (fun k => bit (i * w + k)) w (g i)) →
    (List.range n).findSome? g =
      ((List.range n).findSome? fun i => (g i).map (i * w + ·)).map (· % w) := by
  intro n
  induction n with
  | zero => exact fun _ => rfl
  | succ n ih =>
    intro h
    have hlast := h n (Nat.lt_succ_self n)
    rw [List.range_succ, List.findSome?_append, List.findSome?_append, Option.map_or,
      ih fun i hi => h i (Nat.lt_succ_of_lt hi)]
    congr 1
    rw [List.findSome?_cons, List.findSome?_nil, List.findSome?_cons, List.findSome?_nil]
    generalize g n = r at hlast
    cases hlast with
    | full => rfl
    | found hlt => simp [Nat.mul_add_mod_self_right, Nat.mod_eq_of_lt hlt]

end AmateurOs.Lib
