/-
# Packed records

A C struct declared `packed` is the string of its bytes: reading a field reads a word at a fixed
offset, writing a field replaces those bytes, and an assignment copies all of them.  `Packed n`
is such a record of `n` bytes, `load` and `store` move it between a record and a byte store.

* `load_store` and `load_store_ne` are the round trip and the frame of an assignment;
* a field read after a field write is the value written (`get32_set32`), or what it was before
  when the two fields do not share a byte (`Same.get32`, `same_set32`).

`Same r r' a k` says that two records agree on the `k` bytes from offset `a` on; it is what a
write elsewhere leaves, and what a read of a field there needs.
-/
import AmateurOs.Lib.Bytes

namespace AmateurOs.Lib

/-- A record of `n` bytes. -/
abbrev Packed (n : Nat) := Fin n → UInt8

namespace Packed

variable {n : Nat}

/-! ## 1. Records and byte stores -/

/-- The record as a byte store, zero past its end. -/
def bytes (r : Packed n) : Bytes := fun k => if h : k < n then r ⟨k, h⟩ else 0

/-- The record at address `p`. -/
def load (m : Bytes) (p : Nat) : Packed n := fun k => m (p + k)

/-- The store with the record written at address `p`. -/
def store (m : Bytes) (p : Nat) (r : Packed n) : Bytes := blit m p n r.bytes

/-- The record of zeros, `{0}`. -/
def zero : Packed n := fun _ => 0

theorem bytes_of_lt (r : Packed n) {k : Nat} (h : k < n) : r.bytes k = r ⟨k, h⟩ := dif_pos h

theorem bytes_load (m : Bytes) (p : Nat) {k : Nat} (h : k < n) :
    (load m p : Packed n).bytes k = m (p + k) := bytes_of_lt _ h

/-- **Round trip**: a record written at an address is read back there. -/
theorem load_store (m : Bytes) (p : Nat) (r : Packed n) : load (store m p r) p = r := by
  funext ⟨k, hk⟩
  unfold load store
  rw [blit_add hk, bytes_of_lt r hk]

/-- Equal bytes are equal records. -/
theorem load_congr {m m' : Bytes} {p p' : Nat} (h : ∀ k < n, m (p + k) = m' (p' + k)) :
    (load m p : Packed n) = load m' p' := by
  funext ⟨k, hk⟩
  exact h k hk

theorem store_out {m : Bytes} {p q : Nat} {r : Packed n} (h : q < p ∨ p + n ≤ q) :
    store m p r q = m q := blit_out h

/-- **Frame**: records elsewhere are not touched. -/
theorem load_store_ne {n' : Nat} {m : Bytes} {p q : Nat} {r : Packed n}
    (h : q + n' ≤ p ∨ p + n ≤ q) : (load (store m p r) q : Packed n') = load m q :=
  load_congr fun k hk => store_out (by omega)

/-! ## 2. Fields -/

/-- The 8-bit field at an offset. -/
def get8 (r : Packed n) (off : Nat) : Nat := (r.bytes off).toNat

/-- The 16-bit field at an offset. -/
def get16 (r : Packed n) (off : Nat) : Nat := le16 r.bytes off

/-- The 32-bit field at an offset. -/
def get32 (r : Packed n) (off : Nat) : Nat := le32 r.bytes off

/-- The record with its 8-bit field at an offset written. -/
def set8 (r : Packed n) (off v : Nat) : Packed n := load (blit r.bytes off 1 (wordByte v)) 0

/-- The record with its 16-bit field at an offset written. -/
def set16 (r : Packed n) (off v : Nat) : Packed n := load (put16 r.bytes off v) 0

/-- The record with its 32-bit field at an offset written. -/
def set32 (r : Packed n) (off v : Nat) : Packed n := load (put32 r.bytes off v) 0

/-- The record with the bytes of another written at an offset. -/
def setPart {k : Nat} (r : Packed n) (off : Nat) (v : Packed k) : Packed n :=
  load (store r.bytes off v) 0

theorem get8_lt (r : Packed n) (off : Nat) : r.get8 off < 256 := UInt8.toNat_lt _

theorem get16_lt (r : Packed n) (off : Nat) : r.get16 off < 65536 := le16_lt _ _

theorem get32_lt (r : Packed n) (off : Nat) : r.get32 off < 4294967296 := le32_lt _ _

/-- A word field of a record in memory. -/
theorem get32_load (m : Bytes) {p off : Nat} (h : off + 4 ≤ n) :
    (load m p : Packed n).get32 off = le32 m (p + off) :=
  le32_congr fun k hk => by rw [bytes_load m p (by omega), Nat.add_assoc]

theorem get32_zero (off : Nat) : (zero : Packed n).get32 off = 0 := by
  have hbytes : ∀ k, (zero : Packed n).bytes k = 0 := by
    intro k
    unfold bytes zero
    split <;> rfl
  unfold get32 le32
  simp [hbytes]

theorem get32_set32 (r : Packed n) {off v : Nat} (h : off + 4 ≤ n) :
    (r.set32 off v).get32 off = u32 v := by
  unfold set32
  rw [get32_load _ h, Nat.zero_add, le32_put32]

theorem get16_set16 (r : Packed n) {off v : Nat} (h : off + 2 ≤ n) :
    (r.set16 off v).get16 off = u16 v := by
  unfold set16 get16
  rw [← le16_wordByte v]
  refine le16_congr fun k hk => ?_
  rw [bytes_load _ _ (by omega), Nat.zero_add, Nat.zero_add]
  exact blit_add hk

theorem get8_set8 (r : Packed n) {off v : Nat} (h : off < n) : (r.set8 off v).get8 off = u8 v := by
  unfold set8 get8
  rw [bytes_load _ _ h, Nat.zero_add, blit_in (Nat.le_refl _) (by omega), wordByte_toNat, u8,
    Nat.sub_self, Nat.pow_zero, Nat.div_one]

/-! ## 3. Agreement on a range of bytes -/

/-- Two records agree on the `k` bytes from offset `a` on. -/
def Same (r r' : Packed n) (a k : Nat) : Prop := ∀ q, a ≤ q → q < a + k → r.bytes q = r'.bytes q

variable {r r' r'' : Packed n} {a k : Nat}

theorem Same.trans (h : Same r r' a k) (h' : Same r' r'' a k) : Same r r'' a k :=
  fun q h1 h2 => (h q h1 h2).trans (h' q h1 h2)

theorem Same.mono (h : Same r r' a k) {b j : Nat} (h1 : a ≤ b) (h2 : b + j ≤ a + k) :
    Same r r' b j := fun q hq hq' => h q (by omega) (by omega)

theorem Same.get8 {off : Nat} (h : Same r r' off 1) : r.get8 off = r'.get8 off :=
  congrArg UInt8.toNat (h off (Nat.le_refl _) (by omega))

theorem Same.get16 {off : Nat} (h : Same r r' off 2) : r.get16 off = r'.get16 off :=
  le16_congr fun _ hj => h _ (by omega) (by omega)

theorem Same.get32 {off : Nat} (h : Same r r' off 4) : r.get32 off = r'.get32 off :=
  le32_congr fun _ hj => h _ (by omega) (by omega)

theorem same_load {m : Bytes} (h : ∀ q, a ≤ q → q < a + k → m q = r.bytes q) :
    Same (load m 0) r a k := by
  intro q h1 h2
  by_cases hq : q < n
  · rw [bytes_load m 0 hq, Nat.zero_add]
    exact h q h1 h2
  · rw [bytes, bytes, dif_neg hq, dif_neg hq]

/-- Writing a word leaves the bytes before and after it. -/
theorem same_set32 {off v : Nat} (h : off + 4 ≤ a ∨ a + k ≤ off) : Same (r.set32 off v) r a k :=
  same_load fun _ _ _ => put32_out (by omega)

theorem same_set16 {off v : Nat} (h : off + 2 ≤ a ∨ a + k ≤ off) : Same (r.set16 off v) r a k :=
  same_load fun _ _ _ => blit_out (by omega)

theorem same_set8 {off v : Nat} (h : off + 1 ≤ a ∨ a + k ≤ off) : Same (r.set8 off v) r a k :=
  same_load fun _ _ _ => blit_out (by omega)

theorem same_setPart {j off : Nat} {v : Packed j} (h : off + j ≤ a ∨ a + k ≤ off) :
    Same (r.setPart off v) r a k := same_load fun _ _ _ => store_out (by omega)

/-! ## 4. Fields that do not overlap -/

section

variable {off off' v : Nat}

theorem get8_set8_ne (h : off' + 1 ≤ off ∨ off + 1 ≤ off') :
    (r.set8 off' v).get8 off = r.get8 off := (same_set8 h).get8

theorem get8_set16_ne (h : off' + 2 ≤ off ∨ off + 1 ≤ off') :
    (r.set16 off' v).get8 off = r.get8 off := (same_set16 h).get8

theorem get8_set32_ne (h : off' + 4 ≤ off ∨ off + 1 ≤ off') :
    (r.set32 off' v).get8 off = r.get8 off := (same_set32 h).get8

theorem get16_set8_ne (h : off' + 1 ≤ off ∨ off + 2 ≤ off') :
    (r.set8 off' v).get16 off = r.get16 off := (same_set8 h).get16

theorem get16_set16_ne (h : off' + 2 ≤ off ∨ off + 2 ≤ off') :
    (r.set16 off' v).get16 off = r.get16 off := (same_set16 h).get16

theorem get16_set32_ne (h : off' + 4 ≤ off ∨ off + 2 ≤ off') :
    (r.set32 off' v).get16 off = r.get16 off := (same_set32 h).get16

theorem get32_set8_ne (h : off' + 1 ≤ off ∨ off + 4 ≤ off') :
    (r.set8 off' v).get32 off = r.get32 off := (same_set8 h).get32

theorem get32_set16_ne (h : off' + 2 ≤ off ∨ off + 4 ≤ off') :
    (r.set16 off' v).get32 off = r.get32 off := (same_set16 h).get32

theorem get32_set32_ne (h : off' + 4 ≤ off ∨ off + 4 ≤ off') :
    (r.set32 off' v).get32 off = r.get32 off := (same_set32 h).get32

end

end Packed

end AmateurOs.Lib
