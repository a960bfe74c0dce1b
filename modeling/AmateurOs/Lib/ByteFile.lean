/-
# A byte array with a cursor

What a program expects behind an open file: an array of bytes and a position in it.  Reading
returns the bytes from the position on and moves behind them; writing stores at the position,
with zeros in a gap behind the end; the position can be anywhere, also behind the end.

`byte` reads a position of the array, 0 behind its end.  A write is described by its length
(`length_write`) and its bytes (`byte_write`), a read by the same (`length_read`, `getD_read`).
-/
import Mathlib.Data.List.Basic

namespace AmateurOs.Lib

/-- A file and the position of a descriptor in it. -/
structure ByteFile where
  data : List UInt8
  cursor : Nat

namespace ByteFile

/-- The byte at a position, 0 behind the end. -/
def byte (f : ByteFile) (j : Nat) : UInt8 := f.data.getD j 0

/-- The bytes from the cursor on, at most `len`. -/
def readBytes (f : ByteFile) (len : Nat) : List UInt8 := (f.data.drop f.cursor).take len

/-- The file after a read. -/
def afterRead (f : ByteFile) (len : Nat) : ByteFile :=
  { f with cursor := f.cursor + (f.readBytes len).length }

/-- The file after a write: a gap between the end and the cursor is filled with zeros. -/
def write (f : ByteFile) (bytes : List UInt8) : ByteFile where
  data :=
    let padded := f.data ++ List.replicate (f.cursor - f.data.length) 0
    padded.take f.cursor ++ bytes ++ padded.drop (f.cursor + bytes.length)
  cursor := f.cursor + bytes.length

theorem length_read (f : ByteFile) (len : Nat) :
    (f.readBytes len).length = min len (f.data.length - f.cursor) := by
  unfold readBytes
  rw [List.length_take, List.length_drop]

theorem getD_read (f : ByteFile) {len j : Nat} (h : j < len) :
    (f.readBytes len).getD j 0 = f.byte (f.cursor + j) := by
  unfold readBytes byte
  rw [List.getD_eq_getElem?_getD, List.getD_eq_getElem?_getD, List.getElem?_take_of_lt h,
    List.getElem?_drop]

theorem length_write (f : ByteFile) (bytes : List UInt8) :
    (f.write bytes).data.length = max f.data.length (f.cursor + bytes.length) := by
  unfold write
  simp only [List.length_append, List.length_take, List.length_replicate, List.length_drop]
  omega

/-- The padded array has the same bytes. -/
theorem getD_padded (data : List UInt8) (n j : Nat) :
    (data ++ List.replicate n (0 : UInt8)).getD j 0 = data.getD j 0 := by
  rw [List.getD_eq_getElem?_getD, List.getD_eq_getElem?_getD]
  by_cases h : j < data.length
  · rw [List.getElem?_append_left h]
  · rw [List.getElem?_append_right (Nat.not_lt.mp h), List.getElem?_eq_none (Nat.not_lt.mp h),
      List.getElem?_replicate]
    split <;> rfl

/-- **A write** replaces the bytes at the cursor, and keeps every other one. -/
theorem byte_write (f : ByteFile) (bytes : List UInt8) (j : Nat) :
    (f.write bytes).byte j =
      if f.cursor ≤ j ∧ j < f.cursor + bytes.length then bytes.getD (j - f.cursor) 0
      else f.byte j := by
  have hlen : (f.data ++ List.replicate (f.cursor - f.data.length) (0 : UInt8)).length
      = max f.data.length f.cursor := by
    rw [List.length_append, List.length_replicate]
    omega
  unfold byte write
  rw [← getD_padded f.data (f.cursor - f.data.length) j]
  generalize f.data ++ List.replicate (f.cursor - f.data.length) (0 : UInt8) = padded at *
  simp only [List.getD_eq_getElem?_getD]
  have htake : (padded.take f.cursor).length = f.cursor := by
    rw [List.length_take, hlen]
    omega
  by_cases hlow : j < f.cursor
  · rw [List.append_assoc, List.getElem?_append_left (by omega), List.getElem?_take_of_lt hlow,
      if_neg (by omega)]
  · rw [List.append_assoc, List.getElem?_append_right (by omega), htake]
    by_cases hin : j < f.cursor + bytes.length
    · rw [List.getElem?_append_left (by omega), if_pos (by omega)]
    · rw [List.getElem?_append_right (by omega), List.getElem?_drop, if_neg (by omega)]
      congr 2
      omega

end ByteFile

end AmateurOs.Lib
