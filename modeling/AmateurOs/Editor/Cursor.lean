/-
# A text with a cursor in it

The text editor is meant to show a list of characters with a cursor in front of one of them.
`Cursor` is that list, cut at the cursor: the characters in front of it, nearest first, and the
characters from it on.  Row and column are read off the part in front.

`Stands s c` says that the editor's buffer holds the text of `c` and that `file_ptr`,
`file_offset` and `file_length_bytes` stand for its cut.  The editor's loops walk along one side
of the cut, and what they stop at is read off the list (`forward_walk`, `back_walk`).
-/
import AmateurOs.Editor.Keys

namespace AmateurOs.Editor

open AmateurOs.Lib

/-! ## 1. Texts with a cursor -/

/-- The characters in front of the cursor, nearest first, and those from the cursor on. -/
structure Cursor where
  before : List UInt8
  after : List UInt8
  deriving DecidableEq

namespace Cursor

def text (c : Cursor) : List UInt8 := c.before.reverse ++ c.after

/-- The row: the lines that end in front of the cursor. -/
def row (c : Cursor) : Nat := c.before.count newline

/-- The column: how far the line reaches back from the cursor. -/
def column (c : Cursor) : Nat := (c.before.takeWhile (· ≠ newline)).length

/-- What is left of the line from the cursor on, without its line feed. -/
def ahead (c : Cursor) : Nat := (c.after.takeWhile (· ≠ newline)).length

end Cursor

@[simp] theorem length_text (c : Cursor) : c.text.length = c.before.length + c.after.length := by
  simp [Cursor.text]

theorem text_moved (u v w : List UInt8) :
    (Cursor.mk v (u.reverse ++ w)).text = (Cursor.mk (u ++ v) w).text := by
  simp [Cursor.text]

/-- A text that begins with the end of a line. -/
def LineEnd (w : List UInt8) : Prop := w = [] ∨ ∃ v, w = newline :: v

/-- **A text up to its first line feed.** -/
theorem exists_line (w : List UInt8) : ∃ u v, w = u ++ v ∧ newline ∉ u ∧ LineEnd v := by
  induction w with
  | nil => exact ⟨[], [], rfl, List.not_mem_nil, .inl rfl⟩
  | cons b w ih =>
    by_cases hb : b = newline
    · exact ⟨[], b :: w, rfl, List.not_mem_nil, .inr ⟨w, by rw [hb]⟩⟩
    · obtain ⟨u, v, rfl, hu, hv⟩ := ih
      refine ⟨b :: u, v, rfl, fun h => ?_, hv⟩
      rcases List.mem_cons.mp h with h | h
      · exact hb h.symm
      · exact hu h

/-- The first line of a text. -/
theorem takeWhile_line {u v : List UInt8} (hu : newline ∉ u) (hv : LineEnd v) :
    (u ++ v).takeWhile (· ≠ newline) = u := by
  have hpos : ∀ b ∈ u, decide (b ≠ newline) = true := by
    intro b hb
    simp only [ne_eq, decide_eq_true_eq]
    rintro rfl
    exact hu hb
  rw [List.takeWhile_append_of_pos hpos]
  obtain rfl | ⟨v, rfl⟩ := hv <;> simp

theorem column_line {u v w : List UInt8} (hu : newline ∉ u) (hv : LineEnd v) :
    (Cursor.mk (u ++ v) w).column = u.length :=
  congrArg List.length (takeWhile_line hu hv)

theorem ahead_line {u v w : List UInt8} (hu : newline ∉ u) (hv : LineEnd v) :
    (Cursor.mk w (u ++ v)).ahead = u.length :=
  congrArg List.length (takeWhile_line hu hv)

/-! ## 2. An editor that stands in a text -/

/-- **The editor's buffer and pointers stand for the text `c` and its cut.** -/
structure Stands (s : TextEditor) (c : Cursor) : Prop where
  bytes : ∀ i b, c.text[i]? = some b → s.mem (s.fileAddress + i) = b
  nonzero : ∀ b ∈ c.text, b ≠ 0
  fits : s.fileAddress + c.text.length < 4294967296
  ptr : s.filePtr = s.fileAddress + c.before.length
  offset : s.fileOffset = c.before.length
  length : s.fileLengthBytes = c.text.length

/-- Column, row and line counters may change. -/
theorem Stands.counters {s : TextEditor} {c : Cursor} (h : Stands s c) (x y length lines : Nat) :
    Stands { s with
      cursorX := x
      cursorY := y
      currentLineLength := length
      fileLengthLines := lines } c :=
  ⟨h.bytes, h.nonzero, h.fits, h.ptr, h.offset, h.length⟩

/-- The byte under the cursor. -/
theorem Stands.here {s : TextEditor} {w v : List UInt8} {b : UInt8} (h : Stands s ⟨w, b :: v⟩) :
    s.here = b := by
  have hb := h.bytes w.length b (by simp [Cursor.text])
  rwa [TextEditor.here, h.ptr]

theorem Stands.here_nonzero {s : TextEditor} {w v : List UInt8} {b : UInt8}
    (h : Stands s ⟨w, b :: v⟩) : s.here ≠ 0 := by
  rw [h.here]
  exact h.nonzero b (by simp [Cursor.text])

/-- **Forward over `u`.** -/
theorem Stands.forward {s : TextEditor} {u v w : List UInt8} (h : Stands s ⟨w, u ++ v⟩) :
    Stands (s.forward u.length) ⟨u.reverse ++ w, v⟩ := by
  have htext : (Cursor.mk (u.reverse ++ w) v).text = (Cursor.mk w (u ++ v)).text := by
    simp [Cursor.text]
  have hfits := h.fits
  have hptr := h.ptr
  have hoffset := h.offset
  simp only [length_text, List.length_append] at hfits
  refine ⟨?_, ?_, ?_, ?_, ?_, ?_⟩
  · rw [htext]
    exact h.bytes
  · rw [htext]
    exact h.nonzero
  · rw [htext]
    exact h.fits
  · simp only [TextEditor.forward, List.length_append, List.length_reverse] at *
    rw [u32_eq (by omega)]
    omega
  · simp only [TextEditor.forward, List.length_append, List.length_reverse] at *
    rw [u32_eq (by omega)]
    omega
  · rw [htext]
    exact h.length

/-- **Back over `u`**, whose last character is the nearest. -/
theorem Stands.back {s : TextEditor} {u v w : List UInt8} (h : Stands s ⟨u ++ v, w⟩) :
    Stands (s.back u.length) ⟨v, u.reverse ++ w⟩ := by
  have htext := text_moved u v w
  have hfits := h.fits
  have hptr := h.ptr
  have hoffset := h.offset
  simp only [length_text, List.length_append] at hfits
  refine ⟨?_, ?_, ?_, ?_, ?_, ?_⟩
  · rw [htext]
    exact h.bytes
  · rw [htext]
    exact h.nonzero
  · rw [htext]
    exact h.fits
  · simp only [TextEditor.back, List.length_append] at *
    rw [sub32_eq (by omega) (by omega)]
    omega
  · simp only [TextEditor.back, List.length_append] at *
    rw [sub32_eq (by omega) (by omega)]
    omega
  · rw [htext]
    exact h.length

/-! ## 3. Walks -/

/-- `current_line_length` with `n` more counted. -/
def TextEditor.counted (s : TextEditor) (n : Nat) : TextEditor :=
  { s with currentLineLength := u32 (s.currentLineLength + n) }

theorem forward_forward (s : TextEditor) (a b : Nat) :
    (s.forward a).forward b = s.forward (a + b) := by
  simp only [TextEditor.forward, TextEditor.mk.injEq, true_and, and_true]
  unfold u32
  omega

theorem back_back (s : TextEditor) (a b : Nat) : (s.back a).back b = s.back (a + b) := by
  simp only [TextEditor.back, TextEditor.mk.injEq, true_and, and_true]
  unfold sub32 u32
  omega

/-- Forward and part of the way back. -/
theorem back_forward (s : TextEditor) {a b : Nat} (h : b ≤ a) :
    (s.back a).forward b = s.back (a - b) := by
  simp only [TextEditor.back, TextEditor.forward, TextEditor.mk.injEq, true_and, and_true]
  unfold sub32 u32
  omega

theorem longer_counted (s : TextEditor) (n : Nat) : (s.counted n).longer = s.counted (n + 1) := by
  simp only [TextEditor.counted, TextEditor.longer, TextEditor.mk.injEq, true_and, and_true]
  unfold u32
  omega

@[simp] theorem here_counted (s : TextEditor) (n : Nat) : (s.counted n).here = s.here := rfl

@[simp] theorem fileOffset_counted (s : TextEditor) (n : Nat) :
    (s.counted n).fileOffset = s.fileOffset := rfl

theorem back_counted (s : TextEditor) (k n : Nat) :
    (s.counted n).back k = (s.back k).counted n := rfl

theorem forward_counted (s : TextEditor) (k n : Nat) :
    (s.counted n).forward k = (s.forward k).counted n := rfl

section

variable {s : TextEditor} {u v w : List UInt8}

theorem Stands.forward_zero {c : Cursor} (h : Stands s c) : s.forward 0 = s := by
  have hfits := h.fits
  rw [length_text] at hfits
  have hptr : u32 s.filePtr = s.filePtr := u32_eq (by rw [h.ptr]; omega)
  have hoffset : u32 s.fileOffset = s.fileOffset := u32_eq (by rw [h.offset]; omega)
  simp only [TextEditor.forward, Nat.add_zero, hptr, hoffset]

/-- Where the pointers are, in numbers. -/
theorem Stands.numbers (h : Stands s ⟨w, u⟩) :
    s.filePtr = s.fileAddress + w.length ∧ s.fileOffset = w.length ∧
      s.fileLengthBytes = w.length + u.length ∧
        s.fileAddress + w.length + u.length < 4294967296 := by
  have hfits := h.fits
  rw [length_text] at hfits
  exact ⟨h.ptr, h.offset, h.length.trans (length_text _), by rwa [Nat.add_assoc]⟩

/-- The byte `k` places ahead. -/
theorem Stands.ahead {k : Nat} {b : UInt8} (h : Stands s ⟨w, u⟩) (hb : u[k]? = some b) :
    (s.forward k).here = b := by
  have hk : k < u.length := (List.getElem?_eq_some_iff.mp hb).1
  have hread := h.bytes (w.length + k) b (by
    rw [Cursor.text, List.getElem?_append_right (by simp)]
    simpa using hb)
  obtain ⟨hptr, -, -, hfits⟩ := h.numbers
  simp only [TextEditor.here, TextEditor.forward]
  rw [hptr, u32_eq (by omega), Nat.add_assoc]
  exact hread

/-- The byte `k + 1` places back. -/
theorem Stands.behind {k : Nat} {b : UInt8} (h : Stands s ⟨w, u⟩) (hb : w[k]? = some b) :
    (s.back (k + 1)).here = b := by
  have hk : k < w.length := (List.getElem?_eq_some_iff.mp hb).1
  have hread := h.bytes (w.length - (k + 1)) b (by
    rw [Cursor.text, List.getElem?_append_left (by rw [List.length_reverse]; simp only; omega),
      List.getElem?_reverse (by simp only; omega)]
    simpa [show w.length - 1 - (w.length - (k + 1)) = k by omega] using hb)
  obtain ⟨hptr, -, -, hfits⟩ := h.numbers
  simp only [TextEditor.here, TextEditor.back]
  rw [hptr, sub32_eq (by omega) (by omega), Nat.add_sub_assoc hk]
  exact hread

theorem Stands.offset_forward {k : Nat} (h : Stands s ⟨w, u⟩) (hk : k ≤ u.length) :
    (s.forward k).fileOffset = w.length + k := by
  obtain ⟨-, hoffset, -, hfits⟩ := h.numbers
  simp only [TextEditor.forward]
  rw [hoffset, u32_eq (by omega)]

theorem Stands.offset_back {k : Nat} (h : Stands s ⟨w, u⟩) (hk : k ≤ w.length) :
    (s.back k).fileOffset = w.length - k := by
  obtain ⟨-, hoffset, -, hfits⟩ := h.numbers
  simp only [TextEditor.back]
  rw [hoffset, sub32_eq (by omega) hk]

/-- What does not occur in a list is none of its members. -/
theorem ne_newline_of_getElem {k : Nat} {b : UInt8} (hu : newline ∉ u) (hb : u[k]? = some b) :
    b ≠ newline := by
  rintro rfl
  exact hu (List.mem_of_getElem? hb)

end

end AmateurOs.Editor
