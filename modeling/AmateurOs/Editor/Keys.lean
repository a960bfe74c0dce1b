/-
# The text editor's keys

`text_editor` keeps the file in one buffer and stands somewhere in it.  Where it stands is kept
six times over: the pointer `file_ptr`, its distance `file_offset` from the start, the column and
the row of the cursor, the length of the line, and the number of lines.  Each key has its own
handler, and each handler keeps all of them up to date by itself.

The handlers are followed here without what they print.  The loops that look for the end of a line
have no bound in the source and take `fuel`.

`get_key` delivers the scan code of a key that is no character, and the keypad's scan codes are
the codes of capital letters: `'S'` is Delete, and `'G'`, `'H'`, `'K'`, `'M'`, `'O'` and `'P'` move
the cursor.
-/
import AmateurOs.Lib.Bytes
import AmateurOs.Lib.Run

namespace AmateurOs.Editor

open AmateurOs.Lib

/-! ## 1. The editor's variables -/

/-- The file's buffer and the variables of the text editor. -/
@[ext] structure TextEditor where
  mem : Bytes
  filePtr : Nat
  fileAddress : Nat
  fileOffset : Nat
  cursorX : Nat
  cursorY : Nat
  currentLineLength : Nat
  fileLengthLines : Nat
  fileLengthBytes : Nat

def newline : UInt8 := 0x0a

def backspaceKey : UInt8 := 0x08
def enterKey : UInt8 := 0x0d
def delKey : UInt8 := 0x53
def leftArrow : UInt8 := 0x4b
def rightArrow : UInt8 := 0x4d
def upArrow : UInt8 := 0x48
def downArrow : UInt8 := 0x50
def homeKey : UInt8 := 0x47
def endKey : UInt8 := 0x4f

/-- `*file_ptr`. -/
def TextEditor.here (s : TextEditor) : UInt8 := s.mem s.filePtr

/-- `file_ptr -= n; file_offset -= n;`. -/
def TextEditor.back (s : TextEditor) (n : Nat) : TextEditor :=
  { s with filePtr := sub32 s.filePtr n, fileOffset := sub32 s.fileOffset n }

/-- `file_ptr += n; file_offset += n;`. -/
def TextEditor.forward (s : TextEditor) (n : Nat) : TextEditor :=
  { s with filePtr := u32 (s.filePtr + n), fileOffset := u32 (s.fileOffset + n) }

/-- `current_line_length++`. -/
def TextEditor.longer (s : TextEditor) : TextEditor :=
  { s with currentLineLength := u32 (s.currentLineLength + 1) }

/-! ## 2. Editing -/

/-- Backspace and Delete. -/
def deleteChar (key : UInt8) (s : TextEditor) : TextEditor :=
  if key = backspaceKey ∧ s.cursorX = 0 then s
  else if s.here = newline then s
  else if s.here = 0 ∧ s.fileOffset ≠ 0 then
    -- At the end of the file the cursor moves back, and the byte stays.
    { s.back 1 with
      cursorX := sub32 s.cursorX 1
      currentLineLength := sub32 s.currentLineLength 1 }
  else
    let s := if key = backspaceKey then { s.back 1 with cursorX := sub32 s.cursorX 1 } else s
    { s with
      mem := memcpy s.mem s.filePtr (u32 (s.filePtr + 1)) (sub32 s.fileLengthBytes s.fileOffset)
      fileLengthBytes := sub32 s.fileLengthBytes 1
      currentLineLength := sub32 s.currentLineLength 1 }

/-- `*to-- = *from--`, with `from` one behind `to`. -/
def moveUp (m : Bytes) (dst : Nat) : Nat → Bytes
  | 0 => m
  | n + 1 => moveUp (Function.update m dst (m (sub32 dst 1))) (sub32 dst 1) n

/-- The byte that is inserted: a line feed for a carriage return. -/
def typedByte (key : UInt8) : UInt8 := if key = enterKey then newline else key

/-- The key is put in front of the cursor: all file data from the cursor on moves up. -/
def TextEditor.put (key : UInt8) (s : TextEditor) : TextEditor :=
  let moved := moveUp s.mem (u32 (s.fileAddress + s.fileLengthBytes))
    (sub32 s.fileLengthBytes s.fileOffset)
  let s := { s.longer with
    mem := Function.update moved s.filePtr (typedByte key)
    fileLengthBytes := u32 (s.fileLengthBytes + 1)
    fileLengthLines := if key = enterKey then u32 (s.fileLengthLines + 1) else s.fileLengthLines }
  s.forward 1

/-- The `default` case: a key is inserted. -/
def insertChar (fuel : Nat) (key : UInt8) (s : TextEditor) : Option TextEditor := do
  let s := s.put key
  if typedByte key = newline then
    let s := { s with cursorX := 0, cursorY := u32 (s.cursorY + 1), currentLineLength := 0 }
    let s ← loop (fun s => s.here ≠ newline ∧ s.here ≠ 0) (fun s => (s.forward 1).longer) fuel s
    some (s.back s.currentLineLength)
  else some { s with cursorX := u32 (s.cursorX + 1) }

/-! ## 3. Moving -/

def moveLeft (s : TextEditor) : TextEditor :=
  if s.cursorX ≠ 0 then { s.back 1 with cursorX := sub32 s.cursorX 1 } else s

def moveRight (s : TextEditor) : TextEditor :=
  if s.cursorX < s.currentLineLength then { s.forward 1 with cursorX := u32 (s.cursorX + 1) }
  else s

/-- A line that is shorter than where the cursor is takes the cursor to its end. -/
def TextEditor.clip (s : TextEditor) : TextEditor :=
  if s.currentLineLength < u32 (s.cursorX + 1) then
    { s with cursorX := sub32 s.currentLineLength 1 }
  else s

/-- Behind the search for the start of a line. -/
def TextEditor.lineStart (s : TextEditor) : TextEditor :=
  if s.here = newline then s.forward 1
  else if s.fileOffset = 0 then s.longer  -- the first byte of the file is counted too
  else s

def moveUpLine (fuel : Nat) (s : TextEditor) : Option TextEditor :=
  if s.cursorY = 0 then some s
  else do
    let s := { s with cursorY := sub32 s.cursorY 1, currentLineLength := 0 }
    -- To the end of the line above, and past it.
    let s ← loop (fun s => s.here ≠ newline) (fun s => s.back 1) fuel (s.back 1)
    let s := (s.back 1).longer
    -- To the end of the line before that one, or to the first byte of the file.
    let s ← loop (fun s => s.here ≠ newline ∧ s.fileOffset ≠ 0) (fun s => (s.back 1).longer) fuel s
    let s := s.lineStart.clip
    some (s.forward s.cursorX)

def moveDownLine (fuel : Nat) (s : TextEditor) : Option TextEditor :=
  if s.cursorY = s.fileLengthLines then some s
  else do
    let s := { s with cursorY := u32 (s.cursorY + 1), currentLineLength := 0 }
    -- To the end of this line, and past it.
    let s ← loop (fun s => s.here ≠ newline) (fun s => s.forward 1) fuel s
    let s := s.forward 1
    -- To the end of the next line, or to the last byte of the file.
    let s ← loop (fun s => (s.here ≠ newline ∧ s.here ≠ 0) ∧
      s.fileOffset ≠ sub32 s.fileLengthBytes 1) (fun s => (s.forward 1).longer) fuel s
    let s := s.longer.clip
    let s := s.back (sub32 s.currentLineLength 1)
    some (s.forward s.cursorX)

def moveHome (s : TextEditor) : TextEditor := { s.back s.cursorX with cursorX := 0 }

def moveEnd (s : TextEditor) : TextEditor :=
  let difference := sub32 (sub32 s.currentLineLength 1) s.cursorX
  { s.forward difference with cursorX := u32 (s.cursorX + difference) }

/-! ## 4. One key -/

/-- One turn of `text_editor`'s loop with a key and without Ctrl. -/
def textEditorKey (fuel : Nat) (key : UInt8) (s : TextEditor) : Option TextEditor :=
  if key = backspaceKey ∨ key = delKey then some (deleteChar key s)
  else if key = leftArrow then some (moveLeft s)
  else if key = rightArrow then some (moveRight s)
  else if key = upArrow then moveUpLine fuel s
  else if key = downArrow then moveDownLine fuel s
  else if key = homeKey then some (moveHome s)
  else if key = endKey then some (moveEnd s)
  else insertChar fuel key s

/-- **A key is handled**: the handler returns, with `s'`. -/
def Handled (s : TextEditor) (key : UInt8) (s' : TextEditor) : Prop :=
  ∃ n, ∀ fuel, n ≤ fuel → textEditorKey fuel key s = some s'

theorem Handled.unique {s s₁ s₂ : TextEditor} {key : UInt8} (h₁ : Handled s key s₁)
    (h₂ : Handled s key s₂) : s₁ = s₂ := by
  obtain ⟨n₁, h₁⟩ := h₁
  obtain ⟨n₂, h₂⟩ := h₂
  exact Option.some.inj ((h₁ (max n₁ n₂) (Nat.le_max_left _ _)).symm.trans
    (h₂ (max n₁ n₂) (Nat.le_max_right _ _)))

/-- The bytes that Ctrl-S writes: `write(fd, file_address, file_length_bytes)`. -/
def TextEditor.saved (s : TextEditor) : List UInt8 :=
  (List.range s.fileLengthBytes).map fun i => s.mem (s.fileAddress + i)

/-! ## 5. The start -/

/-- `main` with a new text file: `calloc(1, 512)` at `address`. -/
def newFile (mem : Bytes) (address : Nat) : TextEditor :=
  { mem := blit mem address 512 fun _ => 0
    filePtr := address
    fileAddress := address
    fileOffset := 0
    cursorX := 0
    cursorY := 0
    currentLineLength := 0
    fileLengthLines := 0
    fileLengthBytes := 0 }

/-- The loop of `editor_load_file` over the bytes of the file, `n` bytes before the end of it. -/
def countBytes (s : TextEditor) : (n i : Nat) → TextEditor
  | 0, _ => s
  | n + 1, i =>
    if s.mem (s.filePtr + i) = 0 then s
    else
      let s := if s.mem (s.filePtr + i) = newline then
          { s with cursorX := 0, cursorY := u32 (s.cursorY + 1),
                   fileLengthLines := u32 (s.fileLengthLines + 1) }
        else s
      countBytes { s with fileOffset := u32 (s.fileOffset + 1),
                          fileLengthBytes := u32 (s.fileLengthBytes + 1) } n (i + 1)

/-- The loop of `editor_load_file` over the first line, from `file_ptr[i]` on. -/
def firstLine (fuel i : Nat) (s : TextEditor) : Option TextEditor := do
  let x ← loop
    (fun x => x.2.mem (x.2.filePtr + x.1) ≠ newline ∧ x.2.fileOffset ≠ x.2.fileLengthBytes)
    (fun x => (x.1 + 1, { x.2.longer with fileOffset := u32 (x.2.fileOffset + 1) })) fuel (i, s)
  some x.2

/-- `editor_load_file` with a text file of `fileSize` bytes, which `read` has put at `address`. -/
def editorLoadFile (fuel : Nat) (mem : Bytes) (address fileSize : Nat) : Option TextEditor := do
  let s := countBytes
    { mem := mem
      filePtr := address
      fileAddress := address
      fileOffset := 0
      cursorX := 0
      cursorY := 0
      currentLineLength := 0
      fileLengthLines := 0
      fileLengthBytes := 0 } fileSize 0
  let s ← firstLine fuel 0 { s with fileOffset := 0, cursorX := 0, cursorY := 0,
                                    currentLineLength := 0 }
  some { s.longer with fileOffset := 0 }

end AmateurOs.Editor
